import KernelLabs.MachineWords
import KernelLabs.MemMove
import KernelLabs.PanicMonad
import Mathlib.Data.List.Range

/-!
The text display of kern/console.c. A store to crt_buf behind its end, and a memmove that leaves
it, stop the run with an error. cga_putc prints a tab through cons_putc, which calls cga_putc
again; the recursion has a bound of its own, which it does not reach.
-/
namespace KernelLabs.ScreenOutput

open MachineWords PanicMonad Function List

abbrev CRT_ROWS : ℕ := 25

abbrev CRT_COLS : ℕ := 80

abbrev CRT_SIZE : ℕ := CRT_ROWS * CRT_COLS

abbrev Char32 := BitVec 32

/-- What the devices were sent: characters to the serial and the parallel port, and the
location of the cursor. -/
inductive Sent
  | serial (c : Char32)
  | lpt (c : Char32)
  | cursor (pos : ℕ)

structure Screen where
  crtBuf : ℕ → BitVec 16
  crtPos : ℕ
  sent : List Sent

abbrev ConM := EStateM String Screen

def store (i : ℕ) (v : BitVec 16) : ConM Unit := do
  if i < CRT_SIZE then modify fun s => { s with crtBuf := update s.crtBuf i v }
  else throw "crt_buf"

def setPos (pos : ℕ) : ConM Unit := modify fun s => { s with crtPos := uint16 pos }

def send (d : Sent) : ConM Unit := modify fun s => { s with sent := d :: s.sent }

def memmove (dst src n : ℕ) : ConM Unit := do
  if dst + n ≤ CRT_SIZE ∧ src + n ≤ CRT_SIZE then
    modify fun s => { s with
      crtBuf := fun i => if dst ≤ i ∧ i < dst + n then s.crtBuf (i - dst + src) else s.crtBuf i }
  else throw "crt_buf"

abbrev BLANK : BitVec 16 := 0x0700 ||| 0x20

def scroll : ConM Unit := do
  memmove 0 CRT_COLS (CRT_SIZE - CRT_COLS)
  (range' (CRT_SIZE - CRT_COLS) CRT_COLS).forM fun i => store i BLANK
  setPos ((← get).crtPos - CRT_COLS)

def consPutc (cgaPutc : Char32 → ConM Unit) (c : Char32) : ConM Unit := do
  send (.serial c)
  send (.lpt c)
  cgaPutc c

def display (cgaPutc : Char32 → ConM Unit) (c : Char32) : ConM Unit := do
  let pos := (← get).crtPos
  if c &&& 0xff = 0x08 then
    if 0 < pos then
      setPos (pos - 1)
      store (pos - 1) (((c &&& ~~~0xff) ||| 0x20).setWidth 16)
  else if c &&& 0xff = 0x0a then
    setPos (pos + CRT_COLS)
    let pos := (← get).crtPos
    setPos (pos - pos % CRT_COLS)
  else if c &&& 0xff = 0x0d then
    setPos (pos - pos % CRT_COLS)
  else if c &&& 0xff = 0x09 then
    (replicate 5 (0x20 : Char32)).forM (consPutc cgaPutc)
  else
    setPos (pos + 1)
    store pos (c.setWidth 16)

/-- The function cga_putc, with a bound on the depth of its recursion. -/
def cgaPutc : ℕ → Char32 → ConM Unit
  | 0, _ => throw "cga_putc"
  | depth + 1, c => do
    display (cgaPutc depth) (if c &&& ~~~0xff = 0 then c ||| 0x0700 else c)
    if CRT_SIZE ≤ (← get).crtPos then scroll
    send (.cursor (← get).crtPos)

/-! ### Scrolling -/

/-- Rows 1 to 24 have moved up by one, the last row is blank and the cursor is in the row above
in the same column. -/
structure Scrolled (s t : Screen) : Prop where
  rows : ∀ row < CRT_ROWS - 1, ∀ col < CRT_COLS,
    t.crtBuf (row * CRT_COLS + col) = s.crtBuf ((row + 1) * CRT_COLS + col)
  last : ∀ col < CRT_COLS, t.crtBuf ((CRT_ROWS - 1) * CRT_COLS + col) = BLANK
  pos : t.crtPos + CRT_COLS = s.crtPos
  column : t.crtPos % CRT_COLS = s.crtPos % CRT_COLS

section Scroll

variable {s : Screen} {Q : Unit → Screen → Prop}

theorem returns_store {i : ℕ} {v : BitVec 16} (hi : i < CRT_SIZE)
    (hQ : Q () { s with crtBuf := update s.crtBuf i v }) : Returns (store i v) s Q := by
  unfold store
  rw [if_pos hi, returns_modify]
  exact hQ

theorem returns_fill {v : BitVec 16} (is : List ℕ) (his : ∀ i ∈ is, i < CRT_SIZE) :
    Returns (is.forM fun i => store i v) s fun _ t =>
      t = { s with crtBuf := fun j => if j ∈ is then v else s.crtBuf j } := by
  induction is generalizing s with
  | nil =>
    exact (returns_pure _).mpr rfl
  | cons i is ih =>
    refine returns_bind (returns_store (his i mem_cons_self) ?_)
    refine (ih fun j hj => his j (mem_cons_of_mem i hj)).mono fun _ t ht => ?_
    rw [ht]
    congr 1
    funext j
    by_cases hj : j ∈ is
    · rw [if_pos hj, if_pos (mem_cons_of_mem i hj)]
    · rw [if_neg hj]
      dsimp only
      by_cases hji : j = i
      · rw [hji, update_self, if_pos mem_cons_self]
      · rw [update_of_ne hji, if_neg (by rw [mem_cons, not_or]; exact ⟨hji, hj⟩)]

/-- The cells of crt_buf lie in memory from `base` on, two bytes each. -/
def Cells (mem : MemMove.Mem) (base : Char32) (buf : ℕ → BitVec 16) : Prop :=
  ∀ k < 2 * CRT_SIZE, mem (base + BitVec.ofNat 32 k) =
    ⟨(buf (k / 2) >>> (8 * (k % 2))).setWidth 8⟩

/-- On the cells memmove does what memmove of lib/string.c does on their bytes. -/
theorem cells_memmove {mem : MemMove.Mem} {base : Char32} {dst src n : ℕ}
    (hbase : base.toNat + 2 * CRT_SIZE ≤ 2 ^ 32) (h : Cells mem base s.crtBuf)
    (hdst : dst + n ≤ CRT_SIZE) (hsrc : src + n ≤ CRT_SIZE) :
    Returns (memmove dst src n) s fun _ t =>
      Cells (MemMove.memmove (base + BitVec.ofNat 32 (2 * dst)) (base + BitVec.ofNat 32 (2 * src))
        (BitVec.ofNat 32 (2 * n)) mem).2 base t.crtBuf := by
  rw [memmove, if_pos ⟨hdst, hsrc⟩, returns_modify]
  change base.toNat + 4000 ≤ 2 ^ 32 at hbase
  change dst + n ≤ 2000 at hdst
  change src + n ≤ 2000 at hsrc
  have hnat (i : ℕ) (hi : i ≤ 4000) : (BitVec.ofNat 32 i).toNat = i := by
    rw [BitVec.toNat_ofNat]
    omega
  have hranges : MemMove.Ranges (base + BitVec.ofNat 32 (2 * dst))
      (base + BitVec.ofNat 32 (2 * src)) (BitVec.ofNat 32 (2 * n)) := by
    constructor <;> rw [BitVec.toNat_add, hnat _ (by omega), hnat _ (by omega)] <;> omega
  obtain ⟨mem', heq, hcopied⟩ := MemMove.memmove_eq hranges mem
  obtain ⟨-, hnew, hold⟩ := hcopied.snapshot
  rw [hnat _ (by omega)] at hnew hold
  intro k hk
  change k < 4000 at hk
  rw [heq]
  dsimp only at hnew hold ⊢
  by_cases hin : dst ≤ k / 2 ∧ k / 2 < dst + n
  · obtain ⟨j, rfl⟩ : ∃ j, k = 2 * dst + j := ⟨k - 2 * dst, by omega⟩
    have hcell : (2 * src + j) / 2 = (2 * dst + j) / 2 - dst + src ∧
        (2 * src + j) % 2 = (2 * dst + j) % 2 := by omega
    rw [if_pos hin, ← hcell.1, ← hcell.2, ← h _ (show _ < 4000 by omega), BitVec.ofNat_add,
      BitVec.ofNat_add, ← BitVec.add_assoc, ← BitVec.add_assoc]
    exact hnew j (by omega)
  · rw [if_neg hin, ← h k hk]
    refine hold _ fun i hi heq => hin ?_
    rw [BitVec.add_assoc, ← BitVec.ofNat_add] at heq
    have hsame := congrArg BitVec.toNat (add_left_cancel heq)
    rw [hnat _ (by omega), hnat _ (by omega)] at hsame
    omega

theorem returns_scroll (hpos : CRT_SIZE ≤ s.crtPos) (hlt : s.crtPos < 2 ^ 16) :
    Returns scroll s fun _ t => Scrolled s t := by
  have hpos : 2000 ≤ s.crtPos := hpos
  unfold scroll memmove
  rw [if_pos (by decide)]
  refine returns_bind ((returns_modify _).mpr (returns_bind ?_))
  have hrange (i : ℕ) : i ∈ range' (CRT_SIZE - CRT_COLS) CRT_COLS ↔
      1920 ≤ i ∧ i < 2000 := mem_range'_1
  refine (returns_fill _ fun i hi => ((hrange i).mp hi).2).mono fun _ t ht => ?_
  have hleft : uint16 (s.crtPos - 80) = s.crtPos - 80 := Nat.mod_eq_of_lt (by omega)
  rw [returns_get_bind, setPos, returns_modify, ht]
  refine ⟨fun row hrow col hcol => ?_, fun col hcol => ?_, ?_, ?_⟩
  · have hrow : row < 24 := hrow
    have hcol : col < 80 := hcol
    have hkept : row * 80 + col ∉ range' (CRT_SIZE - CRT_COLS) CRT_COLS := fun hmem => by
      have := ((hrange _).mp hmem).1
      omega
    have hmoved : 0 ≤ row * 80 + col ∧ row * 80 + col < 0 + 1920 := by omega
    have hsource : row * 80 + col - 0 + 80 = (row + 1) * 80 + col := by omega
    refine (if_neg hkept).trans ((if_pos hmoved).trans ?_)
    exact congrArg s.crtBuf hsource
  · have hcol : col < 80 := hcol
    have hblank : 24 * 80 + col ∈ range' (CRT_SIZE - CRT_COLS) CRT_COLS := (hrange _).mpr (by omega)
    exact if_pos hblank
  · change uint16 (s.crtPos - 80) + 80 = s.crtPos
    omega
  · change uint16 (s.crtPos - 80) % 80 = s.crtPos % 80
    omega

end Scroll

/-! ### Characters -/

def OnScreen (s : Screen) : Prop := s.crtPos < CRT_SIZE

section Characters

variable {s : Screen} {cga : Char32 → ConM Unit} {c : Char32}

theorem returns_setPos_bind {α : Type} {pos : ℕ} (hpos : pos < 2 ^ 16) {f : Unit → ConM α}
    {Q : α → Screen → Prop} (h : Returns (f ()) { s with crtPos := pos } Q) :
    Returns (setPos pos >>= f) s Q := by
  have huint : uint16 pos = pos := Nat.mod_eq_of_lt hpos
  unfold setPos
  rw [huint, returns_modify_bind]
  exact h

theorem returns_setPos {pos : ℕ} (hpos : pos < 2 ^ 16) {Q : Unit → Screen → Prop}
    (hQ : Q () { s with crtPos := pos }) : Returns (setPos pos) s Q := by
  have huint : uint16 pos = pos := Nat.mod_eq_of_lt hpos
  unfold setPos
  rw [huint, returns_modify]
  exact hQ

/-- The cursor is at most one place behind the end before cga_putc looks whether to scroll. -/
theorem returns_display (h : OnScreen s)
    (htab : c &&& 0xff = 0x09 → ∀ t, OnScreen t → Returns (cga 0x20) t fun _ u => OnScreen u) :
    Returns (display cga c) s fun _ t => t.crtPos ≤ CRT_SIZE := by
  have hpos : s.crtPos < 2000 := h
  unfold display
  rw [returns_get_bind]
  dsimp only
  by_cases hback : c &&& 0xff = 0x08
  · rw [if_pos hback]
    by_cases hzero : 0 < s.crtPos
    · rw [if_pos hzero]
      refine returns_setPos_bind (by omega) (returns_store ?_ ?_)
      · change s.crtPos - 1 < 2000
        omega
      · change s.crtPos - 1 ≤ 2000
        omega
    · rw [if_neg hzero, returns_pure]
      exact hpos.le
  rw [if_neg hback]
  by_cases hline : c &&& 0xff = 0x0a
  · have hstart : s.crtPos + 80 - (s.crtPos + 80) % 80 ≤ 2000 := by omega
    rw [if_pos hline]
    refine returns_setPos_bind (Nat.lt_trans (Nat.add_lt_add_right hpos 80) (by decide)) ?_
    rw [returns_get_bind]
    exact returns_setPos (Nat.lt_of_le_of_lt hstart (by decide)) hstart
  rw [if_neg hline]
  by_cases hreturn : c &&& 0xff = 0x0d
  · have hstart : s.crtPos - s.crtPos % 80 ≤ 2000 := by omega
    rw [if_pos hreturn]
    exact returns_setPos (Nat.lt_of_le_of_lt hstart (by decide)) hstart
  rw [if_neg hreturn]
  by_cases htabs : c &&& 0xff = 0x09
  · rw [if_pos htabs]
    have hspaces : Returns ((replicate 5 (0x20 : Char32)).forM (consPutc cga)) s
        fun _ t => OnScreen t := by
      refine returns_forM _ (fun d hd t ht => ?_) h
      rw [eq_of_mem_replicate hd]
      unfold consPutc send
      rw [returns_modify_bind, returns_modify_bind]
      exact htab htabs _ ht
    exact hspaces.mono fun _ t ht => Nat.le_of_lt ht
  · rw [if_neg htabs]
    refine returns_setPos_bind (by omega) (returns_store h ?_)
    exact hpos

theorem returns_cgaPutc {depth : ℕ} (h : OnScreen s)
    (htab : c &&& 0xff = 0x09 →
      ∀ t, OnScreen t → Returns (cgaPutc depth 0x20) t fun _ u => OnScreen u) :
    Returns (cgaPutc (depth + 1) c) s fun _ t => OnScreen t := by
  rw [cgaPutc]
  set c' := if c &&& ~~~0xff = 0 then c ||| 0x0700 else c with hc'
  have hlow : c' &&& 0xff = c &&& 0xff := by
    rw [hc']
    split
    · have hattribute : (0x0700 : Char32) &&& 0xff = 0#32 := by decide
      rw [BitVec.and_or_distrib_right, hattribute, BitVec.or_zero]
    · rfl
  refine returns_bind ((returns_display h fun h => htab (hlow ▸ h)).mono fun _ t ht => ?_)
  rw [returns_get_bind]
  by_cases hend : CRT_SIZE ≤ t.crtPos
  · rw [if_pos hend]
    have hlt : t.crtPos < 2 ^ 16 := Nat.lt_of_le_of_lt ht (by decide)
    refine returns_bind ((returns_scroll hend hlt).mono fun _ u hu => ?_)
    rw [returns_get_bind, send, returns_modify]
    have hpos : u.crtPos + 80 = t.crtPos := hu.pos
    have hle : t.crtPos ≤ 2000 := ht
    change u.crtPos < 2000
    omega
  · rw [if_neg hend]
    dsimp only
    rw [returns_get_bind, send, returns_modify]
    exact Nat.lt_of_not_le hend

end Characters

abbrev putc : Char32 → ConM Unit := cgaPutc 2

/-- Screen output stays on the screen. From every state with the cursor on the screen, every
sequence of characters is printed without a store outside of crt_buf, and the cursor is on the
screen again. A scroll moves the rows up, blanks the last one and keeps the column. -/
theorem screen_output (chars : List Char32) {s : Screen} (h : OnScreen s) :
    (Returns (chars.forM putc) s fun _ t => OnScreen t) ∧
      ∀ u : Screen, CRT_SIZE ≤ u.crtPos → u.crtPos < 2 ^ 16 →
        Returns scroll u fun _ t => Scrolled u t := by
  have hspace (t : Screen) (ht : OnScreen t) :
      Returns (cgaPutc 1 0x20) t fun _ u => OnScreen u :=
    returns_cgaPutc ht fun htab => absurd htab (by decide)
  refine ⟨returns_forM chars (fun c _ t ht => returns_cgaPutc ht fun _ => hspace) h, ?_⟩
  exact fun u hpos hlt => returns_scroll hpos hlt

/-- A tab and a newline from the last place of the screen. -/
theorem screen_output_tab :
    Returns ([0x09, 0x0a].forM putc) ⟨fun _ => BLANK, 1999, []⟩ fun _ t => OnScreen t :=
  (screen_output [0x09, 0x0a] (s := ⟨fun _ => BLANK, 1999, []⟩) (by unfold OnScreen; decide)).1

end KernelLabs.ScreenOutput

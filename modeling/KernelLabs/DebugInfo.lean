import KernelLabs.StabRegion

/-!
The function debuginfo_eip of lab1's kern/kdebug.c. It searches the symbol table for the
source file that contains an address, in the file's entries for the function, and in the
function's entries for the line, whose values are offsets from the start of the function.
-/
namespace KernelLabs.DebugInfo

open PageWords WhileLoop StabSearch

def ULIM : Word := 0xef800000

def N_FUN : ℤ := 0x24
def N_SLINE : ℤ := 0x44
def N_SO : ℤ := 0x64
def N_SOL : ℤ := 0x84
def N_PSYM : ℤ := 0xa0

/-- The entries between __STAB_BEGIN__ and __STAB_END__ and the bytes of the string table. -/
structure Symbols where
  entries : List Stab
  stabstr : List (BitVec 8)

/-- Where a name points to: the text "<unknown>" or an offset into the string table. -/
inductive Name
  | unknown
  | str (offset : ℕ)
  deriving DecidableEq

structure Eipdebuginfo where
  eipFile : Name
  eipLine : ℤ
  eipFnName : Name
  eipFnNamelen : ℤ
  eipFnAddr : Word
  eipFnNarg : ℤ
  deriving DecidableEq

namespace Symbols

variable (t : Symbols)

def stabs : ℤ → Stab := stabsOf t.entries

def lastEntry : ℤ := t.entries.length - 1

def text : Name → List (BitVec 8)
  | .unknown => "<unknown>".toList.map (fun c => BitVec.ofNat 8 c.toNat) ++ [0]
  | .str offset => t.stabstr.drop offset

def nameOf (i : ℤ) (old : Name) : Name :=
  if (t.stabs i).nStrx.toNat < t.stabstr.length then .str (t.stabs i).nStrx.toNat else old

/-- The check that the string table is not empty and ends with a null byte. -/
def Terminated : Prop := t.stabstr.getLast? = some 0

instance : Decidable t.Terminated := by
  unfold Terminated
  infer_instance

end Symbols

def strfind (s : List (BitVec 8)) (c : BitVec 8) : ℕ :=
  (s.takeWhile (fun b => b != 0 && b != c)).length

def initial (addr : Word) : Eipdebuginfo := ⟨.unknown, 0, .unknown, 9, addr, 0⟩

variable (t : Symbols)

def functionInfo (addr : Word) (function : ℤ × ℤ) : Eipdebuginfo :=
  let info :=
    if function.1 ≤ function.2 then
      { initial addr with
        eipFnName := t.nameOf function.1 .unknown
        eipFnAddr := (t.stabs function.1).nValue }
    else initial addr
  { info with eipFnNamelen := strfind (t.text info.eipFnName) 0x3a }

def fileEntry (lfile lline : ℤ) : ℤ :=
  walkDown (fun i => ofType t.stabs N_SOL i ||
    (ofType t.stabs N_SO i && (t.stabs i).nValue != 0)) lfile lline

def countArgs (function : ℤ × ℤ) : ℤ × ℤ :=
  whileLoop (fun s => decide (s.1 < function.2) && ofType t.stabs N_PSYM s.1)
    (fun s => (s.1 + 1, s.2 + 1)) (function.2 - function.1).toNat (function.1 + 1, 0)

def lineInfo (lfile : ℤ) (function : ℤ × ℤ) (lline : ℤ) (info : Eipdebuginfo) :
    Eipdebuginfo :=
  let entry := fileEntry t lfile lline
  { info with
    eipLine := ((t.stabs lline).nDesc.toNat : ℤ)
    eipFile := if lfile ≤ entry then t.nameOf entry info.eipFile else info.eipFile
    eipFnNarg := if function.1 < function.2 then (countArgs t function).2 else info.eipFnNarg }

/-- The returned value and what was stored in `*info`, or the text of the panic. -/
def debuginfoEip (addr : Word) : Except String (ℤ × Eipdebuginfo) :=
  if addr < ULIM then .error "User address"
  else if ¬t.Terminated then .ok (-1, initial addr)
  else
    let file := stabBinsearch t.stabs 0 t.lastEntry N_SO addr
    if file.1 = 0 then .ok (-1, initial addr)
    else
      let function := stabBinsearch t.stabs file.1 file.2 N_FUN addr
      let info := functionInfo t addr function
      let line :=
        if function.1 ≤ function.2 then
          stabBinsearch t.stabs function.1 function.2 N_SLINE (addr - info.eipFnAddr)
        else stabBinsearch t.stabs file.1 file.2 N_SLINE addr
      if line.1 ≤ line.2 then .ok (0, lineInfo t file.1 function line.1 info)
      else .ok (-1, info)

/-! ### What the table says of an address -/

/-- The entries of the files, of the functions of a file, and of the lines of a function are
in increasing order. -/
structure Ordered : Prop where
  files : Increasing t.stabs N_SO 0 t.lastEntry
  functions : ∀ f g, ofType t.stabs N_SO f = true → 0 ≤ f → f ≤ t.lastEntry →
    EndsAt t.stabs N_SO t.lastEntry f g → Increasing t.stabs N_FUN f g
  lines : ∀ f g fn fe, ofType t.stabs N_SO f = true → 0 ≤ f → f ≤ t.lastEntry →
    EndsAt t.stabs N_SO t.lastEntry f g → ofType t.stabs N_FUN fn = true → f ≤ fn → fn ≤ g →
    EndsAt t.stabs N_FUN g fn fe → Increasing t.stabs N_SLINE fn fe

/-- The file with the entries from `f` to `g` contains the address, and in it the function
with the entries from `fn` to `fe`. -/
structure Contains (addr : Word) (f g fn fe : ℤ) : Prop where
  file : Found t.stabs N_SO addr 0 t.lastEntry f g
  function : Found t.stabs N_FUN addr f g fn fe

/-- The N_SLINE entry at `k` is the one of the function with the greatest value that does not
exceed the offset. -/
structure LineOf (offset : Word) (fn fe k : ℤ) : Prop where
  low : fn ≤ k
  high : k ≤ fe
  here : ofType t.stabs N_SLINE k = true
  value_le : value t.stabs k ≤ offset.toNat
  greatest : ∀ j, fn ≤ j → j ≤ fe → ofType t.stabs N_SLINE j = true →
    value t.stabs j ≤ offset.toNat → value t.stabs j ≤ value t.stabs k

/-- A call that returns 0 has stored the number of that line of the function, and without
such a line the call returns -1. -/
def StoresLine (addr : Word) (fn fe : ℤ) : Prop :=
  ∃ ret info, debuginfoEip t addr = .ok (ret, info) ∧
    (ret = 0 → ∃ k, LineOf t (addr - info.eipFnAddr) fn fe k ∧
      info.eipLine = ((t.stabs k).nDesc.toNat : ℤ)) ∧
    ((¬∃ k, LineOf t (addr - (t.stabs fn).nValue) fn fe k) → ret = -1)

def LineRight (addr : Word) : Prop :=
  ∀ f g fn fe, Contains t addr f g fn fe → StoresLine t addr fn fe

/-- The call gives up early, or the entries of all three searches are settled. -/
def Located (addr : Word) : Prop :=
  ∀ f g fn fe, Contains t addr f g fn fe → ¬t.Terminated ∨
    (Settled t.stabs N_SO addr 0 t.lastEntry ∧
      (f = 0 ∨ (Settled t.stabs N_FUN addr f g ∧
        Settled t.stabs N_SLINE (addr - (t.stabs fn).nValue) fn fe)))

variable {t} {addr offset : Word} {f g fn fe k : ℤ}

theorem functionInfo_eipFnAddr (t : Symbols) (addr : Word) (h : fn ≤ fe) :
    (functionInfo t addr (fn, fe)).eipFnAddr = (t.stabs fn).nValue := by
  unfold functionInfo
  dsimp only
  rw [if_pos h]

/-- Once the function was found, the call ends as the search for the line does. -/
theorem debuginfoEip_of_function (haddr : ULIM ≤ addr) (hterm : t.Terminated)
    (hfile : stabBinsearch t.stabs 0 t.lastEntry N_SO addr = (f, g)) (hf : f ≠ 0)
    (hfunction : stabBinsearch t.stabs f g N_FUN addr = (fn, fe)) (hle : fn ≤ fe) :
    debuginfoEip t addr =
      let line := stabBinsearch t.stabs fn fe N_SLINE (addr - (t.stabs fn).nValue)
      if line.1 ≤ line.2 then
        .ok (0, lineInfo t f (fn, fe) line.1 (functionInfo t addr (fn, fe)))
      else .ok (-1, functionInfo t addr (fn, fe)) := by
  have hnot : ¬addr < ULIM := BitVec.not_lt.mpr haddr
  unfold debuginfoEip
  rw [if_neg hnot, if_neg (not_not.mpr hterm)]
  dsimp only
  rw [hfile]
  dsimp only
  rw [if_neg hf, hfunction]
  dsimp only
  rw [if_pos hle, functionInfo_eipFnAddr t addr hle]

theorem debuginfoEip_of_unterminated (haddr : ULIM ≤ addr) (hterm : ¬t.Terminated) :
    debuginfoEip t addr = .ok (-1, initial addr) := by
  unfold debuginfoEip
  rw [if_neg (BitVec.not_lt.mpr haddr), if_pos hterm]

theorem debuginfoEip_of_first (haddr : ULIM ≤ addr) (hterm : t.Terminated)
    (hfile : stabBinsearch t.stabs 0 t.lastEntry N_SO addr = (0, g)) :
    debuginfoEip t addr = .ok (-1, initial addr) := by
  unfold debuginfoEip
  rw [if_neg (BitVec.not_lt.mpr haddr), if_neg (not_not.mpr hterm)]
  dsimp only
  rw [hfile]
  exact if_pos rfl

theorem storesLine_of_fails {info : Eipdebuginfo} (fn fe : ℤ)
    (h : debuginfoEip t addr = .ok (-1, info)) : StoresLine t addr fn fe := by
  refine ⟨-1, info, h, ?_, fun _ => rfl⟩
  intro hzero
  omega

namespace Contains

variable (h : Contains t addr f g fn fe)

include h

theorem functions (hord : Ordered t) : Increasing t.stabs N_FUN f g :=
  hord.functions f g h.file.here h.file.low h.file.high h.file.next

theorem lines (hord : Ordered t) : Increasing t.stabs N_SLINE fn fe :=
  hord.lines f g fn fe h.file.here h.file.low h.file.high h.file.next h.function.here
    h.function.low h.function.high h.function.next

theorem le : fn ≤ fe := by
  have hhigh := h.function.high
  rcases h.function.next with ⟨hR, _⟩ | ⟨n, hn, _, _, _, hright⟩ <;> omega

theorem file_eq (hord : Ordered t) (hsettled : Settled t.stabs N_SO addr 0 t.lastEntry) :
    stabBinsearch t.stabs 0 t.lastEntry N_SO addr = (f, g) :=
  (brackets_of_settled hord.files hsettled).eq_of_found h.file

theorem function_eq (hord : Ordered t) (hsettled : Settled t.stabs N_FUN addr f g) :
    stabBinsearch t.stabs f g N_FUN addr = (fn, fe) :=
  (brackets_of_settled (h.functions hord) hsettled).eq_of_found h.function

end Contains

/-- Over increasing entries the greatest value is that of the last entry. -/
theorem lineOf_iff_floor (hinc : Increasing t.stabs N_SLINE fn fe) :
    LineOf t offset fn fe k ↔ Floor t.stabs N_SLINE offset fn fe k := by
  constructor
  · intro h
    refine ⟨h.low, h.high, h.here, h.value_le, ?_⟩
    intro j hj hjfe hjtype
    by_contra hle
    have hgreatest := h.greatest j (h.low.trans hj.le) hjfe hjtype (by omega)
    have hlt := hinc k j h.low hj hjfe h.here hjtype
    omega
  · intro h
    refine ⟨h.low, h.high, h.here, h.value_le, ?_⟩
    intro j hj hjfe hjtype hjvalue
    rcases lt_trichotomy j k with hlt | heq | hlt
    · exact (hinc j k hj hlt h.high hjtype h.here).le
    · rw [heq]
    · have hlast := h.last j hlt hjfe hjtype
      omega

/-- With settled lines the search finds the line of the offset, and an empty region when
there is none. -/
theorem line_right_of_settled (hinc : Increasing t.stabs N_SLINE fn fe)
    (hsettled : Settled t.stabs N_SLINE offset fn fe) :
    LineOf t offset fn fe (stabBinsearch t.stabs fn fe N_SLINE offset).1 ∨
      ((stabBinsearch t.stabs fn fe N_SLINE offset).2 <
          (stabBinsearch t.stabs fn fe N_SLINE offset).1 ∧
        ¬∃ k, LineOf t offset fn fe k) := by
  have hbrackets := brackets_of_settled hinc hsettled
  by_cases hreached : Reached t.stabs N_SLINE offset fn fe
  · exact Or.inl ((lineOf_iff_floor hinc).mpr (hbrackets.found hreached).toFloor)
  · refine Or.inr ⟨hbrackets.missing hreached, ?_⟩
    rintro ⟨k, hk⟩
    exact hreached ⟨k, hk.low, hk.high, hk.here, hk.value_le⟩

theorem lineRight_of_located (haddr : ULIM ≤ addr) (hord : Ordered t)
    (hlocated : Located t addr) : LineRight t addr := by
  intro f g fn fe hcontains
  by_cases hterm : t.Terminated
  swap
  · exact storesLine_of_fails fn fe (debuginfoEip_of_unterminated haddr hterm)
  rcases hlocated f g fn fe hcontains with hnot | ⟨hfiles, hrest⟩
  · exact (hnot hterm).elim
  have hfile := hcontains.file_eq hord hfiles
  by_cases hf : f = 0
  · rw [hf] at hfile
    exact storesLine_of_fails fn fe (debuginfoEip_of_first haddr hterm hfile)
  obtain ⟨hfunctions, hlines⟩ := hrest.resolve_left hf
  have hfunction := hcontains.function_eq hord hfunctions
  have hend := debuginfoEip_of_function haddr hterm hfile hf hfunction hcontains.le
  have hfnaddr := functionInfo_eipFnAddr t addr hcontains.le
  dsimp only at hend
  by_cases hle : (stabBinsearch t.stabs fn fe N_SLINE (addr - (t.stabs fn).nValue)).1 ≤
      (stabBinsearch t.stabs fn fe N_SLINE (addr - (t.stabs fn).nValue)).2
  · rcases line_right_of_settled (hcontains.lines hord) hlines with hline | ⟨hempty, _⟩
    · rw [if_pos hle] at hend
      refine ⟨0, _, hend, fun _ => ⟨_, ?_, rfl⟩, fun hnone => (hnone ⟨_, hline⟩).elim⟩
      change LineOf t (addr - (functionInfo t addr (fn, fe)).eipFnAddr) fn fe _
      rw [hfnaddr]
      exact hline
    · omega
  · rw [if_neg hle] at hend
    exact storesLine_of_fails fn fe hend

/-- A missed line is stored all the same. So with settled files and functions, and with line
numbers that tell the entries of the function apart, the lines are settled where the right
number was stored. -/
theorem settled_of_lineRight (haddr : ULIM ≤ addr) (hord : Ordered t)
    (hcontains : Contains t addr f g fn fe) (hterm : t.Terminated) (hf : f ≠ 0)
    (hfiles : Settled t.stabs N_SO addr 0 t.lastEntry) (hfunctions : Settled t.stabs N_FUN addr f g)
    (hdistinct : ∀ i j, fn ≤ i → i < j → j ≤ fe → (t.stabs i).nDesc ≠ (t.stabs j).nDesc)
    (hright : LineRight t addr) : Settled t.stabs N_SLINE (addr - (t.stabs fn).nValue) fn fe := by
  have hinc := hcontains.lines hord
  rcases stabBinsearch_outcome t.stabs N_SLINE fn fe (addr - (t.stabs fn).nValue) hinc with
    ⟨hsettled, _⟩ | ⟨_, hmissed⟩
  · exact hsettled
  have hend := debuginfoEip_of_function haddr hterm (hcontains.file_eq hord hfiles) hf
    (hcontains.function_eq hord hfunctions) hcontains.le
  dsimp only at hend
  rw [if_pos hmissed.le] at hend
  obtain ⟨ret, info, hcall, hstored, _⟩ := hright f g fn fe hcontains
  rw [hend] at hcall
  obtain ⟨rfl, rfl⟩ := Prod.mk.inj (Except.ok.inj hcall)
  obtain ⟨k, hline, hdesc⟩ := hstored rfl
  change LineOf t (addr - (functionInfo t addr (fn, fe)).eipFnAddr) fn fe k at hline
  rw [functionInfo_eipFnAddr t addr hcontains.le] at hline
  have hne := hmissed.ne k ((lineOf_iff_floor hinc).mp hline)
  generalize stabBinsearch t.stabs fn fe N_SLINE (addr - (t.stabs fn).nValue) = line at *
  have hsame : (t.stabs line.1).nDesc = (t.stabs k).nDesc :=
    BitVec.eq_of_toNat_eq (Int.ofNat.inj hdesc)
  -- the first entry of the function is an N_FUN entry, so the region starts in the function
  have hfirst : ofType t.stabs N_SLINE fn = false := by
    have hfun := hcontains.function.here
    unfold ofType at hfun ⊢
    rw [beq_iff_eq] at hfun
    rw [hfun]
    rfl
  have hlow := hmissed.low hfirst
  have hle := hmissed.le
  have hhigh := hmissed.high
  rcases lt_trichotomy line.1 k with hlt | heq | hlt
  · exact (hdistinct _ _ hlow hlt hline.high hsame).elim
  · exact (hne heq).elim
  · exact (hdistinct _ _ hline.low hlt (by omega) hsame.symm).elim

/-- The line that is stored for an address is the right one when the call gives up early or
the entries of its three searches are settled. Where the files and the functions are settled
and no two entries of the function share a line number, this is needed as well. -/
theorem debuginfoEip_line_right (t : Symbols) (addr : Word) (haddr : ULIM ≤ addr)
    (hord : Ordered t) :
    (Located t addr → LineRight t addr) ∧
      ∀ f g fn fe, Contains t addr f g fn fe → Settled t.stabs N_SO addr 0 t.lastEntry →
        Settled t.stabs N_FUN addr f g →
        (∀ i j, fn ≤ i → i < j → j ≤ fe → (t.stabs i).nDesc ≠ (t.stabs j).nDesc) →
        LineRight t addr → Located t addr := by
  refine ⟨lineRight_of_located haddr hord, ?_⟩
  intro f g fn fe hcontains hfiles hfunctions hdistinct hright f' g' fn' fe' hcontains'
  by_cases hterm : t.Terminated
  swap
  · exact Or.inl hterm
  refine Or.inr ⟨hfiles, ?_⟩
  by_cases hf : f' = 0
  · exact Or.inl hf
  -- the file and the function that contain the address are unique
  obtain ⟨rfl, rfl⟩ := Prod.mk.inj
    ((hcontains.file_eq hord hfiles).symm.trans (hcontains'.file_eq hord hfiles))
  obtain ⟨rfl, rfl⟩ := Prod.mk.inj
    ((hcontains.function_eq hord hfunctions).symm.trans (hcontains'.function_eq hord hfunctions))
  exact Or.inr ⟨hfunctions, settled_of_lineRight haddr hord hcontains hterm hf hfiles hfunctions
    hdistinct hright⟩

theorem le_of_endsAt {R left right : ℤ} {type : ℤ} (h : EndsAt t.stabs type R left right) :
    right ≤ R := by
  rcases h with ⟨hR, _⟩ | ⟨n, _, hnR, _, _, hright⟩ <;> omega

/-- A table whose functions and whose lines increase throughout is ordered. -/
theorem ordered_of_increasing (hfiles : Increasing t.stabs N_SO 0 t.lastEntry)
    (hfunctions : Increasing t.stabs N_FUN 0 t.lastEntry)
    (hlines : Increasing t.stabs N_SLINE 0 t.lastEntry) : Ordered t := by
  refine ⟨hfiles, ?_, ?_⟩
  · intro f g _ hf _ hg i j hi hij hj
    have hle := le_of_endsAt hg
    exact hfunctions i j (by omega) hij (by omega)
  · intro f g fn fe _ hf _ hg _ hfn _ hfe i j hi hij hj
    have hle := le_of_endsAt hg
    have hle' := le_of_endsAt hfe
    exact hlines i j (by omega) hij (by omega)

def bootSymbols : Symbols :=
  ⟨[⟨1, 0x64, 0, 0xf0000000⟩, ⟨1, 0x64, 0, 0xf0100000⟩, ⟨3, 0x24, 5, 0xf0100000⟩,
    ⟨0, 0x44, 7, 4⟩, ⟨0, 0x44, 9, 8⟩], [0, 0x61, 0, 0x66, 0x3a, 0x46, 0]⟩

theorem bootSymbols_ordered : Ordered bootSymbols := by
  apply ordered_of_increasing <;> intro i j hi hij hj hitype hjtype
  all_goals
    change j ≤ 4 at hj
    have hjlow : 0 < j := by omega
    interval_cases j <;> interval_cases i <;> revert hitype hjtype <;> decide

theorem debuginfoEip_line_right_boot :
    ULIM ≤ (0xf0100006 : Word) ∧
      (debuginfoEip bootSymbols 0xf0100006).map (fun r => (r.1, r.2.eipLine)) = .ok (0, 7) ∧
      (Located bootSymbols 0xf0100006 → LineRight bootSymbols 0xf0100006) :=
  ⟨by decide, rfl, (debuginfoEip_line_right bootSymbols 0xf0100006 (by decide)
    bootSymbols_ordered).1⟩

/-- Before the first line of the function the call returns 0 and stores what the entry of the
function has in place of a line number. -/
theorem debuginfoEip_before_first_line :
    Ordered bootSymbols ∧ Contains bootSymbols 0xf0100001 1 4 2 4 ∧
      (¬∃ k, LineOf bootSymbols 1 2 4 k) ∧
      (debuginfoEip bootSymbols 0xf0100001).map (fun r => (r.1, r.2.eipLine)) = .ok (0, 5) ∧
      ¬LineRight bootSymbols 0xf0100001 := by
  have hnone : ¬∃ k, LineOf bootSymbols 1 2 4 k := by
    rintro ⟨k, hk⟩
    obtain ⟨hlow, hhigh, hhere, hvalue, _⟩ := hk
    interval_cases k <;> revert hhere hvalue <;> decide
  have hcontains : Contains bootSymbols 0xf0100001 1 4 2 4 := by
    refine ⟨⟨⟨by decide, by decide, by decide, by decide, ?_⟩, Or.inl ⟨rfl, ?_⟩⟩,
      ⟨⟨by decide, by decide, by decide, by decide, ?_⟩, Or.inl ⟨rfl, ?_⟩⟩⟩
    all_goals
      intro j hj hjR
      change j ≤ 4 at hjR
      interval_cases j <;> decide
  have hcall : (debuginfoEip bootSymbols 0xf0100001).map (fun r => (r.1, r.2.eipLine)) =
      .ok (0, 5) := rfl
  refine ⟨bootSymbols_ordered, hcontains, hnone, hcall, ?_⟩
  intro hright
  obtain ⟨ret, info, hreturned, _, hmissing⟩ := hright 1 4 2 4 hcontains
  have hret := hmissing hnone
  rw [hreturned] at hcall
  have hzero := congrArg Prod.fst (Except.ok.inj hcall)
  dsimp only at hzero
  omega

end KernelLabs.DebugInfo

import KernelLabs.MachineWords
import KernelLabs.UserPages

/-!
The functions of syscall.c that fetch the arguments of a system call from the memory of the
process. The tests are made with unsigned 32-bit sums. They are exact: a function succeeds
when the object lies in [0, sz) as a set of integers, and it reads no byte outside of it.
-/
namespace KernelLabs.ArgFetch

open MachineWords UserPages

/-- The current process: its size, the saved stack pointer of its trap frame and the bytes at
its addresses. -/
structure Process where
  sz : ℕ
  esp : ℕ
  mem : ℕ → BitVec 8

/-- The addresses that the kernel has read. -/
abbrev FetchM := StateM (List ℕ)

namespace Process

variable (p : Process)

def readByte (a : ℕ) : FetchM (BitVec 8) := do
  modify fun reads => reads ++ [a]
  return p.mem a

def word (a : ℕ) : BitVec 32 := p.mem (a + 3) ++ p.mem (a + 2) ++ p.mem (a + 1) ++ p.mem a

def readWord (a : ℕ) : FetchM (BitVec 32) := do
  let b₀ ← p.readByte a
  let b₁ ← p.readByte (a + 1)
  let b₂ ← p.readByte (a + 2)
  let b₃ ← p.readByte (a + 3)
  return b₃ ++ b₂ ++ b₁ ++ b₀

def fetchint (addr : ℕ) : FetchM (Option ℤ) := do
  if addr ≥ p.sz ∨ uint32 (addr + 4) > p.sz then return none
  else return some (← p.readWord addr).toInt

def scanstr (pp : ℕ) : ℕ → ℕ → FetchM (Option (ℕ × ℕ))
  | 0, _ => return none
  | n + 1, s => do
    if (← p.readByte s) = 0 then return some (pp, s - pp)
    else scanstr pp n (s + 1)

def fetchstr (addr : ℕ) : FetchM (Option (ℕ × ℕ)) :=
  if addr ≥ p.sz then return none
  else p.scanstr addr (p.sz - addr) addr

def toUint (x : ℤ) : ℕ := (x % 2 ^ 32).toNat

def argAddr (n : ℤ) : ℕ := toUint (p.esp + 4 + 4 * n)

def argint (n : ℤ) : FetchM (Option ℤ) := p.fetchint (p.argAddr n)

def argptr (n size : ℤ) : FetchM (Option ℕ) := do
  match ← p.argint n with
  | none => return none
  | some i =>
    if size < 0 ∨ toUint i ≥ p.sz ∨ toUint (toUint i + size) > p.sz then return none
    else return some (toUint i)

def argstr (n : ℤ) : FetchM (Option (ℕ × ℕ)) := do
  match ← p.argint n with
  | none => return none
  | some addr => p.fetchstr (toUint addr)

end Process

/-! ### What the functions accept and read -/

/-- The integers of an object of `n` bytes lie in the process. -/
def Within (p : Process) (a n : ℤ) : Prop :=
  {x : ℤ | a ≤ x ∧ x < a + n} ⊆ {x : ℤ | 0 ≤ x ∧ x < p.sz}

def StringWithin (p : Process) (a len : ℕ) : Prop :=
  (∀ j < len, p.mem (a + j) ≠ 0) ∧ p.mem (a + len) = 0 ∧ Within p a (len + 1)

/-- The call gives `r`, and it reads bytes of the process only. -/
def Fetches (p : Process) {α : Type} (x : FetchM α) (r : α) : Prop :=
  ∀ reads, (x.run reads).1 = r ∧ ∀ a ∈ (x.run reads).2, a ∈ reads ∨ a < p.sz

def Exact (p : Process) {α : Type} (x : FetchM (Option α)) (C : α → Prop) : Prop :=
  (∀ v, C v → Fetches p x (some v)) ∧ ((¬∃ v, C v) → Fetches p x none)

section Rules

variable {p : Process} {α β : Type} {x : FetchM α} {f : α → FetchM β} {r : α} {r' : β}

theorem fetches_pure (r : α) : Fetches p (pure r) r := fun _ => ⟨rfl, fun _ ha => .inl ha⟩

theorem fetches_bind (hx : Fetches p x r) (hf : Fetches p (f r) r') : Fetches p (x >>= f) r' := by
  intro reads
  obtain ⟨hr, hreads⟩ := hx reads
  obtain ⟨hr', hreads'⟩ := hf (x.run reads).2
  rw [← hr] at hr' hreads'
  refine ⟨hr', fun a ha => ?_⟩
  rcases hreads' a ha with hmem | hlt
  · exact hreads a hmem
  · exact .inr hlt

theorem fetches_readByte {a : ℕ} (ha : a < p.sz) : Fetches p (p.readByte a) (p.mem a) := by
  intro reads
  refine ⟨rfl, fun b hb => ?_⟩
  rcases List.mem_append.mp hb with hmem | hlast
  · exact .inl hmem
  · exact .inr (List.mem_singleton.mp hlast ▸ ha)

theorem Fetches.run (h : Fetches p x r) : (x.run []).1 = r ∧ ∀ a ∈ (x.run []).2, a < p.sz := by
  obtain ⟨hr, hreads⟩ := h []
  exact ⟨hr, fun a ha => (hreads a ha).resolve_left List.not_mem_nil⟩

theorem Exact.run {x : FetchM (Option α)} {C : α → Prop} (h : Exact p x C) :
    (∀ v, (x.run []).1 = some v ↔ C v) ∧ ∀ a ∈ (x.run []).2, a < p.sz := by
  obtain ⟨hsome, hnone⟩ := h
  by_cases hexists : ∃ v, C v
  · obtain ⟨w, hw⟩ := hexists
    obtain ⟨hrun, hreads⟩ := (hsome w hw).run
    refine ⟨fun v => ⟨fun hv => ?_, fun hv => (hsome v hv).run.1⟩, hreads⟩
    rw [hrun] at hv
    exact Option.some.inj hv ▸ hw
  · obtain ⟨hrun, hreads⟩ := (hnone hexists).run
    refine ⟨fun v => ⟨fun hv => ?_, fun hv => absurd ⟨v, hv⟩ hexists⟩, hreads⟩
    rw [hrun] at hv
    contradiction

end Rules

section Exact

variable {p : Process}

theorem within_iff {a : ℕ} {n : ℤ} (hn : 0 < n) : Within p a n ↔ a + n ≤ p.sz := by
  constructor
  · intro h
    have hlast : 0 ≤ (a + n - 1 : ℤ) ∧ a + n - 1 < p.sz := h ⟨by omega, by omega⟩
    have := hlast.2
    omega
  · intro h x hx
    have hlow := hx.1
    have hhigh := hx.2
    exact ⟨by omega, by omega⟩

theorem fetches_readWord {a : ℕ} (ha : a + 4 ≤ p.sz) : Fetches p (p.readWord a) (p.word a) :=
  fetches_bind (fetches_readByte (by omega)) (fetches_bind (fetches_readByte (by omega))
    (fetches_bind (fetches_readByte (by omega)) (fetches_bind (fetches_readByte (by omega))
      (fetches_pure _))))

/-- A test in 32 bits is the one in integers, since the size is below KERNBASE. -/
theorem exact_fetchint (hsz : p.sz < KERNBASE) (addr : ℕ) (haddr : addr < 2 ^ 32) :
    Exact p (p.fetchint addr) fun v => Within p addr 4 ∧ v = (p.word addr).toInt := by
  have htest : (addr ≥ p.sz ∨ uint32 (addr + 4) > p.sz) ↔ ¬Within p addr 4 := by
    rw [within_iff (by decide), uint32, KERNBASE] at *
    omega
  rw [Process.fetchint]
  constructor
  · rintro v ⟨h, rfl⟩
    rw [if_neg (mt htest.mp (not_not_intro h))]
    rw [within_iff (by decide)] at h
    exact fetches_bind (fetches_readWord (by omega)) (fetches_pure _)
  · intro h
    rw [if_pos (htest.mpr fun hin => h ⟨_, hin, rfl⟩)]
    exact fetches_pure _

/-- The loop finds the first null byte before the end of the process. -/
theorem fetches_scanstr (pp : ℕ) (n : ℕ) : ∀ s, s + n = p.sz →
    (∀ len < n, (∀ j < len, p.mem (s + j) ≠ 0) → p.mem (s + len) = 0 →
      Fetches p (p.scanstr pp n s) (some (pp, s + len - pp))) ∧
    ((∀ j < n, p.mem (s + j) ≠ 0) → Fetches p (p.scanstr pp n s) none) := by
  induction n with
  | zero =>
    intro s _
    exact ⟨fun len hlen => absurd hlen (Nat.not_lt_zero len), fun _ => fetches_pure none⟩
  | succ n ih =>
    intro s hs
    obtain ⟨hfound, hnone⟩ := ih (s + 1) (by omega)
    rw [Process.scanstr]
    refine ⟨fun len hlen hbefore hzero => ?_, fun hall => ?_⟩
    · refine fetches_bind (fetches_readByte (by omega)) ?_
      cases len with
      | zero =>
        rw [Nat.add_zero] at hzero
        rw [if_pos hzero]
        exact fetches_pure _
      | succ len =>
        have hfirst : p.mem s ≠ 0 := hbefore 0 (Nat.succ_pos len)
        rw [if_neg hfirst]
        have hrest := hfound len (by omega)
          (fun j hj => by rw [Nat.add_right_comm]; exact hbefore (j + 1) (by omega))
          (by rw [Nat.add_right_comm]; exact hzero)
        rw [Nat.add_right_comm] at hrest
        exact hrest
    · have hfirst : p.mem s ≠ 0 := hall 0 (Nat.succ_pos n)
      refine fetches_bind (fetches_readByte (by omega)) ?_
      rw [if_neg hfirst]
      exact hnone fun j hj => by rw [Nat.add_right_comm]; exact hall (j + 1) (by omega)

theorem exact_fetchstr (addr : ℕ) :
    Exact p (p.fetchstr addr) fun r => r.1 = addr ∧ StringWithin p addr r.2 := by
  rw [Process.fetchstr]
  by_cases hout : addr ≥ p.sz
  · rw [if_pos hout]
    refine ⟨fun r hr => ?_, fun _ => fetches_pure none⟩
    have := (within_iff (by omega)).mp hr.2.2.2
    omega
  · rw [if_neg hout]
    obtain ⟨hfound, hnone⟩ := fetches_scanstr (p := p) addr (p.sz - addr) addr
      (Nat.add_sub_cancel' (by omega))
    constructor
    · rintro ⟨q, len⟩ ⟨rfl, hbefore, hzero, hin⟩
      rw [within_iff (by omega)] at hin
      have hdone := hfound len (by omega) hbefore hzero
      rwa [Nat.add_sub_cancel_left] at hdone
    · intro habsent
      refine hnone fun j hj hzero => ?_
      -- the first null byte is at `j` or before it
      have hexists : ∃ j, p.mem (addr + j) = 0 := ⟨j, hzero⟩
      have hle : Nat.find hexists ≤ j := Nat.find_min' hexists hzero
      refine habsent ⟨(addr, Nat.find hexists), rfl, fun i hi => Nat.find_min hexists hi,
        Nat.find_spec hexists, ?_⟩
      rw [within_iff (by omega)]
      dsimp only
      omega

theorem toUint_lt (x : ℤ) : Process.toUint x < 2 ^ 32 := by
  rw [Process.toUint]
  omega

theorem toUint_toInt (w : BitVec 32) : Process.toUint w.toInt = w.toNat := by
  have hlt := w.isLt
  rw [Process.toUint, BitVec.toInt_eq_toNat_cond]
  split <;> omega

/-- argptr and argstr go on from the word that argint has found. -/
theorem exact_argint_bind {α : Type} (hsz : p.sz < KERNBASE) (n : ℤ) {f : ℕ → FetchM (Option α)}
    {C : α → Prop} (hf : Exact p (f (p.word (p.argAddr n)).toNat) C) :
    Exact p (do match ← p.argint n with
      | none => return none
      | some i => f (Process.toUint i)) fun v => Within p (p.argAddr n) 4 ∧ C v := by
  obtain ⟨hfetch, hnone⟩ := exact_fetchint hsz (p.argAddr n) (toUint_lt _)
  constructor
  · rintro v ⟨hin, hv⟩
    refine fetches_bind (hfetch _ ⟨hin, rfl⟩) ?_
    dsimp only
    rw [toUint_toInt]
    exact hf.1 v hv
  · intro h
    by_cases hin : Within p (p.argAddr n) 4
    · refine fetches_bind (hfetch _ ⟨hin, rfl⟩) ?_
      dsimp only
      rw [toUint_toInt]
      exact hf.2 fun ⟨v, hv⟩ => h ⟨v, hin, hv⟩
    · exact fetches_bind (hnone fun ⟨v, hv, _⟩ => hin hv) (fetches_pure none)

theorem argptr_test_iff (hsz : p.sz < KERNBASE) (q : ℕ) {size : ℤ} (hsize : size < 2 ^ 31) :
    (size < 0 ∨ q ≥ p.sz ∨ Process.toUint (q + size) > p.sz) ↔
      ¬(0 ≤ size ∧ q < p.sz ∧ Within p q size) := by
  rw [KERNBASE] at hsz
  rw [Process.toUint]
  rcases Int.lt_trichotomy size 0 with hneg | rfl | hpos
  · exact iff_of_true (.inl hneg) fun h => absurd h.1 (by omega)
  · have hempty : Within p q 0 := by
      intro x hx
      have hlow := hx.1
      have hhigh := hx.2
      omega
    constructor
    · rintro (h | h | h) ⟨_, hq, _⟩ <;> omega
    · intro h
      refine .inr (.inl ?_)
      by_contra hq
      exact h ⟨le_refl 0, by omega, hempty⟩
  · rw [within_iff hpos]
    omega

theorem exact_argptr (hsz : p.sz < KERNBASE) (n : ℤ) {size : ℤ} (hsize : size < 2 ^ 31) :
    Exact p (p.argptr n size) fun q => Within p (p.argAddr n) 4 ∧
      q = (p.word (p.argAddr n)).toNat ∧ 0 ≤ size ∧ q < p.sz ∧ Within p q size := by
  have htest := argptr_test_iff hsz (p.word (p.argAddr n)).toNat hsize
  refine exact_argint_bind (f := fun q =>
    if size < 0 ∨ q ≥ p.sz ∨ Process.toUint (q + size) > p.sz then pure none else pure (some q))
    hsz n ⟨?_, fun h => ?_⟩
  · rintro q ⟨rfl, h⟩
    rw [if_neg (mt htest.mp (not_not_intro h))]
    exact fetches_pure _
  · rw [if_pos (htest.mpr fun h' => h ⟨_, rfl, h'⟩)]
    exact fetches_pure _

theorem exact_argstr (hsz : p.sz < KERNBASE) (n : ℤ) :
    Exact p (p.argstr n) fun r => Within p (p.argAddr n) 4 ∧
      r.1 = (p.word (p.argAddr n)).toNat ∧ StringWithin p (p.word (p.argAddr n)).toNat r.2 :=
  exact_argint_bind hsz n (exact_fetchstr _)

end Exact

/-- The argument checks are exact. A call succeeds, with the value that is there, exactly when
the object as a set of integers lies in [0, sz), and no call reads a byte outside. -/
theorem argument_checks_exact (p : Process) (hsz : p.sz < KERNBASE) (addr : ℕ)
    (haddr : addr < 2 ^ 32) (n size : ℤ) (hsize : size < 2 ^ 31) :
    (∀ v, ((p.fetchint addr).run []).1 = some v ↔
      Within p addr 4 ∧ v = (p.word addr).toInt) ∧
    (∀ q, ((p.argptr n size).run []).1 = some q ↔
      Within p (p.argAddr n) 4 ∧ q = (p.word (p.argAddr n)).toNat ∧ 0 ≤ size ∧ q < p.sz ∧
        Within p q size) ∧
    (∀ r, ((p.fetchstr addr).run []).1 = some r ↔ r.1 = addr ∧ StringWithin p addr r.2) ∧
    (∀ r, ((p.argstr n).run []).1 = some r ↔
      Within p (p.argAddr n) 4 ∧ r.1 = (p.word (p.argAddr n)).toNat ∧
        StringWithin p (p.word (p.argAddr n)).toNat r.2) ∧
    (∀ a ∈ ((p.fetchint addr).run []).2, a < p.sz) ∧
    (∀ a ∈ ((p.argptr n size).run []).2, a < p.sz) ∧
    (∀ a ∈ ((p.fetchstr addr).run []).2, a < p.sz) ∧
    ∀ a ∈ ((p.argstr n).run []).2, a < p.sz := by
  obtain ⟨hint, hintReads⟩ := (exact_fetchint hsz addr haddr).run
  obtain ⟨hptr, hptrReads⟩ := (exact_argptr hsz n hsize).run
  obtain ⟨hstr, hstrReads⟩ := (exact_fetchstr (p := p) addr).run
  obtain ⟨harg, hargReads⟩ := (exact_argstr hsz n).run
  exact ⟨hint, hptr, hstr, harg, hintReads, hptrReads, hstrReads, hargReads⟩

/-- A process of one page whose bytes are zero: the last word of the page is fetched, and the
pointer 0 with one page behind it is accepted. -/
theorem argument_checks_exact_onePage :
    (((Process.mk 4096 4088 fun _ => 0).fetchint 4092).run []).1 = some 0 ∧
      (((Process.mk 4096 4088 fun _ => 0).argptr 0 4096).run []).1 = some 0 := by
  obtain ⟨hint, hptr, -⟩ := argument_checks_exact (Process.mk 4096 4088 fun _ => 0) (by decide) 4092
    (by decide) 0 4096 (by decide)
  have hword : ∀ a : ℕ, a + 4 ≤ 4096 → Within (Process.mk 4096 4088 fun _ => 0) a 4 := by
    intro a ha
    rw [within_iff (by decide)]
    exact_mod_cast ha
  refine ⟨(hint 0).mpr ⟨hword 4092 (by decide), by decide⟩,
    (hptr 0).mpr ⟨hword _ (by decide), by decide, by decide, by decide, ?_⟩⟩
  have hpage : Within (Process.mk 4096 4088 fun _ => 0) ((0 : ℕ) : ℤ) 4096 := by
    rw [within_iff (by decide)]
    decide
  exact hpage

end KernelLabs.ArgFetch

import KernelLabs.TableOwners
import KernelLabs.UserPages

/-!
The page tables of xv6 as two-level tables that own pages. The directory entries below
KERNBASE own the pages mapped through them; those above map physical memory that they
do not own. An address is used through its two indices, which determine the address
of a page.
-/
namespace KernelLabs.UserTables

open MachineWords PageWords TableOwners UserPages BitVec

abbrev Mem := Frame → Fin NPTENTRIES → Word

abbrev NUSERENTRIES : ℕ := 512

def target (w : Word) : Option Frame := if Present w then some (PGNUM w) else none

theorem target_eq_none {w : Word} : target w = none ↔ ¬ Present w := by
  simp [target]

theorem target_eq_some {w : Word} {f : Frame} : target w = some f ↔ Present w ∧ PGNUM w = f := by
  simp [target]

def tableFormat : Format Frame (Fin NPTENTRIES) Word where
  target := target
  owns i := i.val < NUSERENTRIES
  blank := 0
  target_blank := target_eq_none.mpr (by decide)

/-- The entry at which the two-level walk of an address ends; zero without a table. -/
def pteAt (m : Mem) (d : Frame) (a : ℕ) : Word := tableFormat.leaf m d (pdx a) (ptx a)

def pageAt (m : Mem) (d : Frame) (a : ℕ) : Option (Fin NPTENTRIES → Word) :=
  (target (pteAt m d a)).map m

theorem pageAt_congr {m m' : Mem} {d a : ℕ} (hpte : pteAt m' d a = pteAt m d a)
    (hpage : ∀ f, target (pteAt m d a) = some f → m' f = m f) : pageAt m' d a = pageAt m d a := by
  rw [pageAt, pageAt, hpte]
  cases htarget : target (pteAt m d a) with
  | none => rfl
  | some f => exact congrArg some (hpage f htarget)

theorem pageAt_some {m : Mem} {d a f : ℕ} (h : target (pteAt m d a) = some f) :
    pageAt m d a = some (m f) := by
  rw [pageAt, h]
  rfl

section Entries

variable {f : ℕ} {perm : Word}

theorem PGNUM_entry (hf : f < 2 ^ 20) (hperm : perm.toNat < 2 ^ 12) :
    PGNUM (entry (f * PGSIZE) perm) = f := by
  have hbits : (perm ||| PTE_P).toNat < 2 ^ 12 := perm_toNat_lt hperm
  have hshift : (BitVec.ofNat 32 (f * PGSIZE)).toNat = f <<< 12 := by
    simp only [toNat_ofNat, Nat.shiftLeft_eq, PGSIZE]
    omega
  rw [entry, BitVec.or_assoc, PGNUM_eq, toNat_or, hshift,
    ← Nat.shiftLeft_add_eq_or_of_lt hbits, Nat.shiftLeft_eq]
  omega

theorem target_entry (hf : f < 2 ^ 20) (hperm : perm.toNat < 2 ^ 12) :
    target (entry (f * PGSIZE) perm) = some f :=
  target_eq_some.mpr ⟨present_perm _, PGNUM_entry hf hperm⟩

theorem entry_uint32_add (pa k : ℕ) : entry (uint32 pa + k) perm = entry (pa + k) perm := by
  have hpa : BitVec.ofNat 32 (uint32 pa + k) = BitVec.ofNat 32 (pa + k) := by
    refine eq_of_toNat_eq ?_
    rw [toNat_ofNat, toNat_ofNat, uint32, Nat.mod_add_mod]
  rw [entry, hpa, entry]

theorem pteFlags_toNat (pte : Word) : (pteFlags pte).toNat = pte.toNat % 2 ^ 12 := by
  have h : (0xFFF : Word).toNat = 2 ^ 12 - 1 := rfl
  rw [pteFlags, toNat_and, h, Nat.and_two_pow_sub_one_eq_mod]

theorem pteFlags_lt (pte : Word) : (pteFlags pte).toNat < 2 ^ 12 := by
  rw [pteFlags_toNat]
  omega

theorem or_PTE_P {w : Word} (h : Present w) : w ||| PTE_P = w := by
  refine eq_of_getLsbD_eq fun i hi => ?_
  rw [getLsbD_or]
  cases i with
  | zero =>
    have hbit : w.getLsbD 0 = true := by
      rw [getLsbD, Nat.testBit_zero, decide_eq_true_eq]
      exact (present_iff w).mp h
    rw [hbit, Bool.true_or]
  | succ k =>
    have hbit : PTE_P.getLsbD (k + 1) = false := by
      simp [PTE_P, getLsbD_one]
    rw [hbit, Bool.or_false]

end Entries

section Addresses

def Aligned (a : ℕ) : Prop := a % PGSIZE = 0 ∧ a < 2 ^ 32

theorem Aligned.roundDown {a : ℕ} (ha : Aligned a) : PGROUNDDOWN a = a := by
  simp only [Aligned, PGROUNDDOWN, PGSIZE] at *
  omega

theorem Aligned.next {a : ℕ} (ha : Aligned a) (h : a + PGSIZE < 2 ^ 32) :
    Aligned (a + PGSIZE) ∧ uint32 (a + PGSIZE) = a + PGSIZE := by
  simp only [Aligned, uint32, PGSIZE] at *
  omega

/-- The address of the last page of a range that does not leave the address space. -/
theorem Aligned.last {a size : ℕ} (ha : Aligned a) (hpos : 0 < size) (hsize : size % PGSIZE = 0)
    (hmax : a + size ≤ 2 ^ 32) : PGROUNDDOWN (uint32 (a + size + 2 ^ 32 - 1)) = a + size - PGSIZE := by
  simp only [Aligned, PGROUNDDOWN, uint32, PGSIZE] at *
  omega

theorem owns_pdx {a : ℕ} (h : a < 2 ^ 32) : tableFormat.owns (pdx a) = true ↔ a < KERNBASE := by
  simp only [tableFormat, decide_eq_true_eq, pdx, NPTENTRIES, NUSERENTRIES, KERNBASE]
  omega

theorem owns_pdx_of_lt {a : ℕ} (h : a < KERNBASE) : tableFormat.owns (pdx a) = true := by
  refine (owns_pdx ?_).mpr h
  rw [KERNBASE] at h
  omega

/-- The two indices determine the address of a page. -/
theorem eq_of_indices {a b : ℕ} (ha : Aligned a) (hb : Aligned b) (hd : pdx a = pdx b)
    (ht : ptx a = ptx b) : a = b := by
  have hd' : a / 2 ^ 22 % NPTENTRIES = b / 2 ^ 22 % NPTENTRIES := congrArg Fin.val hd
  have ht' : a / 2 ^ 12 % NPTENTRIES = b / 2 ^ 12 % NPTENTRIES := congrArg Fin.val ht
  simp only [Aligned, PGSIZE, NPTENTRIES] at ha hb hd' ht'
  omega

def addr (i j : Fin NPTENTRIES) : ℕ := i.val * 2 ^ 22 + j.val * 2 ^ 12

theorem aligned_addr (i j : Fin NPTENTRIES) : Aligned (addr i j) := by
  have hi := i.isLt
  have hj := j.isLt
  simp only [Aligned, addr, PGSIZE, NPTENTRIES] at *
  omega

theorem pdx_addr (i j : Fin NPTENTRIES) : pdx (addr i j) = i := by
  refine Fin.ext ?_
  have hi := i.isLt
  have hj := j.isLt
  simp only [pdx, addr, NPTENTRIES] at *
  omega

theorem ptx_addr (i j : Fin NPTENTRIES) : ptx (addr i j) = j := by
  refine Fin.ext ?_
  have hj := j.isLt
  simp only [ptx, addr, NPTENTRIES] at *
  omega

end Addresses

/-- The page at an address below KERNBASE is among the pages of the directory. -/
theorem mem_pages_of_target {m : Mem} {d a f : ℕ} (huser : a < KERNBASE)
    (h : target (pteAt m d a) = some f) : f ∈ tableFormat.pages m d := by
  cases htable : tableFormat.target (m d (pdx a)) with
  | none =>
    rw [pteAt, Format.leaf_none htable] at h
    rw [show target tableFormat.blank = none from tableFormat.target_blank] at h
    cases h
  | some t =>
    rw [pteAt, Format.leaf_some htable] at h
    exact Format.mem_pages htable (owns_pdx_of_lt huser) h

/-- A directory without mapped user pages owns no pages beyond its tables. -/
theorem pages_eq_zero {m : Mem} {d : Frame}
    (h : ∀ a, Aligned a → a < KERNBASE → ¬ Present (pteAt m d a)) : tableFormat.pages m d = 0 := by
  refine Format.pages_eq_zero fun i j hi => target_eq_none.mpr ?_
  have huser : addr i j < KERNBASE := (owns_pdx (aligned_addr i j).2).mp (by rwa [pdx_addr])
  have := h (addr i j) (aligned_addr i j) huser
  rwa [pteAt, pdx_addr, ptx_addr] at this

end KernelLabs.UserTables

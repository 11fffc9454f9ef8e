import Mathlib.Tactic.Linarith
import Mathlib.Data.Fintype.Basic

/-!
Addresses and page-table entries of the JOS kernel in lab3. A word of a page table
is a 32-bit value whose low twelve bits are flags and whose high bits are a page
number. A linear address below UTOP has a virtual page number, which is the pair
of its directory index and its table index. The machine has at most 256 MB of
physical memory, all of it mapped at KERNBASE, so that a page is named by its
number and KADDR is the identity on pages.
-/
namespace KernelLabs.PageWords

open BitVec

/-- The memory that i386_detect_memory found, within the maximum that pmap.h names. -/
structure MemSize where
  npages : ℕ
  pos : 0 < npages
  max : npages ≤ 65536

abbrev Page (M : MemSize) := Fin M.npages

abbrev Word := BitVec 32

def PTE_P : Word := 0x001
def PTE_W : Word := 0x002
def PTE_U : Word := 0x004

abbrev NPTENTRIES : ℕ := 1024

def PGSIZE : ℕ := 4096

def UTOP : ℕ := 0xeec00000

def PGNUM (la : Word) : ℕ := (la >>> 12).toNat

def PTE_ADDR (pte : Word) : Word := pte &&& ~~~0xFFF

def PDX (la : Word) : Fin NPTENTRIES :=
  ⟨((la >>> 22) &&& 0x3FF).toNat, by
    rw [toNat_and]
    exact Nat.lt_of_le_of_lt Nat.and_le_right (by decide)⟩

def PTX (la : Word) : Fin NPTENTRIES :=
  ⟨((la >>> 12) &&& 0x3FF).toNat, by
    rw [toNat_and]
    exact Nat.lt_of_le_of_lt Nat.and_le_right (by decide)⟩

def page2pa {M : MemSize} (p : Page M) : Word := BitVec.ofNat 32 p.val <<< 12

def flags (pte : Word) : BitVec 12 := pte.setWidth 12

def Present (pte : Word) : Prop := pte &&& PTE_P ≠ 0

instance (pte : Word) : Decidable (Present pte) := by
  unfold Present
  infer_instance

theorem PGNUM_eq (la : Word) : PGNUM la = la.toNat / 2 ^ 12 := by
  rw [PGNUM, toNat_ushiftRight, Nat.shiftRight_eq_div_pow]

/-- Masking the flags does not change the page number. -/
theorem PGNUM_PTE_ADDR (pte : Word) : PGNUM (PTE_ADDR pte) = PGNUM pte := by
  have h : PTE_ADDR pte >>> 12 = pte >>> 12 := by
    refine eq_of_getLsbD_eq fun i hi => ?_
    have hmask : Nat.testBit 4095 (12 + i) = false :=
      Nat.testBit_lt_two_pow (Nat.lt_of_lt_of_le (by decide) (Nat.pow_le_pow_right (by decide)
        (Nat.le_add_right 12 i)))
    rw [getLsbD_ushiftRight, getLsbD_ushiftRight, PTE_ADDR, getLsbD_and,
      getLsbD_not, ofNat_eq_ofNat, getLsbD_ofNat, hmask, Bool.and_false,
      Bool.not_false, Bool.and_true]
    by_cases hlt : 12 + i < 32
    · rw [decide_eq_true hlt, Bool.and_true]
    · rw [getLsbD_of_ge _ _ (not_lt.mp hlt), Bool.false_and]
  rw [PGNUM, h, PGNUM]

theorem PDX_val (la : Word) : (PDX la).val = la.toNat / 2 ^ 22 := by
  have h : (0x3FF : Word).toNat = 2 ^ 10 - 1 := rfl
  have := la.isLt
  simp only [PDX, toNat_and, toNat_ushiftRight, h, Nat.and_two_pow_sub_one_eq_mod,
    Nat.shiftRight_eq_div_pow]
  omega

theorem PTX_val (la : Word) : (PTX la).val = la.toNat / 2 ^ 12 % 2 ^ 10 := by
  have h : (0x3FF : Word).toNat = 2 ^ 10 - 1 := rfl
  simp only [PTX, toNat_and, toNat_ushiftRight, h, Nat.and_two_pow_sub_one_eq_mod,
    Nat.shiftRight_eq_div_pow]

theorem present_iff (pte : Word) : Present pte ↔ pte.toNat % 2 = 1 := by
  have h : (PTE_P : Word).toNat = 2 ^ 1 - 1 := rfl
  rw [Present, ne_eq, ← toNat_inj, toNat_and, h, Nat.and_two_pow_sub_one_eq_mod]
  simp only [ofNat_eq_ofNat, toNat_zero]
  omega

variable {M : MemSize}

theorem page2pa_toNat (p : Page M) : (page2pa p).toNat = p.val * 2 ^ 12 := by
  have hp := p.isLt
  have hmax := M.max
  rw [page2pa, toNat_shiftLeft, toNat_ofNat, Nat.shiftLeft_eq]
  omega

variable {bits : Word}

/-- An entry is its page number and its flags side by side. -/
theorem entry_toNat (p : Page M) (h : bits.toNat < 2 ^ 12) :
    (page2pa p ||| bits).toNat = p.val * 2 ^ 12 + bits.toNat := by
  rw [toNat_or, page2pa_toNat, ← Nat.shiftLeft_eq, Nat.shiftLeft_add_eq_or_of_lt h]

theorem present_entry (p : Page M) (h : bits.toNat < 2 ^ 12) :
    Present (page2pa p ||| bits) ↔ Present bits := by
  rw [present_iff, present_iff, entry_toNat p h]
  omega

theorem PGNUM_entry (p : Page M) (h : bits.toNat < 2 ^ 12) :
    PGNUM (page2pa p ||| bits) = p.val := by
  rw [PGNUM_eq, entry_toNat p h]
  omega

theorem flags_entry (p : Page M) (h : bits.toNat < 2 ^ 12) :
    flags (page2pa p ||| bits) = flags bits := by
  refine eq_of_toNat_eq ?_
  rw [flags, flags, toNat_setWidth, toNat_setWidth, entry_toNat p h]
  omega

/-- The bits that page_insert stores beside the page number. -/
theorem perm_toNat_lt {perm : Word} (h : perm.toNat < 2 ^ 12) : (perm ||| PTE_P).toNat < 2 ^ 12 := by
  rw [toNat_or]
  exact Nat.or_lt_two_pow h (by decide)

theorem present_perm (perm : Word) : Present (perm ||| PTE_P) := by
  rw [present_iff, toNat_or, Nat.mod_two_eq_one_iff_testBit_zero, Nat.testBit_or]
  simp [PTE_P]

def NVPN : ℕ := UTOP / PGSIZE

abbrev Vpn := Fin NVPN

theorem NVPN_eq : NVPN = 955 * NPTENTRIES := rfl

namespace Vpn

def dir (v : Vpn) : Fin NPTENTRIES :=
  ⟨v.val / NPTENTRIES, by
    have h : v.val < 955 * NPTENTRIES := v.isLt
    simp only [NPTENTRIES] at h ⊢
    omega⟩

def tab (v : Vpn) : Fin NPTENTRIES := ⟨v.val % NPTENTRIES, Nat.mod_lt _ (by decide)⟩

theorem eq_of_dir_tab {v w : Vpn} (hdir : v.dir = w.dir) (htab : v.tab = w.tab) : v = w := by
  have h1 : v.val / NPTENTRIES = w.val / NPTENTRIES := congrArg Fin.val hdir
  have h2 : v.val % NPTENTRIES = w.val % NPTENTRIES := congrArg Fin.val htab
  refine Fin.ext ?_
  rw [← Nat.div_add_mod v.val NPTENTRIES, ← Nat.div_add_mod w.val NPTENTRIES, h1, h2]

def ofAddr (va : Word) (h : va.toNat < UTOP) : Vpn :=
  ⟨va.toNat / PGSIZE, by
    simp only [NVPN_eq, NPTENTRIES, PGSIZE]
    rw [UTOP] at h
    omega⟩

theorem dir_ofAddr (va : Word) (h : va.toNat < UTOP) : (ofAddr va h).dir = PDX va := by
  refine Fin.ext ?_
  rw [PDX_val]
  simp only [dir, ofAddr, PGSIZE, NPTENTRIES]
  omega

theorem tab_ofAddr (va : Word) (h : va.toNat < UTOP) : (ofAddr va h).tab = PTX va := by
  refine Fin.ext ?_
  rw [PTX_val]
  rfl

end Vpn

end KernelLabs.PageWords

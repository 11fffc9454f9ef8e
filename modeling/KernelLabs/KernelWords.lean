import KernelLabs.PageWords
import Mathlib.Data.BitVec
import Mathlib.Tactic.Ring

/-!
Words and addresses above UTOP. An entry of a page table is a word whose low twelve
bits are zero joined with the permission bits, and the two parts can be read back from
it. The constants of memlayout.h for the kernel's part of the address space are words,
since the kernel computes addresses from them that reach the end of the address space.
-/
namespace KernelLabs.KernelWords

open PageWords BitVec

def PTE_PS : Word := 0x080

abbrev pgsize : Word := 4096

def PTSIZE : Word := 0x400000

def KERNBASE : Word := 0xF0000000

def KSTACKTOP : Word := KERNBASE

def KSTKSIZE : Word := 8 * pgsize

def MMIOLIM : Word := KSTACKTOP - PTSIZE

def MMIOBASE : Word := MMIOLIM - PTSIZE

def ULIM : Word := MMIOBASE

def UVPT : Word := ULIM - PTSIZE

def UPAGES : Word := UVPT - PTSIZE

theorem KERNBASE_toNat : KERNBASE.toNat = 0xF0000000 := rfl

theorem stack_toNat : (KSTACKTOP - KSTKSIZE).toNat = 0xEFFF8000 := rfl

theorem guard_toNat : (KSTACKTOP - PTSIZE).toNat = 0xEFC00000 := rfl

theorem ULIM_toNat : ULIM.toNat = 0xEF800000 := rfl

theorem UPAGES_toNat : UPAGES.toNat = 0xEF000000 := rfl

theorem sub_KERNBASE_toNat {kva : Word} (hkva : KERNBASE ≤ kva) :
    (kva - KERNBASE).toNat = kva.toNat - 0xF0000000 := toNat_sub_of_le hkva

def PGOFF (la : Word) : Word := la &&& 0xFFF

def Aligned (w : Word) : Prop := PGOFF w = 0

theorem PGOFF_toNat (w : Word) : (PGOFF w).toNat = w.toNat % 4096 := by
  have h : (0xFFF : Word).toNat = 2 ^ 12 - 1 := rfl
  rw [PGOFF, toNat_and, h, Nat.and_two_pow_sub_one_eq_mod]

theorem aligned_iff {w : Word} : Aligned w ↔ w.toNat % 4096 = 0 := by
  rw [Aligned, ← toNat_inj, PGOFF_toNat]
  rfl

/-- An address is the start of its page and its offset. -/
theorem PTE_ADDR_add_PGOFF (w : Word) : PTE_ADDR w + PGOFF w = w := by
  have hdisjoint : PTE_ADDR w &&& PGOFF w = 0#32 := by
    unfold PTE_ADDR PGOFF
    ext i hi
    simp only [getElem_and, getElem_not, getElem_zero]
    cases w[i] <;> simp
  rw [add_eq_or_of_and_eq_zero _ _ hdisjoint]
  unfold PTE_ADDR PGOFF
  ext i hi
  simp only [getElem_or, getElem_and, getElem_not]
  cases w[i] <;> simp

theorem PTE_ADDR_toNat (w : Word) : (PTE_ADDR w).toNat = w.toNat / 4096 * 4096 := by
  have hsum := congrArg BitVec.toNat (PTE_ADDR_add_PGOFF w)
  have hoff := PGOFF_toNat w
  have hle : (PTE_ADDR w).toNat ≤ w.toNat := by
    rw [PTE_ADDR, toNat_and]
    exact Nat.and_le_left
  have hlt := w.isLt
  rw [toNat_add] at hsum
  omega

theorem aligned_PTE_ADDR (w : Word) : Aligned (PTE_ADDR w) := by
  rw [aligned_iff, PTE_ADDR_toNat]
  omega

theorem PTE_ADDR_eq_self {w : Word} (h : Aligned w) : PTE_ADDR w = w := by
  have hsum := PTE_ADDR_add_PGOFF w
  rwa [h, ofNat_eq_ofNat, BitVec.add_zero] at hsum

theorem Aligned.add {v w : Word} (hv : Aligned v) (hw : Aligned w) : Aligned (v + w) := by
  rw [aligned_iff] at hv hw ⊢
  rw [toNat_add]
  omega

theorem Aligned.sub {v w : Word} (hv : Aligned v) (hw : Aligned w) : Aligned (v - w) := by
  rw [aligned_iff] at hv hw ⊢
  rw [toNat_sub]
  have := w.isLt
  omega

theorem aligned_zero : Aligned 0 := rfl

theorem aligned_pgsize : Aligned pgsize := rfl

theorem aligned_KERNBASE : Aligned KERNBASE := rfl

theorem aligned_UPAGES : Aligned UPAGES := rfl

theorem aligned_stack : Aligned (KSTACKTOP - KSTKSIZE) := rfl

theorem aligned_guard : Aligned (KSTACKTOP - PTSIZE) := rfl

/-- The permission bits of an entry are those it was made of. -/
theorem entry_and {w bits mask : Word} (hw : Aligned w) (hmask : mask &&& 0xFFF = mask) :
    (w ||| bits) &&& mask = bits &&& mask := by
  have hzero : w &&& mask = 0 := by
    rw [← hmask, BitVec.and_comm mask, ← BitVec.and_assoc]
    change PGOFF w &&& mask = 0
    rw [hw]
    exact zero_and
  rw [BitVec.and_comm, and_or_distrib_left, BitVec.and_comm mask w, hzero,
    BitVec.and_comm mask bits]
  exact zero_or

/-- The address of an entry is the one it was made of. -/
theorem PTE_ADDR_entry {w bits : Word} (hw : Aligned w) (hbits : PTE_ADDR bits = 0) :
    PTE_ADDR (w ||| bits) = w := by
  have hor : PTE_ADDR (w ||| bits) = PTE_ADDR w ||| PTE_ADDR bits := by
    simp only [PTE_ADDR, BitVec.and_comm _ (~~~(0xFFF : Word)), and_or_distrib_left]
  rw [hor, hbits, PTE_ADDR_eq_self hw]
  exact or_zero

theorem present_entry_iff {w bits : Word} (hw : Aligned w) :
    Present (w ||| bits) ↔ Present bits := by
  rw [Present, Present, entry_and hw (by decide)]

/-- Two addresses have the same entry when they lie in the same page. -/
theorem index_eq_iff {u v : Word} :
    (PDX u = PDX v ∧ PTX u = PTX v) ↔ u.toNat / 4096 = v.toNat / 4096 := by
  rw [Fin.ext_iff, Fin.ext_iff, PDX_val, PDX_val, PTX_val, PTX_val]
  have := u.isLt
  have := v.isLt
  omega

end KernelLabs.KernelWords

import KernelLabs.MachineWords
import KernelLabs.SlotLists
import KernelLabs.FlatFiles

/-!
The names of directory entries as the bytes that fs.c and string.c work on. A name is at a
pointer, and only its bytes up to the first NUL or to DIRSIZ bytes count: strncmp stops there,
strncpy stores them with zeros behind, and skipelem cuts the elements of a path to them.
-/
namespace KernelLabs.DirNames

open MachineWords List

abbrev DIRSIZ : ℕ := 14

/-- What a `char *` points to. -/
abbrev Pointer := ℕ → UInt8

def strncmp (p q : Pointer) : ℕ → ℕ → ℤ
  | 0, _ => 0
  | n + 1, i =>
    if p i ≠ 0 ∧ p i = q i then strncmp p q n (i + 1) else (p i).toNat - (q i).toNat

def namecmp (s t : Pointer) : ℤ := strncmp s t DIRSIZ 0

/-- The bytes that strncpy writes, from an index of `t` on. -/
def strncpy (t : Pointer) : ℕ → ℕ → List UInt8
  | 0, _ => []
  | n + 1, i => t i :: if t i ≠ 0 then strncpy t n (i + 1) else replicate n 0

def string (p : Pointer) : ℕ → ℕ → List UInt8
  | 0, _ => []
  | n + 1, i => if p i = 0 then [] else p i :: string p n (i + 1)

def cname (p : Pointer) : List UInt8 := string p DIRSIZ 0

theorem strncmp_eq_zero_iff (p q : Pointer) (n i : ℕ) :
    strncmp p q n i = 0 ↔ string p n i = string q n i := by
  induction n generalizing i with
  | zero => exact iff_of_true rfl rfl
  | succ n ih =>
    rw [strncmp, string, string]
    by_cases hp : p i = 0
    · rw [if_neg (fun h => h.1 hp), if_pos hp, hp]
      by_cases hq : q i = 0
      · rw [if_pos hq, hq]
        exact iff_of_true rfl rfl
      · rw [if_neg hq]
        refine iff_of_false (fun h => hq ?_) (fun h => cons_ne_nil _ _ h.symm)
        apply UInt8.toNat_inj.mp
        have hzero : (0 : UInt8).toNat = 0 := rfl
        omega
    · rw [if_neg hp]
      by_cases heq : p i = q i
      · rw [if_pos ⟨hp, heq⟩, if_neg (heq ▸ hp), ih, heq, List.cons.injEq, eq_self, true_and]
      · rw [if_neg (fun h => heq h.2)]
        refine iff_of_false (fun h => heq ?_) (fun h => ?_)
        · apply UInt8.toNat_inj.mp
          omega
        · split at h
          · exact cons_ne_nil _ _ h
          · exact heq (List.cons.inj h).1

theorem namecmp_eq_zero_iff (s t : Pointer) : namecmp s t = 0 ↔ cname s = cname t :=
  strncmp_eq_zero_iff s t DIRSIZ 0

end KernelLabs.DirNames

import Mathlib.Tactic.Linarith

/-!
The values of a 32-bit C `int` and `unsigned int`, as integers and naturals with
the reduction written where the program stores a result. Signed arithmetic is
taken to wrap, which is what the compiled kernels do.
-/
namespace KernelLabs.MachineWords

/-- The value an `int` holds after `x` is stored in it. -/
def int32 (x : ℤ) : ℤ := x.bmod (2 ^ 32)

/-- The value an `unsigned int` holds after `x` is stored in it. -/
def uint32 (x : ℕ) : ℕ := x % 2 ^ 32

/-- The value a `ushort` holds after `x` is stored in it. -/
def uint16 (x : ℕ) : ℕ := x % 2 ^ 16

def INT_MAX : ℤ := 2 ^ 31 - 1

theorem int32_eq_emod (x : ℤ) :
    int32 x = if x % 2 ^ 32 < 2 ^ 31 then x % 2 ^ 32 else x % 2 ^ 32 - 2 ^ 32 := by
  simp only [int32, Int.bmod_def]
  norm_num

theorem int32_bounds (x : ℤ) : -2 ^ 31 ≤ int32 x ∧ int32 x < 2 ^ 31 := by
  rw [int32_eq_emod]
  split <;> omega

theorem int32_eq_self {x : ℤ} (hlow : -2 ^ 31 ≤ x) (hhigh : x < 2 ^ 31) : int32 x = x := by
  rw [int32_eq_emod]
  split <;> omega

theorem int32_add_left (x y : ℤ) : int32 (int32 x + y) = int32 (x + y) := by
  simp only [int32, Int.bmod_add_bmod]

/-- A stored value is positive exactly when the residue is in the lower half. -/
theorem int32_pos_iff (x : ℤ) : 0 < int32 x ↔ 1 ≤ x % 2 ^ 32 ∧ x % 2 ^ 32 ≤ INT_MAX := by
  rw [int32_eq_emod, INT_MAX]
  split <;> omega

end KernelLabs.MachineWords

import Mathlib.Data.Nat.Digits.Defs

/-!
Numerals as lists of digits, the most significant one first, and their values. A printer gives
the digits of a number, with any number of zeros before them; a reader goes through them from
the left with an accumulator, which may be cut to a modulus at every step.
-/
namespace KernelLabs.Numerals

open List

variable {b : ℕ} {ds : List ℕ}

/-- The value of a numeral in base `b`. -/
def value (b : ℕ) (ds : List ℕ) : ℕ := ds.foldl (fun n d => n * b + d) 0

theorem value_concat (b : ℕ) (ds : List ℕ) (d : ℕ) : value b (ds ++ [d]) = value b ds * b + d := by
  rw [value, foldl_append]
  rfl

theorem value_zeros (b k : ℕ) (ds : List ℕ) : value b (replicate k 0 ++ ds) = value b ds := by
  induction k with
  | zero => rfl
  | succ k ih =>
    rw [replicate_succ, cons_append, value, foldl_cons, Nat.zero_mul]
    exact ih

/-- Mathlib has the digits in the other order. -/
theorem value_eq_ofDigits (b : ℕ) (ds : List ℕ) : value b ds = Nat.ofDigits b ds.reverse := by
  rw [Nat.ofDigits_eq_foldr, foldr_reverse, value]
  congr 1
  funext n d
  rw [Nat.mul_comm, Nat.add_comm]
  rfl

/-- What Nat.toDigits prints are the digits of the number, of which the first one is zero only
for the number zero, and then alone. -/
theorem exists_digits (hb : 1 < b) (n : ℕ) :
    ∃ d ds, Nat.toDigits b n = (d :: ds).map Nat.digitChar ∧ (∀ e ∈ d :: ds, e < b) ∧
      value b (d :: ds) = n ∧ (d = 0 ↔ n = 0) ∧ (d = 0 → ds = []) := by
  induction n using Nat.strong_induction_on with
  | _ n ih =>
    by_cases hlt : n < b
    · refine ⟨n, [], Nat.toDigits_of_lt_base hlt, ?_, ?_, Iff.rfl, fun _ => rfl⟩
      · intro e he
        rw [mem_singleton.mp he]
        exact hlt
      · rw [value, foldl_cons, Nat.zero_mul, Nat.zero_add, foldl_nil]
    · have hdiv : n / b < n := Nat.div_lt_self (by omega) hb
      obtain ⟨d, ds, hdigits, hbound, hvalue, hzero, _⟩ := ih (n / b) hdiv
      have hd : d ≠ 0 := by
        rw [Ne, hzero, Nat.div_eq_zero_iff]
        omega
      refine ⟨d, ds ++ [n % b], ?_, ?_, ?_, iff_of_false hd (by omega), fun h => absurd h hd⟩
      · rw [Nat.toDigits_of_base_le hb (by omega), hdigits, ← cons_append, map_append]
        rfl
      · intro e he
        rw [← cons_append, mem_append, mem_singleton] at he
        rcases he with he | rfl
        · exact hbound e he
        · exact Nat.mod_lt _ (by omega)
      · rw [← cons_append, value_concat, hvalue, Nat.div_add_mod']

end KernelLabs.Numerals

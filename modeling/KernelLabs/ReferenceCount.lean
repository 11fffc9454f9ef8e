import Mathlib.Algebra.BigOperators.Fin
import Mathlib.Data.Fintype.Card

/-!
How often a partial map on finitely many places points to a given target. Changing
the map at one place moves one reference from the old target of that place to the
new one, which is what a reference counter has to follow.
-/
namespace KernelLabs.ReferenceCount

open Function Finset

variable {ι α : Type*} [Fintype ι] [DecidableEq ι] [DecidableEq α]

def places (f : ι → Option α) (a : α) : Finset ι := univ.filter fun i => f i = some a

def count (f : ι → Option α) (a : α) : ℕ := (places f a).card

variable {f : ι → Option α}

omit [DecidableEq ι] in
@[simp] theorem mem_places {a : α} {i : ι} : i ∈ places f a ↔ f i = some a := by
  simp [places]

omit [DecidableEq ι] in
theorem count_eq_zero_iff {a : α} : count f a = 0 ↔ ∀ i, f i ≠ some a := by
  simp [count, card_eq_zero, Finset.ext_iff]

omit [DecidableEq ι] in
theorem count_le_count {f g : ι → Option α} {a : α} (h : ∀ i, f i = some a → g i = some a) :
    count f a ≤ count g a :=
  card_le_card fun i hi => mem_places.mpr (h i (mem_places.mp hi))

omit [DecidableEq ι] in
theorem count_eq_card (f : ι → Option α) (a : α) : count f a = (places f a).card := rfl

omit [DecidableEq ι] in
theorem count_le_card (f : ι → Option α) (a : α) : count f a ≤ Fintype.card ι :=
  card_le_univ (places f a)

omit [DecidableEq α] in
/-- One place changes, and the sum over all places changes by what stands there. -/
theorem sum_update {N : Type*} [AddCommMonoid N] (g : α → N) (f : ι → α) (i : ι) (x : α) :
    ∑ j, g (update f i x j) + g (f i) = ∑ j, g (f j) + g x := by
  have hrest : ∑ j ∈ univ.erase i, g (update f i x j) =
      ∑ j ∈ univ.erase i, g (f j) := by
    refine sum_congr rfl fun j hj => ?_
    rw [update_of_ne (ne_of_mem_erase hj)]
  rw [← add_sum_erase _ (fun j => g (update f i x j)) (mem_univ i),
    ← add_sum_erase _ (fun j => g (f j)) (mem_univ i), hrest, update_self]
  rw [add_comm (g x), add_comm (g (f i)), add_right_comm]

/-- One place changes its target. -/
theorem count_update (f : ι → Option α) (i : ι) (x : Option α) (a : α) :
    count (update f i x) a + (if f i = some a then 1 else 0) =
      count f a + (if x = some a then 1 else 0) := by
  simp only [count, places, card_filter]
  exact sum_update (fun y => if y = some a then 1 else 0) f i x

/-- The counts stay as they are only when the place keeps its target. -/
theorem count_update_eq_iff {i : ι} {x : Option α} :
    (∀ a, count (update f i x) a = count f a) ↔ x = f i := by
  constructor
  · intro h
    refine Option.ext fun a => ?_
    have hcount := count_update f i x a
    rw [h a] at hcount
    by_cases hx : x = some a
    · by_cases hf : f i = some a
      · exact iff_of_true hx hf
      · rw [if_pos hx, if_neg hf] at hcount
        omega
    · by_cases hf : f i = some a
      · rw [if_neg hx, if_pos hf] at hcount
        omega
      · exact iff_of_false hx hf
  · rintro rfl a
    rw [update_eq_self]

-- the number of places may be large, and no proof should count them by evaluation
attribute [irreducible] count

end KernelLabs.ReferenceCount

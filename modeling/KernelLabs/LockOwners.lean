import Mathlib.Data.Nat.Notation
import Mathlib.Logic.Function.Basic

/-!
Exclusive owners. Processes stand at points of a program, and an attribute of the points
says which of them are inside of a region. A lock with one owner fits the region when the
processes inside are exactly the owner; entering a free region, leaving it, and moving
without crossing its border keep the fit.
-/
namespace KernelLabs.LockOwners

open Function

variable {ι σ : Type*}

/-- The processes at a point with the attribute are exactly the owner, if there is one. -/
def Owned (attr : σ → Bool) (pc : ι → σ) (owner : Option ι) : Prop :=
  ∀ c, attr (pc c) = true ↔ owner = some c

namespace Owned

variable {attr : σ → Bool} {pc : ι → σ} {owner : Option ι} {c : ι} {q : σ}

theorem unique (h : Owned attr pc owner) {d : ι} (hc : attr (pc c) = true)
    (hd : attr (pc d) = true) : c = d :=
  Option.some.inj (((h c).mp hc).symm.trans ((h d).mp hd))

variable [DecidableEq ι]

theorem keep (h : Owned attr pc owner) (hq : attr q = attr (pc c)) :
    Owned attr (update pc c q) owner := by
  intro d
  by_cases hd : d = c
  · subst hd
    rw [update_self, hq]
    exact h d
  · rw [update_of_ne hd]
    exact h d

theorem take (h : Owned attr pc none) (hq : attr q = true) :
    Owned attr (update pc c q) (some c) := by
  intro d
  by_cases hd : d = c
  · simp [hd, hq]
  · have hnone := h d
    simpa [update_of_ne hd, Ne.symm hd] using hnone

theorem drop (h : Owned attr pc owner) (hc : attr (pc c) = true) (hq : attr q = false) :
    Owned attr (update pc c q) none := by
  intro d
  by_cases hd : d = c
  · simp [hd, hq]
  · have hother : attr (pc d) ≠ true := fun hattr => hd (h.unique hattr hc)
    simpa [update_of_ne hd] using hother

end Owned

end KernelLabs.LockOwners

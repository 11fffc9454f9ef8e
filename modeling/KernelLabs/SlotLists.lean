import Mathlib.Algebra.Group.Nat.Defs
import Mathlib.Data.List.Basic

/-!
Tables of slots, some of which are free. A new element goes to the first free slot, or
behind the last one if there is none; an element is taken out by making its slot free.
-/
namespace KernelLabs.SlotLists

open List

variable {α : Type*} {free p : α → Bool} {l : List α} {x y : α}

def put (free : α → Bool) : List α → α → List α
  | [], x => [x]
  | y :: l, x => if free y then x :: l else y :: put free l x

section Keys

variable {κ : Type*} {key : α → Option κ}

end Keys

end KernelLabs.SlotLists

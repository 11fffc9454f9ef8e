import KernelLabs.LinkedChain

/-!
Singly linked lists that grow at their end through a pointer to the last link. The pointer
names the variable that holds the first element as long as the list is empty. What the last
link holds does not matter until the list is closed, by the end of a list or by another list.
-/
namespace KernelLabs.TailPointers

open LinkedChain Function List

variable {α : Type*} [DecidableEq α]

/-- The variable for the first element, and the element whose link the pointer names; without
one it names the variable. -/
structure Queue (α : Type*) where
  first : Option α
  tail : Option α

namespace Queue

variable {next next' : α → Option α} {q : Queue α} {l rest : List α} {a : α} {x : Option α}

def links (q : Queue α) (next : α → Option α) (x : Option α) : α → Option α :=
  match q.tail with
  | none => next
  | some a => update next a x

def put (q : Queue α) (x : Option α) : Queue α :=
  match q.tail with
  | none => { q with first := x }
  | some _ => q

def push (q : Queue α) (a : α) : Queue α := { q.put (some a) with tail := some a }

/-- The elements of the list, if the last link held the end. -/
structure Holds (next : α → Option α) (q : Queue α) (l : List α) : Prop where
  chain : Chain (q.links next none) (q.put none).first l
  tail : q.tail = l.getLast?

theorem holds_empty (next : α → Option α) (x : Option α) : Holds next ⟨x, none⟩ [] :=
  ⟨Chain.nil, rfl⟩

theorem Holds.congr (h : Holds next q l) (heq : ∀ a ∈ l, next' a = next a) : Holds next' q l := by
  refine ⟨h.chain.congr fun a ha => ?_, h.tail⟩
  unfold links
  cases q.tail with
  | none => exact heq a ha
  | some b =>
    dsimp only
    by_cases hab : a = b
    · rw [hab, update_self, update_self]
    · rw [update_of_ne hab, update_of_ne hab, heq a ha]

/-- A store through the pointer changes the link of an element of the list, if any. -/
theorem Holds.links_eq (h : Holds next q l) (ha : a ∉ l) (x : Option α) :
    q.links next x a = next a := by
  unfold links
  cases hq : q.tail with
  | none => rfl
  | some b =>
    refine update_of_ne ?_ _ _
    rintro rfl
    exact ha (mem_of_getLast? (h.tail.symm.trans hq))

/-- The list is closed by a store of the head of another one. -/
theorem Holds.close (h : Holds next q l) (hrest : Chain next x rest) (hdisj : ∀ a ∈ l, a ∉ rest) :
    Chain (q.links next x) (q.put x).first (l ++ rest) := by
  obtain ⟨hchain, htail⟩ := h
  unfold links put at hchain ⊢
  cases hq : q.tail with
  | none =>
    rw [hq] at htail
    rw [getLast?_eq_none_iff.mp htail.symm]
    exact hrest
  | some b =>
    rw [hq] at hchain htail
    have hb : b ∈ l := mem_of_getLast? htail.symm
    dsimp only at hchain ⊢
    refine hchain.append htail.symm (fun c _ hcb => ?_) ?_
    · rw [update_of_ne hcb, update_of_ne hcb]
    · rw [update_self]
      refine hrest.congr fun c hc => update_of_ne ?_ _ _
      rintro rfl
      exact hdisj c hb hc

/-- An element is added at the end. -/
theorem Holds.push (h : Holds next q l) (ha : a ∉ l) :
    Holds (q.links next (some a)) (q.push a) (l ++ [a]) := by
  refine ⟨?_, (getLast?_concat ..).symm⟩
  -- the new element's own link may be set before or after it is stored
  have hlink : update (q.links next (some a)) a none =
      q.links (update next a none) (some a) := by
    unfold links
    cases hq : q.tail with
    | none => rfl
    | some b =>
      have hab : a ≠ b := by
        rintro rfl
        exact ha (mem_of_getLast? (h.tail.symm.trans hq))
      exact (update_comm hab ..).symm
  have hrest : Chain (update next a none) (some a) [a] := by
    refine Chain.cons ?_
    rw [update_self]
    exact Chain.nil
  have hsame : Holds (update next a none) q l := by
    refine h.congr fun b hb => update_of_ne ?_ _ _
    rintro rfl
    exact ha hb
  have hclosed := hsame.close hrest fun b hb hba => ha (mem_singleton.mp hba ▸ hb)
  rw [← hlink] at hclosed
  exact hclosed

end Queue

end KernelLabs.TailPointers

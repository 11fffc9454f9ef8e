import Mathlib.Data.List.Nodup
import Mathlib.Logic.Function.Basic

/-!
Circular linked lists. A list of nodes is described by what is met when a link is followed,
so that taking a node out and linking one in are facts about one function, used once for
each direction of a doubly linked list.
-/
namespace KernelLabs.LinkedRing

open Function List

variable {ν : Type*} {f g : ν → ν} {a b h w x y z : ν} {l l₁ l₂ : List ν}

theorem headD_append (l₁ l₂ : List ν) (y : ν) : (l₁ ++ l₂).headD y = l₁.headD (l₂.headD y) := by
  cases l₁ with
  | nil => rfl
  | cons a l₁ => rfl

theorem exists_last (h : ν) (l : List ν) : ∃ m z, h :: l = m ++ [z] :=
  ⟨_, _, (dropLast_append_getLast (cons_ne_nil h l)).symm⟩

/-- The last node of a list with a first node is the first one of the way back. -/
theorem headD_reverse (hlast : h :: l = l₁ ++ [z]) : l.reverse.headD h = z := by
  have hreverse : l.reverse ++ [h] = z :: l₁.reverse := by
    rw [← reverse_cons, hlast, reverse_append, reverse_singleton, singleton_append]
  have hhead := congrArg (fun l => headD l h) hreverse
  rwa [headD_append] at hhead

/-- From every node of `l` the link `f` leads to the next one, and from the last to `y`. -/
def Leads (f : ν → ν) : List ν → ν → Prop
  | [], _ => True
  | a :: l, y => f a = l.headD y ∧ Leads f l y

theorem leads_append : Leads f (l₁ ++ l₂) y ↔ Leads f l₁ (l₂.headD y) ∧ Leads f l₂ y := by
  induction l₁ with
  | nil => exact ⟨fun hl => ⟨trivial, hl⟩, fun hl => hl.2⟩
  | cons a l₁ ih =>
    change f a = (l₁ ++ l₂).headD y ∧ Leads f (l₁ ++ l₂) y ↔
      (f a = l₁.headD (l₂.headD y) ∧ Leads f l₁ (l₂.headD y)) ∧ Leads f l₂ y
    rw [ih, headD_append, and_assoc]

namespace Leads

theorem congr (hl : Leads f l y) (heq : ∀ a ∈ l, g a = f a) : Leads g l y := by
  induction l with
  | nil => trivial
  | cons a l ih =>
    refine ⟨(heq a mem_cons_self).trans hl.1, ih hl.2 ?_⟩
    intro b hb
    exact heq b (mem_cons_of_mem a hb)

variable [DecidableEq ν]

theorem update (hl : Leads f l y) (hz : z ∉ l) (w : ν) : Leads (update f z w) l y := by
  apply hl.congr
  intro a ha
  apply update_of_ne
  intro heq
  exact hz (heq ▸ ha)

/-- One node gets another successor. -/
theorem splice (hl : Leads f (l₁ ++ a :: l) y) (hnodup : (l₁ ++ a :: l).Nodup)
    (hrest : Leads f l₂ x) (ha : a ∉ l₂) :
    Leads (Function.update f a (l₂.headD x)) (l₁ ++ a :: l₂) x := by
  have hbefore : a ∉ l₁ := by
    intro hmem
    exact (nodup_append.mp hnodup).2.2 a hmem a mem_cons_self rfl
  refine leads_append.mpr ⟨(leads_append.mp hl).1.update hbefore _, ?_, hrest.update ha _⟩
  exact update_self _ _ _

/-- The node behind `a` is taken out. -/
theorem remove (hl : Leads f (l₁ ++ a :: b :: l₂) y) (hnodup : (l₁ ++ a :: b :: l₂).Nodup) :
    Leads (Function.update f a (f b)) (l₁ ++ a :: l₂) y := by
  obtain ⟨-, -, hb, hrest⟩ := leads_append.mp hl
  have ha : a ∉ l₂ := by
    intro hmem
    have htail := (nodup_append.mp hnodup).2.1
    exact (nodup_cons.mp htail).1 (mem_cons_of_mem b hmem)
  rw [hb]
  exact hl.splice hnodup hrest ha

/-- A node is linked in behind `a`. -/
theorem insert (hl : Leads f (l₁ ++ a :: l₂) y) (hnodup : (l₁ ++ a :: l₂).Nodup)
    (hb : b ∉ l₁ ++ a :: l₂) :
    Leads (Function.update (Function.update f b (f a)) a b) (l₁ ++ a :: b :: l₂) y := by
  have hne : a ≠ b := by
    intro heq
    exact hb (heq ▸ mem_append_right l₁ mem_cons_self)
  have hbl : b ∉ l₂ := fun hmem => hb (mem_append_right l₁ (mem_cons_of_mem a hmem))
  obtain ⟨-, ha, hrest⟩ := leads_append.mp hl
  have hbehind : Leads (Function.update f b (f a)) (b :: l₂) y := by
    refine ⟨?_, hrest.update hbl _⟩
    rw [update_self, ha]
  refine (hl.update hb (f a)).splice hnodup hbehind ?_
  · intro hmem
    obtain heq | hmem := mem_cons.mp hmem
    · exact hne heq
    · exact (nodup_cons.mp (nodup_append.mp hnodup).2.1).1 hmem

end Leads

/-- The ring through the head `h` and the nodes of `l`. -/
structure Ring (next prev : ν → ν) (h : ν) (l : List ν) : Prop where
  nodup : (h :: l).Nodup
  forward : Leads next (h :: l) h
  backward : Leads prev (h :: l.reverse) h

section Ring

variable {next prev : ν → ν}

/-- A ring of the head alone. -/
theorem ring_nil (hnext : next h = h) (hprev : prev h = h) : Ring next prev h [] :=
  ⟨nodup_singleton h, ⟨hnext, trivial⟩, hprev, trivial⟩

theorem Ring.nodup_reverse (hr : Ring next prev h l) : (h :: l.reverse).Nodup :=
  ((reverse_perm l).cons h).nodup_iff.mpr hr.nodup

variable [DecidableEq ν]

/-- Taking a node out of the ring. -/
theorem Ring.remove (hr : Ring next prev h (l₁ ++ b :: l₂)) :
    Ring (update next (prev b) (next b)) (update prev (next b) (prev b)) h
      (l₁ ++ l₂) := by
  have hreverse : (l₁ ++ b :: l₂).reverse = l₂.reverse ++ b :: l₁.reverse := by
    rw [reverse_append, reverse_cons, append_assoc, singleton_append]
  have hforward : Leads next ((h :: l₁) ++ b :: l₂) h := hr.forward
  have hbackward : Leads prev ((h :: l₂.reverse) ++ b :: l₁.reverse) h := by
    have hback := hr.backward
    rwa [hreverse] at hback
  have hnodup : ((h :: l₁) ++ b :: l₂).Nodup := hr.nodup
  have hnodup' : ((h :: l₂.reverse) ++ b :: l₁.reverse).Nodup := by
    have hback := hr.nodup_reverse
    rwa [hreverse] at hback
  obtain ⟨m, z, hm⟩ := exists_last h l₁
  obtain ⟨m', z', hm'⟩ := exists_last h l₂.reverse
  have hprev : prev b = z := by
    rw [(leads_append.mp hbackward).2.1, headD_reverse hm]
  have hnext : next b = z' := by
    have hhead := headD_reverse hm'
    rw [reverse_reverse] at hhead
    rw [(leads_append.mp hforward).2.1, hhead]
  refine ⟨?_, ?_, ?_⟩
  · exact hr.nodup.sublist (((sublist_cons_self b l₂).append_left l₁).cons_cons h)
  · rw [hm, append_assoc, singleton_append] at hforward hnodup
    have hremove := hforward.remove hnodup
    rw [hprev]
    rwa [← List.singleton_append, ← List.append_assoc, ← hm] at hremove
  · rw [hm', append_assoc, singleton_append] at hbackward hnodup'
    have hremove := hbackward.remove hnodup'
    rw [hnext, reverse_append]
    rwa [← List.singleton_append, ← List.append_assoc, ← hm'] at hremove

/-- Linking a node in behind the head. -/
theorem Ring.push (hr : Ring next prev h l) (hh : b ≠ h) (hl : b ∉ l) :
    Ring (update (update next b (next h)) h b)
      (update (update prev b h) (next h) b) h (b :: l) := by
  have hnew : b ∉ h :: l := by
    intro hmem
    exact (mem_cons.mp hmem).elim hh hl
  have hnew' : b ∉ h :: l.reverse := by
    intro hmem
    exact (mem_cons.mp hmem).elim hh fun hin => hl (mem_reverse.mp hin)
  refine ⟨?_, ?_, ?_⟩
  · have hperm : (b :: h :: l).Perm (h :: b :: l) := List.Perm.swap h b l
    exact hperm.nodup_iff.mp (nodup_cons.mpr ⟨hnew, hr.nodup⟩)
  · have hforward : Leads next ([] ++ h :: l) h := hr.forward
    exact hforward.insert hr.nodup hnew
  · -- seen from behind, the new node comes last
    obtain ⟨m, z, hm⟩ := exists_last h l.reverse
    have hnext : next h = z := by
      have hhead := headD_reverse hm
      rw [reverse_reverse] at hhead
      rw [hr.forward.1, hhead]
    have hback := hr.backward.update hnew' h
    have hnodup := hr.nodup_reverse
    have hbz : z ∉ [b] := by
      intro hmem
      rw [← mem_singleton.mp hmem] at hnew'
      exact hnew' (hm ▸ mem_append_right m mem_cons_self)
    rw [hm] at hback hnodup
    have hlast : Leads (update prev b h) [b] h := ⟨update_self b h prev, trivial⟩
    have hsplice := hback.splice hnodup hlast hbz
    rw [hnext, reverse_cons]
    change Leads _ ((h :: l.reverse) ++ [b]) h
    rw [hm, append_assoc]
    exact hsplice

def scan (f : ν → ν) (h : ν) (p : ν → Bool) : ℕ → ν → Option ν
  | 0, _ => none
  | fuel + 1, x => if x = h then none else if p x then some x else scan f h p fuel (f x)

/-- With a step for every node the search finds what there is. -/
theorem scan_eq (p : ν → Bool) {fuel : ℕ} (hl : Leads f (x :: l) h) (hh : h ∉ l)
    (hfuel : l.length < fuel) : scan f h p fuel (f x) = l.find? p := by
  induction l generalizing x fuel with
  | nil =>
    obtain ⟨n, rfl⟩ : ∃ n, fuel = n + 1 := ⟨fuel - 1, by omega⟩
    have hend : f x = h := hl.1
    rw [scan, if_pos hend]
    rfl
  | cons a l ih =>
    obtain ⟨n, rfl⟩ : ∃ n, fuel = n + 1 := ⟨fuel - 1, by omega⟩
    have hne : a ≠ h := fun heq => hh (heq ▸ mem_cons_self)
    have hfirst : f x = a := hl.1
    rw [hfirst, scan, if_neg hne, find?_cons]
    cases hp : p a with
    | true => rfl
    | false =>
      rw [length_cons] at hfuel
      have hrest : h ∉ l := fun hmem => hh (mem_cons_of_mem a hmem)
      exact ih hl.2 hrest (by omega)

end Ring

end KernelLabs.LinkedRing

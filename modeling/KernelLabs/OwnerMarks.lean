import Mathlib.Data.Multiset.AddSub
import Mathlib.Data.Multiset.Count
import Mathlib.Data.Multiset.UnionInter
import Mathlib.Logic.Function.Basic

/-!
Units of a resource that are marked while they are in use. The owners name their
units in tables, in which a zero stands for no unit; the multiset of all the names is
held against the marks, and the two agree when no unit is named twice and exactly the
named ones are marked. Taking an unmarked unit and giving a named one back keep this.
-/
namespace KernelLabs.OwnerMarks

open Function Multiset

section Marks

variable {α : Type*} {used : α → Bool} {region : α → Prop} {X Y : Multiset α} {b : α}

/-- The units named in `X` are those marked in the region, each named once. -/
structure Marked (used : α → Bool) (region : α → Prop) (X : Multiset α) : Prop where
  nodup : X.Nodup
  inside : ∀ b ∈ X, region b
  used_iff : ∀ b, region b → (used b = true ↔ b ∈ X)

theorem Marked.used_of_mem (h : Marked used region X) (hb : b ∈ X) : used b = true :=
  (h.used_iff b (h.inside b hb)).mpr hb

theorem Marked.fresh (h : Marked used region X) (hfree : used b = false) : b ∉ X := by
  intro hmem
  rw [h.used_of_mem hmem] at hfree
  cases hfree

/-- The units of two owners are different. -/
theorem Marked.ne_of_mem (h : Marked used region (X + Y)) {c : α} (hb : b ∈ X) (hc : c ∈ Y) :
    b ≠ c := by
  rintro rfl
  exact Multiset.disjoint_left.mp (nodup_add.mp h.nodup).2.2 hb hc

variable [DecidableEq α]

/-- An unmarked unit of the region gets a name. -/
theorem Marked.take (h : Marked used region X) (hb : region b) (hfree : used b = false) :
    Marked (update used b true) region (b ::ₘ X) where
  nodup := Multiset.nodup_cons.mpr ⟨h.fresh hfree, h.nodup⟩
  inside := by
    intro c hc
    rcases Multiset.mem_cons.mp hc with rfl | hc
    · exact hb
    · exact h.inside c hc
  used_iff := by
    intro c hc
    by_cases heq : c = b
    · subst heq
      simp
    · rw [update_of_ne heq, h.used_iff c hc, Multiset.mem_cons, or_iff_right heq]

/-- A named unit loses its name and its mark. -/
theorem Marked.drop (h : Marked used region (b ::ₘ X)) : Marked (update used b false) region X where
  nodup := (Multiset.nodup_cons.mp h.nodup).2
  inside := fun c hc => h.inside c (Multiset.mem_cons_of_mem hc)
  used_iff := by
    have hb := (Multiset.nodup_cons.mp h.nodup).1
    intro c hc
    by_cases heq : c = b
    · subst heq
      simp [hb]
    · rw [update_of_ne heq, h.used_iff c hc, Multiset.mem_cons, or_iff_right heq]

theorem Marked.used_iff_count (h : Marked used region X) (hb : region b) :
    used b = true ↔ X.count b = 1 := by
  rw [h.used_iff b hb]
  constructor
  · exact Multiset.count_eq_one_of_mem h.nodup
  · intro hcount
    rw [← count_pos, hcount]
    exact Nat.one_pos

theorem Marked.count_le (h : Marked used region X) (b : α) : X.count b ≤ 1 :=
  Multiset.nodup_iff_count_le_one.mp h.nodup b

end Marks

section Tables

variable {ι α : Type*} [DecidableEq ι] [Zero α] [DecidableEq α] {l : List ι} {f g : ι → α} {j : ι} {b : α}

def entries (l : List ι) (f : ι → α) : Multiset α := ↑((l.map f).filter (· ≠ 0))

omit [DecidableEq ι] in
theorem entries_cons (j : ι) (l : List ι) (f : ι → α) :
    entries (j :: l) f = (if f j = 0 then 0 else {f j}) + entries l f := by
  by_cases h : f j = 0
  · simp [entries, h]
  · simp [entries, h, ← cons_coe]

omit [DecidableEq ι] in
theorem mem_entries : b ∈ entries l f ↔ b ≠ 0 ∧ ∃ j ∈ l, f j = b := by
  simp only [entries, mem_coe, List.mem_filter, List.mem_map, decide_eq_true_eq]
  exact and_comm

omit [DecidableEq ι] in
/-- A name that stands once in the table stands in one place. -/
theorem entries_inj (h : (entries l f).Nodup) {j' : ι} (hj : j ∈ l) (hj' : j' ∈ l)
    (hne : f j ≠ 0) (heq : f j = f j') : j = j' := by
  rw [entries, coe_nodup, List.filter_map] at h
  have hmem {i : ι} (hi : i ∈ l) (hf : f i ≠ 0) :
      i ∈ l.filter ((fun b => decide (b ≠ 0)) ∘ f) :=
    List.mem_filter.mpr ⟨hi, decide_eq_true hf⟩
  exact List.inj_on_of_nodup_map h (hmem hj hne) (hmem hj' (heq ▸ hne)) heq

omit [DecidableEq ι] in
theorem entries_congr (h : ∀ j ∈ l, f j = g j) : entries l f = entries l g := by
  rw [entries, entries, List.map_congr_left h]

omit [DecidableEq ι] in
theorem entries_zero (h : ∀ j ∈ l, f j = 0) : entries l f = 0 := by
  refine eq_zero_of_forall_notMem fun b hb => ?_
  obtain ⟨hne, j, hj, rfl⟩ := mem_entries.mp hb
  exact hne (h j hj)

theorem entries_update_of_notMem (hj : j ∉ l) : entries l (update f j b) = entries l f := by
  refine entries_congr fun i hi => update_of_ne ?_ _ _
  rintro rfl
  exact hj hi

/-- A name that is put in an empty place. -/
theorem entries_update (hl : l.Nodup) (hj : j ∈ l) (hempty : f j = 0) (hb : b ≠ 0) :
    entries l (update f j b) = b ::ₘ entries l f := by
  induction l with
  | nil => cases hj
  | cons i l ih =>
    obtain ⟨hi, hl⟩ := List.nodup_cons.mp hl
    rw [entries_cons, entries_cons]
    by_cases heq : i = j
    · subst heq
      rw [update_self, if_neg hb, entries_update_of_notMem hi, if_pos hempty, Multiset.zero_add,
        singleton_add]
    · rw [update_of_ne heq, ih hl ((List.mem_cons.mp hj).resolve_left (Ne.symm heq)), add_cons]

end Tables

end KernelLabs.OwnerMarks

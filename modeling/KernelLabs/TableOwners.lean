import KernelLabs.ReferenceCount
import Mathlib.Algebra.Order.BigOperators.Group.Finset
import Mathlib.Data.Multiset.Bind

/-!
Two-level tables in a memory of pages, and the pages they own. A page is a family of
words; a word may name a page. A directory owns its own page, the tables that its
words name, and, for the entries that are marked, the pages that the words of those
tables name. The pages are counted as a multiset, so that an equation says that no page
is lost and none is held twice. A store to a directory or to a table changes the count
by what the old and the new word name.
-/
namespace KernelLabs.TableOwners

open ReferenceCount Function Multiset Finset

section Sums

variable {α ι : Type*} [Fintype ι] [DecidableEq ι]

/-- Two terms of a sum without duplicates have nothing in common. -/
theorem disjoint_of_nodup_sum {f : ι → Multiset α} (h : (∑ i, f i).Nodup) {i j : ι} (hij : i ≠ j)
    {x : α} (hi : x ∈ f i) : x ∉ f j := by
  have hsplit : ∑ k, f k = f i + ∑ k ∈ univ.erase i, f k := (add_sum_erase _ f (mem_univ i)).symm
  have hle : f j ≤ ∑ k ∈ univ.erase i, f k :=
    Finset.single_le_sum (fun k _ => Multiset.zero_le (f k))
      (mem_erase.mpr ⟨Ne.symm hij, mem_univ j⟩)
  rw [hsplit, nodup_add] at h
  intro hj
  exact Multiset.disjoint_left.mp h.2.2 hi (mem_of_le hle hj)

/-- A sum of which one term changes. -/
theorem sum_change {N : Type*} [AddCommMonoid N] {f g : ι → N} {i : ι}
    (hne : ∀ j, j ≠ i → g j = f j) {x y : N} (hi : g i + x = f i + y) :
    ∑ j, g j + x = ∑ j, f j + y := by
  have hrest : ∑ j ∈ univ.erase i, g j = ∑ j ∈ univ.erase i, f j :=
    sum_congr rfl fun j hj => hne j (ne_of_mem_erase hj)
  rw [← add_sum_erase _ g (mem_univ i), ← add_sum_erase _ f (mem_univ i),
    hrest, add_right_comm, hi, add_right_comm]

end Sums

/-- The page that a word names, which of the directory's entries own the pages of their
tables, and a word that names nothing. -/
structure Format (φ ι ω : Type*) where
  target : ω → Option φ
  owns : ι → Bool
  blank : ω
  target_blank : target blank = none

variable {φ ι ω : Type*}

section Memory

variable [DecidableEq φ] [DecidableEq ι]

def store (m : φ → ι → ω) (t : φ) (j : ι) (w : ω) : φ → ι → ω :=
  update m t (update (m t) j w)

theorem store_ne {m : φ → ι → ω} {t f : φ} {j : ι} {w : ω} (h : f ≠ t) : store m t j w f = m f :=
  update_of_ne h _ _

theorem store_self (m : φ → ι → ω) (t : φ) (j : ι) (w : ω) :
    store m t j w t = update (m t) j w := update_self _ _ _

end Memory

namespace Format

variable (F : Format φ ι ω)

def held (w : ω) : Multiset φ := (F.target w).toList

/-- The word at which the walk through entry `i` and word `j` of its table ends. -/
def leaf (m : φ → ι → ω) (d : φ) (i j : ι) : ω :=
  match F.target (m d i) with
  | some t => m t j
  | none => F.blank

variable {f : φ}

section Words

variable {F} {m : φ → ι → ω} {d t : φ} {i j : ι} {w : ω}

theorem held_some (h : F.target w = some f) : F.held w = {f} := by
  rw [held, h]
  rfl

theorem held_none (h : F.target w = none) : F.held w = 0 := by
  rw [held, h]
  rfl

theorem mem_held : f ∈ F.held w ↔ F.target w = some f := by
  simp [held]

theorem leaf_some (h : F.target (m d i) = some t) : F.leaf m d i j = m t j := by
  simp only [leaf, h]

theorem leaf_none (h : F.target (m d i) = none) : F.leaf m d i j = F.blank := by
  simp only [leaf, h]

theorem leaf_blank (h : ∀ i, m d i = F.blank) (i j : ι) : F.leaf m d i j = F.blank :=
  leaf_none (by rw [h i, F.target_blank])

end Words

variable [Fintype ι]

def tables (m : φ → ι → ω) (d : φ) : Multiset φ := ∑ i, F.held (m d i)

/-- The pages that entry `i` of a directory owns beyond its table `t`. -/
def pagesOf (m : φ → ι → ω) (i : ι) : Option φ → Multiset φ
  | some t => if F.owns i then ∑ j, F.held (m t j) else 0
  | none => 0

def pages (m : φ → ι → ω) (d : φ) : Multiset φ := ∑ i, F.pagesOf m i (F.target (m d i))

def footprint (m : φ → ι → ω) (d : φ) : Multiset φ := d ::ₘ (F.tables m d + F.pages m d)

theorem footprint_eq (m : φ → ι → ω) (d : φ) :
    F.footprint m d = d ::ₘ (F.tables m d + F.pages m d) := rfl

theorem tables_eq (m : φ → ι → ω) (d : φ) : F.tables m d = ∑ i, F.held (m d i) := rfl

theorem pages_eq (m : φ → ι → ω) (d : φ) :
    F.pages m d = ∑ i, F.pagesOf m i (F.target (m d i)) := rfl

variable {F} {m m' : φ → ι → ω} {d t : φ} {i j : ι} {w : ω}

theorem dir_mem_footprint (m : φ → ι → ω) (d : φ) : d ∈ F.footprint m d :=
  Multiset.mem_cons_self _ _

theorem mem_tables (h : F.target (m d i) = some t) : t ∈ F.tables m d :=
  mem_sum.mpr ⟨i, mem_univ i, mem_held.mpr h⟩

theorem exists_of_mem_tables (h : t ∈ F.tables m d) : ∃ i, F.target (m d i) = some t := by
  obtain ⟨i, -, hi⟩ := mem_sum.mp h
  exact ⟨i, mem_held.mp hi⟩

theorem table_mem_footprint (h : F.target (m d i) = some t) : t ∈ F.footprint m d :=
  Multiset.mem_cons_of_mem (Multiset.mem_add.mpr (.inl (mem_tables h)))

theorem mem_pages (h : F.target (m d i) = some t) (hi : F.owns i = true)
    (hf : F.target (m t j) = some f) : f ∈ F.pages m d := by
  refine mem_sum.mpr ⟨i, mem_univ i, ?_⟩
  rw [h, pagesOf, if_pos hi]
  exact mem_sum.mpr ⟨j, mem_univ j, mem_held.mpr hf⟩

theorem exists_leaf_of_mem_pages (h : f ∈ F.pages m d) :
    ∃ i j, F.owns i = true ∧ F.target (F.leaf m d i j) = some f := by
  obtain ⟨i, -, hi⟩ := mem_sum.mp h
  cases ht : F.target (m d i) with
  | none =>
    rw [ht, pagesOf] at hi
    exact absurd hi (notMem_zero f)
  | some t =>
    rw [ht, pagesOf] at hi
    split at hi
    · rename_i howns
      obtain ⟨j, -, hj⟩ := mem_sum.mp hi
      exact ⟨i, j, howns, by rw [leaf_some ht]; exact mem_held.mp hj⟩
    · exact absurd hi (notMem_zero f)

theorem pages_subset_footprint (h : f ∈ F.pages m d) : f ∈ F.footprint m d :=
  Multiset.mem_cons_of_mem (Multiset.mem_add.mpr (.inr h))

theorem page_mem_footprint (h : F.target (m d i) = some t) (hi : F.owns i = true)
    (hf : F.target (m t j) = some f) : f ∈ F.footprint m d :=
  pages_subset_footprint (mem_pages h hi hf)

/-- A footprint is read from the directory and from its tables. -/
theorem footprint_congr_tables (hdir : m' d = m d) (htables : ∀ t ∈ F.tables m d, m' t = m t) :
    F.footprint m' d = F.footprint m d := by
  have hpages : ∀ i, F.pagesOf m' i (F.target (m d i)) = F.pagesOf m i (F.target (m d i)) := by
    intro i
    cases ht : F.target (m d i) with
    | none => rfl
    | some t => simp only [pagesOf, htables t (mem_tables ht)]
  simp only [footprint, tables, pages, hdir, hpages]

theorem leaf_congr_tables (hdir : m' d = m d) (htables : ∀ t ∈ F.tables m d, m' t = m t)
    (i j : ι) : F.leaf m' d i j = F.leaf m d i j := by
  cases ht : F.target (m d i) with
  | none => rw [leaf_none ht, leaf_none (by rw [hdir, ht])]
  | some t => rw [leaf_some ht, leaf_some (by rw [hdir, ht]), htables t (mem_tables ht)]

theorem footprint_congr (h : ∀ f ∈ F.footprint m d, m' f = m f) :
    F.footprint m' d = F.footprint m d :=
  footprint_congr_tables (h d (dir_mem_footprint m d)) fun t ht =>
    h t (Multiset.mem_cons_of_mem (Multiset.mem_add.mpr (.inl ht)))

theorem leaf_congr (h : ∀ f ∈ F.footprint m d, m' f = m f) (i j : ι) :
    F.leaf m' d i j = F.leaf m d i j :=
  leaf_congr_tables (h d (dir_mem_footprint m d))
    (fun t ht => h t (Multiset.mem_cons_of_mem (Multiset.mem_add.mpr (.inl ht)))) i j

section Nodup

variable (hnodup : (F.footprint m d).Nodup)

include hnodup

theorem table_ne_dir (h : F.target (m d i) = some t) : t ≠ d := by
  rintro rfl
  exact (nodup_cons.mp hnodup).1 (Multiset.mem_add.mpr (.inl (mem_tables h)))

/-- Two entries of a directory have different tables. -/
theorem table_inj [DecidableEq ι] {k : ι} (hi : F.target (m d i) = some t)
    (hk : F.target (m d k) = some t) : i = k := by
  by_contra hne
  have htables := (nodup_add.mp (nodup_cons.mp hnodup).2).1
  exact disjoint_of_nodup_sum htables hne (mem_held.mpr hi) (mem_held.mpr hk)

theorem pages_nodup : (F.pages m d).Nodup :=
  (nodup_add.mp (nodup_cons.mp hnodup).2).2.1

/-- Two walks through entries that own their pages end at different pages. -/
theorem leaf_inj [DecidableEq ι] {k l : ι} (hi : F.owns i = true) (hk : F.owns k = true)
    (hij : F.target (F.leaf m d i j) = some f) (hkl : F.target (F.leaf m d k l) = some f) :
    i = k ∧ j = l := by
  have hmem : ∀ i' j', F.owns i' = true → F.target (F.leaf m d i' j') = some f →
      ∃ t, F.target (m d i') = some t ∧ f ∈ F.held (m t j') := by
    intro i' j' _ hleaf
    cases ht : F.target (m d i') with
    | none =>
      rw [leaf_none ht, F.target_blank] at hleaf
      cases hleaf
    | some t =>
      rw [leaf_some ht] at hleaf
      exact ⟨t, rfl, mem_held.mpr hleaf⟩
  obtain ⟨t, ht, hf⟩ := hmem i j hi hij
  obtain ⟨u, hu, hf'⟩ := hmem k l hk hkl
  have hpages := pages_nodup hnodup
  have hterm : ∀ i' t', F.owns i' = true → F.target (m d i') = some t' →
      F.pagesOf m i' (F.target (m d i')) = ∑ j', F.held (m t' j') := by
    intro i' t' howns ht'
    rw [ht', pagesOf, if_pos howns]
  have hik : i = k := by
    by_contra hne
    refine disjoint_of_nodup_sum hpages hne (x := f) ?_ ?_
    · rw [hterm i t hi ht]
      exact mem_sum.mpr ⟨j, mem_univ j, hf⟩
    · rw [hterm k u hk hu]
      exact mem_sum.mpr ⟨l, mem_univ l, hf'⟩
  subst hik
  obtain rfl : t = u := Option.some.inj (ht.symm.trans hu)
  refine ⟨rfl, ?_⟩
  by_contra hne
  have hle : ∑ j', F.held (m t j') ≤ F.pages m d := by
    rw [← hterm i t hi ht, pages]
    exact Finset.single_le_sum (fun k _ => Multiset.zero_le _) (mem_univ i)
  exact disjoint_of_nodup_sum (nodup_of_le hle hpages) hne hf hf'

/-- An owned page is neither the directory nor one of its tables. -/
theorem page_ne (hf : f ∈ F.pages m d) : f ≠ d ∧ ∀ k, F.target (m d k) ≠ some f := by
  obtain ⟨hdir, hrest⟩ := nodup_cons.mp hnodup
  refine ⟨?_, fun k hk => ?_⟩
  · rintro rfl
    exact hdir (Multiset.mem_add.mpr (.inr hf))
  · exact Multiset.disjoint_left.mp (nodup_add.mp hrest).2.2 (mem_tables hk) hf

/-- The contents of an owned page do not matter to the walks. -/
theorem update_page [DecidableEq φ] (hf : f ∈ F.pages m d) (words : ι → ω) :
    update m f words d = m d ∧ ∀ t ∈ F.tables m d, update m f words t = m t := by
  obtain ⟨hdir, htable⟩ := page_ne hnodup hf
  refine ⟨update_of_ne (Ne.symm hdir) _ _, ?_⟩
  intro t ht
  obtain ⟨i, hi⟩ := exists_of_mem_tables ht
  refine update_of_ne ?_ _ _
  rintro rfl
  exact htable i hi

end Nodup

/-- A directory without tables owns its page. -/
theorem footprint_of_no_table (h : ∀ i, F.target (m d i) = none) : F.footprint m d = {d} := by
  have htables : F.tables m d = 0 := Finset.sum_eq_zero fun i _ => held_none (h i)
  have hpages : F.pages m d = 0 := Finset.sum_eq_zero fun i _ => by rw [h i, pagesOf]
  rw [footprint, htables, hpages]
  rfl

theorem footprint_blank (h : ∀ i, m d i = F.blank) : F.footprint m d = {d} :=
  footprint_of_no_table fun i => by rw [h i, F.target_blank]

/-- Where no entry owns the pages of its table, the directory and its tables are counted. -/
theorem card_footprint (h : ∀ i, F.owns i = false) :
    (F.footprint m d).card =
      (univ.filter fun i => (F.target (m d i)).isSome).card + 1 := by
  have hpages : F.pages m d = 0 := by
    refine Finset.sum_eq_zero fun i _ => ?_
    cases F.target (m d i) with
    | none => rfl
    | some t =>
      rw [pagesOf, h i]
      rfl
  have hheld : ∀ i, (F.held (m d i)).card = if (F.target (m d i)).isSome then 1 else 0 := by
    intro i
    cases ht : F.target (m d i) with
    | none => rw [held_none ht]; rfl
    | some t => rw [held_some ht]; rfl
  rw [footprint, hpages, add_zero, Multiset.card_cons, tables, card_sum]
  simp only [hheld, sum_boole, Nat.cast_id]

/-- A directory has at most one table for each of its entries. -/
theorem card_footprint_le (m : φ → ι → ω) (d : φ) :
    (F.footprint m d).card ≤ Fintype.card ι + (F.pages m d).card + 1 := by
  have htables : (F.tables m d).card ≤ Fintype.card ι := by
    rw [tables, card_sum]
    refine le_of_le_of_eq (Finset.sum_le_card_nsmul _ _ 1 fun i _ => ?_) (by simp)
    cases ht : F.target (m d i) with
    | none => rw [held_none ht]; exact Nat.zero_le _
    | some t => rw [held_some ht]; exact le_rfl
  rw [footprint, Multiset.card_cons, card_add]
  omega

theorem pages_eq_zero (h : ∀ i j, F.owns i = true → F.target (F.leaf m d i j) = none) :
    F.pages m d = 0 := by
  refine Finset.sum_eq_zero fun i _ => ?_
  cases ht : F.target (m d i) with
  | none => rfl
  | some t =>
    rw [pagesOf]
    split
    · rename_i hi
      refine Finset.sum_eq_zero fun j _ => held_none ?_
      rw [← leaf_some ht]
      exact h i j hi
    · rfl

section Stores

variable [DecidableEq φ] [DecidableEq ι]

variable (hnodup : (F.footprint m d).Nodup)

include hnodup

/-- An entry without a table gets a blank page as its table. -/
theorem footprint_addTable (habsent : F.target (m d i) = none) (hw : F.target w = some t)
    (hnew : t ∉ F.footprint m d) (hblank : ∀ j, m t j = F.blank) :
    F.footprint (store m d i w) d = t ::ₘ F.footprint m d := by
  have hne : t ≠ d := fun heq => hnew (heq.symm ▸ dir_mem_footprint m d)
  have htables : F.tables (store m d i w) d = t ::ₘ F.tables m d := by
    have hsum := sum_update F.held (m d) i w
    rw [held_none habsent, add_zero, held_some hw] at hsum
    rw [tables, store_self, hsum, tables, ← Multiset.singleton_add, add_comm]
  have hpages : F.pages (store m d i w) d = F.pages m d := by
    refine sum_congr rfl fun k _ => ?_
    rw [store_self]
    by_cases hki : k = i
    · subst hki
      rw [update_self, hw, habsent, pagesOf, pagesOf, store_ne hne]
      split
      · exact Finset.sum_eq_zero fun j _ => held_none (by rw [hblank j, F.target_blank])
      · rfl
    · rw [update_of_ne hki]
      cases hk : F.target (m d k) with
      | none => rfl
      | some u => rw [pagesOf, pagesOf, store_ne (table_ne_dir hnodup hk)]
  rw [footprint, htables, hpages, footprint, cons_add, Multiset.cons_swap]

theorem leaf_addTable (habsent : F.target (m d i) = none) (hw : F.target w = some t)
    (hnew : t ∉ F.footprint m d) (hblank : ∀ j, m t j = F.blank) (k j : ι) :
    F.leaf (store m d i w) d k j = F.leaf m d k j := by
  have hne : t ≠ d := fun heq => hnew (heq.symm ▸ dir_mem_footprint m d)
  by_cases hki : k = i
  · subst hki
    have htable : F.target (store m d k w d k) = some t := by
      rw [store_self, update_self, hw]
    rw [leaf_none habsent, leaf_some htable, store_ne hne, hblank]
  · have hsame : store m d i w d k = m d k := by rw [store_self, update_of_ne hki]
    cases hk : F.target (m d k) with
    | none => rw [leaf_none hk, leaf_none (by rw [hsame, hk])]
    | some u =>
      rw [leaf_some hk, leaf_some (by rw [hsame, hk]), store_ne (table_ne_dir hnodup hk)]

variable (hi : F.target (m d i) = some t)

include hi

theorem store_dir : store m t j w d = m d :=
  store_ne (Ne.symm (table_ne_dir hnodup hi))

/-- A store to a table moves one page between the directory and the rest. -/
theorem footprint_store (howns : F.owns i = true) :
    F.footprint (store m t j w) d + F.held (m t j) = F.footprint m d + F.held w := by
  have hdir := store_dir (j := j) (w := w) hnodup hi
  have hsum : F.pages (store m t j w) d + F.held (m t j) = F.pages m d + F.held w := by
    refine sum_change (i := i) (fun k hk => ?_) ?_
    · rw [hdir]
      cases hu : F.target (m d k) with
      | none => rfl
      | some u =>
        have hne : u ≠ t := by
          rintro rfl
          exact hk (table_inj hnodup hu hi)
        rw [pagesOf, pagesOf, store_ne hne]
    · rw [hdir, hi, pagesOf, pagesOf, if_pos howns, if_pos howns, store_self]
      exact sum_update F.held (m t) j w
  have htables : F.tables (store m t j w) d = F.tables m d := by rw [tables, hdir, tables]
  rw [footprint, footprint, htables, cons_add, cons_add, add_assoc, hsum, add_assoc]

/-- A store to the table of an entry that owns no pages. -/
theorem footprint_store_of_not_owns (howns : F.owns i = false) :
    F.footprint (store m t j w) d = F.footprint m d := by
  have hdir := store_dir (j := j) (w := w) hnodup hi
  have hpages : F.pages (store m t j w) d = F.pages m d := by
    refine sum_congr rfl fun k _ => ?_
    rw [hdir]
    cases hu : F.target (m d k) with
    | none => rfl
    | some u =>
      by_cases hut : u = t
      · subst hut
        rw [table_inj hnodup hu hi, pagesOf, pagesOf, howns]
        rfl
      · rw [pagesOf, pagesOf, store_ne hut]
  have htables : F.tables (store m t j w) d = F.tables m d := by rw [tables, hdir, tables]
  rw [footprint, footprint, htables, hpages]

theorem leaf_store_self : F.leaf (store m t j w) d i j = w := by
  have hdir := store_dir (j := j) (w := w) hnodup hi
  rw [leaf_some (by rw [hdir, hi]), store_self, update_self]

theorem leaf_store_ne {k l : ι} (hne : ¬ (k = i ∧ l = j)) :
    F.leaf (store m t j w) d k l = F.leaf m d k l := by
  have hdir := store_dir (j := j) (w := w) hnodup hi
  cases hu : F.target (m d k) with
  | none => rw [leaf_none hu, leaf_none (by rw [hdir, hu])]
  | some u =>
    rw [leaf_some hu, leaf_some (by rw [hdir, hu])]
    by_cases hut : u = t
    · subst hut
      rw [store_self, update_of_ne fun hlj => hne ⟨table_inj hnodup hu hi, hlj⟩]
    · rw [store_ne hut]

end Stores

section NewTable

variable [DecidableEq φ] [DecidableEq ι] (hnodup : (F.footprint m d).Nodup)
  (habsent : F.target (m d i) = none) (hw : F.target w = some t) (hnew : t ∉ F.footprint m d)

include hnodup habsent hw hnew

/-- A page that is made blank and then named by an entry without a table. -/
theorem newTable : F.footprint (store (update m t fun _ => F.blank) d i w) d =
      t ::ₘ F.footprint m d ∧
    ∀ k j, F.leaf (store (update m t fun _ => F.blank) d i w) d k j = F.leaf m d k j := by
  have hsame : ∀ f ∈ F.footprint m d, update m t (fun _ => F.blank) f = m f := by
    intro f hf
    refine update_of_ne ?_ _ _
    rintro rfl
    exact hnew hf
  have hfoot := footprint_congr hsame
  have hblank : ∀ j, update m t (fun _ => F.blank) t j = F.blank := by
    intro j
    rw [update_self]
  have habsent' : F.target (update m t (fun _ => F.blank) d i) = none := by
    rw [hsame d (dir_mem_footprint m d), habsent]
  rw [← hfoot] at hnodup hnew
  refine ⟨?_, fun k j => ?_⟩
  · rw [footprint_addTable hnodup habsent' hw hnew hblank, hfoot]
  · rw [leaf_addTable hnodup habsent' hw hnew hblank, leaf_congr hsame]

end NewTable

-- the sums run over all words of a page, and no proof should evaluate them
attribute [irreducible] tables pages footprint

end Format

end KernelLabs.TableOwners

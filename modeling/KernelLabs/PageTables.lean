import KernelLabs.PageRefinement
import KernelLabs.ReferenceCount

/-!
What the memory says about the page tables: which page a virtual page is mapped to,
how often a page is mapped, and which pages are tables. Nothing here looks at the
free list or at the counters. The tables stay in order when an entry is stored that
names no table, when an unmapped page is hung into the directory, and when memory
outside the directory and the tables changes.
-/
namespace KernelLabs.PageTables

open ReferenceCount PageWords PhysPages PageDir PageRefinement Function

variable {M : MemSize} {s t : Phys M} {pgdir : Page M}

def target (s : Phys M) (pgdir : Page M) (v : Vpn) : Option (Page M) :=
  (absMap s pgdir v).map Prod.fst

/-- The page serves as the page table of a directory entry below UTOP. -/
def IsTable (s : Phys M) (pgdir p : Page M) : Prop := ∃ v : Vpn, tableOf s pgdir v.dir = some p

instance (s : Phys M) (pgdir p : Page M) : Decidable (IsTable s pgdir p) := by
  unfold IsTable
  infer_instance

def mappings (s : Phys M) (pgdir p : Page M) : ℕ := count (target s pgdir) p

def tableRefs (s : Phys M) (pgdir p : Page M) : ℕ := if IsTable s pgdir p then 1 else 0

/-- An update of the map is an update of the targets. -/
theorem target_update {v : Vpn} {x : Option (Page M × BitVec 12)}
    (h : absMap t pgdir = update (absMap s pgdir) v x) :
    target t pgdir = update (target s pgdir) v (x.map Prod.fst) := by
  funext u
  rw [target, h]
  by_cases huv : u = v
  · subst huv
    rw [update_self, update_self]
  · rw [update_of_ne huv, update_of_ne huv, target]

theorem mappings_eq_zero_iff {p : Page M} :
    mappings s pgdir p = 0 ↔ ∀ v, target s pgdir v ≠ some p := count_eq_zero_iff

theorem mappings_congr (h : target t pgdir = target s pgdir) (p : Page M) :
    mappings t pgdir p = mappings s pgdir p := by
  rw [mappings, mappings, h]

/-- Changing the target of one virtual page moves one mapping. -/
theorem mappings_update {v : Vpn} {x : Option (Page M)}
    (h : target t pgdir = update (target s pgdir) v x) (p : Page M) :
    mappings t pgdir p + (if target s pgdir v = some p then 1 else 0) =
      mappings s pgdir p + (if x = some p then 1 else 0) := by
  rw [mappings, mappings, h]
  exact count_update _ _ _ _

theorem unmapped_of_no_tables (h : ∀ v : Vpn, tableOf s pgdir v.dir = none) :
    (∀ v, target s pgdir v = none) ∧ (∀ p, ¬ IsTable s pgdir p) ∧
      ∀ p, mappings s pgdir p = 0 := by
  have htarget : ∀ v, target s pgdir v = none := fun v => by
    rw [target, absMap_of_absent (h v)]
    rfl
  refine ⟨htarget, fun p ⟨v, hv⟩ => ?_, fun p => mappings_eq_zero_iff.mpr fun v hv => ?_⟩
  · rw [h v] at hv
    cases hv
  · rw [htarget v] at hv
    cases hv

theorem target_of_table {v : Vpn} {r : Page M} (hr : tableOf s pgdir v.dir = some r) :
    target s pgdir v = (decode M (s.mem r v.tab)).map Prod.fst := by
  rw [target, absMap_of_table hr]

/-- What the memory alone says about the page tables. -/
structure Tables (s : Phys M) (pgdir : Page M) : Prop where
  dirInRange : ∀ v : Vpn, InRange M (s.mem pgdir v.dir)
  inRange : ∀ (v : Vpn) t, tableOf s pgdir v.dir = some t → InRange M (s.mem t v.tab)
  table_ne : ∀ v : Vpn, tableOf s pgdir v.dir ≠ some pgdir
  table_inj : ∀ (v w : Vpn) t, tableOf s pgdir v.dir = some t → tableOf s pgdir w.dir = some t →
    v.dir = w.dir
  not_table : ∀ v p, target s pgdir v = some p → ¬ IsTable s pgdir p

def Agree (s t : Phys M) (pgdir : Page M) : Prop :=
  ∀ r, r = pgdir ∨ IsTable s pgdir r → t.mem r = s.mem r

namespace Agree

variable (h : Agree s t pgdir)

include h

theorem tableOf_eq : tableOf t pgdir = tableOf s pgdir := by
  funext i
  rw [tableOf, tableOf, h pgdir (Or.inl rfl)]

theorem isTable_iff (p : Page M) : IsTable t pgdir p ↔ IsTable s pgdir p := by
  rw [IsTable, IsTable, h.tableOf_eq]

theorem target_eq : target t pgdir = target s pgdir := by
  funext v
  rw [target, target]
  refine congrArg _ ?_
  cases ht : tableOf s pgdir v.dir with
  | none => rw [absMap_of_absent ht, absMap_of_absent (h.tableOf_eq ▸ ht)]
  | some r =>
    rw [absMap_of_table ht, absMap_of_table (h.tableOf_eq ▸ ht), h r (Or.inr ⟨v, ht⟩)]

theorem mappings_eq (p : Page M) : mappings t pgdir p = mappings s pgdir p :=
  mappings_congr h.target_eq p

theorem tableRefs_eq (p : Page M) : tableRefs t pgdir p = tableRefs s pgdir p :=
  if_congr (h.isTable_iff p) rfl rfl

theorem tables (hs : Tables s pgdir) : Tables t pgdir := by
  refine ⟨fun v => ?_, fun v r hr => ?_, fun v => ?_, fun v w r => ?_, fun v p hp => ?_⟩
  · rw [h pgdir (Or.inl rfl)]
    exact hs.dirInRange v
  · rw [h.tableOf_eq] at hr
    rw [h r (Or.inr ⟨v, hr⟩)]
    exact hs.inRange v r hr
  · rw [h.tableOf_eq]
    exact hs.table_ne v
  · rw [h.tableOf_eq]
    exact hs.table_inj v w r
  · rw [h.target_eq] at hp
    rw [h.isTable_iff]
    exact hs.not_table v p hp

end Agree

theorem Agree.of_mem_eq (h : t.mem = s.mem) : Agree s t pgdir := fun _ _ => by rw [h]

theorem agree_zeroPage {q : Page M} (hdir : q ≠ pgdir) (htable : ¬ IsTable s pgdir q) :
    Agree s (s.zeroPage q) pgdir := by
  intro r hr
  have hrq : r ≠ q := by
    rintro rfl
    exact hr.elim hdir htable
  exact update_of_ne hrq _ _

theorem Tables.apart (h : Tables s pgdir) : Apart s pgdir := { h with }

section Store

variable (h : Tables s pgdir) {v : Vpn} {r : Page M} (hr : tableOf s pgdir v.dir = some r) {w : Word}

include h hr

theorem Tables.ne_dir : pgdir ≠ r := fun heq => h.table_ne v (heq ▸ hr)

theorem target_setWord (w : Word) : target (s.setWord r v.tab w) pgdir =
    update (target s pgdir) v ((decode M w).map Prod.fst) :=
  target_update (absMap_setWord h.apart hr w)

theorem isTable_setWord (p : Page M) :
    IsTable (s.setWord r v.tab w) pgdir p ↔ IsTable s pgdir p := by
  rw [IsTable, IsTable, tableOf_setWord s (h.ne_dir hr)]

/-- A store of an entry that names no table keeps the tables in order. -/
theorem Tables.setWord (hrange : InRange M w)
    (hw : ∀ p, (decode M w).map Prod.fst = some p → ¬ IsTable s pgdir p) :
    Tables (s.setWord r v.tab w) pgdir := by
  have hne := h.ne_dir hr
  have htable := tableOf_setWord s hne v.tab w
  refine ⟨fun u => ?_, fun u q hq => ?_, fun u => ?_, fun u u' q => ?_, fun u p hp => ?_⟩
  · rw [setWord_mem_ne s hne]
    exact h.dirInRange u
  · rw [htable] at hq
    have hold := h.inRange u q hq
    by_cases hqr : q = r
    · subst hqr
      rw [setWord_mem_self]
      by_cases htab : u.tab = v.tab
      · rwa [htab, update_self]
      · rwa [update_of_ne htab]
    · rwa [setWord_mem_ne s hqr]
  · rw [htable]
    exact h.table_ne u
  · rw [htable]
    exact h.table_inj u u' q
  · rw [isTable_setWord h hr]
    rw [target_setWord h hr] at hp
    by_cases huv : u = v
    · subst huv
      rw [update_self] at hp
      exact hw p hp
    · rw [update_of_ne huv] at hp
      exact h.not_table u p hp

end Store

section Hang

variable (h : Tables s pgdir) {q : Page M} (hdir : q ≠ pgdir) (hq : ¬ IsTable s pgdir q) {v : Vpn}
  (habsent : tableOf s pgdir v.dir = none)

include h hdir hq habsent

theorem target_addTable : target (addTable s pgdir v.dir q) pgdir = target s pgdir := by
  funext u
  rw [target, target, absMap_addTable h.apart hdir habsent fun w hw => hq ⟨w, hw⟩]

omit h hq in
theorem isTable_addTable (p : Page M) :
    IsTable (addTable s pgdir v.dir q) pgdir p ↔ p = q ∨ IsTable s pgdir p := by
  simp only [IsTable, tableOf_addTable s hdir.symm]
  constructor
  · rintro ⟨u, hu⟩
    by_cases huv : u.dir = v.dir
    · rw [huv, update_self] at hu
      exact Or.inl (Option.some.inj hu).symm
    · rw [update_of_ne huv] at hu
      exact Or.inr ⟨u, hu⟩
  · rintro (rfl | ⟨u, hu⟩)
    · exact ⟨v, update_self _ _ _⟩
    · have huv : u.dir ≠ v.dir := fun heq => by
        rw [heq, habsent] at hu
        cases hu
      exact ⟨u, by rwa [update_of_ne huv]⟩

omit h hq in
theorem tableRefs_addTable (p : Page M) : tableRefs (addTable s pgdir v.dir q) pgdir p =
    if p = q then 1 else tableRefs s pgdir p := by
  have htable := isTable_addTable hdir habsent p
  by_cases hpq : p = q
  · rw [if_pos hpq, tableRefs, if_pos (htable.mpr (Or.inl hpq))]
  · rw [if_neg hpq]
    exact if_congr (htable.trans (or_iff_right hpq)) rfl rfl

/-- Hanging an unmapped page into the directory keeps the tables in order. -/
theorem Tables.addTable (hmapped : ∀ u, target s pgdir u ≠ some q) :
    Tables (addTable s pgdir v.dir q) pgdir := by
  have htable := tableOf_addTable s hdir.symm v.dir
  have hapart := apart_addTable h.apart hdir (fun w hw => hq ⟨w, hw⟩) v.dir
  refine ⟨fun u => ?_, fun u r hr => ?_, hapart.table_ne, hapart.table_inj, fun u p hp => ?_⟩
  · rw [PageDir.addTable, setWord_mem_self]
    by_cases huv : u.dir = v.dir
    · rw [huv, update_self]
      intro _
      rw [(decode_eq_some (decode_dirEntry q)).2]
      exact q.isLt
    · rw [update_of_ne huv]
      have := h.dirInRange u
      simpa [Phys.zeroPage, update_of_ne hdir.symm] using this
  · rw [htable] at hr
    by_cases huv : u.dir = v.dir
    · rw [huv, update_self] at hr
      obtain rfl := Option.some.inj hr
      rw [addTable_mem_new s hdir]
      exact fun hp => absurd hp (show ¬ Present 0 by decide)
    · rw [update_of_ne huv] at hr
      have hrd : r ≠ pgdir := fun heq => h.table_ne u (heq ▸ hr)
      have hrq : r ≠ q := fun heq => hq ⟨u, heq ▸ hr⟩
      rw [addTable_mem_ne s hrd hrq]
      exact h.inRange u r hr
  · rw [target_addTable h hdir hq habsent] at hp
    rw [isTable_addTable hdir habsent]
    rintro (rfl | htab)
    · exact hmapped u hp
    · exact h.not_table u p hp htab

end Hang

end KernelLabs.PageTables

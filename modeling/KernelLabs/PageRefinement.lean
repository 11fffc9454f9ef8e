import KernelLabs.PageDir

/-!
The page tables as a map. A store to an entry changes the address space at one
virtual page, and hanging an empty table into the directory changes it nowhere,
because the tables, the directory and the free pages are separate. So page_insert
is the update of the map at one page, page_remove its erasure, page_lookup its
application, and pgdir_walk leaves it alone.
-/
namespace KernelLabs.PageRefinement

open LinkedChain PageWords PhysPages PageDir Function Option

variable {M : MemSize}

theorem absMap_congr {s t : Phys M} (h : t.mem = s.mem) (pgdir : Page M) :
    absMap t pgdir = absMap s pgdir := by
  unfold absMap tableOf
  rw [h]

@[simp] theorem incref_mem (s : Phys M) (p : Page M) : (s.incref p).mem = s.mem := rfl

@[simp] theorem taken_mem (s : Phys M) (p : Page M) : (s.taken p).mem = s.mem := rfl

theorem setWord_mem_ne (s : Phys M) {t q : Page M} (h : q ≠ t) (j : Fin NPTENTRIES) (w : Word) :
    (s.setWord t j w).mem q = s.mem q := update_of_ne h _ _

theorem setWord_mem_self (s : Phys M) (t : Page M) (j : Fin NPTENTRIES) (w : Word) :
    (s.setWord t j w).mem t = update (s.mem t) j w := update_self _ _ _

theorem tableOf_setWord (s : Phys M) {pgdir t : Page M} (h : pgdir ≠ t) (j : Fin NPTENTRIES)
    (w : Word) : tableOf (s.setWord t j w) pgdir = tableOf s pgdir := by
  funext i
  rw [tableOf, tableOf, setWord_mem_ne s h]

/-- The tables of a state are separate from its directory and from one another. -/
structure Apart (s : Phys M) (pgdir : Page M) : Prop where
  table_ne : ∀ v : Vpn, tableOf s pgdir v.dir ≠ some pgdir
  table_inj : ∀ (v w : Vpn) t, tableOf s pgdir v.dir = some t → tableOf s pgdir w.dir = some t →
    v.dir = w.dir

variable {s : Phys M}

theorem apart_of_separated {pgdir : Page M} (h : Separated s pgdir) :
    Apart s pgdir := { h with }

/-- A store to the entry of a virtual page changes the map there and nowhere else. -/
theorem absMap_setWord {pgdir t : Page M} (hs : Apart s pgdir) {v : Vpn}
    (ht : tableOf s pgdir v.dir = some t) (w : Word) :
    absMap (s.setWord t v.tab w) pgdir = update (absMap s pgdir) v (decode M w) := by
  have hne : pgdir ≠ t := fun heq => hs.table_ne v (heq ▸ ht)
  funext u
  by_cases huv : u = v
  · subst huv
    rw [update_self, absMap, tableOf_setWord s hne, ht]
    simp [setWord_mem_self]
  · rw [update_of_ne huv, absMap, absMap, tableOf_setWord s hne]
    cases hu : tableOf s pgdir u.dir with
    | none => rfl
    | some r =>
      simp only [bind_some]
      by_cases hrt : r = t
      · subst hrt
        have htab : u.tab ≠ v.tab := fun htab =>
          huv (Vpn.eq_of_dir_tab (hs.table_inj u v r hu ht) htab)
        rw [setWord_mem_self, update_of_ne htab]
      · rw [setWord_mem_ne s hrt]

variable {pgdir q : Page M}

theorem tableOf_addTable (s : Phys M) (hne : pgdir ≠ q) (i : Fin NPTENTRIES) :
    tableOf (addTable s pgdir i q) pgdir = update (tableOf s pgdir) i (some q) := by
  funext k
  by_cases hki : k = i
  · subst hki
    simp only [tableOf, addTable, setWord_mem_self, update_self, decode_dirEntry, map_some]
  · rw [update_of_ne hki, tableOf, tableOf, addTable, setWord_mem_self,
      update_of_ne hki]
    simp [Phys.zeroPage, update_of_ne hne]

theorem addTable_mem_ne (s : Phys M) {pgdir q r : Page M} (hrd : r ≠ pgdir) (hrq : r ≠ q)
    (i : Fin NPTENTRIES) : (addTable s pgdir i q).mem r = s.mem r := by
  rw [addTable, setWord_mem_ne _ hrd]
  simp [Phys.zeroPage, update_of_ne hrq]

theorem addTable_mem_new (s : Phys M) (hne : q ≠ pgdir) (i : Fin NPTENTRIES) :
    (addTable s pgdir i q).mem q = fun _ => 0 := by
  rw [addTable, setWord_mem_ne _ hne]
  simp [Phys.zeroPage]

theorem absMap_addTable (hs : Apart s pgdir) (hne : q ≠ pgdir) {v : Vpn}
    (habsent : tableOf s pgdir v.dir = none) (hq : ∀ w : Vpn, tableOf s pgdir w.dir ≠ some q) :
    absMap (addTable s pgdir v.dir q) pgdir = absMap s pgdir := by
  funext u
  rw [absMap, tableOf_addTable s hne.symm]
  by_cases huv : u.dir = v.dir
  · rw [huv, update_self, absMap_of_absent (huv ▸ habsent)]
    simp [addTable_mem_new s hne]
  · rw [update_of_ne huv, absMap]
    cases hu : tableOf s pgdir u.dir with
    | none => rfl
    | some r =>
      have hrd : r ≠ pgdir := fun heq => hs.table_ne u (heq ▸ hu)
      have hrq : r ≠ q := fun heq => hq u (heq ▸ hu)
      simp only [bind_some, addTable_mem_ne s hrd hrq]

theorem apart_addTable (hs : Apart s pgdir) (hne : q ≠ pgdir)
    (hq : ∀ w : Vpn, tableOf s pgdir w.dir ≠ some q) (i : Fin NPTENTRIES) :
    Apart (addTable s pgdir i q) pgdir := by
  have htable := tableOf_addTable s hne.symm i
  refine ⟨fun v => ?_, fun v w t hv hw => ?_⟩
  · rw [htable]
    by_cases hvi : v.dir = i
    · rw [hvi, update_self]
      exact fun heq => hne (some.inj heq)
    · rw [update_of_ne hvi]
      exact hs.table_ne v
  · rw [htable] at hv hw
    by_cases hvi : v.dir = i <;> by_cases hwi : w.dir = i
    · rw [hvi, hwi]
    · rw [hvi, update_self] at hv
      rw [update_of_ne hwi, ← some.inj hv] at hw
      exact absurd hw (hq w)
    · rw [hwi, update_self] at hw
      rw [update_of_ne hvi, ← some.inj hw] at hv
      exact absurd hv (hq v)
    · rw [update_of_ne hvi] at hv
      rw [update_of_ne hwi] at hw
      exact hs.table_inj v w t hv hw

def finalState {α : Type} : EStateM.Result String (Phys M) α → Phys M
  | .ok _ t => t
  | .error _ t => t

theorem pageDecref_mem (s : Phys M) (p : Page M) :
    (finalState ((pageDecref p).run s)).mem = s.mem := by
  rw [run_pageDecref]
  split
  · rename_i href
    by_cases hlink : ((s.decref p).pages p).link = none
    · rw [run_pageFree href hlink]
      rfl
    · rw [run_pageFree_linked href hlink]
      rfl
  · rfl

/-- A page whose link is null can always give up a reference. -/
theorem pageDecref_returns {p : Page M} (hlink : (s.pages p).link = none) :
    ∃ t, (pageDecref p).run s = .ok () t := by
  rw [run_pageDecref]
  split
  · rename_i href
    have hlink' : ((s.decref p).pages p).link = none := (Phys.decref_link s p p).trans hlink
    exact ⟨_, run_pageFree href hlink'⟩
  · exact ⟨_, rfl⟩

theorem decode_pteOf (pp : Page M) {perm : Word} (h : perm.toNat < 2 ^ 12) :
    decode M (pteOf pp perm) = some (pp, flags (perm ||| PTE_P)) := by
  rw [pteOf, BitVec.or_assoc]
  exact decode_entry pp (perm_toNat_lt h) (present_perm perm)

section Calls

variable {s : Phys M} {pgdir : Page M} (hs : Separated s pgdir) {va : Word} (hva : va.toNat < UTOP)

include hs hva

theorem absMap_pgdirWalk (create : Bool) :
    ∃ r t, (pgdirWalk pgdir va create).run s = .ok r t ∧ absMap t pgdir = absMap s pgdir := by
  have hdir := Vpn.dir_ofAddr va hva
  cases ht : tableOf s pgdir (PDX va) with
  | some t => exact ⟨_, s, run_pgdirWalk_table ht create, rfl⟩
  | none =>
    have habsent : ¬ Present (s.mem pgdir (PDX va)) := hdir ▸ hs.absent (hdir ▸ ht)
    cases create with
    | false => exact ⟨none, s, run_pgdirWalk_absent habsent, rfl⟩
    | true =>
      cases hfree : s.freeList with
      | none => exact ⟨none, s, run_pgdirWalk_full habsent hfree, rfl⟩
      | some q =>
        refine ⟨_, _, run_pgdirWalk_alloc habsent hfree, ?_⟩
        rw [← hdir] at ht ⊢
        exact absMap_addTable (apart_of_separated hs) (hs.head_ne_dir hfree) ht
          (hs.head_ne_table hfree)

theorem absMap_pageLookup :
    ∃ r, (pageLookup pgdir va).run s = .ok r s ∧
      r.map Prod.fst = (absMap s pgdir (Vpn.ofAddr va hva)).map Prod.fst := by
  cases h : absMap s pgdir (Vpn.ofAddr va hva) with
  | none => exact ⟨none, run_pageLookup_none hs hva h, rfl⟩
  | some e =>
    obtain ⟨t, ht, hdecode⟩ := bind_eq_some_iff.mp h
    rw [Vpn.dir_ofAddr] at ht
    rw [Vpn.tab_ofAddr] at hdecode
    exact ⟨_, run_pageLookup_some ht hdecode, rfl⟩

/-- page_remove erases the page from the map, also when giving up the reference panics. -/
theorem absMap_pageRemove :
    absMap (finalState ((pageRemove pgdir va).run s)) pgdir =
      update (absMap s pgdir) (Vpn.ofAddr va hva) none := by
  cases h : absMap s pgdir (Vpn.ofAddr va hva) with
  | none =>
    rw [run_pageRemove_none hs hva h, ← h, update_eq_self]
    rfl
  | some e =>
    obtain ⟨t, ht, hdecode⟩ := bind_eq_some_iff.mp h
    have hstore := absMap_setWord (apart_of_separated hs) ht 0#32
    rw [Vpn.dir_ofAddr] at ht
    rw [Vpn.tab_ofAddr] at hdecode hstore
    rw [run_pageRemove_some ht hdecode, absMap_congr (pageDecref_mem _ _)]
    simpa using hstore

theorem pageRemove_returns
    (hlink : ∀ p bits, absMap s pgdir (Vpn.ofAddr va hva) = some (p, bits) →
      (s.pages p).link = none) :
    ∃ t, (pageRemove pgdir va).run s = .ok () t := by
  cases h : absMap s pgdir (Vpn.ofAddr va hva) with
  | none => exact ⟨s, run_pageRemove_none hs hva h⟩
  | some e =>
    obtain ⟨t, ht, hdecode⟩ := bind_eq_some_iff.mp h
    rw [Vpn.dir_ofAddr] at ht
    rw [Vpn.tab_ofAddr] at hdecode
    rw [run_pageRemove_some ht hdecode]
    exact pageDecref_returns (hlink e.1 e.2 h)

/-- A page_insert that returns zero updates the map at its page. -/
theorem absMap_pageInsert (pp : Page M) {perm : Word} (hperm : perm.toNat < 2 ^ 12) {u : Phys M}
    (hrun : (pageInsert pgdir pp va perm).run s = .ok 0 u) :
    absMap u pgdir = update (absMap s pgdir) (Vpn.ofAddr va hva)
      (some (pp, flags (perm ||| PTE_P))) := by
  have hdir := Vpn.dir_ofAddr va hva
  have htab := Vpn.tab_ofAddr va hva
  have hapart := apart_of_separated hs
  cases ht : tableOf s pgdir (Vpn.ofAddr va hva).dir with
  | none =>
    have habsent : ¬ Present (s.mem pgdir (PDX va)) := hdir ▸ hs.absent ht
    cases hfree : s.freeList with
    | none =>
      rw [run_pageInsert_full habsent hfree] at hrun
      cases hrun
    | some q =>
      have hqd := hs.head_ne_dir hfree
      have hqt := hs.head_ne_table hfree
      rw [run_pageInsert_alloc habsent hfree hqd, ← hdir, ← htab] at hrun
      cases hrun
      have hq : tableOf (addTable s pgdir (Vpn.ofAddr va hva).dir q) pgdir
          (Vpn.ofAddr va hva).dir = some q := by
        rw [tableOf_addTable s hqd.symm, update_self]
      have hstore := absMap_setWord (apart_addTable hapart hqd hqt _) hq (pteOf pp perm)
      rw [absMap_addTable hapart hqd ht hqt, decode_pteOf pp hperm] at hstore
      exact hstore
  | some t =>
    have hstore := absMap_setWord hapart ht (pteOf pp perm)
    rw [decode_pteOf pp hperm] at hstore
    rw [htab] at hstore
    cases h : decode M (s.mem t (PTX va)) with
    | none =>
      have hempty : ¬ Present (s.mem t (PTX va)) := (decode_eq_none (htab ▸ hs.inRange _ t ht)).mp h
      rw [hdir] at ht
      rw [run_pageInsert_fresh ht hempty] at hrun
      cases hrun
      exact hstore
    | some e =>
      rw [hdir] at ht
      rw [run_pageInsert_replace ht h] at hrun
      have hmem := pageDecref_mem ((s.incref pp).setWord t (PTX va) 0) e.1
      cases hdecref : (pageDecref e.1).run ((s.incref pp).setWord t (PTX va) 0) with
      | error msg u' =>
        rw [hdecref] at hrun
        cases hrun
      | ok _ u' =>
        rw [hdecref] at hrun hmem
        cases hrun
        rw [← hstore]
        refine absMap_congr ?_ pgdir
        simp only [finalState] at hmem
        simp [Phys.setWord, hmem]

theorem pageInsert_returns
    (hlink : ∀ p bits, absMap s pgdir (Vpn.ofAddr va hva) = some (p, bits) →
      (s.pages p).link = none) (pp : Page M) (perm : Word) :
    ∃ r t, (pageInsert pgdir pp va perm).run s = .ok r t ∧ (r = 0 ∨ r = -E_NO_MEM) := by
  have hdir := Vpn.dir_ofAddr va hva
  have htab := Vpn.tab_ofAddr va hva
  cases ht : tableOf s pgdir (Vpn.ofAddr va hva).dir with
  | none =>
    have habsent : ¬ Present (s.mem pgdir (PDX va)) := hdir ▸ hs.absent ht
    cases hfree : s.freeList with
    | none => exact ⟨_, _, run_pageInsert_full habsent hfree pp perm, Or.inr rfl⟩
    | some q =>
      exact ⟨_, _, run_pageInsert_alloc habsent hfree (hs.head_ne_dir hfree) pp perm, Or.inl rfl⟩
  | some t =>
    have habs := absMap_of_table ht
    have hrange := hs.inRange _ t ht
    rw [htab] at habs hrange
    rw [hdir] at ht
    cases h : decode M (s.mem t (PTX va)) with
    | none =>
      exact ⟨_, _, run_pageInsert_fresh ht ((decode_eq_none hrange).mp h) pp perm, Or.inl rfl⟩
    | some e =>
      have hlink' : (((s.incref pp).setWord t (PTX va) 0).pages e.1).link = none :=
        (Phys.incref_link s pp e.1).trans (hlink e.1 e.2 (habs.trans h))
      obtain ⟨u, hu⟩ := pageDecref_returns hlink'
      refine ⟨0, u.setWord t (PTX va) (pteOf pp perm), ?_, Or.inl rfl⟩
      rw [run_pageInsert_replace ht h, hu]

end Calls

/-- The page tables refine the map from virtual pages to pages with permissions. In
every separated state and at every address below UTOP: a page_insert that returns
zero is the update of the map at that page, and one over a page without a link does
return; page_remove erases the page and returns under the same condition;
page_lookup returns what the map holds; and pgdir_walk leaves the map unchanged. -/
theorem page_table_refinement {s : Phys M} {pgdir : Page M} (hs : Separated s pgdir) {va : Word}
    (hva : va.toNat < UTOP) :
    (∀ (pp : Page M) (perm : Word), perm.toNat < 4096 → ∀ u,
      (pageInsert pgdir pp va perm).run s = .ok 0 u →
        absMap u pgdir = update (absMap s pgdir) (Vpn.ofAddr va hva)
          (some (pp, flags (perm ||| PTE_P)))) ∧
    absMap (finalState ((pageRemove pgdir va).run s)) pgdir =
      update (absMap s pgdir) (Vpn.ofAddr va hva) none ∧
    (∃ r, (pageLookup pgdir va).run s = .ok r s ∧
      r.map Prod.fst = (absMap s pgdir (Vpn.ofAddr va hva)).map Prod.fst) ∧
    (∀ create, ∃ r t, (pgdirWalk pgdir va create).run s = .ok r t ∧
      absMap t pgdir = absMap s pgdir) ∧
    ((∀ p bits, absMap s pgdir (Vpn.ofAddr va hva) = some (p, bits) → (s.pages p).link = none) →
      (∃ t, (pageRemove pgdir va).run s = .ok () t) ∧
      ∀ pp perm, ∃ r t, (pageInsert pgdir pp va perm).run s = .ok r t ∧
        (r = 0 ∨ r = -E_NO_MEM)) :=
  ⟨fun pp _ hperm _ hrun => absMap_pageInsert hs hva pp hperm hrun, absMap_pageRemove hs hva,
    absMap_pageLookup hs hva, absMap_pgdirWalk hs hva,
    fun hlink => ⟨pageRemove_returns hs hva hlink, pageInsert_returns hs hva hlink⟩⟩

/-- Sixteen pages, all clear, with page 5 on the free list. -/
def clearPages : Phys ⟨16, by decide, by decide⟩ where
  pages := fun _ => ⟨none, 0⟩
  freeList := some 5
  mem := fun _ _ => 0
  trace := []

theorem separated_clearPages : Separated clearPages 3 := by
  have htable : ∀ i, tableOf clearPages 3 i = none := fun i => by
    simp [tableOf, clearPages]
  have hfree : ∀ p, clearPages.Free p → p = 5 := by
    intro p hp
    cases hp with
    | here => rfl
    | there hrest => cases hrest
  refine ⟨fun v hp => ?_, fun v t ht => ?_, fun v => ?_, fun v w t ht => ?_, fun p _ v => ?_, ?_⟩
  · exact absurd hp (show ¬ Present 0 by decide)
  · rw [htable] at ht
    cases ht
  · simp [htable]
  · rw [htable] at ht
    cases ht
  · simp [htable]
  · intro h
    exact absurd (hfree _ h) (by decide)

/-- Page 7 is mapped at address zero, for which page 5 becomes the page table. -/
theorem page_table_refinement_clearPages :
    ∃ u, (pageInsert (3 : Page ⟨16, by decide, by decide⟩) 7 0 6).run clearPages = .ok 0 u ∧
      absMap u 3 (Vpn.ofAddr 0 (by decide)) = some (7, 7) := by
  have habsent : ¬ Present (clearPages.mem 3 (PDX 0)) := by decide
  have hrun := run_pageInsert_alloc habsent (show clearPages.freeList = some 5 from rfl)
    (by decide) 7 6
  refine ⟨_, hrun, ?_⟩
  have hmap := (page_table_refinement separated_clearPages (by decide)).1 7 6 (by decide) _ hrun
  rw [hmap, update_self]
  rfl

end KernelLabs.PageRefinement

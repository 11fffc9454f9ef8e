import KernelLabs.PageAccounts

/-!
Every call of pmap.c keeps the accounts and returns without a panic, when no page is
mapped so often that its counter wraps. page_insert into a new table does what it
does once the table is there, so only the case of an existing table is followed: it
counts the new reference, gives up the old one if the entry was in use, and stores
the entry.
-/
namespace KernelLabs.PageCalls

open LinkedChain ReferenceCount PageWords PhysPages PageDir PageRefinement PageTables PageAccounts
  Function Option

variable {M : MemSize} {s : Phys M} {pgdir : Page M} {l : List (Page M)}

theorem accounts_alloc (h : Accounts s pgdir l 0) (allocFlags : ℤ) :
    ∃ r t l', (pageAlloc allocFlags).run s = .ok r t ∧ Accounts t pgdir l' 0 ∧
      Conserves s t l l' := by
  cases l with
  | nil => exact ⟨none, s, [], run_pageAlloc_none h.chain.of_nil allocFlags, h, Conserves.refl s _⟩
  | cons q l =>
    obtain ⟨hfree, htaken⟩ := h.taken rfl
    have hnew : ¬ s.Owned q := fun hq => h.owned_not_free q hq List.mem_cons_self
    have htable := h.not_isTable hnew
    refine ⟨some q, _, l, run_pageAlloc_some hfree allocFlags, ?_⟩
    split
    · exact ⟨htaken, Conserves.taken s q⟩
    · exact ⟨htaken.zeroPage (Or.inl rfl) htable, (Conserves.taken s q).congr rfl rfl⟩

theorem accounts_free (h : Accounts s pgdir l 0) (hs : Sparse s pgdir) {p : Page M}
    (hp : s.Owned p) (href : (s.pages p).ref = 0) :
    ∃ t, (pageFree p).run s = .ok () t ∧ Accounts t pgdir (p :: l) 0 ∧
      Conserves s t l (p :: l) := by
  refine ⟨_, run_pageFree href (h.owned_link p hp), h.returned hp ?_, Conserves.returned hp⟩
  rw [← h.ref_eq hs hp, href]
  rfl

variable {held : Page M → ℕ}

/-- Clearing the entry of a mapped address and giving up its reference. -/
theorem accounts_clear (h : Accounts s pgdir l held) {v : Vpn} {r q : Page M}
    (hr : tableOf s pgdir v.dir = some r) (hq : target s pgdir v = some q)
    (hfits : mappings s pgdir q + tableRefs s pgdir q + held q ≤ 65536) :
    ∃ t l', (pageDecref q).run (s.setWord r v.tab 0) = .ok () t ∧ Accounts t pgdir l' held ∧
      tableOf t pgdir = tableOf s pgdir ∧
      target t pgdir = update (target s pgdir) v none ∧ Conserves s t l l' ∧
      ∀ p, s.Owned p → t.Owned p ∨ (p = q ∧ q ∈ l' ∧ held q = 0) := by
  obtain ⟨hclear, htarget, hcount⟩ := h.unmap hr hq
  have hrefs : tableRefs (s.setWord r v.tab 0) pgdir q = tableRefs s pgdir q :=
    if_congr (isTable_setWord h.tables hr q) rfl rfl
  obtain ⟨t, l', hrun, ht, hmem, hconserves, howned⟩ := hclear.pageDecref (h.mapped_owned v q hq)
    (update_self _ _ _) (by omega)
  have hagree : Agree (s.setWord r v.tab 0) t pgdir := Agree.of_mem_eq hmem
  rw [update_idem, update_eq_self] at ht
  have hstore : Conserves s (s.setWord r v.tab 0) l l := (Conserves.refl s l).congr rfl rfl
  refine ⟨t, l', hrun, ht, ?_, hagree.target_eq.trans htarget, hstore.trans hconserves,
    fun p hp => ?_⟩
  · rw [hagree.tableOf_eq, tableOf_setWord s (h.tables.ne_dir hr)]
  · rcases howned p hp with hp | ⟨hpq, hmem, hzero⟩
    · exact Or.inl hp
    · exact Or.inr ⟨hpq, hmem, by omega⟩

variable {va : Word}

/-- What a page_insert that returns zero does to the targets. -/
theorem target_insert (h : Accounts s pgdir l held)
    (hva : va.toNat < UTOP) {pp : Page M} {perm : Word} (hperm : perm.toNat < 2 ^ 12) {t : Phys M}
    (hrun : (pageInsert pgdir pp va perm).run s = .ok 0 t) :
    target t pgdir = update (target s pgdir) (Vpn.ofAddr va hva) (some pp) :=
  target_update (absMap_pageInsert h.separated hva pp hperm hrun)

theorem target_remove (h : Accounts s pgdir l held)
    (hva : va.toNat < UTOP) {t : Phys M} (hrun : (pageRemove pgdir va).run s = .ok () t) :
    target t pgdir = update (target s pgdir) (Vpn.ofAddr va hva) none := by
  have hmap := absMap_pageRemove h.separated hva
  rw [hrun] at hmap
  exact target_update hmap

section Below

variable (h : Accounts s pgdir l 0) {va : Word} (hva : va.toNat < UTOP)

include h hva

theorem accounts_walk (create : Bool) :
    ∃ r t l', (pgdirWalk pgdir va create).run s = .ok r t ∧ Accounts t pgdir l' 0 ∧
      Conserves s t l l' := by
  have hdir := Vpn.dir_ofAddr va hva
  cases hr : tableOf s pgdir (PDX va) with
  | some r => exact ⟨_, s, l, run_pgdirWalk_table hr create, h, Conserves.refl s l⟩
  | none =>
    have habsent := h.separated.absent (hdir ▸ hr)
    rw [hdir] at habsent
    cases create with
    | false => exact ⟨none, s, l, run_pgdirWalk_absent habsent, h, Conserves.refl s l⟩
    | true =>
      cases l with
      | nil =>
        exact ⟨none, s, [], run_pgdirWalk_full habsent h.chain.of_nil, h, Conserves.refl s []⟩
      | cons q l =>
        have hfree := h.chain.of_cons.1
        refine ⟨_, _, l, run_pgdirWalk_alloc habsent hfree, ?_⟩
        rw [← hdir] at hr ⊢
        exact ⟨h.addTable rfl hr, Conserves.addTable s pgdir q _⟩

/-- page_remove, which moves a page at most from the owner to the free list. -/
theorem accounts_remove (hs : Sparse s pgdir) :
    ∃ t l', (pageRemove pgdir va).run s = .ok () t ∧ Accounts t pgdir l' 0 ∧
      tableOf t pgdir = tableOf s pgdir ∧ Conserves s t l l' := by
  cases hmap : absMap s pgdir (Vpn.ofAddr va hva) with
  | none => exact ⟨s, l, run_pageRemove_none h.separated hva hmap, h, rfl, Conserves.refl s l⟩
  | some e =>
    obtain ⟨r, hr, hdecode⟩ := bind_eq_some_iff.mp hmap
    have hq : target s pgdir (Vpn.ofAddr va hva) = some e.1 := by rw [target, hmap]; rfl
    have hfits : mappings s pgdir e.1 + tableRefs s pgdir e.1 + (0 : Page M → ℕ) e.1 ≤ 65536 := by
      rw [Pi.zero_apply, Nat.add_zero]
      exact (h.total_lt hs e.1).le
    obtain ⟨t, l', hrun, ht, htable, -, hconserves, -⟩ := accounts_clear h hr hq hfits
    rw [Vpn.dir_ofAddr] at hr
    rw [Vpn.tab_ofAddr] at hdecode hrun
    exact ⟨t, l', (run_pageRemove_some hr hdecode).trans hrun, ht, htable, hconserves⟩

variable {pp : Page M} (hpp : s.Owned pp) (htable : ¬ IsTable s pgdir pp) {perm : Word}
  (hperm : perm.toNat < 2 ^ 12)

include hpp htable hperm

/-- page_insert at an unmapped address whose table exists. -/
theorem accounts_insert_fresh {r : Page M} (hr : tableOf s pgdir (Vpn.ofAddr va hva).dir = some r)
    (hempty : target s pgdir (Vpn.ofAddr va hva) = none) :
    ∃ t, (pageInsert pgdir pp va perm).run s = .ok 0 t ∧ Accounts t pgdir l 0 ∧
      Conserves s t l l := by
  have hdir := Vpn.dir_ofAddr va hva
  have htab := Vpn.tab_ofAddr va hva
  have habsent : ¬ Present (s.mem r (PTX va)) := by
    rw [← htab]
    refine (decode_eq_none (h.tables.inRange _ r hr)).mp ?_
    rwa [target_of_table hr, map_eq_none_iff] at hempty
  have hmap := (h.incref hpp).map hr hempty hpp htable (update_self _ _ _) hperm
  rw [update_idem, update_eq_self_iff.mpr rfl, htab] at hmap
  have hinc : Conserves s (s.incref pp) l l := Conserves.setInfo hpp _
  exact ⟨_, run_pageInsert_fresh (hdir ▸ hr) habsent pp perm, hmap, hinc.congr rfl rfl⟩

/-- page_insert at a mapped address. The new reference is held while the old one is
given up, so a page that is mapped over itself is not freed. -/
theorem accounts_insert_replace (hs : Sparse s pgdir) {e : Page M × BitVec 12}
    (hused : absMap s pgdir (Vpn.ofAddr va hva) = some e) :
    ∃ t l', (pageInsert pgdir pp va perm).run s = .ok 0 t ∧ Accounts t pgdir l' 0 ∧
      Conserves s t l l' := by
  have hdir := Vpn.dir_ofAddr va hva
  have htab := Vpn.tab_ofAddr va hva
  obtain ⟨r, hr, hdecode⟩ := bind_eq_some_iff.mp hused
  have hq : target s pgdir (Vpn.ofAddr va hva) = some e.1 := by rw [target, hused]; rfl
  have hfits : mappings s pgdir e.1 + tableRefs s pgdir e.1 +
      update (0 : Page M → ℕ) pp 1 e.1 ≤ 65536 := by
    have htotal := h.total_lt hs e.1
    have hheld : update (0 : Page M → ℕ) pp 1 e.1 ≤ 1 := by
      by_cases hep : e.1 = pp
      · rw [hep, update_self]
      · rw [update_of_ne hep]
        exact Nat.zero_le 1
    omega
  obtain ⟨t, l', hrun, ht, htables, htarget, hconserves, howned⟩ :=
    accounts_clear (h.incref hpp) (v := Vpn.ofAddr va hva) hr hq hfits
  have hpp' : t.Owned pp := by
    rcases howned pp hpp with hpp' | ⟨heq, -, hheld⟩
    · exact hpp'
    · rw [← heq, update_self] at hheld
      cases hheld
  have htable' : ¬ IsTable t pgdir pp := by rwa [IsTable, htables]
  have hmap := ht.map (v := Vpn.ofAddr va hva) (htables ▸ hr)
    (by rw [htarget, update_self]) hpp' htable' (update_self _ _ _) hperm
  rw [update_idem, update_eq_self_iff.mpr rfl, htab] at hmap
  rw [htab] at hdecode hrun
  rw [hdir] at hr
  have hinc : Conserves s (s.incref pp) l l := Conserves.setInfo hpp _
  refine ⟨_, l', ?_, hmap, (hinc.trans hconserves).congr rfl rfl⟩
  rw [run_pageInsert_replace hr hdecode, hrun]

theorem accounts_insert_table (hs : Sparse s pgdir) {r : Page M}
    (hr : tableOf s pgdir (Vpn.ofAddr va hva).dir = some r) :
    ∃ t l', (pageInsert pgdir pp va perm).run s = .ok 0 t ∧ Accounts t pgdir l' 0 ∧
      Conserves s t l l' := by
  cases hmap : absMap s pgdir (Vpn.ofAddr va hva) with
  | none =>
    have hempty : target s pgdir (Vpn.ofAddr va hva) = none := map_eq_none_iff.mpr hmap
    obtain ⟨t, hrun, ht⟩ := accounts_insert_fresh h hva hpp htable hperm hr hempty
    exact ⟨t, l, hrun, ht⟩
  | some e => exact accounts_insert_replace h hva hpp htable hperm hs hmap

end Below

/-- page_insert into a new table first hangs the table into the directory. -/
theorem accounts_insert_absent {q : Page M} (h : Accounts s pgdir (q :: l) 0)
    (hva : va.toNat < UTOP) {pp : Page M} (hpp : s.Owned pp) (htable : ¬ IsTable s pgdir pp)
    {perm : Word} (hperm : perm.toNat < 2 ^ 12)
    (hr : tableOf s pgdir (Vpn.ofAddr va hva).dir = none) :
    ∃ t, (pageInsert pgdir pp va perm).run s = .ok 0 t ∧ Accounts t pgdir l 0 ∧
      Conserves s t (q :: l) l := by
  have hdir := Vpn.dir_ofAddr va hva
  have hfree := h.chain.of_cons.1
  have hqd := h.separated.head_ne_dir hfree
  have hnew : ¬ s.Owned q := fun hq => h.owned_not_free q hq List.mem_cons_self
  have hadd := h.addTable rfl hr
  have htarget := target_addTable h.tables hqd (h.not_isTable hnew) hr
  have htable' : ¬ IsTable (addTable s pgdir (Vpn.ofAddr va hva).dir q) pgdir pp := by
    rw [isTable_addTable hqd hr]
    rintro (rfl | hpp')
    · exact hnew hpp
    · exact htable hpp'
  have hq : tableOf (addTable s pgdir (Vpn.ofAddr va hva).dir q) pgdir
      (Vpn.ofAddr va hva).dir = some q := by
    rw [tableOf_addTable s hqd.symm, update_self]
  have hempty : target s pgdir (Vpn.ofAddr va hva) = none :=
    map_eq_none_iff.mpr (absMap_of_absent hr)
  obtain ⟨t, hrun, ht, hconserves⟩ := accounts_insert_fresh hadd hva (Or.inr hpp) htable' hperm hq
    (htarget ▸ hempty)
  refine ⟨t, ?_, ht, (Conserves.addTable s pgdir q _).trans hconserves⟩
  rw [hdir] at hq hrun
  have habsent := h.separated.absent hr
  rw [hdir] at habsent
  rw [run_pageInsert_alloc habsent hfree hqd, ← hrun]
  refine (run_pageInsert_fresh hq ?_ pp perm).symm
  rw [addTable_mem_new s hqd]
  exact show ¬ Present 0 by decide

theorem accounts_insert (h : Accounts s pgdir l 0) (hs : Sparse s pgdir)
    (hva : va.toNat < UTOP) {pp : Page M} (hpp : s.Owned pp) (htable : ¬ IsTable s pgdir pp)
    {perm : Word} (hperm : perm.toNat < 2 ^ 12) :
    ∃ r t l', (pageInsert pgdir pp va perm).run s = .ok r t ∧ Accounts t pgdir l' 0 ∧
      Conserves s t l l' := by
  cases hr : tableOf s pgdir (Vpn.ofAddr va hva).dir with
  | some r =>
    obtain ⟨t, l', hrun, ht⟩ := accounts_insert_table h hva hpp htable hperm hs hr
    exact ⟨0, t, l', hrun, ht⟩
  | none =>
    cases l with
    | nil =>
      have habsent := h.separated.absent hr
      rw [Vpn.dir_ofAddr] at habsent
      exact ⟨_, s, [], run_pageInsert_full habsent h.chain.of_nil pp perm, h, Conserves.refl s []⟩
    | cons q l =>
      obtain ⟨t, hrun, ht⟩ := accounts_insert_absent h hva hpp htable hperm hr
      exact ⟨0, t, l, hrun, ht⟩

end KernelLabs.PageCalls

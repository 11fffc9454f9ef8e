import KernelLabs.PageAccounting

/-!
How often one page can be mapped. The counter of a page has sixteen bits and the
address space below UTOP has 977920 pages, and page_insert does not look at the
counter before it adds one. The counter stays exact, and no page is freed while it is
mapped, exactly when the page is wanted at fewer than 65536 addresses. One insertion
after the counter has come round to zero, a single page_remove puts the page on the
free list while 65536 entries still map it.
-/
namespace KernelLabs.RefWrap

open Runs LinkedChain ReferenceCount PageWords PhysPages PageInit PageDir PageRefinement PageTables
  PageAccounts PageCalls PageAccounting Function Option Finset

variable {M : MemSize} {s t : Phys M} {pgdir pp : Page M} {l : List (Page M)}

/-- page_insert of one page at a sequence of addresses with permissions, each of which
has to return zero. -/
def insertAll (pgdir pp : Page M) : List (Word × Word) → Phys M → Option (Phys M)
  | [], s => some s
  | (va, perm) :: rest, s =>
      match (pageInsert pgdir pp va perm).run s with
      | .ok r t => if r = 0 then insertAll pgdir pp rest t else none
      | .error _ _ => none

def removeAll (pgdir : Page M) : List Word → Phys M → Option (Phys M)
  | [], s => some s
  | va :: rest, s => (after ((pageRemove pgdir va).run s)).bind (removeAll pgdir rest)

/-- The counter of the page is the number of its mappings, and no page on the free
list is mapped. -/
structure RefExact (s : Phys M) (pgdir pp : Page M) : Prop where
  ref : (s.pages pp).ref.toNat = mappings s pgdir pp
  free : ∀ q, s.Free q → mappings s pgdir q = 0

/-- The counter stays exact after every one of the insertions and of the removals that
follow them. -/
def NeverWraps (s : Phys M) (pgdir pp : Page M) (inserts : List (Word × Word))
    (removes : List Word) : Prop :=
  (∀ n t, insertAll pgdir pp (inserts.take n) s = some t → RefExact t pgdir pp) ∧
  ∀ u, insertAll pgdir pp inserts s = some u →
    ∀ n t, removeAll pgdir (removes.take n) u = some t → RefExact t pgdir pp

def wanted (s : Phys M) (pgdir pp : Page M) (inserts : List (Word × Word)) : Finset Vpn :=
  univ.filter fun v =>
    target s pgdir v = some pp ∨ ∃ e ∈ inserts, e.1.toNat / PGSIZE = v.val

variable {inserts : List (Word × Word)}

theorem mem_wanted {v : Vpn} :
    v ∈ wanted s pgdir pp inserts ↔
      target s pgdir v = some pp ∨ ∃ e ∈ inserts, e.1.toNat / PGSIZE = v.val := by
  rw [wanted, mem_filter]
  exact and_iff_right (mem_univ v)

theorem insertAll_cons {va perm : Word} {rest : List (Word × Word)} {u : Phys M} :
    insertAll pgdir pp ((va, perm) :: rest) s = some u ↔
      ∃ t, (pageInsert pgdir pp va perm).run s = .ok 0 t ∧ insertAll pgdir pp rest t = some u := by
  rw [insertAll]
  split
  · rename_i r t hrun
    rw [hrun, ite_none_right_eq_some]
    constructor
    · rintro ⟨rfl, hrest⟩
      exact ⟨t, rfl, hrest⟩
    · rintro ⟨t', heq, hrest⟩
      cases heq
      exact ⟨rfl, hrest⟩
  · rename_i msg t hrun
    simp [hrun]

theorem removeAll_cons {va : Word} {rest : List Word} {u : Phys M} :
    removeAll pgdir (va :: rest) s = some u ↔
      ∃ t, (pageRemove pgdir va).run s = .ok () t ∧ removeAll pgdir rest t = some u := by
  rw [removeAll, bind_eq_some_iff]
  cases (pageRemove pgdir va).run s with
  | ok a t => simp [after]
  | error msg t => simp [after]

theorem wanted_nil : wanted s pgdir pp [] = places (target s pgdir) pp := by
  ext v
  simp [mem_wanted]

theorem mappings_le_wanted (inserts : List (Word × Word)) :
    mappings s pgdir pp ≤ (wanted s pgdir pp inserts).card := by
  have hsub : places (target s pgdir) pp ⊆ wanted s pgdir pp inserts := by
    intro v hv
    exact mem_wanted.mpr (Or.inl (mem_places.mp hv))
  rw [mappings, count_eq_card]
  exact card_le_card hsub

/-- An insertion turns a wanted page into a mapped one. -/
theorem wanted_cons {va : Word} (hva : va.toNat < UTOP) (perm : Word)
    (htarget : target t pgdir = update (target s pgdir) (Vpn.ofAddr va hva) (some pp))
    (rest : List (Word × Word)) :
    wanted s pgdir pp ((va, perm) :: rest) = wanted t pgdir pp rest := by
  ext v
  rw [mem_wanted, mem_wanted, htarget, List.exists_mem_cons_iff]
  by_cases hv : v = Vpn.ofAddr va hva
  · subst hv
    rw [update_self]
    exact iff_of_true (Or.inr (Or.inl rfl)) (Or.inl rfl)
  · have hne : ¬ va.toNat / PGSIZE = v.val := fun heq => hv (Fin.ext heq.symm)
    rw [update_of_ne hv, or_iff_right hne]

/-- A state in whose accounts the page is followed: it is no table, and it is owned or
was given back. -/
structure Tracked (s : Phys M) (pgdir pp : Page M) (l : List (Page M)) : Prop where
  accounts : Accounts s pgdir l 0
  sparse : Sparse s pgdir
  kept : s.Owned pp ∨ pp ∈ l
  not_table : ¬ IsTable s pgdir pp

theorem Tracked.refExact (h : Tracked s pgdir pp l) : RefExact s pgdir pp := by
  have hunowned : ∀ q, q ∈ l → ¬ s.Owned q := fun q hq howned =>
    h.accounts.owned_not_free q howned hq
  refine ⟨?_, fun q hq => ?_⟩
  · rcases h.kept with hpp | hpp
    · have href := h.accounts.ref_eq h.sparse hpp
      rwa [tableRefs, if_neg h.not_table, Nat.add_zero] at href
    · rw [h.accounts.free_ref pp hpp, h.accounts.mappings_eq_zero (hunowned pp hpp)]
      rfl
  · exact h.accounts.mappings_eq_zero (hunowned q ((h.accounts.mem_iff_free q).mpr hq))

/-- A successful insertion keeps track of the page as long as its mappings fit. -/
theorem Tracked.insert (h : Tracked s pgdir pp l) (hpp : s.Owned pp) {va perm : Word}
    (hva : va.toNat < UTOP) (hperm : perm.toNat < 4096)
    (hrun : (pageInsert pgdir pp va perm).run s = .ok 0 t) (hfits : mappings t pgdir pp < 65536) :
    ∃ l', Tracked t pgdir pp l' ∧ t.Owned pp := by
  have htarget := target_insert h.accounts hva hperm hrun
  obtain ⟨r, t', l', hrun', ht, -⟩ := accounts_insert h.accounts h.sparse hva hpp h.not_table hperm
  rw [hrun] at hrun'
  cases hrun'
  have hmapped : target t pgdir (Vpn.ofAddr va hva) = some pp := by
    rw [htarget, update_self]
  have howned := ht.mapped_owned _ _ hmapped
  refine ⟨l', ⟨ht, fun q => ?_, Or.inl howned, ht.tables.not_table _ _ hmapped⟩, howned⟩
  by_cases hq : pp = q
  · exact hq ▸ hfits
  · have hupdate := mappings_update htarget q
    rw [if_neg fun heq => hq (some.inj heq)] at hupdate
    have := h.sparse q
    omega

theorem Tracked.remove (h : Tracked s pgdir pp l) {va : Word} (hva : va.toNat < UTOP)
    (hrun : (pageRemove pgdir va).run s = .ok () t) : ∃ l', Tracked t pgdir pp l' := by
  have htarget := target_remove h.accounts hva hrun
  obtain ⟨t', l', hrun', ht, htable, hconserves⟩ := accounts_remove h.accounts hva h.sparse
  rw [hrun] at hrun'
  cases hrun'
  refine ⟨l', ht, fun q => ?_, (hconserves.pages pp).mpr h.kept, ?_⟩
  · have hupdate := mappings_update htarget q
    rw [if_neg (some_ne_none q).symm] at hupdate
    have := h.sparse q
    omega
  · rw [IsTable, htable]
    exact h.not_table

variable {n : ℕ}

/-- While fewer than 65536 virtual pages want the page, it is tracked. -/
theorem Tracked.insertAll (h : Tracked s pgdir pp l)
    (hpp : s.Owned pp) (hins : ∀ e ∈ inserts, e.1.toNat < UTOP ∧ e.2.toNat < 4096)
    (hwanted : (wanted s pgdir pp inserts).card < 65536)
    (hrun : insertAll pgdir pp (inserts.take n) s = some t) : ∃ l', Tracked t pgdir pp l' := by
  induction inserts generalizing s l n with
  | nil =>
    rw [List.take_nil] at hrun
    cases hrun
    exact ⟨l, h⟩
  | cons e rest ih =>
    obtain ⟨va, perm⟩ := e
    obtain ⟨hva, hperm⟩ := hins _ List.mem_cons_self
    cases n with
    | zero =>
      cases hrun
      exact ⟨l, h⟩
    | succ n =>
      rw [List.take_succ_cons] at hrun
      obtain ⟨u, hrun, hrest⟩ := insertAll_cons.mp hrun
      rw [wanted_cons hva perm (target_insert h.accounts hva hperm hrun)] at hwanted
      obtain ⟨l', hu, howned⟩ := h.insert hpp hva hperm hrun
        ((mappings_le_wanted rest).trans_lt hwanted)
      exact ih hu howned (fun e he => hins e (List.mem_cons_of_mem _ he)) hwanted hrest

/-- If the counter is exact after every insertion, fewer than 65536 virtual pages
wanted the page. -/
theorem Tracked.wanted_lt (h : Tracked s pgdir pp l)
    (hpp : s.Owned pp) (hins : ∀ e ∈ inserts, e.1.toNat < UTOP ∧ e.2.toNat < 4096)
    (hexact : ∀ n t, RefWrap.insertAll pgdir pp (inserts.take n) s = some t → RefExact t pgdir pp)
    (hsucc : (RefWrap.insertAll pgdir pp inserts s).isSome) :
    (wanted s pgdir pp inserts).card < 65536 := by
  induction inserts generalizing s l with
  | nil =>
    rw [wanted_nil, ← count_eq_card]
    exact h.sparse pp
  | cons e rest ih =>
    obtain ⟨va, perm⟩ := e
    obtain ⟨hva, hperm⟩ := hins _ List.mem_cons_self
    obtain ⟨u, hu⟩ := isSome_iff_exists.mp hsucc
    obtain ⟨t, hrun, hrest⟩ := insertAll_cons.mp hu
    have hfits : mappings t pgdir pp < 65536 := by
      rw [← (hexact 1 t (insertAll_cons.mpr ⟨t, hrun, rfl⟩)).ref]
      exact BitVec.isLt _
    obtain ⟨l', ht, howned⟩ := h.insert hpp hva hperm hrun hfits
    rw [wanted_cons hva perm (target_insert h.accounts hva hperm hrun)]
    refine ih ht howned (fun e he => hins e (List.mem_cons_of_mem _ he)) (fun n t' hn => ?_)
      (isSome_iff_exists.mpr ⟨u, hrest⟩)
    exact hexact (n + 1) t' (insertAll_cons.mpr ⟨t, hrun, hn⟩)

theorem Tracked.removeAll {removes : List Word} (h : Tracked s pgdir pp l)
    (hrem : ∀ va ∈ removes, va.toNat < UTOP)
    (hrun : removeAll pgdir (removes.take n) s = some t) : ∃ l', Tracked t pgdir pp l' := by
  induction removes generalizing s l n with
  | nil =>
    rw [List.take_nil] at hrun
    cases hrun
    exact ⟨l, h⟩
  | cons va rest ih =>
    cases n with
    | zero =>
      cases hrun
      exact ⟨l, h⟩
    | succ n =>
      rw [List.take_succ_cons] at hrun
      obtain ⟨u, hrun, hrest⟩ := removeAll_cons.mp hrun
      obtain ⟨l', hu⟩ := h.remove (hrem va List.mem_cons_self) hrun
      exact ih hu (fun va hva => hrem va (List.mem_cons_of_mem _ hva)) hrest

/-- From every state that a run reaches, and for every sequence of successful
insertions of an obtained page followed by any removals: the counter of the page never
wraps, and no page is freed while it is mapped, if and only if the virtual pages that
map the page beforehand and those of the insertions are together at most 65535. -/
theorem refs_never_wrap_iff (b : Boot M) {log : List (Call M)}
    (hrun : (machine b.pgdir).Run (StaysSparse b.pgdir) b.start log s) (hpp : s.Owned pp)
    (htable : ¬ IsTable s b.pgdir pp) {inserts : List (Word × Word)} {removes : List Word}
    (hins : ∀ e ∈ inserts, e.1.toNat < UTOP ∧ e.2.toNat < 4096)
    (hrem : ∀ va ∈ removes, va.toNat < UTOP)
    (hsucc : (insertAll b.pgdir pp inserts s).isSome) :
    NeverWraps s b.pgdir pp inserts removes ↔
      (wanted s b.pgdir pp inserts).card ≤ 65535 := by
  obtain ⟨⟨l, haccounts, -⟩, hsparse⟩ := accounts_of_run b hrun
  have h : Tracked s b.pgdir pp l := ⟨haccounts, hsparse, Or.inl hpp, htable⟩
  constructor
  · intro hexact
    exact Nat.le_of_lt_succ (h.wanted_lt hpp hins hexact.1 hsucc)
  · intro hwanted
    have hlt := Nat.lt_succ_of_le hwanted
    refine ⟨fun n t hn => ?_, fun u hu n t hn => ?_⟩
    · obtain ⟨l', ht⟩ := h.insertAll hpp hins hlt hn
      exact ht.refExact
    · rw [← List.take_length (l := inserts)] at hu
      obtain ⟨l', htracked⟩ := h.insertAll hpp hins hlt hu
      obtain ⟨l'', ht⟩ := htracked.removeAll hrem hn
      exact ht.refExact

/-- Page 258 is mapped once and unmapped again. -/
theorem refs_never_wrap_iff_smallBoot : ∃ s : Phys smallMem, s.Owned 258 ∧
    (insertAll smallBoot.pgdir 258 [(0, 6)] s).isSome ∧
      NeverWraps s smallBoot.pgdir 258 [(0, 6)] [0] := by
  obtain ⟨s, hrun, h, howned, htable⟩ := smallBoot.exists_alloc initialFree_smallBoot
  obtain ⟨htarget, hnot, -⟩ := unmapped_of_no_tables htable
  rw [initialFree_smallBoot_tail] at h
  have hva : (0 : Word).toNat < UTOP := by decide
  have hperm : (6 : Word).toNat < 4096 := by decide
  obtain ⟨t, hinsert, -⟩ := accounts_insert_absent h hva howned (hnot 258) hperm (htable _)
  have hsucc : (insertAll smallBoot.pgdir 258 [(0, 6)] s).isSome :=
    isSome_iff_exists.mpr ⟨t, insertAll_cons.mpr ⟨t, hinsert, rfl⟩⟩
  have hwanted : (wanted s smallBoot.pgdir 258 [(0, 6)]).card ≤ 1 := by
    refine card_le_one.mpr fun v hv w hw => Fin.ext ?_
    rw [mem_wanted, htarget] at hv hw
    simp only [reduceCtorEq, List.mem_singleton, exists_eq_left, false_or] at hv hw
    exact hv.symm.trans hw
  refine ⟨s, howned, hsucc, (refs_never_wrap_iff smallBoot hrun howned (hnot 258) ?_ ?_ hsucc).mpr
    (hwanted.trans (by decide))⟩
  · exact fun e he => List.mem_singleton.mp he ▸ ⟨hva, hperm⟩
  · exact fun va hmem => List.mem_singleton.mp hmem ▸ hva

def pageAddr (k : ℕ) : Word := BitVec.ofNat 32 (k * PGSIZE)

def fill (n : ℕ) : List (Word × Word) := (List.range n).map fun k => (pageAddr k, PTE_W)

theorem pageAddr_toNat {k : ℕ} (hk : k < NVPN) : (pageAddr k).toNat = k * PGSIZE := by
  simp only [NVPN_eq, NPTENTRIES] at hk
  rw [pageAddr, BitVec.toNat_ofNat, PGSIZE]
  omega

theorem pageAddr_lt {k : ℕ} (hk : k < NVPN) : (pageAddr k).toNat < UTOP := by
  rw [pageAddr_toNat hk]
  simp only [NVPN_eq, NPTENTRIES] at hk
  rw [PGSIZE, UTOP]
  omega

theorem ofAddr_pageAddr {k : ℕ} (hk : k < NVPN) :
    Vpn.ofAddr (pageAddr k) (pageAddr_lt hk) = ⟨k, hk⟩ := by
  refine Fin.ext ?_
  simp only [Vpn.ofAddr, pageAddr_toNat hk, PGSIZE]
  omega

/-- The addresses are distinct, page-aligned and below UTOP. -/
theorem fill_lawful (hn : n ≤ NVPN) :
    ((fill n).map Prod.fst).Nodup ∧
      ∀ e ∈ fill n, e.1.toNat < UTOP ∧ PGSIZE ∣ e.1.toNat ∧ e.2.toNat < 4096 := by
  have hmap : (fill n).map Prod.fst = (List.range n).map pageAddr := by
    rw [fill, List.map_map]
    rfl
  refine ⟨?_, fun e he => ?_⟩
  · rw [hmap]
    refine List.Nodup.map_on (fun i hi j hj heq => ?_) List.nodup_range
    have hij := congrArg BitVec.toNat heq
    rw [pageAddr_toNat ((List.mem_range.mp hi).trans_le hn),
      pageAddr_toNat ((List.mem_range.mp hj).trans_le hn), PGSIZE] at hij
    omega
  · obtain ⟨k, hk, rfl⟩ := List.mem_map.mp he
    have hk := (List.mem_range.mp hk).trans_le hn
    refine ⟨pageAddr_lt hk, ?_, show PTE_W.toNat < 4096 by decide⟩
    rw [pageAddr_toNat hk]
    exact Dvd.intro_left k rfl

theorem insertAll_snoc {xs : List (Word × Word)} {va perm : Word} {u : Phys M}
    (hxs : insertAll pgdir pp xs s = some t)
    (hrun : (pageInsert pgdir pp va perm).run t = .ok 0 u) :
    insertAll pgdir pp (xs ++ [(va, perm)]) s = some u := by
  induction xs generalizing s with
  | nil =>
    cases hxs
    exact insertAll_cons.mpr ⟨u, hrun, rfl⟩
  | cons e rest ih =>
    obtain ⟨r, hfirst, hrest⟩ := insertAll_cons.mp hxs
    exact insertAll_cons.mpr ⟨r, hfirst, ih hrest⟩

/-- Exactly the first `n` virtual pages are mapped, all to one page. -/
structure Filled (s : Phys M) (pgdir pp : Page M) (l : List (Page M)) (n : ℕ) : Prop where
  accounts : Accounts s pgdir l 0
  owned : s.Owned pp
  not_table : ¬ IsTable s pgdir pp
  target_eq : ∀ v : Vpn, target s pgdir v = if v.val < n then some pp else none
  count_eq : mappings s pgdir pp = n

/-- The table of the next page is missing only when the page is the first of a table. -/
theorem Filled.table (h : Filled s pgdir pp l n) (hn : n < NVPN)
    (htable : tableOf s pgdir (Vpn.dir ⟨n, hn⟩) = none) : n % NPTENTRIES = 0 := by
  by_contra hne
  have hprev : n - 1 < NVPN := by omega
  simp only [NPTENTRIES] at hne
  have hdir : Vpn.dir ⟨n - 1, hprev⟩ = Vpn.dir ⟨n, hn⟩ := by
    refine Fin.ext ?_
    simp only [Vpn.dir, NPTENTRIES]
    omega
  have hmapped := h.target_eq ⟨n - 1, hprev⟩
  rw [if_pos (show n - 1 < n by omega), target, absMap_of_absent (hdir ▸ htable)] at hmapped
  cases hmapped

/-- The next insertion succeeds and takes a page for a table at most once in 1024. -/
theorem Filled.step (h : Filled s pgdir pp l n) (hn : n < NVPN)
    (hspace : n % NPTENTRIES = 0 → l ≠ []) :
    ∃ t l', (pageInsert pgdir pp (pageAddr n) PTE_W).run s = .ok 0 t ∧
      Filled t pgdir pp l' (n + 1) ∧
      l.length ≤ l'.length + if n % NPTENTRIES = 0 then 1 else 0 := by
  have hva := pageAddr_lt hn
  have haddr := ofAddr_pageAddr hn
  have hperm : PTE_W.toNat < 4096 := by decide
  have hempty : target s pgdir (Vpn.ofAddr (pageAddr n) hva) = none := by
    rw [haddr, h.target_eq, if_neg (lt_irrefl n)]
  obtain ⟨t, l', hrun, ht, hlen⟩ : ∃ t l', (pageInsert pgdir pp (pageAddr n) PTE_W).run s = .ok 0 t ∧
      Accounts t pgdir l' 0 ∧ l.length ≤ l'.length + if n % NPTENTRIES = 0 then 1 else 0 := by
    cases hr : tableOf s pgdir (Vpn.ofAddr (pageAddr n) hva).dir with
    | some r =>
      obtain ⟨t, hrun, ht, -⟩ :=
        accounts_insert_fresh h.accounts hva h.owned h.not_table hperm hr hempty
      exact ⟨t, l, hrun, ht, Nat.le_add_right _ _⟩
    | none =>
      have hfirst := h.table hn (haddr ▸ hr)
      cases l with
      | nil => exact absurd rfl (hspace hfirst)
      | cons q l =>
        obtain ⟨t, hrun, ht, -⟩ :=
          accounts_insert_absent h.accounts hva h.owned h.not_table hperm hr
        refine ⟨t, l, hrun, ht, ?_⟩
        rw [if_pos hfirst, List.length_cons]
  have htarget := target_insert h.accounts hva hperm hrun
  rw [haddr] at htarget
  have hmapped : target t pgdir ⟨n, hn⟩ = some pp := by rw [htarget, update_self]
  refine ⟨t, l', hrun, ⟨ht, ht.mapped_owned _ _ hmapped, ht.tables.not_table _ _ hmapped,
    fun v => ?_, ?_⟩, hlen⟩
  · by_cases hv : v = ⟨n, hn⟩
    · subst hv
      rw [hmapped, if_pos (Nat.lt_succ_self n)]
    · have hval : v.val ≠ n := fun heq => hv (Fin.ext heq)
      have hiff : v.val < n + 1 ↔ v.val < n := by omega
      rw [htarget, update_of_ne hv, h.target_eq]
      exact if_congr hiff.symm rfl rfl
  · have hupdate := mappings_update htarget pp
    rw [h.target_eq, if_neg (lt_irrefl n), if_neg (some_ne_none pp).symm, if_pos rfl,
      h.count_eq, Nat.add_zero] at hupdate
    exact hupdate

/-- With enough free pages for the tables the first `n` virtual pages can be filled. -/
theorem Filled.fill (h : Filled s pgdir pp l 0) (hn : n ≤ NVPN)
    (hspace : n ≤ NPTENTRIES * l.length) :
    ∃ t l', insertAll pgdir pp (fill n) s = some t ∧ Filled t pgdir pp l' n ∧
      l.length ≤ l'.length + (n + 1023) / NPTENTRIES := by
  induction n with
  | zero => exact ⟨s, l, rfl, h, Nat.le_add_right _ _⟩
  | succ n ih =>
    obtain ⟨t, l', hrun, ht, hlen⟩ := ih (by omega) (by omega)
    have hroom : n % NPTENTRIES = 0 → l' ≠ [] := by
      rintro hfirst rfl
      simp only [NPTENTRIES, List.length_nil] at hfirst hlen hspace
      omega
    obtain ⟨u, l'', hstep, hu, hlen'⟩ := ht.step (Nat.lt_of_succ_le hn) hroom
    refine ⟨u, l'', ?_, hu, ?_⟩
    · rw [RefWrap.fill, List.range_succ, List.map_append]
      exact insertAll_snoc hrun hstep
    · simp only [NPTENTRIES] at hlen hlen' ⊢
      split at hlen' <;> omega

/-- When all but one of the mappings make a multiple of 2^16, page_remove of one of
them frees the page. -/
theorem Filled.remove_frees {k : ℕ} (h : Filled s pgdir pp l (k + 1)) (hk : BitVec.ofNat 16 k = 0) :
    ∃ t, (pageRemove pgdir 0).run s = .ok () t ∧ t.Free pp ∧ mappings t pgdir pp = k := by
  have hva : (0 : Word).toNat < UTOP := by decide
  have hmapped : target s pgdir (Vpn.ofAddr 0 hva) = some pp := by
    rw [h.target_eq, if_pos (show (Vpn.ofAddr 0 hva).val < k + 1 from Nat.succ_pos k)]
  obtain ⟨e, habs, heq⟩ := map_eq_some_iff.mp hmapped
  obtain ⟨r, hr, hdecode⟩ := bind_eq_some_iff.mp habs
  obtain ⟨hclear, -, hcount⟩ := h.accounts.unmap hr hmapped
  rw [h.count_eq] at hcount
  have hleft : mappings (s.setWord r (Vpn.ofAddr 0 hva).tab 0) pgdir pp = k := Nat.succ.inj hcount
  have hrefs : tableRefs (s.setWord r (Vpn.ofAddr 0 hva).tab 0) pgdir pp = 0 :=
    if_neg (mt (isTable_setWord h.accounts.tables hr pp).mp h.not_table)
  have hagree : Agree (s.setWord r (Vpn.ofAddr 0 hva).tab 0)
    ((s.setWord r (Vpn.ofAddr 0 hva).tab 0).decref pp) pgdir := Agree.of_mem_eq rfl
  have hdec := hclear.decref h.owned (update_self _ _ _)
  have href : (((s.setWord r (Vpn.ofAddr 0 hva).tab 0).decref pp).pages pp).ref = 0 := by
    rw [hdec.owned_ref pp h.owned, hagree.mappings_eq, hagree.tableRefs_eq, hleft, hrefs,
      update_self, Pi.zero_apply]
    exact hk
  have hlink := hdec.owned_link pp h.owned
  rw [Vpn.tab_ofAddr] at hdecode hleft href hlink
  rw [Vpn.dir_ofAddr] at hr
  obtain ⟨p, bits⟩ := e
  obtain rfl : p = pp := heq
  refine ⟨((s.setWord r (PTX 0) 0).decref p).returned p, ?_, OnList.here p, hleft⟩
  rw [run_pageRemove_some hr hdecode, run_pageDecref, if_pos href, run_pageFree href hlink]

/-- After 65537 insertions of page 258 and one removal the page is on the free list
while 65536 entries map it. -/
theorem page_freed_while_mapped : ∃ log s u t,
    (machine smallBoot.pgdir).Run (StaysSparse smallBoot.pgdir) smallBoot.start log s ∧
      s.Owned 258 ∧ ¬ IsTable s smallBoot.pgdir 258 ∧
      ((fill 65537).map Prod.fst).Nodup ∧
      (∀ e ∈ fill 65537, e.1.toNat < UTOP ∧ PGSIZE ∣ e.1.toNat ∧ e.2.toNat < 4096) ∧
      insertAll smallBoot.pgdir 258 (fill 65537) s = some u ∧
      removeAll smallBoot.pgdir [0] u = some t ∧
      t.Free 258 ∧ mappings t smallBoot.pgdir 258 = 65536 ∧
      ¬ NeverWraps s smallBoot.pgdir 258 (fill 65537) [0] := by
  obtain ⟨s, hrun, h, howned, htable⟩ := smallBoot.exists_alloc initialFree_smallBoot
  obtain ⟨htarget, hnot, hzero⟩ := unmapped_of_no_tables htable
  have hlength : (initialFree smallMem 257).tail.length = 159 := by decide +kernel
  have hfilled : Filled s smallBoot.pgdir 258 (initialFree smallMem 257).tail 0 :=
    ⟨h, howned, hnot 258, fun v => by rw [htarget v, if_neg (Nat.not_lt_zero _)], hzero 258⟩
  have hn : 65537 ≤ NVPN := by decide
  obtain ⟨u, l', hinsert, hu, -⟩ := hfilled.fill hn (by rw [hlength]; decide)
  obtain ⟨t, hremove, hfree, hcount⟩ := hu.remove_frees (k := 65536) rfl
  have hrem : removeAll smallBoot.pgdir [0] u = some t := removeAll_cons.mpr ⟨t, hremove, rfl⟩
  refine ⟨_, s, u, t, hrun, howned, hnot 258, (fill_lawful hn).1, (fill_lawful hn).2, hinsert, hrem,
    hfree, hcount, fun hwraps => ?_⟩
  have hfreed := (hwraps.2 u hinsert 1 t hrem).free 258 hfree
  rw [hcount] at hfreed
  cases hfreed

end KernelLabs.RefWrap

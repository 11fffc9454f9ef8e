import KernelLabs.PageTables

/-!
The books of the physical pages. A state keeps its accounts when the free list is a
chain of pages without references, the tables and the mapped pages were obtained from
page_alloc, and the counter of every such page is, modulo 2^16, the number of entries
that map it, one more if it is a page table, and the references that running code
holds beside the tables. Those held references let each small step of pmap.c keep the
accounts by itself: counting a reference makes one held, storing an entry moves it to
the tables, clearing an entry moves it back, and page_decref gives it up.
-/
namespace KernelLabs.PageAccounts

open LinkedChain ReferenceCount PageWords PhysPages PageDir PageRefinement PageTables Function List
  BitVec Option

variable {M : MemSize} {s : Phys M} {pgdir : Page M}

/-- No page is mapped at 65536 or more addresses. -/
def Sparse (s : Phys M) (pgdir : Page M) : Prop := ∀ p, mappings s pgdir p < 65536

/-- The accounts of a state whose free list is `l` and in which running code holds
`held p` references to page `p` that no table shows. -/
structure Accounts (s : Phys M) (pgdir : Page M) (l : List (Page M)) (held : Page M → ℕ) :
    Prop where
  tables : Tables s pgdir
  chain : Chain s.links s.freeList l
  free_ref : ∀ p ∈ l, (s.pages p).ref = 0
  dir_not_free : pgdir ∉ l
  dir_not_owned : ¬ s.Owned pgdir
  owned_not_free : ∀ p, s.Owned p → p ∉ l
  owned_link : ∀ p, s.Owned p → (s.pages p).link = none
  table_owned : ∀ p, IsTable s pgdir p → s.Owned p
  mapped_owned : ∀ v p, target s pgdir v = some p → s.Owned p
  owned_ref : ∀ p, s.Owned p →
    (s.pages p).ref = BitVec.ofNat 16 (mappings s pgdir p + tableRefs s pgdir p + held p)

/-- The pages that are owned or free stay so, and the structures of all others are as they
were. -/
structure Conserves (s t : Phys M) (l l' : List (Page M)) : Prop where
  pages : ∀ p, t.Owned p ∨ p ∈ l' ↔ s.Owned p ∨ p ∈ l
  others : ∀ p, ¬ (s.Owned p ∨ p ∈ l) → t.pages p = s.pages p

namespace Conserves

variable {t u : Phys M} {p q : Page M} {l l' l'' : List (Page M)}

theorem refl (s : Phys M) (l : List (Page M)) : Conserves s s l l :=
  ⟨fun _ => Iff.rfl, fun _ _ => rfl⟩

theorem congr (h : Conserves s t l l') (hpages : u.pages = t.pages) (htrace : u.trace = t.trace) :
    Conserves s u l l' := by
  refine ⟨fun p => ?_, fun p hp => ?_⟩
  · rw [← h.pages p, Phys.Owned, Phys.Owned, htrace]
  · rw [hpages, h.others p hp]

theorem trans (h : Conserves s t l l') (h' : Conserves t u l' l'') : Conserves s u l l'' := by
  refine ⟨fun p => (h'.pages p).trans (h.pages p), fun p hp => ?_⟩
  have hp' : ¬ (t.Owned p ∨ p ∈ l') := fun hmem => hp ((h.pages p).mp hmem)
  exact (h'.others p hp').trans (h.others p hp)

theorem setInfo (hp : s.Owned p) (info : PageInfo M) : Conserves s (s.setInfo p info) l l := by
  refine ⟨fun _ => Iff.rfl, fun q hq => update_of_ne ?_ _ _⟩
  rintro rfl
  exact hq (Or.inl hp)

theorem taken (s : Phys M) (q : Page M) : Conserves s (s.taken q) (q :: l) l := by
  refine ⟨fun p => ?_, fun p hp => update_of_ne ?_ _ _⟩
  · change (q = p ∨ s.Owned p) ∨ p ∈ l ↔ s.Owned p ∨ p ∈ q :: l
    rw [mem_cons, eq_comm]
    tauto
  · rintro rfl
    exact hp (Or.inr mem_cons_self)

theorem returned (hp : s.Owned p) : Conserves s (s.returned p) l (p :: l) := by
  refine ⟨fun q => ?_, fun q hq => update_of_ne ?_ _ _⟩
  · change (p ≠ q ∧ s.Owned q) ∨ q ∈ p :: l ↔ s.Owned q ∨ q ∈ l
    rw [mem_cons]
    by_cases hpq : q = p
    · subst hpq
      exact iff_of_true (Or.inr (Or.inl rfl)) (Or.inl hp)
    · have hne : p ≠ q := Ne.symm hpq
      tauto
  · rintro rfl
    exact hq (Or.inl hp)

theorem addTable (s : Phys M) (pgdir q : Page M) (i : Fin NPTENTRIES) :
    Conserves s (addTable s pgdir i q) (q :: l) l := by
  have hzero : Conserves s ((s.taken q).zeroPage q) (q :: l) l := (taken s q).congr rfl rfl
  have howned : ((s.taken q).zeroPage q).Owned q := Or.inl rfl
  exact (hzero.trans (setInfo howned _)).congr rfl rfl

end Conserves

namespace Accounts

variable {l : List (Page M)} {held : Page M → ℕ}

variable {p : Page M}

section

variable (h : Accounts s pgdir l held)

include h

theorem not_mapped (hp : ¬ s.Owned p) (v : Vpn) :
    target s pgdir v ≠ some p := fun hv => hp (h.mapped_owned v p hv)

theorem mappings_eq_zero (hp : ¬ s.Owned p) :
    mappings s pgdir p = 0 := mappings_eq_zero_iff.mpr (h.not_mapped hp)

theorem not_isTable (hp : ¬ s.Owned p) :
    ¬ IsTable s pgdir p := fun htab => hp (h.table_owned p htab)

theorem mem_iff_free (p : Page M) : p ∈ l ↔ s.Free p :=
  h.chain.mem_iff p

/-- The pages of the accounts are separate, so the calls refine the map. -/
theorem separated : Separated s pgdir where
  dirInRange := h.tables.dirInRange
  inRange := h.tables.inRange
  table_ne := h.tables.table_ne
  table_inj := h.tables.table_inj
  free_ne_table := fun p hp v hv =>
    h.owned_not_free p (h.table_owned p ⟨v, hv⟩) ((h.mem_iff_free p).mpr hp)
  free_ne_dir := fun hp => h.dir_not_free ((h.mem_iff_free pgdir).mpr hp)

/-- A page that is mapped is no table, so its references are its mappings. -/
theorem total_lt (hs : Sparse s pgdir) (p : Page M) :
    mappings s pgdir p + tableRefs s pgdir p < 65536 := by
  have hp := hs p
  by_cases htable : IsTable s pgdir p
  · have hzero : mappings s pgdir p = 0 :=
      mappings_eq_zero_iff.mpr fun v hv => h.tables.not_table v p hv htable
    have hone : tableRefs s pgdir p = 1 := if_pos htable
    omega
  · have hnone : tableRefs s pgdir p = 0 := if_neg htable
    omega

end

/-- The counter is the exact number of references when no page is mapped too often. -/
theorem ref_eq (h : Accounts s pgdir l 0) (hs : Sparse s pgdir) (hp : s.Owned p) :
    (s.pages p).ref.toNat = mappings s pgdir p + tableRefs s pgdir p := by
  rw [h.owned_ref p hp, toNat_ofNat, Pi.zero_apply, Nat.add_zero]
  exact Nat.mod_eq_of_lt (h.total_lt hs p)

section

variable (h : Accounts s pgdir l held)

include h

theorem recount (hp : s.Owned p) {x : BitVec 16} {k : ℕ}
    (hx : x = BitVec.ofNat 16 (mappings s pgdir p + tableRefs s pgdir p + k)) :
    Accounts (s.setInfo p { s.pages p with ref := x }) pgdir l (update held p k) := by
  have hagree : Agree s (s.setInfo p { s.pages p with ref := x }) pgdir := Agree.of_mem_eq rfl
  have hlinks := Phys.setRef_links s p x
  have hpages : ∀ q, q ≠ p → (s.setInfo p { s.pages p with ref := x }).pages q = s.pages q :=
    fun q hq => update_of_ne hq _ _
  have hself : (s.setInfo p { s.pages p with ref := x }).pages p = { s.pages p with ref := x } :=
    update_self _ _ _
  refine { h with
    tables := hagree.tables h.tables, chain := hlinks ▸ h.chain, free_ref := fun q hq => ?_,
    owned_link := fun q hq => (congrFun hlinks q).trans (h.owned_link q hq),
    table_owned := fun q hq => h.table_owned q ((hagree.isTable_iff q).mp hq),
    mapped_owned := fun v q hq => h.mapped_owned v q (hagree.target_eq ▸ hq),
    owned_ref := fun q hq => ?_ }
  · rw [hpages q fun heq => h.owned_not_free p hp (heq ▸ hq)]
    exact h.free_ref q hq
  · rw [hagree.mappings_eq, hagree.tableRefs_eq]
    by_cases hqp : q = p
    · subst hqp
      rw [update_self, ← hx, hself]
    · rw [hpages q hqp, update_of_ne hqp]
      exact h.owned_ref q hq

theorem incref (hp : s.Owned p) : Accounts (s.incref p) pgdir l (update held p (held p + 1)) := by
  refine h.recount hp ?_
  rw [h.owned_ref p hp, ← Nat.add_assoc]
  exact (ofNat_add _ 1).symm

/-- A store to an entry moves references between the tables and the running code. -/
theorem store {v : Vpn} {r : Page M}
    (hr : tableOf s pgdir v.dir = some r) {w : Word} (hrange : InRange M w)
    (hw : ∀ p, (decode M w).map Prod.fst = some p → s.Owned p ∧ ¬ IsTable s pgdir p)
    {held' : Page M → ℕ}
    (hheld : ∀ p, mappings (s.setWord r v.tab w) pgdir p + held' p = mappings s pgdir p + held p) :
    Accounts (s.setWord r v.tab w) pgdir l held' := by
  have htable := isTable_setWord (w := w) h.tables hr
  refine { h with
    tables := h.tables.setWord hr hrange fun p hp => (hw p hp).2,
    table_owned := fun q hq => ?_, mapped_owned := fun u q hq => ?_, owned_ref := fun q hq => ?_ }
  · exact h.table_owned q ((htable q).mp hq)
  · rw [target_setWord h.tables hr] at hq
    by_cases huv : u = v
    · subst huv
      rw [update_self] at hq
      exact (hw q hq).1
    · rw [update_of_ne huv] at hq
      exact h.mapped_owned u q hq
  · have hrefs : tableRefs (s.setWord r v.tab w) pgdir q = tableRefs s pgdir q :=
      if_congr (htable q) rfl rfl
    have := hheld q
    refine (h.owned_ref q hq).trans (congrArg (BitVec.ofNat 16) ?_)
    omega

/-- An empty entry that comes to name a page takes over a held reference. -/
theorem map {v : Vpn} {r : Page M}
    (hr : tableOf s pgdir v.dir = some r) (hempty : target s pgdir v = none) {pp : Page M}
    (hpp : s.Owned pp) (htable : ¬ IsTable s pgdir pp) {k : ℕ} (hheld : held pp = k + 1)
    {perm : Word} (hperm : perm.toNat < 2 ^ 12) :
    Accounts (s.setWord r v.tab (pteOf pp perm)) pgdir l (update held pp k) := by
  have hdecode := decode_pteOf pp hperm
  have htarget := target_setWord h.tables hr (pteOf pp perm)
  rw [hdecode, map_some] at htarget
  refine h.store hr (fun _ => (decode_eq_some hdecode).2 ▸ pp.isLt) (fun p hp => ?_) fun p => ?_
  · rw [hdecode, map_some, some.injEq] at hp
    exact hp ▸ ⟨hpp, htable⟩
  · have hcount := mappings_update htarget p
    rw [hempty, if_neg (some_ne_none p).symm] at hcount
    by_cases hp : pp = p
    · subst hp
      rw [if_pos rfl] at hcount
      rw [update_self]
      omega
    · rw [if_neg fun heq => hp (some.inj heq)] at hcount
      rw [update_of_ne (Ne.symm hp)]
      omega

/-- Clearing an entry leaves its reference to the running code. -/
theorem unmap {v : Vpn} {r q : Page M}
    (hr : tableOf s pgdir v.dir = some r) (hq : target s pgdir v = some q) :
    Accounts (s.setWord r v.tab 0) pgdir l (update held q (held q + 1)) ∧
      target (s.setWord r v.tab 0) pgdir = update (target s pgdir) v none ∧
      mappings (s.setWord r v.tab 0) pgdir q + 1 = mappings s pgdir q := by
  have htarget : target (s.setWord r v.tab 0) pgdir = update (target s pgdir) v none :=
    target_setWord h.tables hr 0
  have hcount : ∀ p, mappings (s.setWord r v.tab 0) pgdir p +
      (if some q = some p then 1 else 0) = mappings s pgdir p := by
    intro p
    have hupdate := mappings_update htarget p
    rwa [hq, if_neg (some_ne_none p).symm, Nat.add_zero] at hupdate
  have hself := hcount q
  rw [if_pos rfl] at hself
  refine ⟨h.store hr (fun hp => absurd hp (by decide)) (fun p hp => ?_) fun p => ?_, htarget, hself⟩
  · rw [show decode M 0 = none from decode_zero] at hp
    cases hp
  · by_cases hp : p = q
    · subst hp
      rw [update_self]
      omega
    · have hother := hcount p
      rw [if_neg fun heq => hp (some.inj heq).symm] at hother
      rw [update_of_ne hp]
      omega

/-- A page without references goes to the head of the free list. -/
theorem returned (hp : s.Owned p) (hzero : mappings s pgdir p + tableRefs s pgdir p + held p = 0) :
    Accounts (s.returned p) pgdir (p :: l) held := by
  have hagree : Agree s (s.returned p) pgdir := Agree.of_mem_eq rfl
  have hpages : ∀ q, q ≠ p → (s.returned p).pages q = s.pages q := fun q hq =>
    update_of_ne hq _ _
  have howned : ∀ q, (s.returned p).Owned q ↔ p ≠ q ∧ s.Owned q := fun q => Iff.rfl
  have href : (s.pages p).ref = 0 := by
    rw [h.owned_ref p hp, hzero]
    rfl
  refine ⟨hagree.tables h.tables, ?_, ?_, ?_, ?_, ?_, ?_, ?_, ?_, ?_⟩
  · rw [Phys.returned_links]
    exact h.chain.push (h.owned_not_free p hp)
  · intro q hq
    by_cases hqp : q = p
    · subst hqp
      simpa [Phys.returned] using href
    · rw [hpages q hqp]
      exact h.free_ref q ((mem_cons.mp hq).resolve_left hqp)
  · intro hmem
    rcases mem_cons.mp hmem with rfl | hmem
    · exact h.dir_not_owned hp
    · exact h.dir_not_free hmem
  · exact fun hq => h.dir_not_owned ((howned _).mp hq).2
  · intro q hq hmem
    obtain ⟨hpq, hq⟩ := (howned q).mp hq
    exact h.owned_not_free q hq ((mem_cons.mp hmem).resolve_left hpq.symm)
  · intro q hq
    obtain ⟨hpq, hq⟩ := (howned q).mp hq
    rw [hpages q hpq.symm]
    exact h.owned_link q hq
  · intro q hq
    rw [hagree.isTable_iff] at hq
    refine (howned q).mpr ⟨?_, h.table_owned q hq⟩
    rintro rfl
    rw [tableRefs, if_pos hq] at hzero
    omega
  · intro v q hq
    rw [hagree.target_eq] at hq
    refine (howned q).mpr ⟨?_, h.mapped_owned v q hq⟩
    rintro rfl
    have hnone : mappings s pgdir p = 0 := by omega
    exact mappings_eq_zero_iff.mp hnone v hq
  · intro q hq
    obtain ⟨hpq, hq⟩ := (howned q).mp hq
    rw [hpages q hpq.symm, hagree.mappings_eq, hagree.tableRefs_eq]
    exact h.owned_ref q hq

/-- The decrement of page_decref gives up a held reference. -/
theorem decref {k : ℕ} (hp : s.Owned p)
    (hheld : held p = k + 1) : Accounts (s.decref p) pgdir l (update held p k) := by
  refine h.recount hp ?_
  rw [h.owned_ref p hp, hheld, ← Nat.add_assoc, ofNat_add]
  exact BitVec.add_sub_cancel _ _

/-- page_decref of a held reference frees the page exactly when that was its last one,
provided the number of references left fits the counter. -/
theorem pageDecref {k : ℕ} (hp : s.Owned p)
    (hheld : held p = k + 1) (hfits : mappings s pgdir p + tableRefs s pgdir p + k < 2 ^ 16) :
    ∃ t l', (pageDecref p).run s = .ok () t ∧ Accounts t pgdir l' (update held p k) ∧
      t.mem = s.mem ∧ Conserves s t l l' ∧
      ∀ q, s.Owned q → t.Owned q ∨
        (q = p ∧ p ∈ l' ∧ mappings s pgdir p + tableRefs s pgdir p + k = 0) := by
  have hagree : Agree s (s.decref p) pgdir := Agree.of_mem_eq rfl
  have hdec := h.decref hp hheld
  have hconserves : Conserves s (s.decref p) l l := Conserves.setInfo hp _
  have href := hdec.owned_ref p hp
  rw [hagree.mappings_eq, hagree.tableRefs_eq, update_self] at href
  by_cases hzero : mappings s pgdir p + tableRefs s pgdir p + k = 0
  · replace href : ((s.decref p).pages p).ref = 0 := by rw [href, hzero]; rfl
    refine ⟨(s.decref p).returned p, p :: l, ?_, hdec.returned hp ?_, rfl,
      hconserves.trans (Conserves.returned hp), fun q hq => ?_⟩
    · rw [run_pageDecref, if_pos href, run_pageFree href (hdec.owned_link p hp)]
    · rw [hagree.mappings_eq, hagree.tableRefs_eq, update_self, hzero]
    · by_cases hqp : q = p
      · exact Or.inr ⟨hqp, mem_cons_self, hzero⟩
      · exact Or.inl ⟨Ne.symm hqp, hq⟩
  · have hne : ((s.decref p).pages p).ref ≠ 0 := by
      rw [href]
      intro heq
      have := congrArg BitVec.toNat heq
      rw [toNat_ofNat, Nat.mod_eq_of_lt hfits] at this
      exact hzero this
    refine ⟨s.decref p, l, ?_, hdec, rfl, hconserves, fun q hq => Or.inl hq⟩
    rw [run_pageDecref, if_neg hne]

end

theorem taken {q : Page M} (h : Accounts s pgdir (q :: l) held) (hheld : held q = 0) :
    s.freeList = some q ∧ Accounts (s.taken q) pgdir l held := by
  have hagree : Agree s (s.taken q) pgdir := Agree.of_mem_eq rfl
  have hnodup := nodup_cons.mp h.chain.nodup
  have hpages : ∀ p, p ≠ q → (s.taken q).pages p = s.pages p := fun p hp =>
    update_of_ne hp _ _
  have howned : ∀ p, (s.taken q).Owned p ↔ q = p ∨ s.Owned p := fun p => Iff.rfl
  have hnew : ¬ s.Owned q := fun hq => h.owned_not_free q hq mem_cons_self
  have hne_of_owned : ∀ p, s.Owned p → p ≠ q := fun p hp heq => hnew (heq ▸ hp)
  have hhead := h.chain.of_cons
  refine ⟨hhead.1, hagree.tables h.tables, ?_, ?_, ?_, ?_, ?_, ?_, ?_, ?_, ?_⟩
  · rw [Phys.taken_links]
    exact h.chain.pop none
  · intro p hp
    rw [hpages p fun heq => hnodup.1 (heq ▸ hp)]
    exact h.free_ref p (mem_cons_of_mem _ hp)
  · exact fun hmem => h.dir_not_free (mem_cons_of_mem _ hmem)
  · intro hdir
    rcases (howned _).mp hdir with rfl | hdir
    · exact h.dir_not_free mem_cons_self
    · exact h.dir_not_owned hdir
  · intro p hp hmem
    rcases (howned p).mp hp with rfl | hp
    · exact hnodup.1 hmem
    · exact h.owned_not_free p hp (mem_cons_of_mem _ hmem)
  · intro p hp
    rcases (howned p).mp hp with rfl | hp
    · simp [Phys.taken]
    · rw [hpages p (hne_of_owned p hp)]
      exact h.owned_link p hp
  · intro p hp
    exact (howned p).mpr (Or.inr (h.table_owned p ((hagree.isTable_iff p).mp hp)))
  · intro v p hp
    rw [hagree.target_eq] at hp
    exact (howned p).mpr (Or.inr (h.mapped_owned v p hp))
  · intro p hp
    rw [hagree.mappings_eq, hagree.tableRefs_eq]
    rcases (howned p).mp hp with rfl | hp
    · rw [h.mappings_eq_zero hnew, tableRefs, if_neg (h.not_isTable hnew), hheld]
      simp [Phys.taken]
    · rw [hpages p (hne_of_owned p hp)]
      exact h.owned_ref p hp

theorem zeroPage (h : Accounts s pgdir l held) {q : Page M} (hq : s.Owned q)
    (htable : ¬ IsTable s pgdir q) : Accounts (s.zeroPage q) pgdir l held := by
  have hdir : q ≠ pgdir := fun heq => h.dir_not_owned (heq ▸ hq)
  have hagree := agree_zeroPage hdir htable
  refine { h with
    tables := hagree.tables h.tables, table_owned := fun p hp => ?_,
    mapped_owned := fun v p hp => ?_, owned_ref := fun p hp => ?_ }
  · exact h.table_owned p ((hagree.isTable_iff p).mp hp)
  · rw [hagree.target_eq] at hp
    exact h.mapped_owned v p hp
  · rw [hagree.mappings_eq, hagree.tableRefs_eq]
    exact h.owned_ref p hp

/-- The head of the free list becomes the page table of an empty directory entry. -/
theorem addTable {q : Page M} (h : Accounts s pgdir (q :: l) held) (hheld : held q = 0) {v : Vpn}
    (habsent : tableOf s pgdir v.dir = none) :
    Accounts (addTable s pgdir v.dir q) pgdir l held := by
  have hnew : ¬ s.Owned q := fun hq => h.owned_not_free q hq mem_cons_self
  have hdir : q ≠ pgdir := fun heq => h.dir_not_free (heq ▸ mem_cons_self)
  have hq := h.not_isTable hnew
  have htarget := target_addTable h.tables hdir hq habsent
  have htable := isTable_addTable (s := s) hdir habsent
  have hagree : Agree s (((s.taken q).zeroPage q).incref q) pgdir := agree_zeroPage hdir hq
  have htaken := (h.taken hheld).2
  have hcount := (htaken.zeroPage (q := q) (Or.inl rfl) hq).incref (p := q) (Or.inl rfl)
  refine { hcount with
    tables := h.tables.addTable hdir hq habsent (h.not_mapped hnew),
    table_owned := fun p hp => ?_, mapped_owned := fun u p hp => ?_, owned_ref := fun p hp => ?_ }
  · rcases (htable p).mp hp with rfl | hp
    · exact Or.inl rfl
    · exact Or.inr (h.table_owned p hp)
  · rw [htarget] at hp
    exact Or.inr (h.mapped_owned u p hp)
  · refine (hcount.owned_ref p hp).trans (congrArg (BitVec.ofNat 16) ?_)
    have hmap := mappings_congr htarget p
    have hrefs := tableRefs_addTable hdir habsent p
    rw [hagree.mappings_eq, hagree.tableRefs_eq]
    by_cases hpq : p = q
    · have hold : tableRefs s pgdir p = 0 := if_neg (hpq ▸ hq)
      have hone : update held q (held q + 1) p = held p + 1 := by
        rw [hpq, update_self]
      rw [if_pos hpq] at hrefs
      omega
    · rw [if_neg hpq] at hrefs
      rw [update_of_ne hpq, hmap, hrefs]

end Accounts

end KernelLabs.PageAccounts

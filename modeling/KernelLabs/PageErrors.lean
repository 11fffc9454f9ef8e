import KernelLabs.PageAccounting
import KernelLabs.PanicMonad

/-!
The calls of pmap.c that are refused. page_insert fails only before it has done anything:
when the walk needs a page table and the free list is empty. page_free is to panic on a
page that is not allocated, but all it looks at are the two fields of the page's structure:
the last page of the free list has no successor, and page_init leaves the structures of
the reserved pages as they were, so these are taken for allocated pages. A page that is
freed while it is on the list closes the list to a ring.
-/
namespace KernelLabs.PageErrors

open Runs LinkedChain PageWords PhysPages PageInit PageDir PageTables PageAccounts PageAccounting
  PanicMonad Function List

variable {M : MemSize} {s : Phys M} {pgdir pp : Page M} {va perm : Word}

/-- The walk finds no entry only where a table is missing and no page is left. -/
theorem ends_pgdirWalk (s : Phys M) (pgdir : Page M) (va : Word) :
    Ends (fun _ => True) (pgdirWalk pgdir va true) s fun r t =>
      r = none → ¬ Present (s.mem pgdir (PDX va)) ∧ s.freeList = none ∧ t = s := by
  by_cases hpresent : Present (s.mem pgdir (PDX va))
  · unfold pgdirWalk
    rw [ends_get_bind, if_neg (not_not_intro hpresent)]
    refine ends_bind ((ends_any _ s).mono fun _ _ _ => ?_)
    exact ends_bind ((ends_any _ _).mono fun _ _ _ => nofun)
  · cases hfree : s.freeList with
    | none =>
      unfold Ends
      rw [run_pgdirWalk_full hpresent hfree]
      exact fun _ => ⟨hpresent, rfl, rfl⟩
    | some q =>
      unfold Ends
      rw [run_pgdirWalk_alloc hpresent hfree]
      exact nofun

theorem ends_pageInsert (s : Phys M) (pgdir pp : Page M) (va perm : Word) :
    Ends (fun _ => True) (pageInsert pgdir pp va perm) s fun r t =>
      r = 0 ∨ ¬ Present (s.mem pgdir (PDX va)) ∧ s.freeList = none ∧ t = s := by
  unfold pageInsert
  refine ends_bind ((ends_pgdirWalk s pgdir va).mono fun r t hr => ?_)
  cases r with
  | none => exact .inr (hr rfl)
  | some entry =>
    dsimp only
    rw [ends_get_bind]
    split
    · rw [ends_modify_bind]
      exact ends_bind ((ends_any _ _).mono fun _ _ _ => .inl rfl)
    · exact .inl rfl

/-- page_insert returns -E_NO_MEM exactly when a page table is missing and the free list is
empty, and then it has changed nothing. -/
theorem page_insert_fails_iff (s t : Phys M) (pgdir pp : Page M) (va perm : Word) :
    (pageInsert pgdir pp va perm).run s = .ok (-E_NO_MEM) t ↔
      ¬ Present (s.mem pgdir (PDX va)) ∧ s.freeList = none ∧ t = s := by
  constructor
  · intro hrun
    exact ((ends_pageInsert s pgdir pp va perm).of_ok hrun).resolve_left (by decide)
  · rintro ⟨habsent, hfree, rfl⟩
    exact run_pageInsert_full habsent hfree pp perm

/-- page_free looks at the two fields of the structure only. -/
theorem pageFree_panics_iff {p : Page M} :
    (∃ text, (pageFree p).run s = .error text s) ↔ s.pages p ≠ ⟨none, 0⟩ := by
  constructor
  · rintro ⟨text, hrun⟩ hclear
    rw [run_pageFree (by rw [hclear]) (by rw [hclear])] at hrun
    cases hrun
  · intro hset
    by_cases href : (s.pages p).ref = 0
    · have hlink : (s.pages p).link ≠ none := by
        intro hlink
        refine hset ?_
        rw [← hlink, ← href]
      exact ⟨_, run_pageFree_linked href hlink⟩
    · exact ⟨_, run_pageFree_referenced href⟩

/-- A page that is put on the free list a second time makes the list endless. -/
theorem no_chain_of_returned {p : Page M} (hp : s.Free p) :
    ¬ ∃ l, Chain (s.returned p).links (s.returned p).freeList l := by
  rintro ⟨l, hchain⟩
  have hhead : (s.returned p).freeList = some p := rfl
  rw [hhead, Phys.returned_links] at hchain
  cases hchain with
  | cons hrest =>
    rename_i rest
    rw [update_self] at hrest
    have hnot : p ∉ rest := by
      have hcons : Chain (update s.links p s.freeList) (some p) (p :: rest) := by
        refine Chain.cons ?_
        rw [update_self]
        exact hrest
      exact (nodup_cons.mp hcons.nodup).1
    have hold : Chain s.links s.freeList rest := by
      refine hrest.congr fun q hq => ?_
      have hne : q ≠ p := fun heq => hnot (heq ▸ hq)
      exact (update_of_ne hne _ _).symm
    exact hnot ((hold.mem_iff p).mpr hp)

/-- In every state of a run, page_free panics on a page that is not allocated exactly when
the page is page zero, or is on the free list with a successor, or is reserved and had a
set field before page_init. A panic leaves the state as it was. -/
theorem page_free_refuses_iff (b : Boot M) {log : List (Call M)} {s : Phys M}
    (hrun : (machine b.pgdir).Run (StaysSparse b.pgdir) b.start log s) {pp : Page M}
    (hpp : ¬ s.Owned pp) :
    (∃ text, (pageFree pp).run s = .error text s) ↔
      pp = ⟨0, M.pos⟩ ∨ s.Free pp ∧ s.links pp ≠ none ∨
        ¬ s.Free pp ∧ b.state.pages pp ≠ ⟨none, 0⟩ := by
  obtain ⟨⟨l, h, hconserves⟩, -⟩ := accounts_of_run b hrun
  rw [pageFree_panics_iff]
  have hpages := hconserves.pages pp
  simp only [hpp, b.not_owned pp, false_or] at hpages
  by_cases hfree : s.Free pp
  · have hmem := (h.mem_iff_free pp).mpr hfree
    have hzero : pp ≠ ⟨0, M.pos⟩ := by
      rintro rfl
      exact zero_notMem_initialFree _ (hpages.mp hmem)
    have hinfo : s.pages pp = ⟨s.links pp, 0⟩ := by
      rw [← h.free_ref pp hmem]
      rfl
    simp only [hzero, hfree, hinfo, ne_eq, PageInfo.mk.injEq, and_true, true_and, not_true,
      false_and, or_false, false_or]
  · have hmem : pp ∉ initialFree M b.nextfreepg := fun hin =>
      hfree ((h.mem_iff_free pp).mp (hpages.mpr hin))
    have hinfo : s.pages pp = if pp = ⟨0, M.pos⟩ then ⟨none, 1⟩ else b.state.pages pp := by
      rw [hconserves.others pp (by simp [b.not_owned pp, hmem]), Boot.start, pageInit_pages _ _ hmem]
    rw [hinfo]
    by_cases hzero : pp = ⟨0, M.pos⟩
    · rw [if_pos hzero]
      refine iff_of_true (fun heq => ?_) (.inl hzero)
      have href : (1 : BitVec 16) = 0 := congrArg PageInfo.ref heq
      exact absurd href (by decide)
    · rw [if_neg hzero]
      simp only [hzero, hfree, false_and, false_or, not_false_eq_true, true_and]

theorem chain_smallBoot : Chain smallBoot.start.links smallBoot.start.freeList
    (initialFree smallMem smallBoot.nextfreepg) :=
  (freeChain_pageInit smallBoot.nextfreepg smallBoot.state).chain

/-- The first page of the free list is refused. -/
theorem page_free_refuses_head :
    ∃ text, (pageFree 258).run smallBoot.start = .error text smallBoot.start := by
  have hchain := chain_smallBoot
  rw [initialFree_smallBoot, initialFree_smallBoot_tail] at hchain
  have hfree : smallBoot.start.Free 258 := (hchain.mem_iff 258).mp mem_cons_self
  have hlink : smallBoot.start.links 258 = some 159 := hchain.of_cons.2.of_cons.1
  refine (page_free_refuses_iff smallBoot Machine.Run.nil (smallBoot.not_owned 258)).mpr ?_
  exact .inr (.inl ⟨hfree, by rw [hlink]; exact nofun⟩)

/-- The last page of the free list is put on it once more, which then has no end, and a page
of the hole for devices is handed out after it was freed. -/
theorem page_free_accepts_last_and_reserved :
    (smallBoot.start.Free 1 ∧ ∃ t, (pageFree 1).run smallBoot.start = .ok () t ∧
      ¬ ∃ l, Chain t.links t.freeList l) ∧
    ¬ smallBoot.start.Free 200 ∧ ∃ t u, (pageFree 200).run smallBoot.start = .ok () t ∧
      (pageAlloc 0).run t = .ok (some 200) u := by
  have hlast : smallBoot.start.Free 1 := by
    refine (chain_smallBoot.mem_iff 1).mp ?_
    rw [initialFree, mem_reverse, mem_filter]
    exact ⟨by decide +kernel, by decide +kernel⟩
  have hreserved : ¬ smallBoot.start.Free 200 := by
    intro hfree
    have hmem := (chain_smallBoot.mem_iff 200).mpr hfree
    rw [initialFree, mem_reverse, mem_filter] at hmem
    exact absurd (of_decide_eq_true hmem.2) (by decide)
  have hinfo : smallBoot.start.pages 1 = ⟨none, 0⟩ := by decide +kernel
  have hinfo' : smallBoot.start.pages 200 = ⟨none, 0⟩ := by decide +kernel
  refine ⟨⟨hlast, _, run_pageFree (by rw [hinfo]) (by rw [hinfo]), no_chain_of_returned hlast⟩,
    hreserved, _, _, run_pageFree (by rw [hinfo']) (by rw [hinfo']), run_pageAlloc_some rfl 0⟩

end KernelLabs.PageErrors

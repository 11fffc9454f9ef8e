import KernelLabs.BootMap
import KernelLabs.PageRefinement
import KernelLabs.PanicMonad
import KernelLabs.TableOwners

/-!
What boot_map_region does to the page tables of a directory. The directory, its tables
and the free pages are distinct; an entry of the directory may name the directory itself,
which is then its own page table for the addresses under that entry. The loop takes a page
from the free list for every directory entry of the region that has no table, and it ends
without a word when there is none left. Otherwise it sets the entries of the region and
leaves the others as they were. Addresses are counted modulo 2^32, since a region may end
at the end of the address space or run over it.
-/
namespace KernelLabs.RegionMap

open LinkedChain PageWords PhysPages PageInit PageDir PageRefinement KernelWords BootMap PanicMonad
  TableOwners Function List Multiset Finset

variable {M : MemSize}

def dirEntry (q : Page M) : Word := page2pa q ||| PTE_P ||| PTE_W ||| PTE_U

theorem aligned_page2pa (p : Page M) : Aligned (page2pa p) := by
  rw [aligned_iff, page2pa_toNat]
  omega

theorem dirEntry_and (q : Page M) {mask : Word} (hmask : mask &&& 0xFFF = mask) :
    dirEntry q &&& mask = (PTE_P ||| PTE_W ||| PTE_U) &&& mask := by
  rw [dirEntry, dirBits_eq, entry_and (aligned_page2pa q) hmask]

theorem present_dirEntry (q : Page M) : Present (dirEntry q) := by
  rw [dirEntry, dirBits_eq, present_entry q (by decide)]
  decide

theorem PGNUM_dirEntry (q : Page M) : PGNUM (dirEntry q) = q.val := by
  rw [dirEntry, dirBits_eq, PGNUM_entry q (by decide)]

/-- The tables of a directory, among which the directory itself does not count. -/
def dirFormat (pgdir : Page M) : Format (Page M) (Fin NPTENTRIES) Word where
  target w := ((decode M w).map Prod.fst).filter fun t => t ≠ pgdir
  owns _ := false
  blank := 0
  target_blank := rfl

theorem target_eq_some {pgdir t : Page M} {w : Word} :
    (dirFormat pgdir).target w = some t ↔ (decode M w).map Prod.fst = some t ∧ t ≠ pgdir := by
  simp only [dirFormat, Option.filter_eq_some_iff, decide_eq_true_eq]

theorem target_dirEntry {pgdir q : Page M} (hq : q ≠ pgdir) :
    (dirFormat pgdir).target (dirEntry q) = some q := by
  refine target_eq_some.mpr ⟨?_, hq⟩
  rw [dirEntry, decode_dirEntry]
  rfl

theorem target_of_absent {pgdir : Page M} {w : Word} (h : ¬ Present w) :
    (dirFormat pgdir).target w = none := by
  simp only [dirFormat, decode_of_not_present h]
  rfl

/-- The page-table entry of an address, which is zero where there is no table. -/
def pteAt (s : Phys M) (pgdir : Page M) (va : Word) : Word :=
  (dirFormat pgdir).leaf s.mem pgdir (PDX va) (PTX va)

/-- The directory, its tables and the free pages are distinct pages of the memory. -/
structure Tabled (s : Phys M) (pgdir : Page M) (free : List (Page M)) : Prop where
  freeChain : FreeChain s free
  nodup : ((dirFormat pgdir).footprint s.mem pgdir + (free : Multiset (Page M))).Nodup
  inRange : ∀ i, InRange M (s.mem pgdir i)

variable {va : Word}

namespace Tabled

variable {s : Phys M} {pgdir t : Page M} {free : List (Page M)} {i : Fin NPTENTRIES}
  (h : Tabled s pgdir free)

include h

theorem footprint_nodup : ((dirFormat pgdir).footprint s.mem pgdir).Nodup :=
  (nodup_add.mp h.nodup).1

theorem notMem_footprint {q : Page M} (hq : q ∈ free) :
    q ∉ (dirFormat pgdir).footprint s.mem pgdir := fun hmem =>
  Multiset.disjoint_left.mp (nodup_add.mp h.nodup).2.2 hmem (Multiset.mem_coe.mpr hq)

theorem free_ne_dir {q : Page M} (hq : q ∈ free) : q ≠ pgdir := by
  rintro rfl
  exact h.notMem_footprint hq (Format.dir_mem_footprint _ _)

/-- An entry that names neither a table nor the directory is not present. -/
theorem absent (ht : (dirFormat pgdir).target (s.mem pgdir i) = none)
    (hself : tableOf s pgdir i ≠ some pgdir) : ¬ Present (s.mem pgdir i) := by
  refine (tableOf_eq_none (h.inRange i)).mp ?_
  cases htable : tableOf s pgdir i with
  | none => rfl
  | some t =>
    have hne : t ≠ pgdir := by
      rintro rfl
      exact hself htable
    have htarget := target_eq_some.mpr ⟨htable, hne⟩
    rw [ht] at htarget
    cases htarget

theorem store (ht : (dirFormat pgdir).target (s.mem pgdir i) = some t) (j : Fin NPTENTRIES)
    (w : Word) : Tabled (s.setWord t j w) pgdir free := by
  have hdir : (s.setWord t j w).mem pgdir = s.mem pgdir := Format.store_dir h.footprint_nodup ht
  have hfoot : (dirFormat pgdir).footprint (s.setWord t j w).mem pgdir =
      (dirFormat pgdir).footprint s.mem pgdir :=
    Format.footprint_store_of_not_owns h.footprint_nodup ht rfl
  refine ⟨⟨h.freeChain.chain, h.freeChain.ref⟩, ?_, ?_⟩
  · rw [hfoot]
    exact h.nodup
  · rw [hdir]
    exact h.inRange

theorem pteAt_store (ht : (dirFormat pgdir).target (s.mem pgdir (PDX va)) = some t)
    (w u : Word) : pteAt (s.setWord t (PTX va) w) pgdir u =
      if u.toNat / 4096 = va.toNat / 4096 then w else pteAt s pgdir u := by
  split
  · rename_i hpage
    obtain ⟨hdir, htab⟩ := index_eq_iff.mpr hpage
    rw [pteAt, hdir, htab]
    exact Format.leaf_store_self h.footprint_nodup ht
  · rename_i hpage
    exact Format.leaf_store_ne h.footprint_nodup ht fun heq => hpage (index_eq_iff.mp heq)

end Tabled

/-- The pages in `taken` have become tables of entries in `places` that had none; nothing
else in the directory or in the array of pages has changed. -/
structure Grown (s t : Phys M) (pgdir : Page M) (places : Finset (Fin NPTENTRIES))
    (taken free : List (Page M)) : Prop where
  tabled : Tabled t pgdir free
  account : (dirFormat pgdir).footprint t.mem pgdir + (free : Multiset (Page M)) =
    (dirFormat pgdir).footprint s.mem pgdir + ((taken ++ free : List (Page M)) : Multiset (Page M))
  dir : ∀ i, t.mem pgdir i = s.mem pgdir i ∨
    i ∈ places ∧ ¬ Present (s.mem pgdir i) ∧ ∃ q ∈ taken, t.mem pgdir i = dirEntry q
  info : ∀ p, p ∉ taken → t.pages p = s.pages p
  ref : ∀ p ∈ taken, (t.pages p).ref = 1

variable {i : Fin NPTENTRIES}

namespace Grown

variable {s t u : Phys M} {pgdir : Page M} {places : Finset (Fin NPTENTRIES)}
  {taken taken' free : List (Page M)}

theorem refl (h : Tabled s pgdir free) : Grown s s pgdir places [] free :=
  ⟨h, rfl, fun _ => .inl rfl, fun _ _ => rfl, fun _ hp => absurd hp not_mem_nil⟩

theorem trans (h : Grown s t pgdir places taken (taken' ++ free))
    (h' : Grown t u pgdir places taken' free) : Grown s u pgdir places (taken ++ taken') free := by
  refine ⟨h'.tabled, ?_, fun i => ?_, fun p hp => ?_, fun p hp => ?_⟩
  · rw [h'.account, h.account, append_assoc]
  · rcases h'.dir i with hsame | ⟨hi, habsent, q, hq, hentry⟩
    · rcases h.dir i with hsame' | ⟨hi, habsent', q, hq, hentry⟩
      · exact .inl (hsame.trans hsame')
      · exact .inr ⟨hi, habsent', q, mem_append_left _ hq, hsame.trans hentry⟩
    · rcases h.dir i with hsame' | ⟨-, -, r, -, hentry'⟩
      · exact .inr ⟨hi, hsame' ▸ habsent, q, mem_append_right _ hq, hentry⟩
      · rw [hentry'] at habsent
        exact absurd (present_dirEntry r) habsent
  · rw [mem_append, not_or] at hp
    exact (h'.info p hp.2).trans (h.info p hp.1)
  · by_cases hp' : p ∈ taken'
    · exact h'.ref p hp'
    · rw [h'.info p hp']
      exact h.ref p ((mem_append.mp hp).resolve_right hp')

/-- A store to an entry of a table, seen from the directory. -/
theorem store (h : Tabled s pgdir free) {r : Page M}
    (ht : (dirFormat pgdir).target (s.mem pgdir i) = some r) (j : Fin NPTENTRIES) (w : Word) :
    Grown s (s.setWord r j w) pgdir places [] free := by
  have hdir : (s.setWord r j w).mem pgdir = s.mem pgdir := Format.store_dir h.footprint_nodup ht
  refine ⟨h.store ht j w, ?_, fun i => .inl (congrFun hdir i), fun _ _ => rfl, fun p hp => ?_⟩
  · exact congrArg (· + (free : Multiset (Page M)))
      (Format.footprint_store_of_not_owns h.footprint_nodup ht rfl)
  · exact absurd hp not_mem_nil

end Grown

variable {places : Finset (Fin NPTENTRIES)}

/-- The head of the free list becomes the table of an entry without one. -/
theorem Tabled.addTable {s : Phys M} {pgdir q : Page M} {free : List (Page M)}
    (h : Tabled s pgdir (q :: free)) (hi : i ∈ places) (habsent : ¬ Present (s.mem pgdir i)) :
    Grown s (addTable s pgdir i q) pgdir places [q] free ∧
      (addTable s pgdir i q).mem pgdir = update (s.mem pgdir) i (dirEntry q) ∧
      pteAt (addTable s pgdir i q) pgdir = pteAt s pgdir := by
  have hne : q ≠ pgdir := h.free_ne_dir List.mem_cons_self
  have hnew : q ∉ (dirFormat pgdir).footprint s.mem pgdir := h.notMem_footprint List.mem_cons_self
  obtain ⟨hfoot, hleaf⟩ := Format.newTable h.footprint_nodup (target_of_absent habsent)
    (target_dirEntry hne) hnew
  have hdir : (PageDir.addTable s pgdir i q).mem pgdir =
      update (s.mem pgdir) i (dirEntry q) := by
    rw [PageDir.addTable, setWord_mem_self]
    have hsame : ((s.taken q).zeroPage q).mem pgdir = s.mem pgdir := update_of_ne hne.symm _ _
    exact congrArg (update · i (dirEntry q)) hsame
  have hlinks : (PageDir.addTable s pgdir i q).links = update s.links q none := by
    rw [← Phys.taken_links]
    exact Phys.setRef_links _ _ _
  have hinfo : ∀ p, p ≠ q → (PageDir.addTable s pgdir i q).pages p = s.pages p := by
    intro p hp
    have htaken : (s.taken q).pages p = s.pages p := update_of_ne hp _ _
    exact (update_of_ne hp _ _).trans htaken
  have hnodup := List.nodup_cons.mp h.freeChain.chain.nodup
  have haccount : (dirFormat pgdir).footprint (PageDir.addTable s pgdir i q).mem pgdir +
      (free : Multiset (Page M)) =
        (dirFormat pgdir).footprint s.mem pgdir + ((q :: free : List (Page M)) : Multiset (Page M)) := by
    rw [← cons_coe, add_cons, ← cons_add]
    exact congrArg (· + (free : Multiset (Page M))) hfoot
  refine ⟨⟨⟨⟨?_, fun p hp => ?_⟩, ?_, fun k => ?_⟩, haccount, fun k => ?_, fun p hp => ?_, fun p hp => ?_⟩,
    hdir, ?_⟩
  · rw [hlinks]
    exact h.freeChain.chain.pop none
  · rw [hinfo p fun heq => hnodup.1 (heq ▸ hp)]
    exact h.freeChain.ref p (List.mem_cons_of_mem q hp)
  · rw [haccount]
    exact h.nodup
  · rw [hdir]
    by_cases hki : k = i
    · subst hki
      rw [update_self]
      intro _
      rw [PGNUM_dirEntry]
      exact q.isLt
    · rw [update_of_ne hki]
      exact h.inRange k
  · rw [hdir]
    by_cases hki : k = i
    · subst hki
      rw [update_self]
      exact .inr ⟨hi, habsent, q, List.mem_singleton_self q, rfl⟩
    · rw [update_of_ne hki]
      exact .inl rfl
  · exact hinfo p fun heq => hp (List.mem_singleton.mpr heq)
  · obtain rfl := List.mem_singleton.mp hp
    simp [PageDir.addTable, Phys.setWord, Phys.incref, Phys.setInfo, Phys.taken, Phys.zeroPage]
  · funext u
    exact hleaf (PDX u) (PTX u)

/-- pgdir_walk gives the entry of an address outside of the directory's own window, with a
new table where there was none, unless the free list is empty. -/
theorem returns_pgdirWalk {s : Phys M} {pgdir : Page M} {free : List (Page M)}
    (h : Tabled s pgdir free) (hva : PDX va ∈ places)
    (hself : tableOf s pgdir (PDX va) ≠ some pgdir) :
    Returns (pgdirWalk pgdir va true) s fun r t =>
      match r with
      | none => free = [] ∧ t = s ∧ ¬ Present (s.mem pgdir (PDX va))
      | some e => ∃ taken rest, free = taken ++ rest ∧ Grown s t pgdir places taken rest ∧
          pteAt t pgdir = pteAt s pgdir ∧ e.2 = PTX va ∧
          (dirFormat pgdir).target (t.mem pgdir (PDX va)) = some e.1 ∧
          (∀ i, i ≠ PDX va → t.mem pgdir i = s.mem pgdir i) ∧
          taken.length = if Present (s.mem pgdir (PDX va)) then 0 else 1 := by
  cases ht : (dirFormat pgdir).target (s.mem pgdir (PDX va)) with
  | some t =>
    have htable := (target_eq_some.mp ht).1
    refine ⟨_, _, run_pgdirWalk_table htable true, [], free, rfl, Grown.refl h, rfl, rfl, ht,
      fun _ _ => rfl, ?_⟩
    rw [if_pos (tableOf_eq_some htable).1]
    rfl
  | none =>
    have habsent := h.absent ht hself
    cases free with
    | nil =>
      exact ⟨_, _, run_pgdirWalk_full habsent h.freeChain.chain.of_nil, rfl, rfl, habsent⟩
    | cons q rest =>
      obtain ⟨hgrown, hdir, hpte⟩ := h.addTable hva habsent
      have htarget : (dirFormat pgdir).target ((addTable s pgdir (PDX va) q).mem pgdir (PDX va)) =
          some q := by
        rw [hdir, update_self, target_dirEntry (h.free_ne_dir List.mem_cons_self)]
      refine ⟨_, _, run_pgdirWalk_alloc habsent h.freeChain.chain.of_cons.1, [q], rest, rfl, hgrown,
        hpte, rfl, htarget, fun i hi => ?_, ?_⟩
      · rw [hdir, update_of_ne hi]
      · rw [if_neg habsent]
        rfl

/-- The addresses of the pages from `va` on, modulo 2^32. -/
def InRegion (va : Word) (turns : ℕ) (u : Word) : Prop := (u - va).toNat < turns * 4096

instance (va : Word) (turns : ℕ) (u : Word) : Decidable (InRegion va turns u) :=
  inferInstanceAs (Decidable (_ < _))

def region (va pa perm : Word) (superpage : Bool) (turns : ℕ) (f : Word → Word) : Word → Word :=
  fun u => if InRegion va turns u then entryWord (pa + (PTE_ADDR u - va)) perm superpage else f u

def touched : ℕ → Word → Finset (Fin NPTENTRIES)
  | 0, _ => ∅
  | turns + 1, va => insert (PDX va) (touched turns (va + pgsize))

def missing (s : Phys M) (pgdir : Page M) (turns : ℕ) (va : Word) : Finset (Fin NPTENTRIES) :=
  (touched turns va).filter fun i => ¬ Present (s.mem pgdir i)

theorem not_inRegion_zero {va u : Word} : ¬ InRegion va 0 u := by
  rw [InRegion]
  omega

variable {turns : ℕ}

/-- A region is its first page and the region behind it. -/
theorem inRegion_succ (hva : Aligned va) (hend : (turns + 1) * 4096 ≤ 2 ^ 32)
    {u : Word} : InRegion va (turns + 1) u ↔
      u.toNat / 4096 = va.toNat / 4096 ∨ InRegion (va + pgsize) turns u := by
  rw [aligned_iff] at hva
  have hu := u.isLt
  have hlt := va.isLt
  have hsub : (u - va).toNat = (2 ^ 32 - va.toNat + u.toNat) % 2 ^ 32 := BitVec.toNat_sub u va
  have hnext : (u - (va + pgsize)).toNat = ((u - va).toNat + (2 ^ 32 - 4096)) % 2 ^ 32 := by
    have hsplit : u - (va + pgsize) = u - va - pgsize := by ring
    rw [hsplit, BitVec.toNat_sub, Nat.add_comm]
    rfl
  rw [InRegion, InRegion, hnext, hsub]
  omega

/-- The first page of a region is mapped before the others. -/
theorem region_succ (hva : Aligned va) (hend : (turns + 1) * 4096 ≤ 2 ^ 32)
    (pa perm : Word) (superpage : Bool) (f : Word → Word) :
    region (va + pgsize) (pa + pgsize) perm superpage turns
        (fun u => if u.toNat / 4096 = va.toNat / 4096 then entryWord pa perm superpage else f u) =
      region va pa perm superpage (turns + 1) f := by
  funext u
  have hshift : pa + pgsize + (PTE_ADDR u - (va + pgsize)) = pa + (PTE_ADDR u - va) := by ring
  simp only [region, hshift, inRegion_succ hva hend]
  by_cases hfirst : u.toNat / 4096 = va.toNat / 4096
  · have hu : PTE_ADDR u = va := by
      refine BitVec.eq_of_toNat_eq ?_
      rw [PTE_ADDR_toNat, hfirst]
      have := aligned_iff.mp hva
      omega
    have hword : entryWord (pa + (PTE_ADDR u - va)) perm superpage = entryWord pa perm superpage := by
      rw [hu, BitVec.sub_self, BitVec.add_zero]
    rw [if_pos hfirst, hword, ite_self, if_pos (.inl hfirst)]
  · rw [if_neg hfirst]
    exact if_congr (or_iff_right hfirst).symm rfl rfl

theorem mem_touched {va u : Word} (hva : Aligned va) (hend : turns * 4096 ≤ 2 ^ 32)
    (hu : InRegion va turns u) : PDX u ∈ touched turns va := by
  induction turns generalizing va with
  | zero => exact absurd hu not_inRegion_zero
  | succ turns ih =>
    rcases (inRegion_succ hva hend).mp hu with hfirst | hrest
    · rw [(index_eq_iff.mpr hfirst).1]
      exact Finset.mem_insert_self _ _
    · have hend' := le_trans (Nat.mul_le_mul_right 4096 (Nat.le_succ turns)) hend
      exact Finset.mem_insert_of_mem (ih (hva.add aligned_pgsize) hend' hrest)

theorem exists_of_mem_touched (hva : Aligned va) (hend : turns * 4096 ≤ 2 ^ 32)
    (hi : i ∈ touched turns va) : ∃ u, InRegion va turns u ∧ Aligned u ∧ PDX u = i := by
  induction turns generalizing va with
  | zero => exact absurd hi (notMem_empty i)
  | succ turns ih =>
    rcases mem_insert.mp hi with rfl | hrest
    · exact ⟨va, (inRegion_succ hva hend).mpr (.inl rfl), hva, rfl⟩
    · have hend' := le_trans (Nat.mul_le_mul_right 4096 (Nat.le_succ turns)) hend
      obtain ⟨u, hu, haligned, hdir⟩ := ih (hva.add aligned_pgsize) hend' hrest
      exact ⟨u, (inRegion_succ hva hend).mpr (.inr hu), haligned, hdir⟩

section Missing

variable {s t : Phys M} {pgdir : Page M} {turns : ℕ} {va : Word}

theorem missing_of_present (hpresent : Present (s.mem pgdir (PDX va))) (hdir : t.mem pgdir = s.mem pgdir) :
    missing s pgdir (turns + 1) va = missing t pgdir turns (va + pgsize) := by
  rw [missing, touched, filter_insert, if_neg (not_not_intro hpresent), missing, hdir]

theorem card_missing_of_absent (habsent : ¬ Present (s.mem pgdir (PDX va)))
    (hpresent : Present (t.mem pgdir (PDX va)))
    (hdir : ∀ i, i ≠ PDX va → t.mem pgdir i = s.mem pgdir i) :
    (missing s pgdir (turns + 1) va).card = 1 + (missing t pgdir turns (va + pgsize)).card := by
  have hsplit : missing s pgdir (turns + 1) va =
      insert (PDX va) (missing t pgdir turns (va + pgsize)) := by
    ext i
    by_cases hi : i = PDX va
    · subst hi
      simp [missing, touched, habsent]
    · simp [missing, touched, hi, hdir i hi]
  have hnew : PDX va ∉ missing t pgdir turns (va + pgsize) := fun hmem =>
    (Finset.mem_filter.mp hmem).2 hpresent
  rw [hsplit, card_insert_of_notMem hnew, Nat.add_comm]

/-- A turn takes a page exactly when it finds a table missing. -/
theorem card_missing_step {u : Phys M} {taken rest : List (Page M)}
    {r : Page M} (hgrown : Grown s t pgdir places taken rest)
    (htarget : (dirFormat pgdir).target (t.mem pgdir (PDX va)) = some r)
    (hdir : ∀ i, i ≠ PDX va → t.mem pgdir i = s.mem pgdir i)
    (hlength : taken.length = if Present (s.mem pgdir (PDX va)) then 0 else 1)
    (hstored : u.mem pgdir = t.mem pgdir) :
    (missing s pgdir (turns + 1) va).card =
      taken.length + (missing u pgdir turns (va + pgsize)).card := by
  have hpresent := (tableOf_eq_some (target_eq_some.mp htarget).1).1
  rw [hlength]
  split
  · rename_i hold
    rw [if_pos hold] at hlength
    have hsame : t.mem pgdir = s.mem pgdir := by
      funext i
      rcases hgrown.dir i with hi | ⟨-, -, q, hq, -⟩
      · exact hi
      · rw [eq_nil_of_length_eq_zero hlength] at hq
        exact absurd hq not_mem_nil
    rw [missing_of_present hold (hstored.trans hsame), Nat.zero_add]
  · rename_i hold
    refine card_missing_of_absent hold (by rwa [hstored]) fun i hi => ?_
    rw [hstored, hdir i hi]

end Missing

section Loop

variable {s : Phys M} {pgdir : Page M} {places : Finset (Fin NPTENTRIES)} {free : List (Page M)}
  {perm : Word} {superpage : Bool}

/-- The page of the directory is not among its tables, so a new entry does not name it. -/
theorem Grown.self_ne {t : Phys M} {taken rest : List (Page M)} (h : Tabled s pgdir (taken ++ rest))
    (hgrown : Grown s t pgdir places taken rest)
    (hself : tableOf s pgdir i ≠ some pgdir) : tableOf t pgdir i ≠ some pgdir := by
  rcases hgrown.dir i with hsame | ⟨-, -, q, hq, hentry⟩
  · rwa [tableOf, hsame]
  · have hne := h.free_ne_dir (mem_append_left rest hq)
    rw [tableOf, hentry, dirEntry, decode_dirEntry]
    exact fun heq => hne (Option.some.inj heq)

/-- The loop of boot_map_region takes a page for every table that is missing and maps the
region, or it takes all there are and leaves a directory entry of the region empty. -/
theorem returns_bootMapFrom (turns : ℕ) {va pa : Word} (h : Tabled s pgdir free) (hva : Aligned va)
    (hend : turns * 4096 ≤ 2 ^ 32) (hplaces : touched turns va ⊆ places)
    (hself : ∀ i ∈ touched turns va, tableOf s pgdir i ≠ some pgdir) :
    Returns (bootMapFrom pgdir perm superpage turns va pa) s fun _ t =>
      ∃ taken rest, free = taken ++ rest ∧ Grown s t pgdir places taken rest ∧
        (taken.length = (missing s pgdir turns va).card ∧
            pteAt t pgdir = region va pa perm superpage turns (pteAt s pgdir) ∨
          rest = [] ∧ taken.length < (missing s pgdir turns va).card ∧
            ∃ i ∈ touched turns va, ¬ Present (t.mem pgdir i)) := by
  -- the induction is on the turns that remain, with the state and both addresses moving
  induction turns generalizing s free va pa with
  | zero =>
    rw [bootMapFrom, returns_pure]
    refine ⟨[], free, rfl, Grown.refl h, .inl ⟨rfl, ?_⟩⟩
    funext u
    exact (if_neg not_inRegion_zero).symm
  | succ turns ih =>
    have hend' := le_trans (Nat.mul_le_mul_right 4096 (Nat.le_succ turns)) hend
    have hfirst : PDX va ∈ touched (turns + 1) va := Finset.mem_insert_self _ _
    rw [bootMapFrom]
    refine returns_bind ((returns_pgdirWalk h (hplaces hfirst) (hself _ hfirst)).mono fun r t hr => ?_)
    cases r with
    | none =>
      obtain ⟨rfl, rfl, habsent⟩ := hr
      refine (returns_pure _).mpr ⟨[], [], rfl, Grown.refl h, .inr ⟨rfl, ?_, _, hfirst, habsent⟩⟩
      exact Finset.card_pos.mpr ⟨_, Finset.mem_filter.mpr ⟨hfirst, habsent⟩⟩
    | some e =>
      obtain ⟨taken₁, rest₁, rfl, hgrown, hpte, htab, htarget, hdir, hlength⟩ := hr
      have hstore : Grown t (t.setWord e.1 (PTX va) (entryWord pa perm superpage)) pgdir places []
          rest₁ := Grown.store hgrown.tabled htarget _ _
      have hstored : (t.setWord e.1 (PTX va) (entryWord pa perm superpage)).mem pgdir = t.mem pgdir :=
        Format.store_dir hgrown.tabled.footprint_nodup htarget
      have hself' : ∀ i ∈ touched turns (va + pgsize),
          tableOf (t.setWord e.1 (PTX va) (entryWord pa perm superpage)) pgdir i ≠ some pgdir := by
        intro i hi
        exact hstore.self_ne hgrown.tabled (hgrown.self_ne h (hself i (Finset.mem_insert_of_mem hi)))
      have hplaces' : touched turns (va + pgsize) ⊆ places := fun i hi =>
        hplaces (Finset.mem_insert_of_mem hi)
      have hloop : Returns (bootMapFrom pgdir perm superpage turns (va + pgsize) (pa + pgsize)) _ _ :=
        ih hstore.tabled (hva.add aligned_pgsize) hend' hplaces' hself'
      have hcard : (missing s pgdir (turns + 1) va).card = _ :=
        card_missing_step hgrown htarget hdir hlength hstored
      simp only [returns_modify_bind, htab]
      refine hloop.mono fun _ u hu => ?_
      obtain ⟨taken₂, rest₂, rfl, hgrown₂, hend₂⟩ := hu
      refine ⟨taken₁ ++ taken₂, rest₂, (append_assoc _ _ _).symm,
        hgrown.trans (hstore.trans hgrown₂), ?_⟩
      rw [hcard, length_append]
      rcases hend₂ with ⟨hlength₂, hregion⟩ | ⟨hnil, hlength₂, i, hi, habsent⟩
      · refine .inl ⟨congrArg _ hlength₂, ?_⟩
        rw [hregion, ← region_succ hva hend, ← hpte]
        congr 1
        funext v
        exact hgrown.tabled.pteAt_store htarget _ v
      · exact .inr ⟨hnil, Nat.add_lt_add_left hlength₂ _, i, Finset.mem_insert_of_mem hi, habsent⟩

theorem returns_assert {c : Prop} [Decidable c] {text : String} (hc : c) {Q : PUnit → Phys M → Prop}
    (h : Q ⟨⟩ s) : Returns (BootMap.assert c text) s Q := by
  rw [BootMap.assert, if_pos hc]
  exact (returns_pure _).mpr h

theorem umod_pgsize {w : Word} (hw : Aligned w) : w % pgsize = 0 := by
  refine BitVec.eq_of_toNat_eq ?_
  rw [BitVec.toNat_umod]
  exact aligned_iff.mp hw

theorem returns_bootMapRegion {va size pa : Word} (h : Tabled s pgdir free) (hva : Aligned va)
    (hpa : Aligned pa) (hplaces : touched (size.toNat / 4096) va ⊆ places)
    (hself : ∀ i ∈ touched (size.toNat / 4096) va, tableOf s pgdir i ≠ some pgdir) :
    Returns (bootMapRegion pgdir va size pa perm superpage) s fun _ t =>
      ∃ taken rest, free = taken ++ rest ∧ Grown s t pgdir places taken rest ∧
        (taken.length = (missing s pgdir (size.toNat / 4096) va).card ∧
            pteAt t pgdir = region va pa perm superpage (size.toNat / 4096) (pteAt s pgdir) ∨
          rest = [] ∧ taken.length < (missing s pgdir (size.toNat / 4096) va).card ∧
            ∃ i ∈ touched (size.toNat / 4096) va, ¬ Present (t.mem pgdir i)) := by
  have hturns : (size / pgsize).toNat = size.toNat / 4096 := BitVec.toNat_udiv
  have hend : size.toNat / 4096 * 4096 ≤ 2 ^ 32 :=
    le_trans (Nat.div_mul_le_self _ _) (Nat.le_of_lt size.isLt)
  refine returns_bind (returns_assert (umod_pgsize hva) ?_)
  refine returns_bind (returns_assert (umod_pgsize hpa) ?_)
  rw [hturns]
  exact returns_bootMapFrom _ h hva hend hplaces hself

end Loop

end KernelLabs.RegionMap

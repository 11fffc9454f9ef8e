import KernelLabs.MonitorPerms

/-!
Pages of 4 MB. check_pse switches the processor to page size extensions: an entry of the
directory with the bit PTE_PS maps 4 MB by itself, while in an entry of a page table the bit
says nothing about the size. boot_map_region with superpage = 1 puts the bit into the entries
of page tables, which it makes as for small pages. So the region is mapped in pages of 4 KB as
with superpage = 0, and mon_pagesize, which looks for the bit in the same place, reports 4 MB.
-/
namespace KernelLabs.Superpages

open LinkedChain PageWords PhysPages PageDir KernelWords BootMap AddressSpace TableOwners RegionMap
  PanicMonad Monitor List BitVec Finset EStateM

variable {M : MemSize}

/-- The processor uses a page of 4 MB for an address. -/
def UsesLarge (s : Phys M) (pgdir : Page M) (va : Word) : Prop :=
  Present (s.mem pgdir (PDX va)) ∧ s.mem pgdir (PDX va) &&& PTE_PS ≠ 0

instance (s : Phys M) (pgdir : Page M) (va : Word) : Decidable (UsesLarge s pgdir va) := by
  unfold UsesLarge
  infer_instance

def addressPse (s : Phys M) (pgdir : Page M) (va : Word) : Option Word :=
  if UsesLarge s pgdir va then
    some ((s.mem pgdir (PDX va) &&& 0xFFC00000) + (va &&& 0x3FFFFF))
  else address s pgdir va

/-- What mon_pagesize prints for an address. -/
def Reports4MB (m : Machine M) (t : Phys M) (a : String) : Prop :=
  ∃ u, (monPagesize m ["pagesize", a]).run ⟨t, []⟩ = .ok 0 u ∧
    u.console = [("Page size: 4MB \r \n", [])]

/-- What superpage = 1 is there for, where the region is mapped in t₁ with it and in t₀
without: pages of 4 MB that need no tables and translate in the same way, and a command that
knows the size of a page. -/
structure Works (m : Machine M) (s t₁ t₀ : Phys M) (va : Word) (turns : ℕ) : Prop where
  marked : ∀ i ∈ touched turns va, t₁.mem m.kernPgdir i &&& PTE_PS ≠ 0
  noTables : t₁.freeList = s.freeList
  same : ∀ u, addressPse t₁ m.kernPgdir u = addressPse t₀ m.kernPgdir u
  reports : ∀ a, InRegion va turns (convert2int a) →
    (Reports4MB m t₁ a ↔ UsesLarge t₁ m.kernPgdir (convert2int a)) ∧
      (Reports4MB m t₀ a ↔ UsesLarge t₀ m.kernPgdir (convert2int a))

section Region

variable {s t : Phys M} {pgdir : Page M} {places : Finset (Fin NPTENTRIES)}
  {taken rest : List (Page M)}

theorem unmarked_of_grown (hps : ∀ i, s.mem pgdir i &&& PTE_PS = 0)
    (hgrown : Grown s t pgdir places taken rest) (i : Fin NPTENTRIES) :
    t.mem pgdir i &&& PTE_PS = 0 := by
  rcases hgrown.dir i with hsame | ⟨_, _, q, _, hentry⟩
  · rw [hsame]
    exact hps i
  · rw [hentry, dirEntry_and q (by decide)]
    decide

end Region

section Reports

variable {m : Machine M} {t : Phys M} {a : String}

theorem or_and_PTE_PS (w : Word) : (w ||| PTE_PS) &&& PTE_PS = PTE_PS := by
  refine eq_of_getLsbD_eq fun i _ => ?_
  rw [getLsbD_and, getLsbD_or]
  cases w.getLsbD i <;> cases PTE_PS.getLsbD i <;> rfl

theorem reports4MB_of_entry {table : Page M}
    (htable : tableOf t m.kernPgdir (PDX (convert2int a)) = some table)
    (hbit : t.mem table (PTX (convert2int a)) &&& PTE_PS ≠ 0) : Reports4MB m t a := by
  refine ⟨⟨t, [("Page size: 4MB \r \n", [])]⟩, ?_, rfl⟩
  have hlength : ¬["pagesize", a].length = 1 := by simp
  rw [monPagesize, if_neg hlength]
  change (walkCreate m (convert2int a) >>= fun pte => _ : MonM M ℤ).run ⟨t, []⟩ = _
  rw [run_bind, run_walkCreate_table htable]
  dsimp only
  rw [run_bind, run_get]
  dsimp only
  rw [if_pos hbit]
  rfl

/-- mon_pagesize takes every page of a region that was mapped with superpage = 1 for a page
of 4 MB. -/
theorem reports4MB_of_region {va pa perm : Word} {turns : ℕ} {f : Word → Word} (hva : Aligned va)
    (hpa : Aligned pa) (hregion : pteAt t m.kernPgdir = region va pa perm true turns f)
    (ha : InRegion va turns (convert2int a)) : Reports4MB m t a := by
  have haligned : Aligned (pa + (PTE_ADDR (convert2int a) - va)) :=
    hpa.add ((aligned_PTE_ADDR _).sub hva)
  have hpte : pteAt t m.kernPgdir (convert2int a) =
      entryWord (pa + (PTE_ADDR (convert2int a) - va)) perm true := by
    rw [hregion, region, if_pos ha]
  cases htarget : (dirFormat m.kernPgdir).target (t.mem m.kernPgdir (PDX (convert2int a))) with
  | none =>
    have hzero : pteAt t m.kernPgdir (convert2int a) = 0 := Format.leaf_none htarget
    have hpresent := present_entryWord haligned perm true
    rw [← hpte, hzero] at hpresent
    exact absurd hpresent (by decide)
  | some table =>
    have hleaf : pteAt t m.kernPgdir (convert2int a) = t.mem table (PTX (convert2int a)) :=
      Format.leaf_some htarget
    refine reports4MB_of_entry (target_eq_some.mp htarget).1 ?_
    rw [← hleaf, hpte, entryWord_eq, entry_and haligned (by decide), entryBits, if_pos rfl,
      or_and_PTE_PS]
    decide

end Reports

theorem run_bootMapRegion_zero {s : Phys M} {pgdir : Page M} {va pa : Word} (hva : Aligned va)
    (hpa : Aligned pa) (perm : Word) (superpage : Bool) :
    (bootMapRegion pgdir va 0 pa perm superpage).run s = .ok () s := by
  rw [bootMapRegion, BootMap.assert, BootMap.assert, if_pos (umod_pgsize hva),
    if_pos (umod_pgsize hpa)]
  rfl

/-- superpage = 1 works as meant exactly for the empty region. -/
theorem superpages_iff (m : Machine M) (s : Phys M) (free : List (Page M)) (va size pa perm : Word)
    (h : Tabled s m.kernPgdir free) (hva : va.toNat % 0x400000 = 0) (hpa : pa.toNat % 0x400000 = 0)
    (hsize : size.toNat % 0x400000 = 0) (hps : ∀ i, s.mem m.kernPgdir i &&& PTE_PS = 0)
    (hself : ∀ i ∈ touched (size.toNat / 4096) va, tableOf s m.kernPgdir i ≠ some m.kernPgdir) :
    ∃ t₁ t₀, (bootMapRegion m.kernPgdir va size pa perm true).run s = .ok () t₁ ∧
      (bootMapRegion m.kernPgdir va size pa perm false).run s = .ok () t₀ ∧
      (Works m s t₁ t₀ va (size.toNat / 4096) ↔ size = 0) := by
  have hva' : Aligned va := aligned_iff.mpr (by omega)
  have hpa' : Aligned pa := aligned_iff.mpr (by omega)
  have hreturns : ∀ superpage, Returns (bootMapRegion m.kernPgdir va size pa perm superpage) s
      fun _ t => ∀ i, t.mem m.kernPgdir i &&& PTE_PS = 0 := by
    intro superpage
    refine (returns_bootMapRegion h hva' hpa' (Finset.Subset.refl _) hself).mono ?_
    rintro _ t ⟨taken, rest, _, hgrown, _⟩
    exact unmarked_of_grown hps hgrown
  obtain ⟨_, t₁, hrun₁, hunmarked⟩ := hreturns true
  obtain ⟨_, t₀, hrun₀, _⟩ := hreturns false
  refine ⟨t₁, t₀, hrun₁, hrun₀, ?_, ?_⟩
  · intro hworks
    by_contra hne
    have hpos : size.toNat ≠ 0 := fun hzero => hne (eq_of_toNat_eq hzero)
    obtain ⟨n, hn⟩ : ∃ n, size.toNat / 4096 = n + 1 := ⟨size.toNat / 4096 - 1, by omega⟩
    have hmem : PDX va ∈ touched (size.toNat / 4096) va := by
      rw [hn]
      exact Finset.mem_insert_self _ _
    exact hworks.marked _ hmem (hunmarked _)
  · rintro rfl
    rw [run_bootMapRegion_zero hva' hpa'] at hrun₁ hrun₀
    obtain rfl := (EStateM.Result.ok.inj hrun₁).2
    obtain rfl := (EStateM.Result.ok.inj hrun₀).2
    exact ⟨fun i hi => absurd hi (notMem_empty i), rfl, fun _ => rfl,
      fun a ha => absurd ha not_inRegion_zero⟩

theorem twoPages_unmarked (i : Fin NPTENTRIES) :
    twoPagesState.phys.mem twoPagesMachine.kernPgdir i &&& PTE_PS = 0 := zero_and

theorem twoPages_no_table (i : Fin NPTENTRIES) :
    tableOf twoPagesState.phys twoPagesMachine.kernPgdir i ≠ some twoPagesMachine.kernPgdir := by
  have hnone : tableOf twoPagesState.phys twoPagesMachine.kernPgdir i = none :=
    congrArg (Option.map Prod.fst) decode_zero
  exact fun h => Option.some_ne_none _ (h.symm.trans hnone)

theorem superpages_twoPages :
    ∃ t₁ t₀, (bootMapRegion twoPagesMachine.kernPgdir 0x400000 0x400000 0 PTE_W true).run
        twoPagesState.phys = .ok () t₁ ∧
      (bootMapRegion twoPagesMachine.kernPgdir 0x400000 0x400000 0 PTE_W false).run
        twoPagesState.phys = .ok () t₀ ∧
      (Works twoPagesMachine twoPagesState.phys t₁ t₀ 0x400000 ((0x400000 : Word).toNat / 4096) ↔
        (0x400000 : Word) = 0) :=
  superpages_iff twoPagesMachine twoPagesState.phys _ 0x400000 0x400000 0 PTE_W tabled_twoPages
    (by decide) (by decide) (by decide) twoPages_unmarked fun i _ => twoPages_no_table i

/-- A region under one directory entry that has no table. -/
theorem missing_eq_singleton {s : Phys M} {pgdir : Page M} {va : Word} {turns : ℕ} (hva : Aligned va)
    (hend : turns * 4096 ≤ 2 ^ 32) (hpos : 0 < turns) (hone : ∀ u, InRegion va turns u → PDX u = PDX va)
    (habsent : ¬Present (s.mem pgdir (PDX va))) : missing s pgdir turns va = {PDX va} := by
  refine eq_singleton_iff_unique_mem.mpr ⟨Finset.mem_filter.mpr ⟨?_, habsent⟩, fun i hi => ?_⟩
  · refine mem_touched hva hend ?_
    rw [InRegion, BitVec.sub_self]
    exact Nat.mul_pos hpos (by decide)
  · obtain ⟨u, hu, _, rfl⟩ := exists_of_mem_touched hva hend (Finset.mem_filter.mp hi).1
    exact hone u hu

theorem card_missing_twoPages : (missing twoPagesState.phys twoPagesMachine.kernPgdir
    ((0x400000 : Word).toNat / 4096) 0x400000).card = 1 := by
  have hturns : (0x400000 : Word).toNat / 4096 = 1024 := by decide
  have hzero : ¬Present (0 : Word) := by decide
  rw [missing_eq_singleton (aligned_iff.mpr (by decide)) (by decide) (by decide) ?_ hzero,
    card_singleton]
  intro u hu
  rw [InRegion, hturns] at hu
  have hsub : (u - 0x400000).toNat = (2 ^ 32 - 0x400000 + u.toNat) % 2 ^ 32 := toNat_sub _ _
  have hval : (PDX (0x400000 : Word)).val = 1 := by decide
  have hlt := u.isLt
  refine Fin.ext ?_
  rw [hval, PDX_val]
  omega

/-- 4 MB mapped at 0x400000 with superpage = 1: the only free page has become a table, the
processor uses small pages, and mon_pagesize says otherwise. -/
theorem superpage_maps_small_pages :
    ∃ t, (bootMapRegion twoPagesMachine.kernPgdir 0x400000 0x400000 0 PTE_W true).run
        twoPagesState.phys = .ok () t ∧
      t.freeList = none ∧ t.mem twoPagesMachine.kernPgdir (PDX 0x400000) &&& PTE_PS = 0 ∧
      ¬UsesLarge t twoPagesMachine.kernPgdir 0x401000 ∧
      Reports4MB twoPagesMachine t "401000" := by
  have haligned : Aligned (0x400000 : Word) := aligned_iff.mpr (by decide)
  have hzero : Aligned (0 : Word) := aligned_iff.mpr (by decide)
  obtain ⟨_, t, hrun, taken, rest, hfree, hgrown, hend⟩ :
      Returns (bootMapRegion twoPagesMachine.kernPgdir 0x400000 0x400000 0 PTE_W true)
        twoPagesState.phys _ :=
    returns_bootMapRegion tabled_twoPages haligned hzero (Finset.Subset.refl _)
      fun i _ => twoPages_no_table i
  have hunmarked := unmarked_of_grown twoPages_unmarked hgrown
  have hlength := congrArg List.length hfree
  rw [length_append, length_singleton] at hlength
  rw [card_missing_twoPages] at hend
  rcases hend with ⟨htaken, hregion⟩ | ⟨hrest, htaken, _⟩
  · have hrest : rest = [] := eq_nil_of_length_eq_zero (by omega)
    refine ⟨t, hrun, ?_, hunmarked _, fun hlarge => hlarge.2 (hunmarked _), ?_⟩
    · have hchain := hgrown.tabled.freeChain.chain
      rw [hrest] at hchain
      exact hchain.of_nil
    · refine reports4MB_of_region haligned hzero hregion ?_
      decide
  · rw [hrest, length_nil] at hlength
    omega

end KernelLabs.Superpages

import KernelLabs.RegionMap

/-!
The three regions of mem_init. They meet 66 entries of the page directory, whose own entry
at UVPT is not among them. The pages on the free list before the first mapping are
afterwards the tables and the pages that are still free, each once, so a walk finds a page
as long as there were 66 of them.
-/
namespace KernelLabs.KernelMap

open LinkedChain PageWords PhysPages PageInit PageDir KernelWords BootMap PanicMonad TableOwners
  RegionMap BitVec Option Finset

variable {M : MemSize}

def slots : Finset (Fin NPTENTRIES) :=
  univ.filter fun i => i = PDX UPAGES ∨ PDX (KSTACKTOP - 1) ≤ i

theorem card_slots : slots.card = 66 := by decide +kernel

variable {i : Fin NPTENTRIES}

theorem mem_slots : i ∈ slots ↔ i = PDX UPAGES ∨ PDX (KSTACKTOP - 1) ≤ i := by
  simp only [slots, Finset.mem_filter, mem_univ, true_and]

/-- The directory entries that check_kern_pgdir expects besides the one at UVPT. -/
theorem slots_cases (hi : i ∈ slots) :
    i = PDX (KSTACKTOP - 1) ∨ i = PDX UPAGES ∨ PDX KERNBASE ≤ i := by
  rcases mem_slots.mp hi with hpages | hhigh
  · exact .inr (.inl hpages)
  · have hhigh : 959 ≤ i.val := hhigh
    by_cases hlast : i.val = 959
    · exact .inl (Fin.ext hlast)
    · refine .inr (.inr (Fin.le_def.mpr ?_))
      change 960 ≤ i.val
      omega

theorem ne_UVPT_of_mem_slots (hi : i ∈ slots) : i ≠ PDX UVPT := by
  rintro rfl
  rw [mem_slots] at hi
  exact absurd hi (by decide)

theorem target_self (pgdir : Page M) :
    (dirFormat pgdir).target (page2pa pgdir ||| PTE_U ||| PTE_P) = none := by
  refine eq_none_iff_forall_ne_some.mpr fun t ht => ?_
  obtain ⟨hdecode, hne⟩ := target_eq_some.mp ht
  rw [BitVec.or_assoc, decode_entry pgdir (by decide) (by decide)] at hdecode
  exact hne (some.inj hdecode).symm

/-- The directory while the kernel's regions are mapped. The pages in `pool` were on the
free list at the start, and those in `free` still are. -/
structure Booted (s : Phys M) (pgdir : Page M) (free : List (Page M)) (pool : Multiset (Page M)) :
    Prop where
  tabled : Tabled s pgdir free
  account : (dirFormat pgdir).footprint s.mem pgdir + (free : Multiset (Page M)) = pgdir ::ₘ pool
  uvpt : s.mem pgdir (PDX UVPT) = page2pa pgdir ||| PTE_U ||| PTE_P
  entry : ∀ i, i ≠ PDX UVPT →
    s.mem pgdir i = 0 ∨ i ∈ slots ∧ ∃ t : Page M, t ≠ pgdir ∧ s.mem pgdir i = dirEntry t

namespace Booted

variable {s : Phys M} {pgdir t : Page M} {free : List (Page M)} {pool : Multiset (Page M)}
  {i : Fin NPTENTRIES} (h : Booted s pgdir free pool)

include h

theorem eq_dirEntry (ht : (dirFormat pgdir).target (s.mem pgdir i) = some t) :
    i ∈ slots ∧ s.mem pgdir i = dirEntry t := by
  have hi : i ≠ PDX UVPT := by
    rintro rfl
    rw [h.uvpt, target_self] at ht
    cases ht
  rcases h.entry i hi with hzero | ⟨hslot, q, hq, hentry⟩
  · rw [hzero] at ht
    cases ht
  · rw [hentry, target_dirEntry hq] at ht
    cases ht
    exact ⟨hslot, hentry⟩

theorem self_ne (hi : i ≠ PDX UVPT) : tableOf s pgdir i ≠ some pgdir := by
  rcases h.entry i hi with hzero | ⟨-, q, hq, hentry⟩
  · rw [tableOf, hzero]
    exact some_ne_none pgdir ∘ Eq.symm
  · rw [tableOf, hentry, dirEntry, decode_dirEntry]
    exact fun heq => hq (some.inj heq)

/-- The tables that there are and the pages that are left were on the free list. -/
theorem card_tables : (slots.filter fun i => Present (s.mem pgdir i)).card + free.length = pool.card := by
  have hcard := congrArg Multiset.card h.account
  rw [Multiset.card_add, Format.card_footprint fun _ => rfl, Multiset.card_cons,
    Multiset.coe_card] at hcard
  have hsame : (univ.filter fun k => ((dirFormat pgdir).target (s.mem pgdir k)).isSome) =
      slots.filter fun i => Present (s.mem pgdir i) := by
    ext k
    simp only [Finset.mem_filter, mem_univ, true_and]
    constructor
    · intro hsome
      obtain ⟨q, hq⟩ := isSome_iff_exists.mp hsome
      obtain ⟨hslot, hentry⟩ := h.eq_dirEntry hq
      exact ⟨hslot, hentry ▸ present_dirEntry q⟩
    · rintro ⟨hslot, hpresent⟩
      rcases h.entry k (ne_UVPT_of_mem_slots hslot) with hzero | ⟨-, q, hq, hentry⟩
      · rw [hzero] at hpresent
        exact absurd hpresent (by decide)
      · rw [hentry, target_dirEntry hq]
        rfl
  rw [hsame] at hcard
  omega

/-- As long as there were enough pages, the free list has one for every missing table. -/
theorem card_missing_le (hroom : slots.card ≤ pool.card) {turns : ℕ} {va : Word}
    (hslots : touched turns va ⊆ slots) : (missing s pgdir turns va).card ≤ free.length := by
  have hcount := h.card_tables
  have hsub : missing s pgdir turns va ⊆ slots.filter fun i => ¬ Present (s.mem pgdir i) := by
    intro i hi
    obtain ⟨htouched, habsent⟩ := Finset.mem_filter.mp hi
    exact Finset.mem_filter.mpr ⟨hslots htouched, habsent⟩
  have hle := Finset.card_le_card hsub
  have hsplit := card_filter_add_card_filter_not (s := slots) fun i => Present (s.mem pgdir i)
  omega

end Booted

theorem Booted.grown {s t : Phys M} {pgdir : Page M} {taken rest : List (Page M)}
    {pool : Multiset (Page M)} (h : Booted s pgdir (taken ++ rest) pool)
    (hgrown : Grown s t pgdir slots taken rest) : Booted t pgdir rest pool := by
  refine ⟨hgrown.tabled, hgrown.account.trans h.account, ?_, fun i hi => ?_⟩
  · rcases hgrown.dir (PDX UVPT) with hsame | ⟨hslot, -⟩
    · rw [hsame, h.uvpt]
    · exact absurd rfl (ne_UVPT_of_mem_slots hslot)
  · rcases hgrown.dir i with hsame | ⟨hslot, -, q, hq, hentry⟩
    · rw [hsame]
      exact h.entry i hi
    · exact .inr ⟨hslot, q, h.tabled.free_ne_dir (List.mem_append_left rest hq), hentry⟩

section Regions

variable {s : Phys M} {pgdir : Page M} {free : List (Page M)} {pool : Multiset (Page M)}
  {perm : Word} {superpage : Bool} {pages bootstack cr4 : Word}

/-- A region of mem_init. The account of the pages is kept in any case, and the region is
mapped unless the pages run out. -/
theorem returns_mapSlots {va size pa : Word} (h : Booted s pgdir free pool) (hva : Aligned va)
    (hpa : Aligned pa) (hslots : touched (size.toNat / 4096) va ⊆ slots) :
    Returns (bootMapRegion pgdir va size pa perm superpage) s fun _ t =>
      (∃ rest, Booted t pgdir rest pool) ∧ (slots.card ≤ pool.card →
        pteAt t pgdir = region va pa perm superpage (size.toNat / 4096) (pteAt s pgdir)) := by
  refine (returns_bootMapRegion h.tabled hva hpa hslots fun i hi =>
    h.self_ne (ne_UVPT_of_mem_slots (hslots hi))).mono ?_
  rintro - t ⟨taken, rest, rfl, hgrown, hend⟩
  refine ⟨⟨rest, h.grown hgrown⟩, fun hroom => ?_⟩
  rcases hend with ⟨-, hregion⟩ | ⟨rfl, hshort, -⟩
  · exact hregion
  · have hle := h.card_missing_le hroom hslots
    rw [List.append_nil] at hle
    omega

theorem returns_PADDR {kva : Word} (hkva : KERNBASE ≤ kva) {Q : Word → Phys M → Prop}
    (h : Q (kva - KERNBASE) s) : Returns (PADDR kva) s Q := by
  rw [PADDR, if_neg (BitVec.not_lt.mpr hkva)]
  exact (returns_pure _).mpr h

/-- A region of kernel memory, mapped with the flag that cr4 decides. -/
theorem returns_mapKernelMemory {va size kva : Word} (h : Booted s pgdir free pool) (hva : Aligned va)
    (hkva : KERNBASE ≤ kva) (haligned : Aligned kva)
    (hslots : touched (size.toNat / 4096) va ⊆ slots) :
    Returns (if cr4 ≠ 0 then PADDR kva >>= (bootMapRegion pgdir va size · perm true)
      else PADDR kva >>= (bootMapRegion pgdir va size · perm false)) s fun _ t =>
        (∃ rest, Booted t pgdir rest pool) ∧ (slots.card ≤ pool.card → pteAt t pgdir =
          region va (kva - KERNBASE) perm (cr4 ≠ 0) (size.toNat / 4096) (pteAt s pgdir)) := by
  have hpa : Aligned (kva - KERNBASE) := haligned.sub aligned_KERNBASE
  split
  · rename_i hcr4
    rw [decide_eq_true hcr4]
    exact returns_bind (returns_PADDR hkva (returns_mapSlots h hva hpa hslots))
  · rename_i hcr4
    rw [decide_eq_false hcr4]
    exact returns_bind (returns_PADDR hkva (returns_mapSlots h hva hpa hslots))

theorem inRegion_UPAGES {u : Word} :
    InRegion UPAGES 1024 u ↔ 0xEF000000 ≤ u.toNat ∧ u.toNat < 0xEF400000 := by
  rw [InRegion, toNat_sub, UPAGES_toNat]
  have := u.isLt
  omega

theorem inRegion_stack {u : Word} :
    InRegion (KSTACKTOP - KSTKSIZE) 8 u ↔ 0xEFFF8000 ≤ u.toNat ∧ u.toNat < 0xF0000000 := by
  rw [InRegion, toNat_sub, stack_toNat]
  have := u.isLt
  omega

theorem inRegion_KERNBASE {u : Word} : InRegion KERNBASE 65536 u ↔ 0xF0000000 ≤ u.toNat := by
  rw [InRegion, toNat_sub, KERNBASE_toNat]
  have := u.isLt
  omega

/-- The entries that a region meets, from the addresses it has. -/
theorem touched_subset_slots {va : Word} {turns : ℕ} (hva : Aligned va) (hend : turns * 4096 ≤ 2 ^ 32)
    (h : ∀ u : Word, InRegion va turns u →
      0xEF000000 ≤ u.toNat ∧ u.toNat < 0xEF400000 ∨ 0xEFFF8000 ≤ u.toNat) :
    touched turns va ⊆ slots := by
  intro i hi
  obtain ⟨u, hu, -, rfl⟩ := exists_of_mem_touched hva hend hi
  rw [mem_slots, Fin.ext_iff, Fin.le_def, PDX_val, PDX_val, PDX_val]
  change _ = 0xEF000000 / 2 ^ 22 ∨ 0xEFFFFFFF / 2 ^ 22 ≤ _
  have := h u hu
  omega

theorem returns_mapPagesArray (h : Booted s pgdir free pool) (hpages : KERNBASE ≤ pages)
    (haligned : Aligned pages) :
    Returns (mapPagesArray pgdir pages cr4) s fun _ t =>
      (∃ rest, Booted t pgdir rest pool) ∧ (slots.card ≤ pool.card → pteAt t pgdir =
        region UPAGES (pages - KERNBASE) PTE_U (cr4 ≠ 0) 1024 (pteAt s pgdir)) := by
  refine returns_mapKernelMemory h aligned_UPAGES hpages haligned ?_
  exact touched_subset_slots aligned_UPAGES (by decide) fun u hu => .inl (inRegion_UPAGES.mp hu)

theorem returns_mapBootStack (h : Booted s pgdir free pool) (hstack : KERNBASE ≤ bootstack)
    (haligned : Aligned bootstack) :
    Returns (mapBootStack pgdir bootstack cr4) s fun _ t =>
      (∃ rest, Booted t pgdir rest pool) ∧ (slots.card ≤ pool.card → pteAt t pgdir =
        region (KSTACKTOP - KSTKSIZE) (bootstack - KERNBASE) PTE_W (cr4 ≠ 0) 8 (pteAt s pgdir)) := by
  refine returns_mapKernelMemory h aligned_stack hstack haligned ?_
  exact touched_subset_slots aligned_stack (by decide) fun u hu => .inr (inRegion_stack.mp hu).1

/-- The last turn of this loop carries the address past the end of the address space. -/
theorem returns_mapPhysicalMemory (h : Booted s pgdir free pool) :
    Returns (mapPhysicalMemory pgdir cr4) s fun _ t =>
      (∃ rest, Booted t pgdir rest pool) ∧ (slots.card ≤ pool.card → pteAt t pgdir =
        region KERNBASE 0 PTE_W true 65536 (pteAt s pgdir)) := by
  rw [mapPhysicalMemory, ite_self]
  refine returns_mapSlots h aligned_KERNBASE aligned_zero ?_
  refine touched_subset_slots aligned_KERNBASE (by decide) fun u hu => .inr ?_
  exact le_trans (by decide) (inRegion_KERNBASE.mp hu)

/-- The entries of the kernel's part of the address space, for the physical addresses of
the pages array and of the boot stack. -/
def kernelEntries (pages stack : Word) (superpage : Bool) (f : Word → Word) : Word → Word :=
  region KERNBASE 0 PTE_W true 65536
    (region (KSTACKTOP - KSTKSIZE) stack PTE_W superpage 8
      (region UPAGES pages PTE_U superpage 1024 f))

theorem returns_mapKernel {α : Type} {Q : α → Phys M → Prop} {rest : PmapM M α}
    (h : Booted s pgdir free pool) (hpages : KERNBASE ≤ pages) (hpagesAligned : Aligned pages)
    (hstack : KERNBASE ≤ bootstack) (hstackAligned : Aligned bootstack)
    (hrest : ∀ t left, Booted t pgdir left pool → (slots.card ≤ pool.card → pteAt t pgdir =
      kernelEntries (pages - KERNBASE) (bootstack - KERNBASE) (cr4 ≠ 0) (pteAt s pgdir)) →
        Returns rest t Q) :
    Returns (do
      mapPagesArray pgdir pages cr4
      mapBootStack pgdir bootstack cr4
      mapPhysicalMemory pgdir cr4
      rest) s Q := by
  refine returns_bind ((returns_mapPagesArray h hpages hpagesAligned).mono ?_)
  rintro - t₁ ⟨⟨left₁, h₁⟩, hmap₁⟩
  refine returns_bind ((returns_mapBootStack h₁ hstack hstackAligned).mono ?_)
  rintro - t₂ ⟨⟨left₂, h₂⟩, hmap₂⟩
  refine returns_bind ((returns_mapPhysicalMemory h₂).mono ?_)
  rintro - t₃ ⟨⟨left₃, h₃⟩, hmap₃⟩
  refine hrest t₃ left₃ h₃ fun hroom => ?_
  rw [hmap₃ hroom, hmap₂ hroom, hmap₁ hroom, kernelEntries]

end Regions

end KernelLabs.KernelMap

import KernelLabs.KernelLayout
import KernelLabs.FreeListOrder

/-!
The run of mem_init. boot_alloc gives the page directory the page behind the kernel and
the pages array the ones after it, and page_init leaves both off the free list. The tests
that follow give back the pages they take. From there the three regions are mapped and
check_kern_pgdir finds nothing to complain about, if the free list holds a page for each
table. The converse holds as well: where mem_init gets past check_kern_pgdir, the pages
did not run out.
-/
namespace KernelLabs.MemInit

open LinkedChain PageWords PhysPages PageInit PageDir KernelWords BootAlloc BootMap PanicMonad
  TableOwners RegionMap AddressSpace KernelMap KernelLayout Function Multiset

variable {M : MemSize}

section Check

theorem mem_pageOffsets {n i : Word} (hi : i ∈ pageOffsets n) : Aligned i ∧ i.toNat < n.toNat := by
  obtain ⟨k, hk, rfl⟩ := List.mem_map.mp hi
  have hlt := n.isLt
  have hk := List.mem_range.mp hk
  have hval : (BitVec.ofNat 32 (k * 4096)).toNat = k * 4096 := by
    rw [BitVec.toNat_ofNat]
    omega
  rw [aligned_iff, hval]
  omega

variable {s : Phys M} {pgdir : Page M} {pages stack kva : Word}

theorem returns_checkVa2pa {va pa : Word} (hlayout : Layout s pgdir pages stack) (hva : Aligned va)
    (haddr : address s pgdir va = some pa) {Q : Word → Phys M → Prop} (h : Q pa s) :
    Returns (checkVa2pa pgdir va) s Q := by
  refine ⟨pa, s, ?_, h⟩
  rw [run_checkVa2pa (hlayout.tables_in_memory va) hva, haddr]
  rfl

theorem returns_checkDirEntry {free : List (Page M)} {pool : Multiset (Page M)}
    (h : Booted s pgdir free pool) (htables : ∀ i ∈ slots, ∃ t : Page M, s.mem pgdir i = dirEntry t)
    (i : Fin NPTENTRIES) : Returns (checkDirEntry pgdir i) s fun _ t => t = s := by
  have hpresent : i ∈ slots → Present (s.mem pgdir i) := by
    intro hi
    obtain ⟨t, ht⟩ := htables i hi
    rw [ht]
    exact present_dirEntry t
  unfold checkDirEntry
  rw [returns_get_bind]
  split
  · rename_i hcase
    refine returns_assert ?_ rfl
    rcases hcase with rfl | rfl | rfl
    · rw [h.uvpt, BitVec.or_assoc, present_entry pgdir (by decide)]
      decide
    · exact hpresent (mem_slots.mpr (.inr le_rfl))
    · exact hpresent (mem_slots.mpr (.inl rfl))
  · rename_i hcase
    simp only [not_or] at hcase
    split
    · rename_i hhigh
      have hi : i ∈ slots := mem_slots.mpr (.inr (le_trans (by decide) hhigh))
      obtain ⟨t, ht⟩ := htables i hi
      refine returns_bind (returns_assert (hpresent hi) (returns_assert ?_ rfl))
      rw [ht, dirEntry_and t (by decide)]
      decide
    · rename_i hlow
      refine returns_assert ?_ rfl
      rcases h.entry i hcase.1 with hzero | ⟨hslot, -⟩
      · exact hzero
      · rcases slots_cases hslot with hstack | hpages | hhigh
        · exact absurd hstack hcase.2.1
        · exact absurd hpages hcase.2.2
        · exact absurd hhigh hlow

theorem pagesBytes_toNat : (pagesBytes M).toNat = M.npages * 8 := by
  have := M.max
  rw [pagesBytes, BitVec.toNat_mul, BitVec.toNat_ofNat]
  change M.npages % 2 ^ 32 * 8 % 2 ^ 32 = _
  omega

/-- The addresses of a loop of check_kern_pgdir translate as the layout says. -/
theorem address_of_offset {start n i pa : Word} (hend : start.toNat + n.toNat ≤ 2 ^ 32)
    (haddr : ∀ va : Word, start.toNat ≤ va.toNat → va.toNat < start.toNat + n.toNat →
      address s pgdir va = some (pa + (va - start)))
    (hi : i ∈ pageOffsets n) : address s pgdir (start + i) = some (pa + i) := by
  obtain ⟨-, hlt⟩ := mem_pageOffsets hi
  have hsum : (start + i).toNat = start.toNat + i.toNat := by
    rw [BitVec.toNat_add]
    omega
  have hcancel : pa + (start + i - start) = pa + i := by ring
  rw [haddr (start + i) (by omega) (by omega), hcancel]

/-- A loop of check_kern_pgdir over memory that the kernel knows by its address. -/
theorem returns_checkLoop {start n : Word} {text : String} (hlayout : Layout s pgdir pages stack)
    (hstart : Aligned start) (hkva : KERNBASE ≤ kva) (hend : start.toNat + n.toNat ≤ 2 ^ 32)
    (haddr : ∀ va : Word, start.toNat ≤ va.toNat → va.toNat < start.toNat + n.toNat →
      address s pgdir va = some (kva - KERNBASE + (va - start))) :
    Returns ((pageOffsets n).forM fun i => do
      BootMap.assert ((← checkVa2pa pgdir (start + i)) = (← PADDR kva) + i) text) s
      fun _ t => t = s := by
  refine returns_forM (I := (· = s)) _ ?_ rfl
  rintro i hi t rfl
  refine returns_bind (returns_checkVa2pa hlayout (hstart.add (mem_pageOffsets hi).1)
    (address_of_offset hend haddr hi) ?_)
  exact returns_bind (returns_PADDR hkva (returns_assert rfl rfl))

theorem returns_checkKernPgdir {bootstack : Word} {free : List (Page M)} {pool : Multiset (Page M)}
    (h : Booted s pgdir free pool) (htables : ∀ i ∈ slots, ∃ t : Page M, s.mem pgdir i = dirEntry t)
    (hlayout : Layout s pgdir (pages - KERNBASE) (bootstack - KERNBASE)) (hpages : KERNBASE ≤ pages)
    (hstack : KERNBASE ≤ bootstack) {Q : PUnit → Phys M → Prop} (hQ : Q ⟨⟩ s) :
    Returns (checkKernPgdir pgdir pages bootstack) s Q := by
  have hmax := M.max
  have hbytes : (ROUNDUP (pagesBytes M) pgsize).toNat ≤ 0x400000 := by
    rw [ROUNDUP_toNat (by rw [pagesBytes_toNat]; omega), pagesBytes_toNat]
    omega
  have hmemory : (BitVec.ofNat 32 M.npages * pgsize).toNat ≤ 0x10000000 := by
    rw [BitVec.toNat_mul, BitVec.toNat_ofNat]
    change M.npages % 2 ^ 32 * 4096 % 2 ^ 32 ≤ _
    omega
  unfold checkKernPgdir
  refine returns_bind ((returns_checkLoop hlayout aligned_UPAGES hpages ?_ ?_).mono ?_)
  · rw [UPAGES_toNat]
    omega
  · intro va hlow hhigh
    refine hlayout.pagesArray va hlow (BitVec.lt_def.mpr ?_)
    change _ < UPAGES.toNat + 0x400000
    omega
  rintro - t rfl
  refine returns_bind ((returns_forM (I := (· = t)) _ ?_ rfl).mono ?_)
  · rintro i hi u rfl
    have haddr : ∀ va : Word, KERNBASE.toNat ≤ va.toNat →
        va.toNat < KERNBASE.toNat + (BitVec.ofNat 32 M.npages * pgsize).toNat →
        address u pgdir va = some (0 + (va - KERNBASE)) := by
      intro va hlow _
      rw [hlayout.kernbase va hlow]
      exact congrArg some (BitVec.zero_add _).symm
    have hoffset := address_of_offset (by rw [KERNBASE_toNat]; omega) haddr hi
    refine returns_bind (returns_checkVa2pa hlayout
      (aligned_KERNBASE.add (mem_pageOffsets hi).1) hoffset ?_)
    exact returns_assert (BitVec.zero_add i) rfl
  rintro - t rfl
  refine returns_bind ((returns_checkLoop hlayout aligned_stack hstack (by decide) ?_).mono ?_)
  · exact fun va hlow hhigh => hlayout.bootstack va hlow hhigh
  rintro - t rfl
  have hguard : address t pgdir (KSTACKTOP - PTSIZE) = none := by
    rw [address, hlayout.guardPages _ (BitVec.le_refl _) (by decide)]
    rfl
  refine returns_bind ⟨~~~0, t, ?_, ?_⟩
  · rw [run_checkVa2pa (hlayout.tables_in_memory _) aligned_guard, hguard]
    rfl
  refine returns_bind (returns_assert rfl ?_)
  refine (returns_forM (I := (· = t)) _ ?_ rfl).mono ?_
  · rintro i - u rfl
    exact returns_checkDirEntry h htables i
  · rintro - u rfl
    exact hQ

end Check

/-- The addresses that boot_alloc returns to mem_init, and the first one it did not give
out. -/
def dirAddr (sym : Symbols) : Word := nextPage sym.endAddr 0

def pagesAddr (sym : Symbols) : Word := ROUNDUP (dirAddr sym + pgsize) pgsize

def freeAddr (M : MemSize) (sym : Symbols) : Word := ROUNDUP (pagesAddr sym + pagesBytes M) pgsize

def nextfreepg (M : MemSize) (sym : Symbols) : ℕ := ((freeAddr M sym - KERNBASE) / pgsize).toNat

/-- The kernel is linked above 1 MB with an aligned boot stack, and it fits with its page
directory and the pages array into the memory that is mapped at the start, the directory
into the memory that there is. -/
structure Linked (M : MemSize) (sym : Symbols) : Prop where
  linked : 0xF0100000 ≤ sym.endAddr.toNat
  fits : (sym.endAddr.toNat + 4095) / 4096 * 4096 + 4096 + 8 * M.npages ≤ bootLimit.toNat
  dir_in_memory : PGNUM (dirAddr sym - KERNBASE) < M.npages
  stack_mapped : KERNBASE ≤ sym.bootstack
  stack_aligned : Aligned sym.bootstack

namespace Linked

variable {sym : Symbols} (h : Linked M sym)

def pgdir : Page M := ⟨PGNUM (dirAddr sym - KERNBASE), h.dir_in_memory⟩

include h

theorem dirAddr_toNat : (dirAddr sym).toNat = (sym.endAddr.toNat + 4095) / 4096 * 4096 := by
  have hfits : _ ≤ 0xF0400000 := h.fits
  exact ROUNDUP_toNat (by omega)

theorem pagesAddr_toNat : (pagesAddr sym).toNat = (dirAddr sym).toNat + 4096 := by
  have hfits : _ ≤ 0xF0400000 := h.fits
  have hdir := h.dirAddr_toNat
  have hsum : (dirAddr sym + pgsize).toNat = (dirAddr sym).toNat + 4096 := by
    rw [BitVec.toNat_add]
    change ((dirAddr sym).toNat + 4096) % 2 ^ 32 = _
    omega
  rw [pagesAddr, ROUNDUP_toNat (by omega), hsum]
  omega

theorem freeAddr_toNat : (freeAddr M sym).toNat =
    ((pagesAddr sym).toNat + 8 * M.npages + 4095) / 4096 * 4096 := by
  have hfits : _ ≤ 0xF0400000 := h.fits
  have hdir := h.dirAddr_toNat
  have hpages := h.pagesAddr_toNat
  have hsum : (pagesAddr sym + pagesBytes M).toNat = (pagesAddr sym).toNat + 8 * M.npages := by
    rw [BitVec.toNat_add, pagesBytes_toNat]
    omega
  rw [freeAddr, ROUNDUP_toNat (by omega), hsum]

theorem bootAlloc_dir : bootAlloc sym.endAddr 0 pgsize = .ok (dirAddr sym, pagesAddr sym) := by
  have hfits : _ ≤ 0xF0400000 := h.fits
  have hpos := M.pos
  have hdir := h.dirAddr_toNat
  have hsum : (dirAddr sym + pgsize).toNat = (dirAddr sym).toNat + 4096 := by
    rw [BitVec.toNat_add]
    change ((dirAddr sym).toNat + 4096) % 2 ^ 32 = _
    omega
  refine bootAlloc_ok (by decide) (BitVec.not_le.mpr (BitVec.lt_def.mpr ?_))
    (BitVec.not_lt.mpr (BitVec.le_def.mpr ?_))
  · change (dirAddr sym).toNat < 0xF0400000
    omega
  · change (dirAddr sym + pgsize).toNat ≤ 0xF0400000
    omega

theorem bootAlloc_pages :
    bootAlloc sym.endAddr (pagesAddr sym) (pagesBytes M) = .ok (pagesAddr sym, freeAddr M sym) := by
  have hfits : _ ≤ 0xF0400000 := h.fits
  have hpos := M.pos
  have hdir := h.dirAddr_toNat
  have hpages := h.pagesAddr_toNat
  have hlinked := h.linked
  have hsum : (pagesAddr sym + pagesBytes M).toNat = (pagesAddr sym).toNat + 8 * M.npages := by
    rw [BitVec.toNat_add, pagesBytes_toNat]
    omega
  have hne : pagesAddr sym ≠ 0 := by
    intro hzero
    rw [hzero] at hpages
    change 0 = _ at hpages
    omega
  have hbytes : pagesBytes M ≠ 0 := by
    intro hzero
    have hval := pagesBytes_toNat (M := M)
    rw [hzero] at hval
    change 0 = _ at hval
    omega
  have hnext : nextPage sym.endAddr (pagesAddr sym) = pagesAddr sym := nextPage_of_ne_zero hne
  have halloc : bootAlloc sym.endAddr (pagesAddr sym) (pagesBytes M) = _ := bootAlloc_ok hbytes
    (by rw [hnext, BitVec.not_le, BitVec.lt_def]; change _ < 0xF0400000; omega)
    (by rw [hnext, BitVec.not_lt, BitVec.le_def, hsum]; change _ ≤ 0xF0400000; omega)
  rwa [hnext] at halloc

theorem bootAlloc_free :
    bootAlloc sym.endAddr (freeAddr M sym) 0 = .ok (freeAddr M sym, freeAddr M sym) := by
  have hne : freeAddr M sym ≠ 0 := by
    intro hzero
    have hfree := h.freeAddr_toNat
    have hdir := h.dirAddr_toNat
    have hpages := h.pagesAddr_toNat
    have hlinked := h.linked
    rw [hzero] at hfree
    change 0 = _ at hfree
    omega
  rw [bootAlloc_zero, nextPage_of_ne_zero hne]

theorem dirAddr_kernel : KERNBASE ≤ dirAddr sym := by
  have hdir := h.dirAddr_toNat
  have hlinked := h.linked
  refine BitVec.le_def.mpr ?_
  rw [KERNBASE_toNat]
  omega

/-- The directory's physical address is that of its page. -/
theorem page2pa_pgdir : page2pa h.pgdir = dirAddr sym - KERNBASE := by
  refine BitVec.eq_of_toNat_eq ?_
  have hdir := h.dirAddr_toNat
  have hsub := sub_KERNBASE_toNat h.dirAddr_kernel
  rw [page2pa_toNat]
  change PGNUM (dirAddr sym - KERNBASE) * 2 ^ 12 = _
  rw [PGNUM_eq]
  omega

theorem pagesAddr_kernel : KERNBASE ≤ pagesAddr sym := by
  have hdir : 0xF0000000 ≤ (dirAddr sym).toNat := h.dirAddr_kernel
  refine BitVec.le_def.mpr ?_
  rw [h.pagesAddr_toNat, KERNBASE_toNat]
  omega

theorem pagesAddr_aligned : Aligned (pagesAddr sym) := by
  have hdir := h.dirAddr_toNat
  rw [aligned_iff, h.pagesAddr_toNat]
  omega

theorem freeAddr_kernel : KERNBASE ≤ freeAddr M sym := by
  have hpages : 0xF0000000 ≤ (pagesAddr sym).toNat := h.pagesAddr_kernel
  refine BitVec.le_def.mpr ?_
  rw [h.freeAddr_toNat, KERNBASE_toNat]
  omega

/-- page_init keeps the page directory off the free list. -/
theorem pgdir_not_free : h.pgdir ∉ initialFree M (nextfreepg M sym) := by
  intro hmem
  have husable : Usable (nextfreepg M sym) h.pgdir := by
    rw [initialFree, List.mem_reverse, List.mem_filter] at hmem
    exact of_decide_eq_true hmem.2
  have hdir := h.dirAddr_toNat
  have hpages := h.pagesAddr_toNat
  have hlinked := h.linked
  have hnum : h.pgdir.val = ((dirAddr sym).toNat - 0xF0000000) / 4096 := by
    change PGNUM (dirAddr sym - KERNBASE) = _
    rw [PGNUM_eq, sub_KERNBASE_toNat h.dirAddr_kernel]
    rfl
  have hnext : nextfreepg M sym = ((freeAddr M sym).toNat - 0xF0000000) / 4096 := by
    rw [nextfreepg, BitVec.toNat_udiv, sub_KERNBASE_toNat h.freeAddr_kernel]
    rfl
  have hfree := h.freeAddr_toNat
  have hhole : ¬ (160 ≤ h.pgdir.val ∧ h.pgdir.val ≤ 256) := husable.1
  have hused : ¬ (256 < h.pgdir.val ∧ h.pgdir.val ≤ nextfreepg M sym) := husable.2
  omega

end Linked

def prepared (sym : Symbols) (pgdir : Page M) (s : Phys M) : Phys M :=
  pageInit (nextfreepg M sym)
    { (s.zeroPage pgdir).setWord pgdir (PDX UVPT) (page2pa pgdir ||| PTE_U ||| PTE_P) with
      pages := fun _ => ⟨none, 0⟩ }

/-- The tests of the allocator pass in `s`, give back the pages they take and leave the
page directory as it was. -/
def Restores (checks : PmapM M Unit) (pgdir : Page M) (s : Phys M) : Prop :=
  Returns checks s fun _ t => t.mem pgdir = s.mem pgdir ∧
    ∀ l, FreeChain s l → ∃ l', l'.Perm l ∧ FreeChain t l'

theorem restores_moveLowFirst {s : Phys M} {l : List (Page M)} (h : FreeChain s l) (hl : l ≠ [])
    (pp1 pp2 : Option (Page M)) (pgdir : Page M) :
    Restores (FreeListOrder.moveLowFirst pp1 pp2) pgdir s := by
  refine (FreeListOrder.returns_moveLowFirst h.chain hl pp1 pp2).mono ?_
  rintro _ t ⟨hchain, hperm, -, hrelinked⟩
  refine ⟨congrFun hrelinked.mem pgdir, fun l' hl' => ?_⟩
  obtain rfl := hl'.chain.unique h.chain
  refine ⟨_, hperm, hchain, fun p hp => ?_⟩
  rw [hrelinked.ref]
  exact h.ref p (hperm.mem_iff.mp hp)

section Run

variable {sym : Symbols} (hlinked : Linked M sym) {s t : Phys M}

/-- The mappings start with a directory that has only its own entry. -/
theorem booted_prepared (hdir : t.mem hlinked.pgdir = (prepared sym hlinked.pgdir s).mem hlinked.pgdir)
    {l : List (Page M)} (hl : l.Perm (initialFree M (nextfreepg M sym))) (hfree : FreeChain t l) :
    Booted t hlinked.pgdir l (initialFree M (nextfreepg M sym) : List (Page M)) ∧
      pteAt t hlinked.pgdir = fun _ => 0 := by
  have hmem : t.mem hlinked.pgdir =
      update (fun _ => 0) (PDX UVPT) (page2pa hlinked.pgdir ||| PTE_U ||| PTE_P) := by
    rw [hdir, prepared, (pageInit_keeps _ _).1]
    simp [Phys.setWord, Phys.zeroPage]
  have hzero : ∀ i, i ≠ PDX UVPT → t.mem hlinked.pgdir i = 0 := fun i hi => by
    rw [hmem, update_of_ne hi]
  have huvpt : t.mem hlinked.pgdir (PDX UVPT) = page2pa hlinked.pgdir ||| PTE_U ||| PTE_P := by
    rw [hmem, update_self]
  have htarget : ∀ i, (dirFormat hlinked.pgdir).target (t.mem hlinked.pgdir i) = none := by
    intro i
    by_cases hi : i = PDX UVPT
    · rw [hi, huvpt, target_self]
    · rw [hzero i hi]
      rfl
  have haccount : (dirFormat hlinked.pgdir).footprint t.mem hlinked.pgdir + (l : Multiset (Page M)) =
      hlinked.pgdir ::ₘ ((initialFree M (nextfreepg M sym) : List (Page M)) : Multiset (Page M)) := by
    rw [Format.footprint_of_no_table htarget, singleton_add, coe_eq_coe.mpr hl]
  refine ⟨⟨⟨hfree, ?_, fun i => ?_⟩, haccount, huvpt, fun i hi => .inl (hzero i hi)⟩, ?_⟩
  · rw [haccount]
    refine Multiset.nodup_cons.mpr ⟨fun hin => hlinked.pgdir_not_free (mem_coe.mp hin), ?_⟩
    exact coe_nodup.mpr (freeChain_pageInit (nextfreepg M sym) s).chain.nodup
  · by_cases hi : i = PDX UVPT
    · rw [hi, huvpt, BitVec.or_assoc]
      intro _
      rw [PGNUM_entry hlinked.pgdir (by decide)]
      exact hlinked.pgdir.isLt
    · rw [hzero i hi]
      exact fun hpresent => absurd hpresent (by decide)
  · funext va
    exact Format.leaf_none (htarget _)

theorem returns_mapMemory {checks : Page M → PmapM M Unit} {edx cr4 : Word}
    (hchecks : Restores (checks hlinked.pgdir) hlinked.pgdir (prepared sym hlinked.pgdir s)) :
    Returns (mapMemory sym checks edx cr4) s fun r t =>
      r = (hlinked.pgdir, pagesAddr sym) ∧
        (∃ l, Booted t hlinked.pgdir l (initialFree M (nextfreepg M sym) : List (Page M))) ∧
        (slots.card ≤ (initialFree M (nextfreepg M sym)).length → pteAt t hlinked.pgdir =
          kernelEntries (pagesAddr sym - KERNBASE) (sym.bootstack - KERNBASE)
            (checkPse edx cr4 ≠ 0) fun _ => 0) := by
  have hpa : PGNUM (dirAddr sym - KERNBASE) = hlinked.pgdir.val := rfl
  unfold mapMemory
  rw [hlinked.bootAlloc_dir]
  refine returns_bind ((returns_pure _).mpr ?_)
  refine returns_bind (returns_PADDR hlinked.dirAddr_kernel ?_)
  refine returns_bind ⟨hlinked.pgdir, s, run_KADDR hpa s, ?_⟩
  simp only [returns_modify_bind]
  rw [hlinked.bootAlloc_pages]
  refine returns_bind ((returns_pure _).mpr ?_)
  simp only [returns_modify_bind]
  rw [hlinked.bootAlloc_free]
  refine returns_bind ((returns_pure _).mpr ?_)
  refine returns_bind (returns_PADDR hlinked.freeAddr_kernel ?_)
  simp only [returns_modify_bind]
  rw [← hlinked.page2pa_pgdir]
  refine returns_bind (Returns.mono hchecks ?_)
  rintro - t ⟨hdir, hperm⟩
  obtain ⟨l, hl, hfree⟩ := hperm _ (freeChain_pageInit _ _)
  obtain ⟨hbooted, hpte⟩ := booted_prepared hlinked hdir hl hfree
  refine returns_mapKernel hbooted hlinked.pagesAddr_kernel hlinked.pagesAddr_aligned
    hlinked.stack_mapped hlinked.stack_aligned fun u left hu hmap => ?_
  rw [hpte] at hmap
  exact (returns_pure _).mpr ⟨rfl, ⟨left, hu⟩, hmap⟩

/-- The address space that mem_init leaves, on every machine with enough free pages for
the tables of the three regions. -/
theorem kernel_layout {checks : Page M → PmapM M Unit} {edx cr4 : Word}
    (hchecks : Restores (checks hlinked.pgdir) hlinked.pgdir (prepared sym hlinked.pgdir s))
    (hfree : slots.card ≤ (initialFree M (nextfreepg M sym)).length) :
    Returns (memInit sym checks edx cr4) s fun r t =>
      Layout t r.1 (r.2 - KERNBASE) (sym.bootstack - KERNBASE) := by
  refine returns_bind ((returns_mapMemory hlinked hchecks).mono ?_)
  rintro _ t ⟨rfl, ⟨l, hbooted⟩, hmap⟩
  have hpages := hlinked.pagesAddr_aligned.sub aligned_KERNBASE
  have hstack := hlinked.stack_aligned.sub aligned_KERNBASE
  have hlayout := layout_of_entries hbooted (hmap hfree) hpages hstack
  have htables : ∀ i ∈ slots, ∃ r : Page M, t.mem hlinked.pgdir i = dirEntry r :=
    fun i hi => exists_table hbooted (hmap hfree) hpages hstack hi
  refine returns_bind (returns_checkKernPgdir hbooted htables hlayout hlinked.pagesAddr_kernel
    hlinked.stack_mapped ?_)
  exact (returns_pure _).mpr hlayout

abbrev twoMegabytes : MemSize := ⟨512, by decide, by decide⟩

def smallKernel : Symbols := ⟨0xF0114000, 0xF0108000⟩

theorem linked_smallKernel : Linked twoMegabytes smallKernel :=
  ⟨by decide, by decide, by decide, by decide, rfl⟩

/-- With 2 MB of memory and the list as check_page_free_list leaves it. -/
theorem kernel_layout_smallKernel :
    Returns (memInit smallKernel (fun _ => FreeListOrder.moveLowFirst none none) 8 0)
      (⟨fun _ => ⟨none, 0⟩, none, fun _ _ => 0, []⟩ : Phys twoMegabytes) fun r t =>
        Layout t r.1 (r.2 - KERNBASE) 0x108000 := by
  have hlength : slots.card ≤
      (initialFree twoMegabytes (nextfreepg twoMegabytes smallKernel)).length := by
    rw [card_slots]
    decide +kernel
  refine kernel_layout linked_smallKernel (restores_moveLowFirst (freeChain_pageInit _ _) ?_ _ _ _)
    hlength
  refine List.ne_nil_of_length_pos (lt_of_lt_of_le ?_ hlength)
  rw [card_slots]
  decide

end Run

end KernelLabs.MemInit

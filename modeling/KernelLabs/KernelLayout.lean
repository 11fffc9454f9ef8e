import KernelLabs.AddressSpace
import KernelLabs.KernelMap

/-!
The kernel's address space after mem_init: the layout of memlayout.h, which holds for every
address once the three regions are mapped. The directory is also the page table of the
addresses from UVPT on, where its entries are the page-table entries.
-/
namespace KernelLabs.KernelLayout

open LinkedChain PageWords PhysPages PageInit PageDir KernelWords BootMap PanicMonad TableOwners
  RegionMap AddressSpace KernelMap BitVec

variable {M : MemSize}

def UserAccessible (s : Phys M) (pgdir : Page M) (va : Word) : Prop :=
  ∃ pa rights, translate s pgdir va = some (pa, rights) ∧ rights &&& PTE_U ≠ 0

def UserWritable (s : Phys M) (pgdir : Page M) (va : Word) : Prop :=
  ∃ pa rights, translate s pgdir va = some (pa, rights) ∧ rights &&& PTE_U ≠ 0 ∧ rights &&& PTE_W ≠ 0

/-- The virtual memory map of memlayout.h above UTOP, with the physical addresses of the
pages array and of the boot stack. -/
structure Layout (s : Phys M) (pgdir : Page M) (pages stack : Word) : Prop where
  tables_in_memory : ∀ va, InRange M (s.mem pgdir (PDX va))
  kernbase : ∀ va, KERNBASE ≤ va → address s pgdir va = some (va - KERNBASE)
  bootstack : ∀ va, KSTACKTOP - KSTKSIZE ≤ va → va < KSTACKTOP →
    address s pgdir va = some (stack + (va - (KSTACKTOP - KSTKSIZE)))
  guardPages : ∀ va, KSTACKTOP - PTSIZE ≤ va → va < KSTACKTOP - KSTKSIZE →
    translate s pgdir va = none
  pagesArray : ∀ va, UPAGES ≤ va → va < UPAGES + PTSIZE →
    address s pgdir va = some (pages + (va - UPAGES))
  kernel_only : ∀ va, ULIM ≤ va → ¬ UserAccessible s pgdir va
  user_readOnly : ∀ va : Word, UTOP ≤ va.toNat → ¬ UserWritable s pgdir va

/-- The directory index at which the directory is its own page table. -/
theorem PDX_eq_UVPT_iff {va : Word} :
    PDX va = PDX UVPT ↔ UPAGES.toNat + 0x400000 ≤ va.toNat ∧ va.toNat < ULIM.toNat := by
  rw [Fin.ext_iff, PDX_val, PDX_val, UPAGES_toNat, ULIM_toNat]
  change va.toNat / 2 ^ 22 = 0xEF400000 / 2 ^ 22 ↔ _
  omega

section Kernel

variable {pages stack va : Word} {superpage : Bool} {f : Word → Word}

theorem kernelEntries_kernbase (hva : KERNBASE.toNat ≤ va.toNat) :
    kernelEntries pages stack superpage f va = entryWord (0 + (PTE_ADDR va - KERNBASE)) PTE_W true := by
  exact if_pos (inRegion_KERNBASE.mpr hva)

theorem kernelEntries_stack (hlow : (KSTACKTOP - KSTKSIZE).toNat ≤ va.toNat)
    (hhigh : va.toNat < KERNBASE.toNat) :
    kernelEntries pages stack superpage f va =
      entryWord (stack + (PTE_ADDR va - (KSTACKTOP - KSTKSIZE))) PTE_W superpage := by
  have hlow' : ¬ InRegion KERNBASE 65536 va :=
    fun hin => absurd (inRegion_KERNBASE.mp hin) (not_le.mpr hhigh)
  rw [kernelEntries, region, if_neg hlow', region]
  exact if_pos (inRegion_stack.mpr ⟨hlow, hhigh⟩)

theorem kernelEntries_low (hhigh : va.toNat < (KSTACKTOP - KSTKSIZE).toNat) :
    kernelEntries pages stack superpage f va =
      if InRegion UPAGES 1024 va then entryWord (pages + (PTE_ADDR va - UPAGES)) PTE_U superpage
      else f va := by
  rw [stack_toNat] at hhigh
  rw [kernelEntries, region, if_neg (by rw [inRegion_KERNBASE]; omega), region,
    if_neg (by rw [inRegion_stack]; omega), region]

/-- An entry of the kernel's own memory does not admit the user. -/
theorem entryWord_kernel {w : Word} (hw : Aligned w) : entryWord w PTE_W superpage &&& PTE_U = 0 := by
  rw [entryWord_eq, entry_and hw (by decide)]
  cases superpage <;> decide

theorem entryWord_user {w : Word} (hw : Aligned w) : entryWord w PTE_U superpage &&& PTE_W = 0 := by
  rw [entryWord_eq, entry_and hw (by decide)]
  cases superpage <;> decide

theorem kernelEntries_and_user (hstack : Aligned stack)
    (hva : (KSTACKTOP - KSTKSIZE).toNat ≤ va.toNat) :
    kernelEntries pages stack superpage f va &&& PTE_U = 0 := by
  rcases Nat.lt_or_ge va.toNat KERNBASE.toNat with hhigh | hlow
  · rw [kernelEntries_stack hva hhigh]
    exact entryWord_kernel (hstack.add ((aligned_PTE_ADDR va).sub aligned_stack))
  · rw [kernelEntries_kernbase hlow]
    exact entryWord_kernel (aligned_zero.add ((aligned_PTE_ADDR va).sub aligned_KERNBASE))

end Kernel

theorem PDX_ne_UVPT {va : Word} (hva : ULIM.toNat ≤ va.toNat) : PDX va ≠ PDX UVPT :=
  fun heq => absurd (PDX_eq_UVPT_iff.mp heq).2 (not_lt.mpr hva)

section Layout

variable {s : Phys M} {pgdir : Page M} {free : List (Page M)} {pool : Multiset (Page M)}
  {pages stack : Word} {superpage : Bool} (h : Booted s pgdir free pool)
  (hmap : pteAt s pgdir = kernelEntries pages stack superpage fun _ => 0)

include h hmap

theorem not_userAccessible (hstack : Aligned stack) {va : Word} (hva : ULIM.toNat ≤ va.toNat) :
    ¬ UserAccessible s pgdir va := by
  rintro ⟨pa, rights, htranslate, hrights⟩
  have hdir := PDX_ne_UVPT hva
  rcases Nat.lt_or_ge va.toNat (KSTACKTOP - KSTKSIZE).toNat with hlow | hhigh
  · have hpte : pteAt s pgdir va = 0 := by
      rw [ULIM_toNat] at hva
      rw [hmap, kernelEntries_low hlow, if_neg (by rw [inRegion_UPAGES]; omega)]
    rw [translate_of_absent h.tabled (h.self_ne hdir) hpte] at htranslate
    cases htranslate
  · have hpte : pteAt s pgdir va &&& PTE_U = 0 := by
      rw [hmap]
      exact kernelEntries_and_user hstack hhigh
    exact hrights (rights_and_eq_zero h.tabled (h.self_ne hdir) hpte htranslate)

/-- In the window of the page tables the directory entry itself is not writable. -/
theorem not_userWritable (hpages : Aligned pages) (hstack : Aligned stack) (va : Word) :
    ¬ UserWritable s pgdir va := by
  rintro ⟨pa, rights, htranslate, huser, hwrite⟩
  by_cases hdir : PDX va = PDX UVPT
  · have hpde : s.mem pgdir (PDX va) &&& PTE_W = 0 := by
      rw [hdir, h.uvpt, BitVec.or_assoc, entry_and (aligned_page2pa pgdir) (by decide)]
      decide
    obtain ⟨t, -, ht⟩ := Option.bind_eq_some_iff.mp htranslate
    split at ht
    · cases ht
      rw [BitVec.and_comm (s.mem pgdir _), BitVec.and_assoc, hpde] at hwrite
      exact hwrite and_zero
    · cases ht
  · rcases Nat.lt_or_ge va.toNat (KSTACKTOP - KSTKSIZE).toNat with hlow | hhigh
    · have hpte : pteAt s pgdir va &&& PTE_W = 0 := by
        rw [hmap, kernelEntries_low hlow]
        split
        · exact entryWord_user (hpages.add ((aligned_PTE_ADDR va).sub aligned_UPAGES))
        · exact zero_and
      exact hwrite (rights_and_eq_zero h.tabled (h.self_ne hdir) hpte htranslate)
    · have hpte : pteAt s pgdir va &&& PTE_U = 0 := by
        rw [hmap]
        exact kernelEntries_and_user hstack hhigh
      exact huser (rights_and_eq_zero h.tabled (h.self_ne hdir) hpte htranslate)

/-- The entries that the three regions leave are the layout. -/
theorem layout_of_entries (hpages : Aligned pages) (hstack : Aligned stack) :
    Layout s pgdir pages stack where
  tables_in_memory va := h.tabled.inRange (PDX va)
  kernbase va hva := by
    have hlow : KERNBASE.toNat ≤ va.toNat := hva
    have hdir := PDX_ne_UVPT (le_trans (by decide) hlow)
    have hpte := (congrFun hmap va).trans (kernelEntries_kernbase hlow)
    rw [address_of_entry h.tabled (h.self_ne hdir) aligned_KERNBASE aligned_zero (by decide) hpte]
    exact congrArg some (BitVec.zero_add _)
  bootstack va hlow hhigh := by
    have hlow : (KSTACKTOP - KSTKSIZE).toNat ≤ va.toNat := hlow
    have hhigh : va.toNat < KERNBASE.toNat := hhigh
    have hdir := PDX_ne_UVPT (le_trans (by decide) hlow)
    have hpte := (congrFun hmap va).trans (kernelEntries_stack hlow hhigh)
    exact address_of_entry h.tabled (h.self_ne hdir) aligned_stack hstack
      (by cases superpage <;> decide) hpte
  guardPages va hlow hhigh := by
    have hlow : (KSTACKTOP - PTSIZE).toNat ≤ va.toNat := hlow
    have hhigh : va.toNat < (KSTACKTOP - KSTKSIZE).toNat := hhigh
    have hdir := PDX_ne_UVPT (le_trans (by decide) hlow)
    rw [guard_toNat] at hlow
    refine translate_of_absent h.tabled (h.self_ne hdir) ?_
    rw [hmap, kernelEntries_low hhigh, if_neg (by rw [inRegion_UPAGES]; omega)]
  pagesArray va hlow hhigh := by
    have hlow : UPAGES.toNat ≤ va.toNat := hlow
    have hhigh : va.toNat < 0xEF400000 := hhigh
    rw [UPAGES_toNat] at hlow
    have hdir : PDX va ≠ PDX UVPT := fun heq => by
      have := (PDX_eq_UVPT_iff.mp heq).1
      rw [UPAGES_toNat] at this
      omega
    have hpte : pteAt s pgdir va = entryWord (pages + (PTE_ADDR va - UPAGES)) PTE_U superpage := by
      rw [hmap, kernelEntries_low (by rw [stack_toNat]; omega),
        if_pos (by rw [inRegion_UPAGES]; omega)]
    exact address_of_entry h.tabled (h.self_ne hdir) aligned_UPAGES hpages
      (by cases superpage <;> decide) hpte
  kernel_only va hva := not_userAccessible h hmap hstack hva
  user_readOnly va _ := not_userWritable h hmap hpages hstack va

theorem exists_table (hpages : Aligned pages) (hstack : Aligned stack) {i : Fin NPTENTRIES}
    (hi : i ∈ slots) : ∃ t : Page M, s.mem pgdir i = dirEntry t := by
  have hpresent : ∀ va : Word, PDX va = i → Present (pteAt s pgdir va) →
      ∃ t : Page M, s.mem pgdir i = dirEntry t := by
    rintro va rfl hpte
    cases ht : (dirFormat pgdir).target (s.mem pgdir (PDX va)) with
    | none =>
      have hzero : pteAt s pgdir va = 0 := Format.leaf_none ht
      rw [hzero] at hpte
      exact absurd hpte (by decide)
    | some t => exact ⟨t, (h.eq_dirEntry ht).2⟩
  rcases mem_slots.mp hi with rfl | hhigh
  · refine hpresent UPAGES rfl ?_
    rw [hmap, kernelEntries_low (by decide), if_pos (by decide)]
    exact present_entryWord (hpages.add ((aligned_PTE_ADDR _).sub aligned_UPAGES)) _ _
  · have hindex : 959 ≤ i.val := hhigh
    by_cases hlast : i.val = 959
    · refine hpresent (KSTACKTOP - KSTKSIZE) (Fin.ext hlast.symm) ?_
      rw [hmap, kernelEntries_stack le_rfl (by decide)]
      exact present_entryWord (hstack.add ((aligned_PTE_ADDR _).sub aligned_stack)) _ _
    · have hlt := i.isLt
      simp only [NPTENTRIES] at hlt
      have hva : (BitVec.ofNat 32 (i.val * 2 ^ 22)).toNat = i.val * 2 ^ 22 := by
        rw [toNat_ofNat]
        omega
      refine hpresent (BitVec.ofNat 32 (i.val * 2 ^ 22)) (Fin.ext ?_) ?_
      · rw [PDX_val, hva]
        omega
      · rw [hmap, kernelEntries_kernbase (by rw [hva, KERNBASE_toNat]; omega)]
        exact present_entryWord (aligned_zero.add ((aligned_PTE_ADDR _).sub aligned_KERNBASE)) _ _

end Layout

end KernelLabs.KernelLayout

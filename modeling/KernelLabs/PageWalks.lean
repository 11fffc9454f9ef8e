import KernelLabs.BootMap
import KernelLabs.PanicMonad

/-!
The walkers of the page tables that do not change them: pgdir_walk without create,
page_lookup, check_va2pa and the monitor's virtual2physical. Here memory is read through
kernel addresses and the number of pages is arbitrary, so that KADDR may wrap. The first
three agree with the functions over pages of a machine of at most 256 MB.
-/
namespace KernelLabs.PageWalks

open PageWords PhysPages PageDir PanicMonad KernelWords BootMap Option

/-- The words of memory by their kernel addresses, and the number of physical pages. -/
structure Image where
  npages : ℕ
  word : Word → Word

def entryAddr (table : Word) (i : Fin NPTENTRIES) : Word := table + BitVec.ofNat 32 (4 * i.val)

def frame (n : ℕ) : Word := BitVec.ofNat 32 n <<< 12

namespace Image

variable (k : Image)

def kaddr (pa : Word) : Except String Word :=
  if PGNUM pa < k.npages then .ok (pa + KERNBASE)
  else .error ("KADDR called with invalid pa " ++ pa.toHex)

def pa2page (pa : Word) : Except String ℕ :=
  if PGNUM pa < k.npages then .ok (PGNUM pa) else .error "pa2page called with invalid pa"

def pde (pgdir va : Word) : Word := k.word (entryAddr pgdir (PDX va))

def pgdirWalk (pgdir va : Word) : Except String (Option Word) := do
  if ¬Present (k.pde pgdir va) then
    return none
  else
    let table ← k.kaddr (PTE_ADDR (k.pde pgdir va))
    return some (entryAddr table (PTX va))

def pageLookup (pgdir va : Word) : Except String (Option ℕ) := do
  match ← k.pgdirWalk pgdir va with
  | none => return none
  | some pte =>
    if ¬Present (k.word pte) then
      return none
    else
      let page ← k.pa2page (PTE_ADDR (k.word pte))
      return some page

def checkVa2pa (pgdir va : Word) : Except String Word := do
  if ¬Present (k.pde pgdir va) then
    return ~~~0
  else
    let table ← k.kaddr (PTE_ADDR (k.pde pgdir va))
    if ¬Present (k.word (entryAddr table (PTX va))) then
      return ~~~0
    else
      return PTE_ADDR (k.word (entryAddr table (PTX va)))

def virtual2physical (kernPgdir va : Word) : Except String Word := do
  match ← k.pgdirWalk kernPgdir va with
  | none => return -1
  | some pte => return PTE_ADDR (k.word pte) + PGOFF va

def pte (pgdir va : Word) : Word :=
  k.word (entryAddr (PTE_ADDR (k.pde pgdir va) + KERNBASE) (PTX va))

/-- The present entries of a directory and of its tables name pages of the memory. -/
structure InMemory (pgdir : Word) : Prop where
  dir : ∀ va, Present (k.pde pgdir va) → PGNUM (k.pde pgdir va) < k.npages
  table : ∀ va, Present (k.pde pgdir va) → Present (k.pte pgdir va) →
    PGNUM (k.pte pgdir va) < k.npages

end Image

/-- The walkers agree at an address: check_va2pa with page_lookup, and the monitor's
virtual2physical with both. -/
structure Agree (k : Image) (pgdir va : Word) : Prop where
  lookup : ∃ page pa, k.pageLookup pgdir va = .ok page ∧ k.checkVa2pa pgdir va = .ok pa ∧
    (pa = ~~~0 ↔ page = none) ∧ ∀ n, page = some n → pa = frame n
  monitor : ∃ page pa phys, k.pageLookup pgdir va = .ok page ∧ k.checkVa2pa pgdir va = .ok pa ∧
    k.virtual2physical pgdir va = .ok phys ∧
    (phys = -1 ↔ page = none) ∧ (page ≠ none → phys = pa + PGOFF va)

variable {k : Image} {pgdir va : Word}

theorem frame_PGNUM (w : Word) : frame (PGNUM w) = PTE_ADDR w := by
  refine BitVec.eq_of_toNat_eq ?_
  have hlt := w.isLt
  rw [PTE_ADDR_toNat, frame, BitVec.toNat_shiftLeft, BitVec.toNat_ofNat, PGNUM_eq, Nat.shiftLeft_eq]
  omega

theorem PTE_ADDR_ne_ones (w : Word) : PTE_ADDR w ≠ ~~~0 := by
  intro heq
  have hnat := congrArg BitVec.toNat heq
  rw [PTE_ADDR_toNat] at hnat
  change w.toNat / 4096 * 4096 = 2 ^ 32 - 1 at hnat
  omega

section Run

variable (h : k.InMemory pgdir)

include h

theorem kaddr_pde (hpde : Present (k.pde pgdir va)) :
    k.kaddr (PTE_ADDR (k.pde pgdir va)) = .ok (PTE_ADDR (k.pde pgdir va) + KERNBASE) := by
  refine if_pos ?_
  rw [PGNUM_PTE_ADDR]
  exact h.dir va hpde

theorem pgdirWalk_of_present (hpde : Present (k.pde pgdir va)) :
    k.pgdirWalk pgdir va =
      .ok (some (entryAddr (PTE_ADDR (k.pde pgdir va) + KERNBASE) (PTX va))) := by
  rw [Image.pgdirWalk, if_neg (not_not_intro hpde), kaddr_pde h hpde]
  rfl

theorem pageLookup_eq (va : Word) :
    k.pageLookup pgdir va = .ok (if Present (k.pde pgdir va) ∧ Present (k.pte pgdir va) then
      some (PGNUM (k.pte pgdir va)) else none) := by
  by_cases hpde : Present (k.pde pgdir va)
  · rw [Image.pageLookup, pgdirWalk_of_present h hpde]
    change (if ¬Present (k.pte pgdir va) then _ else _) = _
    by_cases hpte : Present (k.pte pgdir va)
    · have hnum : PGNUM (PTE_ADDR (k.pte pgdir va)) < k.npages := by
        rw [PGNUM_PTE_ADDR]
        exact h.table va hpde hpte
      rw [if_neg (not_not_intro hpte), if_pos ⟨hpde, hpte⟩, ← PGNUM_PTE_ADDR]
      exact congrArg (· >>= fun page => pure (some page)) (if_pos hnum)
    · rw [if_pos hpte, if_neg fun hmapped => hpte hmapped.2]
      rfl
  · rw [Image.pageLookup, Image.pgdirWalk, if_pos hpde, if_neg fun hmapped => hpde hmapped.1]
    rfl

theorem checkVa2pa_eq (va : Word) :
    k.checkVa2pa pgdir va = .ok (if Present (k.pde pgdir va) ∧ Present (k.pte pgdir va) then
      PTE_ADDR (k.pte pgdir va) else ~~~0) := by
  by_cases hpde : Present (k.pde pgdir va)
  · rw [Image.checkVa2pa, if_neg (not_not_intro hpde), kaddr_pde h hpde]
    change (if ¬Present (k.pte pgdir va) then _ else _) = _
    by_cases hpte : Present (k.pte pgdir va)
    · rw [if_neg (not_not_intro hpte), if_pos ⟨hpde, hpte⟩]
      rfl
    · rw [if_pos hpte, if_neg fun hmapped => hpte hmapped.2]
      rfl
  · rw [Image.checkVa2pa, if_pos hpde, if_neg fun hmapped => hpde hmapped.1]
    rfl

/-- virtual2physical looks at the directory entry alone. -/
theorem virtual2physical_eq (va : Word) :
    k.virtual2physical pgdir va = .ok (if Present (k.pde pgdir va) then
      PTE_ADDR (k.pte pgdir va) + PGOFF va else -1) := by
  by_cases hpde : Present (k.pde pgdir va)
  · rw [Image.virtual2physical, pgdirWalk_of_present h hpde, if_pos hpde]
    rfl
  · rw [Image.virtual2physical, Image.pgdirWalk, if_pos hpde, if_neg hpde]
    rfl

theorem lookup_agrees : ∃ page pa, k.pageLookup pgdir va = .ok page ∧
    k.checkVa2pa pgdir va = .ok pa ∧ (pa = ~~~0 ↔ page = none) ∧
    ∀ n, page = some n → pa = frame n := by
  refine ⟨_, _, pageLookup_eq h va, checkVa2pa_eq h va, ?_⟩
  by_cases hmapped : Present (k.pde pgdir va) ∧ Present (k.pte pgdir va)
  · simp only [if_pos hmapped]
    refine ⟨iff_of_false (PTE_ADDR_ne_ones _) (some_ne_none _), fun n hn => ?_⟩
    rw [← some.inj hn, frame_PGNUM]
  · simp only [if_neg hmapped]
    exact ⟨trivial, fun n hn => absurd hn.symm (some_ne_none n)⟩

end Run

/-! ### The walkers over pages -/

section Pages

variable {M : MemSize} (s : Phys M)

/-- The memory of a machine of at most 256 MB behind its kernel addresses. -/
def imageOf : Image where
  npages := M.npages
  word a := if h : PGNUM (a - KERNBASE) < M.npages then
      s.mem ⟨_, h⟩ ⟨(a - KERNBASE).toNat / 4 % 1024, Nat.mod_lt _ (by decide)⟩
    else 0

def kernelAddr (p : Page M) : Word := page2pa p + KERNBASE

theorem imageOf_word (p : Page M) (i : Fin NPTENTRIES) :
    (imageOf s).word (entryAddr (kernelAddr p) i) = s.mem p i := by
  have hp := p.isLt
  have hmax := M.max
  have hi : i.val < 1024 := i.isLt
  have hsub : (entryAddr (kernelAddr p) i - KERNBASE).toNat = p.val * 4096 + 4 * i.val := by
    have hcancel : entryAddr (kernelAddr p) i - KERNBASE =
        page2pa p + BitVec.ofNat 32 (4 * i.val) := by
      unfold entryAddr kernelAddr
      ring
    rw [hcancel, BitVec.toNat_add, page2pa_toNat, BitVec.toNat_ofNat]
    omega
  have hpage : PGNUM (entryAddr (kernelAddr p) i - KERNBASE) = p.val := by
    rw [PGNUM_eq, hsub]
    omega
  unfold imageOf
  dsimp only
  rw [dif_pos (hpage ▸ hp)]
  refine congrArg₂ s.mem (Fin.ext hpage) (Fin.ext ?_)
  dsimp only
  omega

section Bind

variable {α : Type} {f : Page M → PmapM M α}

theorem outcome_KADDR {g : Word → Except String α} (w : Word)
    (hfg : ∀ p, outcome (f p) s = g (kernelAddr p)) :
    outcome (KADDR (PTE_ADDR w) >>= f) s = (imageOf s).kaddr (PTE_ADDR w) >>= g := by
  by_cases hin : PGNUM (PTE_ADDR w) < M.npages
  · have hkaddr : (imageOf s).kaddr (PTE_ADDR w) = .ok (PTE_ADDR w + KERNBASE) := if_pos hin
    have hframe : page2pa (⟨_, hin⟩ : Page M) = PTE_ADDR w :=
      (congrArg frame (PGNUM_PTE_ADDR w)).trans (frame_PGNUM w)
    rw [outcome_bind (run_KADDR (p := ⟨_, hin⟩) rfl s), hfg, kernelAddr, hframe, hkaddr]
    rfl
  · have hkaddr : (imageOf s).kaddr (PTE_ADDR w) = .error _ := if_neg hin
    rw [KADDR, dif_neg hin, hkaddr]
    rfl

theorem outcome_pa2page {g : ℕ → Except String α} (pa : Word)
    (hfg : ∀ p, outcome (f p) s = g p.val) :
    outcome (PhysPages.pa2page pa >>= f) s = (imageOf s).pa2page pa >>= g := by
  by_cases hin : PGNUM pa < M.npages
  · have hpage : (imageOf s).pa2page pa = .ok (PGNUM pa) := if_pos hin
    rw [outcome_bind (run_pa2page (p := ⟨_, hin⟩) rfl s), hfg, hpage]
    rfl
  · have hpage : (imageOf s).pa2page pa = .error _ := if_neg hin
    rw [PhysPages.pa2page, dif_neg hin, hpage]
    rfl

end Bind

variable (dir : Page M) (va : Word)

/-- The walkers over pages return what those over kernel addresses do. -/
theorem checkVa2pa_imageOf :
    outcome (BootMap.checkVa2pa dir va) s = (imageOf s).checkVa2pa (kernelAddr dir) va := by
  rw [BootMap.checkVa2pa, outcome_bind (EStateM.run_get s), Image.checkVa2pa, Image.pde, imageOf_word]
  by_cases hpde : Present (s.mem dir (PDX va))
  swap
  · rw [if_pos hpde, if_pos hpde]
    rfl
  rw [if_neg (not_not_intro hpde), if_neg (not_not_intro hpde)]
  refine outcome_KADDR s _ fun p => ?_
  rw [outcome_bind (EStateM.run_get s), imageOf_word]
  dsimp only
  split <;> rfl

theorem pageLookup_imageOf :
    outcome (PageDir.pageLookup dir va >>= fun r => pure (r.map fun x => x.1.val)) s =
      (imageOf s).pageLookup (kernelAddr dir) va := by
  rw [PageDir.pageLookup, PageDir.pgdirWalk, Image.pageLookup, Image.pgdirWalk, Image.pde,
    imageOf_word]
  simp only [LawfulMonad.bind_assoc]
  rw [outcome_bind (EStateM.run_get s)]
  by_cases hpde : Present (s.mem dir (PDX va))
  swap
  · rw [if_pos hpde, if_pos hpde]
    rfl
  rw [if_neg (not_not_intro hpde), if_neg (not_not_intro hpde), walkTable]
  simp only [LawfulMonad.bind_assoc]
  rw [outcome_bind (EStateM.run_get s)]
  refine outcome_KADDR s _ fun p => ?_
  simp only [pure_bind, LawfulMonad.bind_assoc, imageOf_word]
  rw [outcome_bind (EStateM.run_get s)]
  by_cases hpte : Present (s.mem p (PTX va))
  swap
  · rw [if_pos hpte, if_pos hpte]
    rfl
  rw [if_neg (not_not_intro hpte), if_neg (not_not_intro hpte), LawfulMonad.bind_assoc]
  exact outcome_pa2page s _ fun p => rfl

end Pages

/-- The physical address is -1 only at the last byte of the last page. -/
theorem address_eq_ones_iff (w va : Word) :
    PTE_ADDR w + PGOFF va = -1 ↔ PGNUM w = 0xFFFFF ∧ PGOFF va = 0xFFF := by
  have hlt := w.isLt
  have hones : (-1 : Word).toNat = 2 ^ 32 - 1 := rfl
  have hoff : (0xFFF : Word).toNat = 0xFFF := rfl
  rw [← BitVec.toNat_inj, ← BitVec.toNat_inj, BitVec.toNat_add, PTE_ADDR_toNat, PGOFF_toNat, hones,
    hoff, PGNUM_eq]
  omega

/-- The walkers agree at an address exactly when its directory entry is absent, or its
table entry is present and the address is not the last byte of the last page, or cleared and it
is: virtual2physical does not look at the present bit of the table entry. -/
theorem agree_iff (k : Image) (pgdir va : Word) (h : k.InMemory pgdir) :
    Agree k pgdir va ↔ ¬Present (k.pde pgdir va) ∨
      (Present (k.pte pgdir va) ↔ ¬(PGNUM (k.pte pgdir va) = 0xFFFFF ∧ PGOFF va = 0xFFF)) := by
  rw [← address_eq_ones_iff]
  have hphys := virtual2physical_eq h va
  have hlookup := pageLookup_eq h va
  by_cases hpde : Present (k.pde pgdir va)
  swap
  · -- without a table all three report that there is no page
    rw [if_neg hpde] at hphys
    rw [if_neg fun hmapped => hpde hmapped.1] at hlookup
    exact iff_of_true ⟨lookup_agrees h, _, _, _, hlookup, checkVa2pa_eq h va, hphys,
      iff_of_true rfl rfl, fun hne => absurd rfl hne⟩ (.inl hpde)
  rw [if_pos hpde] at hphys
  rw [or_iff_right (not_not_intro hpde)]
  simp only [and_iff_right hpde] at hlookup
  constructor
  · intro hagree
    obtain ⟨page, pa, phys, hpage, _, hmonitor, hnone, _⟩ := hagree.monitor
    obtain rfl := Except.ok.inj (hlookup.symm.trans hpage)
    obtain rfl := Except.ok.inj (hphys.symm.trans hmonitor)
    rw [hnone]
    simp
  · intro hcond
    refine ⟨lookup_agrees h, _, _, _, hlookup, checkVa2pa_eq h va, hphys, ?_, fun hne => ?_⟩
    · rw [← not_iff_not, ← hcond]
      simp
    · rw [if_pos ⟨hpde, by simpa using hne⟩]

/-- A directory in page 1 whose first entry has its table in page 2. Of that table only the
first entry is present, and it maps page 3. -/
def oneTable : Image where
  npages := 4
  word a := if a = 0xF0001000 then 0x2007 else if a = 0xF0002000 then 0x3003 else 0

theorem oneTable_inMemory : oneTable.InMemory 0xF0001000 := by
  have hword : ∀ a, PGNUM (oneTable.word a) < oneTable.npages := by
    intro a
    unfold oneTable
    dsimp only
    split_ifs <;> decide
  exact ⟨fun va _ => hword _, fun va _ _ => hword _⟩

theorem agree_at_mapped : oneTable.virtual2physical 0xF0001000 0x10 = .ok 0x3010 ∧
    Agree oneTable 0xF0001000 0x10 :=
  ⟨rfl, (agree_iff oneTable 0xF0001000 0x10 oneTable_inMemory).mpr (.inr (by decide))⟩

/-- For an address whose table entry is clear virtual2physical does not return -1. -/
theorem virtual2physical_of_cleared : oneTable.InMemory 0xF0001000 ∧
    oneTable.pageLookup 0xF0001000 0x1010 = .ok none ∧
    oneTable.virtual2physical 0xF0001000 0x1010 = .ok 0x10 ∧
    ¬Agree oneTable 0xF0001000 0x1010 := by
  refine ⟨oneTable_inMemory, rfl, rfl, ?_⟩
  intro hagree
  obtain ⟨page, pa, phys, hlookup, _, hmonitor, hnone, _⟩ := hagree.monitor
  have hpage : none = page := Except.ok.inj hlookup
  have hphys : (0x10 : Word) = phys := Except.ok.inj hmonitor
  have hones := hnone.mpr hpage.symm
  rw [← hphys] at hones
  exact absurd hones (by decide)

end KernelLabs.PageWalks

import KernelLabs.PageWalks

/-!
The size of the memory that i386_detect_memory computes from the CMOS, and the conversions
between pages, physical addresses and kernel addresses on a machine of that size. The probe
can report more than 4 GB. Only 256 MB fit above KERNBASE, and the conversions check the page
number against npages alone, so they are inverse exactly for the first 65536 pages: the
kernel address of a later page wraps around to the user's half, and from 4 GB on its physical
address is that of another page.
-/
namespace KernelLabs.MemoryProbe

open PageWords PhysPages KernelWords BitVec

/-- The bytes of the CMOS, as mc146818_read returns them. -/
abbrev Cmos := ℕ → BitVec 8

def NVRAM_BASELO : ℕ := 0x15

def NVRAM_EXTLO : ℕ := 0x17

def NVRAM_EXT16LO : ℕ := 0x34

def nvramRead (cmos : Cmos) (r : ℕ) : Word :=
  (cmos r).setWidth 32 ||| (cmos (r + 1)).setWidth 32 <<< 8

def i386DetectMemory (cmos : Cmos) : Word × Word :=
  let basemem := nvramRead cmos NVRAM_BASELO
  let extmem := nvramRead cmos NVRAM_EXTLO
  let ext16mem := nvramRead cmos NVRAM_EXT16LO * 64
  let totalmem :=
    if ext16mem ≠ 0 then 16 * 1024 + ext16mem
    else if extmem ≠ 0 then 1 * 1024 + extmem
    else basemem
  (totalmem / (pgsize / 1024), basemem / (pgsize / 1024))

def page2pa (pp : ℕ) : Word := BitVec.ofNat 32 pp <<< 12

def PADDR (kva : Word) : Except String Word :=
  if kva < KERNBASE then .error ("PADDR called with invalid kva " ++ kva.toHex)
  else .ok (kva - KERNBASE)

def KADDR (npages : Word) (pa : Word) : Except String Word :=
  if npages.toNat ≤ PGNUM pa then .error ("KADDR called with invalid pa " ++ pa.toHex)
  else .ok (pa + KERNBASE)

def pa2page (npages : Word) (pa : Word) : Except String ℕ :=
  if npages.toNat ≤ PGNUM pa then .error "pa2page called with invalid pa"
  else .ok (PGNUM pa)

def page2kva (npages : Word) (pp : ℕ) : Except String Word := KADDR npages (page2pa pp)

def frameOf (kva : Word) : Option ℕ := if KERNBASE ≤ kva then some (PGNUM (kva - KERNBASE)) else none

def cleared (npages : Word) (pp : ℕ) : Option ℕ :=
  match page2kva npages pp with
  | .error _ => none
  | .ok kva => frameOf kva

/-- The conversions of a page are inverse to each other, and page_alloc clears that page. -/
structure Inverse (npages : Word) (pp : ℕ) : Prop where
  kernel : ∃ kva, page2kva npages pp = .ok kva ∧ KERNBASE ≤ kva ∧ PADDR kva = .ok (page2pa pp)
  page : pa2page npages (page2pa pp) = .ok pp
  clears : cleared npages pp = some pp

theorem page2pa_toNat (pp : ℕ) : (page2pa pp).toNat = pp * 4096 % 2 ^ 32 := by
  rw [page2pa, toNat_shiftLeft, toNat_ofNat, Nat.shiftLeft_eq]
  omega

/-- The page number of a physical address is taken modulo 4 GB. -/
theorem PGNUM_page2pa (pp : ℕ) : PGNUM (page2pa pp) = pp % 2 ^ 20 := by
  rw [PGNUM_eq, page2pa_toNat]
  omega

theorem sub_KERNBASE_add (pa : Word) : pa + KERNBASE - KERNBASE = pa := by ring

/-- Only the first 256 MB have a kernel address at or above KERNBASE. -/
theorem kernel_iff (pa : Word) : KERNBASE ≤ pa + KERNBASE ↔ PGNUM pa < 65536 := by
  rw [le_def, toNat_add, KERNBASE_toNat, PGNUM_eq]
  have := pa.isLt
  omega

/-! ### The conversions on a machine of at most 256 MB -/

section Bounded

variable {M : MemSize} (s : Phys M) (a : Word)

theorem toNat_npages (M : MemSize) : (BitVec.ofNat 32 M.npages).toNat = M.npages := by
  have hmax := M.max
  rw [toNat_ofNat]
  omega

theorem outcome_PADDR : PanicMonad.outcome (BootMap.PADDR a) s = PADDR a := by
  unfold BootMap.PADDR PADDR
  split <;> rfl

theorem kaddr_imageOf : (PageWalks.imageOf s).kaddr a = KADDR (BitVec.ofNat 32 M.npages) a := by
  simp only [KADDR, toNat_npages, ← not_lt, ite_not]
  rfl

theorem pa2page_imageOf :
    (PageWalks.imageOf s).pa2page a = pa2page (BitVec.ofNat 32 M.npages) a := by
  simp only [pa2page, toNat_npages, ← not_lt, ite_not]
  rfl

end Bounded

/-- The conversions of a page of the machine are inverse exactly when the page lies in the
first 256 MB. -/
theorem conversions_inverse_iff (cmos : Cmos) {pp : ℕ}
    (hpp : pp < (i386DetectMemory cmos).1.toNat) :
    Inverse (i386DetectMemory cmos).1 pp ↔ pp < 65536 := by
  generalize (i386DetectMemory cmos).1 = npages at hpp
  have hnum := PGNUM_page2pa pp
  constructor
  · rintro ⟨⟨kva, hkva, hkernel, -⟩, hpage, -⟩
    rw [pa2page] at hpage
    split at hpage
    · cases hpage
    · have hsame : PGNUM (page2pa pp) = pp := Except.ok.inj hpage
      rw [page2kva, KADDR] at hkva
      split at hkva
      · cases hkva
      · rw [← Except.ok.inj hkva, kernel_iff, hsame] at hkernel
        exact hkernel
  · intro hlow
    have hsame : PGNUM (page2pa pp) = pp := by omega
    have hin : ¬ npages.toNat ≤ PGNUM (page2pa pp) := by omega
    have hkernel : KERNBASE ≤ page2pa pp + KERNBASE := by
      rw [kernel_iff, hsame]
      exact hlow
    have hkva : page2kva npages pp = .ok (page2pa pp + KERNBASE) := if_neg hin
    refine ⟨⟨_, hkva, hkernel, ?_⟩, ?_, ?_⟩
    · rw [PADDR, if_neg (BitVec.not_lt.mpr hkernel), sub_KERNBASE_add]
    · rw [pa2page, if_neg hin, hsame]
    · rw [cleared, hkva]
      change frameOf _ = _
      rw [frameOf, if_pos hkernel, sub_KERNBASE_add, hsame]

/-- A CMOS that reports the given size above 16 MB in units of 64 KB, and 640 KB of base
memory. -/
def cmosOf (ext16 : BitVec 16) : Cmos := fun r =>
  if r = NVRAM_EXT16LO then ext16.setWidth 8
  else if r = NVRAM_EXT16LO + 1 then (ext16 >>> 8).setWidth 8
  else if r = NVRAM_BASELO then 0x80
  else if r = NVRAM_BASELO + 1 then 0x02
  else 0

/-- The last page of a machine with 128 MB. -/
theorem conversions_inverse_128MB : Inverse (i386DetectMemory (cmosOf 0x700)).1 32767 :=
  (conversions_inverse_iff (cmosOf 0x700) (by decide)).mpr (by decide)

/-- On a machine with 512 MB, page_alloc's address of page 65536 is zero, and the machine
with the largest size that the CMOS can report has two pages with the physical address zero. -/
theorem conversions_wrap :
    (65536 < (i386DetectMemory (cmosOf 0x1F00)).1.toNat ∧
      page2kva (i386DetectMemory (cmosOf 0x1F00)).1 65536 = .ok 0 ∧
      ¬ Inverse (i386DetectMemory (cmosOf 0x1F00)).1 65536) ∧
    1048576 < (i386DetectMemory (cmosOf 0xFFFF)).1.toNat ∧
      pa2page (i386DetectMemory (cmosOf 0xFFFF)).1 (page2pa 1048576) = .ok 0 := by
  refine ⟨⟨by decide, by decide, fun h => ?_⟩, by decide, by decide⟩
  obtain ⟨kva, hkva, hkernel, -⟩ := h.kernel
  have hzero : page2kva (i386DetectMemory (cmosOf 0x1F00)).1 65536 = .ok 0 := by decide
  rw [hzero] at hkva
  rw [← Except.ok.inj hkva] at hkernel
  exact absurd hkernel (by decide)

end KernelLabs.MemoryProbe

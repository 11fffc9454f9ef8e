import KernelLabs.BootAlloc
import KernelLabs.PageDir
import KernelLabs.PageInit

/-!
mem_init up to the point where the kernel's part of the address space is mapped and
checked. boot_alloc hands out the memory behind the kernel, page_init makes the free
list, and boot_map_region enters three regions page by page into the tables that
pgdir_walk allocates: the pages array for the user to read, the boot stack below
KSTACKTOP, and all of physical memory from KERNBASE to the end of the address space.
The flag superpage sets one more bit in the entries and changes nothing else.

The array of PageInfo structures is kept apart from the words of memory. The tests of
the allocator that run after page_init are a parameter, and the messages that the
functions print are left out.
-/
namespace KernelLabs.BootMap

open PageWords PhysPages PageInit PageDir KernelWords BootAlloc

variable {M : MemSize}

def assert (c : Prop) [Decidable c] (text : String) : PmapM M Unit :=
  if c then return else throw ("assertion failed: " ++ text)

def PADDR (kva : Word) : PmapM M Word :=
  if kva < KERNBASE then throw ("PADDR called with invalid kva " ++ kva.toHex)
  else return kva - KERNBASE

def entryWord (pa perm : Word) (superpage : Bool) : Word :=
  if superpage then pa ||| perm ||| PTE_P ||| PTE_PS else pa ||| perm ||| PTE_P

def bootMapFrom (pgdir : Page M) (perm : Word) (superpage : Bool) : ℕ → Word → Word → PmapM M Unit
  | 0, _, _ => return
  | turns + 1, va, pa => do
    match ← pgdirWalk pgdir va true with
    | none => return
    | some entry =>
      modify fun s => s.setWord entry.1 entry.2 (entryWord pa perm superpage)
      bootMapFrom pgdir perm superpage turns (va + pgsize) (pa + pgsize)

def bootMapRegion (pgdir : Page M) (va size pa perm : Word) (superpage : Bool) : PmapM M Unit := do
  assert (va % pgsize = 0) "va % PGSIZE == 0"
  assert (pa % pgsize = 0) "pa % PGSIZE == 0"
  bootMapFrom pgdir perm superpage (size / pgsize).toNat va pa

def checkVa2pa (pgdir : Page M) (va : Word) : PmapM M Word := do
  let pde := (← get).mem pgdir (PDX va)
  if ¬ Present pde then
    return ~~~0
  else
    let table ← KADDR (PTE_ADDR pde)
    let pte := (← get).mem table (PTX va)
    if ¬ Present pte then
      return ~~~0
    else
      return PTE_ADDR pte

def pageOffsets (n : Word) : List Word :=
  (List.range ((n.toNat + 4095) / 4096)).map fun k => BitVec.ofNat 32 (k * 4096)

def checkDirEntry (pgdir : Page M) (i : Fin NPTENTRIES) : PmapM M Unit := do
  let pde := (← get).mem pgdir i
  if i = PDX UVPT ∨ i = PDX (KSTACKTOP - 1) ∨ i = PDX UPAGES then
    assert (Present pde) "pgdir[i] & PTE_P"
  else if PDX KERNBASE ≤ i then
    assert (Present pde) "pgdir[i] & PTE_P"
    assert (pde &&& PTE_W ≠ 0) "pgdir[i] & PTE_W"
  else
    assert (pde = 0) "pgdir[i] == 0"

def pagesBytes (M : MemSize) : Word := BitVec.ofNat 32 M.npages * 8

def checkKernPgdir (pgdir : Page M) (pages bootstack : Word) : PmapM M Unit := do
  (pageOffsets (ROUNDUP (pagesBytes M) pgsize)).forM fun i => do
    assert ((← checkVa2pa pgdir (UPAGES + i)) = (← PADDR pages) + i)
      "check_va2pa(pgdir, UPAGES + i) == PADDR(pages) + i"
  (pageOffsets (BitVec.ofNat 32 M.npages * pgsize)).forM fun i => do
    assert ((← checkVa2pa pgdir (KERNBASE + i)) = i) "check_va2pa(pgdir, KERNBASE + i) == i"
  (pageOffsets KSTKSIZE).forM fun i => do
    assert ((← checkVa2pa pgdir (KSTACKTOP - KSTKSIZE + i)) = (← PADDR bootstack) + i)
      "check_va2pa(pgdir, KSTACKTOP - KSTKSIZE + i) == PADDR(bootstack) + i"
  assert ((← checkVa2pa pgdir (KSTACKTOP - PTSIZE)) = ~~~0)
    "check_va2pa(pgdir, KSTACKTOP - PTSIZE) == ~0"
  (List.finRange NPTENTRIES).forM (checkDirEntry pgdir)

def CR4_PSE : Word := 0x010

/-- The register cr4 after check_pse, with the feature bits that cpuid reports. -/
def checkPse (edx cr4 : Word) : Word := if edx &&& 8 ≠ 0 then cr4 ||| CR4_PSE else cr4

/-- The addresses that the linker gives to `end` and `bootstack`. -/
structure Symbols where
  endAddr : Word
  bootstack : Word

def mapPagesArray (pgdir : Page M) (pages cr4 : Word) : PmapM M Unit := do
  if cr4 ≠ 0 then
    bootMapRegion pgdir UPAGES PTSIZE (← PADDR pages) PTE_U true
  else
    bootMapRegion pgdir UPAGES PTSIZE (← PADDR pages) PTE_U false

def mapBootStack (pgdir : Page M) (bootstack cr4 : Word) : PmapM M Unit := do
  if cr4 ≠ 0 then
    bootMapRegion pgdir (KSTACKTOP - KSTKSIZE) KSTKSIZE (← PADDR bootstack) PTE_W true
  else
    bootMapRegion pgdir (KSTACKTOP - KSTKSIZE) KSTKSIZE (← PADDR bootstack) PTE_W false

/-- The lines of mem_init that map the physical memory at KERNBASE, with the superpage
flag in both branches. -/
def mapPhysicalMemory (pgdir : Page M) (cr4 : Word) : PmapM M Unit :=
  if cr4 ≠ 0 then
    bootMapRegion pgdir KERNBASE (0xffffffff - KERNBASE + 1) 0 PTE_W true
  else
    bootMapRegion pgdir KERNBASE (0xffffffff - KERNBASE + 1) 0 PTE_W true

/-- The lines of mem_init before check_kern_pgdir. The argument `checks` stands for the
three tests of the allocator. The result is the page of kern_pgdir and the address of the
pages array. -/
def mapMemory (sym : Symbols) (checks : Page M → PmapM M Unit) (edx cr4 : Word) :
    PmapM M (Page M × Word) := do
  let (kern, nextfree) ← ofExcept <| bootAlloc sym.endAddr 0 pgsize
  let dirAddr ← PADDR kern
  -- the stores through kern_pgdir reach a page of the memory
  let pgdir ← KADDR dirAddr
  modify fun s => s.zeroPage pgdir
  modify fun s => s.setWord pgdir (PDX UVPT) (dirAddr ||| PTE_U ||| PTE_P)
  let (pages, nextfree) ← ofExcept <| bootAlloc sym.endAddr nextfree (pagesBytes M)
  modify fun s => { s with pages := fun _ => ⟨none, 0⟩ }
  let (first, _) ← ofExcept <| bootAlloc sym.endAddr nextfree 0
  let firstAddr ← PADDR first
  modify (pageInit (firstAddr / pgsize).toNat)
  checks pgdir
  let cr4 := checkPse edx cr4
  mapPagesArray pgdir pages cr4
  mapBootStack pgdir sym.bootstack cr4
  mapPhysicalMemory pgdir cr4
  return (pgdir, pages)

def memInit (sym : Symbols) (checks : Page M → PmapM M Unit) (edx cr4 : Word) :
    PmapM M (Page M × Word) := do
  let (pgdir, pages) ← mapMemory sym checks edx cr4
  checkKernPgdir pgdir pages sym.bootstack
  return (pgdir, pages)

end KernelLabs.BootMap

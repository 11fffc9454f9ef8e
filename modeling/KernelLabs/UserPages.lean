import KernelLabs.MachineWords
import KernelLabs.PageWords

/-!
User memory in xv6: the page allocator of kalloc.c and the page tables of vm.c. A
kernel pointer to a page is the number of its physical page frame, so that V2P and
P2V are the scaling by PGSIZE; a `pte_t *` is a frame with an index of one of its
words. Addresses are naturals below 2^32, reduced where the code may leave that range.

kmem.freelist is kept as the list of its frames. kalloc may fail although the list is
not empty, since other parts of the kernel take pages too: the state holds a list of
answers, and every call of kalloc uses up one of them.
-/
namespace KernelLabs.UserPages

open MachineWords PageWords Function

abbrev Frame := ℕ

def KERNBASE : ℕ := 0x80000000
def EXTMEM : ℕ := 0x100000
def PHYSTOP : ℕ := 0xE000000
def DEVSPACE : ℕ := 0xFE000000
def KERNLINK : ℕ := KERNBASE + EXTMEM

/-- The symbols data and end of kernel.ld: data is page aligned and follows the text,
which is not empty, and the kernel ends within the physical memory. -/
structure Layout where
  data : ℕ
  finish : ℕ
  aligned : data % PGSIZE = 0
  text : KERNLINK < data
  data_lt : data < finish
  finish_le : finish ≤ KERNBASE + PHYSTOP

structure Vm where
  mem : Frame → Fin NPTENTRIES → Word
  freelist : List Frame
  deny : List Bool

abbrev VmM := EStateM String Vm

def pdx (va : ℕ) : Fin NPTENTRIES := ⟨va / 2 ^ 22 % NPTENTRIES, Nat.mod_lt _ (by decide)⟩

def ptx (va : ℕ) : Fin NPTENTRIES := ⟨va / 2 ^ 12 % NPTENTRIES, Nat.mod_lt _ (by decide)⟩

def PGROUNDUP (sz : ℕ) : ℕ := uint32 (sz + PGSIZE - 1) / PGSIZE * PGSIZE

def PGROUNDDOWN (a : ℕ) : ℕ := a / PGSIZE * PGSIZE

def entry (pa : ℕ) (perm : Word) : Word := BitVec.ofNat 32 pa ||| perm ||| PTE_P

namespace Vm

def setWord (s : Vm) (f : Frame) (j : Fin NPTENTRIES) (w : Word) : Vm :=
  { s with mem := update s.mem f (update (s.mem f) j w) }

def setPage (s : Vm) (f : Frame) (words : Fin NPTENTRIES → Word) : Vm :=
  { s with mem := update s.mem f words }

end Vm

def kalloc : VmM (Option Frame) := do
  let s ← get
  match s.deny, s.freelist with
  | true :: deny, _ =>
    set { s with deny := deny }
    return none
  | deny, [] =>
    set { s with deny := deny.tail }
    return none
  | deny, r :: rest =>
    set { s with freelist := rest, deny := deny.tail }
    return some r

variable (L : Layout)

/-- The frames that kfree accepts, all of them page aligned. -/
def Freeable (v : ℕ) : Prop := ¬ (v * PGSIZE + KERNBASE < L.finish ∨ PHYSTOP ≤ v * PGSIZE)

instance (v : ℕ) : Decidable (Freeable L v) := by
  unfold Freeable
  infer_instance

def kfree (v : Frame) : VmM Unit := do
  if ¬ Freeable L v then
    throw "kfree"
  else
    modify fun s => s.setPage v fun _ => 0x01010101
    modify fun s => { s with freelist := v :: s.freelist }

def walkpgdir (pgdir : Frame) (va : ℕ) (alloc : Bool) :
    VmM (Option (Frame × Fin NPTENTRIES)) := do
  let pde := (← get).mem pgdir (pdx va)
  if Present pde then
    return some (PGNUM (PTE_ADDR pde), ptx va)
  else if !alloc then
    return none
  else
    match ← kalloc with
    | none => return none
    | some pgtab =>
      modify fun s => s.setPage pgtab fun _ => 0
      modify fun s => s.setWord pgdir (pdx va) (entry (pgtab * PGSIZE) (PTE_W ||| PTE_U))
      return some (pgtab, ptx va)

def mapPage (pgdir : Frame) (a pa : ℕ) (perm : Word) : VmM ℤ := do
  match ← walkpgdir pgdir a true with
  | none => return -1
  | some (table, j) =>
    if Present ((← get).mem table j) then
      throw "remap"
    else
      modify fun s => s.setWord table j (entry pa perm)
      return 0

/-- The loop of mappages; an address space has 2^20 pages, so that its turns are fewer
than that whatever the last address is. -/
def mapFrom (pgdir : Frame) (last : ℕ) (perm : Word) : ℕ → ℕ → ℕ → VmM ℤ
  | 0, _, _ => throw "mappages does not end"
  | turns + 1, a, pa => do
    if (← mapPage pgdir a pa perm) < 0 then
      return -1
    else if a = last then
      return 0
    else
      mapFrom pgdir last perm turns (uint32 (a + PGSIZE)) (uint32 (pa + PGSIZE))

def mappages (pgdir : Frame) (va size pa : ℕ) (perm : Word) : VmM ℤ :=
  mapFrom pgdir (PGROUNDDOWN (uint32 (va + size + 2 ^ 32 - 1))) perm (2 ^ 20) (PGROUNDDOWN va) pa

/-- The loop of deallocuvm. The assignment that skips the rest of a directory entry
goes one page back, because the increment of the loop follows it. -/
def deallocFrom (pgdir : Frame) (oldsz : ℕ) : ℕ → ℕ → VmM Unit
  | 0, _ => throw "deallocuvm does not end"
  | turns + 1, a => do
    if a < oldsz then
      match ← walkpgdir pgdir a false with
      | none =>
        let a := uint32 (((pdx a).val + 1) * 2 ^ 22 + 2 ^ 32 - PGSIZE)
        deallocFrom pgdir oldsz turns (uint32 (a + PGSIZE))
      | some (table, j) =>
        let pte := (← get).mem table j
        if Present pte then
          if PTE_ADDR pte = 0 then
            throw "kfree"
          else
            kfree L (PGNUM (PTE_ADDR pte))
            modify fun s => s.setWord table j 0
            deallocFrom pgdir oldsz turns (uint32 (a + PGSIZE))
        else
          deallocFrom pgdir oldsz turns (uint32 (a + PGSIZE))
    else
      return

def deallocuvm (pgdir : Frame) (oldsz newsz : ℕ) : VmM ℕ := do
  if oldsz ≤ newsz then
    return oldsz
  else
    deallocFrom L pgdir oldsz (2 ^ 20) (PGROUNDUP newsz)
    return newsz

def freeTables (pgdir : Frame) : List (Fin NPTENTRIES) → VmM Unit
  | [] => return
  | i :: rest => do
    let pde := (← get).mem pgdir i
    if Present pde then
      kfree L (PGNUM (PTE_ADDR pde))
    freeTables pgdir rest

def freevm (pgdir : Frame) : VmM Unit := do
  let _ ← deallocuvm L pgdir KERNBASE 0
  freeTables L pgdir (List.finRange NPTENTRIES)
  kfree L pgdir

/-- The table of the kernel's mappings: virt, phys_start, phys_end and perm. -/
structure Kmap where
  virt : ℕ
  physStart : ℕ
  physEnd : ℕ
  perm : Word

def kmap : List Kmap :=
  [⟨KERNBASE, 0, EXTMEM, PTE_W⟩, ⟨KERNLINK, KERNLINK - KERNBASE, L.data - KERNBASE, 0⟩,
    ⟨L.data, L.data - KERNBASE, PHYSTOP, PTE_W⟩, ⟨DEVSPACE, DEVSPACE, 0, PTE_W⟩]

def mapKernel (pgdir : Frame) : List Kmap → VmM (Option Frame)
  | [] => return some pgdir
  | k :: rest => do
    if (← mappages pgdir k.virt (uint32 (k.physEnd + 2 ^ 32 - k.physStart)) k.physStart k.perm) < 0
    then
      freevm L pgdir
      return none
    else
      mapKernel pgdir rest

def setupkvm : VmM (Option Frame) := do
  match ← kalloc with
  | none => return none
  | some pgdir =>
    modify fun s => s.setPage pgdir fun _ => 0
    if DEVSPACE < PHYSTOP + KERNBASE then
      throw "PHYSTOP too high"
    else
      mapKernel L pgdir (kmap L)

def allocFrom (pgdir : Frame) (oldsz newsz : ℕ) : ℕ → ℕ → VmM ℕ
  | 0, _ => throw "allocuvm does not end"
  | turns + 1, a => do
    if a < newsz then
      match ← kalloc with
      | none =>
        let _ ← deallocuvm L pgdir newsz oldsz
        return 0
      | some frame =>
        modify fun s => s.setPage frame fun _ => 0
        if (← mappages pgdir a PGSIZE (frame * PGSIZE) (PTE_W ||| PTE_U)) < 0 then
          let _ ← deallocuvm L pgdir newsz oldsz
          kfree L frame
          return 0
        else
          allocFrom pgdir oldsz newsz turns (uint32 (a + PGSIZE))
    else
      return newsz

def allocuvm (pgdir : Frame) (oldsz newsz : ℕ) : VmM ℕ := do
  if KERNBASE ≤ newsz then
    return 0
  else if newsz < oldsz then
    return oldsz
  else
    allocFrom L pgdir oldsz newsz (2 ^ 20) (PGROUNDUP oldsz)

def pteFlags (pte : Word) : Word := pte &&& 0xFFF

def copyFrom (pgdir d : Frame) (sz : ℕ) : ℕ → ℕ → VmM (Option Frame)
  | 0, _ => throw "copyuvm does not end"
  | turns + 1, i => do
    if i < sz then
      match ← walkpgdir pgdir i false with
      | none => throw "copyuvm: pte should exist"
      | some (table, j) =>
        let pte := (← get).mem table j
        if ¬ Present pte then
          throw "copyuvm: page not present"
        else
          match ← kalloc with
          | none =>
            freevm L d
            return none
          | some frame =>
            modify fun s => s.setPage frame (s.mem (PGNUM (PTE_ADDR pte)))
            if (← mappages d i PGSIZE (frame * PGSIZE) (pteFlags pte)) < 0 then
              kfree L frame
              freevm L d
              return none
            else
              copyFrom pgdir d sz turns (uint32 (i + PGSIZE))
    else
      return some d

def copyuvm (pgdir : Frame) (sz : ℕ) : VmM (Option Frame) := do
  match ← setupkvm L with
  | none => return none
  | some d => copyFrom L pgdir d sz (2 ^ 20) 0

end KernelLabs.UserPages

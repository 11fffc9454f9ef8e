import KernelLabs.UserCopy

/-!
exec.c. The state is the memory with the page allocator, the fields of the current process that
exec writes, the inode that namei finds, with its references and its lock, and the number of
open transactions of the log. The content of the file is a list of bytes, so that readi is a
function of the content; the inode is not one of a device.

A file header and a program header are read from bytes in little-endian order. exec's jumps to
`bad` are calls of the function of that name with the directory and the inode that exec holds.
-/
namespace KernelLabs.ExecModel

open MachineWords PageWords UserPages UserSpace UserCopy

abbrev Byte := BitVec 8

/-- A string of a process, without its NUL. Memory of processes ends at KERNBASE. -/
structure CString where
  bytes : List Byte
  nonzero : ∀ b ∈ bytes, b ≠ 0
  fits : bytes.length < 2 ^ 31

/-- The fields of a process that exec reads or writes. -/
structure ExecProc where
  pgdir : Frame
  sz : ℕ
  eip : ℕ
  esp : ℕ
  name : List Char

structure ExecState where
  vm : Vm
  proc : ExecProc
  ref : ℕ
  locked : Bool
  outstanding : ℕ

abbrev ExecM := EStateM String ExecState

def liftVm {α : Type} (x : VmM α) : ExecM α := fun s =>
  match x.run s.vm with
  | .ok a vm => .ok a { s with vm := vm }
  | .error e vm => .error e { s with vm := vm }

/-! ### The log and the inode -/

def beginOp : ExecM Unit := modify fun s => { s with outstanding := s.outstanding + 1 }

def endOp : ExecM Unit := modify fun s => { s with outstanding := s.outstanding - 1 }

def takeRef : ExecM Unit := modify fun s => { s with ref := s.ref + 1 }

def ilock : ExecM Unit := do
  if (← get).ref < 1 then
    throw "ilock"
  else
    modify fun s => { s with locked := true }

def iunlockput : ExecM Unit := do
  let s ← get
  if s.locked = false ∨ s.ref < 1 then
    throw "iunlock"
  else
    modify fun s => { s with locked := false, ref := s.ref - 1 }

def readi (file : List Byte) (off n : ℕ) : Option (List Byte) :=
  if file.length < off ∨ uint32 (off + n) < off then none
  else some ((file.drop off).take n)

/-! ### Headers -/

def leValue : List Byte → ℕ
  | [] => 0
  | b :: rest => b.toNat + 256 * leValue rest

def field (bytes : List Byte) (off n : ℕ) : ℕ := leValue ((bytes.drop off).take n)

def ELF_MAGIC : ℕ := 0x464C457F

def ELF_PROG_LOAD : ℕ := 1

def MAXARG : ℕ := 32

structure Elfhdr where
  magic : ℕ
  entry : ℕ
  phoff : ℕ
  phnum : ℕ

def elfhdrSize : ℕ := 52

def elfhdr (bytes : List Byte) : Elfhdr where
  magic := field bytes 0 4
  entry := field bytes 24 4
  phoff := field bytes 28 4
  phnum := field bytes 44 2

structure Proghdr where
  type : ℕ
  off : ℕ
  vaddr : ℕ
  filesz : ℕ
  memsz : ℕ

def proghdrSize : ℕ := 32

def proghdr (bytes : List Byte) : Proghdr where
  type := field bytes 0 4
  off := field bytes 4 4
  vaddr := field bytes 8 4
  filesz := field bytes 16 4
  memsz := field bytes 20 4

def readAll (file : List Byte) (off n : ℕ) : Option (List Byte) :=
  (readi file off n).filter fun bytes => bytes.length = n

def readHeader (file : List Byte) : Option Elfhdr :=
  match readAll file 0 elfhdrSize with
  | none => none
  | some bytes => if (elfhdr bytes).magic ≠ ELF_MAGIC then none else some (elfhdr bytes)

/-! ### Loading -/

def loadFrom (file : List Byte) (pgdir : Frame) (addr offset sz : ℕ) : ℕ → ℕ → VmM ℤ
  | 0, _ => throw "loaduvm does not end"
  | turns + 1, i => do
    if i < sz then
      match ← walkpgdir pgdir (uint32 (addr + i)) false with
      | none => throw "loaduvm: address should exist"
      | some (table, j) =>
        let pa := PGNUM (PTE_ADDR ((← get).mem table j))
        let n := if sz - i < PGSIZE then sz - i else PGSIZE
        match readi file (uint32 (offset + i)) n with
        | none => return -1
        | some bytes =>
          modify fun s => s.setPage pa (poke (s.mem pa) 0 bytes)
          if bytes.length ≠ n then
            return -1
          else
            loadFrom file pgdir addr offset sz turns (uint32 (i + PGSIZE))
    else
      return 0

def loaduvm (file : List Byte) (pgdir : Frame) (addr offset sz : ℕ) : VmM ℤ := do
  if addr % PGSIZE ≠ 0 then
    throw "loaduvm: addr must be page aligned"
  else
    loadFrom file pgdir addr offset sz (2 ^ 20) 0

variable (L : Layout)

/-- The loop of exec over the program headers: the size of the image, or none for `goto bad`. -/
def loadSegments (file : List Byte) (pgdir : Frame) : ℕ → ℕ → ℕ → VmM (Option ℕ)
  | 0, _, sz => return some sz
  | phnum + 1, off, sz => do
    match readAll file off proghdrSize with
    | none => return none
    | some bytes =>
      let ph := proghdr bytes
      if ph.type ≠ ELF_PROG_LOAD then
        loadSegments file pgdir phnum (uint32 (off + proghdrSize)) sz
      else if ph.memsz < ph.filesz then
        return none
      else if uint32 (ph.vaddr + ph.memsz) < ph.vaddr then
        return none
      else
        let sz ← allocuvm L pgdir sz (uint32 (ph.vaddr + ph.memsz))
        if sz = 0 then
          return none
        else if ph.vaddr % PGSIZE ≠ 0 then
          return none
        else if (← loaduvm file pgdir ph.vaddr ph.off ph.filesz) < 0 then
          return none
        else
          loadSegments file pgdir phnum (uint32 (off + proghdrSize)) sz

/-! ### The stack -/

def leBytes (w : ℕ) : List Byte :=
  [BitVec.ofNat 8 w, BitVec.ofNat 8 (w / 2 ^ 8), BitVec.ofNat 8 (w / 2 ^ 16),
    BitVec.ofNat 8 (w / 2 ^ 24)]

/-- The loop that pushes the strings: the stack pointer and the addresses of the strings, or none
for `goto bad`. -/
def pushArgs (pgdir : Frame) : List CString → ℕ → ℕ → VmM (Option (ℕ × List ℕ))
  | [], _, sp => return some (sp, [])
  | arg :: rest, argc, sp => do
    if MAXARG ≤ argc then
      return none
    else
      let sp := uint32 (sp + 2 ^ 32 - (arg.bytes.length + 1)) / 4 * 4
      if (← copyout pgdir sp (arg.bytes ++ [0])) < 0 then
        return none
      else
        match ← pushArgs pgdir rest (argc + 1) sp with
        | none => return none
        | some (last, ptrs) => return some (last, sp :: ptrs)

def ustack (argc sp : ℕ) (ptrs : List ℕ) : List ℕ :=
  [0xffffffff, argc, uint32 (sp + 2 ^ 32 - (argc + 1) * 4)] ++ ptrs ++ [0]

/-- The part of exec after the file is closed: the size and the stack pointer, or none for
`goto bad`. -/
def buildStack (pgdir : Frame) (size : ℕ) (argv : List CString) : VmM (Option (ℕ × ℕ)) := do
  let sz ← allocuvm L pgdir (PGROUNDUP size) (uint32 (PGROUNDUP size + 2 * PGSIZE))
  if sz = 0 then
    return none
  else
    clearpteu pgdir (uint32 (sz + 2 ^ 32 - 2 * PGSIZE))
    match ← pushArgs pgdir argv 0 sz with
    | none => return none
    | some (sp, ptrs) =>
      let argc := argv.length
      let newsp := uint32 (sp + 2 ^ 32 - (3 + argc + 1) * 4)
      if (← copyout pgdir newsp ((ustack argc sp ptrs).flatMap leBytes)) < 0 then
        return none
      else
        return some (sz, newsp)

/-! ### exec -/

/-- The rest of a path behind its last slash; `last` is what follows the last one so far. -/
def lastElement (last : List Char) : List Char → List Char
  | [] => last
  | c :: rest => if c = '/' then lastElement rest rest else lastElement last rest

def bad (pgdir : Option Frame) (ip : Bool) : ExecM ℤ := do
  match pgdir with
  | some d => liftVm (freevm L d)
  | none => pure ()
  if ip then
    iunlockput
    endOp
  return -1

/-- The commitment to the new image. switchuvm, which loads the directory, leaves the memory
alone. -/
def commit (path : List Char) (pgdir sz entry sp : ℕ) : ExecM ℤ := do
  let oldpgdir := (← get).proc.pgdir
  modify fun s => { s with proc := ⟨pgdir, sz, entry, sp, (lastElement path path).take 15⟩ }
  liftVm (freevm L oldpgdir)
  return 0

/-- exec of a path at which namei finds the file `ip`, or nothing. -/
def exec (ip : Option (List Byte)) (path : List Char) (argv : List CString) : ExecM ℤ := do
  beginOp
  match ip with
  | none =>
    endOp
    return -1
  | some file =>
    takeRef
    ilock
    match readHeader file with
    | none => bad L none true
    | some elf =>
      match ← liftVm (setupkvm L) with
      | none => bad L none true
      | some pgdir =>
        match ← liftVm (loadSegments L file pgdir elf.phnum elf.phoff 0) with
        | none => bad L (some pgdir) true
        | some size =>
          iunlockput
          endOp
          match ← liftVm (buildStack L pgdir size argv) with
          | none => bad L (some pgdir) false
          | some (sz, sp) => commit L path pgdir sz elf.entry sp

end KernelLabs.ExecModel

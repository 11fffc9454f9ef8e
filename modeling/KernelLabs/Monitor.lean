import KernelLabs.MemoryBytes

/-!
The kernel monitor of lab3: the interpreter of command lines and the commands in
kern/monitor.c. A command runs on the physical memory and the console until it returns or
stops: by a panic, by a page fault, or because it uses an argument that the command line does
not have. The loops over a range of addresses are given a number of rounds, and a loop that
still runs when these are used up stops as well, so that a loop without an end is one that
stops so for every number of rounds.

A line on the console is its format with the values that were printed. The symbols of the
linker that kerninfo prints are a parameter.
-/
namespace KernelLabs.Monitor

open PageWords PhysPages PageDir KernelWords AddressSpace MemoryBytes EStateM

variable {M : MemSize}

/-- A value that cprintf is given. -/
inductive Arg
  | x (w : Word)
  | d (n : ℤ)
  | s (text : String)
  deriving DecidableEq

/-- What a command works on, with the lines on the console, the last one first. -/
structure Mon (M : MemSize) where
  phys : Phys M
  console : List (String × List Arg)

inductive Stop
  | panic (text : String)
  | pageFault (va : Word)
  | badArgument (i : ℕ)
  | running
  deriving DecidableEq

abbrev MonM (M : MemSize) := EStateM Stop (Mon M)

/-- The page of kern_pgdir, what is read outside of the memory, and the kernel's symbols
with their names. -/
structure Machine (M : MemSize) where
  kernPgdir : Page M
  io : Word → BitVec 8
  symStart : Word
  symEntry : Word
  symEtext : Word
  symEdata : Word
  symEnd : Word

variable (m : Machine M)

def pmap {α : Type} (f : PmapM M α) : MonM M α := fun s =>
  match f.run s.phys with
  | .ok a t => .ok a { s with phys := t }
  | .error e t => .error (.panic e) { s with phys := t }

def cprintf (format : String) (args : List Arg) : MonM M Unit :=
  modify fun s => { s with console := (format, args) :: s.console }

def arg (argv : List String) (i : ℕ) : MonM M String :=
  match argv[i]? with
  | some text => return text
  | none => throw (.badArgument i)

def hexDigit (result : Word) (c : Char) : Word :=
  if '0' ≤ c ∧ c ≤ '9' then result * 16 + BitVec.ofNat 32 (c.toNat - '0'.toNat)
  else if 'a' ≤ c ∧ c ≤ 'f' then result * 16 + BitVec.ofNat 32 (c.toNat - 'a'.toNat + 10)
  else if 'A' ≤ c ∧ c ≤ 'F' then result * 16 + BitVec.ofNat 32 (c.toNat - 'A'.toNat + 10)
  else result

/-- Hexadecimal digits; every other character is skipped. -/
def convert2int (text : String) : Word := text.toList.foldl hexDigit 0

def virtual2physical (va : Word) : PmapM M Word := do
  match ← pgdirWalk m.kernPgdir va false with
  | none => return -1
  | some pte => return PTE_ADDR ((← get).mem pte.1 pte.2) + PGOFF va

/-- The kernel address of a physical address, after the test in KADDR. -/
def physical2virtual (pa : Word) : PmapM M Word := do
  let _ ← KADDR pa
  return pa + KERNBASE

def extractperm (pte : Word) : String :=
  String.ofList [if pte &&& PTE_P ≠ 0 then 'P' else '-', if pte &&& PTE_W ≠ 0 then 'W' else '-',
    if pte &&& PTE_U ≠ 0 then 'U' else '-']

def getperm (va : Word) : PmapM M (Option String) := do
  match ← pgdirWalk m.kernPgdir va false with
  | none => return none
  | some pte => return some (extractperm ((← get).mem pte.1 pte.2))

/-- pgdir_walk with create = 1 and the panic that follows when it returns null. -/
def walkCreate (va : Word) : MonM M (PtePtr M) := do
  match ← pmap (pgdirWalk m.kernPgdir va true) with
  | none => throw (.panic "page table entry not found - out of memory?")
  | some pte => return pte

def rangeLoop (step stop : Word) (body : Word → MonM M Unit) : ℕ → Word → MonM M Unit
  | 0, _ => throw .running
  | n + 1, start =>
    if start ≤ stop then do
      body start
      rangeLoop step stop body n (start + step)
    else return

def printMapping (va : Word) (pte : PtePtr M) : MonM M Unit := do
  if Present ((← get).phys.mem pte.1 pte.2) then
    cprintf "virtual page: %x " [.x va]
    cprintf "physical page: %x " [.x (← pmap (virtual2physical m va))]
    cprintf "permission: %s \n" [.s ((← pmap (getperm m va)).getD "(null)")]
  else
    cprintf "page don't exist: %x\n" [.x va]

def showMapping (va : Word) : MonM M Unit := do
  let pte ← walkCreate m va
  printMapping m va pte

def monShowmappings (rounds : ℕ) (argv : List String) : MonM M ℤ := do
  if argv.length = 1 then
    cprintf "The function takes two arguments - beginning address and end address\n" []
    return 0
  else
    let start := convert2int (← arg argv 1)
    let stop := convert2int (← arg argv 2)
    cprintf "start address: %x, end address: %x\n" [.x start, .x stop]
    rangeLoop pgsize stop (showMapping m) rounds start
    return 0

def printPermission (pte : Word) : MonM M Unit :=
  cprintf "PTE_P: %d, PTE_W: %d, PTE_U: %d \r \n"
    [.d (if pte &&& PTE_P ≠ 0 then 1 else 0), .d (if pte &&& PTE_W ≠ 0 then 1 else 0),
      .d (if pte &&& PTE_U ≠ 0 then 1 else 0)]

def permBit (text : String) : Word :=
  match text.toList.head? with
  | some 'P' => PTE_P
  | some 'W' => PTE_W
  | some 'U' => PTE_U
  | _ => 0

/-- The new entry: a first character 0 clears the bit, everything else sets it. -/
def permEntry (clear perm : String) (pte : Word) : Word :=
  if clear.toList.head? = some '0' then pte &&& ~~~permBit perm else pte ||| permBit perm

def monSetperm (argv : List String) : MonM M ℤ := do
  if argv.length = 1 then
    cprintf "The function takes three arguments - addresss, clear/set and permission\n" []
    return 0
  else
    let addr := convert2int (← arg argv 1)
    let pte ← walkCreate m addr
    cprintf "%x before setperm: " [.x addr]
    printPermission ((← get).phys.mem pte.1 pte.2)
    let perm ← arg argv 3
    let clear ← arg argv 2
    modify fun s => { s with
      phys := s.phys.setWord pte.1 pte.2 (permEntry clear perm (s.phys.mem pte.1 pte.2)) }
    cprintf "%x after setperm: " [.x addr]
    printPermission ((← get).phys.mem pte.1 pte.2)
    return 0

def load (va : Word) : MonM M Word := do
  match load32 (← get).phys m.kernPgdir m.io va with
  | .ok w => return w
  | .error fault => throw (.pageFault fault)

def dumpLine (format : String) (va : Word) : MonM M Unit := do
  let w₀ ← load m va
  let w₁ ← load m (va + 1)
  let w₂ ← load m (va + 2)
  let w₃ ← load m (va + 3)
  cprintf format [.x va, .x w₀, .x w₁, .x w₂, .x w₃]

def utop : Word := BitVec.ofNat 32 UTOP

def dumpRange (format : String) (rounds : ℕ) (start stop : Word) : MonM M ℤ := do
  cprintf "start address: %x, end address: %x\n" [.x start, .x stop]
  rangeLoop 4 stop (dumpLine m format) rounds start
  return 0

def monDumpv (rounds : ℕ) (argv : List String) : MonM M ℤ := do
  if argv.length = 1 then
    cprintf "The function takes two arguments - beginning address and end address\n" []
    return 0
  else
    let start := convert2int (← arg argv 1)
    let stop := convert2int (← arg argv 2)
    if start > stop then
      cprintf "The start address should be less than the end address\n" []
      return 0
    else if start < utop then
      cprintf "The start address should be greater than UTOP\n" []
      return 0
    else if stop < utop then
      cprintf "The end address should be greater than UTOP\n" []
      return 0
    else
      dumpRange m "Virtual Address: %x contains %x %x %x %x \r \n" rounds start stop

def monDumpp (rounds : ℕ) (argv : List String) : MonM M ℤ := do
  if argv.length = 1 then
    cprintf "The function takes two arguments - beginning address and end address\n" []
    return 0
  else
    let start ← pmap (physical2virtual (convert2int (← arg argv 1)))
    let stop ← pmap (physical2virtual (convert2int (← arg argv 2)))
    if start > stop then
      cprintf "The start address should be less than the end address\n" []
      return 0
    else if start > utop then
      cprintf "The start address should be less than UTOP\n" []
      return 0
    else if stop > utop then
      cprintf "The end address should be less than UTOP\n" []
      return 0
    else
      dumpRange m "Physical Address: %x contains %x %x %x %x \r \n" rounds start stop

def monPagesize (argv : List String) : MonM M ℤ := do
  if argv.length = 1 then
    cprintf "The function takes one argument - address\n" []
    return 0
  else
    let addr := convert2int (← arg argv 1)
    let pte ← walkCreate m addr
    if (← get).phys.mem pte.1 pte.2 &&& PTE_PS ≠ 0 then
      cprintf "Page size: 4MB \r \n" []
    else
      cprintf "Page size: 4KB \r \n" []
    return 0

def store (va value : Word) : MonM M Unit := do
  match store32 (← get).phys m.kernPgdir va value with
  | .ok t => modify fun s => { s with phys := t }
  | .error fault => throw (.pageFault fault)

/-- The checks of mon_loadv and mon_loadp and the store, which is one of four bytes. -/
def loadAt (addr value size : Word) : MonM M ℤ := do
  let pte ← walkCreate m addr
  let entry := (← get).phys.mem pte.1 pte.2
  if ¬Present entry then throw (.panic "page not present")
  else if ¬entry &&& PTE_W ≠ 0 then throw (.panic "page not writable")
  else if size ≠ 1 ∧ size ≠ 2 ∧ size ≠ 4 then throw (.panic "invalid size")
  else if addr % size ≠ 0 then throw (.panic "address not aligned")
  else if size = 1 ∧ value > 0xff then throw (.panic "invalid value")
  else if size = 2 ∧ value > 0xffff then throw (.panic "invalid value")
  else if size = 4 ∧ value > 0xffffffff then throw (.panic "invalid value")
  else
    store m addr value
    return 0

def monLoadv (argv : List String) : MonM M ℤ := do
  if argv.length = 1 then
    cprintf "The function takes three arguments - address, value and size\n" []
    return 0
  else
    let addr := convert2int (← arg argv 1)
    let value := convert2int (← arg argv 2)
    let size := convert2int (← arg argv 3)
    loadAt m addr value size

def monLoadp (argv : List String) : MonM M ℤ := do
  if argv.length = 1 then
    cprintf "The function takes three arguments - address, value and size\n" []
    return 0
  else
    let addr ← pmap (physical2virtual (convert2int (← arg argv 1)))
    let value := convert2int (← arg argv 2)
    let size := convert2int (← arg argv 3)
    loadAt m addr value size

/-! ### The interpreter -/

inductive Command
  | help
  | kerninfo
  | showmappings
  | setperm
  | dumpv
  | dumpp
  | pagesize
  | loadv
  | loadp
  deriving DecidableEq

namespace Command

def table : List (Command × String × String) :=
  [(help, "help", "Display this list of commands"),
    (kerninfo, "kerninfo", "Display information about the kernel"),
    (showmappings, "showmappings",
      "Display the page mappings of the given virtual address range"),
    (setperm, "setperm", "Set the permission of the given virtual address range"),
    (dumpv, "dumpv", "Dump the content of the given virtual or physical address range"),
    (dumpp, "dumpp", "Dump the content of the given virtual or physical address range"),
    (pagesize, "pagesize", "Prints the page size"),
    (loadv, "loadv", "Modify a byte at given virtual memory"),
    (loadp, "loadp", "Modify a byte at given physical memory")]

end Command

def monHelp : MonM M ℤ := do
  Command.table.forM fun entry => cprintf "%s - %s\n" [.s entry.2.1, .s entry.2.2]
  return 0

def monKerninfo : MonM M ℤ := do
  cprintf "Special kernel symbols:\n" []
  cprintf "  _start                  %08x (phys)\n" [.x m.symStart]
  cprintf "  entry  %08x (virt)  %08x (phys)\n" [.x m.symEntry, .x (m.symEntry - KERNBASE)]
  cprintf "  etext  %08x (virt)  %08x (phys)\n" [.x m.symEtext, .x (m.symEtext - KERNBASE)]
  cprintf "  edata  %08x (virt)  %08x (phys)\n" [.x m.symEdata, .x (m.symEdata - KERNBASE)]
  cprintf "  end    %08x (virt)  %08x (phys)\n" [.x m.symEnd, .x (m.symEnd - KERNBASE)]
  cprintf "Kernel executable memory footprint: %dKB\n"
    [.d (((m.symEnd - m.symEntry).toNat + 1023) / 1024 : ℕ)]
  return 0

/-- The handler of a command; `argv` holds the name of the command first. -/
def Command.func (rounds : ℕ) (argv : List String) : Command → MonM M ℤ
  | .help => monHelp
  | .kerninfo => monKerninfo m
  | .showmappings => monShowmappings m rounds argv
  | .setperm => monSetperm m argv
  | .dumpv => monDumpv m rounds argv
  | .dumpp => monDumpp m rounds argv
  | .pagesize => monPagesize m argv
  | .loadv => monLoadv m argv
  | .loadp => monLoadp m argv

def isWhitespace (c : Char) : Bool := c = '\t' || c = '\r' || c = '\n' || c = ' '

def MAXARGS : ℕ := 16

/-- The loop of runcmd that splits the line, with the rounds that remain. There is no result
when the line has too many words. -/
def scanArgs : ℕ → List Char → List String → Option (List String)
  | 0, _, argv => some argv
  | n + 1, buf, argv =>
    match buf.dropWhile isWhitespace with
    | [] => some argv
    | c :: rest =>
      if argv.length = MAXARGS - 1 then none
      else
        scanArgs n ((c :: rest).dropWhile fun c => !isWhitespace c)
          (argv ++ [String.ofList ((c :: rest).takeWhile fun c => !isWhitespace c)])

def parseLine (line : List Char) : Option (List String) := scanArgs (line.length + 1) line []

def runcmd (rounds : ℕ) (line : List Char) : MonM M ℤ := do
  match parseLine line with
  | none =>
    cprintf "Too many arguments (max %d)\n" [.d MAXARGS]
    return 0
  | some [] => return 0
  | some (name :: args) =>
    match Command.table.find? fun entry => entry.2.1 == name with
    | some entry => entry.1.func m rounds (name :: args)
    | none =>
      cprintf "Unknown command '%s'\n" [.s name]
      return 0

/-! ### Runs -/

section Runs

variable {m} {α : Type} {f : PmapM M α} {s : Mon M} {va : Word} {table : Page M}

variable {t : Phys M}

theorem run_pmap_ok {a : α} (h : f.run s.phys = .ok a t) :
    (pmap f).run s = .ok a { s with phys := t } := by
  rw [EStateM.run, pmap, h]

theorem run_pmap_error {e : String} (h : f.run s.phys = .error e t) :
    (pmap f).run s = .error (.panic e) { s with phys := t } := by
  rw [EStateM.run, pmap, h]

theorem run_cprintf (format : String) (args : List Arg) :
    (cprintf format args).run s = .ok () { s with console := (format, args) :: s.console } := rfl

theorem tableOf_of_present {i : Fin NPTENTRIES} (h : Present (t.mem m.kernPgdir i))
    (hlt : PGNUM (t.mem m.kernPgdir i) < M.npages) :
    tableOf t m.kernPgdir i = some ⟨PGNUM (t.mem m.kernPgdir i), hlt⟩ := by
  rw [tableOf, decode, if_pos h, dif_pos hlt]
  rfl

theorem run_walkCreate_table (h : tableOf s.phys m.kernPgdir (PDX va) = some table) :
    (walkCreate m va).run s = .ok (table, PTX va) s := by
  rw [walkCreate, run_bind, run_pmap_ok (run_pgdirWalk_table h true)]
  rfl

theorem run_walkCreate_alloc {q : Page M} (h : ¬Present (s.phys.mem m.kernPgdir (PDX va)))
    (hfree : s.phys.freeList = some q) :
    (walkCreate m va).run s =
      .ok (q, PTX va) { s with phys := addTable s.phys m.kernPgdir (PDX va) q } := by
  rw [walkCreate, run_bind, run_pmap_ok (run_pgdirWalk_alloc h hfree)]
  rfl

theorem run_walkCreate_full (h : ¬Present (s.phys.mem m.kernPgdir (PDX va)))
    (hfree : s.phys.freeList = none) :
    (walkCreate m va).run s =
      .error (.panic "page table entry not found - out of memory?") s := by
  rw [walkCreate, run_bind, run_pmap_ok (run_pgdirWalk_full h hfree)]
  rfl

/-- A directory entry that names no page of the memory makes KADDR panic. -/
theorem run_walkCreate_invalid (h : Present (s.phys.mem m.kernPgdir (PDX va)))
    (hrange : ¬PGNUM (s.phys.mem m.kernPgdir (PDX va)) < M.npages) :
    (walkCreate m va).run s = .error (.panic ("KADDR called with invalid pa " ++
      (PTE_ADDR (s.phys.mem m.kernPgdir (PDX va))).toHex)) s := by
  have hwalk : (pgdirWalk m.kernPgdir va true).run s.phys =
      .error ("KADDR called with invalid pa " ++
        (PTE_ADDR (s.phys.mem m.kernPgdir (PDX va))).toHex) s.phys := by
    rw [← PGNUM_PTE_ADDR] at hrange
    simp only [pgdirWalk, run_bind, run_get, if_neg (not_not_intro h), walkTable,
      KADDR, dif_neg hrange]
    rfl
  rw [walkCreate, run_bind, run_pmap_error hwalk]

theorem run_virtual2physical (h : tableOf t m.kernPgdir (PDX va) = some table) :
    (virtual2physical m va).run t = .ok (PTE_ADDR (t.mem table (PTX va)) + PGOFF va) t := by
  rw [virtual2physical, run_bind, run_pgdirWalk_table h false]
  rfl

theorem run_getperm (h : tableOf t m.kernPgdir (PDX va) = some table) :
    (getperm m va).run t = .ok (some (extractperm (t.mem table (PTX va)))) t := by
  rw [getperm, run_bind, run_pgdirWalk_table h false]
  rfl

def mappingLines (va pte : Word) : List (String × List Arg) :=
  if Present pte then
    [("permission: %s \n", [.s (extractperm pte)]),
      ("physical page: %x ", [.x (PTE_ADDR pte + PGOFF va)]), ("virtual page: %x ", [.x va])]
  else [("page don't exist: %x\n", [.x va])]

theorem run_showMapping_table (h : tableOf s.phys m.kernPgdir (PDX va) = some table) :
    (showMapping m va).run s = .ok ()
      { s with console := mappingLines va (s.phys.mem table (PTX va)) ++ s.console } := by
  rw [showMapping, run_bind, run_walkCreate_table h]
  simp only [printMapping, run_bind, run_get]
  by_cases hpresent : Present (s.phys.mem table (PTX va))
  · have hphys : ∀ lines : List (String × List Arg),
        (pmap (virtual2physical m va)).run (⟨s.phys, lines⟩ : Mon M) =
          .ok (PTE_ADDR (s.phys.mem table (PTX va)) + PGOFF va) ⟨s.phys, lines⟩ :=
      fun lines => run_pmap_ok (run_virtual2physical h)
    have hperm : ∀ lines : List (String × List Arg),
        (pmap (getperm m va)).run (⟨s.phys, lines⟩ : Mon M) =
          .ok (some (extractperm (s.phys.mem table (PTX va)))) ⟨s.phys, lines⟩ :=
      fun lines => run_pmap_ok (run_getperm h)
    simp only [if_pos hpresent, run_bind, run_cprintf, hphys, hperm, mappingLines]
    rfl
  · rw [if_neg hpresent, run_cprintf, mappingLines, if_neg hpresent]
    rfl

end Runs

end KernelLabs.Monitor

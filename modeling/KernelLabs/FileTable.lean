import KernelLabs.PanicMonad
import KernelLabs.ProcTable

/-!
The open files of file.c and the system calls of sysfile.c and proc.c that make,
copy and drop descriptors: open, dup, close, pipe, fork and exit. A `struct file *`
is the index of its ftable entry, and the descriptor tables of all processes are one
map from a slot and a descriptor. A call runs in a state monad whose errors are the
kernel's panics, and returns nothing where the source returns -1.

What lies outside the tables enters through the arguments: the inode that namei or
create finds, the page that kalloc gives to a pipe, and the outcome of fork's
allocations. The calls of pipeclose and iput that fileclose and open make are kept in
the order in which they are made; the current directory, which fork and exit pass on
and give back, is not a descriptor and is left out. The count of a file is an int; it never exceeds the
number of descriptors, so it is an integer without a bound here.
-/
namespace KernelLabs.FileTable

open ProcTable PanicMonad

abbrev NFILE : ℕ := 100

abbrev NOFILE : ℕ := 16

abbrev FileId := Fin NFILE

abbrev Fd := Fin NOFILE

abbrev Inum := ℕ

abbrev PipeId := ℕ

inductive FdType
  | none | pipe | inode
  deriving DecidableEq, Repr

structure File where
  type : FdType
  ref : ℤ
  readable : Bool
  writable : Bool
  pipe : PipeId
  ip : Inum
  off : ℕ
  deriving DecidableEq, Repr

inductive Release
  | pipeclose (p : PipeId) (writable : Bool)
  | iput (ip : Inum)
  deriving DecidableEq, Repr

structure Sys where
  kern : Kernel
  ftable : FileId → File
  ofile : Slot × Fd → Option FileId
  released : List Release

abbrev FileM := EStateM String Sys

namespace Sys

def setFile (s : Sys) (f : FileId) (x : File) : Sys :=
  { s with ftable := Function.update s.ftable f x }

def setFd (s : Sys) (c : Slot) (fd : Fd) (x : Option FileId) : Sys :=
  { s with ofile := Function.update s.ofile (c, fd) x }

def release (s : Sys) (r : List Release) : Sys := { s with released := r ++ s.released }

@[irreducible] def freeFile (s : Sys) : Option FileId :=
  Fin.find? fun f => decide ((s.ftable f).ref = 0)

@[irreducible] def freeFd (s : Sys) (c : Slot) : Option Fd :=
  Fin.find? fun fd => decide (s.ofile (c, fd) = none)

end Sys

/-- filealloc, which sets the count and nothing else. -/
def filealloc : FileM (Option FileId) := do
  let s ← get
  match s.freeFile with
  | none => return none
  | some f =>
    set (s.setFile f { s.ftable f with ref := 1 })
    return some f

def filedup (f : FileId) : FileM FileId := do
  let s ← get
  if (s.ftable f).ref < 1 then
    throw "filedup"
  set (s.setFile f { s.ftable f with ref := (s.ftable f).ref + 1 })
  return f

/-- What fileclose does with the copy of an entry whose last reference is gone. -/
def File.releases (ff : File) : List Release :=
  match ff.type with
  | .pipe => [.pipeclose ff.pipe ff.writable]
  | .inode => [.iput ff.ip]
  | .none => []

def fileclose (f : FileId) : FileM Unit := do
  let s ← get
  if (s.ftable f).ref < 1 then
    throw "fileclose"
  let ref := (s.ftable f).ref - 1
  if ref > 0 then
    set (s.setFile f { s.ftable f with ref := ref })
  else
    set ((s.setFile f { s.ftable f with ref := 0, type := .none }).release (s.ftable f).releases)

def argfd (c : Slot) (fd : ℤ) : FileM (Option (Fd × FileId)) := do
  if h : 0 ≤ fd ∧ fd < NOFILE then
    let i : Fd := ⟨fd.toNat, by omega⟩
    return ((← get).ofile (c, i)).map fun f => (i, f)
  else return none

/-- fdalloc, which takes the caller's reference over when it succeeds. -/
def fdalloc (c : Slot) (f : FileId) : FileM (Option Fd) := do
  let s ← get
  match s.freeFd c with
  | none => return none
  | some fd =>
    set (s.setFd c fd (some f))
    return some fd

def sysDup (c : Slot) (fd : ℤ) : FileM (Option ℤ) := do
  match ← argfd c fd with
  | none => return none
  | some (_, f) =>
    match ← fdalloc c f with
    | none => return none
    | some new =>
      let _ ← filedup f
      return some new

def sysClose (c : Slot) (fd : ℤ) : FileM (Option ℤ) := do
  match ← argfd c fd with
  | none => return none
  | some (i, f) =>
    modify fun s => s.setFd c i none
    fileclose f
    return some 0

abbrev O_RDONLY : BitVec 32 := 0x000

abbrev O_WRONLY : BitVec 32 := 0x001

abbrev O_RDWR : BitVec 32 := 0x002

abbrev O_CREATE : BitVec 32 := 0x200

/-- What open finds: arguments that argstr or argint refuse, no inode (namei or
create returned 0), or an inode, which may be a directory. -/
inductive Target
  | badArgs
  | missing
  | found (ip : Inum) (isDir : Bool)
  deriving DecidableEq, Repr

def openedFile (f : File) (ip : Inum) (omode : BitVec 32) : File :=
  { f with
    type := .inode
    ip := ip
    off := 0
    readable := omode &&& O_WRONLY = 0
    writable := omode &&& O_WRONLY ≠ 0 ∨ omode &&& O_RDWR ≠ 0 }

def sysOpen (c : Slot) (target : Target) (omode : BitVec 32) : FileM (Option ℤ) := do
  match target with
  | .badArgs => return none
  | .missing => return none
  | .found ip isDir =>
    -- create gives an inode of type T_FILE or refuses, so only namei's is tested
    if omode &&& O_CREATE = 0 ∧ isDir = true ∧ omode ≠ O_RDONLY then
      modify fun s => s.release [.iput ip]
      return none
    match ← filealloc with
    | none =>
      modify fun s => s.release [.iput ip]
      return none
    | some f =>
      match ← fdalloc c f with
      | none =>
        fileclose f
        modify fun s => s.release [.iput ip]
        return none
      | some fd =>
        modify fun s => s.setFile f (openedFile (s.ftable f) ip omode)
        return some fd

def pipeFile (f : File) (p : PipeId) (writable : Bool) : File :=
  { f with type := .pipe, readable := !writable, writable := writable, pipe := p }

def pipealloc (mem : Option PipeId) : FileM (Option (FileId × FileId)) := do
  match ← filealloc with
  | none => return none
  | some f0 =>
    match ← filealloc with
    | none =>
      fileclose f0
      return none
    | some f1 =>
      match mem with
      | none =>
        fileclose f0
        fileclose f1
        return none
      | some p =>
        modify fun s => s.setFile f0 (pipeFile (s.ftable f0) p false)
        modify fun s => s.setFile f1 (pipeFile (s.ftable f1) p true)
        return some (f0, f1)

/-- pipe, whose first argument is good or not. -/
def sysPipe (c : Slot) (argOk : Bool) (mem : Option PipeId) : FileM (Option ℤ) := do
  if argOk then
    match ← pipealloc mem with
    | none => return none
    | some (rf, wf) =>
      match ← fdalloc c rf with
      | none =>
        fileclose rf
        fileclose wf
        return none
      | some fd0 =>
        match ← fdalloc c wf with
        | none =>
          modify fun s => s.setFd c fd0 none
          fileclose rf
          fileclose wf
          return none
        | some _ => return some 0
  else return none

def dupFds (c np : Slot) : List Fd → FileM Unit
  | [] => return ()
  | i :: rest => do
    match (← get).ofile (c, i) with
    | none => dupFds c np rest
    | some f =>
      let g ← filedup f
      modify fun s => s.setFd np i (some g)
      dupFds c np rest

/-- fork, which fails without a slot or when kalloc or copyuvm does. -/
def fork (c : Slot) (memory : Bool) : FileM (Option ℤ) := do
  match (← get).kern.allocproc with
  | none => return none
  | some (np, k) =>
    modify fun s => { s with kern := k }
    if memory then
      modify fun s => { s with kern := s.kern.forkCopy c np }
      dupFds c np (List.finRange NOFILE)
      modify fun s => { s with kern := s.kern.forkDone np }
      return some ((← get).kern.proc np).pid
    else
      modify fun s => { s with kern := s.kern.forkFail np }
      return none

/-- exit's loop over the descriptors. The file is closed before the slot is cleared. -/
def closeFds (c : Slot) : List Fd → FileM Unit
  | [] => return ()
  | i :: rest => do
    match (← get).ofile (c, i) with
    | none => closeFds c rest
    | some f =>
      fileclose f
      modify fun s => s.setFd c i none
      closeFds c rest

def exit (c : Slot) : FileM (Option ℤ) := do
  if (← get).kern.initproc = some c then
    throw "init exiting"
  closeFds c (List.finRange NOFILE)
  modify fun s => { s with kern := s.kern.exit c }
  return some 0

namespace Sys

theorem freeFile_eq_some {s : Sys} {f : FileId} (h : s.freeFile = some f) :
    (s.ftable f).ref = 0 := by
  unfold freeFile at h
  simpa using (Fin.find?_eq_some_iff.mp h).1

theorem freeFd_eq_some {s : Sys} {c : Slot} {fd : Fd} (h : s.freeFd c = some fd) :
    s.ofile (c, fd) = none := by
  unfold freeFd at h
  simpa using (Fin.find?_eq_some_iff.mp h).1

def taken (s : Sys) (f : FileId) : Sys := s.setFile f { s.ftable f with ref := 1 }

def duped (s : Sys) (f : FileId) : Sys :=
  s.setFile f { s.ftable f with ref := (s.ftable f).ref + 1 }

def closed (s : Sys) (f : FileId) : Sys :=
  if (s.ftable f).ref - 1 > 0 then s.setFile f { s.ftable f with ref := (s.ftable f).ref - 1 }
  else (s.setFile f { s.ftable f with ref := 0, type := .none }).release (s.ftable f).releases

end Sys

theorem filealloc_returns (s : Sys) {Q : Option FileId → Sys → Prop} (hnone : Q none s)
    (hsome : ∀ f, (s.ftable f).ref = 0 → Q (some f) (s.taken f)) : Returns filealloc s Q := by
  unfold filealloc
  rw [returns_get_bind]
  cases hfree : s.freeFile with
  | none => exact (returns_pure _).mpr hnone
  | some f =>
    simp only [returns_set_bind, returns_pure]
    exact hsome f (Sys.freeFile_eq_some hfree)

theorem filedup_returns {s : Sys} {f : FileId} {Q : FileId → Sys → Prop}
    (href : 1 ≤ (s.ftable f).ref) (h : Q f (s.duped f)) : Returns (filedup f) s Q := by
  have hpos : ¬ (s.ftable f).ref < 1 := by omega
  simp only [filedup, returns_get_bind, if_neg hpos, returns_set_bind, returns_pure]
  exact h

theorem fileclose_returns {s : Sys} {f : FileId} {Q : Unit → Sys → Prop}
    (href : 1 ≤ (s.ftable f).ref) (h : Q () (s.closed f)) : Returns (fileclose f) s Q := by
  have hpos : ¬ (s.ftable f).ref < 1 := by omega
  unfold Sys.closed at h
  simp only [fileclose, returns_get_bind, if_neg hpos]
  split
  · rename_i hmore
    simpa only [returns_set, if_pos hmore] using h
  · rename_i hlast
    simpa only [returns_set, if_neg hlast] using h

theorem fdalloc_returns (s : Sys) (c : Slot) (f : FileId) {Q : Option Fd → Sys → Prop}
    (hnone : Q none s)
    (hsome : ∀ fd, s.ofile (c, fd) = none → Q (some fd) (s.setFd c fd (some f))) :
    Returns (fdalloc c f) s Q := by
  unfold fdalloc
  rw [returns_get_bind]
  cases hfree : s.freeFd c with
  | none => exact (returns_pure _).mpr hnone
  | some fd =>
    simp only [returns_set_bind, returns_pure]
    exact hsome fd (Sys.freeFd_eq_some hfree)

theorem argfd_returns (s : Sys) (c : Slot) (fd : ℤ) {Q : Option (Fd × FileId) → Sys → Prop}
    (hnone : Q none s) (hsome : ∀ i f, s.ofile (c, i) = some f → Q (some (i, f)) s) :
    Returns (argfd c fd) s Q := by
  unfold argfd
  split
  · rename_i hfd
    simp only [returns_get_bind, returns_pure]
    cases hf : s.ofile (c, ⟨fd.toNat, by omega⟩) with
    | none => exact hnone
    | some f => exact hsome _ f hf
  · exact (returns_pure _).mpr hnone

end KernelLabs.FileTable

import KernelLabs.MachineWords
import Mathlib.Data.Fin.Tuple.Basic
import Mathlib.Data.List.FinRange

/-!
The process table of the xv6 kernel in lab2 and the bodies of the functions of
proc.c that read and write it. Each definition is what the function does to the
table inside its ptable.lock section; taking and releasing the lock is modelled
in Spinlock and LockedCalls. A `struct proc *` is the index of its slot, and a
scan over ptable.proc is a search from slot zero. The fields that no function
here reads (sz, pgdir, kstack, tf, context, ofile, cwd) are left out, and kalloc
and copyuvm enter through the outcome of fork's two allocations.
-/
namespace KernelLabs.ProcTable

open MachineWords Function List

abbrev NPROC : ℕ := 64

def DEFAULT_BUDGET : ℤ := 5

def MAXPRIORITY : ℤ := 2

def TICKS_TO_PROMOTE : ℕ := 50

abbrev Slot := Fin NPROC

instance : NeZero NPROC := ⟨by decide⟩

inductive ProcState
  | unused | embryo | sleeping | runnable | running | zombie
  deriving DecidableEq, Repr

/-- An address a process can sleep on: null, a table slot, or any other object. -/
inductive Chan
  | null
  | proc (slot : Slot)
  | addr (n : ℕ)
  deriving DecidableEq, Repr

structure Proc where
  state : ProcState
  pid : ℤ
  parent : Option Slot
  chan : Chan
  killed : Bool
  name : String
  priority : ℤ
  budget : ℤ
  numTickets : ℤ
  numScheduled : ℤ
  ticks : ℤ
  deriving DecidableEq, Repr

/-- The table with the globals its functions use: nextpid, initproc,
ptable.PromoteAtTime and the tick counter of trap.c. -/
structure Kernel where
  proc : Slot → Proc
  nextpid : ℤ
  initproc : Option Slot
  promoteAtTime : ℕ
  ticks : ℕ

def chanOf : Option Slot → Chan
  | none => .null
  | some p => .proc p

namespace Kernel

def modify (k : Kernel) (p : Slot) (f : Proc → Proc) : Kernel :=
  { k with proc := update k.proc p (f (k.proc p)) }

def mapProc (k : Kernel) (f : Proc → Proc) : Kernel :=
  { k with proc := fun p => f (k.proc p) }

theorem modify_proc (k : Kernel) (p q : Slot) (f : Proc → Proc) :
    (k.modify p f).proc q = if q = p then f (k.proc q) else k.proc q := by
  by_cases h : q = p
  · subst h
    simp [modify]
  · simp [modify, h]

@[simp] theorem modify_proc_self (k : Kernel) (p : Slot) (f : Proc → Proc) :
    (k.modify p f).proc p = f (k.proc p) := by simp [modify_proc]

theorem modify_proc_ne (k : Kernel) {p q : Slot} (f : Proc → Proc) (h : q ≠ p) :
    (k.modify p f).proc q = k.proc q := by simp [modify_proc, h]

/-- A property of slots that the change of one slot keeps is kept for all of them. -/
theorem modify_keeps {β : Type*} (π : Proc → β) (k : Kernel) {i : Slot} {f : Proc → Proc}
    (hf : π (f (k.proc i)) = π (k.proc i)) (p : Slot) : π ((k.modify i f).proc p) = π (k.proc p) := by
  by_cases hpi : p = i
  · subst hpi
    rw [modify_proc_self, hf]
  · rw [modify_proc_ne _ _ hpi]

@[simp] theorem modify_initproc (k : Kernel) (p : Slot) (f : Proc → Proc) :
    (k.modify p f).initproc = k.initproc := rfl

@[simp] theorem mapProc_proc (k : Kernel) (f : Proc → Proc) (p : Slot) :
    (k.mapProc f).proc p = f (k.proc p) := rfl

@[simp] theorem mapProc_initproc (k : Kernel) (f : Proc → Proc) :
    (k.mapProc f).initproc = k.initproc := rfl

@[irreducible] def findPid (k : Kernel) (pid : ℤ) : Option Slot :=
  Fin.find? (fun p => decide ((k.proc p).pid = pid))

theorem findPid_pid {k : Kernel} {pid : ℤ} {p : Slot} (h : k.findPid pid = some p) :
    (k.proc p).pid = pid := by
  unfold findPid at h
  simpa using (Fin.find?_eq_some_iff.mp h).1

def prioritize (priority : ℤ) (q : Proc) : Proc :=
  { q with priority := priority, budget := DEFAULT_BUDGET }

/-- setpriority, whose search does not look at the slot's state. -/
def setpriority (k : Kernel) (pid priority : ℤ) : ℤ × Kernel :=
  if priority < 0 ∨ priority > MAXPRIORITY then (-1, k)
  else match k.findPid pid with
    | some p => (0, k.modify p (prioritize priority))
    | none => (-1, k)

theorem setpriority_cases (k : Kernel) (pid priority : ℤ) :
    (k.setpriority pid priority).2 = k ∨
      ∃ p, 0 ≤ priority ∧ priority ≤ MAXPRIORITY ∧ k.findPid pid = some p ∧
        (k.setpriority pid priority).2 = k.modify p (prioritize priority) := by
  unfold setpriority
  split
  · exact Or.inl rfl
  · rename_i hrange
    cases hfind : k.findPid pid with
    | none => exact Or.inl rfl
    | some p => exact Or.inr ⟨p, by omega, by omega, rfl, rfl⟩

@[irreducible] def findLive (k : Kernel) (pid : ℤ) : Option Slot :=
  Fin.find? (fun p => decide ((k.proc p).pid = pid ∧ (k.proc p).state ≠ .unused))

/-- getpriority, whose search skips UNUSED slots. -/
def getpriority (k : Kernel) (pid : ℤ) : ℤ :=
  match k.findLive pid with
  | some p => (k.proc p).priority
  | none => -1

def settickets (k : Kernel) (c : Slot) (number : ℤ) : ℤ × Kernel :=
  if number < 1 then (-1, k)
  else (0, k.modify c fun q => { q with numTickets := number })

theorem settickets_cases (k : Kernel) (c : Slot) (number : ℤ) :
    (k.settickets c number).2 = k ∨ 1 ≤ number ∧
      (k.settickets c number).2 = k.modify c fun q => { q with numTickets := number } := by
  unfold settickets
  split
  · exact Or.inl rfl
  · exact Or.inr ⟨by omega, rfl⟩

@[irreducible] def freeSlot (k : Kernel) : Option Slot :=
  Fin.find? (fun p => decide ((k.proc p).state = .unused))

theorem freeSlot_unused {k : Kernel} {p : Slot} (h : k.freeSlot = some p) :
    (k.proc p).state = .unused := by
  unfold freeSlot at h
  simpa using (Fin.find?_eq_some_iff.mp h).1

/-- The locked part of allocproc. The killed flag, the parent and the ticks of
the slot keep whatever values they had. -/
def allocproc (k : Kernel) : Option (Slot × Kernel) :=
  match k.freeSlot with
  | none => none
  | some p =>
    some (p, { k.modify p (fun q =>
        { q with
          state := .embryo
          budget := DEFAULT_BUDGET
          priority := MAXPRIORITY
          numTickets := 1
          numScheduled := 0
          pid := k.nextpid }) with
      nextpid := int32 (k.nextpid + 1) })

theorem allocproc_eq_some {k k' : Kernel} {p : Slot} (h : k.allocproc = some (p, k')) :
    k.freeSlot = some p ∧
      k' = { k.modify p (fun q =>
        { q with
          state := .embryo
          budget := DEFAULT_BUDGET
          priority := MAXPRIORITY
          numTickets := 1
          numScheduled := 0
          pid := k.nextpid }) with
        nextpid := int32 (k.nextpid + 1) } := by
  unfold allocproc at h
  split at h
  · simp at h
  · rename_i q hq
    simp only [Option.some.injEq, Prod.mk.injEq] at h
    obtain ⟨rfl, rfl⟩ := h
    exact ⟨hq, rfl⟩

/-- The exits of allocproc and fork on a failed kalloc or copyuvm. Only the
state is put back. -/
def forkFail (k : Kernel) (np : Slot) : Kernel :=
  k.modify np fun q => { q with state := .unused }

/-- fork's assignments to the child, made without the lock. -/
def forkCopy (k : Kernel) (curproc np : Slot) : Kernel :=
  k.modify np fun q =>
    { q with
      parent := some curproc
      numTickets := (k.proc curproc).numTickets
      numScheduled := 0
      name := (k.proc curproc).name }

def forkDone (k : Kernel) (np : Slot) : Kernel :=
  k.modify np fun q => { q with state := .runnable }

def wakeOne (chan : Chan) (q : Proc) : Proc :=
  if q.state = .sleeping ∧ q.chan = chan then { q with state := .runnable } else q

def wakeup1 (k : Kernel) (chan : Chan) : Kernel := k.mapProc (wakeOne chan)

theorem wakeOne_eq (chan : Chan) (q : Proc) :
    wakeOne chan q =
      { q with state := if q.state = .sleeping ∧ q.chan = chan then .runnable else q.state } := by
  unfold wakeOne
  split <;> rfl

@[simp] theorem wakeup1_proc (k : Kernel) (chan : Chan) (p : Slot) :
    (k.wakeup1 chan).proc p = wakeOne chan (k.proc p) := rfl

/-- One turn of the loop in exit that passes the children of `c` to init. -/
def passToInit (c : Slot) (k : Kernel) (p : Slot) : Kernel :=
  if (k.proc p).parent = some c then
    let k := k.modify p fun q => { q with parent := k.initproc }
    if (k.proc p).state = .zombie then k.wakeup1 (chanOf k.initproc) else k
  else k

/-- The zombie children of `c` among the slots in `l`, whose passing wakes init. -/
def OrphanZombie (k : Kernel) (c : Slot) (l : List Slot) : Prop :=
  ∃ z ∈ l, (k.proc z).parent = some c ∧ (k.proc z).state = .zombie

instance (k : Kernel) (c : Slot) (l : List Slot) : Decidable (k.OrphanZombie c l) := by
  unfold OrphanZombie
  infer_instance

theorem passToInit_proc (k : Kernel) (c p q : Slot) :
    (passToInit c k p).proc q =
      { k.proc q with
        parent := if q = p ∧ (k.proc q).parent = some c then k.initproc else (k.proc q).parent
        state := if (k.proc q).state = .sleeping ∧ (k.proc q).chan = chanOf k.initproc ∧
            k.OrphanZombie c [p] then .runnable else (k.proc q).state } := by
  unfold passToInit OrphanZombie
  by_cases hp : (k.proc p).parent = some c
  · by_cases hq : q = p
    · subst hq
      by_cases hz : (k.proc q).state = .zombie
      · simp [hp, hz, wakeOne_eq]
      · simp [hp, hz]
    · by_cases hz : (k.proc p).state = .zombie
      · simp [hp, hz, hq, wakeOne_eq, modify_proc_ne]
      · simp [hp, hz, hq, modify_proc_ne]
  · by_cases hq : q = p
    · subst hq
      simp [hp]
    · simp [hp, hq]

theorem passToInit_eq (k : Kernel) (c p : Slot) :
    passToInit c k p = { k with proc := (passToInit c k p).proc } := by
  unfold passToInit
  split
  · dsimp only
    split <;> rfl
  · rfl

theorem passToInit_initproc (k : Kernel) (c p : Slot) :
    (passToInit c k p).initproc = k.initproc := by
  rw [passToInit_eq]

theorem foldl_passToInit_proc (c : Slot) (l : List Slot) (hl : l.Nodup) (k : Kernel) (q : Slot) :
    (l.foldl (passToInit c) k).proc q =
      { k.proc q with
        parent := if q ∈ l ∧ (k.proc q).parent = some c then k.initproc else (k.proc q).parent
        state := if (k.proc q).state = .sleeping ∧ (k.proc q).chan = chanOf k.initproc ∧
            k.OrphanZombie c l then .runnable else (k.proc q).state } := by
  induction l generalizing k with
  | nil => simp [OrphanZombie]
  | cons p rest ih =>
    obtain ⟨hp, hrest⟩ := nodup_cons.mp hl
    have horphan : (passToInit c k p).OrphanZombie c rest ↔ k.OrphanZombie c rest := by
      unfold OrphanZombie
      refine exists_congr fun z => and_congr_right fun hz => ?_
      have hzp : z ≠ p := fun h => hp (h ▸ hz)
      simp only [passToInit_proc, hzp, false_and, ite_false]
      refine and_congr_right fun _ => ?_
      split
      · rename_i h
        simp [h.1]
      · exact Iff.rfl
    have hcons : k.OrphanZombie c (p :: rest) ↔ k.OrphanZombie c [p] ∨ k.OrphanZombie c rest := by
      simp [OrphanZombie]
    rw [foldl_cons, ih hrest]
    simp only [horphan, hcons, passToInit_initproc, passToInit_proc]
    by_cases hq : q = p
    · subst hq
      simp only [hp, false_and, ite_false, true_and, mem_cons, true_or, Proc.mk.injEq, and_true]
      by_cases h1 : k.OrphanZombie c [q] <;> by_cases h2 : k.OrphanZombie c rest <;>
        simp [h1, h2]
      split <;> simp_all
    · by_cases h1 : k.OrphanZombie c [p] <;> by_cases h2 : k.OrphanZombie c rest <;>
        simp [h1, h2, hq]
      split <;> simp_all

theorem foldl_passToInit_eq (c : Slot) (l : List Slot) (k : Kernel) :
    l.foldl (passToInit c) k = { k with proc := (l.foldl (passToInit c) k).proc } := by
  induction l generalizing k with
  | nil => rfl
  | cons p rest ih => rw [foldl_cons, ih, passToInit_eq]

def exit (k : Kernel) (c : Slot) : Kernel :=
  ((finRange NPROC).foldl (passToInit c) (k.wakeup1 (chanOf (k.proc c).parent))).modify c
    fun q => { q with state := .zombie }

/-- The sleepers that the exit of `c` makes RUNNABLE: those on the channel of its
parent and, when it leaves a zombie child behind, those on the channel of init. -/
def ExitWakes (k : Kernel) (c q : Slot) : Prop :=
  (k.proc q).state = .sleeping ∧
    ((k.proc q).chan = chanOf (k.proc c).parent ∨
      (k.proc q).chan = chanOf k.initproc ∧ k.OrphanZombie c (finRange NPROC))

instance (k : Kernel) (c q : Slot) : Decidable (k.ExitWakes c q) := by
  unfold ExitWakes
  infer_instance

theorem exit_proc (k : Kernel) (c q : Slot) :
    (k.exit c).proc q =
      { k.proc q with
        parent := if (k.proc q).parent = some c then k.initproc else (k.proc q).parent
        state := if q = c then .zombie
          else if k.ExitWakes c q then .runnable else (k.proc q).state } := by
  have horphan : (k.wakeup1 (chanOf (k.proc c).parent)).OrphanZombie c (finRange NPROC) ↔
      k.OrphanZombie c (finRange NPROC) := by
    unfold OrphanZombie
    refine exists_congr fun z => and_congr_right fun _ => ?_
    simp only [wakeup1_proc, wakeOne_eq]
    refine and_congr_right fun _ => ?_
    split
    · rename_i h
      simp [h.1]
    · exact Iff.rfl
  unfold exit
  rw [modify_proc, foldl_passToInit_proc c _ (nodup_finRange NPROC)]
  simp only [horphan, wakeup1_proc, wakeOne_eq, mem_finRange, true_and, ExitWakes]
  by_cases hq : q = c
  · subst hq
    simp [wakeup1]
  · simp only [hq, ite_false, Proc.mk.injEq, true_and, and_true]
    by_cases hs : (k.proc q).state = .sleeping
    · by_cases hc : (k.proc q).chan = chanOf (k.proc c).parent
      · simp [hs, hc, wakeup1]
      · simp [hs, hc, wakeup1]
    · simp [hs, wakeup1]

theorem exit_eq (k : Kernel) (c : Slot) : k.exit c = { k with proc := (k.exit c).proc } := by
  unfold exit
  rw [foldl_passToInit_eq]
  rfl

@[simp] theorem exit_initproc (k : Kernel) (c : Slot) : (k.exit c).initproc = k.initproc := by
  rw [exit_eq]

@[simp] theorem exit_nextpid (k : Kernel) (c : Slot) : (k.exit c).nextpid = k.nextpid := by
  rw [exit_eq]

@[simp] theorem exit_ticks (k : Kernel) (c : Slot) : (k.exit c).ticks = k.ticks := by
  rw [exit_eq]

@[simp] theorem exit_promoteAtTime (k : Kernel) (c : Slot) :
    (k.exit c).promoteAtTime = k.promoteAtTime := by
  rw [exit_eq]

def sleep (k : Kernel) (c : Slot) (chan : Chan) : Kernel :=
  k.modify c fun q => { q with chan := chan, state := .sleeping }

def yield (k : Kernel) (c : Slot) : Kernel :=
  k.modify c fun q => { q with state := .runnable }

inductive WaitResult
  | reaped (pid : ℤ)
  | noChild
  | asleep
  deriving DecidableEq, Repr

/-- wait gives the slot of a reaped child back with its pid, parent, name and
killed flag cleared. -/
def reap (k : Kernel) (z : Slot) : Kernel :=
  k.modify z fun q =>
    { q with pid := 0, parent := none, name := "", killed := false, state := .unused }

@[irreducible] def zombieChild (k : Kernel) (c : Slot) : Option Slot :=
  Fin.find? (fun p => decide ((k.proc p).parent = some c ∧ (k.proc p).state = .zombie))

/-- One pass of wait's loop, from the scan to its return or its sleep. -/
def wait (k : Kernel) (c : Slot) : WaitResult × Kernel :=
  match k.zombieChild c with
  | some z => (.reaped (k.proc z).pid, k.reap z)
  | none =>
    if (∀ p, (k.proc p).parent ≠ some c) ∨ (k.proc c).killed = true then (.noChild, k)
    else (.asleep, k.sleep c (.proc c))

theorem zombieChild_eq_some {k : Kernel} {c z : Slot} (h : k.zombieChild c = some z) :
    (k.proc z).parent = some c ∧ (k.proc z).state = .zombie := by
  unfold zombieChild at h
  simpa using (Fin.find?_eq_some_iff.mp h).1

theorem wait_cases (k : Kernel) (c : Slot) :
    (∃ z, k.zombieChild c = some z ∧ k.wait c = (.reaped (k.proc z).pid, k.reap z)) ∨
      k.wait c = (.noChild, k) ∨ k.wait c = (.asleep, k.sleep c (.proc c)) := by
  unfold wait
  cases hz : k.zombieChild c with
  | some z => exact Or.inl ⟨z, rfl, rfl⟩
  | none =>
    dsimp only
    split
    · exact Or.inr (Or.inl rfl)
    · exact Or.inr (Or.inr rfl)

def killOne (q : Proc) : Proc :=
  { q with
    killed := true
    state := if q.state = .sleeping then .runnable else q.state }

/-- kill, whose search does not look at the slot's state. -/
def kill (k : Kernel) (pid : ℤ) : ℤ × Kernel :=
  match k.findPid pid with
  | some p => (0, k.modify p killOne)
  | none => (-1, k)

theorem kill_cases (k : Kernel) (pid : ℤ) :
    k.findPid pid = none ∧ (k.kill pid).2 = k ∨
      ∃ p, k.findPid pid = some p ∧ (k.kill pid).2 = k.modify p killOne := by
  unfold kill
  cases hfind : k.findPid pid with
  | none => exact Or.inl ⟨rfl, rfl⟩
  | some p => exact Or.inr ⟨p, rfl, rfl⟩

/-- The default case of trap for a process in user space. -/
def fault (k : Kernel) (c : Slot) : Kernel := k.modify c fun q => { q with killed := true }

/-- A scheduler switches to `p`, which returns from sched and, if it was in
sleep, clears its channel. -/
def dispatch (k : Kernel) (p : Slot) : Kernel :=
  k.modify p fun q => { q with state := .running, chan := .null }

/-- The process in slot `p` is RUNNING in the second table and was not in the first. -/
def Dispatched (k k' : Kernel) (p : Slot) : Prop :=
  (k.proc p).state ≠ .running ∧ (k'.proc p).state = .running

instance (k k' : Kernel) (p : Slot) : Decidable (Dispatched k k' p) := by
  unfold Dispatched
  infer_instance

end Kernel

def zeroProc : Proc where
  state := .unused
  pid := 0
  parent := none
  chan := .null
  killed := false
  name := ""
  priority := 0
  budget := 0
  numTickets := 0
  numScheduled := 0
  ticks := 0

def zeroKernel : Kernel where
  proc := fun _ => zeroProc
  nextpid := 1
  initproc := none
  promoteAtTime := 0
  ticks := 0

/-- userinit, which fails only when allocproc finds no slot. -/
def userinit (k : Kernel) : Option Kernel :=
  match { k with promoteAtTime := uint32 (k.ticks + TICKS_TO_PROMOTE) }.allocproc with
  | none => none
  | some (p, k) =>
    some { k.modify p (fun q => { q with name := "initcode", state := .runnable }) with
      initproc := some p }

def initProc : Proc where
  state := .runnable
  pid := 1
  parent := none
  chan := .null
  killed := false
  name := "initcode"
  priority := MAXPRIORITY
  budget := DEFAULT_BUDGET
  numTickets := 1
  numScheduled := 0
  ticks := 0

def boot : Kernel where
  proc := update (fun _ => zeroProc) 0 initProc
  nextpid := 2
  initproc := some 0
  promoteAtTime := TICKS_TO_PROMOTE
  ticks := 0

theorem boot_proc (p : Slot) : boot.proc p = if p = 0 then initProc else zeroProc := by
  simp only [boot, update_apply]

theorem userinit_zeroKernel : userinit zeroKernel = some boot := by
  have hfree : Kernel.freeSlot
      { zeroKernel with promoteAtTime := uint32 (zeroKernel.ticks + TICKS_TO_PROMOTE) } =
        some 0 := by decide +kernel
  have hpid : int32 (zeroKernel.nextpid + 1) = 2 := by decide
  have htime : uint32 (zeroKernel.ticks + TICKS_TO_PROMOTE) = TICKS_TO_PROMOTE := by decide
  unfold userinit Kernel.allocproc
  rw [hfree]
  simp only [hpid, htime, Kernel.modify, update_self, update_idem]
  rfl

end KernelLabs.ProcTable

import KernelLabs.ProcLife

/-!
The multi-level feedback queue scheduler of proc.c, on any number of CPUs. Each
CPU runs mlfqsched, whose program counter is kept with the local variables it
still needs. The scheduler holds ptable.lock except between its two acquires and
while the process it switched to runs; a process gives the CPU back by leaving
RUNNING under the lock. The loop over the table is cut at its dispatches, since
nothing else it does can be seen by others. The tick counter advances at any
time, because the timer interrupt does not take ptable.lock.
-/
namespace KernelLabs.Mlfq

open MachineWords ProcTable ProcLife Runs

/-- Where a CPU stands in mlfqsched, with current_priority, count, p and time_in. -/
inductive SchedPc
  | released
  | scan (level : ℤ) (count first : ℕ)
  | slice (level : ℤ) (count : ℕ) (p : Slot) (timeIn : ℤ)
  | charge (level : ℤ) (count : ℕ) (p : Slot) (timeIn : ℤ)
  | promote (level : ℤ) (count : ℕ) (p : Slot)
  deriving DecidableEq, Repr

/-- The points at which the scheduler itself holds ptable.lock. -/
def SchedPc.HoldsLock : SchedPc → Prop
  | .scan .. => True
  | .charge .. => True
  | .promote .. => True
  | _ => False

instance (pc : SchedPc) : Decidable pc.HoldsLock := by
  cases pc <;> unfold SchedPc.HoldsLock <;> infer_instance

@[irreducible] def nextAt (k : Kernel) (level : ℤ) (first : ℕ) : Option Slot :=
  Fin.find? fun p => decide (first ≤ p.val ∧ (k.proc p).state = .runnable ∧
    (k.proc p).priority = level)

def mlfqDispatch (k : Kernel) (p : Slot) : Kernel :=
  (k.modify p fun q => { q with numScheduled := int32 (q.numScheduled + 1) }).dispatch p

/-- time_out - time_in at the end of a slice. -/
def elapsed (k : Kernel) (timeIn : ℤ) : ℤ := int32 (int32 k.ticks - timeIn)

def demote (q : Proc) : Proc :=
  if q.budget ≤ 0 then
    if q.priority > 0 then { q with priority := q.priority - 1, budget := DEFAULT_BUDGET }
    else { q with budget := DEFAULT_BUDGET }
  else q

def chargeSlice (k : Kernel) (p : Slot) (timeIn : ℤ) : Kernel :=
  k.modify p fun q =>
    demote { q with
      ticks := int32 (q.ticks + elapsed k timeIn)
      budget := int32 (q.budget - elapsed k timeIn) }

def adjustOne (q : Proc) : Proc :=
  if q.state ≠ .zombie then
    if q.priority < MAXPRIORITY then
      { q with priority := q.priority + 1, budget := DEFAULT_BUDGET }
    else q
  else q

def adjustPriority (k : Kernel) : Kernel := k.mapProc adjustOne

def promotePass (k : Kernel) : Kernel :=
  if k.promoteAtTime ≤ k.ticks then
    { adjustPriority k with promoteAtTime := uint32 (k.ticks + TICKS_TO_PROMOTE) }
  else k

def advance (k : Kernel) : Kernel := { k with ticks := uint32 (k.ticks + 1) }

structure Sched (ncpu : ℕ) where
  sys : Sys
  pc : Fin ncpu → SchedPc

inductive Step (ncpu : ℕ)
  | life (a : Act)
  | tick
  | sched (c : Fin ncpu)
  deriving DecidableEq, Repr

inductive Entry
  | reset (p : Slot)
  | charged (p : Slot) (ticks : ℤ)
  deriving DecidableEq, Repr

/-- The actions of processes that take ptable.lock; the others run beside its holder. -/
def NeedsLock : Act → Prop
  | .forkFail _ => False
  | .forkCopy _ => False
  | .settickets _ _ => False
  | .fault _ => False
  | _ => True

instance (a : Act) : Decidable (NeedsLock a) :=
  match a with
  | .forkFail _ | .forkCopy _ | .settickets _ _ | .fault _ => isFalse id
  | .forkAlloc _ | .forkDone _ | .exit _ | .wait _ | .kill _ _ | .setpriority _ _ _ | .sleep _ _
  | .yield _ | .wakeup _ | .dispatch _ => isTrue trivial

def endSlice (k : Kernel) : SchedPc → SchedPc
  | .slice level count p timeIn =>
    if (k.proc p).state = .running then .slice level count p timeIn
    else .charge level count p timeIn
  | pc => pc

namespace Sched

variable {ncpu : ℕ}

def LockFree (s : Sched ncpu) : Prop := ∀ c, ¬ (s.pc c).HoldsLock

instance (s : Sched ncpu) : Decidable s.LockFree := by
  unfold LockFree
  infer_instance

def Enabled (s : Sched ncpu) : Step ncpu → Prop
  | .life (.dispatch _) => False
  | .life a => s.sys.Enabled a ∧ (NeedsLock a → s.LockFree)
  | .tick => True
  | .sched c =>
    match s.pc c with
    | .released => s.LockFree
    | .slice .. => False
    | _ => True

instance (s : Sched ncpu) (a : Step ncpu) : Decidable (s.Enabled a) := by
  unfold Enabled
  split
  · infer_instance
  · infer_instance
  · infer_instance
  · split <;> infer_instance

def withKern (s : Sched ncpu) (k : Kernel) : Sched ncpu := { s with sys := { s.sys with kern := k } }

def setPc (s : Sched ncpu) (c : Fin ncpu) (pc : SchedPc) : Sched ncpu :=
  { s with pc := Function.update s.pc c pc }

def schedStep (s : Sched ncpu) (c : Fin ncpu) : Sched ncpu :=
  match s.pc c with
  | .released => s.setPc c (.scan MAXPRIORITY 0 0)
  | .scan level count first =>
    if level < 0 then s.setPc c .released
    else match nextAt s.sys.kern level first with
      | some p =>
        (s.withKern (mlfqDispatch s.sys.kern p)).setPc c
          (.slice level (count + 1) p (int32 s.sys.kern.ticks))
      | none => s.setPc c (if count = 0 then .scan (level - 1) 0 0 else .scan level 0 0)
  | .slice .. => s
  | .charge level count p timeIn =>
    (s.withKern (chargeSlice s.sys.kern p timeIn)).setPc c (.promote level count p)
  | .promote level count p =>
    (s.withKern (promotePass s.sys.kern)).setPc c (.scan level count (p.val + 1))

def next (s : Sched ncpu) : Step ncpu → Sched ncpu
  | .life a => { sys := s.sys.next a, pc := fun c => endSlice (s.sys.next a).kern (s.pc c) }
  | .tick => s.withKern (advance s.sys.kern)
  | .sched c => s.schedStep c

def promoted (k : Kernel) : List Slot :=
  (List.finRange NPROC).filter fun p =>
    decide ((k.proc p).state ≠ .zombie ∧ (k.proc p).priority < MAXPRIORITY)

def emit (s : Sched ncpu) : Step ncpu → List Entry
  | .life (.forkAlloc _) =>
    match s.sys.kern.allocproc with
    | none => []
    | some (np, _) => [.reset np]
  | .life (.setpriority _ pid priority) =>
    if priority < 0 ∨ priority > MAXPRIORITY then []
    else match s.sys.kern.findPid pid with
      | some p => [.reset p]
      | none => []
  | .sched c =>
    match s.pc c with
    | .charge _ _ p timeIn =>
      if int32 ((s.sys.kern.proc p).budget - elapsed s.sys.kern timeIn) ≤ 0 then
        [.reset p, .charged p (elapsed s.sys.kern timeIn)]
      else [.charged p (elapsed s.sys.kern timeIn)]
    | .promote .. =>
      if s.sys.kern.promoteAtTime ≤ s.sys.kern.ticks then (promoted s.sys.kern).map .reset else []
    | _ => []
  | _ => []

def step (s : Sched ncpu) (a : Step ncpu) : Option (Sched ncpu) :=
  if s.Enabled a then some (s.next a) else none

theorem step_eq_some {s t : Sched ncpu} {a : Step ncpu} (h : s.step a = some t) :
    s.Enabled a ∧ t = s.next a := by
  unfold step at h
  split at h
  · rename_i henabled
    exact ⟨henabled, (Option.some.inj h).symm⟩
  · simp at h

end Sched

def machine (ncpu : ℕ) : Machine (Sched ncpu) (Step ncpu) Entry where
  step := Sched.step
  emit := Sched.emit

def start (ncpu : ℕ) : Sched ncpu where
  sys := ProcLife.start
  pc := fun _ => .released

end KernelLabs.Mlfq

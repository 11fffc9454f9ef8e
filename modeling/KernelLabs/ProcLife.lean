import KernelLabs.ProcTable
import KernelLabs.Runs

/-!
The life cycle of processes as a machine. An action is one critical section of
ptable.lock, or one of the stretches that fork, settickets and trap run without
the lock, taken by a RUNNING process; interrupt handlers may wake sleepers, and
a scheduler may switch to any RUNNABLE process. Between its two locked sections
fork keeps the child in a local variable, which is the only part of a process's
control state that later actions depend on.
-/
namespace KernelLabs.ProcLife

open MachineWords ProcTable Runs Function

/-- Where a process stands in fork, with its local variable np. -/
inductive ForkPc
  | idle
  | allocated (np : Slot)
  | copied (np : Slot)
  deriving DecidableEq, Repr

def ForkPc.child : ForkPc → Option Slot
  | .idle => none
  | .allocated np => some np
  | .copied np => some np

structure Sys where
  kern : Kernel
  fork : Slot → ForkPc

inductive Act
  | forkAlloc (c : Slot)
  | forkFail (c : Slot)
  | forkCopy (c : Slot)
  | forkDone (c : Slot)
  | exit (c : Slot)
  | wait (c : Slot)
  | kill (c : Slot) (pid : ℤ)
  | setpriority (c : Slot) (pid priority : ℤ)
  | settickets (c : Slot) (number : ℤ)
  | fault (c : Slot)
  | sleep (c : Slot) (chan : Chan)
  | yield (c : Slot)
  | wakeup (chan : Chan)
  | dispatch (p : Slot)
  deriving DecidableEq, Repr

/-- The entries of the log. A creation names the slot, the new pid and the forking
process; a reaping names the waiting process and the pid that wait returned. -/
inductive Entry
  | created (slot : Slot) (pid : ℤ) (parent : Slot) (parentPid : ℤ)
  | reaped (waiter : Slot) (waiterPid : ℤ) (pid : ℤ)
  | killCall (pid : ℤ)
  | faulted (slot : Slot)
  deriving DecidableEq, Repr

namespace Sys

def Running (s : Sys) (c : Slot) : Prop := (s.kern.proc c).state = .running

instance (s : Sys) (c : Slot) : Decidable (s.Running c) := by
  unfold Running
  infer_instance

/-- A RUNNING process that is not inside fork, so that it can start a call. -/
def Idle (s : Sys) (c : Slot) : Prop := s.Running c ∧ s.fork c = .idle

instance (s : Sys) (c : Slot) : Decidable (s.Idle c) := by
  unfold Idle
  infer_instance

/-- exit panics for init, so that action is never taken by it. -/
def Enabled (s : Sys) : Act → Prop
  | .forkAlloc c => s.Idle c
  | .forkFail c => s.Running c ∧ ∃ np, s.fork c = .allocated np
  | .forkCopy c => s.Running c ∧ ∃ np, s.fork c = .allocated np
  | .forkDone c => s.Running c ∧ ∃ np, s.fork c = .copied np
  | .exit c => s.Idle c ∧ s.kern.initproc ≠ some c
  | .wait c => s.Idle c
  | .kill c _ => s.Idle c
  | .setpriority c _ _ => s.Idle c
  | .settickets c number => s.Idle c ∧ int32 number = number
  | .fault c => s.Idle c
  | .sleep c _ => s.Running c
  | .yield c => s.Running c
  | .wakeup _ => True
  | .dispatch p => (s.kern.proc p).state = .runnable

instance (s : Sys) (a : Act) : Decidable (s.Enabled a) := by
  cases a <;> unfold Enabled <;> infer_instance

def next (s : Sys) : Act → Sys
  | .forkAlloc c =>
    match s.kern.allocproc with
    | none => s
    | some (np, k) => { kern := k, fork := update s.fork c (.allocated np) }
  | .forkFail c =>
    match s.fork c with
    | .allocated np => { kern := s.kern.forkFail np, fork := update s.fork c .idle }
    | _ => s
  | .forkCopy c =>
    match s.fork c with
    | .allocated np =>
      { kern := s.kern.forkCopy c np, fork := update s.fork c (.copied np) }
    | _ => s
  | .forkDone c =>
    match s.fork c with
    | .copied np => { kern := s.kern.forkDone np, fork := update s.fork c .idle }
    | _ => s
  | .exit c => { s with kern := s.kern.exit c }
  | .wait c => { s with kern := (s.kern.wait c).2 }
  | .kill _ pid => { s with kern := (s.kern.kill pid).2 }
  | .setpriority _ pid priority => { s with kern := (s.kern.setpriority pid priority).2 }
  | .settickets c number => { s with kern := (s.kern.settickets c number).2 }
  | .fault c => { s with kern := s.kern.fault c }
  | .sleep c chan => { s with kern := s.kern.sleep c chan }
  | .yield c => { s with kern := s.kern.yield c }
  | .wakeup chan => { s with kern := s.kern.wakeup1 chan }
  | .dispatch p => { s with kern := s.kern.dispatch p }

def emit (s : Sys) : Act → List Entry
  | .forkAlloc c =>
    match s.kern.allocproc with
    | none => []
    | some (np, _) => [.created np s.kern.nextpid c (s.kern.proc c).pid]
  | .wait c =>
    match (s.kern.wait c).1 with
    | .reaped pid => [.reaped c (s.kern.proc c).pid pid]
    | _ => []
  | .kill _ pid => [.killCall pid]
  | .fault c => [.faulted c]
  | _ => []

def step (s : Sys) (a : Act) : Option Sys := if s.Enabled a then some (s.next a) else none

theorem step_eq_some {s t : Sys} {a : Act} (h : s.step a = some t) :
    s.Enabled a ∧ t = s.next a := by
  unfold step at h
  split at h
  · rename_i henabled
    exact ⟨henabled, (Option.some.inj h).symm⟩
  · simp at h

/-- A slot that holds a process, or that some fork is filling. -/
def Claimed (s : Sys) (p : Slot) : Prop :=
  (s.kern.proc p).state ≠ .unused ∨ ∃ c, (s.fork c).child = some p

variable {s : Sys}

theorem Running.claimed {c : Slot} (h : s.Running c) : s.Claimed c := by
  left
  rw [show (s.kern.proc c).state = .running from h]
  decide

/-- What a step can do, with the guards under which it does so and the entries it logs. -/
inductive Effect (s : Sys) : Act → Sys → List Entry → Prop
  | none (a : Act) : Effect s a s []
  | forkAlloc {c np : Slot} {k : Kernel} (halloc : s.kern.allocproc = some (np, k)) :
    Effect s (.forkAlloc c) { kern := k, fork := update s.fork c (.allocated np) }
      [.created np s.kern.nextpid c (s.kern.proc c).pid]
  | forkFail {c np : Slot} (hc : s.fork c = .allocated np) :
    Effect s (.forkFail c) { kern := s.kern.forkFail np, fork := update s.fork c .idle } []
  | forkCopy {c np : Slot} (hc : s.fork c = .allocated np) :
    Effect s (.forkCopy c) { kern := s.kern.forkCopy c np, fork := update s.fork c (.copied np) } []
  | forkDone {c np : Slot} (hc : s.fork c = .copied np) :
    Effect s (.forkDone c) { kern := s.kern.forkDone np, fork := update s.fork c .idle } []
  | exit (c : Slot) : Effect s (.exit c) { s with kern := s.kern.exit c } []
  | reap {c z : Slot} (hz : s.kern.zombieChild c = some z) :
    Effect s (.wait c) { s with kern := s.kern.reap z }
      [.reaped c (s.kern.proc c).pid (s.kern.proc z).pid]
  | waitSleep {c : Slot} (hz : s.kern.zombieChild c = .none) :
    Effect s (.wait c) { s with kern := s.kern.sleep c (.proc c) } []
  | killNone (c : Slot) (pid : ℤ) : Effect s (.kill c pid) s [.killCall pid]
  | kill (c : Slot) {pid : ℤ} {i : Slot} (hfind : s.kern.findPid pid = some i) :
    Effect s (.kill c pid) { s with kern := s.kern.modify i Kernel.killOne } [.killCall pid]
  | setpriority (c : Slot) {pid priority : ℤ} {i : Slot} (hlow : 0 ≤ priority)
    (hhigh : priority ≤ MAXPRIORITY) (hfind : s.kern.findPid pid = some i) :
    Effect s (.setpriority c pid priority)
      { s with kern := s.kern.modify i (Kernel.prioritize priority) } []
  | settickets (c : Slot) {number : ℤ} (hnumber : 1 ≤ number) :
    Effect s (.settickets c number)
      { s with kern := s.kern.modify c fun q => { q with numTickets := number } } []
  | fault (c : Slot) : Effect s (.fault c) { s with kern := s.kern.fault c } [.faulted c]
  | sleep (c : Slot) (chan : Chan) :
    Effect s (.sleep c chan) { s with kern := s.kern.sleep c chan } []
  | yield (c : Slot) : Effect s (.yield c) { s with kern := s.kern.yield c } []
  | wakeup (chan : Chan) : Effect s (.wakeup chan) { s with kern := s.kern.wakeup1 chan } []
  | dispatch (i : Slot) : Effect s (.dispatch i) { s with kern := s.kern.dispatch i } []

theorem effect (s : Sys) (a : Act) : Effect s a (s.next a) (s.emit a) := by
  cases a with
  | forkAlloc c =>
    simp only [next, emit]
    split
    · exact .none _
    · next halloc => exact .forkAlloc halloc
  | forkFail c =>
    simp only [next, emit]
    split
    · next hc => exact .forkFail hc
    · exact .none _
  | forkCopy c =>
    simp only [next, emit]
    split
    · next hc => exact .forkCopy hc
    · exact .none _
  | forkDone c =>
    simp only [next, emit]
    split
    · next hc => exact .forkDone hc
    · exact .none _
  | exit c => exact .exit c
  | wait c =>
    simp only [next, emit, Kernel.wait]
    cases hz : s.kern.zombieChild c with
    | some z => exact .reap hz
    | none =>
      dsimp only
      split
      · exact .none _
      · exact .waitSleep hz
  | kill c pid =>
    simp only [next, emit, Kernel.kill]
    split
    · next hfind => exact .kill c hfind
    · exact .killNone c pid
  | setpriority c pid priority =>
    simp only [next, emit, Kernel.setpriority]
    split
    · exact .none _
    · split
      · next hrange _ hfind => exact .setpriority c (by omega) (by omega) hfind
      · exact .none _
  | settickets c number =>
    simp only [next, emit, Kernel.settickets]
    split
    · exact .none _
    · exact .settickets c (by omega)
  | fault c => exact .fault c
  | sleep c chan => exact .sleep c chan
  | yield c => exact .yield c
  | wakeup chan => exact .wakeup chan
  | dispatch i => exact .dispatch i

variable {a : Act} {t : Sys} {es : List Entry}

/-- The actions of processes leave the tick counter and the deadline alone. -/
theorem Effect.clock (h : s.Effect a t es) :
    t.kern.ticks = s.kern.ticks ∧ t.kern.promoteAtTime = s.kern.promoteAtTime := by
  cases h with
  | forkAlloc halloc =>
    obtain ⟨-, rfl⟩ := Kernel.allocproc_eq_some halloc
    exact ⟨rfl, rfl⟩
  | exit c => exact ⟨s.kern.exit_ticks c, s.kern.exit_promoteAtTime c⟩
  | _ => exact ⟨rfl, rfl⟩

/-- So do they with the tick counts of all slots. -/
theorem Effect.ticks (h : s.Effect a t es) (p : Slot) :
    (t.kern.proc p).ticks = (s.kern.proc p).ticks := by
  cases h with try dsimp only
  | forkAlloc halloc =>
    obtain ⟨-, rfl⟩ := Kernel.allocproc_eq_some halloc
    dsimp only
    exact s.kern.modify_keeps Proc.ticks (by rfl) p
  | exit => rw [Kernel.exit_proc]
  | wakeup => rw [Kernel.wakeup1_proc, Kernel.wakeOne_eq]
  | _ => exact s.kern.modify_keeps Proc.ticks (by rfl) p

/-- A property of a slot that does not look at its place in the life cycle. -/
def Timeless {β : Type*} (π : Proc → β) : Prop :=
  ∀ q state pid parent chan killed name,
    π { q with
      state := state, pid := pid, parent := parent, chan := chan, killed := killed, name := name } =
      π q

/-- The steps that change such a property of slot `p`. -/
def Writes (s : Sys) (p : Slot) : Act → Prop
  | .forkAlloc _ => ∃ k, s.kern.allocproc = some (p, k)
  | .forkCopy c => s.fork c = .allocated p
  | .setpriority _ pid priority =>
    0 ≤ priority ∧ priority ≤ MAXPRIORITY ∧ s.kern.findPid pid = some p
  | .settickets c number => p = c ∧ 1 ≤ number
  | _ => False

theorem Effect.keeps {β : Type*} {π : Proc → β} (hπ : Timeless π) (h : s.Effect a t es)
    {p : Slot} (hwrites : ¬ s.Writes p a) : π (t.kern.proc p) = π (s.kern.proc p) := by
  have hkeep : ∀ (i : Slot) (f : Proc → Proc), (∀ q, π (f q) = π q) →
      π ((s.kern.modify i f).proc p) = π (s.kern.proc p) :=
    fun i f hf => s.kern.modify_keeps π (hf _) p
  have hne : ∀ {i : Slot} (f : Proc → Proc), p ≠ i →
      π ((s.kern.modify i f).proc p) = π (s.kern.proc p) := by
    intro i f hpi
    rw [Kernel.modify_proc_ne _ _ hpi]
  cases h with try dsimp only
  | forkAlloc halloc =>
    obtain ⟨_, rfl⟩ := Kernel.allocproc_eq_some halloc
    dsimp only
    exact hne _ fun hpn => hwrites (hpn ▸ ⟨_, halloc⟩)
  | forkFail => exact hkeep _ _ fun q => hπ q .unused _ _ _ _ _
  | forkCopy hc => exact hne _ fun hpn => hwrites (hpn ▸ hc)
  | forkDone => exact hkeep _ _ fun q => hπ q .runnable _ _ _ _ _
  | exit c =>
    rw [Kernel.exit_proc]
    exact hπ _ _ _ _ _ _ _
  | reap => exact hkeep _ _ fun q => hπ q _ _ _ _ _ _
  | waitSleep => exact hkeep _ _ fun q => hπ q .sleeping _ _ _ _ _
  | kill => exact hkeep _ _ fun q => hπ q _ _ _ _ true _
  | setpriority c hlow hhigh hfind =>
    exact hne _ fun hpi => hwrites (hpi ▸ ⟨hlow, hhigh, hfind⟩)
  | settickets c hnumber => exact hne _ fun hpc => hwrites ⟨hpc, hnumber⟩
  | fault => exact hkeep _ _ fun q => hπ q _ _ _ _ true _
  | sleep c chan => exact hkeep _ _ fun q => hπ q .sleeping _ _ chan _ _
  | yield => exact hkeep _ _ fun q => hπ q .runnable _ _ _ _ _
  | wakeup chan =>
    rw [Kernel.wakeup1_proc, Kernel.wakeOne_eq]
    exact hπ _ _ _ _ _ _ _
  | dispatch => exact hkeep _ _ fun r => hπ r .running _ _ .null _ _

end Sys

def machine : Machine Sys Act Entry where
  step := Sys.step
  emit := Sys.emit

/-- The system after userinit: only the first process exists. -/
def start : Sys where
  kern := boot
  fork := fun _ => .idle

end KernelLabs.ProcLife

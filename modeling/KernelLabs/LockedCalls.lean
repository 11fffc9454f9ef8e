import KernelLabs.Spinlock

/-!
The calls of proc.c on the process table together with their locking. Each call
is written with the acquire and release of its source, and its run is the table
operation of ProcTable inside one critical section. A call entered with the table
lock free returns with the lock free and the nesting depth unchanged, except for
setpriority with a priority out of range, which returns while it holds the lock.
-/
namespace KernelLabs.LockedCalls

open ProcTable Spinlock List EStateM

def withTable (s : CpuState) (k : Kernel) : CpuState := { s with kern := k }

def modifyTable (f : Kernel → Kernel) : KernelM Unit := modify fun s => withTable s (f s.kern)

def setpriority (pid priority : ℤ) : KernelM ℤ := do
  acquire .ptable
  if priority < 0 ∨ priority > MAXPRIORITY then
    return -1
  match (← get).kern.findPid pid with
  | some p =>
    modifyTable fun k => k.modify p (Kernel.prioritize priority)
    release .ptable
    return 0
  | none =>
    release .ptable
    return -1

def getpriority (pid : ℤ) : KernelM ℤ := do
  acquire .ptable
  match (← get).kern.findLive pid with
  | some p =>
    release .ptable
    return ((← get).kern.proc p).priority
  | none =>
    release .ptable
    return -1

/-- settickets, which takes no lock; a CPU without a process would dereference null. -/
def settickets (number : ℤ) : KernelM ℤ := do
  if number < 1 then
    return -1
  match ← myproc with
  | some p =>
    modifyTable fun k => k.modify p fun q => { q with numTickets := number }
    return 0
  | none => throw "null process"

structure Pstat where
  inuse : Slot → ℤ
  tickets : Slot → ℤ
  pid : Slot → ℤ
  ticks : Slot → ℤ

def pstatOf (k : Kernel) : Pstat where
  inuse p := if (k.proc p).state ≠ .unused then 1 else 0
  tickets p := (k.proc p).numTickets
  pid p := (k.proc p).pid
  ticks p := (k.proc p).ticks

/-- cprintf of a formatted text, with the console lock when cons.locking is set. -/
def cprintf (text : String) : KernelM Unit := do
  let locking := (← get).locking
  if locking then
    acquire .cons
  modify fun s => { s with output := s.output ++ [text] }
  if locking then
    release .cons

def infoLine (k : Kernel) (procinfo : Pstat) (i : Slot) : String :=
  "\n " ++ toString i ++ ") Name: " ++ (k.proc i).name ++ ", PID: " ++ toString (procinfo.pid i) ++
    ", Tickets: " ++ toString (procinfo.tickets i) ++ ", Ticks: " ++
    toString (procinfo.ticks i) ++ ", Inuse: " ++ toString (procinfo.inuse i) ++ "\n"

def printInfo (procinfo : Pstat) (i : Slot) : KernelM Unit := do
  if procinfo.inuse i ≠ 0 ∨ procinfo.ticks i ≠ 0 ∨ procinfo.tickets i ≠ 0 ∨ procinfo.pid i ≠ 0 then
    cprintf (infoLine (← get).kern procinfo i)

def printInfos (procinfo : Pstat) : List Slot → KernelM Unit
  | [] => return
  | i :: rest => do
    printInfo procinfo i
    printInfos procinfo rest

def getpinfo : KernelM (ℤ × Pstat) := do
  acquire .ptable
  let procinfo := pstatOf (← get).kern
  release .ptable
  acquire .ptable
  printInfos procinfo (finRange NPROC)
  release .ptable
  return (0, procinfo)

def kill (pid : ℤ) : KernelM ℤ := do
  acquire .ptable
  match (← get).kern.findPid pid with
  | some p =>
    modifyTable fun k => k.modify p Kernel.killOne
    release .ptable
    return 0
  | none =>
    release .ptable
    return -1

def wakeup (chan : Chan) : KernelM Unit := do
  acquire .ptable
  modifyTable fun k => k.wakeup1 chan
  release .ptable

/-- The state in which the kernel calls these functions: the table lock is free. -/
structure Ready (s : CpuState) : Prop where
  depth : 0 ≤ s.ncli
  free : (s.locks .ptable).locked = false

/-- The state after one critical section of the table lock that leaves the table `k`. -/
def atomically (s : CpuState) (k : Kernel) : CpuState :=
  (withTable (s.acquired .ptable) k).released .ptable

variable {s : CpuState}

theorem Ready.not_holds (h : Ready s) : ¬ s.Holds .ptable := by
  rintro ⟨hlocked, _⟩
  rw [h.free] at hlocked
  cases hlocked

theorem Ready.run_acquire (h : Ready s) : (acquire .ptable).run s = .ok () (s.acquired .ptable) :=
  Spinlock.run_acquire h.depth h.not_holds

theorem Ready.run_release (h : Ready s) (k : Kernel) :
    (release .ptable).run (withTable (s.acquired .ptable) k) = .ok () (atomically s k) := by
  have hshield : (withTable (s.acquired .ptable) k).Shielded :=
    { acquired_shielded h.depth .ptable with }
  exact Spinlock.run_release hshield (acquired_holds s .ptable)

theorem Ready.run_release_unchanged (h : Ready s) :
    (release .ptable).run (s.acquired .ptable) = .ok () (atomically s s.kern) :=
  h.run_release s.kern

@[simp] theorem acquired_kern (s : CpuState) (lk : LockName) : (s.acquired lk).kern = s.kern := rfl

@[simp] theorem atomically_kern (s : CpuState) (k : Kernel) : (atomically s k).kern = k := rfl

@[simp] theorem atomically_ncli (s : CpuState) (k : Kernel) : (atomically s k).ncli = s.ncli :=
  popped_pushed_ncli s

/-- A state after a call that has returned: ready at the same depth, with the same process, and
the console lock is not taken. -/
structure Returned (s t : CpuState) : Prop where
  ready : Ready t
  ncli : t.ncli = s.ncli
  proc : t.proc = s.proc
  quiet : ¬ s.Holds .cons → ¬ t.Holds .cons

theorem Returned.trans {s t u : CpuState} (h : Returned s t) (h' : Returned t u) : Returned s u :=
  ⟨h'.ready, h'.ncli.trans h.ncli, h'.proc.trans h.proc, fun hs => h'.quiet (h.quiet hs)⟩

theorem Ready.atomically (h : Ready s) (k : Kernel) : Returned s (atomically s k) where
  ready := ⟨by rw [atomically_ncli]; exact h.depth, rfl⟩
  ncli := atomically_ncli s k
  proc := rfl
  quiet := id

theorem run_setpriority (h : Ready s) (pid : ℤ) {priority : ℤ}
    (hrange : ¬ (priority < 0 ∨ priority > MAXPRIORITY)) :
    (setpriority pid priority).run s = .ok (s.kern.setpriority pid priority).1
      (atomically s (s.kern.setpriority pid priority).2) := by
  unfold setpriority Kernel.setpriority
  simp only [run_bind, h.run_acquire, if_neg hrange, run_get, acquired_kern]
  cases s.kern.findPid pid with
  | some p =>
    simp only [modifyTable, run_bind, run_modify, acquired_kern, h.run_release, run_pure]
  | none => simp only [run_bind, h.run_release_unchanged, run_pure]

/-- With a priority out of range the call returns without the release. -/
theorem run_setpriority_out_of_range (h : Ready s) (pid : ℤ) {priority : ℤ}
    (hrange : priority < 0 ∨ priority > MAXPRIORITY) :
    (setpriority pid priority).run s = .ok (-1) (s.acquired .ptable) := by
  simp only [setpriority, run_bind, h.run_acquire, if_pos hrange, run_pure]

theorem run_getpriority (h : Ready s) (pid : ℤ) :
    (getpriority pid).run s = .ok (s.kern.getpriority pid) (atomically s s.kern) := by
  unfold getpriority Kernel.getpriority
  simp only [run_bind, h.run_acquire, run_get, acquired_kern]
  cases s.kern.findLive pid with
  | some p =>
    simp only [run_bind, h.run_release_unchanged, run_get, atomically_kern, run_pure]
  | none => simp only [run_bind, h.run_release_unchanged, run_pure]

theorem run_kill (h : Ready s) (pid : ℤ) :
    (kill pid).run s = .ok (s.kern.kill pid).1 (atomically s (s.kern.kill pid).2) := by
  unfold kill Kernel.kill
  simp only [run_bind, h.run_acquire, run_get, acquired_kern]
  cases s.kern.findPid pid with
  | some p =>
    simp only [modifyTable, run_bind, run_modify, acquired_kern, h.run_release, run_pure]
  | none => simp only [run_bind, h.run_release_unchanged, run_pure]

theorem run_wakeup (h : Ready s) (chan : Chan) :
    (wakeup chan).run s = .ok () (atomically s (s.kern.wakeup1 chan)) := by
  simp only [wakeup, modifyTable, run_bind, h.run_acquire, run_modify, acquired_kern, h.run_release]

/-- settickets leaves the table of the process on the CPU and touches no lock. -/
theorem run_settickets (h : Ready s) {c : Slot} (hc : s.proc = some c) (number : ℤ) :
    ∃ t, (settickets number).run s = .ok (s.kern.settickets c number).1
        (withTable t (s.kern.settickets c number).2) ∧ (t = s ∨ t = s.pushed.popped) := by
  unfold settickets Kernel.settickets
  split
  · exact ⟨s, rfl, Or.inl rfl⟩
  · refine ⟨s.pushed.popped, ?_, Or.inr rfl⟩
    simp only [run_bind, run_myproc h.depth, hc, modifyTable, run_modify, run_pure]
    rfl

/-- What printing does to the state of a CPU with interrupts off: it adds to the
output, and it may take the console lock and give it back. -/
def Printed (s t : CpuState) : Prop :=
  ∃ lock out, (lock = s.locks .cons ∨ lock = ⟨false, none⟩) ∧
    t = { s.setLock .cons lock with output := out }

theorem Printed.refl (s : CpuState) : Printed s s := by
  refine ⟨s.locks .cons, s.output, Or.inl rfl, ?_⟩
  simp [CpuState.setLock]

theorem Printed.trans {s t u : CpuState} (hst : Printed s t) (htu : Printed t u) : Printed s u := by
  obtain ⟨lock, out, hlock, rfl⟩ := hst
  obtain ⟨lock', out', hlock', rfl⟩ := htu
  refine ⟨lock', out', ?_, by simp [CpuState.setLock]⟩
  simp only [CpuState.setLock, Function.update_self] at hlock'
  rcases hlock' with rfl | rfl
  · exact hlock
  · exact Or.inr rfl

theorem Printed.shielded {s t : CpuState} (h : Printed s t) (hs : s.Shielded) : t.Shielded := by
  obtain ⟨lock, out, _, rfl⟩ := h
  exact { hs with }

theorem Printed.quiet {s t : CpuState} (h : Printed s t) (hs : ¬ s.Holds .cons) :
    ¬ t.Holds .cons := by
  obtain ⟨lock, out, hlock, rfl⟩ := h
  simp only [CpuState.Holds, CpuState.setLock, Function.update_self] at hs ⊢
  rcases hlock with rfl | rfl
  · exact hs
  · simp

/-- Printing changes neither the depth, the table, the CPU's process nor its locks. -/
theorem Printed.keeps {s t : CpuState} (h : Printed s t) :
    t.ncli = s.ncli ∧ t.kern = s.kern ∧ t.proc = s.proc ∧ (t.Holds .ptable ↔ s.Holds .ptable) := by
  obtain ⟨lock, out, _, rfl⟩ := h
  simp [CpuState.setLock, CpuState.Holds]

/-- Taking a lock inside a critical section and releasing it leaves it free. -/
theorem released_acquired (hs : s.Shielded) (lk : LockName) (out : List String) :
    ({ s.acquired lk with output := out } : CpuState).released lk =
      { s.setLock lk ⟨false, none⟩ with output := out } := by
  obtain ⟨hoff, hdepth⟩ := hs
  have hne : s.ncli ≠ 0 := by omega
  cases s
  simp_all [CpuState.acquired, CpuState.released, CpuState.pushed, CpuState.popped,
    CpuState.setLock]

theorem run_cprintf (hs : s.Shielded) (hquiet : ¬ s.Holds .cons) (text : String) :
    ∃ t, (cprintf text).run s = .ok () t ∧ Printed s t := by
  have hdepth : 0 ≤ s.ncli := by
    have := hs.depth
    omega
  by_cases hlocking : s.locking = true
  · refine ⟨{ s.setLock .cons ⟨false, none⟩ with output := s.output ++ [text] }, ?_,
      ⟨⟨false, none⟩, _, Or.inr rfl, rfl⟩⟩
    have hin : ({ s.acquired .cons with output := s.output ++ [text] } : CpuState).Shielded :=
      { acquired_shielded hdepth .cons with }
    have hholds : ({ s.acquired .cons with output := s.output ++ [text] } : CpuState).Holds .cons :=
      acquired_holds s .cons
    have hrelease := Spinlock.run_release hin hholds
    rw [released_acquired hs] at hrelease
    simp only [cprintf, run_bind, run_get, hlocking, if_true,
      Spinlock.run_acquire hdepth hquiet, run_modify]
    exact hrelease
  · refine ⟨{ s with output := s.output ++ [text] }, ?_,
      s.locks .cons, s.output ++ [text], Or.inl rfl, ?_⟩
    · simp [cprintf, hlocking]
    · simp [CpuState.setLock]

theorem run_printInfo (hs : s.Shielded) (hquiet : ¬ s.Holds .cons) (procinfo : Pstat) (i : Slot) :
    ∃ t, (printInfo procinfo i).run s = .ok () t ∧ Printed s t := by
  unfold printInfo
  split
  · obtain ⟨t, ht, hprinted⟩ := run_cprintf hs hquiet (infoLine s.kern procinfo i)
    exact ⟨t, by simp only [run_bind, run_get, ht], hprinted⟩
  · exact ⟨s, rfl, Printed.refl s⟩

theorem run_printInfos (procinfo : Pstat) (l : List Slot) (hs : s.Shielded)
    (hquiet : ¬ s.Holds .cons) : ∃ t, (printInfos procinfo l).run s = .ok () t ∧ Printed s t := by
  induction l generalizing s with
  | nil => exact ⟨s, rfl, Printed.refl s⟩
  | cons i rest ih =>
    obtain ⟨t, ht, hst⟩ := run_printInfo hs hquiet procinfo i
    obtain ⟨u, hu, htu⟩ := ih (hst.shielded hs) (hst.quiet hquiet)
    refine ⟨u, ?_, hst.trans htu⟩
    simp only [printInfos, run_bind, ht, hu]

/-- getpinfo fills the arrays from the table at entry and leaves the table alone. -/
theorem run_getpinfo (h : Ready s) (hquiet : ¬ s.Holds .cons) :
    ∃ t, getpinfo.run s = .ok (0, pstatOf s.kern) t ∧ Returned s t ∧ t.kern = s.kern := by
  have h' : Ready (atomically s s.kern) := (h.atomically s.kern).ready
  obtain ⟨t, ht, hprinted⟩ := run_printInfos (pstatOf s.kern) (finRange NPROC)
    (acquired_shielded h'.depth .ptable) hquiet
  obtain ⟨hncli, hkern, hproc, hlock⟩ := hprinted.keeps
  have hncli' : (t.released .ptable).ncli = s.ncli := by
    have : ((atomically s s.kern).acquired .ptable).ncli = s.ncli + 1 :=
      congrArg (· + 1) (atomically_ncli s s.kern)
    rw [← hncli] at this
    exact sub_eq_of_eq_add this
  refine ⟨t.released .ptable, ?_, ⟨⟨?_, rfl⟩, hncli', hproc, fun _ => hprinted.quiet hquiet⟩, hkern⟩
  · have hrelease := Spinlock.run_release (hprinted.shielded (acquired_shielded h'.depth _))
      (hlock.mpr (acquired_holds _ _))
    simp only [getpinfo, run_bind, h.run_acquire, run_get, acquired_kern,
      h.run_release_unchanged, h'.run_acquire, ht, hrelease, run_pure]
  · rw [hncli']
    exact h.depth

inductive Call
  | setpriority (pid priority : ℤ)
  | getpriority (pid : ℤ)
  | settickets (number : ℤ)
  | getpinfo
  | kill (pid : ℤ)
  | wakeup (chan : Chan)
  deriving DecidableEq, Repr

/-- What the caller sees to: settickets is called by a process, and getpinfo not while the CPU is
printing. -/
def Call.Expects (s : CpuState) : Call → Prop
  | .settickets _ => s.proc ≠ none
  | .getpinfo => ¬ s.Holds .cons
  | _ => True

theorem Returned.expects {s t : CpuState} (h : Returned s t) :
    ∀ {c : Call}, c.Expects s → c.Expects t
  | .settickets _, hs => by
    rw [Call.Expects, h.proc]
    exact hs
  | .getpinfo, hs => h.quiet hs
  | .setpriority .., _ | .getpriority _, _ | .kill _, _ | .wakeup _, _ => trivial

def perform : Call → KernelM Unit
  | .setpriority pid priority => do let _ ← setpriority pid priority
  | .getpriority pid => do let _ ← getpriority pid
  | .settickets number => do let _ ← settickets number
  | .getpinfo => do let _ ← getpinfo
  | .kill pid => do let _ ← kill pid
  | .wakeup chan => wakeup chan

/-- What happens on a CPU between two of its calls: other CPUs and other code may
leave any table behind. -/
inductive Event
  | call (c : Call)
  | others (k : Kernel)

def handle : Event → KernelM Unit
  | .call c => perform c
  | .others k => modifyTable fun _ => k

def session : List Event → KernelM Unit
  | [] => return
  | e :: rest => do
    handle e
    session rest

def OutOfRange : Event → Prop
  | .call (.setpriority _ priority) => priority < 0 ∨ priority > MAXPRIORITY
  | _ => False

/-- A call that is one critical section comes back to a ready state. -/
theorem Ready.returns (h : Ready s) {α : Type} {x : KernelM α} {a : α} {k : Kernel}
    (hx : x.run s = .ok a (LockedCalls.atomically s k)) :
    ∃ t, (do let _ ← x : KernelM Unit).run s = .ok () t ∧ Returned s t := by
  refine ⟨_, ?_, h.atomically k⟩
  simp only [run_bind, hx, run_pure]

theorem Ready.popped_pushed (h : Ready s) : Returned s s.pushed.popped where
  ready := ⟨by rw [popped_pushed_ncli]; exact h.depth, h.free⟩
  ncli := popped_pushed_ncli s
  proc := rfl
  quiet := id

theorem Ready.withTable (h : Ready s) (k : Kernel) :
    Returned s (LockedCalls.withTable s k) := ⟨{ h with }, rfl, rfl, id⟩

def Event.Expects (s : CpuState) : Event → Prop
  | .call c => c.Expects s
  | .others _ => True

theorem Returned.event {s t : CpuState} (h : Returned s t) :
    ∀ {e : Event}, e.Expects s → e.Expects t
  | .call _, hs => h.expects hs
  | .others _, _ => trivial

/-- Every event with its arguments in range comes back to a ready state. -/
theorem handle_balanced (h : Ready s) {e : Event} (hexpects : e.Expects s)
    (hrange : ¬ OutOfRange e) : ∃ t, (handle e).run s = .ok () t ∧ Returned s t := by
  cases e with
  | others k => exact ⟨withTable s k, rfl, h.withTable k⟩
  | call c =>
    cases c with
    | setpriority pid priority => exact h.returns (run_setpriority h pid hrange)
    | getpriority pid => exact h.returns (run_getpriority h pid)
    | settickets number =>
      obtain ⟨c, hc⟩ := Option.ne_none_iff_exists'.mp hexpects
      obtain ⟨t, hrun, ht⟩ := run_settickets h hc number
      refine ⟨withTable t (s.kern.settickets c number).2, ?_, ?_⟩
      · simp only [handle, perform, run_bind, hrun, run_pure]
      · rcases ht with rfl | rfl
        · exact h.withTable _
        · exact h.popped_pushed.trans (h.popped_pushed.ready.withTable _)
    | getpinfo =>
      obtain ⟨t, hrun, hreturned, _⟩ := run_getpinfo h hexpects
      refine ⟨t, ?_, hreturned⟩
      simp only [handle, perform, run_bind, hrun, run_pure]
    | kill pid => exact h.returns (run_kill h pid)
    | wakeup chan => exact ⟨_, run_wakeup h chan, h.atomically _⟩

/-- A call with its priority out of range returns with the lock taken. -/
theorem handle_out_of_range (h : Ready s) {e : Event} (hrange : OutOfRange e) :
    (handle e).run s = .ok () (s.acquired .ptable) := by
  match e, hrange with
  | .call (.setpriority pid priority), hrange =>
    simp only [handle, perform, run_bind, run_setpriority_out_of_range h pid hrange, run_pure]

theorem session_balanced (h : Ready s) (events : List Event)
    (hexpects : ∀ e ∈ events, e.Expects s) (hrange : ∀ e ∈ events, ¬ OutOfRange e) :
    ∃ t, (session events).run s = .ok () t ∧ Returned s t := by
  induction events generalizing s with
  | nil => exact ⟨s, rfl, h, rfl, rfl, id⟩
  | cons e rest ih =>
    obtain ⟨hfirst, hrest⟩ := forall_mem_cons.mp hexpects
    obtain ⟨t, ht, hreturned⟩ := handle_balanced h hfirst (hrange e mem_cons_self)
    obtain ⟨u, hu, hreturned'⟩ := ih hreturned.ready (fun d hd => hreturned.event (hrest d hd))
      fun d hd => hrange d (mem_cons_of_mem _ hd)
    refine ⟨u, ?_, hreturned.trans hreturned'⟩
    simp only [session, run_bind, ht, hu]

/-- The law for one point of a session: all calls so far have returned, the lock is
free at the depth `d`, and the CPU can take the lock. -/
def Balanced (s : CpuState) (d : ℤ) (events : List Event) : Prop :=
  ∃ t, (session events).run s = .ok () t ∧ (t.locks .ptable).locked = false ∧ t.ncli = d ∧
    ∃ u, (acquire .ptable).run t = .ok () u

/-- From a ready state, every point of a session keeps the law exactly when no call
in it is a setpriority with a priority out of range. -/
theorem lock_balance_iff {s : CpuState} (h : Ready s) (events : List Event)
    (hexpects : ∀ e ∈ events, e.Expects s) :
    (∀ before, before <+: events → Balanced s s.ncli before) ↔ ∀ e ∈ events, ¬ OutOfRange e := by
  constructor
  · intro hall
    induction events generalizing s with
    | nil => simp
    | cons e rest ih =>
      have hrange : ¬ OutOfRange e := by
        intro hrange
        obtain ⟨t, ht, hfree, _⟩ := hall [e] (by simp)
        simp only [session, run_bind, handle_out_of_range h hrange] at ht
        cases ht
        simp [CpuState.acquired, CpuState.setLock] at hfree
      obtain ⟨hfirst, hothers⟩ := forall_mem_cons.mp hexpects
      obtain ⟨t, ht, hreturned⟩ := handle_balanced h hfirst hrange
      have hrest : ∀ d ∈ rest, ¬ OutOfRange d := by
        refine ih hreturned.ready (fun d hd => hreturned.event (hothers d hd)) fun before hbefore => ?_
        have := hall (e :: before) (by simpa using hbefore)
        simpa only [Balanced, session, run_bind, ht, hreturned.ncli] using this
      intro d hd
      rcases mem_cons.mp hd with rfl | hd
      · exact hrange
      · exact hrest d hd
  · intro hrange before hbefore
    obtain ⟨t, ht, hreturned⟩ := session_balanced h before
      (fun e he => hexpects e (hbefore.subset he)) fun e he => hrange e (hbefore.subset he)
    exact ⟨t, ht, hreturned.ready.free, hreturned.ncli, _, hreturned.ready.run_acquire⟩

def bootCpu : CpuState where
  me := 0
  interrupts := true
  ncli := 0
  intena := false
  proc := boot.initproc
  locks := fun _ => ⟨false, none⟩
  locking := true
  output := []
  kern := boot

theorem ready_bootCpu : Ready bootCpu where
  depth := by decide
  free := rfl

/-- Setting a priority in range, setting tickets and then listing the processes. -/
theorem lock_balance_iff_getpinfo :
    Balanced bootCpu 0 [.call (.setpriority 1 2), .call (.settickets 5), .call .getpinfo] := by
  refine (lock_balance_iff ready_bootCpu _ ?_).mpr ?_ _ prefix_rfl
  · have hproc : bootCpu.proc ≠ none := by decide
    have hquiet : ¬ bootCpu.Holds .cons := by decide
    simp [Event.Expects, Call.Expects, hproc, hquiet]
  · simp [OutOfRange, MAXPRIORITY]

/-- The call of testMLFQ with priority 3 returns while it holds the lock. -/
theorem setpriority_three_keeps_lock :
    ¬ ∀ s events, Ready s → (∀ e ∈ events, e.Expects s) →
      ∀ before, before <+: events → Balanced s s.ncli before := by
  intro hclaim
  have hbalanced : Balanced bootCpu 0 [.call (.setpriority 1 3)] :=
    hclaim bootCpu [.call (.setpriority 1 3)] ready_bootCpu
      (by simp [Event.Expects, Call.Expects]) _ prefix_rfl
  obtain ⟨t, ht, hfree, _⟩ := hbalanced
  have hrange : OutOfRange (.call (.setpriority 1 3)) := by
    simp [OutOfRange, MAXPRIORITY]
  simp only [session, run_bind, handle_out_of_range ready_bootCpu hrange] at ht
  cases ht
  simp [CpuState.acquired, CpuState.setLock] at hfree

end KernelLabs.LockedCalls

import KernelLabs.LockedCalls
import KernelLabs.LotteryRuns
import KernelLabs.MlfqSteps

/-!
CPU-time accounting. Both schedulers add the ticks of a slice to the slot of its process,
and getpinfo reports the counts of the slots. allocproc, fork and wait do not set the
count of a slot to zero, so that the report is that of the present process only while
no slot with ticks is used again.
-/
namespace KernelLabs.CpuTime

open MachineWords ProcTable ProcLife ProcMoves Runs SliceTimes LockedCalls Function
open Mlfq (Sched SchedPc NeedsLock mlfqDispatch chargeSlice promotePass demote adjustOne nextAt
  elapsed)
open MlfqSteps (nextAt_eq_some mlfqDispatch_state chargeSlice_state promotePass_state)

variable {ncpu : ℕ}

/-- The feedback queues log creations, ticks, and the starts and ends of slices. -/
def mlfqEmit (s : Sched ncpu) : Mlfq.Step ncpu → List SliceTimes.Entry
  | .life a => createdBy s.sys.kern a
  | .tick => [.ticked]
  | .sched c =>
    match s.pc c with
    | .scan level _ first =>
      if level < 0 then []
      else match nextAt s.sys.kern level first with
        | some p => [.started p]
        | none => []
    | .charge _ _ p _ => [.ended p]
    | _ => []

def mlfqSlices (ncpu : ℕ) : Machine (Sched ncpu) (Mlfq.Step ncpu) SliceTimes.Entry where
  step := Sched.step
  emit := mlfqEmit

def pcView : SchedPc → Cpu
  | .released => .free
  | .scan _ _ _ => .busy
  | .promote _ _ _ => .busy
  | .slice _ _ p timeIn => .slice p timeIn
  | .charge _ _ p timeIn => .charge p timeIn

def mlfqView (s : Sched ncpu) : SliceSys ncpu where
  sys := s.sys
  cpu := fun c => pcView (s.pc c)

theorem holdsLock_pcView (pc : SchedPc) : (pcView pc).HoldsLock ↔ pc.HoldsLock := by
  cases pc <;> rfl

variable {s : Sched ncpu}

theorem lockFree_mlfqView : (mlfqView s).LockFree ↔ s.LockFree :=
  forall_congr' fun _ => not_congr (holdsLock_pcView _)

theorem pcView_endSlice (k : Kernel) (pc : SchedPc) :
    pcView (Mlfq.endSlice k pc) = SliceTimes.endSlice k (pcView pc) := by
  cases pc with
  | slice level count p timeIn => exact apply_ite pcView _ _ _
  | _ => rfl

theorem mlfqView_setPc (s : Sched ncpu) (c : Fin ncpu) (k : Kernel) (pc : SchedPc) :
    mlfqView ((s.withKern k).setPc c pc) =
      { sys := { s.sys with kern := k }
        cpu := update (mlfqView s).cpu c (pcView pc) } := by
  simp only [Sched.setPc, Sched.withKern, mlfqView, SliceSys.mk.injEq, true_and]
  funext d
  by_cases hdc : d = c
  · subst hdc
    simp only [update_self]
  · simp only [update_of_ne hdc]

theorem mlfqDispatch_ticks (k : Kernel) (p q : Slot) :
    ((mlfqDispatch k p).proc q).ticks = (k.proc q).ticks := by
  unfold mlfqDispatch Kernel.dispatch
  rw [Kernel.modify_keeps Proc.ticks _ rfl, Kernel.modify_keeps Proc.ticks _ rfl]

theorem demote_ticks (q : Proc) : (demote q).ticks = q.ticks := by
  unfold demote
  split
  · split <;> rfl
  · rfl

theorem promotePass_ticks (k : Kernel) (p : Slot) :
    ((promotePass k).proc p).ticks = (k.proc p).ticks := by
  unfold promotePass Mlfq.adjustPriority
  split
  · simp only [Kernel.mapProc, adjustOne]
    split
    · split <;> rfl
    · rfl
  · rfl

theorem promotePass_clock (k : Kernel) : (promotePass k).ticks = k.ticks := by
  unfold promotePass
  split <;> rfl

/-- A step within the lock, or out of it, that leaves the slices alone. -/
theorem release_setPc {c : Fin ncpu} {k : Kernel} {pc : SchedPc}
    (hold : pcView (s.pc c) = .busy) (hnew : pcView pc = .free ∨ pcView pc = .busy)
    (hstate : ∀ p, (k.proc p).state = (s.sys.kern.proc p).state)
    (hticks : ∀ p, (k.proc p).ticks = (s.sys.kern.proc p).ticks)
    (hclock : k.ticks = s.sys.kern.ticks) :
    SliceStep (mlfqView s) [] (mlfqView ((s.withKern k).setPc c pc)) := by
  have hnot : pcView (s.pc c) ≠ .free := by simp [hold]
  rw [mlfqView_setPc]
  exact .quiet c (pcView pc) k (.inr hold) hnew (fun hfree => absurd hfree hnot) hstate hticks hclock

theorem sliceStep_mlfqSched {c : Fin ncpu} (hen : s.Enabled (.sched c)) :
    SliceStep (mlfqView s) (mlfqEmit s (.sched c)) (mlfqView (s.schedStep c)) := by
  have hcpu : (mlfqView s).cpu c = pcView (s.pc c) := rfl
  have hsame : ∀ pc, s.setPc c pc = (s.withKern s.sys.kern).setPc c pc := fun _ => rfl
  simp only [Sched.Enabled] at hen
  simp only [Sched.schedStep, mlfqEmit]
  cases hpc : s.pc c with
  | released =>
    rw [hpc] at hen hcpu
    dsimp only
    rw [hsame, mlfqView_setPc]
    exact .quiet c _ s.sys.kern (.inl hcpu) (.inr rfl) (fun _ => lockFree_mlfqView.mpr hen)
      (fun _ => rfl) (fun _ => rfl) rfl
  | scan level count first =>
    have hbusy : pcView (s.pc c) = .busy := by rw [hpc]; rfl
    dsimp only
    split
    · rw [hsame]
      exact release_setPc hbusy (.inl rfl) (fun _ => rfl) (fun _ => rfl) rfl
    · cases hnext : nextAt s.sys.kern level first with
      | none =>
        dsimp only
        rw [hsame]
        refine release_setPc hbusy (.inr ?_) (fun _ => rfl) (fun _ => rfl) rfl
        split <;> rfl
      | some p =>
        dsimp only
        rw [mlfqView_setPc]
        refine .dispatch c p _ (hcpu.trans hbusy) (nextAt_eq_some hnext).1 ?_ (fun q hq => ?_)
          (mlfqDispatch_ticks _ p) rfl
        · rw [mlfqDispatch_state, if_pos rfl]
        · rw [mlfqDispatch_state, if_neg hq]
          rfl
  | slice level count p timeIn =>
    rw [hpc] at hen
    exact hen.elim
  | charge level count p timeIn =>
    rw [hpc] at hcpu
    dsimp only
    rw [mlfqView_setPc]
    refine .charge c p timeIn _ hcpu (chargeSlice_state _ p · timeIn) ?_ (fun q hq => ?_) rfl
    · rw [chargeSlice, Kernel.modify_proc_self, demote_ticks]
      rfl
    · rw [chargeSlice, Kernel.modify_proc_ne _ _ hq]
      rfl
  | promote level count p =>
    exact release_setPc (by rw [hpc]; rfl) (.inr rfl) (promotePass_state _) (promotePass_ticks _)
      (promotePass_clock _)

/-- The feedback queues hand out slices as a slice system does. -/
theorem sliceStep_of_mlfqStep {s t : Sched ncpu} {a : Mlfq.Step ncpu}
    (h : (mlfqSlices ncpu).step s a = some t) :
    SliceStep (mlfqView s) ((mlfqSlices ncpu).emit s a) (mlfqView t) := by
  obtain ⟨hen, rfl⟩ := Sched.step_eq_some h
  cases a with
  | life a =>
    have hlife : s.sys.Enabled a ∧ (∀ p, a ≠ .dispatch p) ∧ (NeedsLock a → s.LockFree) := by
      cases a with
      | dispatch p => exact hen.elim
      | _ => exact ⟨hen.1, by simp, hen.2⟩
    obtain ⟨hen, hsched, hlock⟩ := hlife
    simp only [Sched.next, mlfqView, pcView_endSlice]
    exact .life a hen hsched fun hneeds => lockFree_mlfqView.mpr (hlock hneeds)
  | tick => exact .tick
  | sched c => exact sliceStep_mlfqSched hen

/-- allocproc takes no slot in which an earlier process has left ticks. -/
def FreshSlot (k : Kernel) : Act → Prop
  | .forkAlloc _ => ∀ p, k.freeSlot = some p → (k.proc p).ticks = 0
  | _ => True

instance (k : Kernel) : (a : Act) → Decidable (FreshSlot k a)
  | .forkAlloc _ => inferInstanceAs (Decidable (∀ p, k.freeSlot = some p → (k.proc p).ticks = 0))
  | .forkFail _ | .forkCopy _ | .forkDone _ | .exit _ | .wait _ | .kill _ _ | .setpriority _ _ _
  | .settickets _ _ | .fault _ | .sleep _ _ | .yield _ | .wakeup _ | .dispatch _ =>
    inferInstanceAs (Decidable True)

def MlfqFresh (s : Sched ncpu) : Mlfq.Step ncpu → Prop
  | .life a => FreshSlot s.sys.kern a
  | _ => True

instance (s : Sched ncpu) : (a : Mlfq.Step ncpu) → Decidable (MlfqFresh s a)
  | .life a => inferInstanceAs (Decidable (FreshSlot s.sys.kern a))
  | .tick | .sched _ => inferInstanceAs (Decidable True)

def LotteryFresh (s : LotteryRuns.LotterySys ncpu) : LotteryRuns.Step ncpu → Prop
  | .life a => FreshSlot s.sys.kern a
  | _ => True

instance (s : LotteryRuns.LotterySys ncpu) :
    (a : LotteryRuns.Step ncpu) → Decidable (LotteryFresh s a)
  | .life a => inferInstanceAs (Decidable (FreshSlot s.sys.kern a))
  | .tick | .sched _ _ => inferInstanceAs (Decidable True)

theorem FreshSlot.created {k : Kernel} {a : Act} (h : FreshSlot k a) {p : Slot}
    (hp : .created p ∈ createdBy k a) : (k.proc p).ticks = 0 := by
  cases a with
  | forkAlloc c =>
    simp only [createdBy, Option.mem_toList, Option.map_eq_some_iff,
      SliceTimes.Entry.created.injEq, exists_eq_right] at hp
    exact h p hp
  | _ => simp [createdBy] at hp

theorem mlfqFresh_created {a : Mlfq.Step ncpu} (h : MlfqFresh s a) {p : Slot}
    (hp : .created p ∈ mlfqEmit s a) : (s.sys.kern.proc p).ticks = 0 := by
  cases a with
  | life a => exact h.created hp
  | tick => simp [mlfqEmit] at hp
  | sched c =>
    simp only [mlfqEmit] at hp
    split at hp
    · split at hp
      · simp at hp
      · split at hp <;> simp at hp
    · simp at hp
    · simp at hp

theorem lotteryFresh_created {s : LotteryRuns.LotterySys ncpu} {a : LotteryRuns.Step ncpu}
    (h : LotteryFresh s a) {p : Slot} (hp : .created p ∈ s.emit a) :
    (s.sys.kern.proc p).ticks = 0 := by
  cases a with
  | life a => exact h.created hp
  | tick => simp [LotteryRuns.LotterySys.emit] at hp
  | sched c r =>
    simp only [LotteryRuns.LotterySys.emit] at hp
    split at hp
    · split at hp <;> simp at hp
    · simp at hp
    · simp at hp

variable {log : List SliceTimes.Entry}

theorem mlfq_inv
    (hrun : (mlfqSlices ncpu).Run MlfqFresh (Mlfq.start ncpu) log s) : Inv log (mlfqView s) :=
  Machine.Run.invariant (P := fun log s => Inv log (mlfqView s)) inv_start
    (fun _ _ _ _ ih hguard hstep =>
      ih.step (sliceStep_of_mlfqStep hstep) fun _ hp => mlfqFresh_created hguard hp) hrun

theorem lottery_inv {s : LotteryRuns.LotterySys ncpu}
    (hrun : (LotteryRuns.machine ncpu).Run LotteryFresh (LotteryRuns.start ncpu) log s) :
    Inv log s.view :=
  Machine.Run.invariant (P := fun log (s : LotteryRuns.LotterySys ncpu) => Inv log s.view) inv_start
    (fun _ _ _ _ ih hguard hstep =>
      ih.step (LotteryRuns.sliceStep_of_step hstep) fun _ hp => lotteryFresh_created hguard hp) hrun

/-- What getpinfo reports for the slots in use is the sum of the slices of their
processes: the int with that value, and the sum itself where an int holds it. -/
def Reports (log : List SliceTimes.Entry) (k : Kernel) : Prop :=
  ∀ p, (pstatOf k).inuse p = 1 →
    (pstatOf k).ticks p = int32 (sliceSum log p) ∧
      (sliceSum log p ≤ INT_MAX → (pstatOf k).ticks p = sliceSum log p)

theorem reports_of_inv {s : SliceSys ncpu} (h : Inv log s) : Reports log s.sys.kern :=
  fun p _ => ⟨h.accounts.exact p, fun hfits => (h.report_iff p).mpr hfits⟩

/-- CPU-time accounting on any number of CPUs, in every run of either scheduler in which
allocproc takes no slot that still has ticks. -/
theorem reported_ticks (ncpu : ℕ) :
    (∀ log s, (mlfqSlices ncpu).Run MlfqFresh (Mlfq.start ncpu) log s →
      Reports log s.sys.kern) ∧
    ∀ log s, (LotteryRuns.machine ncpu).Run LotteryFresh (LotteryRuns.start ncpu) log s →
      Reports log s.sys.kern :=
  ⟨fun _ _ hrun => reports_of_inv (mlfq_inv hrun), fun _ _ hrun => reports_of_inv (lottery_inv hrun)⟩

def mlfqChildRuns : List (Mlfq.Step 1) :=
  let round := List.replicate 2 (Mlfq.Step.sched ⟨0, Nat.one_pos⟩)
  round ++ [.life (.forkAlloc 0), .life (.forkCopy 0), .life (.forkDone 0), .life (.yield 0)] ++
    round ++ [.sched ⟨0, Nat.one_pos⟩]

def lotteryChildRuns : List (LotteryRuns.Step 1) :=
  let date : Lottery.RtcDate := ⟨1, 0, 0, 1, 1, 1970⟩
  let turn : LotteryRuns.Step 1 := .sched ⟨0, Nat.one_pos⟩ date
  let round := List.replicate 4 turn
  round ++ [.life (.forkAlloc 0), .life (.forkCopy 0), .life (.forkDone 0), .life (.yield 0),
    turn, turn] ++ round

/-- The child in slot 1 runs for two ticks, and two are reported. -/
theorem reported_ticks_child :
    (∃ log s, (mlfqSlices 1).Run MlfqFresh (Mlfq.start 1) log s ∧ sliceSum log 1 = 2 ∧
      (pstatOf s.sys.kern).ticks 1 = 2) ∧
    ∃ log s, (LotteryRuns.machine 1).Run LotteryFresh (LotteryRuns.start 1) log s ∧
      sliceSum log 1 = 2 ∧ (pstatOf s.sys.kern).ticks 1 = 2 := by
  constructor
  · obtain ⟨log, s, hrun, hsum, huse⟩ :=
      Machine.exists_run_of_exec (mlfqSlices 1) MlfqFresh (Mlfq.start 1)
        (mlfqChildRuns ++ [.tick, .tick, .life (.yield 1), .sched 0])
        (fun log s => sliceSum log 1 = 2 ∧ (pstatOf s.sys.kern).inuse 1 = 1)
        (by decide +kernel)
    refine ⟨log, s, hrun, hsum, ?_⟩
    rw [((reported_ticks 1).1 log s hrun 1 huse).2 (by rw [hsum]; decide), hsum]
  · obtain ⟨log, s, hrun, hsum, huse⟩ :=
      Machine.exists_run_of_exec (LotteryRuns.machine 1) LotteryFresh
        (LotteryRuns.start 1)
        (lotteryChildRuns ++ [.tick, .tick, .life (.yield 1), .sched 0 ⟨0, 0, 0, 1, 1, 1970⟩])
        (fun log s => sliceSum log 1 = 2 ∧ (pstatOf s.sys.kern).inuse 1 = 1)
        (by decide +kernel)
    refine ⟨log, s, hrun, hsum, ?_⟩
    rw [((reported_ticks 1).2 log s hrun 1 huse).2 (by rw [hsum]; decide), hsum]

/-- The child runs for three ticks, exits and is reaped; the process that init then forks
has had no slice, and three ticks are reported for it. Under both schedulers. -/
theorem reused_slot_ticks :
    (¬ ∀ log s, (mlfqSlices 1).Run Machine.Free (Mlfq.start 1) log s →
      ∀ p, (pstatOf s.sys.kern).inuse p = 1 → (pstatOf s.sys.kern).ticks p = sliceSum log p) ∧
    ¬ ∀ log s, (LotteryRuns.machine 1).Run Machine.Free (LotteryRuns.start 1) log s →
      ∀ p, (pstatOf s.sys.kern).inuse p = 1 → (pstatOf s.sys.kern).ticks p = sliceSum log p := by
  constructor
  · obtain ⟨log, s, hrun, huse, hsum, hticks⟩ :=
      Machine.exists_run_of_exec (mlfqSlices 1) Machine.Free
        (Mlfq.start 1)
        (mlfqChildRuns ++ [.tick, .tick, .tick, .life (.exit 1), .sched 0, .sched 0, .sched 0,
          .sched 0, .life (.wait 0), .life (.forkAlloc 0)])
        (fun log s => (pstatOf s.sys.kern).inuse 1 = 1 ∧ sliceSum log 1 = 0 ∧
          (pstatOf s.sys.kern).ticks 1 = 3)
        (by decide +kernel)
    intro hclaim
    have := hclaim log s hrun 1 huse
    rw [hsum, hticks] at this
    exact absurd this (by decide)
  · obtain ⟨log, s, hrun, huse, hsum, hticks⟩ :=
      Machine.exists_run_of_exec (LotteryRuns.machine 1) Machine.Free
        (LotteryRuns.start 1)
        (lotteryChildRuns ++ [.tick, .tick, .tick, .life (.exit 1)] ++
          List.replicate 6 (.sched 0 ⟨0, 0, 0, 1, 1, 1970⟩) ++ [.life (.wait 0), .life (.forkAlloc 0)])
        (fun log s => (pstatOf s.sys.kern).inuse 1 = 1 ∧ sliceSum log 1 = 0 ∧
          (pstatOf s.sys.kern).ticks 1 = 3)
        (by decide +kernel)
    intro hclaim
    have := hclaim log s hrun 1 huse
    rw [hsum, hticks] at this
    exact absurd this (by decide)

end KernelLabs.CpuTime

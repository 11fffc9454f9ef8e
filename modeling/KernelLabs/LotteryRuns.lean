import KernelLabs.Lottery
import KernelLabs.SliceTimes

/-!
The lottery scheduler of proc.c as a machine on any number of CPUs. A round takes
ptable.lock twice: for the scan that adds up the tickets, and for the scan that looks
for the holder of the chosen one. In between the table may change. The date that rand
reads is part of the step that chooses the ticket.

Seen through their slices, these steps are steps of a slice system.
-/
namespace KernelLabs.LotteryRuns

open MachineWords ProcTable ProcLife ProcMoves Runs Lottery SliceTimes Function
open Mlfq (NeedsLock)

/-- Where a CPU stands in lotterysched, with runnable_tickets, chosen_ticket, p and
startticks as far as they are still needed. -/
inductive LotteryPc
  | released
  | first
  | counted (runnable : ℤ)
  | second (chosen : ℤ)
  | slice (p : Slot) (startticks : ℤ)
  | charge (p : Slot) (startticks : ℤ)
  | finish
  deriving DecidableEq, Repr

def LotteryPc.HoldsLock : LotteryPc → Prop
  | .first => True
  | .second _ => True
  | .charge _ _ => True
  | .finish => True
  | _ => False

instance (pc : LotteryPc) : Decidable pc.HoldsLock :=
  match pc with
  | .first | .second _ | .charge _ _ | .finish => isTrue trivial
  | .released | .counted _ | .slice _ _ => isFalse id

def giveBack (k : Kernel) : LotteryPc → LotteryPc
  | .slice p startticks =>
    if (k.proc p).state = .running then .slice p startticks else .charge p startticks
  | pc => pc

def switchTo (k : Kernel) (p : Slot) : Kernel := (lotteryDispatch k p).dispatch p

def chargeTicks (k : Kernel) (p : Slot) (startticks : ℤ) : Kernel :=
  k.modify p fun q => { q with ticks := int32 (q.ticks + int32 (int32 k.ticks - startticks)) }

structure LotterySys (ncpu : ℕ) where
  sys : Sys
  pc : Fin ncpu → LotteryPc

inductive Step (ncpu : ℕ)
  | life (a : Act)
  | tick
  | sched (c : Fin ncpu) (r : RtcDate)

namespace LotterySys

variable {ncpu : ℕ}

def LockFree (s : LotterySys ncpu) : Prop := ∀ c, ¬ (s.pc c).HoldsLock

instance (s : LotterySys ncpu) : Decidable s.LockFree := by
  unfold LockFree
  infer_instance

/-- A CPU waits where it has to take the lock, and while its process runs. -/
def Ready (s : LotterySys ncpu) : LotteryPc → Prop
  | .released => s.LockFree
  | .counted runnable => 0 < runnable → s.LockFree
  | .slice _ _ => False
  | _ => True

instance (s : LotterySys ncpu) (pc : LotteryPc) : Decidable (s.Ready pc) := by
  unfold Ready
  split <;> infer_instance

def Enabled (s : LotterySys ncpu) : Step ncpu → Prop
  | .life a => s.sys.Enabled a ∧ (∀ p, a ≠ .dispatch p) ∧ (NeedsLock a → s.LockFree)
  | .tick => True
  | .sched c _ => s.Ready (s.pc c)

instance (s : LotterySys ncpu) (a : Step ncpu) : Decidable (s.Enabled a) := by
  unfold Enabled
  split <;> infer_instance

def go (s : LotterySys ncpu) (c : Fin ncpu) (k : Kernel) (pc : LotteryPc) : LotterySys ncpu :=
  { sys := { s.sys with kern := k }, pc := update s.pc c pc }

def schedStep (s : LotterySys ncpu) (c : Fin ncpu) (r : RtcDate) : LotterySys ncpu :=
  match s.pc c with
  | .released => s.go c s.sys.kern .first
  | .first => s.go c s.sys.kern (.counted (runnableTickets s.sys.kern))
  | .counted runnable =>
    if 0 < runnable then s.go c s.sys.kern (.second (chosenTicket r runnable))
    else s.go c s.sys.kern .released
  | .second chosen =>
    match drawTicket s.sys.kern chosen with
    | some p => s.go c (switchTo s.sys.kern p) (.slice p (int32 s.sys.kern.ticks))
    | none => s.go c s.sys.kern .released
  | .slice _ _ => s
  | .charge p startticks => s.go c (chargeTicks s.sys.kern p startticks) .finish
  | .finish => s.go c s.sys.kern .released

def next (s : LotterySys ncpu) : Step ncpu → LotterySys ncpu
  | .life a => { sys := s.sys.next a, pc := fun c => giveBack (s.sys.next a).kern (s.pc c) }
  | .tick => { s with sys := { s.sys with kern := Mlfq.advance s.sys.kern } }
  | .sched c r => s.schedStep c r

def step (s : LotterySys ncpu) (a : Step ncpu) : Option (LotterySys ncpu) :=
  if s.Enabled a then some (s.next a) else none

def emit (s : LotterySys ncpu) : Step ncpu → List SliceTimes.Entry
  | .life a => createdBy s.sys.kern a
  | .tick => [.ticked]
  | .sched c _ =>
    match s.pc c with
    | .second chosen =>
      match drawTicket s.sys.kern chosen with
      | some p => [.started p]
      | none => []
    | .charge p _ => [.ended p]
    | _ => []

end LotterySys

def machine (ncpu : ℕ) : Machine (LotterySys ncpu) (Step ncpu) SliceTimes.Entry where
  step := LotterySys.step
  emit := LotterySys.emit

def start (ncpu : ℕ) : LotterySys ncpu where
  sys := ProcLife.start
  pc := fun _ => .released

/-- The CPU without the local variables that only the lottery has. -/
def LotteryPc.view : LotteryPc → Cpu
  | .released => .free
  | .counted _ => .free
  | .first => .busy
  | .second _ => .busy
  | .finish => .busy
  | .slice p startticks => .slice p startticks
  | .charge p startticks => .charge p startticks

variable {ncpu : ℕ}

def LotterySys.view (s : LotterySys ncpu) : SliceSys ncpu where
  sys := s.sys
  cpu := fun c => (s.pc c).view

theorem holdsLock_view (pc : LotteryPc) : pc.view.HoldsLock ↔ pc.HoldsLock := by
  cases pc <;> rfl

variable {s : LotterySys ncpu}

theorem lockFree_view : s.view.LockFree ↔ s.LockFree :=
  forall_congr' fun _ => not_congr (holdsLock_view _)

theorem view_giveBack (k : Kernel) (pc : LotteryPc) :
    (giveBack k pc).view = endSlice k pc.view := by
  cases pc with
  | slice p startticks => exact apply_ite LotteryPc.view _ _ _
  | _ => rfl

theorem view_go (s : LotterySys ncpu) (c : Fin ncpu) (k : Kernel) (pc : LotteryPc) :
    (s.go c k pc).view =
      { sys := { s.sys with kern := k }, cpu := update s.view.cpu c pc.view } := by
  simp only [LotterySys.go, LotterySys.view, SliceSys.mk.injEq, true_and]
  funext d
  by_cases hdc : d = c
  · subst hdc
    simp only [update_self]
  · simp only [update_of_ne hdc]

theorem acquire_go {c : Fin ncpu} {pc : LotteryPc}
    (hold : (s.pc c).view = .free) (hlock : s.LockFree) (hnew : pc.view = .busy) :
    SliceStep s.view [] (s.go c s.sys.kern pc).view := by
  rw [view_go]
  exact .quiet c pc.view s.sys.kern (.inl hold) (.inr hnew) (fun _ => lockFree_view.mpr hlock)
    (fun _ => rfl) (fun _ => rfl) rfl

theorem release_go {c : Fin ncpu} {pc : LotteryPc} (hold : (s.pc c).view = .busy)
    (hnew : pc.view = .free) : SliceStep s.view [] (s.go c s.sys.kern pc).view := by
  have hnot : (s.pc c).view ≠ .free := by simp [hold]
  rw [view_go]
  exact .quiet c pc.view s.sys.kern (.inr hold) (.inl hnew) (fun hfree => absurd hfree hnot)
    (fun _ => rfl) (fun _ => rfl) rfl

theorem switchTo_state (k : Kernel) (p q : Slot) :
    ((switchTo k p).proc q).state = if q = p then .running else (k.proc q).state := by
  unfold switchTo lotteryDispatch Kernel.dispatch
  by_cases hqp : q = p
  · subst hqp
    rw [if_pos rfl, Kernel.modify_proc_self]
  · rw [if_neg hqp, Kernel.modify_proc_ne _ _ hqp, Kernel.modify_proc_ne _ _ hqp]

theorem switchTo_ticks (k : Kernel) (p q : Slot) :
    ((switchTo k p).proc q).ticks = (k.proc q).ticks := by
  unfold switchTo lotteryDispatch Kernel.dispatch
  rw [Kernel.modify_keeps Proc.ticks _ rfl, Kernel.modify_keeps Proc.ticks _ rfl]

theorem sliceStep_schedStep {c : Fin ncpu} (r : RtcDate) (hready : s.Ready (s.pc c)) :
    SliceStep s.view (s.emit (.sched c r)) (s.schedStep c r).view := by
  have hcpu : s.view.cpu c = (s.pc c).view := rfl
  simp only [LotterySys.schedStep, LotterySys.emit]
  cases hpc : s.pc c with
  | released =>
    rw [hpc] at hready
    exact acquire_go (by rw [hpc]; rfl) hready rfl
  | first => exact release_go (by rw [hpc]; rfl) rfl
  | counted runnable =>
    rw [hpc] at hready hcpu
    dsimp only
    split
    · rename_i hpos
      exact acquire_go (by rw [hpc]; rfl) (hready hpos) rfl
    · have hsame : (s.go c s.sys.kern .released).view = s.view := by
        rw [view_go, show LotteryPc.released.view = s.view.cpu c from hcpu.symm, update_eq_self]
        rfl
      rw [hsame]
      exact .idle
  | second chosen =>
    rw [hpc] at hcpu
    dsimp only
    cases hdraw : drawTicket s.sys.kern chosen with
    | none => exact release_go (by rw [hpc]; rfl) rfl
    | some p =>
      dsimp only
      rw [view_go]
      refine .dispatch c p _ hcpu (drawTicket_runnable hdraw) ?_ (fun q hq => ?_)
        (switchTo_ticks _ p) rfl
      · rw [switchTo_state, if_pos rfl]
      · rw [switchTo_state, if_neg hq]
        rfl
  | slice p startticks =>
    rw [hpc] at hready
    exact hready.elim
  | charge p startticks =>
    rw [hpc] at hcpu
    dsimp only
    rw [view_go]
    refine .charge c p startticks _ hcpu (fun q => ?_) ?_ (fun q hq => ?_) rfl
    · exact Kernel.modify_keeps Proc.state _ rfl q
    · rw [chargeTicks, Kernel.modify_proc_self]
      rfl
    · rw [chargeTicks, Kernel.modify_proc_ne _ _ hq]
      rfl
  | finish => exact release_go (by rw [hpc]; rfl) rfl

theorem sliceStep_of_step {s t : LotterySys ncpu} {a : Step ncpu}
    (h : (machine ncpu).step s a = some t) : SliceStep s.view ((machine ncpu).emit s a) t.view := by
  simp only [machine, LotterySys.step, Option.ite_none_right_eq_some, Option.some.injEq] at h
  obtain ⟨hen, rfl⟩ := h
  cases a with
  | life a =>
    obtain ⟨hen, hsched, hlock⟩ := hen
    simp only [LotterySys.next, LotterySys.view, view_giveBack]
    exact .life a hen hsched fun hneeds => lockFree_view.mpr (hlock hneeds)
  | tick => exact .tick
  | sched c r => exact sliceStep_schedStep r hen

end KernelLabs.LotteryRuns

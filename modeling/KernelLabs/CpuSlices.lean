import KernelLabs.CpuTime

/-!
Which process is on which CPU. Under both schedulers and on any number of CPUs, whatever
the processes do, the RUNNING processes are those that have a slice, on one CPU each.
-/
namespace KernelLabs.CpuTime

open ProcTable ProcMoves Runs SliceTimes Function

variable {ncpu : ℕ}

structure Placed (s : SliceSys ncpu) : Prop where
  forks : ForkOk s.sys
  cpus : CpuOk s
  somewhere : ∀ p, (s.sys.kern.proc p).state = .running → ∃ c began, s.cpu c = .slice p began

namespace Placed

variable {s t : SliceSys ncpu} {new : List SliceTimes.Entry}

/-- A change of one CPU that has no slice loses no process. -/
theorem somewhere_update (h : Placed s) {c : Fin ncpu} {cpu : Cpu} {p : Slot}
    (hold : ∀ began, s.cpu c ≠ .slice p began) (hp : (s.sys.kern.proc p).state = .running) :
    ∃ d began, update s.cpu c cpu d = .slice p began := by
  obtain ⟨d, began, hd⟩ := h.somewhere p hp
  refine ⟨d, began, ?_⟩
  rw [update_of_ne]
  · exact hd
  · rintro rfl
    exact hold began hd

theorem step (h : Placed s) (hstep : SliceStep s new t) : Placed t := by
  refine ⟨ForkOk.step h.forks hstep, h.cpus.step h.forks hstep, ?_⟩
  cases hstep with
  | life a hen hsched hlock =>
    intro p hp
    obtain ⟨c, began, hc⟩ := h.somewhere p (running_of_next hen hsched hp)
    exact ⟨c, began, by simp only [hc, endSlice, if_pos hp]⟩
  | tick => exact h.somewhere
  | idle => exact h.somewhere
  | quiet c cpu k hold _ _ hstate _ _ =>
    intro p hp
    refine h.somewhere_update (fun began hc => ?_) ((hstate p).symm.trans hp)
    simp [hc] at hold
  | dispatch c q k hold _ _ hstate _ _ =>
    intro p hp
    by_cases hpq : p = q
    · subst hpq
      exact ⟨c, _, update_self ..⟩
    · exact h.somewhere_update (by simp [hold]) ((hstate p hpq).symm.trans hp)
  | charge c q began k hold hstate _ _ _ =>
    intro p hp
    exact h.somewhere_update (by simp [hold]) ((hstate p).symm.trans hp)

theorem start : Placed ({ sys := ProcLife.start, cpu := fun _ => .free } : SliceSys ncpu) := by
  refine ⟨forkOk_start, inv_start.cpus, fun p hp => ?_⟩
  simp only [ProcLife.start, boot_proc] at hp
  split at hp <;> cases hp

theorem running_iff (h : Placed s) (p : Slot) :
    (s.sys.kern.proc p).state = .running ↔ ∃! c, ∃ began, s.cpu c = .slice p began := by
  constructor
  · intro hp
    obtain ⟨c, began, hc⟩ := h.somewhere p hp
    refine ⟨c, ⟨began, hc⟩, ?_⟩
    rintro d ⟨began', hd⟩
    exact h.cpus.alone d c p began' began hd hc
  · rintro ⟨c, ⟨began, hc⟩, -⟩
    exact h.cpus.running c p began hc

end Placed

/-- In every run of either scheduler a process is RUNNING exactly when one CPU runs it,
and then no other CPU does. -/
theorem running_iff_one_cpu (ncpu : ℕ) :
    (∀ log s, (mlfqSlices ncpu).Run Machine.Free (Mlfq.start ncpu) log s → ∀ p,
      (s.sys.kern.proc p).state = .running ↔ ∃! c, ∃ began, pcView (s.pc c) = .slice p began) ∧
    ∀ log s, (LotteryRuns.machine ncpu).Run Machine.Free (LotteryRuns.start ncpu) log s → ∀ p,
      (s.sys.kern.proc p).state = .running ↔ ∃! c, ∃ began, (s.view.cpu c) = .slice p began := by
  refine ⟨fun log s hrun p => ?_, fun log s hrun p => ?_⟩
  · refine Placed.running_iff (s := mlfqView s) ?_ p
    exact Machine.Run.invariant (P := fun _ s => Placed (mlfqView s)) .start
      (fun _ _ _ _ ih _ hstep => ih.step (sliceStep_of_mlfqStep hstep)) hrun
  · refine Placed.running_iff (s := s.view) ?_ p
    exact Machine.Run.invariant (P := fun _ (s : LotteryRuns.LotterySys ncpu) => Placed s.view)
      .start (fun _ _ _ _ ih _ hstep => ih.step (LotteryRuns.sliceStep_of_step hstep)) hrun

/-- With two CPUs, init runs on the second one under the feedback queues. -/
theorem running_iff_one_cpu_init :
    ∃ log s, (mlfqSlices 2).Run Machine.Free (Mlfq.start 2) log s ∧
      ∃! c, ∃ began, pcView (s.pc c) = .slice 0 began := by
  obtain ⟨log, s, hrun, hP⟩ := Machine.exists_run_of_exec (mlfqSlices 2) Machine.Free
    (Mlfq.start 2) [.sched 1, .sched 1]
    (fun _ s => (s.sys.kern.proc 0).state = .running) (by decide +kernel)
  exact ⟨log, s, hrun, ((running_iff_one_cpu 2).1 log s hrun 0).mp hP⟩

end KernelLabs.CpuTime

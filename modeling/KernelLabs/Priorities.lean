import KernelLabs.MlfqSteps

/-!
setpriority and getpriority on the tables that can be reached. getpriority skips UNUSED slots
and setpriority does not, and a slot that becomes free keeps pid 0 or, after a failed fork, the
pid of the child that was not made. The two calls agree unless setpriority stops at such a slot.
-/
namespace KernelLabs.Priorities

open ProcTable ProcLife Runs Mlfq MlfqSteps

/-- The tables of the runs under mlfqsched on any number of CPUs, and of those under a
scheduler that switches to any RUNNABLE process. -/
def Reachable (k : Kernel) : Prop :=
  (∃ ncpu log s, (Mlfq.machine ncpu).Run Machine.Free (Mlfq.start ncpu) log s ∧ s.sys.kern = k) ∨
    ∃ log s, ProcLife.machine.Run Machine.Free ProcLife.start log s ∧ s.kern = k

def PrioritiesOk (k : Kernel) : Prop :=
  ∀ p, (k.proc p).state ≠ .unused → 0 ≤ (k.proc p).priority ∧ (k.proc p).priority ≤ MAXPRIORITY

/-- The life of processes without a CPU that runs mlfqsched. -/
def lifeOnly (s : Sys) : Sched 0 where
  sys := s
  pc := finZeroElim

theorem lifeOnly_step {s t : Sys} {a : Act} (h : s.step a = some t)
    (ha : ∀ p, a ≠ .dispatch p) : (lifeOnly s).step (.life a) = some (lifeOnly t) := by
  obtain ⟨hen, rfl⟩ := Sys.step_eq_some h
  have hen' : (lifeOnly s).Enabled (.life a) := by
    cases a <;> first | exact ⟨hen, fun _ c => c.elim0⟩ | exact absurd rfl (ha _)
  rw [Sched.step, if_pos hen']
  refine congrArg some ?_
  simp only [Sched.next, lifeOnly, Sched.mk.injEq, true_and]
  funext c
  exact c.elim0

theorem priorityOk_lifeOnly_step {s t : Sys} {a : Act} (h : PriorityOk (lifeOnly s))
    (hstep : s.step a = some t) : PriorityOk (lifeOnly t) := by
  by_cases hdispatch : ∃ p, a = .dispatch p
  · obtain ⟨p, rfl⟩ := hdispatch
    obtain ⟨hen, rfl⟩ := Sys.step_eq_some hstep
    intro q hq
    have hsame : ((s.kern.dispatch p).proc q).priority = (s.kern.proc q).priority := by
      unfold Kernel.dispatch
      exact s.kern.modify_keeps Proc.priority rfl q
    rcases ProcMoves.claimed_of_next hen hq with hclaimed | ⟨c, heq, _⟩
    · simp only [lifeOnly, Sys.next, hsame]
      exact h q hclaimed
    · contradiction
  · exact priorityOk_step h (lifeOnly_step hstep fun p hp => hdispatch ⟨p, hp⟩)

theorem Reachable.prioritiesOk {k : Kernel} (h : Reachable k) : PrioritiesOk k := by
  rcases h with ⟨ncpu, log, s, hrun, rfl⟩ | ⟨log, s, hrun, rfl⟩
  · intro p hp
    exact priorityOk_of_run hrun p (.inl hp)
  · have hok : PriorityOk (lifeOnly s) := by
      refine Machine.Run.invariant (P := fun _ s => PriorityOk (lifeOnly s)) ?_
        (fun _ _ _ _ ih _ hstep => priorityOk_lifeOnly_step ih hstep) hrun
      intro p hp
      exact start_priorityOk 0 p hp
    intro p hp
    exact hok p (.inl hp)

/-! ### The two searches -/

section Search

variable {k : Kernel} {pid priority : ℤ} {p : Slot}

theorem findPid_eq_none : k.findPid pid = none ↔ ∀ p, (k.proc p).pid ≠ pid := by
  unfold Kernel.findPid
  simp

theorem findLive_eq_none :
    k.findLive pid = none ↔ ∀ p, (k.proc p).pid = pid → (k.proc p).state = .unused := by
  unfold Kernel.findLive
  simp

theorem findLive_spec (h : k.findLive pid = some p) :
    (k.proc p).pid = pid ∧ (k.proc p).state ≠ .unused := by
  unfold Kernel.findLive at h
  simpa using (Fin.find?_eq_some_iff.mp h).1

/-- A process in the first slot with its pid is found by both searches. -/
theorem findLive_of_findPid (h : k.findPid pid = some p) (hlive : (k.proc p).state ≠ .unused) :
    k.findLive pid = some p := by
  have hpid := Kernel.findPid_pid h
  unfold Kernel.findPid at h
  unfold Kernel.findLive
  obtain ⟨_, hbefore⟩ := Fin.find?_eq_some_iff.mp h
  refine Fin.find?_eq_some_iff.mpr ⟨decide_eq_true ⟨hpid, hlive⟩, fun q hq => ?_⟩
  have hne := of_decide_eq_false (hbefore q hq)
  exact decide_eq_false fun hboth => hne hboth.1

theorem findLive_prioritize (k : Kernel) (p : Slot) (priority pid : ℤ) :
    (k.modify p (Kernel.prioritize priority)).findLive pid = k.findLive pid := by
  have hpid := k.modify_keeps Proc.pid (i := p) (f := Kernel.prioritize priority) rfl
  have hstate := k.modify_keeps Proc.state (i := p) (f := Kernel.prioritize priority) rfl
  unfold Kernel.findLive
  simp only [hpid, hstate]

theorem getpriority_eq (h : k.findLive pid = some p) : k.getpriority pid = (k.proc p).priority := by
  rw [Kernel.getpriority, h]

/-- getpriority after setpriority has changed slot `p`, for a pid whose process is in another
slot. -/
theorem getpriority_prioritize_of_ne (h : k.findLive pid ≠ some p) :
    (k.modify p (Kernel.prioritize priority)).getpriority pid = k.getpriority pid := by
  unfold Kernel.getpriority
  rw [findLive_prioritize]
  cases hfind : k.findLive pid with
  | none => rfl
  | some q =>
    have hqp : q ≠ p := by
      rintro rfl
      exact h hfind
    dsimp only
    rw [k.modify_proc_ne _ hqp]

theorem getpriority_prioritize (h : k.findLive pid = some p) :
    (k.modify p (Kernel.prioritize priority)).getpriority pid = priority := by
  rw [getpriority_eq (p := p) (by rw [findLive_prioritize, h]), Kernel.modify_proc_self]
  rfl

theorem getpriority_ne_iff (hok : PrioritiesOk k) :
    k.getpriority pid ≠ -1 ↔ ∃ p, (k.proc p).state ≠ .unused ∧ (k.proc p).pid = pid := by
  cases hfind : k.findLive pid with
  | none =>
    have hnone : k.getpriority pid = -1 := by rw [Kernel.getpriority, hfind]
    refine iff_of_false (not_not_intro hnone) ?_
    rintro ⟨p, hstate, hpid⟩
    exact hstate (findLive_eq_none.mp hfind p hpid)
  | some p =>
    obtain ⟨hpid, hstate⟩ := findLive_spec hfind
    have hrange := (hok p hstate).1
    refine iff_of_true ?_ ⟨p, hstate, hpid⟩
    rw [getpriority_eq hfind]
    omega

theorem setpriority_of_some (hlow : 0 ≤ priority) (hhigh : priority ≤ MAXPRIORITY)
    (h : k.findPid pid = some p) :
    k.setpriority pid priority = (0, k.modify p (Kernel.prioritize priority)) := by
  rw [Kernel.setpriority, if_neg (by omega), h]

theorem setpriority_of_none (h : k.findPid pid = none) : (k.setpriority pid priority).1 = -1 := by
  rw [Kernel.setpriority, h]
  split <;> rfl

end Search

/-! ### Agreement -/

structure Agrees (k : Kernel) (pid priority : ℤ) : Prop where
  returns : (k.setpriority pid priority).1 = 0 ↔ k.getpriority pid ≠ -1
  live : k.getpriority pid ≠ -1 ↔ ∃ p, (k.proc p).state ≠ .unused ∧ (k.proc p).pid = pid
  stored : (k.setpriority pid priority).1 = 0 →
    (k.setpriority pid priority).2.getpriority pid = priority
  others : (k.setpriority pid priority).1 = 0 → ∀ other, other ≠ pid →
    (k.setpriority pid priority).2.getpriority other = k.getpriority other

/-- The calls agree if and only if setpriority does not stop at an UNUSED slot, or the process
with that pid has the priority already. -/
theorem setpriority_agrees_iff {k : Kernel} (hreach : Reachable k) (pid : ℤ) {priority : ℤ}
    (hlow : 0 ≤ priority) (hhigh : priority ≤ MAXPRIORITY) :
    Agrees k pid priority ↔
      ∀ p, k.findPid pid = some p → (k.proc p).state = .unused → k.getpriority pid = priority := by
  have hlive : k.getpriority pid ≠ -1 ↔ ∃ p, (k.proc p).state ≠ .unused ∧ (k.proc p).pid = pid :=
    getpriority_ne_iff hreach.prioritiesOk
  -- an UNUSED slot is not what getpriority finds
  have hskip : ∀ p other, (k.proc p).state = .unused → k.findLive other ≠ some p :=
    fun p other hunused hfind => (findLive_spec hfind).2 hunused
  constructor
  · intro h p hfind hunused
    have hset := setpriority_of_some hlow hhigh hfind
    have hstored := h.stored (by rw [hset])
    rwa [hset, getpriority_prioritize_of_ne (hskip p pid hunused)] at hstored
  · intro h
    cases hfind : k.findPid pid with
    | none =>
      have hfail : (k.setpriority pid priority).1 ≠ 0 := by
        rw [setpriority_of_none hfind]
        decide
      have habsent : ¬∃ p, (k.proc p).state ≠ .unused ∧ (k.proc p).pid = pid :=
        fun ⟨p, _, hpid⟩ => findPid_eq_none.mp hfind p hpid
      exact ⟨iff_of_false hfail (mt hlive.mp habsent), hlive, fun hzero => absurd hzero hfail,
        fun hzero => absurd hzero hfail⟩
    | some p =>
      have hpid := Kernel.findPid_pid hfind
      have hset := setpriority_of_some hlow hhigh hfind
      have hothers : ∀ other, other ≠ pid →
          (k.setpriority pid priority).2.getpriority other = k.getpriority other := by
        intro other hne
        rw [hset]
        refine getpriority_prioritize_of_ne fun hother => hne ?_
        rw [← (findLive_spec hother).1, hpid]
      by_cases hunused : (k.proc p).state = .unused
      · have hsame := h p hfind hunused
        refine ⟨iff_of_true (by rw [hset]) (by omega), hlive, fun _ => ?_, fun _ => hothers⟩
        rw [hset, getpriority_prioritize_of_ne (hskip p pid hunused), hsame]
      · have hfound := findLive_of_findPid hfind hunused
        refine ⟨iff_of_true (by rw [hset]) (hlive.mpr ⟨p, hunused, hpid⟩), hlive, fun _ => ?_,
          fun _ => hothers⟩
        rw [hset, getpriority_prioritize hfound]

theorem reachable_boot : Reachable boot :=
  .inr ⟨[], ProcLife.start, .nil, rfl⟩

/-- Right after boot setpriority(0, 1) reports success, and there is no process with pid 0. -/
theorem setpriority_zero_succeeds :
    Reachable boot ∧ (boot.setpriority 0 1).1 = 0 ∧ boot.getpriority 0 = -1 ∧
      (boot.setpriority 0 1).2.getpriority 0 = -1 := by
  refine ⟨reachable_boot, ?_, ?_, ?_⟩ <;> decide +kernel

/-- The first process is in slot 0, so that the calls agree on its pid. -/
theorem setpriority_agrees_init : Reachable boot ∧ Agrees boot 1 0 := by
  refine ⟨reachable_boot, (setpriority_agrees_iff reachable_boot 1 (by decide) (by decide)).mpr ?_⟩
  intro p hfind hunused
  have hslot : boot.findPid 1 = some 0 := by decide +kernel
  rw [hslot] at hfind
  obtain rfl := Option.some.inj hfind
  exact absurd hunused (by decide)

end KernelLabs.Priorities

import KernelLabs.Mlfq
import KernelLabs.ProcMoves

/-!
What a step of the scheduler system does to a slot, said once: to the two queue
fields, priority and budget, and to the states. The invariants of the scheduler
are read off from these equations. The first of them is that priorities stay
between zero and MAXPRIORITY, in every run.
-/
namespace KernelLabs.MlfqSteps

open MachineWords ProcTable ProcLife Runs Mlfq Option

def rank (q : Proc) : ℤ × ℤ := (q.priority, q.budget)

theorem rank_timeless : Sys.Timeless rank := fun _ _ _ _ _ _ _ => rfl

/-- What a step does to the queue fields of slot `p`. -/
def touch {ncpu : ℕ} (s : Sched ncpu) (p : Slot) : Step ncpu → Proc → Proc
  | .life (.forkAlloc _), q =>
    if s.sys.kern.freeSlot = some p then
      { q with priority := MAXPRIORITY, budget := DEFAULT_BUDGET }
    else q
  | .life (.setpriority _ pid priority), q =>
    if 0 ≤ priority ∧ priority ≤ MAXPRIORITY ∧ s.sys.kern.findPid pid = some p then
      Kernel.prioritize priority q
    else q
  | .sched c, q =>
    match s.pc c with
    | .charge _ _ r timeIn =>
      if p = r then demote { q with budget := int32 (q.budget - elapsed s.sys.kern timeIn) } else q
    | .promote .. => if s.sys.kern.promoteAtTime ≤ s.sys.kern.ticks then adjustOne q else q
    | _ => q
  | _, q => q

theorem rank_demote {q r : Proc} (h : rank q = rank r) : rank (demote q) = rank (demote r) := by
  obtain ⟨hpriority, hbudget⟩ := Prod.mk.inj h
  unfold demote
  rw [hpriority, hbudget]
  split
  · split <;> simp [rank]
  · exact h

theorem rank_mlfqDispatch (k : Kernel) (i p : Slot) :
    rank ((mlfqDispatch k i).proc p) = rank (k.proc p) := by
  unfold mlfqDispatch Kernel.dispatch
  rw [Kernel.modify_keeps rank _ rfl, Kernel.modify_keeps rank _ rfl]

theorem rank_promotePass (k : Kernel) (p : Slot) :
    rank ((promotePass k).proc p) =
      rank (if k.promoteAtTime ≤ k.ticks then adjustOne (k.proc p) else k.proc p) := by
  unfold promotePass
  split <;> rfl

theorem rank_chargeSlice (k : Kernel) (r p : Slot) (timeIn : ℤ) :
    rank ((chargeSlice k r timeIn).proc p) =
      rank (if p = r then
        demote { k.proc p with budget := int32 ((k.proc p).budget - elapsed k timeIn) }
      else k.proc p) := by
  unfold chargeSlice
  rw [Kernel.modify_proc]
  split
  · exact rank_demote rfl
  · rfl

theorem rank_setpriority (k : Kernel) (pid priority : ℤ) (p : Slot) :
    rank ((k.setpriority pid priority).2.proc p) =
      rank (if 0 ≤ priority ∧ priority ≤ MAXPRIORITY ∧ k.findPid pid = some p then
        Kernel.prioritize priority (k.proc p)
      else k.proc p) := by
  unfold Kernel.setpriority
  split
  · rename_i hrange
    rw [if_neg (by omega)]
  · rename_i hrange
    have hlow : 0 ≤ priority := by omega
    have hhigh : priority ≤ MAXPRIORITY := by omega
    cases hfind : k.findPid pid with
    | none => simp
    | some i =>
      simp only [hlow, hhigh, true_and, some.injEq]
      rw [Kernel.modify_proc]
      by_cases hpi : p = i
      · subst hpi
        simp
      · rw [if_neg hpi, if_neg (Ne.symm hpi)]

theorem rank_allocproc (k : Kernel) (p : Slot) {np : Slot} {k' : Kernel}
    (halloc : k.allocproc = some (np, k')) :
    rank (k'.proc p) =
      rank (if np = p then
        { k.proc p with priority := MAXPRIORITY, budget := DEFAULT_BUDGET }
      else k.proc p) := by
  obtain ⟨_, rfl⟩ := Kernel.allocproc_eq_some halloc
  by_cases hpn : np = p
  · subst hpn
    simp [rank]
  · rw [if_neg hpn]
    simp only [Kernel.modify_proc_ne _ _ (Ne.symm hpn)]

variable {ncpu : ℕ} {s : Sched ncpu}

theorem rank_life {a : Act} (hen : s.sys.Enabled a) (p : Slot) :
    rank ((s.sys.next a).kern.proc p) = rank (touch s p (.life a) (s.sys.kern.proc p)) := by
  have hkeep : ¬ s.sys.Writes p a →
      rank ((s.sys.next a).kern.proc p) = rank (s.sys.kern.proc p) :=
    fun hwrites => (s.sys.effect a).keeps rank_timeless hwrites
  cases a with
  | forkAlloc c =>
    cases hfree : s.sys.kern.freeSlot with
    | none => simp [Sys.next, touch, Kernel.allocproc, hfree]
    | some np =>
      obtain ⟨k, halloc⟩ : ∃ k, s.sys.kern.allocproc = some (np, k) := by
        simp [Kernel.allocproc, hfree]
      simp only [Sys.next, halloc, touch, hfree, some.injEq]
      exact rank_allocproc _ p halloc
  | setpriority c pid priority => exact rank_setpriority _ pid priority p
  | forkCopy c =>
    obtain ⟨_, np, hc⟩ := hen
    simp only [Sys.next, hc]
    exact Kernel.modify_keeps rank _ rfl p
  | settickets c number =>
    simp only [Sys.next]
    rcases s.sys.kern.settickets_cases c number with hk | ⟨_, hk⟩
    · rw [hk]
      rfl
    · rw [hk]
      exact Kernel.modify_keeps rank _ rfl p
  | _ => exact hkeep id

variable {a : Step ncpu}

theorem rank_next (hen : s.Enabled a) (p : Slot) :
    rank ((s.next a).sys.kern.proc p) = rank (touch s p a (s.sys.kern.proc p)) := by
  cases a with
  | life a =>
    refine rank_life ?_ p
    cases a with
    | dispatch q => exact hen.elim
    | _ => exact hen.1
  | tick => rfl
  | sched c =>
    simp only [Sched.next, Sched.schedStep, touch]
    cases s.pc c with
    | released => rfl
    | scan level count first =>
      dsimp only
      split
      · rfl
      · cases nextAt s.sys.kern level first with
        | none => rfl
        | some i => exact rank_mlfqDispatch _ i p
    | slice level count i timeIn => rfl
    | charge level count i timeIn => exact rank_chargeSlice _ i p timeIn
    | promote level count i => exact rank_promotePass _ p

theorem nextAt_eq_some {k : Kernel} {level : ℤ} {first : ℕ} {p : Slot}
    (h : nextAt k level first = some p) :
    (k.proc p).state = .runnable ∧ (k.proc p).priority = level := by
  unfold nextAt at h
  have := (Fin.find?_eq_some_iff.mp h).1
  simp only [decide_eq_true_eq] at this
  exact this.2

theorem nextAt_zero_eq_none {k : Kernel} {level : ℤ} (h : nextAt k level 0 = none) (p : Slot)
    (hp : (k.proc p).state = .runnable) : (k.proc p).priority ≠ level := by
  unfold nextAt at h
  have := Fin.find?_eq_none_iff.mp h p
  simp only [Nat.zero_le, true_and, decide_eq_false_iff_not, not_and] at this
  exact this hp

@[simp] theorem demote_state (q : Proc) : (demote q).state = q.state := by
  unfold demote
  split
  · split <;> rfl
  · rfl

@[simp] theorem adjustOne_state (q : Proc) : (adjustOne q).state = q.state := by
  unfold adjustOne
  split
  · split <;> rfl
  · rfl

@[simp] theorem chargeSlice_state (k : Kernel) (r p : Slot) (timeIn : ℤ) :
    ((chargeSlice k r timeIn).proc p).state = (k.proc p).state := by
  unfold chargeSlice
  exact Kernel.modify_keeps Proc.state k (by rw [demote_state]) p

@[simp] theorem promotePass_state (k : Kernel) (p : Slot) :
    ((promotePass k).proc p).state = (k.proc p).state := by
  unfold promotePass
  split
  · exact adjustOne_state _
  · rfl

theorem mlfqDispatch_state (k : Kernel) (i p : Slot) :
    ((mlfqDispatch k i).proc p).state = if p = i then .running else (k.proc p).state := by
  unfold mlfqDispatch Kernel.dispatch
  by_cases hpi : p = i
  · subst hpi
    simp
  · rw [Kernel.modify_proc_ne _ _ hpi, Kernel.modify_proc_ne _ _ hpi, if_neg hpi]

/-- What the scheduler does to the states: its dispatches, and nothing else. -/
theorem schedStep_state (s : Sched ncpu) (c : Fin ncpu) (p : Slot) :
    ((s.schedStep c).sys.kern.proc p).state = (s.sys.kern.proc p).state ∨
      ∃ level count first, s.pc c = .scan level count first ∧
        nextAt s.sys.kern level first = some p ∧
        ((s.schedStep c).sys.kern.proc p).state = .running := by
  unfold Sched.schedStep
  cases hpc : s.pc c with
  | released => exact Or.inl rfl
  | scan level count first =>
    dsimp only
    split
    · exact Or.inl rfl
    · cases hnext : nextAt s.sys.kern level first with
      | none => exact Or.inl rfl
      | some i =>
        by_cases hpi : p = i
        · subst hpi
          refine Or.inr ⟨level, count, first, rfl, hnext, ?_⟩
          simp [Sched.withKern, Sched.setPc, mlfqDispatch_state]
        · left
          simp [Sched.withKern, Sched.setPc, mlfqDispatch_state, hpi]
  | slice level count i timeIn => exact Or.inl rfl
  | charge level count i timeIn => exact Or.inl (chargeSlice_state _ _ _ _)
  | promote level count i => exact Or.inl (promotePass_state _ _)

@[simp] theorem schedStep_fork (s : Sched ncpu) (c : Fin ncpu) :
    (s.schedStep c).sys.fork = s.sys.fork := by
  unfold Sched.schedStep
  split
  · rfl
  · split
    · rfl
    · split <;> rfl
  · rfl
  · rfl
  · rfl

/-- As in ProcLife, only an allocation claims a slot. -/
theorem claimed_of_next (hen : s.Enabled a) {p : Slot} (h : (s.next a).sys.Claimed p) :
    s.sys.Claimed p ∨ ∃ c, a = .life (.forkAlloc c) ∧ s.sys.kern.freeSlot = some p := by
  cases a with
  | life a =>
    have hen' : s.sys.Enabled a := by
      cases a with
      | dispatch q => exact hen.elim
      | _ => exact hen.1
    rcases ProcMoves.claimed_of_next hen' h with hclaimed | ⟨c, rfl, hfree⟩
    · exact Or.inl hclaimed
    · exact Or.inr ⟨c, rfl, hfree⟩
  | tick => exact Or.inl h
  | sched c =>
    left
    rcases h with hstate | hchild
    · left
      rcases schedStep_state s c p with hsame | ⟨level, count, first, _, hnext, _⟩
      · rwa [← hsame]
      · rw [(nextAt_eq_some hnext).1]
        decide
    · right
      simpa only [Sched.next, schedStep_fork] using hchild

def PriorityOk {ncpu : ℕ} (s : Sched ncpu) : Prop :=
  ∀ p, s.sys.Claimed p → 0 ≤ (s.sys.kern.proc p).priority ∧
    (s.sys.kern.proc p).priority ≤ MAXPRIORITY

theorem start_claimed {p : Slot} (h : (start ncpu).sys.Claimed p) : p = 0 := by
  rcases h with hstate | ⟨c, hc⟩
  · by_contra hp
    exact hstate (by simp [Mlfq.start, ProcLife.start, boot_proc, hp, zeroProc])
  · simp [Mlfq.start, ProcLife.start, ForkPc.child] at hc

theorem start_priorityOk (ncpu : ℕ) : PriorityOk (start ncpu) := by
  intro p hp
  rw [start_claimed hp, show (Mlfq.start ncpu).sys.kern.proc 0 = initProc from rfl]
  decide

theorem zero_le_maxPriority : 0 ≤ MAXPRIORITY := by decide

/-- A used-up budget costs one level, down to level zero. -/
theorem demote_priority (q : Proc) (h : 0 ≤ q.priority) :
    (demote q).priority = if q.budget ≤ 0 then max (q.priority - 1) 0 else q.priority := by
  unfold demote
  split
  · split <;> dsimp only <;> omega
  · rfl

/-- A promotion pass raises every process that has not exited by one level, up to
MAXPRIORITY. -/
theorem adjustOne_priority {q : Proc} (h : q.priority ≤ MAXPRIORITY) :
    (adjustOne q).priority =
      if q.state ≠ .zombie then min (q.priority + 1) MAXPRIORITY else q.priority := by
  unfold adjustOne
  split
  · split
    · dsimp only
      omega
    · omega
  · rfl

theorem touch_priority (s : Sched ncpu) (p : Slot) (a : Step ncpu) {q : Proc}
    (hlow : 0 ≤ q.priority) (hhigh : q.priority ≤ MAXPRIORITY) :
    0 ≤ (touch s p a q).priority ∧ (touch s p a q).priority ≤ MAXPRIORITY := by
  unfold touch
  split
  · split
    · exact ⟨zero_le_maxPriority, le_rfl⟩
    · exact ⟨hlow, hhigh⟩
  · split
    · rename_i hrange
      exact ⟨hrange.1, hrange.2.1⟩
    · exact ⟨hlow, hhigh⟩
  · split
    · split
      · rename_i timeIn _ _
        have hdemote := demote_priority
          { q with budget := int32 (q.budget - elapsed s.sys.kern timeIn) } hlow
        rw [hdemote]
        split
        · exact ⟨le_max_right _ _, by dsimp only; omega⟩
        · exact ⟨hlow, hhigh⟩
      · exact ⟨hlow, hhigh⟩
    · split
      · rw [adjustOne_priority hhigh]
        split
        · have := zero_le_maxPriority
          omega
        · exact ⟨hlow, hhigh⟩
      · exact ⟨hlow, hhigh⟩
    · exact ⟨hlow, hhigh⟩
  · exact ⟨hlow, hhigh⟩

theorem priority_next (hen : s.Enabled a) (p : Slot) :
    ((s.next a).sys.kern.proc p).priority = (touch s p a (s.sys.kern.proc p)).priority :=
  congrArg Prod.fst (rank_next hen p)

theorem priorityOk_step {s t : Sched ncpu} (h : PriorityOk s)
    (hstep : s.step a = some t) : PriorityOk t := by
  obtain ⟨hen, rfl⟩ := Sched.step_eq_some hstep
  intro p hp
  rw [priority_next hen]
  rcases claimed_of_next hen hp with hclaimed | ⟨c, rfl, hfree⟩
  · obtain ⟨hlow, hhigh⟩ := h p hclaimed
    exact touch_priority s p a hlow hhigh
  · simp only [touch, hfree, if_true]
    exact ⟨zero_le_maxPriority, le_rfl⟩

theorem priorityOk_of_run {guard : Sched ncpu → Step ncpu → Prop} {log : List Mlfq.Entry}
    (hrun : (machine ncpu).Run guard (start ncpu) log s) : PriorityOk s :=
  Machine.Run.invariant (P := fun _ s => PriorityOk s) (start_priorityOk ncpu)
    (fun _ _ _ _ ih _ hstep => priorityOk_step ih hstep) hrun

end KernelLabs.MlfqSteps

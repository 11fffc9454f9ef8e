import KernelLabs.MlfqSteps

/-!
The order in which the feedback queues are served. mlfqsched looks at the levels
from the top, but once it serves a level it stays there until a whole scan of the
table finds nothing at that level, and it looks at the top again only after level
zero was found empty. A process that becomes RUNNABLE above the level being served
waits behind it. In the runs in which no process does, a dispatched process has
the highest priority among the RUNNABLE ones.
-/
namespace KernelLabs.MlfqOrder

open MachineWords ProcTable ProcLife Runs Mlfq MlfqSteps

def served : SchedPc → Option ℤ
  | .released => none
  | .scan level _ _ => some level
  | .slice level _ _ _ => some level
  | .charge level _ _ _ => some level
  | .promote level _ _ => some level

/-- Some CPU serves a level below the given priority. -/
def Overtakes {ncpu : ℕ} (s : Sched ncpu) (priority : ℤ) : Prop :=
  ∃ c, ∃ level ∈ served (s.pc c), level < priority

instance {ncpu : ℕ} (s : Sched ncpu) (priority : ℤ) : Decidable (Overtakes s priority) := by
  unfold Overtakes
  infer_instance

/-- The condition on a step: no process that it makes RUNNABLE, or raises while it is
RUNNABLE, comes to stand above a level that is being served. -/
def Orderly {ncpu : ℕ} (s : Sched ncpu) : Step ncpu → Prop
  | .life (.wakeup chan) => ∀ q, (s.sys.kern.proc q).state = .sleeping →
      (s.sys.kern.proc q).chan = chan → ¬ Overtakes s (s.sys.kern.proc q).priority
  | .life (.exit c) => ∀ q, s.sys.kern.ExitWakes c q → ¬ Overtakes s (s.sys.kern.proc q).priority
  | .life (.kill _ pid) => ∀ q, s.sys.kern.findPid pid = some q →
      (s.sys.kern.proc q).state = .sleeping → ¬ Overtakes s (s.sys.kern.proc q).priority
  | .life (.setpriority _ pid priority) => ∀ q, s.sys.kern.findPid pid = some q →
      (s.sys.kern.proc q).state = .runnable → 0 ≤ priority → priority ≤ MAXPRIORITY →
        ¬ Overtakes s priority
  | .life (.forkDone c) => ∀ np, s.sys.fork c = .copied np →
      ¬ Overtakes s (s.sys.kern.proc np).priority
  | .life (.yield c) => ¬ Overtakes s (s.sys.kern.proc c).priority
  | .sched c =>
    match s.pc c with
    | .promote .. => s.sys.kern.promoteAtTime ≤ s.sys.kern.ticks → ∀ q,
        (s.sys.kern.proc q).state = .runnable → (s.sys.kern.proc q).priority < MAXPRIORITY →
          ¬ Overtakes s ((s.sys.kern.proc q).priority + 1)
    | _ => True
  | _ => True

instance {ncpu : ℕ} (s : Sched ncpu) (a : Step ncpu) : Decidable (Orderly s a) :=
  match a with
  | .life (.wakeup _) | .life (.exit _) | .life (.kill _ _) | .life (.setpriority _ _ _)
  | .life (.forkDone _) | .life (.yield _) => by
    unfold Orderly
    infer_instance
  | .sched c => by
    dsimp only [Orderly]
    generalize s.pc c = pc
    exact match pc with
      | .promote .. => by
        dsimp only
        infer_instance
      | .released | .scan .. | .slice .. | .charge .. => isTrue trivial
  | .life (.forkAlloc _) | .life (.forkFail _) | .life (.forkCopy _) | .life (.wait _)
  | .life (.settickets _ _) | .life (.fault _) | .life (.sleep _ _) | .life (.dispatch _)
  | .tick => isTrue trivial

def Tops (k : Kernel) (level : ℤ) : Prop :=
  ∀ q, (k.proc q).state = .runnable → (k.proc q).priority ≤ level

/-- What the local variables of a CPU say: nothing RUNNABLE is above the level, and
the count is zero only while the scan is at the first slot. -/
def InOrder (k : Kernel) : SchedPc → Prop
  | .released => True
  | .scan level count first => Tops k level ∧ (count = 0 → first = 0)
  | .slice level count _ _ => Tops k level ∧ count ≠ 0
  | .charge level count _ _ => Tops k level ∧ count ≠ 0
  | .promote level count _ => Tops k level ∧ count ≠ 0

def OrderOk {ncpu : ℕ} (s : Sched ncpu) : Prop := ∀ c, InOrder s.sys.kern (s.pc c)

variable {k : Kernel} {pc : SchedPc}

theorem InOrder.tops (h : InOrder k pc) {level : ℤ}
    (hlevel : served pc = some level) : Tops k level := by
  cases pc with
  | released => cases hlevel
  | scan l count first =>
    cases hlevel
    exact h.1
  | slice l count p timeIn =>
    cases hlevel
    exact h.1
  | charge l count p timeIn =>
    cases hlevel
    exact h.1
  | promote l count p =>
    cases hlevel
    exact h.1

/-- A table change that lifts no RUNNABLE process above the level keeps the order. -/
theorem InOrder.mono {k k' : Kernel} (h : InOrder k pc)
    (htops : ∀ level, served pc = some level → Tops k' level) : InOrder k' pc := by
  cases pc with
  | released => trivial
  | scan level count first => exact ⟨htops level rfl, h.2⟩
  | slice level count p timeIn => exact ⟨htops level rfl, h.2⟩
  | charge level count p timeIn => exact ⟨htops level rfl, h.2⟩
  | promote level count p => exact ⟨htops level rfl, h.2⟩

theorem InOrder.endSlice (h : InOrder k pc) (k' : Kernel) : InOrder k (endSlice k' pc) := by
  cases pc with
  | slice level count p timeIn =>
    simp only [Mlfq.endSlice]
    split <;> exact h
  | _ => exact h

/-- The RUNNABLE processes after a step are RUNNABLE before it with at least the same
priority, or the step's condition keeps them below every served level. -/
def Settled {ncpu : ℕ} (s : Sched ncpu) (k : Kernel) : Prop :=
  ∀ q, (k.proc q).state = .runnable →
    ((s.sys.kern.proc q).state = .runnable ∧ (k.proc q).priority ≤ (s.sys.kern.proc q).priority) ∨
      ¬ Overtakes s (k.proc q).priority

variable {ncpu : ℕ} {s : Sched ncpu}

theorem tops_of_settled (h : OrderOk s) (hsettled : Settled s k) {c : Fin ncpu} {level : ℤ}
    (hlevel : served (s.pc c) = some level) : Tops k level := by
  intro q hq
  rcases hsettled q hq with ⟨hstate, hle⟩ | hbelow
  · exact hle.trans ((h c).tops hlevel q hstate)
  · by_contra hlt
    exact hbelow ⟨c, level, hlevel, not_le.mp hlt⟩

theorem settled_refl (s : Sched ncpu) : Settled s s.sys.kern :=
  fun _ hq => Or.inl ⟨hq, le_rfl⟩

theorem settled_modify (s : Sched ncpu) {i : Slot} {f : Proc → Proc}
    (hf : (f (s.sys.kern.proc i)).state = .runnable →
      ((s.sys.kern.proc i).state = .runnable ∧
        (f (s.sys.kern.proc i)).priority ≤ (s.sys.kern.proc i).priority) ∨
      ¬ Overtakes s (f (s.sys.kern.proc i)).priority) : Settled s (s.sys.kern.modify i f) := by
  intro q hq
  by_cases hqi : q = i
  · subst hqi
    rw [Kernel.modify_proc_self] at hq ⊢
    exact hf hq
  · rw [Kernel.modify_proc_ne _ _ hqi] at hq ⊢
    exact settled_refl s q hq

theorem settled_modify_of_ne (s : Sched ncpu) {i : Slot} {f : Proc → Proc}
    (hf : (f (s.sys.kern.proc i)).state ≠ .runnable) : Settled s (s.sys.kern.modify i f) :=
  settled_modify s fun hstate => absurd hstate hf

/-- The steps of processes, under their condition. -/
theorem settled_life {a : Act} {t : Sys} {es : List ProcLife.Entry} (heffect : s.sys.Effect a t es)
    (hdispatch : ∀ p, a ≠ .dispatch p) (horderly : Orderly s (.life a)) : Settled s t.kern := by
  cases heffect with try dsimp only
  | none | killNone => exact settled_refl s
  | forkAlloc halloc =>
    obtain ⟨_, rfl⟩ := Kernel.allocproc_eq_some halloc
    intro q hq
    dsimp only at hq ⊢
    exact settled_modify_of_ne s (by simp) q hq
  | forkFail => exact settled_modify_of_ne s (by simp)
  | forkCopy => exact settled_modify s fun hstate => Or.inl ⟨hstate, le_rfl⟩
  | forkDone hc => exact settled_modify s fun _ => Or.inr (horderly _ hc)
  | exit c =>
    intro q hq
    simp only [Kernel.exit_proc] at hq ⊢
    by_cases hqc : q = c
    · simp [hqc] at hq
    · by_cases hwakes : s.sys.kern.ExitWakes c q
      · exact Or.inr (horderly q hwakes)
      · simp only [hqc, hwakes, if_false] at hq
        exact settled_refl s q hq
  | reap => exact settled_modify_of_ne s (by simp)
  | waitSleep => exact settled_modify_of_ne s (by simp)
  | @kill c pid i hi =>
    refine settled_modify s fun hstate => ?_
    by_cases hsleeping : (s.sys.kern.proc i).state = .sleeping
    · exact Or.inr (horderly i hi hsleeping)
    · simp only [Kernel.killOne, if_neg hsleeping] at hstate
      exact Or.inl ⟨hstate, le_rfl⟩
  | setpriority c hlow hhigh hi =>
    exact settled_modify s fun hstate => Or.inr (horderly _ hi hstate hlow hhigh)
  | settickets => exact settled_modify s fun hstate => Or.inl ⟨hstate, le_rfl⟩
  | fault => exact settled_modify s fun hstate => Or.inl ⟨hstate, le_rfl⟩
  | sleep => exact settled_modify_of_ne s (by simp)
  | yield => exact settled_modify s fun _ => Or.inr horderly
  | wakeup chan =>
    intro q hq
    simp only [Kernel.wakeup1_proc, Kernel.wakeOne_eq] at hq ⊢
    by_cases hwakes : (s.sys.kern.proc q).state = .sleeping ∧ (s.sys.kern.proc q).chan = chan
    · exact Or.inr (horderly q hwakes.1 hwakes.2)
    · rw [if_neg hwakes] at hq
      exact settled_refl s q hq
  | dispatch p => exact absurd rfl (hdispatch p)

theorem settled_mlfqDispatch (s : Sched ncpu) (p : Slot) :
    Settled s (mlfqDispatch s.sys.kern p) := by
  intro q hq
  rw [mlfqDispatch_state] at hq
  split at hq
  · cases hq
  · exact Or.inl ⟨hq, (congrArg Prod.fst (rank_mlfqDispatch s.sys.kern p q)).le⟩

theorem demote_priority_le (q : Proc) : (demote q).priority ≤ q.priority := by
  unfold demote
  split
  · split <;> dsimp only <;> omega
  · exact le_rfl

theorem settled_chargeSlice (s : Sched ncpu) (p : Slot) (timeIn : ℤ) :
    Settled s (chargeSlice s.sys.kern p timeIn) := by
  unfold chargeSlice
  refine settled_modify s fun hstate => Or.inl ⟨?_, demote_priority_le _⟩
  rwa [demote_state] at hstate

theorem settled_promotePass
    (horderly : s.sys.kern.promoteAtTime ≤ s.sys.kern.ticks → ∀ q,
      (s.sys.kern.proc q).state = .runnable → (s.sys.kern.proc q).priority < MAXPRIORITY →
        ¬ Overtakes s ((s.sys.kern.proc q).priority + 1)) :
    Settled s (promotePass s.sys.kern) := by
  intro q hq
  rw [promotePass_state] at hq
  by_cases htime : s.sys.kern.promoteAtTime ≤ s.sys.kern.ticks
  · simp only [promotePass, if_pos htime, adjustPriority, Kernel.mapProc_proc, adjustOne, hq]
    by_cases hlt : (s.sys.kern.proc q).priority < MAXPRIORITY
    · right
      simpa [hlt] using horderly htime q hq hlt
    · left
      simp [hlt]
  · rw [promotePass, if_neg htime]
    exact settled_refl s q hq

/-- One CPU moves on to `pc` while the table becomes `k`. -/
theorem OrderOk.advance (h : OrderOk s)
    (hsettled : Settled s k) (c : Fin ncpu) (hpc : InOrder k pc) :
    OrderOk ((s.withKern k).setPc c pc) := by
  intro d
  by_cases hdc : d = c
  · subst hdc
    simpa [Sched.setPc, Sched.withKern] using hpc
  · have := (h d).mono fun level hlevel => tops_of_settled h hsettled hlevel
    simpa [Sched.setPc, Sched.withKern, Function.update_of_ne hdc] using this

theorem tops_maxPriority (h : PriorityOk s) : Tops s.sys.kern MAXPRIORITY := by
  intro q hq
  refine (h q (Or.inl ?_)).2
  rw [hq]
  decide

/-- A scan of the whole table that dispatched nothing leaves its level empty. -/
theorem tops_of_empty_level {level : ℤ} (h : Tops k level)
    (hnone : nextAt k level 0 = none) : Tops k (level - 1) := by
  intro q hq
  have := h q hq
  have := nextAt_zero_eq_none hnone q hq
  omega

theorem OrderOk.schedStep (h : OrderOk s) (hpriority : PriorityOk s)
    {c : Fin ncpu} (horderly : Orderly s (.sched c)) : OrderOk (s.schedStep c) := by
  have hc := h c
  have hself : ∀ {pc : SchedPc}, InOrder s.sys.kern pc → OrderOk (s.setPc c pc) :=
    fun hpc => h.advance (settled_refl s) c hpc
  unfold Sched.schedStep
  cases hpc : s.pc c with
  | released => exact hself ⟨tops_maxPriority hpriority, fun _ => rfl⟩
  | scan level count first =>
    rw [hpc] at hc
    obtain ⟨htops, hcount⟩ := hc
    dsimp only
    split
    · exact hself trivial
    · cases hnext : nextAt s.sys.kern level first with
      | none =>
        by_cases hzero : count = 0
        · rw [hcount hzero] at hnext
          simp only [hzero, if_true]
          exact hself ⟨tops_of_empty_level htops hnext, fun _ => rfl⟩
        · simp only [hzero, if_false]
          exact hself ⟨htops, fun _ => rfl⟩
      | some p =>
        have hsettled := settled_mlfqDispatch s p
        refine h.advance hsettled c ⟨?_, Nat.succ_ne_zero count⟩
        exact tops_of_settled h hsettled (by rw [hpc]; rfl)
  | slice level count p timeIn => exact h
  | charge level count p timeIn =>
    rw [hpc] at hc
    have hsettled := settled_chargeSlice s p timeIn
    exact h.advance hsettled c ⟨tops_of_settled h hsettled (by rw [hpc]; rfl), hc.2⟩
  | promote level count p =>
    rw [hpc] at hc
    have hsettled : Settled s (promotePass s.sys.kern) := by
      refine settled_promotePass ?_
      simpa only [Orderly, hpc] using horderly
    exact h.advance hsettled c
      ⟨tops_of_settled h hsettled (by rw [hpc]; rfl), fun hzero => absurd hzero hc.2⟩

theorem orderOk_step {s t : Sched ncpu} {a : Step ncpu} (h : OrderOk s) (hpriority : PriorityOk s)
    (horderly : Orderly s a) (hstep : s.step a = some t) : OrderOk t := by
  obtain ⟨hen, rfl⟩ := Sched.step_eq_some hstep
  cases a with
  | life a =>
    have hsettled : Settled s (s.sys.next a).kern := by
      cases a with
      | dispatch p => exact hen.elim
      | _ => exact settled_life (s.sys.effect _) (by simp) horderly
    intro c
    exact ((h c).mono fun level hlevel => tops_of_settled h hsettled hlevel).endSlice _
  | tick => exact fun c => (h c).mono fun level hlevel => (h c).tops hlevel
  | sched c => exact h.schedStep hpriority horderly

theorem orderOk_of_run {log : List Mlfq.Entry}
    (hrun : (machine ncpu).Run Orderly (Mlfq.start ncpu) log s) : OrderOk s := by
  induction hrun with
  | nil => exact fun _ => trivial
  | snoc a hrun horderly hstep ih => exact orderOk_step ih (priorityOk_of_run hrun) horderly hstep

/-- In every run whose steps are orderly, a process that mlfqsched dispatches has the
highest priority among the RUNNABLE processes. -/
theorem dispatch_highest_priority {ncpu : ℕ} {log : List Mlfq.Entry} {s : Sched ncpu}
    (hrun : (machine ncpu).Run Orderly (Mlfq.start ncpu) log s) :
    ∀ c t, s.step (.sched c) = some t → ∀ p, s.sys.kern.Dispatched t.sys.kern p →
      ∀ q, (s.sys.kern.proc q).state = .runnable →
        (s.sys.kern.proc q).priority ≤ (s.sys.kern.proc p).priority := by
  rintro c t hstep p ⟨hnot, hrunning⟩ q hq
  obtain ⟨_, rfl⟩ := Sched.step_eq_some hstep
  rcases schedStep_state s c p with hsame | ⟨level, count, first, hpc, hnext, _⟩
  · exact absurd (hsame ▸ hrunning) hnot
  · have hc := orderOk_of_run hrun c
    rw [hpc] at hc
    rw [(nextAt_eq_some hnext).2]
    exact hc.1 q hq

/-- A child is forked at the top level and dispatched while its parent, which gave up
the CPU at that level, waits. -/
theorem dispatch_highest_priority_fork :
    ∃ log s t, (machine 1).Run Orderly (Mlfq.start 1) log s ∧ s.step (.sched 0) = some t ∧
      s.sys.kern.Dispatched t.sys.kern 1 ∧
      (s.sys.kern.proc 0).priority ≤ (s.sys.kern.proc 1).priority := by
  obtain ⟨log, s, hrun, hstate, hen, hdispatched⟩ :=
    Machine.exists_run_of_exec (machine 1) Orderly (Mlfq.start 1)
      [.sched 0, .sched 0, .life (.forkAlloc 0), .life (.forkCopy 0), .life (.forkDone 0),
        .life (.yield 0), .sched 0, .sched 0]
      (fun _ s => (s.sys.kern.proc 0).state = .runnable ∧ s.Enabled (.sched 0) ∧
        s.sys.kern.Dispatched (s.next (.sched 0)).sys.kern 1) (by decide +kernel)
  have hstep : s.step (.sched 0) = some (s.next (.sched 0)) := if_pos hen
  exact ⟨log, s, _, hrun, hstep, hdispatched,
    dispatch_highest_priority hrun 0 _ hstep 1 hdispatched 0 hstate⟩

/-- The first process lowers itself to level zero, is dispatched there, forks a child
at the top level and yields; it is dispatched again before the child. -/
theorem dispatch_below_forked_child :
    ¬ ∀ log s, (machine 1).Run Machine.Free (Mlfq.start 1) log s →
      ∀ c t, s.step (.sched c) = some t → ∀ p, s.sys.kern.Dispatched t.sys.kern p →
        ∀ q, (s.sys.kern.proc q).state = .runnable →
          (s.sys.kern.proc q).priority ≤ (s.sys.kern.proc p).priority := by
  obtain ⟨log, s, hrun, hstate, hen, hdispatched, hlt⟩ :=
    Machine.exists_run_of_exec (machine 1) Machine.Free (Mlfq.start 1)
      [.sched 0, .sched 0, .life (.setpriority 0 1 0), .life (.yield 0), .sched 0, .sched 0,
        .sched 0, .sched 0, .sched 0, .sched 0, .life (.forkAlloc 0), .life (.forkCopy 0),
        .life (.forkDone 0), .life (.yield 0), .sched 0, .sched 0, .sched 0]
      (fun _ s => (s.sys.kern.proc 1).state = .runnable ∧ s.Enabled (.sched 0) ∧
        s.sys.kern.Dispatched (s.next (.sched 0)).sys.kern 0 ∧
        (s.sys.kern.proc 0).priority < (s.sys.kern.proc 1).priority) (by decide +kernel)
  intro hclaim
  have hstep : s.step (.sched 0) = some (s.next (.sched 0)) := if_pos hen
  exact absurd (hclaim log s hrun 0 _ hstep 0 hdispatched 1 hstate) (not_le.mpr hlt)

end KernelLabs.MlfqOrder

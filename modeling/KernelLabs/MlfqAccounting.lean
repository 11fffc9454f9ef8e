import KernelLabs.MlfqSteps

/-!
The accounts of the feedback queues. The log records every new budget and every
charge, so the budget of a process is what is left of DEFAULT_BUDGET after the
charges since its last reset. A priority moves only by setpriority, by the
demotion when those charges have used the budget up, and by a promotion pass. A
slice is charged the difference of two readings of the tick counter as ints,
which is the time it took as long as the counter did not go back in between.
-/
namespace KernelLabs.MlfqAccounting

open MachineWords ProcTable ProcLife Runs Mlfq MlfqSteps

/-- The ticks charged to a slot since its budget was last reset. -/
def spent : List Mlfq.Entry → Slot → ℤ
  | [], _ => 0
  | .reset q :: rest, p => if q = p then 0 else spent rest p
  | .charged q d :: rest, p => if q = p then d + spent rest p else spent rest p

/-- The slice that is being charged took fewer than 2^31 ticks, so that its length is not
negative as an int. -/
def Forward {ncpu : ℕ} (s : Sched ncpu) : Step ncpu → Prop
  | .sched c =>
    match s.pc c with
    | .charge _ _ _ timeIn => 0 ≤ elapsed s.sys.kern timeIn
    | _ => True
  | _ => True

instance {ncpu : ℕ} (s : Sched ncpu) (a : Step ncpu) : Decidable (Forward s a) :=
  match a with
  | .sched c => by
    dsimp only [Forward]
    generalize s.pc c = pc
    exact match pc with
      | .charge .. => by
        dsimp only
        infer_instance
      | .released | .scan .. | .slice .. | .promote .. => isTrue trivial
  | .life _ | .tick => isTrue trivial

/-- The priority of slot `p` after a step, as the rules of the queues give it. -/
def lawfulPriority {ncpu : ℕ} (log : List Mlfq.Entry) (s : Sched ncpu) (p : Slot) :
    Step ncpu → ℤ
  | .life (.setpriority _ pid priority) =>
    if 0 ≤ priority ∧ priority ≤ MAXPRIORITY ∧ s.sys.kern.findPid pid = some p then priority
    else (s.sys.kern.proc p).priority
  | .sched c =>
    match s.pc c with
    | .charge _ _ r timeIn =>
      if p = r ∧ DEFAULT_BUDGET ≤ spent log p + elapsed s.sys.kern timeIn then
        max ((s.sys.kern.proc p).priority - 1) 0
      else (s.sys.kern.proc p).priority
    | .promote .. =>
      if s.sys.kern.promoteAtTime ≤ s.sys.kern.ticks ∧ (s.sys.kern.proc p).state ≠ .zombie then
        min ((s.sys.kern.proc p).priority + 1) MAXPRIORITY
      else (s.sys.kern.proc p).priority
    | _ => (s.sys.kern.proc p).priority
  | _ => (s.sys.kern.proc p).priority

@[simp] theorem spent_reset_self (log : List Mlfq.Entry) (p : Slot) :
    spent (.reset p :: log) p = 0 := if_pos rfl

theorem spent_reset_ne {q p : Slot} (h : q ≠ p) (log : List Mlfq.Entry) :
    spent (.reset q :: log) p = spent log p := if_neg h

@[simp] theorem spent_charged_self (log : List Mlfq.Entry) (p : Slot) (d : ℤ) :
    spent (.charged p d :: log) p = d + spent log p := if_pos rfl

theorem spent_charged_ne {q p : Slot} (h : q ≠ p) (log : List Mlfq.Entry) (d : ℤ) :
    spent (.charged q d :: log) p = spent log p := if_neg h

theorem spent_resets (l : List Slot) (log : List Mlfq.Entry) (p : Slot) :
    spent (l.map .reset ++ log) p = if p ∈ l then 0 else spent log p := by
  induction l with
  | nil => simp
  | cons q rest ih =>
    rw [List.map_cons, List.cons_append]
    by_cases hqp : q = p
    · subst hqp
      simp
    · rw [spent_reset_ne hqp, ih]
      simp [Ne.symm hqp]

/-- The budget of a claimed slot is what the charges since the last reset left. -/
structure BudgetAt (log : List Mlfq.Entry) (k : Kernel) (p : Slot) : Prop where
  low : 1 ≤ (k.proc p).budget
  high : (k.proc p).budget ≤ DEFAULT_BUDGET
  ledger : (k.proc p).budget = DEFAULT_BUDGET - spent log p

def BudgetOk {ncpu : ℕ} (log : List Mlfq.Entry) (s : Sched ncpu) : Prop :=
  ∀ p, s.sys.Claimed p → BudgetAt log s.sys.kern p

variable {log : List Mlfq.Entry} {p : Slot}

theorem BudgetAt.fresh {k : Kernel} (hbudget : (k.proc p).budget = DEFAULT_BUDGET)
    (hspent : spent log p = 0) : BudgetAt log k p where
  low := by
    rw [hbudget]
    decide
  high := hbudget.le
  ledger := by rw [hbudget, hspent, sub_zero]

theorem BudgetAt.keep {log log' : List Mlfq.Entry} {k k' : Kernel}
    (h : BudgetAt log k p) (hbudget : (k'.proc p).budget = (k.proc p).budget)
    (hspent : spent log' p = spent log p) : BudgetAt log' k' p where
  low := hbudget ▸ h.low
  high := hbudget ▸ h.high
  ledger := by rw [hbudget, hspent, h.ledger]

/-- The subtraction of a slice's ticks does not overflow. -/
theorem BudgetAt.int32_sub {k : Kernel} (h : BudgetAt log k p)
    {timeIn : ℤ} (hforward : 0 ≤ elapsed k timeIn) :
    int32 ((k.proc p).budget - elapsed k timeIn) = (k.proc p).budget - elapsed k timeIn := by
  have hbound := (int32_bounds (int32 k.ticks - timeIn)).2
  have hlow := h.low
  have hhigh := h.high
  rw [DEFAULT_BUDGET] at hhigh
  unfold elapsed at *
  exact int32_eq_self (by omega) (by omega)

theorem start_budgetOk (ncpu : ℕ) : BudgetOk [] (Mlfq.start ncpu) := by
  intro p hp
  rw [start_claimed hp]
  exact BudgetAt.fresh rfl rfl

variable {ncpu : ℕ} {s : Sched ncpu} {a : Step ncpu}

theorem budget_next (hen : s.Enabled a) (p : Slot) :
    ((s.next a).sys.kern.proc p).budget = (touch s p a (s.sys.kern.proc p)).budget :=
  congrArg Prod.snd (rank_next hen p)

theorem budgetAt_of_reset (hen : s.Enabled a)
    (htouch : (touch s p a (s.sys.kern.proc p)).budget = DEFAULT_BUDGET)
    (hspent : spent (s.emit a ++ log) p = 0) : BudgetAt (s.emit a ++ log) (s.next a).sys.kern p :=
  BudgetAt.fresh ((budget_next hen p).trans htouch) hspent

theorem BudgetAt.untouched (hen : s.Enabled a) (h : BudgetAt log s.sys.kern p)
    (htouch : (touch s p a (s.sys.kern.proc p)).budget = (s.sys.kern.proc p).budget)
    (hspent : spent (s.emit a ++ log) p = spent log p) :
    BudgetAt (s.emit a ++ log) (s.next a).sys.kern p :=
  h.keep ((budget_next hen p).trans htouch) hspent

theorem budgetAt_forkAlloc {c : Slot} (hen : s.Enabled (.life (.forkAlloc c)))
    (h : s.sys.kern.freeSlot = some p ∨ BudgetAt log s.sys.kern p) :
    BudgetAt (s.emit (.life (.forkAlloc c)) ++ log) (s.next (.life (.forkAlloc c))).sys.kern p := by
  cases hfree : s.sys.kern.freeSlot with
  | none =>
    have h := h.resolve_left (by simp [hfree])
    exact h.untouched hen (by simp [touch, hfree]) (by simp [Sched.emit, Kernel.allocproc, hfree])
  | some np =>
    by_cases hpn : np = p
    · subst hpn
      refine budgetAt_of_reset hen (by simp [touch, hfree]) ?_
      simp [Sched.emit, Kernel.allocproc, hfree]
    · have h := h.resolve_left (by simp [hfree, hpn])
      refine h.untouched hen (by simp [touch, hfree, hpn]) ?_
      simp only [Sched.emit, Kernel.allocproc, hfree]
      exact spent_reset_ne hpn log

theorem BudgetAt.setpriority {c : Slot} {pid priority : ℤ}
    (hen : s.Enabled (.life (.setpriority c pid priority))) (h : BudgetAt log s.sys.kern p) :
    BudgetAt (s.emit (.life (.setpriority c pid priority)) ++ log)
      (s.next (.life (.setpriority c pid priority))).sys.kern p := by
  by_cases hrange : priority < 0 ∨ priority > MAXPRIORITY
  · refine h.untouched hen ?_ (by simp [Sched.emit, hrange])
    rw [touch, if_neg (by omega)]
  · have hlow : 0 ≤ priority := by omega
    have hhigh : priority ≤ MAXPRIORITY := by omega
    cases hfind : s.sys.kern.findPid pid with
    | none => exact h.untouched hen (by simp [touch, hfind]) (by simp [Sched.emit, hfind])
    | some i =>
      by_cases hpi : i = p
      · subst hpi
        refine budgetAt_of_reset hen ?_ (by simp [Sched.emit, hrange, hfind])
        rw [touch, if_pos ⟨hlow, hhigh, hfind⟩]
        rfl
      · refine h.untouched hen (by simp [touch, hfind, hpi]) ?_
        simp only [Sched.emit, if_neg hrange, hfind]
        exact spent_reset_ne hpi log

theorem BudgetAt.charge {c : Fin ncpu} {level timeIn : ℤ} {count : ℕ} {r : Slot}
    (hpc : s.pc c = .charge level count r timeIn) (hen : s.Enabled (.sched c))
    (hforward : 0 ≤ elapsed s.sys.kern timeIn) (h : BudgetAt log s.sys.kern p) :
    BudgetAt (s.emit (.sched c) ++ log) (s.next (.sched c)).sys.kern p := by
  by_cases hpr : p = r
  · subst hpr
    have hint := h.int32_sub hforward
    by_cases hexhausted : (s.sys.kern.proc p).budget - elapsed s.sys.kern timeIn ≤ 0
    · refine budgetAt_of_reset hen ?_ (by simp [Sched.emit, hpc, hint, hexhausted])
      simp only [touch, hpc, if_true, demote, hint, if_pos hexhausted]
      split <;> rfl
    · have hbudget : ((s.next (.sched c)).sys.kern.proc p).budget =
          (s.sys.kern.proc p).budget - elapsed s.sys.kern timeIn := by
        rw [budget_next hen p]
        simp only [touch, hpc, if_true, demote, hint, if_neg hexhausted]
      have hspent : spent (s.emit (.sched c) ++ log) p = elapsed s.sys.kern timeIn + spent log p := by
        simp [Sched.emit, hpc, hint, hexhausted]
      refine ⟨?_, ?_, ?_⟩
      · rw [hbudget]
        omega
      · rw [hbudget]
        have := h.high
        omega
      · have := h.ledger
        rw [hbudget, hspent]
        omega
  · refine h.untouched hen (by simp [touch, hpc, hpr]) ?_
    simp only [Sched.emit, hpc]
    split
    · exact (spent_reset_ne (Ne.symm hpr) _).trans (spent_charged_ne (Ne.symm hpr) log _)
    · exact spent_charged_ne (Ne.symm hpr) log _

theorem BudgetAt.promote {c : Fin ncpu} {level : ℤ} {count : ℕ}
    {r : Slot} (hpc : s.pc c = .promote level count r) (hen : s.Enabled (.sched c))
    (h : BudgetAt log s.sys.kern p) :
    BudgetAt (s.emit (.sched c) ++ log) (s.next (.sched c)).sys.kern p := by
  by_cases htime : s.sys.kern.promoteAtTime ≤ s.sys.kern.ticks
  · have hspent : spent (s.emit (.sched c) ++ log) p =
        if p ∈ Sched.promoted s.sys.kern then 0 else spent log p := by
      simp only [Sched.emit, hpc, if_pos htime]
      exact spent_resets _ log p
    by_cases hraised : (s.sys.kern.proc p).state ≠ .zombie ∧
        (s.sys.kern.proc p).priority < MAXPRIORITY
    · refine budgetAt_of_reset hen ?_ ?_
      · simp only [touch, hpc, if_pos htime, adjustOne, if_pos hraised.1, if_pos hraised.2]
      · rw [hspent, if_pos (by simpa [Sched.promoted] using hraised)]
    · refine h.untouched hen ?_ ?_
      · simp only [touch, hpc, if_pos htime, adjustOne]
        split
        · rename_i hzombie
          rw [if_neg fun hlt => hraised ⟨hzombie, hlt⟩]
        · rfl
      · rw [hspent, if_neg (by simpa [Sched.promoted] using hraised)]
  · exact h.untouched hen (by simp [touch, hpc, htime]) (by simp [Sched.emit, hpc, htime])

theorem budgetOk_step {s t : Sched ncpu} (h : BudgetOk log s) (hforward : Forward s a)
    (hstep : s.step a = some t) : BudgetOk (s.emit a ++ log) t := by
  obtain ⟨hen, rfl⟩ := Sched.step_eq_some hstep
  intro p hp
  rcases claimed_of_next hen hp with hclaimed | ⟨c, rfl, hfree⟩
  · have hbudget := h p hclaimed
    cases a with
    | life a =>
      cases a with
      | forkAlloc c => exact budgetAt_forkAlloc hen (Or.inr hbudget)
      | setpriority c pid priority => exact hbudget.setpriority hen
      | _ => exact hbudget.untouched hen rfl rfl
    | tick => exact hbudget.untouched hen rfl rfl
    | sched c =>
      cases hpc : s.pc c with
      | charge level count r timeIn =>
        refine hbudget.charge hpc hen ?_
        simpa only [Forward, hpc] using hforward
      | promote level count r => exact hbudget.promote hpc hen
      | _ => exact hbudget.untouched hen (by simp [touch, hpc]) (by simp [Sched.emit, hpc])
  · exact budgetAt_forkAlloc hen (Or.inl hfree)

theorem budgetOk_of_run
    (hrun : (machine ncpu).Run Forward (Mlfq.start ncpu) log s) : BudgetOk log s :=
  hrun.invariant (start_budgetOk ncpu) fun _ _ _ _ ih hforward hstep =>
    budgetOk_step ih hforward hstep

/-- Demotion, in terms of the charges since the last reset. -/
theorem BudgetAt.demote_priority {k : Kernel} (h : BudgetAt log k p)
    (hlow : 0 ≤ (k.proc p).priority) {timeIn : ℤ} (hforward : 0 ≤ elapsed k timeIn) :
    (demote { k.proc p with budget := int32 ((k.proc p).budget - elapsed k timeIn) }).priority =
      if DEFAULT_BUDGET ≤ spent log p + elapsed k timeIn then max ((k.proc p).priority - 1) 0
      else (k.proc p).priority := by
  have hused : (k.proc p).budget - elapsed k timeIn ≤ 0 ↔
      DEFAULT_BUDGET ≤ spent log p + elapsed k timeIn := by
    have := h.ledger
    omega
  rw [h.int32_sub hforward]
  rw [MlfqSteps.demote_priority _ (by exact hlow)]
  simp only [hused]

/-- Every step moves the priority of a process as the rules of the queues say. -/
theorem priority_lawful (hen : s.Enabled a) (hforward : Forward s a)
    (hused : (s.sys.kern.proc p).state ≠ .unused) (hbudget : BudgetAt log s.sys.kern p)
    (hlow : 0 ≤ (s.sys.kern.proc p).priority) (hhigh : (s.sys.kern.proc p).priority ≤ MAXPRIORITY) :
    ((s.next a).sys.kern.proc p).priority = lawfulPriority log s p a := by
  rw [priority_next hen]
  cases a with
  | life a =>
    cases a with
    | forkAlloc c =>
      rw [touch, if_neg fun hfree => hused (Kernel.freeSlot_unused hfree)]
      rfl
    | setpriority c pid priority =>
      unfold touch lawfulPriority
      dsimp only
      split <;> rfl
    | _ => rfl
  | tick => rfl
  | sched c =>
    cases hpc : s.pc c with
    | charge level count r timeIn =>
      have hforward : 0 ≤ elapsed s.sys.kern timeIn := by
        simpa only [Forward, hpc] using hforward
      simp only [touch, lawfulPriority, hpc]
      by_cases hpr : p = r
      · subst hpr
        simp only [true_and, if_true]
        exact hbudget.demote_priority hlow hforward
      · simp only [hpr, false_and, if_false]
    | promote level count r =>
      simp only [touch, lawfulPriority, hpc]
      by_cases htime : s.sys.kern.promoteAtTime ≤ s.sys.kern.ticks
      · simp only [htime, true_and, if_true]
        exact adjustOne_priority hhigh
      · simp only [htime, false_and, if_false]
    | _ => simp only [touch, lawfulPriority, hpc]

/-- In every run in which each slice takes fewer than 2^31 ticks, on any number of CPUs:
priorities and budgets stay within their bounds, the budget of a process is DEFAULT_BUDGET
less the ticks charged since it was last reset, and each step moves its priority only as the
rules of the queues say. -/
theorem mlfq_accounting {ncpu : ℕ} {log : List Mlfq.Entry} {s : Sched ncpu}
    (hrun : (machine ncpu).Run Forward (Mlfq.start ncpu) log s) :
    (∀ p, (s.sys.kern.proc p).state ≠ .unused →
      (0 ≤ (s.sys.kern.proc p).priority ∧ (s.sys.kern.proc p).priority ≤ MAXPRIORITY) ∧
      (1 ≤ (s.sys.kern.proc p).budget ∧ (s.sys.kern.proc p).budget ≤ DEFAULT_BUDGET) ∧
      (s.sys.kern.proc p).budget = DEFAULT_BUDGET - spent log p) ∧
    ∀ a t, Forward s a → s.step a = some t → ∀ p, (s.sys.kern.proc p).state ≠ .unused →
      (t.sys.kern.proc p).priority = lawfulPriority log s p a := by
  have hpriority := priorityOk_of_run hrun
  have hbudget := budgetOk_of_run hrun
  refine ⟨fun p hp => ?_, fun a t hforward hstep p hp => ?_⟩
  · have hat := hbudget p (Or.inl hp)
    exact ⟨hpriority p (Or.inl hp), ⟨hat.low, hat.high⟩, hat.ledger⟩
  · obtain ⟨hen, rfl⟩ := Sched.step_eq_some hstep
    obtain ⟨hlow, hhigh⟩ := hpriority p (Or.inl hp)
    exact priority_lawful hen hforward hp (hbudget p (Or.inl hp)) hlow hhigh

/-- The first process runs for seven ticks, overshooting its budget, and is demoted. -/
theorem mlfq_accounting_overshoot :
    ∃ log s, (machine 1).Run Forward (Mlfq.start 1) log s ∧
      (s.sys.kern.proc 0).priority = 1 ∧
      (s.sys.kern.proc 0).budget = DEFAULT_BUDGET - spent log 0 := by
  obtain ⟨log, s, hrun, hstate, hpriority⟩ :=
    Machine.exists_run_of_exec (machine 1) Forward (Mlfq.start 1)
      [.sched 0, .sched 0, .tick, .tick, .tick, .tick, .tick, .tick, .tick, .life (.yield 0),
        .sched 0]
      (fun _ s => (s.sys.kern.proc 0).state = .runnable ∧ (s.sys.kern.proc 0).priority = 1)
      (by decide +kernel)
  exact ⟨log, s, hrun, hpriority, ((mlfq_accounting hrun).1 0 (by rw [hstate]; decide)).2.2⟩

/-- The tick counter does not wrap around. -/
def Rising {ncpu : ℕ} (s : Sched ncpu) : Step ncpu → Prop
  | .tick => s.sys.kern.ticks ≤ (advance s.sys.kern).ticks
  | _ => True

instance {ncpu : ℕ} (s : Sched ncpu) : (a : Step ncpu) → Decidable (Rising s a)
  | .tick => inferInstanceAs (Decidable (_ ≤ _))
  | .life _ | .sched _ => isTrue trivial

theorem run_ticks {first s : Sched ncpu} (hrun : (machine ncpu).Run Rising first log s) :
    ∀ n, s.sys.kern.ticks + n < 2 ^ 32 → (machine ncpu).Run Rising first log
      (s.withKern { s.sys.kern with ticks := s.sys.kern.ticks + n })
  | 0, _ => hrun
  | n + 1, hn => by
    have hnext : uint32 (s.sys.kern.ticks + n + 1) = s.sys.kern.ticks + (n + 1) :=
      Nat.mod_eq_of_lt hn
    have hrest := Machine.Run.snoc (t := s.withKern { s.sys.kern with
        ticks := s.sys.kern.ticks + (n + 1) }) .tick (run_ticks hrun n (by omega)) ?_ ?_
    · exact hrest
    · change s.sys.kern.ticks + n ≤ uint32 (s.sys.kern.ticks + n + 1)
      omega
    · rw [← hnext]
      rfl

/-- A slice of more than 2^31 ticks counts as negative: the first process is not demoted and
its budget grows. -/
theorem mlfq_long_slice :
    ∃ log s, (machine 1).Run Rising (Mlfq.start 1) log s ∧ s.sys.kern.ticks = 2147483658 ∧
      (s.sys.kern.proc 0).state = .runnable ∧ (s.sys.kern.proc 0).budget = 2147483643 ∧
      (s.sys.kern.proc 0).priority = MAXPRIORITY := by
  have hstep : ∀ (s : Sched 1) a, s.Enabled a → s.step a = some (s.next a) := fun _ _ h => if_pos h
  have hscan : (machine 1).Run Rising (Mlfq.start 1) [] ((Mlfq.start 1).next (.sched 0)) :=
    .snoc (Step.sched 0) .nil trivial (hstep _ _ (by decide))
  have hslice : (machine 1).Run Rising (Mlfq.start 1) []
      (((Mlfq.start 1).next (.sched 0)).next (.sched 0)) :=
    .snoc (Step.sched 0) hscan trivial
      (hstep ((Mlfq.start 1).next (.sched 0)) (.sched 0) (by decide))
  exact (run_ticks hslice 2147483658 (by decide +kernel)).exists_exec [.life (.yield 0), .sched 0]
    (fun _ s => s.sys.kern.ticks = 2147483658 ∧ (s.sys.kern.proc 0).state = .runnable ∧
      (s.sys.kern.proc 0).budget = 2147483643 ∧ (s.sys.kern.proc 0).priority = MAXPRIORITY)
    (by decide +kernel)

end KernelLabs.MlfqAccounting

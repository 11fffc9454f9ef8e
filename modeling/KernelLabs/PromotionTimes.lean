import KernelLabs.Mlfq

/-!
The times of the promotion passes of mlfqsched. The deadline is a 32-bit value that is compared
with the tick counter as an unsigned number. Time is counted here from boot without a bound,
together with the time at which the deadline was last set; the counter and the deadline are the
residues. The period is kept as long as the deadline and the counter have wrapped alike.
-/
namespace KernelLabs.PromotionTimes

open MachineWords ProcTable ProcLife Runs Mlfq List

variable {ncpu : ℕ}

/-- The scheduler system with the number of ticks since boot, and that number when
PromoteAtTime was last set. -/
structure Timed (ncpu : ℕ) where
  sched : Sched ncpu
  now : ℕ
  armed : ℕ

/-- A completed dispatch, with the ticks that are then left until PromoteAtTime, and a call of
adjustPriority. -/
inductive TimeEntry
  | completed (armed now left : ℕ)
  | pass (now : ℕ)
  deriving DecidableEq

def ticksLeft (k : Kernel) : ℕ := uint32 (k.promoteAtTime + 2 ^ 32 - k.ticks)

/-- The step is the end of a dispatch, at the test of PromoteAtTime. -/
def Completes (s : Sched ncpu) : Step ncpu → Prop
  | .sched c =>
    match s.pc c with
    | .promote .. => True
    | _ => False
  | _ => False

def completes (s : Sched ncpu) : Step ncpu → Bool
  | .sched c =>
    match s.pc c with
    | .promote .. => true
    | _ => false
  | _ => false

theorem completes_iff (s : Sched ncpu) (a : Step ncpu) : completes s a = true ↔ Completes s a := by
  cases a with
  | life a => exact iff_of_false Bool.false_ne_true id
  | tick => exact iff_of_false Bool.false_ne_true id
  | sched c =>
    simp only [completes, Completes]
    cases s.pc c <;> simp

instance (s : Sched ncpu) (a : Step ncpu) : Decidable (Completes s a) :=
  decidable_of_iff _ (completes_iff s a)

def Due (s : Sched ncpu) : Prop := s.sys.kern.promoteAtTime ≤ s.sys.kern.ticks

instance (s : Sched ncpu) : Decidable (Due s) := by
  unfold Due
  infer_instance

def timed (ncpu : ℕ) : Machine (Timed ncpu) (Step ncpu) TimeEntry where
  step w a := (w.sched.step a).map fun t =>
    { sched := t
      now := if a = .tick then w.now + 1 else w.now
      armed := if Completes w.sched a ∧ Due w.sched then w.now else w.armed }
  emit w a :=
    if Completes w.sched a then
      .completed w.armed w.now (ticksLeft (promotePass w.sched.sys.kern)) ::
        if Due w.sched then [.pass w.now] else []
    else []

def startTimed (ncpu : ℕ) : Timed ncpu where
  sched := Mlfq.start ncpu
  now := 0
  armed := 0

def passTime : TimeEntry → Option ℕ
  | .pass now => some now
  | _ => none

def passes (log : List TimeEntry) : List ℕ := log.filterMap passTime

/-- The promotion period: after every completed dispatch between 1 and TICKS_TO_PROMOTE ticks
are left, and consecutive passes are at least TICKS_TO_PROMOTE ticks apart. -/
structure Regular (log : List TimeEntry) : Prop where
  left : ∀ armed now left, .completed armed now left ∈ log → 1 ≤ left ∧ left ≤ TICKS_TO_PROMOTE
  apart : (passes log).IsChain fun later earlier => earlier + TICKS_TO_PROMOTE ≤ later

/-- The deadline that was set at `armed` and the counter have wrapped alike: if the deadline has
not wrapped, the counter is not below its value at `armed`; if it has, so has the counter. -/
def InStep (armed now : ℕ) : Prop :=
  (uint32 armed + TICKS_TO_PROMOTE < 2 ^ 32 ∧ uint32 armed + uint32 (now - armed) < 2 ^ 32) ∨
    (2 ^ 32 ≤ uint32 armed + TICKS_TO_PROMOTE ∧ 2 ^ 32 ≤ uint32 armed + (now - armed))

/-! ### The clock -/

theorem clock_promotePass (k : Kernel) :
    (promotePass k).ticks = k.ticks ∧ (promotePass k).promoteAtTime =
      if k.promoteAtTime ≤ k.ticks then uint32 (k.ticks + TICKS_TO_PROMOTE)
      else k.promoteAtTime := by
  unfold promotePass
  split <;> exact ⟨rfl, rfl⟩

/-- The counter moves with the ticks, and the deadline at the end of a dispatch. -/
theorem clock_step (s : Sched ncpu) (a : Step ncpu) :
    (s.next a).sys.kern.ticks =
        (if a = .tick then uint32 (s.sys.kern.ticks + 1) else s.sys.kern.ticks) ∧
      (s.next a).sys.kern.promoteAtTime =
        if Completes s a ∧ Due s then uint32 (s.sys.kern.ticks + TICKS_TO_PROMOTE)
        else s.sys.kern.promoteAtTime := by
  cases a with
  | life a =>
    simp only [reduceCtorEq, if_false, Completes, false_and]
    exact (s.sys.effect a).clock
  | tick =>
    simp only [if_true, Completes, false_and, if_false]
    exact ⟨rfl, rfl⟩
  | sched c =>
    cases hpc : s.pc c with
    | released =>
      simp only [reduceCtorEq, if_false, Completes, Sched.next, Sched.schedStep, hpc, false_and]
      exact ⟨rfl, rfl⟩
    | scan level count first =>
      simp only [reduceCtorEq, if_false, Completes, Sched.next, Sched.schedStep, hpc, false_and]
      split
      · exact ⟨rfl, rfl⟩
      · split <;> exact ⟨rfl, rfl⟩
    | slice level count p timeIn =>
      simp only [reduceCtorEq, if_false, Completes, Sched.next, Sched.schedStep, hpc, false_and,
        and_self]
    | charge level count p timeIn =>
      simp only [reduceCtorEq, if_false, Completes, Sched.next, Sched.schedStep, hpc, false_and]
      exact ⟨rfl, rfl⟩
    | promote level count p =>
      simp only [reduceCtorEq, if_false, Completes, Sched.next, Sched.schedStep, hpc, true_and]
      exact clock_promotePass s.sys.kern

structure Clock (log : List TimeEntry) (w : Timed ncpu) : Prop where
  ticks : w.sched.sys.kern.ticks = uint32 w.now
  deadline : w.sched.sys.kern.promoteAtTime = uint32 (w.armed + TICKS_TO_PROMOTE)
  le : w.armed ≤ w.now
  last : (passes log = [] ∧ w.armed = 0) ∨ ∃ rest, passes log = w.armed :: rest

theorem uint32_add_left (a b : ℕ) : uint32 (uint32 a + b) = uint32 (a + b) := by
  rw [uint32, uint32, uint32, Nat.mod_add_mod]

variable {a : Step ncpu}

theorem emit_completes {w : Timed ncpu} (h : Completes w.sched a) :
    (timed ncpu).emit w a =
      .completed w.armed w.now (ticksLeft (promotePass w.sched.sys.kern)) ::
        if Due w.sched then [.pass w.now] else [] := if_pos h

theorem emit_of_not_completes {w : Timed ncpu} (h : ¬Completes w.sched a) :
    (timed ncpu).emit w a = [] := if_neg h

theorem passes_emit (w : Timed ncpu) (a : Step ncpu) (log : List TimeEntry) :
    passes ((timed ncpu).emit w a ++ log) =
      if Completes w.sched a ∧ Due w.sched then w.now :: passes log else passes log := by
  by_cases hcompletes : Completes w.sched a
  · rw [emit_completes hcompletes]
    by_cases hdue : Due w.sched
    · rw [if_pos hdue, if_pos ⟨hcompletes, hdue⟩]
      rfl
    · rw [if_neg hdue, if_neg fun h => hdue h.2]
      rfl
  · rw [emit_of_not_completes hcompletes, if_neg fun h => hcompletes h.1]
    rfl

theorem step_eq_some {w w' : Timed ncpu} (h : (timed ncpu).step w a = some w') :
    w' = ⟨w.sched.next a, if a = .tick then w.now + 1 else w.now,
      if Completes w.sched a ∧ Due w.sched then w.now else w.armed⟩ := by
  obtain ⟨t, ht, rfl⟩ := Option.map_eq_some_iff.mp h
  obtain ⟨_, rfl⟩ := Sched.step_eq_some ht
  rfl

theorem Clock.step {w w' : Timed ncpu} {log : List TimeEntry} (h : Clock log w)
    (hstep : (timed ncpu).step w a = some w') : Clock ((timed ncpu).emit w a ++ log) w' := by
  obtain rfl := step_eq_some hstep
  obtain ⟨hticks, hpromote⟩ := clock_step w.sched a
  have hle := h.le
  refine ⟨?_, ?_, ?_, ?_⟩
  · dsimp only
    rw [hticks, h.ticks]
    split
    · exact uint32_add_left _ _
    · rfl
  · dsimp only
    rw [hpromote, h.ticks, h.deadline]
    split
    · exact uint32_add_left _ _
    · rfl
  · dsimp only
    split <;> split <;> omega
  · rw [passes_emit]
    dsimp only
    split
    · exact .inr ⟨_, rfl⟩
    · exact h.last

theorem clock_start (ncpu : ℕ) : Clock [] (startTimed ncpu) :=
  ⟨rfl, rfl, le_refl _, .inl ⟨rfl, rfl⟩⟩

/-! ### The period -/

section Period

variable {w : Timed ncpu} {log : List TimeEntry}

/-- The ticks left after the test at `now` of the deadline that was set at `armed`. -/
def leftAt (armed now : ℕ) : ℕ :=
  if uint32 (armed + TICKS_TO_PROMOTE) ≤ uint32 now then TICKS_TO_PROMOTE
  else uint32 (armed + TICKS_TO_PROMOTE) - uint32 now

theorem ticksLeft_promotePass (h : Clock log w) :
    ticksLeft (promotePass w.sched.sys.kern) = leftAt w.armed w.now := by
  obtain ⟨hticks, hpromote⟩ := clock_promotePass w.sched.sys.kern
  have hnow : uint32 w.now < 2 ^ 32 := Nat.mod_lt _ (by omega)
  rw [ticksLeft, hticks, hpromote, h.ticks, h.deadline, leftAt]
  by_cases hdue : uint32 (w.armed + TICKS_TO_PROMOTE) ≤ uint32 w.now
  · rw [if_pos hdue, if_pos hdue]
    simp only [uint32, TICKS_TO_PROMOTE] at hnow ⊢
    omega
  · rw [if_neg hdue, if_neg hdue]
    simp only [uint32, TICKS_TO_PROMOTE] at hnow hdue ⊢
    omega

/-- The arithmetic of one test: what the period asks of it is that the deadline and the counter
are in step. -/
theorem inStep_iff {armed now : ℕ} (hle : armed ≤ now) :
    InStep armed now ↔
      (1 ≤ leftAt armed now ∧ leftAt armed now ≤ TICKS_TO_PROMOTE) ∧
        (uint32 (armed + TICKS_TO_PROMOTE) ≤ uint32 now → armed + TICKS_TO_PROMOTE ≤ now) := by
  by_cases hdue : uint32 (armed + TICKS_TO_PROMOTE) ≤ uint32 now
  · rw [leftAt, if_pos hdue]
    simp only [InStep, uint32, TICKS_TO_PROMOTE] at hdue ⊢
    omega
  · rw [leftAt, if_neg hdue]
    simp only [InStep, uint32, TICKS_TO_PROMOTE] at hdue ⊢
    omega

/-- Every completed dispatch found the deadline and the counter in step. -/
def Kept (log : List TimeEntry) : Prop :=
  ∀ armed now left, .completed armed now left ∈ log → InStep armed now

theorem regular_completed {armed now left : ℕ} :
    Regular (.completed armed now left :: log) ↔
      (1 ≤ left ∧ left ≤ TICKS_TO_PROMOTE) ∧ Regular log := by
  constructor
  · intro h
    exact ⟨h.left armed now left mem_cons_self,
      fun a n l hmem => h.left a n l (mem_cons_of_mem _ hmem), h.apart⟩
  · rintro ⟨hleft, h⟩
    refine ⟨?_, h.apart⟩
    intro a n l hmem
    rcases mem_cons.mp hmem with heq | hmem
    · obtain ⟨rfl, rfl, rfl⟩ := TimeEntry.completed.inj heq
      exact hleft
    · exact h.left a n l hmem

theorem regular_pass {now : ℕ} :
    Regular (.pass now :: log) ↔
      (∀ last rest, passes log = last :: rest → last + TICKS_TO_PROMOTE ≤ now) ∧ Regular log := by
  have hpasses : passes (.pass now :: log) = now :: passes log := rfl
  constructor
  · intro h
    have hapart := h.apart
    rw [hpasses] at hapart
    refine ⟨?_, fun a n l hmem => h.left a n l (mem_cons_of_mem _ hmem), hapart.of_cons⟩
    intro last rest hlast
    rw [hlast] at hapart
    exact (isChain_cons_cons.mp hapart).1
  · rintro ⟨hlast, h⟩
    refine ⟨?_, ?_⟩
    · intro a n l hmem
      rcases mem_cons.mp hmem with heq | hmem
      · simp at heq
      · exact h.left a n l hmem
    · rw [hpasses]
      cases hrest : passes log with
      | nil => exact List.IsChain.singleton _
      | cons last rest =>
        rw [isChain_cons_cons, ← hrest]
        exact ⟨hlast last rest hrest, h.apart⟩

theorem kept_completed {armed now left : ℕ} :
    Kept (.completed armed now left :: log) ↔ InStep armed now ∧ Kept log := by
  constructor
  · intro h
    exact ⟨h armed now left mem_cons_self, fun a n l hmem => h a n l (mem_cons_of_mem _ hmem)⟩
  · rintro ⟨hstep, h⟩ a n l hmem
    rcases mem_cons.mp hmem with heq | hmem
    · obtain ⟨rfl, rfl, _⟩ := TimeEntry.completed.inj heq
      exact hstep
    · exact h a n l hmem

theorem kept_pass {now : ℕ} : Kept (.pass now :: log) ↔ Kept log := by
  simp only [Kept, mem_cons, reduceCtorEq, false_or]

/-- The time since the last pass, where there is one; before the first pass the deadline is the
one that userinit set. -/
theorem apart_iff (h : Clock log w) (hdue : Due w.sched) :
    (∀ last rest, passes log = last :: rest → last + TICKS_TO_PROMOTE ≤ w.now) ↔
      w.armed + TICKS_TO_PROMOTE ≤ w.now := by
  rw [Due, h.ticks, h.deadline] at hdue
  rcases h.last with ⟨hnone, harmed⟩ | ⟨rest, hsome⟩
  · rw [hnone, harmed]
    rw [harmed] at hdue
    simp only [uint32, TICKS_TO_PROMOTE] at hdue ⊢
    constructor
    · intro _
      omega
    · intro _ last rest hlast
      simp at hlast
  · rw [hsome]
    constructor
    · intro hall
      exact hall _ _ rfl
    · intro hle last rest' hlast
      obtain ⟨rfl, _⟩ := List.cons.inj hlast
      exact hle

theorem regular_iff_kept_step (h : Clock log w) (hlog : Regular log ↔ Kept log) :
    Regular ((timed ncpu).emit w a ++ log) ↔ Kept ((timed ncpu).emit w a ++ log) := by
  by_cases hcompletes : Completes w.sched a
  · have hdueIff : Due w.sched ↔ uint32 (w.armed + TICKS_TO_PROMOTE) ≤ uint32 w.now := by
      rw [Due, h.ticks, h.deadline]
    rw [emit_completes hcompletes, ticksLeft_promotePass h, cons_append, regular_completed,
      kept_completed, inStep_iff h.le]
    by_cases hdue : Due w.sched
    · rw [if_pos hdue, singleton_append, regular_pass, kept_pass, apart_iff h hdue, hlog]
      have hle := hdueIff.mp hdue
      tauto
    · rw [if_neg hdue, nil_append, hlog]
      have hlt := mt hdueIff.mpr hdue
      tauto
  · rw [emit_of_not_completes hcompletes]
    exact hlog

end Period

/-- The promotion period is kept along a run exactly if no completed dispatch finds the deadline
and the counter on different sides of a wrap. -/
theorem promotion_period_iff {log : List TimeEntry} {w : Timed ncpu}
    (hrun : (timed ncpu).Run (fun _ _ => True) (startTimed ncpu) log w) :
    Regular log ↔ ∀ armed now left, .completed armed now left ∈ log → InStep armed now := by
  have hboth : Clock log w ∧ (Regular log ↔ Kept log) := by
    refine hrun.invariant (P := fun log w => Clock log w ∧ (Regular log ↔ Kept log))
      ⟨clock_start ncpu, ?_⟩ ?_
    · exact iff_of_true ⟨by simp, List.IsChain.nil⟩ (by simp [Kept])
    · intro log w a t hinv _ hstep
      exact ⟨hinv.1.step hstep, regular_iff_kept_step hinv.1 hinv.2⟩
  exact hboth.2

def twoDispatches : List (Step 1) :=
  [.sched 0, .sched 0, .life (.yield 0), .sched 0, .sched 0, .tick,
    .sched 0, .sched 0, .life (.yield 0), .sched 0, .sched 0]

theorem promotion_period_after_boot :
    ∃ (log : List TimeEntry) (w : Timed 1),
      (timed 1).Run (fun _ _ => True) (startTimed 1) log w ∧
        log = [.completed 0 1 49, .completed 0 0 50] ∧
        (Regular log ↔ ∀ armed now left, .completed armed now left ∈ log → InStep armed now) := by
  obtain ⟨log, w, hrun, hlog⟩ :=
    Machine.exists_run_of_exec (timed 1) (fun _ _ => True) (startTimed 1)
      twoDispatches (fun log _ => log = [.completed 0 1 49, .completed 0 0 50])
      (by decide +kernel)
  exact ⟨log, w, hrun, hlog, promotion_period_iff hrun⟩

def idle (ncpu n : ℕ) : Timed ncpu where
  sched := (Mlfq.start ncpu).withKern { (Mlfq.start ncpu).sys.kern with ticks := uint32 n }
  now := n
  armed := 0

theorem run_idle (ncpu n : ℕ) :
    (timed ncpu).Run (fun _ _ => True) (startTimed ncpu) [] (idle ncpu n) := by
  induction n with
  | zero => exact Machine.Run.nil
  | succ n ih =>
    have hstep : (timed ncpu).step (idle ncpu n) .tick = some (idle ncpu (n + 1)) := by
      have hnext : (idle ncpu n).sched.next .tick = (idle ncpu (n + 1)).sched := by
        simp only [Sched.next, idle, Sched.withKern, advance, uint32_add_left]
      simp only [timed, Sched.step, Sched.Enabled, if_true, Option.map_some, hnext]
      simp only [Completes, false_and, if_false]
      rfl
    exact Machine.Run.snoc .tick ih trivial hstep

/-- The first pass is ten ticks before the counter wraps and sets the deadline to 40, so that the
next completed dispatch, a tick later, promotes again. -/
theorem promotion_one_tick_apart :
    ∃ (log : List TimeEntry) (w : Timed 1),
      (timed 1).Run (fun _ _ => True) (startTimed 1) log w ∧
        passes log = [4294967287, 4294967286] ∧ ¬Regular log := by
  have hexec : ((timed 1).exec (fun _ _ => True) [] (idle 1 4294967286) twoDispatches).any
      (fun r => decide (passes r.1 = [4294967287, 4294967286])) = true := by decide +kernel
  cases hr : (timed 1).exec (fun _ _ => True) [] (idle 1 4294967286) twoDispatches with
  | none =>
    rw [hr] at hexec
    simp at hexec
  | some r =>
    rw [hr] at hexec
    have hpasses : passes r.1 = [4294967287, 4294967286] := of_decide_eq_true hexec
    refine ⟨r.1, r.2, Machine.Run.exec twoDispatches (run_idle 1 4294967286) hr, hpasses, ?_⟩
    intro hregular
    have hapart := hregular.apart
    rw [hpasses, isChain_cons_cons] at hapart
    have hle := hapart.1
    unfold TICKS_TO_PROMOTE at hle
    omega

end KernelLabs.PromotionTimes

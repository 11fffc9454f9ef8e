import KernelLabs.MlfqOrder

/-!
The order within a level of the feedback queues. After a dispatch the scan of the
table goes on behind the slot of that process, and since it has found something at
its level it starts again from the first slot, at the same level. A process that
waits at the level is therefore met before the scan comes back to the slot it left.

The runs below are those of the scheduler system with a flag that says whether the
waiting process has been dispatched, by whichever CPU.
-/
namespace KernelLabs.MlfqRobin

open MachineWords ProcTable ProcLife Runs Mlfq MlfqSteps MlfqOrder Option

variable {ncpu : ℕ}

def Waiting (k : Kernel) (q : Slot) (level : ℤ) : Prop :=
  (k.proc q).state = .runnable ∧ (k.proc q).priority = level

instance (k : Kernel) (q : Slot) (level : ℤ) : Decidable (Waiting k q level) := by
  unfold Waiting
  infer_instance

/-- The scheduler system, and whether the watched process has been dispatched. -/
structure Watch (ncpu : ℕ) where
  sched : Sched ncpu
  seen : Bool

def watch (ncpu : ℕ) (q : Slot) : Machine (Watch ncpu) (Step ncpu) Mlfq.Entry where
  step w a := (w.sched.step a).map fun t =>
    { sched := t, seen := w.seen || decide (Kernel.Dispatched w.sched.sys.kern t.sys.kern q) }
  emit w a := w.sched.emit a

/-- Until it is dispatched, the watched process waits at the level. -/
def Waits (q : Slot) (level : ℤ) (w : Watch ncpu) (_ : Step ncpu) : Prop :=
  w.seen = false → Waiting w.sched.sys.kern q level

instance (q : Slot) (level : ℤ) (w : Watch ncpu) (a : Step ncpu) :
    Decidable (Waits q level w a) := by
  unfold Waits
  infer_instance

/-- A scan that starts at or before a waiting process stops there or earlier. -/
theorem nextAt_le {k : Kernel} {level : ℤ} {first : ℕ} {q : Slot} (hq : Waiting k q level)
    (hfirst : first ≤ q.val) : ∃ x, nextAt k level first = some x ∧ x ≤ q := by
  unfold nextAt
  cases hfind : Fin.find? fun p => decide (first ≤ p.val ∧ (k.proc p).state = .runnable ∧
    (k.proc p).priority = level) with
  | none =>
    have hnone := Fin.find?_eq_none_iff.mp hfind q
    simp [hfirst, hq.1, hq.2] at hnone
  | some x =>
    refine ⟨x, rfl, ?_⟩
    by_contra hlt
    have hbefore := (Fin.find?_eq_some_iff.mp hfind).2 q (not_le.mp hlt)
    simp [hfirst, hq.1, hq.2] at hbefore

theorem first_le_nextAt {k : Kernel} {level : ℤ} {first : ℕ} {x : Slot}
    (h : nextAt k level first = some x) : first ≤ x.val := by
  unfold nextAt at h
  have hfound := (Fin.find?_eq_some_iff.mp h).1
  simp only [decide_eq_true_eq] at hfound
  exact hfound.1

/-- Where the scan stands after it left slot `p` and before it meets slot `q`: behind
`p` in the same pass and not behind `q`, or in the next pass and not behind `q`. -/
def Between (p q : Slot) (level : ℤ) : SchedPc → Prop
  | .released => False
  | .scan l count first =>
    l = level ∧ (1 ≤ count ∧ p.val < first ∧ (p < q → first ≤ q.val) ∨ q < p ∧ first ≤ q.val)
  | .slice l count x _ => l = level ∧ (1 ≤ count ∧ p ≤ x ∧ (p < q → x < q) ∨ q < p ∧ x < q)
  | .charge l count x _ => l = level ∧ (1 ≤ count ∧ p ≤ x ∧ (p < q → x < q) ∨ q < p ∧ x < q)
  | .promote l count x => l = level ∧ (1 ≤ count ∧ p ≤ x ∧ (p < q → x < q) ∨ q < p ∧ x < q)

section Steps

variable {s t : Sched ncpu} {c : Fin ncpu} {p q : Slot} {level : ℤ}

/-- A dispatch by mlfqsched comes from its scan of a level. -/
theorem scan_of_dispatched (hd : Kernel.Dispatched s.sys.kern (s.schedStep c).sys.kern p) :
    ∃ l count first, s.pc c = .scan l count first ∧ 0 ≤ l ∧
      nextAt s.sys.kern l first = some p := by
  obtain ⟨hbefore, hafter⟩ := hd
  rcases schedStep_state s c p with hsame | ⟨l, count, first, hpc, hnext, -⟩
  · rw [hsame] at hafter
    exact absurd hafter hbefore
  · refine ⟨l, count, first, hpc, ?_, hnext⟩
    by_contra hneg
    have hlow : l < 0 := not_le.mp hneg
    simp only [Sched.schedStep, hpc, hlow, if_true, Sched.setPc] at hafter
    exact absurd hafter hbefore

/-- The program counter after a scan that stops at slot `x`. -/
theorem schedStep_pc_scan {count first : ℕ} {x : Slot} (hpc : s.pc c = .scan level count first)
    (hlevel : 0 ≤ level) (hnext : nextAt s.sys.kern level first = some x) :
    (s.schedStep c).pc c = .slice level (count + 1) x (int32 s.sys.kern.ticks) := by
  have hlow : ¬ level < 0 := not_lt.mpr hlevel
  simp [Sched.schedStep, hpc, hlow, hnext, Sched.setPc, Sched.withKern]

theorem dispatched_of_scan {count first : ℕ} {x : Slot} (hpc : s.pc c = .scan level count first)
    (hlevel : 0 ≤ level) (hnext : nextAt s.sys.kern level first = some x) :
    Kernel.Dispatched s.sys.kern (s.schedStep c).sys.kern x := by
  have hlow : ¬ level < 0 := not_lt.mpr hlevel
  constructor
  · rw [(nextAt_eq_some hnext).1]
    decide
  · simp [Sched.schedStep, hpc, hlow, hnext, Sched.setPc, Sched.withKern, mlfqDispatch_state]

theorem schedStep_pc_other {d : Fin ncpu} (hdc : c ≠ d) : (s.schedStep d).pc c = s.pc c := by
  unfold Sched.schedStep
  split
  · simp [Sched.setPc, hdc]
  · split
    · simp [Sched.setPc, hdc]
    · split <;> simp [Sched.setPc, Sched.withKern, hdc]
  · rfl
  · simp [Sched.setPc, Sched.withKern, hdc]
  · simp [Sched.setPc, Sched.withKern, hdc]

/-- A step of the scheduler itself keeps the scan between the two slots, unless it
dispatches the waiting process. -/
theorem Between.schedStep (h : Between p q level (s.pc c)) (hne : q ≠ p) (hlevel : 0 ≤ level)
    (hq : Waiting s.sys.kern q level)
    (hnot : ¬ Kernel.Dispatched s.sys.kern (s.schedStep c).sys.kern q) :
    Between p q level ((s.schedStep c).pc c) := by
  cases hpc : s.pc c with
  | released =>
    rw [hpc] at h
    exact h.elim
  | scan l count first =>
    rw [hpc] at h
    obtain ⟨rfl, hplace⟩ := h
    -- a waiting process that is still ahead stops the scan
    have hahead : first ≤ q.val → ∃ x, nextAt s.sys.kern l first = some x ∧ x < q := by
      intro hfirst
      obtain ⟨x, hnext, hle⟩ := nextAt_le hq hfirst
      refine ⟨x, hnext, lt_of_le_of_ne hle ?_⟩
      rintro rfl
      exact hnot (dispatched_of_scan hpc hlevel hnext)
    cases hnext : nextAt s.sys.kern l first with
    | some x =>
      rw [schedStep_pc_scan hpc hlevel hnext]
      have hfirst := first_le_nextAt hnext
      refine ⟨rfl, ?_⟩
      rcases hplace with ⟨-, hp, hpq⟩ | ⟨hqp, hle⟩
      · refine .inl ⟨by omega, Fin.le_def.mpr (by omega), fun hlt => ?_⟩
        obtain ⟨y, hy, hyq⟩ := hahead (hpq hlt)
        rwa [some.inj (hnext.symm.trans hy)]
      · obtain ⟨y, hy, hyq⟩ := hahead hle
        rw [some.inj (hnext.symm.trans hy)]
        exact .inr ⟨hqp, hyq⟩
    | none =>
      have hlow : ¬ l < 0 := not_lt.mpr hlevel
      have hbehind : ¬ first ≤ q.val := by
        intro hfirst
        obtain ⟨y, hy, -⟩ := hahead hfirst
        rw [hnext] at hy
        cases hy
      rcases hplace with ⟨hcount, -, hpq⟩ | ⟨-, hle⟩
      · -- the pass is over; it found something, so the level is scanned again
        have hzero : count ≠ 0 := by omega
        have hqp : q < p := lt_of_le_of_ne (not_lt.mp fun hlt => hbehind (hpq hlt)) hne
        simp only [Sched.schedStep, hpc, hlow, if_false, hnext, hzero, Sched.setPc,
          Function.update_self]
        exact ⟨rfl, .inr ⟨hqp, Nat.zero_le _⟩⟩
      · exact absurd hle hbehind
  | slice l count x timeIn =>
    rw [hpc] at h
    simpa only [Sched.schedStep, hpc] using h
  | charge l count x timeIn =>
    rw [hpc] at h
    simpa [Sched.schedStep, hpc, Sched.setPc, Sched.withKern, Between] using h
  | promote l count x =>
    rw [hpc] at h
    obtain ⟨rfl, hplace⟩ := h
    simp only [Sched.schedStep, hpc, Sched.setPc, Sched.withKern, Function.update_self, Between,
      true_and]
    rcases hplace with ⟨hcount, hpx, hxq⟩ | ⟨hqp, hxq⟩
    · refine .inl ⟨hcount, ?_, fun hlt => ?_⟩
      · have := Fin.le_def.mp hpx
        omega
      · exact Fin.lt_def.mp (hxq hlt)
    · exact .inr ⟨hqp, Fin.lt_def.mp hxq⟩

/-- The end of a slice moves the program counter and nothing else. -/
theorem Between.endSlice {pc : SchedPc} (h : Between p q level pc) (k : Kernel) :
    Between p q level (endSlice k pc) := by
  cases pc with
  | slice l count x timeIn =>
    simp only [Mlfq.endSlice]
    split
    · exact h
    · exact h
  | released => exact h
  | scan l count first => exact h
  | charge l count x timeIn => exact h
  | promote l count x => exact h

theorem Between.next {a : Step ncpu} (h : Between p q level (s.pc c)) (hne : q ≠ p)
    (hlevel : 0 ≤ level) (hq : Waiting s.sys.kern q level)
    (hnot : ¬ Kernel.Dispatched s.sys.kern (s.next a).sys.kern q) :
    Between p q level ((s.next a).pc c) := by
  cases a with
  | life a => exact h.endSlice _
  | tick => exact h
  | sched d =>
    by_cases hdc : c = d
    · subst hdc
      exact h.schedStep hne hlevel hq hnot
    · rw [show (s.next (.sched d)).pc c = s.pc c from schedStep_pc_other hdc]
      exact h

/-- While the scan is between the two slots it does not stop at the slot it left. -/
theorem Between.not_dispatched (h : Between p q level (s.pc c)) (hq : Waiting s.sys.kern q level) :
    ¬ Kernel.Dispatched s.sys.kern (s.schedStep c).sys.kern p := by
  intro hd
  obtain ⟨l, count, first, hpc, -, hnext⟩ := scan_of_dispatched hd
  rw [hpc] at h
  obtain ⟨rfl, hplace⟩ := h
  have hfirst := first_le_nextAt hnext
  rcases hplace with ⟨-, hp, -⟩ | ⟨hqp, hle⟩
  · omega
  · obtain ⟨x, hx, hxq⟩ := nextAt_le hq hle
    rw [some.inj (hnext.symm.trans hx)] at hqp
    exact absurd hqp (not_lt.mpr hxq)

end Steps

/-- Round robin. On any number of CPUs, and from any state: CPU `c` dispatches the
process in slot `p` while it serves a level, and dispatches it again later. A process
in another slot that waits at that level from the first dispatch on, until it is
dispatched itself, has then been dispatched in between. -/
theorem round_robin {s₀ s₁ : Sched ncpu} {c : Fin ncpu} {p q : Slot} {level : ℤ}
    (hstep : s₀.step (.sched c) = some s₁) (hserved : served (s₀.pc c) = some level)
    (hfirst : Kernel.Dispatched s₀.sys.kern s₁.sys.kern p) (hne : q ≠ p)
    {log : List Mlfq.Entry} {w : Watch ncpu} {t : Sched ncpu}
    (hrun : (watch ncpu q).Run (Waits q level) { sched := s₁, seen := false } log w)
    (hwaits : Waits q level w (.sched c)) (hagain : w.sched.step (.sched c) = some t)
    (hsecond : Kernel.Dispatched w.sched.sys.kern t.sys.kern p) : w.seen = true := by
  obtain ⟨-, rfl⟩ := Sched.step_eq_some hstep
  obtain ⟨-, rfl⟩ := Sched.step_eq_some hagain
  obtain ⟨l, count, first, hpc, hlevel, hnext⟩ := scan_of_dispatched hfirst
  obtain rfl : l = level := by simpa [hpc, served] using hserved
  -- the invariant of the run: until the flag is set, the scan is between the slots
  have hinv : w.seen = false → Between p q l (w.sched.pc c) := by
    refine Machine.Run.invariant
      (P := fun _ w => w.seen = false → Between p q l (w.sched.pc c)) ?_ ?_ hrun
    · intro _
      rw [show (s₀.next (.sched c)).pc c = _ from schedStep_pc_scan hpc hlevel hnext]
      exact ⟨rfl, .inl ⟨by omega, le_rfl, id⟩⟩
    · intro log w a w' ih hguard hw hseen
      obtain ⟨u, hu, rfl⟩ := map_eq_some_iff.mp hw
      obtain ⟨-, rfl⟩ := Sched.step_eq_some hu
      obtain ⟨hold, hnot⟩ := Bool.or_eq_false_iff.mp hseen
      exact (ih hold).next hne hlevel (hguard hold) (of_decide_eq_false hnot)
  cases hseen : w.seen with
  | true => rfl
  | false => exact absurd hsecond ((hinv hseen).not_dispatched (hwaits hseen))

/-- The test that a second dispatch of slot 1 by the only CPU follows. -/
def dispatchesChild (s : Sched 1) : Bool :=
  (s.step (.sched ⟨0, Nat.one_pos⟩)).any fun t => decide (Kernel.Dispatched s.sys.kern t.sys.kern 1)

/-- init forks and yields; the scan goes on to the child in slot 1, and init waits at
the same level. When the child comes up again, init has been dispatched. -/
theorem round_robin_fork :
    ∃ (s₀ s₁ : Sched 1) (log : List Mlfq.Entry) (w : Watch 1) (t : Sched 1),
      s₀.step (.sched 0) = some s₁ ∧ Kernel.Dispatched s₀.sys.kern s₁.sys.kern 1 ∧
        (watch 1 0).Run (Waits 0 MAXPRIORITY) { sched := s₁, seen := false } log w ∧
        w.sched.step (.sched 0) = some t ∧
        Kernel.Dispatched w.sched.sys.kern t.sys.kern 1 ∧ w.seen = true := by
  obtain ⟨-, s₀, -, hserved, hchild, hexec⟩ :=
    Machine.exists_run_of_exec (Mlfq.machine 1) Machine.Free (Mlfq.start 1)
      [.sched 0, .sched 0, .life (.forkAlloc 0), .life (.forkCopy 0), .life (.forkDone 0),
        .life (.yield 0), .sched 0, .sched 0]
      (fun _ s₀ => served (s₀.pc 0) = some MAXPRIORITY ∧ dispatchesChild s₀ ∧
        ((watch 1 0).exec (Waits 0 MAXPRIORITY) [] { sched := s₀.next (.sched 0), seen := false }
          [.life (.yield 1), .sched 0, .sched 0, .sched 0, .sched 0, .life (.yield 0), .sched 0,
            .sched 0]).any fun r =>
          Waits 0 MAXPRIORITY r.2 (.sched 0) ∧ dispatchesChild r.2.sched)
      (by decide +kernel)
  obtain ⟨log, w, hrun, hw, hchild'⟩ := Machine.exists_run_of_exec (watch 1 0)
    (Waits 0 MAXPRIORITY) _ _
    (fun _ w => Waits 0 MAXPRIORITY w (.sched 0) ∧ dispatchesChild w.sched) hexec
  obtain ⟨s₁, hs₁, hfirst⟩ := (any_eq_true _ _).mp hchild
  obtain ⟨t, ht, hsecond⟩ := (any_eq_true _ _).mp hchild'
  obtain ⟨-, rfl⟩ := Sched.step_eq_some hs₁
  exact ⟨s₀, _, log, w, t, hs₁, of_decide_eq_true hfirst, hrun, ht, of_decide_eq_true hsecond,
    round_robin hs₁ hserved (of_decide_eq_true hfirst) (by decide) hrun hw ht
      (of_decide_eq_true hsecond)⟩

end KernelLabs.MlfqRobin

import KernelLabs.LockOwners
import KernelLabs.Runs

/-!
The sleep locks of sleeplock.c with the part of sleep and wakeup of proc.c that they
use. The steps are those of single processes between two operations on a spinlock, so
that any number of processes interleave inside acquiresleep, sleep, releasesleep and
wakeup. sleep takes ptable.lock before it gives up the spinlock of the sleep lock, and
this is what keeps a wakeup from passing between the test of the lock and the sleep.

The spinlocks are those of spinlock.c: acquire waits until nobody has the lock. sched
leaves ptable.lock to the scheduler, which releases it, and a process that returns from
sched gets it from there.
-/
namespace KernelLabs.SleepLocks

open LockOwners Runs Function Option

abbrev Pid := ℕ

inductive Lock
  | lk | ptable
  deriving DecidableEq, Repr

/-- Where a process stands, named by what it does next. -/
inductive Pc
  | idle
  /-- acquire(&lk->lk), at the head of acquiresleep or at the end of sleep -/
  | enter
  /-- while (lk->locked) -/
  | test
  /-- acquire(&ptable.lock) in sleep -/
  | sleep
  /-- release(lk) in sleep -/
  | swap
  /-- p->state = SLEEPING and sched() -/
  | sched
  | asleep
  | woken
  /-- release(&ptable.lock) in sleep -/
  | back
  /-- release(&lk->lk) in acquiresleep -/
  | leave
  | holding
  /-- acquire(&lk->lk) in releasesleep -/
  | free
  /-- lk->locked = 0 -/
  | clear
  /-- acquire(&ptable.lock) in wakeup -/
  | wakeup
  | wakeup1
  /-- release(&ptable.lock) in wakeup -/
  | wakeupDone
  /-- release(&lk->lk) in releasesleep -/
  | done
  deriving DecidableEq, Repr

inductive Instr
  | acquire (l : Lock)
  | release (l : Lock)
  | test
  | clear
  | wakeup1
  deriving DecidableEq, Repr

/-- The code, with the point that is reached. A process outside of the functions, with
or without the lock, and one that sleeps do not go on by themselves. -/
def Pc.code : Pc → Option (Instr × Pc)
  | .idle | .asleep | .holding => none
  | .enter => some (.acquire .lk, .test)
  | .test => some (.test, .leave)
  | .sleep => some (.acquire .ptable, .swap)
  | .swap => some (.release .lk, .sched)
  | .sched => some (.release .ptable, .asleep)
  | .woken => some (.acquire .ptable, .back)
  | .back => some (.release .ptable, .enter)
  | .leave => some (.release .lk, .holding)
  | .free => some (.acquire .lk, .clear)
  | .clear => some (.clear, .wakeup)
  | .wakeup => some (.acquire .ptable, .wakeup1)
  | .wakeup1 => some (.wakeup1, .wakeupDone)
  | .wakeupDone => some (.release .ptable, .done)
  | .done => some (.release .lk, .idle)

/-- A sleeper that is made RUNNABLE. -/
def Pc.wake : Pc → Pc
  | .asleep => .woken
  | other => other

/-- struct sleeplock, the holders of the two spinlocks, and where the processes stand. -/
structure Sys where
  locked : Bool
  pid : Pid
  lock : Lock → Option Pid
  pc : Pid → Pc

def Sys.goto (s : Sys) (c : Pid) (q : Pc) : Sys := { s with pc := update s.pc c q }

def Sys.exec (s : Sys) (c : Pid) : Instr → Pc → Option Sys
  | .acquire l, q =>
    if s.lock l = none then some { s.goto c q with lock := update s.lock l (some c) }
    else none
  | .release l, q => some { s.goto c q with lock := update s.lock l none }
  | .test, q =>
    -- behind the loop lk->locked = 1 and lk->pid = myproc()->pid
    if s.locked then some (s.goto c .sleep) else some { s.goto c q with locked := true, pid := c }
  | .clear, q => some { s.goto c q with locked := false, pid := 0 }
  | .wakeup1, q => some ({ s with pc := fun d => (s.pc d).wake }.goto c q)

/-- Calls of acquiresleep and, by the holder, of releasesleep; steps inside of them; and
kill, which wakes its process under ptable.lock. -/
inductive Act
  | acquiresleep (c : Pid)
  | releasesleep (c : Pid)
  | run (c : Pid)
  | kill (c : Pid)

def Sys.step (s : Sys) : Act → Option Sys
  | .acquiresleep c => if s.pc c = .idle then some (s.goto c .enter) else none
  | .releasesleep c => if s.pc c = .holding then some (s.goto c .free) else none
  | .run c => (s.pc c).code.bind fun (i, q) => s.exec c i q
  | .kill c => if s.lock .ptable = none then some (s.goto c (s.pc c).wake) else none

def machine : Machine Sys Act Unit where
  step := Sys.step
  emit _ _ := []

/-- The state that initsleeplock leaves. -/
def start : Sys := { locked := false, pid := 0, lock := fun _ => none, pc := fun _ => .idle }

/-- The value that holdingsleep returns to a process. -/
def Sys.holdingsleep (s : Sys) (c : Pid) : Bool := s.locked && s.pid == c

def Pc.hasLock : Lock → Pc → Bool
  | .lk, p => p ∈ [.test, .sleep, .swap, .leave, .clear, .wakeup, .wakeup1, .wakeupDone, .done]
  | .ptable, p => p ∈ [.swap, .sched, .back, .wakeup1, .wakeupDone]

/-- From the return of acquiresleep, or just before it, until releasesleep frees the lock. -/
def Pc.owns (p : Pc) : Bool := p ∈ [.leave, .holding, .free, .clear]

/-- The process has found the lock taken and sleeps, or is about to. -/
def Pc.down (p : Pc) : Bool := p ∈ [.sleep, .swap, .sched, .asleep]

/-- The lock has been freed and the sleepers are still to be woken. -/
def Pc.waking (p : Pc) : Bool := p ∈ [.wakeup, .wakeup1]

/-- The spinlocks and the sleep lock have one owner each, and a process on its way to
sleep finds the lock taken or a wakeup on its way. -/
structure Inv (s : Sys) : Prop where
  lock : ∀ l, Owned (Pc.hasLock l) s.pc (s.lock l)
  owner : Owned Pc.owns s.pc (if s.locked then some s.pid else none)
  down : ∀ c, (s.pc c).down = true → s.locked = true ∨ ∃ d, (s.pc d).waking = true

instance (P : Lock → Prop) [DecidablePred P] : Decidable (∀ l, P l) :=
  decidable_of_iff (P .lk ∧ P .ptable) ⟨fun h l => by cases l <;> simp [h], fun h => ⟨h _, h _⟩⟩

/-- From `p` to `q` no region is entered or left but that of the lock `l`. -/
def Stays (l : Option Lock) (p q : Pc) : Prop :=
  (∀ m, some m ≠ l → q.hasLock m = p.hasLock m) ∧ q.owns = p.owns ∧
    (q.down = true → p.down = true) ∧ (p.waking = true → q.waking = true)

instance (l : Option Lock) (p q : Pc) : Decidable (Stays l p q) := by
  unfold Stays
  infer_instance

theorem stays_wake (p : Pc) : Stays none p p.wake := by
  cases p <;> decide

/-- What is known of the two ends of an instruction. -/
theorem code_ends {p q : Pc} {i : Instr} (h : p.code = some (i, q)) :
    match i with
    | .acquire l => Stays (some l) p q ∧ q.hasLock l = true
    | .release l => Stays (some l) p q ∧ p.hasLock l = true ∧ q.hasLock l = false
    | .test => p = .test ∧ q = .leave
    | .clear => p = .clear ∧ q = .wakeup
    | .wakeup1 => p = .wakeup1 ∧ q = .wakeupDone := by
  cases p <;> cases h <;> decide

section Steps

variable {s t : Sys} {c : Pid} {q : Pc}

theorem Inv.goto (h : Inv s) {l : Option Lock} (hq : Stays l (s.pc c) q)
    {lock : Lock → Option Pid} (hlock : ∀ m, some m ≠ l → lock m = s.lock m)
    (hl : ∀ m, some m = l → Owned (Pc.hasLock m) (update s.pc c q) (lock m)) :
    Inv { s.goto c q with lock := lock } := by
  obtain ⟨hother, howns, hdown, hwaking⟩ := hq
  refine ⟨fun m => ?_, h.owner.keep howns, fun d hd => ?_⟩
  · by_cases hm : some m = l
    · exact hl m hm
    · simp only [hlock m hm]
      exact (h.lock m).keep (hother m hm)
  · have hold : (s.pc d).down = true := by
      by_cases hdc : d = c
      · subst hdc
        exact hdown (by simpa [Sys.goto] using hd)
      · simpa [Sys.goto, update_of_ne hdc] using hd
    refine (h.down d hold).imp_right fun ⟨e, he⟩ => ⟨e, ?_⟩
    by_cases hec : e = c
    · subst hec
      simpa [Sys.goto] using hwaking he
    · simpa [Sys.goto, update_of_ne hec] using he

theorem Inv.quiet (h : Inv s) (hq : Stays none (s.pc c) q) : Inv (s.goto c q) :=
  h.goto hq (fun _ _ => rfl) (by simp)

theorem Inv.spinlock (h : Inv s) {l : Lock} {owner : Option Pid} (hq : Stays (some l) (s.pc c) q)
    (hl : Owned (Pc.hasLock l) (update s.pc c q) owner) :
    Inv { s.goto c q with lock := update s.lock l owner } := by
  refine h.goto hq (fun m hm => update_of_ne (by simpa using hm) _ _) ?_
  rintro m ⟨⟩
  simpa only [update_self] using hl

/-- Behind the loop the lock is taken, and otherwise the process goes to sleep. -/
theorem Inv.test (h : Inv s) (hpc : s.pc c = .test) (ht : s.exec c .test .leave = some t) :
    Inv t := by
  simp only [Sys.exec] at ht
  split at ht
  · next hlocked =>
    cases ht
    refine ⟨fun l => (h.lock l).keep ?_, h.owner.keep (by rw [hpc]; rfl), fun _ _ => .inl hlocked⟩
    rw [hpc]
    cases l <;> rfl
  · next hlocked =>
    cases ht
    have howner := h.owner
    rw [if_neg hlocked] at howner
    refine ⟨fun l => (h.lock l).keep ?_, howner.take rfl, fun _ _ => .inl rfl⟩
    rw [hpc]
    cases l <;> rfl

theorem Inv.clear (h : Inv s) (hpc : s.pc c = .clear) :
    Inv { s.goto c .wakeup with locked := false, pid := 0 } := by
  refine ⟨fun l => (h.lock l).keep ?_, h.owner.drop (by rw [hpc]; rfl) rfl,
    fun _ _ => .inr ⟨c, by simp [Sys.goto, Pc.waking]⟩⟩
  rw [hpc]
  cases l <;> rfl

theorem hasLock_of_down {p : Pc} (h : p.wake.down = true) :
    p.hasLock .lk = true ∨ p.hasLock .ptable = true := by
  revert h
  cases p <;> decide

/-- Both spinlocks are held when the sleepers are woken, so that nobody stands between
the test and the sleep. -/
theorem Inv.wakeup1 (h : Inv s) (hpc : s.pc c = .wakeup1) :
    Inv ({ s with pc := fun d => (s.pc d).wake }.goto c .wakeupDone) := by
  have hattr : ∀ {attr : Pc → Bool} {owner : Option Pid}, (∀ p : Pc, attr p.wake = attr p) →
      attr .wakeupDone = attr .wakeup1 → Owned attr s.pc owner →
      Owned attr (update (fun d => (s.pc d).wake) c .wakeupDone) owner := by
    intro attr owner hwake hc howned
    exact Owned.keep (fun d => by rw [hwake]; exact howned d) (by rw [hpc, hc]; rfl)
  refine ⟨fun l => hattr (fun p => (stays_wake p).1 l (by simp)) (by cases l <;> rfl) (h.lock l),
    hattr (fun p => (stays_wake p).2.1) rfl h.owner, fun d hd => ?_⟩
  by_cases hdc : d = c
  · simp [hdc, Sys.goto, Pc.down] at hd
  · have hdown : (s.pc d).wake.down = true := by
      simpa [Sys.goto, update_of_ne hdc] using hd
    rcases hasLock_of_down hdown with hlk | hptable
    · exact absurd ((h.lock .lk).unique hlk (by rw [hpc]; rfl)) hdc
    · exact absurd ((h.lock .ptable).unique hptable (by rw [hpc]; rfl)) hdc

theorem Inv.run (h : Inv s) {i : Instr} (hcode : (s.pc c).code = some (i, q))
    (ht : s.exec c i q = some t) : Inv t := by
  have hends := code_ends hcode
  cases i with
  | acquire l =>
    simp only [Sys.exec] at ht
    split at ht
    · next hfree =>
      cases ht
      exact h.spinlock hends.1 ((hfree ▸ h.lock l).take hends.2)
    · cases ht
  | release l =>
    cases ht
    exact h.spinlock hends.1 ((h.lock l).drop hends.2.1 hends.2.2)
  | test =>
    obtain ⟨hpc, rfl⟩ := hends
    exact h.test hpc ht
  | clear =>
    obtain ⟨hpc, rfl⟩ := hends
    cases ht
    exact h.clear hpc
  | wakeup1 =>
    obtain ⟨hpc, rfl⟩ := hends
    cases ht
    exact h.wakeup1 hpc

theorem Inv.step (h : Inv s) {a : Act} (ht : s.step a = some t) : Inv t := by
  cases a with
  | run c =>
    obtain ⟨⟨i, q⟩, hcode, ht⟩ := bind_eq_some_iff.mp ht
    exact h.run hcode ht
  | acquiresleep c =>
    obtain ⟨hpc, ⟨⟩⟩ := ite_none_right_eq_some.mp ht
    exact h.quiet (by rw [hpc]; decide)
  | releasesleep c =>
    obtain ⟨hpc, ⟨⟩⟩ := ite_none_right_eq_some.mp ht
    exact h.quiet (by rw [hpc]; decide)
  | kill c =>
    obtain ⟨-, ⟨⟩⟩ := ite_none_right_eq_some.mp ht
    exact h.quiet (stays_wake _)

end Steps

/-- In every interleaving of any number of processes: holdingsleep tells exactly who has
the lock, and nobody else has it at the same time; and while a process sleeps the lock is
taken, or the process that has freed it is still in wakeup. -/
theorem sleeplock_of_run {log : List Unit} {s : Sys}
    (hrun : machine.Run Machine.Free start log s) :
    (∀ c, s.holdingsleep c = true ↔ (s.pc c).owns = true) ∧
      (∀ c d, (s.pc c).owns = true → (s.pc d).owns = true → c = d) ∧
      ∀ c, s.pc c = .asleep → s.locked = true ∨
        ∃ d, (s.pc d = .wakeup ∨ s.pc d = .wakeup1) ∧ s.lock .lk = some d := by
  have h : Inv s := by
    refine Machine.Run.invariant (P := fun _ s => Inv s) ?_ (fun _ _ _ _ h _ hs => h.step hs) hrun
    refine ⟨fun l c => ?_, fun c => ?_, fun c hc => ?_⟩
    · cases l <;> simp [start, Pc.hasLock]
    · simp [start, Pc.owns]
    · simp [start, Pc.down] at hc
  refine ⟨fun c => ?_, fun c d => h.owner.unique, fun c hc => ?_⟩
  · rw [h.owner c]
    cases hlocked : s.locked <;> simp [Sys.holdingsleep, hlocked]
  · refine (h.down c (by rw [hc]; rfl)).imp_right fun ⟨d, hd⟩ => ?_
    have hwaking : s.pc d = .wakeup ∨ s.pc d = .wakeup1 := by simpa [Pc.waking] using hd
    refine ⟨d, hwaking, (h.lock .lk d).mp ?_⟩
    rcases hwaking with hpc | hpc <;> rw [hpc] <;> rfl

/-- Process 2 sleeps while process 1 has the lock; process 1 frees it and has not yet
called wakeup1. -/
theorem sleeplock_of_run_freed :
    ∃ log s, machine.Run Machine.Free start log s ∧ s.pc 2 = .asleep ∧ s.locked = false ∧
      ∃ d, (s.pc d = .wakeup ∨ s.pc d = .wakeup1) ∧ s.lock .lk = some d := by
  obtain ⟨log, s, hrun, hasleep, hfree⟩ := Machine.exists_run_of_exec machine Machine.Free start
    [.acquiresleep 1, .run 1, .run 1, .run 1, .acquiresleep 2, .run 2, .run 2, .run 2, .run 2,
      .run 2, .releasesleep 1, .run 1, .run 1]
    (fun _ s => s.pc 2 = .asleep ∧ s.locked = false) (by decide +kernel)
  exact ⟨log, s, hrun, hasleep, hfree,
    ((sleeplock_of_run hrun).2.2 2 hasleep).resolve_left (by simp [hfree])⟩

end KernelLabs.SleepLocks

import KernelLabs.Mlfq
import KernelLabs.ProcMoves
import Mathlib.Algebra.Order.BigOperators.Group.List

/-!
Time slices as both schedulers of proc.c hand them out. A CPU is outside ptable.lock,
scans the table under the lock, has switched to a process, or has got the CPU back
and is about to add the ticks of the slice to the process. What a scheduler does
besides is not seen here: the steps below say only what becomes of the states and of
the tick counts of the slots, and each scheduler is shown elsewhere to take no others.

The log keeps the ticks of the clock, the creation of a process in a slot, and the
starts and ends of slices. From it the slices of the present occupant of a slot are
read off, in true time: the clock of the kernel and the counts of the slots are
32-bit words. The count of a slot is the sum of its slices, reduced to an int, as long
as processes are only put into slots whose count is zero.
-/
namespace KernelLabs.SliceTimes

open MachineWords ProcTable ProcLife ProcMoves Function List Option
open Mlfq (NeedsLock)

/-- A CPU as far as its slices go; a slice has the value of ticks at its start. -/
inductive Cpu
  | free
  | busy
  | slice (p : Slot) (began : ℤ)
  | charge (p : Slot) (began : ℤ)
  deriving DecidableEq, Repr

def Cpu.HoldsLock : Cpu → Prop
  | .busy => True
  | .charge _ _ => True
  | _ => False

def endSlice (k : Kernel) : Cpu → Cpu
  | .slice p began => if (k.proc p).state = .running then .slice p began else .charge p began
  | cpu => cpu

structure SliceSys (ncpu : ℕ) where
  sys : Sys
  cpu : Fin ncpu → Cpu

inductive Entry
  | ticked
  | created (p : Slot)
  | started (p : Slot)
  | ended (p : Slot)
  deriving DecidableEq, Repr

def time : List Entry → ℕ
  | [] => 0
  | .ticked :: log => time log + 1
  | _ :: log => time log

/-- The start of the slice in progress and the slices that have ended, of the process
that was last created in the slot. -/
def history (p : Slot) : List Entry → Option ℕ × List (ℕ × ℕ)
  | [] => (none, [])
  | .ticked :: log => history p log
  | .created q :: log => if q = p then (none, []) else history p log
  | .started q :: log => if q = p then (some (time log), (history p log).2) else history p log
  | .ended q :: log =>
    if q = p then
      (none, ((history p log).1.map fun began => (began, time log)).toList ++ (history p log).2)
    else history p log

def sliceSum (log : List Entry) (p : Slot) : ℤ :=
  ((history p log).2.map fun slice => (slice.2 - slice.1 : ℤ)).sum

section History

variable {p q : Slot} (log : List Entry)

theorem history_created_self : history p (.created p :: log) = (none, []) := if_pos rfl

theorem history_created_ne (h : q ≠ p) : history p (.created q :: log) = history p log := if_neg h

theorem history_started_self :
    history p (.started p :: log) = (some (time log), (history p log).2) := if_pos rfl

theorem history_started_ne (h : q ≠ p) : history p (.started q :: log) = history p log := if_neg h

theorem history_ended_self {began : ℕ} (h : (history p log).1 = some began) :
    history p (.ended p :: log) = (none, (began, time log) :: (history p log).2) := by
  simp [history, h]

theorem history_ended_ne (h : q ≠ p) : history p (.ended q :: log) = history p log := if_neg h

theorem sliceSum_congr {log' : List Entry} (h : (history p log').2 = (history p log).2) :
    sliceSum log' p = sliceSum log p := by
  rw [sliceSum, sliceSum, h]

/-- Slices start and end in the past, in this order. -/
theorem history_past : (∀ began, (history p log).1 = some began → began ≤ time log) ∧
    ∀ slice ∈ (history p log).2, slice.1 ≤ slice.2 := by
  induction log with
  | nil => simp [history]
  | cons e log ih =>
    obtain ⟨hopen, hended⟩ := ih
    cases e with
    | ticked => exact ⟨fun began h => Nat.le_succ_of_le (hopen began h), hended⟩
    | created q =>
      by_cases hq : q = p
      · subst hq
        simp [history_created_self]
      · rw [history_created_ne log hq]
        exact ⟨hopen, hended⟩
    | started q =>
      by_cases hq : q = p
      · subst hq
        rw [history_started_self]
        exact ⟨fun began h => (some.inj h).ge, hended⟩
      · rw [history_started_ne log hq]
        exact ⟨hopen, hended⟩
    | ended q =>
      by_cases hq : q = p
      · subst hq
        refine ⟨by simp [history], fun slice hslice => ?_⟩
        simp only [history, if_pos, mem_append, mem_toList, map_eq_some_iff] at hslice
        rcases hslice with ⟨began, hbegan, rfl⟩ | hslice
        · exact hopen began hbegan
        · exact hended slice hslice
      · rw [history_ended_ne log hq]
        exact ⟨hopen, hended⟩

theorem sliceSum_nonneg : 0 ≤ sliceSum log p := by
  refine sum_nonneg fun x hx => ?_
  obtain ⟨slice, hslice, rfl⟩ := List.mem_map.mp hx
  have := (history_past log).2 slice hslice
  omega

end History

variable {ncpu : ℕ}

def SliceSys.LockFree (s : SliceSys ncpu) : Prop := ∀ c, ¬ (s.cpu c).HoldsLock

def createdBy (k : Kernel) : Act → List Entry
  | .forkAlloc _ => (k.freeSlot.map Entry.created).toList
  | _ => []

/-- The steps that a scheduler system may take, with what they log. -/
inductive SliceStep (s : SliceSys ncpu) : List Entry → SliceSys ncpu → Prop
  /-- a process acts, under the lock if it needs it -/
  | life (a : Act) (hen : s.sys.Enabled a) (hsched : ∀ p, a ≠ .dispatch p)
      (hlock : NeedsLock a → s.LockFree) :
      SliceStep s (createdBy s.sys.kern a)
        { sys := s.sys.next a, cpu := fun c => endSlice (s.sys.next a).kern (s.cpu c) }
  | tick : SliceStep s [.ticked] { s with sys := { s.sys with kern := Mlfq.advance s.sys.kern } }
  /-- a CPU goes on without the lock -/
  | idle : SliceStep s [] s
  /-- a CPU without a slice takes or drops the lock, or works on other fields of the table -/
  | quiet (c : Fin ncpu) (cpu : Cpu) (k : Kernel) (hold : s.cpu c = .free ∨ s.cpu c = .busy)
      (hnew : cpu = .free ∨ cpu = .busy) (hlock : s.cpu c = .free → s.LockFree)
      (hstate : ∀ p, (k.proc p).state = (s.sys.kern.proc p).state)
      (hticks : ∀ p, (k.proc p).ticks = (s.sys.kern.proc p).ticks)
      (hclock : k.ticks = s.sys.kern.ticks) :
      SliceStep s [] { sys := { s.sys with kern := k }, cpu := update s.cpu c cpu }
  | dispatch (c : Fin ncpu) (p : Slot) (k : Kernel) (hold : s.cpu c = .busy)
      (hrunnable : (s.sys.kern.proc p).state = .runnable) (hrunning : (k.proc p).state = .running)
      (hstate : ∀ q, q ≠ p → (k.proc q).state = (s.sys.kern.proc q).state)
      (hticks : ∀ q, (k.proc q).ticks = (s.sys.kern.proc q).ticks)
      (hclock : k.ticks = s.sys.kern.ticks) :
      SliceStep s [.started p]
        { sys := { s.sys with kern := k }
          cpu := update s.cpu c (.slice p (int32 s.sys.kern.ticks)) }
  | charge (c : Fin ncpu) (p : Slot) (began : ℤ) (k : Kernel) (hold : s.cpu c = .charge p began)
      (hstate : ∀ q, (k.proc q).state = (s.sys.kern.proc q).state)
      (hself : (k.proc p).ticks =
        int32 ((s.sys.kern.proc p).ticks + int32 (int32 s.sys.kern.ticks - began)))
      (hticks : ∀ q, q ≠ p → (k.proc q).ticks = (s.sys.kern.proc q).ticks)
      (hclock : k.ticks = s.sys.kern.ticks) :
      SliceStep s [.ended p]
        { sys := { s.sys with kern := k }, cpu := update s.cpu c .busy }

/-- The lock has one holder, a slice belongs to a RUNNING process and to one CPU, and a
slice that is to be charged has ended. -/
structure CpuOk (s : SliceSys ncpu) : Prop where
  lock : ∀ c d, (s.cpu c).HoldsLock → (s.cpu d).HoldsLock → c = d
  running : ∀ c p began, s.cpu c = .slice p began → (s.sys.kern.proc p).state = .running
  alone : ∀ c d p began began', s.cpu c = .slice p began → s.cpu d = .slice p began' → c = d
  left : ∀ c p began, s.cpu c = .charge p began → (s.sys.kern.proc p).state ≠ .running

/-- The clock shows the time, the slices in progress are those of the log, and the tick
counts are the sums of the slices. -/
structure Accounts (log : List Entry) (s : SliceSys ncpu) : Prop where
  clock : s.sys.kern.ticks = uint32 (time log)
  pending : ∀ c p began, s.cpu c = .slice p began ∨ s.cpu c = .charge p began →
    ∃ t : ℕ, (history p log).1 = some t ∧ began = int32 t
  exact : ∀ p, (s.sys.kern.proc p).ticks = int32 (sliceSum log p)

structure Inv (log : List Entry) (s : SliceSys ncpu) : Prop where
  forks : ForkOk s.sys
  cpus : CpuOk s
  accounts : Accounts log s

variable {p : Slot}

theorem needsLock_of_leaver {a : Act} (h : leaver a = some p) : NeedsLock a := by
  cases a <;> simp_all [leaver, NeedsLock]

variable {k : Kernel} {cpu : Cpu} {began : ℤ}

theorem endSlice_eq_slice (h : endSlice k cpu = .slice p began) :
    cpu = .slice p began ∧ (k.proc p).state = .running := by
  cases cpu with
  | slice q b =>
    simp only [endSlice] at h
    split at h
    · rename_i hrunning
      obtain ⟨rfl, rfl⟩ := Cpu.slice.inj h
      exact ⟨rfl, hrunning⟩
    · cases h
  | _ => cases h

theorem endSlice_eq_charge (h : endSlice k cpu = .charge p began) :
    cpu = .charge p began ∨ cpu = .slice p began ∧ (k.proc p).state ≠ .running := by
  cases cpu with
  | slice q b =>
    simp only [endSlice] at h
    split at h
    · cases h
    · rename_i hleft
      obtain ⟨rfl, rfl⟩ := Cpu.charge.inj h
      exact .inr ⟨rfl, hleft⟩
  | charge q b => exact .inl h
  | _ => cases h

/-- A CPU gets the lock from the process that gives the CPU back. -/
theorem holdsLock_endSlice (h : (endSlice k cpu).HoldsLock) :
    cpu.HoldsLock ∨ ∃ p began, cpu = .slice p began ∧ (k.proc p).state ≠ .running := by
  cases cpu with
  | slice p began =>
    simp only [endSlice] at h
    split at h
    · exact h.elim
    · rename_i hleft
      exact .inr ⟨p, began, rfl, hleft⟩
  | _ => exact .inl h

variable {s : SliceSys ncpu}

theorem CpuOk.life (h : CpuOk s) (hforks : ForkOk s.sys) {a : Act}
    (hen : s.sys.Enabled a) (hsched : ∀ p, a ≠ .dispatch p) (hlock : NeedsLock a → s.LockFree) :
    CpuOk ({ sys := s.sys.next a, cpu := fun c => endSlice (s.sys.next a).kern (s.cpu c) } :
      SliceSys ncpu) := by
  have hleaver : ∀ c p began, s.cpu c = .slice p began →
      ((s.sys.next a).kern.proc p).state ≠ .running → leaver a = some p :=
    fun c p began hc hleft => leaver_of_left hforks hen (h.running c p began hc) hleft
  constructor
  case lock =>
    intro c d hc hd
    rcases holdsLock_endSlice hc with hc | ⟨p, b, hc, hp⟩
    · rcases holdsLock_endSlice hd with hd | ⟨q, b', hd, hq⟩
      · exact h.lock c d hc hd
      · exact absurd hc (hlock (needsLock_of_leaver (hleaver d q b' hd hq)) c)
    · have hleave := hleaver c p b hc hp
      rcases holdsLock_endSlice hd with hd | ⟨q, b', hd, hq⟩
      · exact absurd hd (hlock (needsLock_of_leaver hleave) d)
      · have hpq : q = p := some.inj ((hleaver d q b' hd hq).symm.trans hleave)
        subst hpq
        exact h.alone c d q b b' hc hd
  case running => exact fun c p began hc => (endSlice_eq_slice hc).2
  case alone =>
    exact fun c d p began began' hc hd =>
      h.alone c d p began began' (endSlice_eq_slice hc).1 (endSlice_eq_slice hd).1
  case left =>
    intro c p began hc hp
    rcases endSlice_eq_charge hc with hold | ⟨-, hleft⟩
    · exact h.left c p began hold (running_of_next hen hsched hp)
    · exact hleft hp

variable {c : Fin ncpu}

/-- CPU `c` goes on to `cpu` with the table `k`: it may hold the lock only if no other
does, and the slices of the others are not disturbed. -/
theorem CpuOk.update (h : CpuOk s)
    (hlock : ∀ d, d ≠ c → ¬ (s.cpu d).HoldsLock)
    (hstate : ∀ d p began, d ≠ c → s.cpu d = .slice p began → (k.proc p).state = .running)
    (hslice : ∀ p began, cpu = .slice p began → (k.proc p).state = .running ∧
      ∀ d began', d ≠ c → s.cpu d ≠ .slice p began')
    (hcharge : ∀ p began, cpu ≠ .charge p began) :
    CpuOk ({ sys := { s.sys with kern := k }, cpu := update s.cpu c cpu } : SliceSys ncpu) := by
  have hother : ∀ d, d ≠ c → Function.update s.cpu c cpu d = s.cpu d :=
    fun d hd => update_of_ne hd _ _
  have hself : Function.update s.cpu c cpu c = cpu := Function.update_self _ _ _
  constructor
  case lock =>
    have honly : ∀ d, (Function.update s.cpu c cpu d).HoldsLock → d = c := by
      intro d hd
      by_contra hne
      rw [hother d hne] at hd
      exact hlock d hne hd
    intro d e hd he
    rw [honly d hd, honly e he]
  case running =>
    intro d p began hd
    by_cases hdc : d = c
    · subst hdc
      exact (hslice p began (hself.symm.trans hd)).1
    · exact hstate d p began hdc ((hother d hdc).symm.trans hd)
  case alone =>
    intro d e p began began' hd he
    by_contra hne
    by_cases hdc : d = c
    · subst hdc
      have hed : e ≠ d := Ne.symm hne
      exact (hslice p began (hself.symm.trans hd)).2 e began' hed ((hother e hed).symm.trans he)
    · have hd' := (hother d hdc).symm.trans hd
      by_cases hec : e = c
      · subst hec
        exact (hslice p began' (hself.symm.trans he)).2 d began hdc hd'
      · exact hne (h.alone d e p began began' hd' ((hother e hec).symm.trans he))
  case left =>
    intro d p began hd
    by_cases hdc : d = c
    · subst hdc
      exact absurd (hself.symm.trans hd) (hcharge p began)
    · have hd' := (hother d hdc).symm.trans hd
      exact absurd (show (s.cpu d).HoldsLock by rw [hd']; trivial) (hlock d hdc)

theorem CpuOk.others_free (h : CpuOk s)
    (hc : (s.cpu c).HoldsLock ∨ s.LockFree) : ∀ d, d ≠ c → ¬ (s.cpu d).HoldsLock := by
  intro d hdc hd
  rcases hc with hc | hfree
  · exact hdc (h.lock d c hd hc)
  · exact hfree d hd

theorem CpuOk.step {s t : SliceSys ncpu} {new : List Entry} (h : CpuOk s) (hforks : ForkOk s.sys)
    (hstep : SliceStep s new t) : CpuOk t := by
  cases hstep with
  | life a hen hsched hlock => exact h.life hforks hen hsched hlock
  | tick => exact ⟨h.lock, h.running, h.alone, h.left⟩
  | idle => exact h
  | quiet c cpu k hold hnew hlock hstate hticks hclock =>
    refine h.update (h.others_free ?_) (fun d p began _ hd => ?_) ?_ ?_
    · rcases hold with hold | hold
      · exact .inr (hlock hold)
      · exact .inl (by rw [hold]; trivial)
    · rw [hstate]
      exact h.running d p began hd
    · rintro p began rfl
      simp at hnew
    · rintro p began rfl
      simp at hnew
  | dispatch c p k hold hrunnable hrunning hstate hticks hclock =>
    have hne : ∀ d q began, s.cpu d = .slice q began → q ≠ p := by
      rintro d q began hd rfl
      exact absurd (hrunnable.symm.trans (h.running d q began hd)) (by decide)
    refine h.update (h.others_free (.inl (by rw [hold]; trivial))) (fun d q began _ hd => ?_) ?_ ?_
    · rw [hstate q (hne d q began hd)]
      exact h.running d q began hd
    · intro q began hcpu
      obtain ⟨rfl, -⟩ := Cpu.slice.inj hcpu
      exact ⟨hrunning, fun d began' _ hd => hne d p began' hd rfl⟩
    · simp
  | charge c p began k hold hstate hself hticks hclock =>
    refine h.update (h.others_free (.inl (by rw [hold]; trivial))) (fun d q b _ hd => ?_) ?_ ?_
    · rw [hstate]
      exact h.running d q b hd
    · simp
    · simp

theorem ForkOk.step {s t : SliceSys ncpu} {new : List Entry} (h : ForkOk s.sys)
    (hstep : SliceStep s new t) : ForkOk t.sys := by
  cases hstep with
  | life a hen _ _ => exact h.next hen
  | tick => exact h.of_kern fun p hp => hp
  | idle => exact h
  | quiet c cpu k _ _ _ hstate _ _ => exact h.of_kern fun p hp => (hstate p).trans hp
  | dispatch c p k _ hrunnable _ hstate _ _ =>
    refine h.of_kern fun q hq => (hstate q ?_).trans hq
    rintro rfl
    exact absurd (hrunnable.symm.trans hq) (by decide)
  | charge c p began k _ hstate _ _ _ => exact h.of_kern fun q hq => (hstate q).trans hq

/-- The process of a slice in progress, or of one to be charged, is not in a free slot
that is about to be taken under the lock. -/
theorem CpuOk.ne_freeSlot (h : CpuOk s) (hfree : s.LockFree)
    {p np : Slot} (hc : s.cpu c = .slice p began ∨ s.cpu c = .charge p began)
    (hnp : s.sys.kern.freeSlot = some np) : np ≠ p := by
  rintro rfl
  rcases hc with hc | hc
  · exact absurd ((h.running c np began hc).symm.trans (Kernel.freeSlot_unused hnp)) (by decide)
  · exact hfree c (by rw [hc]; trivial)

theorem pending_of_endSlice
    (h : endSlice k cpu = .slice p began ∨ endSlice k cpu = .charge p began) :
    cpu = .slice p began ∨ cpu = .charge p began := by
  rcases h with h | h
  · exact .inl (endSlice_eq_slice h).1
  · rcases endSlice_eq_charge h with h | ⟨h, -⟩
    · exact .inr h
    · exact .inl h

theorem time_createdBy (k : Kernel) (a : Act) (log : List Entry) :
    time (createdBy k a ++ log) = time log := by
  cases a with
  | forkAlloc c => cases h : k.freeSlot <;> simp [createdBy, h, time]
  | _ => rfl

variable {log : List Entry}

theorem Accounts.life (h : Accounts log s) (hcpus : CpuOk s)
    {a : Act} (hen : s.sys.Enabled a) (hlock : NeedsLock a → s.LockFree)
    (hfresh : ∀ p, .created p ∈ createdBy s.sys.kern a → (s.sys.kern.proc p).ticks = 0) :
    Accounts (createdBy s.sys.kern a ++ log)
      ({ sys := s.sys.next a, cpu := fun c => endSlice (s.sys.next a).kern (s.cpu c) } :
        SliceSys ncpu) := by
  -- only an allocation changes a history: that of the slot it takes
  have hkeep : ∀ p, (∀ c, a = .forkAlloc c → s.sys.kern.freeSlot ≠ some p) →
      history p (createdBy s.sys.kern a ++ log) = history p log := by
    intro p hp
    cases a with
    | forkAlloc c =>
      cases hfree : s.sys.kern.freeSlot with
      | none => simp [createdBy, hfree]
      | some np =>
        have hne : np ≠ p := by
          rintro rfl
          exact hp c rfl hfree
        simp only [createdBy, hfree, map_some, toList_some, singleton_append]
        exact history_created_ne log hne
    | _ => rfl
  refine ⟨?_, fun c p began hc => ?_, fun p => ?_⟩
  · rw [time_createdBy, ← h.clock]
    exact (s.sys.effect a).clock.1
  · have hold := pending_of_endSlice hc
    rw [hkeep p]
    · exact h.pending c p began hold
    · rintro d rfl hfree
      exact hcpus.ne_freeSlot (hlock trivial) hold hfree rfl
  · have hticks : ((s.sys.next a).kern.proc p).ticks = (s.sys.kern.proc p).ticks :=
      (s.sys.effect a).ticks p
    by_cases hp : ∃ c, a = .forkAlloc c ∧ s.sys.kern.freeSlot = some p
    · obtain ⟨c, rfl, hfree⟩ := hp
      have hnew : createdBy s.sys.kern (.forkAlloc c) = [.created p] := by simp [createdBy, hfree]
      rw [hnew] at hfresh ⊢
      simp only [hticks, hfresh p (by simp), sliceSum, singleton_append, history_created_self]
      rfl
    · have hsame : sliceSum (createdBy s.sys.kern a ++ log) p = sliceSum log p :=
        sliceSum_congr log (by rw [hkeep p fun c ha hfree => hp ⟨c, ha, hfree⟩])
      rw [hsame, ← h.exact p]
      exact hticks

theorem int32_uint32 (n : ℕ) : int32 (uint32 n) = int32 n := by
  rw [int32_eq_emod, int32_eq_emod, uint32]
  omega

/-- The ticks of a slice, as the scheduler computes them from ints. -/
theorem int32_charge (sum : ℤ) (now began : ℕ) :
    int32 (int32 sum + int32 (int32 (uint32 now) - int32 began)) = int32 (sum + (now - began)) := by
  rw [int32_uint32, int32_add_left]
  simp only [int32, Int.add_bmod_bmod, Int.bmod_sub_bmod, Int.sub_bmod_bmod]

/-- Accounts after a step of CPU `c` that changes neither the clock nor, for the slices
of the other CPUs, the history. -/
theorem Accounts.update {log log' : List Entry} (h : Accounts log s)
    (htime : time log' = time log)
    (hclock : k.ticks = s.sys.kern.ticks)
    (hothers : ∀ d p began, d ≠ c → s.cpu d = .slice p began ∨ s.cpu d = .charge p began →
      history p log' = history p log)
    (hself : ∀ p began, cpu = .slice p began ∨ cpu = .charge p began →
      ∃ t : ℕ, (history p log').1 = some t ∧ began = int32 t)
    (hexact : ∀ p, (k.proc p).ticks = int32 (sliceSum log' p)) :
    Accounts log' ({ sys := { s.sys with kern := k }, cpu := update s.cpu c cpu } :
      SliceSys ncpu) := by
  refine ⟨?_, fun d p began hd => ?_, hexact⟩
  · rw [htime, ← h.clock]
    exact hclock
  · by_cases hdc : d = c
    · subst hdc
      simp only [update_self] at hd
      exact hself p began hd
    · simp only [update_of_ne hdc] at hd
      rw [hothers d p began hdc hd]
      exact h.pending d p began hd

theorem Accounts.dispatch (h : Accounts log s) (hcpus : CpuOk s) (hold : s.cpu c = .busy)
    (hrunnable : (s.sys.kern.proc p).state = .runnable)
    (hticks : ∀ q, (k.proc q).ticks = (s.sys.kern.proc q).ticks)
    (hclock : k.ticks = s.sys.kern.ticks) :
    Accounts (.started p :: log)
      ({ sys := { s.sys with kern := k }
         cpu := Function.update s.cpu c (.slice p (int32 s.sys.kern.ticks)) } :
        SliceSys ncpu) := by
  refine h.update rfl hclock (fun d q began hdc hd => history_started_ne log ?_)
    (fun q began hcpu => ?_) fun q => ?_
  · rintro rfl
    rcases hd with hd | hd
    · exact absurd (hrunnable.symm.trans (hcpus.running d p began hd)) (by decide)
    · exact hcpus.others_free (.inl (by rw [hold]; trivial)) d hdc (by rw [hd]; trivial)
  · obtain ⟨rfl, rfl⟩ := Cpu.slice.inj (hcpu.resolve_right (by simp))
    exact ⟨time log, by rw [history_started_self], by rw [h.clock, int32_uint32]⟩
  · rw [hticks, h.exact]
    congr 1
    by_cases hqp : p = q
    · subst hqp
      exact (sliceSum_congr log (by rw [history_started_self])).symm
    · exact (sliceSum_congr log (by rw [history_started_ne log hqp])).symm

theorem Accounts.charge (h : Accounts log s)
    (hcpus : CpuOk s)
    (hold : s.cpu c = .charge p began)
    (hself : (k.proc p).ticks =
      int32 ((s.sys.kern.proc p).ticks + int32 (int32 s.sys.kern.ticks - began)))
    (hticks : ∀ q, q ≠ p → (k.proc q).ticks = (s.sys.kern.proc q).ticks)
    (hclock : k.ticks = s.sys.kern.ticks) :
    Accounts (.ended p :: log)
      ({ sys := { s.sys with kern := k }, cpu := Function.update s.cpu c .busy } :
        SliceSys ncpu) := by
  refine h.update rfl hclock (fun d q b hdc hd => history_ended_ne log ?_) (by simp) fun q => ?_
  · rintro rfl
    rcases hd with hd | hd
    · exact hcpus.left c p began hold (hcpus.running d p b hd)
    · exact hdc (hcpus.lock d c (by rw [hd]; trivial) (by rw [hold]; trivial))
  · by_cases hqp : q = p
    · subst hqp
      obtain ⟨t, ht, hbegan⟩ := h.pending c q began (.inr hold)
      have hsum : sliceSum (.ended q :: log) q = sliceSum log q + (time log - t) := by
        simp only [sliceSum, history_ended_self log ht, map_cons, sum_cons]
        exact add_comm _ _
      rw [hself, h.exact, h.clock, hbegan, int32_charge, hsum]
    · rw [hticks q hqp, h.exact]
      exact congrArg int32 (sliceSum_congr log (by rw [history_ended_ne log (Ne.symm hqp)])).symm

theorem Accounts.step {s t : SliceSys ncpu} {log new : List Entry} (h : Accounts log s)
    (hcpus : CpuOk s) (hstep : SliceStep s new t)
    (hfresh : ∀ p, .created p ∈ new → (s.sys.kern.proc p).ticks = 0) : Accounts (new ++ log) t := by
  cases hstep with
  | life a hen _ hlock => exact h.life hcpus hen hlock hfresh
  | tick =>
    refine ⟨?_, h.pending, h.exact⟩
    show uint32 (s.sys.kern.ticks + 1) = uint32 (time log + 1)
    rw [h.clock, uint32, uint32, uint32, Nat.mod_add_mod]
  | idle => exact h
  | quiet c cpu k hold hnew _ _ hticks hclock =>
    refine h.update rfl hclock (fun _ _ _ _ _ => rfl) ?_ fun p => (hticks p).trans (h.exact p)
    rintro p began (rfl | rfl) <;> simp at hnew
  | dispatch c p k hold hrunnable _ _ hticks hclock =>
    exact h.dispatch hcpus hold hrunnable hticks hclock
  | charge c p began k hold _ hself hticks hclock =>
    exact h.charge hcpus hold hself hticks hclock

theorem Inv.step {s t : SliceSys ncpu} {log new : List Entry} (h : Inv log s)
    (hstep : SliceStep s new t)
    (hfresh : ∀ p, .created p ∈ new → (s.sys.kern.proc p).ticks = 0) : Inv (new ++ log) t where
  forks := ForkOk.step h.forks hstep
  cpus := h.cpus.step h.forks hstep
  accounts := h.accounts.step h.cpus hstep hfresh

theorem inv_start : Inv [] ({ sys := ProcLife.start, cpu := fun _ => .free } : SliceSys ncpu) where
  forks := forkOk_start
  cpus :=
    { lock := fun _ _ h => h.elim
      running := by simp
      alone := by simp
      left := by simp }
  accounts :=
    { clock := rfl
      pending := by simp
      exact := fun p => by
        simp only [ProcLife.start, boot_proc]
        split <;> rfl }

/-- The report of a slot is exact as long as the ticks of its process fit an int. -/
theorem Inv.report_iff (h : Inv log s) (p : Slot) :
    (s.sys.kern.proc p).ticks = sliceSum log p ↔ sliceSum log p ≤ INT_MAX := by
  rw [h.accounts.exact, INT_MAX]
  constructor
  · intro hsum
    have := (int32_bounds (sliceSum log p)).2
    omega
  · intro hsum
    have := sliceSum_nonneg (p := p) log
    exact int32_eq_self (by omega) (by omega)

end KernelLabs.SliceTimes

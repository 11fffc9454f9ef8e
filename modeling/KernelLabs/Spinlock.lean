import KernelLabs.ProcTable

/-!
The spin locks of spinlock.c as one CPU sees them. A function runs in a state
monad whose errors are the kernel's panics. Interrupts are switched off by
pushcli and come back on when the nesting depth returns to zero; the depth counts
the pushcli calls that are open, so it is kept as an unbounded integer. A CPU that
spins in acquire goes on once the other CPU has let the lock go, so the loop
always ends with the lock taken; a lock that the CPU holds itself is a panic. The
name of a lock and the caller's program counters are debugging output only.
-/
namespace KernelLabs.Spinlock

open ProcTable EStateM

abbrev NCPU : ℕ := 8

abbrev CpuId := Fin NCPU

inductive LockName
  | ptable | cons
  deriving DecidableEq, Repr

structure Lock where
  locked : Bool
  cpu : Option CpuId
  deriving DecidableEq, Repr

/-- The state seen by a CPU: its struct cpu (ncli, intena, proc), its interrupt flag,
the locks, cons.locking, what has been printed, and the process table. -/
structure CpuState where
  me : CpuId
  interrupts : Bool
  ncli : ℤ
  intena : Bool
  proc : Option Slot
  locks : LockName → Lock
  locking : Bool
  output : List String
  kern : Kernel

abbrev KernelM := EStateM String CpuState

def mycpu : KernelM Unit := do
  if (← get).interrupts then
    throw "mycpu called with interrupts enabled\n"

def pushcli : KernelM Unit := do
  let eflags := (← get).interrupts
  modify fun s => { s with interrupts := false }
  mycpu
  if (← get).ncli = 0 then
    modify fun s => { s with intena := eflags }
  modify fun s => { s with ncli := s.ncli + 1 }

def popcli : KernelM Unit := do
  if (← get).interrupts then
    throw "popcli - interruptible"
  modify fun s => { s with ncli := s.ncli - 1 }
  if (← get).ncli < 0 then
    throw "popcli"
  if (← get).ncli = 0 ∧ (← get).intena = true then
    modify fun s => { s with interrupts := true }

def CpuState.Holds (s : CpuState) (lk : LockName) : Prop :=
  (s.locks lk).locked = true ∧ (s.locks lk).cpu = some s.me

instance (s : CpuState) (lk : LockName) : Decidable (s.Holds lk) := by
  unfold CpuState.Holds
  infer_instance

def holding (lk : LockName) : KernelM Bool := do
  pushcli
  mycpu
  let r := decide ((← get).Holds lk)
  popcli
  return r

def CpuState.setLock (s : CpuState) (lk : LockName) (l : Lock) : CpuState :=
  { s with locks := Function.update s.locks lk l }

def acquire (lk : LockName) : KernelM Unit := do
  pushcli
  if ← holding lk then
    throw "acquire"
  modify fun s => s.setLock lk ⟨true, (s.locks lk).cpu⟩
  mycpu
  modify fun s => s.setLock lk ⟨true, some s.me⟩

def release (lk : LockName) : KernelM Unit := do
  if !(← holding lk) then
    throw "release"
  modify fun s => s.setLock lk ⟨true, none⟩
  modify fun s => s.setLock lk ⟨false, none⟩
  popcli

/-- myproc, which reads the CPU's process with interrupts off. -/
def myproc : KernelM (Option Slot) := do
  pushcli
  mycpu
  let p := (← get).proc
  popcli
  return p

namespace CpuState

def pushed (s : CpuState) : CpuState :=
  { s with
    interrupts := false
    intena := if s.ncli = 0 then s.interrupts else s.intena
    ncli := s.ncli + 1 }

def popped (s : CpuState) : CpuState :=
  { s with
    interrupts := decide (s.ncli = 1 ∧ s.intena = true)
    ncli := s.ncli - 1 }

def acquired (s : CpuState) (lk : LockName) : CpuState :=
  s.pushed.setLock lk ⟨true, some s.me⟩

def released (s : CpuState) (lk : LockName) : CpuState :=
  (s.setLock lk ⟨false, none⟩).popped

/-- Inside a pushcli: interrupts are off and the depth is positive. -/
structure Shielded (s : CpuState) : Prop where
  off : s.interrupts = false
  depth : 1 ≤ s.ncli

end CpuState

theorem run_pushcli (s : CpuState) : pushcli.run s = .ok () s.pushed := by
  unfold pushcli mycpu CpuState.pushed
  by_cases h : s.ncli = 0 <;> simp [h]

variable {s : CpuState}

theorem run_popcli (h : s.Shielded) : popcli.run s = .ok () s.popped := by
  obtain ⟨hoff, hdepth⟩ := h
  unfold popcli CpuState.popped
  have hnonneg : ¬ s.ncli - 1 < 0 := by omega
  have hzero : s.ncli - 1 = 0 ↔ s.ncli = 1 := by omega
  by_cases h : s.ncli = 1 ∧ s.intena = true
  · simp [hoff, h]
  · simp [hoff, hnonneg, hzero, h]

theorem shielded_pushed (h : 0 ≤ s.ncli) : s.pushed.Shielded :=
  ⟨rfl, by simp only [CpuState.pushed]; omega⟩

/-- Inside a pushcli, a further pair leaves no trace. -/
theorem popped_pushed (h : s.Shielded) : s.pushed.popped = s := by
  obtain ⟨hoff, hdepth⟩ := h
  have hne : s.ncli ≠ 0 := by omega
  cases s
  simp_all [CpuState.pushed, CpuState.popped]

/-- At any depth a pair of pushcli and popcli keeps the depth and the locks. -/
theorem popped_pushed_ncli (s : CpuState) : s.pushed.popped.ncli = s.ncli := by
  simp [CpuState.pushed, CpuState.popped]

theorem run_holding (h : s.Shielded) (lk : LockName) :
    (holding lk).run s = .ok (decide (s.Holds lk)) s := by
  have hdeep : s.pushed.Shielded := shielded_pushed (by have := h.depth; omega)
  simp only [holding, mycpu, run_bind, run_pushcli, run_get, run_pure,
    show s.pushed.interrupts = false from rfl, Bool.false_eq_true, if_false, run_popcli hdeep,
    popped_pushed h]
  rfl

theorem run_acquire (hdepth : 0 ≤ s.ncli) {lk : LockName} (h : ¬ s.Holds lk) :
    (acquire lk).run s = .ok () (s.acquired lk) := by
  have hpushed : ¬ s.pushed.Holds lk := h
  simp [acquire, mycpu, run_pushcli, run_holding (shielded_pushed hdepth), hpushed,
    CpuState.acquired, CpuState.setLock, show s.pushed.interrupts = false from rfl,
    show s.pushed.me = s.me from rfl]

theorem run_release (hshield : s.Shielded) {lk : LockName} (h : s.Holds lk) :
    (release lk).run s = .ok () (s.released lk) := by
  have hfree : (s.setLock lk ⟨false, none⟩).Shielded := ⟨hshield.off, hshield.depth⟩
  have hlock : (s.setLock lk ⟨true, none⟩).setLock lk ⟨false, none⟩ =
      s.setLock lk ⟨false, none⟩ := by
    simp [CpuState.setLock]
  simp [release, run_holding hshield, h, hlock, run_popcli hfree, CpuState.released]

theorem run_myproc (hdepth : 0 ≤ s.ncli) : myproc.run s = .ok s.proc s.pushed.popped := by
  simp only [myproc, mycpu, run_bind, run_pushcli, run_get, run_pure,
    show s.pushed.interrupts = false from rfl, Bool.false_eq_true, if_false,
    run_popcli (shielded_pushed hdepth)]
  rfl

theorem acquired_holds (s : CpuState) (lk : LockName) : (s.acquired lk).Holds lk := by
  simp [CpuState.Holds, CpuState.acquired, CpuState.setLock, CpuState.pushed]

theorem acquired_shielded (hdepth : 0 ≤ s.ncli) (lk : LockName) : (s.acquired lk).Shielded := by
  obtain ⟨hoff, hpos⟩ := shielded_pushed hdepth
  exact ⟨hoff, hpos⟩

end KernelLabs.Spinlock

import KernelLabs.ProcTreeRuns

/-!
The protocol of wait and exit. A parent that finds no ZOMBIE child sleeps on its own
slot, and the child that exits wakes it; a ZOMBIE whose parent exits first is passed
to init, which is then woken. Most steps make no parent, no ZOMBIE and no sleeper and
are handled together.
-/
namespace KernelLabs.ProcTree

open ProcTable ProcLife Runs

/-- No ZOMBIE is the child of a process that sleeps in wait. Nobody is their own
parent and init has none, which exit relies on when it passes children on. -/
structure WaitOk (k : Kernel) : Prop where
  asleep : ∀ c z, (k.proc z).parent = some c → (k.proc z).state = .zombie →
    (k.proc c).state = .sleeping → (k.proc c).chan ≠ .proc c
  own : ∀ p, (k.proc p).parent ≠ some p
  init : ∀ i c, k.initproc = some i → (k.proc i).parent ≠ some c

/-- What most steps do to a slot. -/
structure Calm (q r : Proc) : Prop where
  parent : ∀ c, r.parent = some c → q.parent = some c
  zombie : r.state = .zombie → q.state = .zombie
  asleep : r.state = .sleeping → q.state = .sleeping ∧ r.chan = q.chan

theorem Calm.of_eq {q r : Proc} (hparent : r.parent = q.parent) (hstate : r.state = q.state)
    (hchan : r.chan = q.chan) : Calm q r :=
  ⟨fun _ => hparent.symm.trans, hstate.symm.trans, fun hs => ⟨hstate.symm.trans hs, hchan⟩⟩

section Kernels

variable {k k' : Kernel} {c : Slot}

theorem WaitOk.calm (h : WaitOk k) (hinit : k'.initproc = k.initproc)
    (hcalm : ∀ p, Calm (k.proc p) (k'.proc p)) : WaitOk k' where
  asleep d z hparent hzombie hsleep := by
    obtain ⟨hold, hchan⟩ := (hcalm d).asleep hsleep
    rw [hchan]
    exact h.asleep d z ((hcalm z).parent d hparent) ((hcalm z).zombie hzombie) hold
  own p hp := h.own p ((hcalm p).parent p hp)
  init i d hi hp := h.init i d (hinit ▸ hi) ((hcalm i).parent d hp)

theorem WaitOk.modify (h : WaitOk k) {i : Slot} {f : Proc → Proc}
    (hf : Calm (k.proc i) (f (k.proc i))) : WaitOk (k.modify i f) := by
  refine h.calm rfl fun p => ?_
  by_cases hpi : p = i
  · subst hpi
    rwa [Kernel.modify_proc_self]
  · rw [Kernel.modify_proc_ne _ _ hpi]
    exact .of_eq rfl rfl rfl

/-- A process may go to sleep on another channel, or on its own without a ZOMBIE child. -/
theorem WaitOk.sleep (h : WaitOk k) {chan : Chan}
    (hchan : chan = .proc c → ∀ z, (k.proc z).parent = some c → (k.proc z).state ≠ .zombie) :
    WaitOk (k.sleep c chan) := by
  have hparent : ∀ p, ((k.sleep c chan).proc p).parent = (k.proc p).parent :=
    k.modify_keeps Proc.parent rfl
  refine ⟨fun d z hz hzombie hsleep => ?_, fun p => hparent p ▸ h.own p,
    fun i d hi => hparent i ▸ h.init i d hi⟩
  rw [hparent] at hz
  simp only [Kernel.sleep, Kernel.modify_proc] at hzombie hsleep ⊢
  split at hzombie
  · cases hzombie
  · split
    · next hd =>
      subst hd
      exact fun heq => hchan heq z hz hzombie
    · next hd =>
      rw [if_neg hd] at hsleep
      exact h.asleep d z hz hzombie hsleep

/-- exit wakes the parent of the new ZOMBIE, and init when it is passed a ZOMBIE. -/
theorem WaitOk.exit (h : WaitOk k) : WaitOk (k.exit c) where
  asleep d z hparent hzombie hsleep heq := by
    simp only [Kernel.exit_proc] at hparent hzombie hsleep heq
    rw [if_neg (by rintro rfl; simp at hsleep)] at hsleep
    -- d slept before and was not woken
    have hwakes : ¬ k.ExitWakes c d := fun hw => by simp [hw] at hsleep
    rw [if_neg hwakes] at hsleep
    by_cases hzc : z = c
    · subst hzc
      rw [if_neg (h.own z)] at hparent
      exact hwakes ⟨hsleep, .inl (by rw [heq, hparent]; rfl)⟩
    · have hold : (k.proc z).state = .zombie := by
        rw [if_neg hzc] at hzombie
        split at hzombie
        · cases hzombie
        · exact hzombie
      split at hparent
      · next hz =>
        refine hwakes ⟨hsleep, .inr ⟨by rw [heq, hparent]; rfl, z, List.mem_finRange z, hz, hold⟩⟩
      · exact h.asleep d z hparent hold hsleep heq
  own p hp := by
    simp only [Kernel.exit_proc] at hp
    split at hp
    · next hpc => exact h.init p c hp hpc
    · exact h.own p hp
  init i d hi hp := by
    simp only [Kernel.exit_proc] at hp
    split at hp
    · next hic => exact h.init i c (by simpa using hi) hic
    · exact h.init i d (by simpa using hi) hp

/-- fork makes the child of an EMBRYO, which is neither init nor the caller. -/
theorem WaitOk.forkCopy (h : WaitOk k) {np : Slot} (hnp : stage k np = .embryo)
    (hc : stage k c = .alive) (hinit : ∃ i, k.initproc = some i ∧ stage k i = .alive) :
    WaitOk (k.forkCopy c np) := by
  obtain ⟨i, hi, halive⟩ := hinit
  have hne : ∀ {p}, stage k p = .alive → p ≠ np := by
    rintro p hp rfl
    rw [hnp] at hp
    cases hp
  have hother : ∀ p, p ≠ np → (k.forkCopy c np).proc p = k.proc p :=
    fun p hp => k.modify_proc_ne _ hp
  have hstate : ∀ p, ((k.forkCopy c np).proc p).state = (k.proc p).state :=
    k.modify_keeps Proc.state rfl
  have hchan : ∀ p, ((k.forkCopy c np).proc p).chan = (k.proc p).chan :=
    k.modify_keeps Proc.chan rfl
  refine ⟨fun d z hz hzombie hsleep => ?_, fun p hp => ?_, fun j d hj hp => ?_⟩
  · rw [hstate] at hzombie hsleep
    rw [hchan]
    have hzn : z ≠ np := by
      rintro rfl
      rw [stage, hzombie] at hnp
      cases hnp
    exact h.asleep d z (hother z hzn ▸ hz) hzombie hsleep
  · by_cases hpn : p = np
    · subst hpn
      simp only [Kernel.forkCopy, Kernel.modify_proc_self] at hp
      exact hne hc (Option.some.inj hp)
    · exact h.own p (hother p hpn ▸ hp)
  · obtain rfl := Option.some.inj (hi.symm.trans hj)
    exact h.init i d hi (hother i (hne halive) ▸ hp)

end Kernels

/-- wait alone sleeps on the caller's slot. -/
def Foreign (_ : Sys) : Act → Prop
  | .sleep c chan => chan ≠ .proc c
  | _ => True

instance (s : Sys) : (a : Act) → Decidable (Foreign s a)
  | .sleep c chan => inferInstanceAs (Decidable (¬ chan = .proc c))
  | .forkAlloc _ | .forkFail _ | .forkCopy _ | .forkDone _ | .exit _ | .wait _ | .kill _ _
  | .setpriority _ _ _ | .settickets _ _ | .fault _ | .yield _ | .wakeup _ | .dispatch _ =>
    inferInstanceAs (Decidable True)

theorem WaitOk.effect {log es : List Entry} {s t : Sys} {a : Act} (h : WaitOk s.kern)
    (htree : TreeInv log s) (hforeign : Foreign s a) (heffect : s.Effect a t es) :
    WaitOk t.kern := by
  cases heffect with try dsimp only
  | none | killNone => exact h
  | forkAlloc halloc =>
    obtain ⟨-, rfl⟩ := Kernel.allocproc_eq_some halloc
    refine h.calm rfl fun p => ?_
    simp only [Kernel.modify_proc]
    split
    · exact ⟨fun _ => id, by simp, by simp⟩
    · exact .of_eq rfl rfl rfl
  | forkFail => exact h.modify ⟨fun _ => id, by simp, by simp⟩
  | forkCopy hc =>
    exact h.forkCopy (htree.forking.child_embryo _ _ (by rw [hc]; rfl))
      (htree.forking.forking_alive _ (by simp [hc])) htree.parents.init_alive
  | forkDone => exact h.modify ⟨fun _ => id, by simp, by simp⟩
  | exit => exact h.exit
  | reap => exact h.modify ⟨by simp, by simp, by simp⟩
  | waitSleep hz =>
    refine h.sleep fun _ z hparent hzombie => ?_
    unfold Kernel.zombieChild at hz
    have hnone := Fin.find?_eq_none_iff.mp hz z
    simp [hparent, hzombie] at hnone
  | kill =>
    refine h.modify ?_
    unfold Kernel.killOne
    split
    · exact ⟨fun _ => id, by simp, by simp⟩
    · exact .of_eq rfl rfl rfl
  | setpriority => exact h.modify (.of_eq rfl rfl rfl)
  | settickets => exact h.modify (.of_eq rfl rfl rfl)
  | fault => exact h.modify (.of_eq rfl rfl rfl)
  | sleep => exact h.sleep fun heq => absurd heq hforeign
  | yield => exact h.modify ⟨fun _ => id, by simp, by simp⟩
  | wakeup chan =>
    refine h.calm rfl fun p => ?_
    simp only [Kernel.wakeup1_proc, Kernel.wakeOne]
    split
    · exact ⟨fun _ => id, by simp, by simp⟩
    · exact .of_eq rfl rfl rfl
  | dispatch => exact h.modify ⟨fun _ => id, by simp, by simp⟩

/-- No wakeup is lost between wait and exit: in every run in which no other call sleeps
on the slot of its caller, a process that sleeps there has no ZOMBIE child. -/
theorem wait_sleepers {log : List Entry} {s : Sys} (hrun : machine.Run Foreign start log s)
    (hbound : forks log + 2 < 2 ^ 31) {c : Slot} (hsleep : (s.kern.proc c).state = .sleeping)
    (hchan : (s.kern.proc c).chan = .proc c) {z : Slot} (hz : (s.kern.proc z).parent = some c) :
    (s.kern.proc z).state ≠ .zombie := by
  have hwait : TreeInv log s ∧ WaitOk s.kern := by
    refine hrun.invariant (P := fun log s => forks log + 2 < 2 ^ 31 →
      TreeInv log s ∧ WaitOk s.kern) (fun _ => ⟨start_treeInv, ?_⟩) ?_ hbound
    · exact ⟨by simp [start_parent], by simp [start_parent], by simp [start_parent]⟩
    · intro log s a t ih hforeign hstep hb
      have hmono : forks log ≤ forks (s.emit a ++ log) := by simp [forks, List.countP_append]
      obtain ⟨htree, hwait⟩ := ih (lt_of_le_of_lt (Nat.add_le_add_right hmono 2) hb)
      obtain ⟨-, rfl⟩ := Sys.step_eq_some hstep
      exact ⟨treeInv_step htree hstep hb, hwait.effect htree hforeign (s.effect a)⟩
  exact fun hzombie => hwait.2.asleep c z hz hzombie hsleep hchan

/-- init forks a child that forks a grandchild; init waits, and the child exits after
the grandchild and before it has waited for it. init is woken, reaps one ZOMBIE and
then the other, forks again and sleeps in wait, with a child that still runs. -/
theorem wait_sleepers_orphan :
    ∃ log s, machine.Run Foreign start log s ∧ reapedPids log = [3, 2] ∧
      (s.kern.proc 0).state = .sleeping ∧ (s.kern.proc 1).parent = some 0 ∧
      (s.kern.proc 1).state ≠ .zombie := by
  obtain ⟨log, s, hrun, hforks, hreaped, hsleep, hchan, hparent⟩ :=
    Machine.exists_run_of_exec machine Foreign start
      [.dispatch 0, .forkAlloc 0, .forkCopy 0, .forkDone 0, .wait 0, .dispatch 1, .forkAlloc 1,
        .forkCopy 1, .forkDone 1, .yield 1, .dispatch 2, .exit 2, .dispatch 1, .exit 1,
        .dispatch 0, .wait 0, .wait 0, .forkAlloc 0, .forkCopy 0, .forkDone 0, .wait 0]
      (fun log s => forks log = 3 ∧ reapedPids log = [3, 2] ∧
        (s.kern.proc 0).state = .sleeping ∧ (s.kern.proc 0).chan = .proc 0 ∧
        (s.kern.proc 1).parent = some 0) (by decide +kernel)
  exact ⟨log, s, hrun, hreaped, hsleep, hparent,
    wait_sleepers hrun (by rw [hforks]; norm_num) hsleep hchan hparent⟩

end KernelLabs.ProcTree

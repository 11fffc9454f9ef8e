import KernelLabs.ProcTreeFork

/-!
The process tree over whole runs. exit hands the children to init, wait reaps a
ZOMBIE child of its caller, and with the steps of fork and the quiet ones this keeps
the tree in every run in which the pids do not pass the largest int.
-/
namespace KernelLabs.ProcTree

open MachineWords ProcTable ProcLife Runs List Option

variable {log : List Entry}

/-- exit leaves no pointer to the exiting process: its children go to init. -/
theorem TreeInv.exit {s : Sys} (h : TreeInv log s) {c : Slot} (hc : s.Idle c)
    (hinit : s.kern.initproc ≠ some c) : TreeInv log { s with kern := s.kern.exit c } := by
  have hcalive : stage s.kern c = .alive := by rw [stage, hc.1]; rfl
  have hpid : ∀ p, ((s.kern.exit c).proc p).pid = (s.kern.proc p).pid := by
    intro p
    rw [Kernel.exit_proc]
  have hparent : ∀ p, ((s.kern.exit c).proc p).parent =
      if (s.kern.proc p).parent = some c then s.kern.initproc else (s.kern.proc p).parent := by
    intro p
    rw [Kernel.exit_proc]
  have hstage : ∀ p, stage (s.kern.exit c) p = if p = c then .zombie else stage s.kern p := by
    intro p
    rw [stage, Kernel.exit_proc]
    dsimp only
    split
    · rfl
    · split
      · rename_i hwake
        rw [stage, hwake.1]
        rfl
      · rfl
  have halive : ∀ p, p ≠ c → stage s.kern p = .alive → stage (s.kern.exit c) p = .alive := by
    intro p hp hpa
    rw [hstage, if_neg hp, hpa]
  have hused : ∀ p, stage (s.kern.exit c) p ≠ .unused → stage s.kern p ≠ .unused := by
    intro p hp
    rw [hstage] at hp
    split at hp
    · rename_i heq
      rw [heq, hcalive]
      decide
    · exact hp
  refine ⟨h.pids.mono rfl (by simp) fun p hp => ⟨hused p hp, hpid p⟩, ?_, ?_, ?_⟩
  · obtain ⟨i, hi, hia⟩ := h.parents.init_alive
    have hic : i ≠ c := by
      intro heq
      exact hinit (heq ▸ hi)
    constructor
    · exact ⟨i, by simpa using hi, halive i hic hia⟩
    · intro p q hp
      rw [hparent] at hp
      split at hp
      · rw [hi] at hp
        rw [← some.inj hp]
        exact halive i hic hia
      · rename_i hne
        refine halive q ?_ (h.parents.parent_alive p q hp)
        intro heq
        exact hne (heq ▸ hp)
    · intro p hp hpi
      rw [Kernel.exit_initproc] at hpi
      have hold : stage s.kern p = .alive ∨ stage s.kern p = .zombie := by
        rw [hstage] at hp
        split at hp
        · rename_i heq
          exact Or.inl (heq ▸ hcalive)
        · exact hp
      obtain ⟨q, hq⟩ := h.parents.has_parent p hold hpi
      rw [hparent, hq]
      split
      · exact ⟨i, hi⟩
      · exact ⟨q, rfl⟩
    · intro p hp
      rw [hstage] at hp
      split at hp
      · cases hp
      · rw [hparent, h.parents.unused_parent p hp]
        rfl
  · refine h.forking.mono (fun _ _ => rfl) (fun d hd => halive d ?_) ?_
    · intro heq
      exact hd (heq ▸ hc.2)
    · intro d m hd
      dsimp only at hd ⊢
      have hm := h.forking.child_embryo d m hd
      have hmc : m ≠ c := by
        intro heq
        rw [heq, hcalive] at hm
        cases hm
      refine ⟨by rw [hstage, if_neg hmc], ?_⟩
      rw [hparent, if_neg]
      intro hmp
      cases hpc : s.fork d with
      | idle => rw [hpc] at hd; cases hd
      | allocated np =>
        rw [hpc] at hd
        rw [← some.inj hd, h.forking.allocated_parent d np hpc] at hmp
        cases hmp
      | copied np =>
        rw [hpc] at hd
        rw [← some.inj hd, h.forking.copied_parent d np hpc] at hmp
        rw [some.inj hmp, hc.2] at hpc
        cases hpc
  · refine h.history.mono rfl (fun _ he => he) (fun _ _ _ he => he) (by simp) (by simp) hused
      hpid (fun _ _ hd => hd) ?_
    intro p q hp
    rw [hparent] at hp
    split at hp
    · exact Or.inr (Or.inl hp)
    · exact Or.inl hp

structure Reaps (k k' : Kernel) (z : Slot) : Prop where
  zombie : stage k z = .zombie
  nextpid : k'.nextpid = k.nextpid
  initproc : k'.initproc = k.initproc
  pid_ne : ∀ p, p ≠ z → (k'.proc p).pid = (k.proc p).pid
  parent : ∀ p, (k'.proc p).parent = if p = z then none else (k.proc p).parent
  stage : ∀ p, stage k' p = if p = z then .unused else stage k p

theorem reap_reaps {k : Kernel} {z : Slot} (hz : (k.proc z).state = .zombie) :
    Reaps k (k.reap z) z where
  zombie := by rw [stage, hz]; rfl
  nextpid := rfl
  initproc := rfl
  pid_ne p hp := by rw [Kernel.reap, Kernel.modify_proc_ne _ _ hp]
  parent p := by
    rw [Kernel.reap, Kernel.modify_proc]
    split <;> rfl
  stage p := stage_modify _ _ _ _

namespace Reaps

variable {k k' : Kernel} {z : Slot}

theorem keeps (h : Reaps k k' z) {p : Slot} (hp : ProcTree.stage k p ≠ .zombie) :
    p ≠ z ∧ ProcTree.stage k' p = ProcTree.stage k p := by
  have hpz : p ≠ z := by
    intro heq
    exact hp (heq ▸ h.zombie)
  exact ⟨hpz, by rw [h.stage, if_neg hpz]⟩

theorem alive (h : Reaps k k' z) {p : Slot} (hp : ProcTree.stage k p = .alive) :
    ProcTree.stage k' p = .alive := by
  rw [(h.keeps (by rw [hp]; decide)).2, hp]

theorem used (h : Reaps k k' z) {p : Slot} (hp : ProcTree.stage k' p ≠ .unused) :
    p ≠ z ∧ ProcTree.stage k p ≠ .unused := by
  rw [h.stage] at hp
  split at hp
  · exact absurd rfl hp
  · rename_i hne
    exact ⟨hne, hp⟩

theorem parents (h : Reaps k k' z) (hk : ParentsOk k) : ParentsOk k' := by
  constructor
  · obtain ⟨i, hi, hia⟩ := hk.init_alive
    exact ⟨i, h.initproc.trans hi, h.alive hia⟩
  · intro p q hp
    rw [h.parent] at hp
    split at hp
    · cases hp
    · exact h.alive (hk.parent_alive p q hp)
  · intro p hp hpi
    have hpz := (h.used (p := p) (by rcases hp with hp | hp <;> simp [hp])).1
    rw [h.stage, if_neg hpz] at hp
    rw [h.parent, if_neg hpz]
    exact hk.has_parent p hp (h.initproc ▸ hpi)
  · intro p hp
    rw [h.parent]
    split
    · rfl
    · rename_i hpz
      rw [h.stage, if_neg hpz] at hp
      exact hk.unused_parent p hp

theorem history {s : Sys} {c : Slot} (h : Reaps s.kern k' z)
    (hs : TreeInv log s) (hz : (s.kern.proc z).parent = some c) :
    HistoryOk (Entry.reaped c (s.kern.proc c).pid (s.kern.proc z).pid :: log)
      { s with kern := k' } := by
  have hzused : ProcTree.stage s.kern z ≠ .unused := by rw [h.zombie]; decide
  constructor
  · intro d m hd
    have hda := hs.forking.forking_alive d (by simp [show s.fork d = .allocated m from hd])
    have hm := hs.forking.child_embryo d m
      (by rw [show s.fork d = .allocated m from hd]; rfl)
    rw [h.pid_ne m (h.keeps (by rw [hm]; decide)).1, h.pid_ne d (h.keeps (by rw [hda]; decide)).1]
    exact mem_cons_of_mem _ (hs.history.allocated_entry d m hd)
  · intro p q hp
    rw [h.parent] at hp
    split at hp
    · cases hp
    · rename_i hpz
      have hqa := hs.parents.parent_alive p q hp
      rw [h.pid_ne p hpz, h.pid_ne q (h.keeps (by rw [hqa]; decide)).1, h.initproc]
      exact (hs.history.parent_entry p q hp).imp_right (mem_cons_of_mem _)
  · intro pid hpid
    have hold : ∀ p, ProcTree.stage k' p ≠ .unused → (k'.proc p).pid = (s.kern.proc p).pid :=
      fun p hp => h.pid_ne p (h.used hp).1
    rw [h.nextpid]
    rcases mem_cons.mp hpid with heq | htail
    · rw [heq]
      refine ⟨(hs.pids.range z hzused).2, fun p hp hsame => ?_⟩
      obtain ⟨hpz, hpold⟩ := h.used hp
      rw [hold p hp] at hsame
      exact hpz (hs.pids.inj p z hpold hzused hsame)
    · obtain ⟨hlt, hgone⟩ := hs.history.reaped_gone pid htail
      refine ⟨hlt, fun p hp => ?_⟩
      rw [hold p hp]
      exact hgone p (h.used hp).2
  · refine nodup_cons.mpr ⟨fun hmem => ?_, hs.history.reaped_once⟩
    exact (hs.history.reaped_gone _ hmem).2 z hzused rfl
  · intro w wpid pid hmem
    rw [h.initproc]
    rcases mem_cons.mp hmem with heq | hold
    · simp only [Entry.reaped.injEq] at heq
      obtain ⟨rfl, rfl, rfl⟩ := heq
      exact (hs.history.parent_entry z w hz).imp_right
        fun hmem => ⟨z, mem_cons_of_mem _ hmem⟩
    · exact (hs.history.reaped_by w wpid pid hold).imp_right
        fun ⟨p, hp⟩ => ⟨p, mem_cons_of_mem _ hp⟩

end Reaps

theorem TreeInv.reap {s : Sys} (h : TreeInv log s) {c z : Slot}
    (hz : s.kern.zombieChild c = some z) :
    TreeInv (Entry.reaped c (s.kern.proc c).pid (s.kern.proc z).pid :: log)
      { s with kern := s.kern.reap z } := by
  obtain ⟨hparent, hzombie⟩ := Kernel.zombieChild_eq_some hz
  have hr := reap_reaps hzombie
  refine ⟨h.pids.mono rfl rfl fun p hp => ⟨(hr.used hp).2, hr.pid_ne p (hr.used hp).1⟩,
    hr.parents h.parents, ?_, hr.history h hparent⟩
  refine h.forking.mono (fun _ _ => rfl) (fun d _ hd => hr.alive hd) ?_
  intro d m hd
  have hm := h.forking.child_embryo d m hd
  obtain ⟨hmz, hstage⟩ := hr.keeps (p := m) (by rw [hm]; decide)
  exact ⟨hstage, by rw [hr.parent, if_neg hmz]⟩

/-- One step keeps the invariant, as long as the pids do not run out. -/
theorem TreeInv.effect {s t : Sys} {a : Act} {es : List Entry} (h : TreeInv log s)
    (hen : s.Enabled a) (heffect : s.Effect a t es) (hbound : forks (es ++ log) + 2 < 2 ^ 31) :
    TreeInv (es ++ log) t := by
  have hquiet : Quiet [] := ⟨rfl, rfl⟩
  have halive : ∀ {c}, s.Running c → stage s.kern c = .alive := by
    intro c hc
    rw [stage, hc]
    rfl
  cases heffect with
  | none => exact h
  | forkAlloc halloc =>
    rw [cons_append, nil_append, forks_created] at hbound
    exact h.forkAlloc hen halloc (by omega)
  | forkFail hc => exact h.forkFail hc
  | forkCopy hc => exact h.forkCopy hc
  | forkDone hc => exact h.forkDone hc
  | exit => exact h.exit hen.1 hen.2
  | reap hz => exact h.reap hz
  | waitSleep => exact h.quiet (sameTree_alive (halive hen.1) rfl rfl rfl) hquiet
  | killNone => exact h.quiet (sameTree_refl _) ⟨rfl, rfl⟩
  | kill => exact h.quiet (sameTree_modify _ _ _ rfl rfl (stageOf_killOne _)) ⟨rfl, rfl⟩
  | setpriority => exact h.quiet (sameTree_modify _ _ _ rfl rfl rfl) hquiet
  | settickets => exact h.quiet (sameTree_modify _ _ _ rfl rfl rfl) hquiet
  | fault => exact h.quiet (sameTree_modify _ _ _ rfl rfl rfl) ⟨rfl, rfl⟩
  | sleep => exact h.quiet (sameTree_alive (halive hen) rfl rfl rfl) hquiet
  | yield => exact h.quiet (sameTree_alive (halive hen) rfl rfl rfl) hquiet
  | wakeup chan => exact h.quiet (sameTree_wakeup1 _ chan) hquiet
  | dispatch =>
    exact h.quiet (sameTree_alive (by rw [stage, hen]; rfl) rfl rfl rfl) hquiet

theorem treeInv_step {s t : Sys} {a : Act} (h : TreeInv log s)
    (hstep : s.step a = some t) (hbound : forks (s.emit a ++ log) + 2 < 2 ^ 31) :
    TreeInv (s.emit a ++ log) t := by
  obtain ⟨hen, rfl⟩ := Sys.step_eq_some hstep
  exact h.effect hen (s.effect a) hbound

theorem run_treeInv {s : Sys} (hrun : machine.Run Machine.Free start log s)
    (hbound : forks log + 2 < 2 ^ 31) : TreeInv log s := by
  refine hrun.invariant (P := fun log s => forks log + 2 < 2 ^ 31 → TreeInv log s)
    (fun _ => start_treeInv) ?_ hbound
  intro log s a t ih _ hstep hb
  have hmono : forks log ≤ forks (s.emit a ++ log) := by
    unfold forks
    rw [countP_append]
    omega
  exact treeInv_step (ih (lt_of_le_of_lt (Nat.add_le_add_right hmono 2) hb)) hstep hb

theorem used_of_state {k : Kernel} {p : Slot} (h : (k.proc p).state ≠ .unused) :
    stage k p ≠ .unused := fun hs => h ((stageOf_unused _).mp hs)

/-- In every run with fewer than 2^31 - 1 processes ever created, init included,
pids in use are distinct, every process but init has a parent that has neither
exited nor been freed, and a pid is returned by at most one wait, called by the
process that forked it or by init. -/
theorem process_tree_of_run {log : List Entry} {s : Sys}
    (hrun : machine.Run Machine.Free start log s) (hbound : forks log + 1 < 2 ^ 31 - 1) :
    (∀ p q, (s.kern.proc p).state ≠ .unused → (s.kern.proc q).state ≠ .unused → p ≠ q →
      (s.kern.proc p).pid ≠ (s.kern.proc q).pid) ∧
    (∀ p, (s.kern.proc p).state ∈ [ProcState.sleeping, .runnable, .running, .zombie] →
      s.kern.initproc ≠ some p → ∃ q, (s.kern.proc p).parent = some q ∧
        (s.kern.proc q).state ≠ .unused ∧ (s.kern.proc q).state ≠ .zombie) ∧
    (reapedPids log).Nodup ∧
    ∀ w wpid pid, Entry.reaped w wpid pid ∈ log →
      s.kern.initproc = some w ∨ ∃ p, Entry.created p pid w wpid ∈ log := by
  have h := run_treeInv hrun (by omega)
  refine ⟨?_, ?_, h.history.reaped_once, h.history.reaped_by⟩
  · intro p q hp hq hne heq
    exact hne (h.pids.inj p q (used_of_state hp) (used_of_state hq) heq)
  · intro p hp hpi
    have hstage : stage s.kern p = .alive ∨ stage s.kern p = .zombie := by
      unfold stage
      simp only [mem_cons, not_mem_nil, or_false] at hp
      rcases hp with hp | hp | hp | hp <;> simp [hp, stageOf]
    obtain ⟨q, hq⟩ := h.parents.has_parent p hstage hpi
    have halive := (stageOf_alive _).mp (h.parents.parent_alive p q hq)
    refine ⟨q, hq, ?_, ?_⟩ <;> rcases halive with ha | ha | ha <;> simp [ha]

/-- init forks a child that exits and is waited for. -/
theorem process_tree_of_run_fork_exit_wait :
    ∃ log s, machine.Run Machine.Free start log s ∧ reapedPids log = [2] ∧
      (reapedPids log).Nodup ∧
      ∀ p q, (s.kern.proc p).state ≠ .unused → (s.kern.proc q).state ≠ .unused → p ≠ q →
        (s.kern.proc p).pid ≠ (s.kern.proc q).pid := by
  obtain ⟨log, s, hrun, hreaped, hforks⟩ := Machine.exists_run_of_exec machine Machine.Free start
    [.dispatch 0, .forkAlloc 0, .forkCopy 0, .forkDone 0, .yield 0, .dispatch 1, .exit 1,
      .dispatch 0, .wait 0]
    (fun log _ => reapedPids log = [2] ∧ forks log = 1) (by decide +kernel)
  have h := process_tree_of_run hrun (by rw [hforks]; norm_num)
  exact ⟨log, s, hrun, hreaped, h.2.2.1, h.1⟩

end KernelLabs.ProcTree

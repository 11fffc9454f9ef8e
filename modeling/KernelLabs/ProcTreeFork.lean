import KernelLabs.ProcTree

/-!
The process tree through fork. Its first step hands out a pid and a slot that no
parent pointer names yet, a failed copy gives the slot back, a successful one sets
the parent pointer, and the last step makes the child RUNNABLE. A fork holds its
child's slot throughout, so that forks of several processes do not meet.
-/
namespace KernelLabs.ProcTree

open MachineWords ProcTable ProcLife Runs Function List Option

theorem stage_modify (k : Kernel) (p q : Slot) (f : Proc → Proc) :
    stage (k.modify p f) q = if q = p then stageOf (f (k.proc q)).state else stage k q := by
  rw [stage, Kernel.modify_proc]
  split <;> rfl

theorem child_update (fork : Slot → ForkPc) (c d : Slot) (pc : ForkPc) :
    ((update fork c pc) d).child = if d = c then pc.child else (fork d).child := by
  rw [update_apply]
  split <;> rfl

structure Allocates (k k' : Kernel) (np : Slot) : Prop where
  unused : stage k np = .unused
  nextpid : k'.nextpid = int32 (k.nextpid + 1)
  initproc : k'.initproc = k.initproc
  pid : ∀ p, (k'.proc p).pid = if p = np then k.nextpid else (k.proc p).pid
  parent : ∀ p, (k'.proc p).parent = (k.proc p).parent
  stage : ∀ p, stage k' p = if p = np then .embryo else stage k p

theorem allocproc_allocates {k k' : Kernel} {np : Slot} (h : k.allocproc = some (np, k')) :
    Allocates k k' np := by
  obtain ⟨hfree, rfl⟩ := Kernel.allocproc_eq_some h
  constructor
  · rw [stage, Kernel.freeSlot_unused hfree]
    rfl
  · rfl
  · rfl
  · intro p
    dsimp only
    rw [Kernel.modify_proc]
    split <;> rfl
  · intro p
    dsimp only
    rw [Kernel.modify_proc]
    split <;> rfl
  · intro p
    simp only [stage, Kernel.modify_proc]
    split <;> rfl

variable {log : List Entry} {s : Sys}

namespace Allocates

variable {k k' : Kernel} {np : Slot}

variable {p : Slot}

section

variable (h : Allocates k k' np)

include h

theorem ne_of_used (hp : ProcTree.stage k p ≠ .unused) : p ≠ np := by
  intro heq
  exact hp (heq ▸ h.unused)

theorem stage_ne (hp : p ≠ np) :
    ProcTree.stage k' p = ProcTree.stage k p := by rw [h.stage, if_neg hp]

theorem pid_ne (hp : p ≠ np) :
    (k'.proc p).pid = (k.proc p).pid := by rw [h.pid, if_neg hp]

theorem stage_used (hp : ProcTree.stage k p ≠ .unused) :
    ProcTree.stage k' p = ProcTree.stage k p := h.stage_ne (h.ne_of_used hp)

theorem ne_of_stage (hp : ProcTree.stage k' p ≠ .embryo) : p ≠ np := by
  intro heq
  exact hp (by rw [h.stage, if_pos heq])

theorem pids (hk : PidsOk log k) (hbound : forks log + 3 < 2 ^ 31) (e : Entry)
    (he : forks (e :: log) = forks log + 1) : PidsOk (e :: log) k' := by
  have heq := hk.nextpid_eq
  have hnext : k'.nextpid = k.nextpid + 1 := by
    rw [h.nextpid]
    apply int32_eq_self <;> omega
  have hold : ∀ p, p ≠ np → ProcTree.stage k' p ≠ .unused →
      1 ≤ (k.proc p).pid ∧ (k.proc p).pid < k.nextpid := by
    intro p hp hused
    rw [h.stage_ne hp] at hused
    exact hk.range p hused
  refine ⟨by rw [hnext, he]; push_cast; omega, ?_, ?_⟩
  · intro p hp
    rw [h.pid, hnext]
    split
    · omega
    · rename_i hne
      have := hold p hne hp
      omega
  · intro p q hp hq hpq
    rw [h.pid, h.pid] at hpq
    split at hpq
    · rename_i hpn
      split at hpq
      · rename_i hqn
        rw [hpn, hqn]
      · rename_i hqn
        have := hold q hqn hq
        omega
    · rename_i hpn
      split at hpq
      · have := hold p hpn hp
        omega
      · rename_i hqn
        rw [h.stage_ne hpn] at hp
        rw [h.stage_ne hqn] at hq
        exact hk.inj p q hp hq hpq

theorem alive (hp : ProcTree.stage k p = .alive) : ProcTree.stage k' p = .alive := by
  rw [h.stage_used (by rw [hp]; decide), hp]

theorem parents (hk : ParentsOk k) : ParentsOk k' := by
  constructor
  · obtain ⟨i, hi, hia⟩ := hk.init_alive
    exact ⟨i, h.initproc.trans hi, h.alive hia⟩
  · intro p q hp
    rw [h.parent] at hp
    exact h.alive (hk.parent_alive p q hp)
  · intro p hp hpi
    rw [h.stage_ne (h.ne_of_stage (by rcases hp with hp | hp <;> simp [hp]))] at hp
    rw [h.parent]
    exact hk.has_parent p hp (h.initproc ▸ hpi)
  · intro p hp
    rw [h.stage_ne (h.ne_of_stage (by simp [hp]))] at hp
    rw [h.parent]
    exact hk.unused_parent p hp

end

theorem forking {c : Slot} (h : Allocates s.kern k' np) (hk : ParentsOk s.kern)
    (hs : ForksOk s) (hc : ProcTree.stage s.kern c = .alive) :
    ForksOk { kern := k', fork := update s.fork c (.allocated np) } := by
  have hfresh : ∀ d, (s.fork d).child ≠ some np := by
    intro d hd
    have := hs.child_embryo d np hd
    rw [h.unused] at this
    cases this
  constructor
  · intro d hd
    by_cases hdc : d = c
    · rw [hdc]
      exact h.alive hc
    · simp only [update_of_ne hdc] at hd
      exact h.alive (hs.forking_alive d hd)
  · intro d m hd
    rw [child_update] at hd
    split at hd
    · rw [h.stage, if_pos (some.inj hd).symm]
    · have hm := hs.child_embryo d m hd
      rw [h.stage_used (by rw [hm]; decide), hm]
  · intro d e m hd he
    rw [child_update] at hd he
    split at hd
    · rename_i hdc
      split at he
      · rename_i hec
        rw [hdc, hec]
      · exact absurd (he.trans hd.symm) (hfresh e)
    · split at he
      · exact absurd (hd.trans he.symm) (hfresh d)
      · exact hs.child_inj d e m hd he
  · intro d m hd
    dsimp only at hd ⊢
    rw [h.parent]
    by_cases hdc : d = c
    · rw [hdc, update_self, ForkPc.allocated.injEq] at hd
      rw [← hd]
      exact hk.unused_parent np h.unused
    · rw [update_of_ne hdc] at hd
      exact hs.allocated_parent d m hd
  · intro d m hd
    dsimp only at hd ⊢
    rw [h.parent]
    by_cases hdc : d = c
    · rw [hdc, update_self] at hd
      cases hd
    · rw [update_of_ne hdc] at hd
      exact hs.copied_parent d m hd

theorem history {c : Slot} (h : Allocates s.kern k' np) (hs : TreeInv log s)
    (hc : ProcTree.stage s.kern c = .alive) (hnext : s.kern.nextpid ≤ k'.nextpid) :
    HistoryOk (Entry.created np s.kern.nextpid c (s.kern.proc c).pid :: log)
      { kern := k', fork := update s.fork c (.allocated np) } := by
  have hcn : c ≠ np := h.ne_of_used (by rw [hc]; decide)
  constructor
  · intro d m hd
    dsimp only at hd ⊢
    by_cases hdc : d = c
    · subst hdc
      rw [update_self, ForkPc.allocated.injEq] at hd
      subst hd
      rw [h.pid_ne hcn, h.pid, if_pos rfl]
      exact mem_cons_self
    · rw [update_of_ne hdc] at hd
      have hdalive := hs.forking.forking_alive d (by simp [hd])
      have hm := hs.forking.child_embryo d m (by rw [hd]; rfl)
      rw [h.pid_ne (h.ne_of_used (by rw [hm]; decide)),
        h.pid_ne (h.ne_of_used (by rw [hdalive]; decide))]
      exact mem_cons_of_mem _ (hs.history.allocated_entry d m hd)
  · intro p q hp
    dsimp only at hp ⊢
    rw [h.parent] at hp
    have hq := hs.parents.parent_alive p q hp
    have hpn : p ≠ np := by
      intro heq
      rw [heq, hs.parents.unused_parent np h.unused] at hp
      cases hp
    rw [h.pid_ne hpn, h.pid_ne (h.ne_of_used (by rw [hq]; decide)), h.initproc]
    exact (hs.history.parent_entry p q hp).imp_right (mem_cons_of_mem _)
  · intro pid hpid
    obtain ⟨hlt, hgone⟩ := hs.history.reaped_gone pid hpid
    refine ⟨lt_of_lt_of_le hlt hnext, fun p hp => ?_⟩
    dsimp only at hp ⊢
    by_cases hpn : p = np
    · rw [h.pid, if_pos hpn]
      exact (ne_of_lt hlt).symm
    · rw [h.stage_ne hpn] at hp
      rw [h.pid_ne hpn]
      exact hgone p hp
  · exact hs.history.reaped_once
  · intro w wpid pid hmem
    rcases mem_cons.mp hmem with heq | hold
    · cases heq
    · rw [h.initproc]
      exact (hs.history.reaped_by w wpid pid hold).imp_right
        fun ⟨p, hp⟩ => ⟨p, mem_cons_of_mem _ hp⟩

end Allocates

variable {c np : Slot}

theorem TreeInv.forkAlloc (h : TreeInv log s) {k : Kernel} (hc : s.Idle c)
    (halloc : s.kern.allocproc = some (np, k)) (hbound : forks log + 3 < 2 ^ 31) :
    TreeInv (Entry.created np s.kern.nextpid c (s.kern.proc c).pid :: log)
      { kern := k, fork := update s.fork c (.allocated np) } := by
  have ha := allocproc_allocates halloc
  have hcalive : stage s.kern c = .alive := by
    rw [stage, hc.1]
    rfl
  have hpids := ha.pids h.pids hbound _
    (forks_created np c s.kern.nextpid (s.kern.proc c).pid log)
  have hnext : s.kern.nextpid ≤ k.nextpid := by
    have hold := h.pids.nextpid_eq
    have hnew := hpids.nextpid_eq
    rw [forks_created] at hnew
    push_cast at hnew
    omega
  exact ⟨hpids, ha.parents h.parents, ha.forking h.parents h.forking hcalive,
    ha.history h hcalive hnext⟩

theorem update_idle_ne {fork : Slot → ForkPc} {c d : Slot} (hd : update fork c .idle d ≠ .idle) :
    d ≠ c ∧ update fork c .idle d = fork d := by
  by_cases hdc : d = c
  · rw [hdc, update_self] at hd
    exact absurd rfl hd
  · exact ⟨hdc, update_of_ne hdc _ _⟩

theorem update_idle_allocated {fork : Slot → ForkPc} {c d np : Slot}
    (hd : update fork c .idle d = .allocated np) : fork d = .allocated np := by
  have hne : update fork c .idle d ≠ .idle := by simp [hd]
  rw [← (update_idle_ne hne).2, hd]

/-- A process that leaves fork gives up its child, whatever it did to it. -/
theorem ForksOk.leave (h : ForksOk s) {k : Kernel} (hc : (s.fork c).child = some np)
    (hstage : ∀ p, p ≠ np → stage k p = stage s.kern p)
    (hparent : ∀ p, p ≠ np → (k.proc p).parent = (s.kern.proc p).parent) :
    ForksOk { kern := k, fork := update s.fork c .idle } := by
  refine h.mono (fun d hd => (update_idle_ne hd).2) ?_ ?_
  · intro d _ hd
    dsimp only
    rw [hstage d, hd]
    intro heq
    rw [heq, h.child_embryo c np hc] at hd
    cases hd
  · intro d m hd
    dsimp only at hd
    obtain ⟨hdc, heq⟩ := update_idle_ne (ForkPc.child_ne_idle hd)
    have hmn : m ≠ np := by
      intro hm
      rw [heq, hm] at hd
      exact hdc (h.child_inj d c np hd hc)
    exact ⟨hstage m hmn, hparent m hmn⟩

/-- A process that leaves fork frees the child, whose parent was never set, or starts it with
the parent set. -/
theorem TreeInv.leave (h : TreeInv log s) (hchild : (s.fork c).child = some np) {k : Kernel}
    {st : Stage} (hnext : k.nextpid = s.kern.nextpid) (hinit : k.initproc = s.kern.initproc)
    (hpid : ∀ p, (k.proc p).pid = (s.kern.proc p).pid)
    (hparent : ∀ p, (k.proc p).parent = (s.kern.proc p).parent)
    (hstage : ∀ p, stage k p = if p = np then st else stage s.kern p)
    (hfreed : st = .unused → (s.kern.proc np).parent = none)
    (hstarted : st ≠ .unused → ∃ q, (s.kern.proc np).parent = some q) :
    TreeInv log { kern := k, fork := update s.fork c .idle } := by
  have hnp := h.forking.child_embryo c np hchild
  have hused : ∀ p, stage k p ≠ .unused → stage s.kern p ≠ .unused := by
    intro p hp
    rw [hstage] at hp
    split at hp
    · rename_i heq
      rw [heq, hnp]
      decide
    · exact hp
  have halive : ∀ p, stage s.kern p = .alive → stage k p = .alive := by
    intro p hp
    rw [hstage, if_neg, hp]
    intro heq
    rw [heq, hnp] at hp
    cases hp
  refine ⟨h.pids.mono rfl hnext fun p hp => ⟨hused p hp, hpid p⟩, ?_, ?_, ?_⟩
  · constructor
    · obtain ⟨i, hi, hia⟩ := h.parents.init_alive
      exact ⟨i, hinit.trans hi, halive i hia⟩
    · intro p q hp
      exact halive q (h.parents.parent_alive p q (hparent p ▸ hp))
    · intro p hp hpi
      rw [hparent]
      rw [hstage] at hp
      split at hp
      · rename_i heq
        rw [heq]
        exact hstarted (by rcases hp with hp | hp <;> simp [hp])
      · exact h.parents.has_parent p hp (hinit ▸ hpi)
    · intro p hp
      rw [hparent]
      rw [hstage] at hp
      split at hp
      · rename_i heq
        rw [heq]
        exact hfreed hp
      · exact h.parents.unused_parent p hp
  · refine h.forking.leave hchild (fun p hp => ?_) (fun p _ => hparent p)
    rw [hstage, if_neg hp]
  · exact h.history.mono rfl (fun _ he => he) (fun _ _ _ he => he) hnext hinit hused hpid
      (fun _ _ hd => update_idle_allocated hd) (fun p q hp => Or.inl (hparent p ▸ hp))

theorem TreeInv.forkFail (h : TreeInv log s) (hc : s.fork c = .allocated np) :
    TreeInv log { kern := s.kern.forkFail np, fork := update s.fork c .idle } :=
  h.leave (by rw [hc]; rfl) rfl rfl (s.kern.modify_keeps Proc.pid rfl)
    (s.kern.modify_keeps Proc.parent rfl) (fun p => stage_modify _ _ p _)
    (fun _ => h.forking.allocated_parent c np hc) (fun hused => absurd rfl hused)

theorem TreeInv.forkDone (h : TreeInv log s) (hc : s.fork c = .copied np) :
    TreeInv log { kern := s.kern.forkDone np, fork := update s.fork c .idle } :=
  h.leave (by rw [hc]; rfl) rfl rfl (s.kern.modify_keeps Proc.pid rfl)
    (s.kern.modify_keeps Proc.parent rfl) (fun p => stage_modify _ _ p _)
    (fun hunused => nomatch hunused) (fun _ => ⟨c, h.forking.copied_parent c np hc⟩)

/-- fork sets the child's parent to the forking process, which is still alive. -/
theorem TreeInv.forkCopy (h : TreeInv log s) (hc : s.fork c = .allocated np) :
    TreeInv log
      { kern := s.kern.forkCopy c np, fork := update s.fork c (.copied np) } := by
  have hchild : (s.fork c).child = some np := by rw [hc]; rfl
  have hnp := h.forking.child_embryo c np hchild
  have hcalive := h.forking.forking_alive c (ForkPc.child_ne_idle hchild)
  have hstage : ∀ p, stage (s.kern.forkCopy c np) p = stage s.kern p :=
    s.kern.modify_keeps (stageOf ∘ Proc.state) rfl
  have hpid : ∀ p, ((s.kern.forkCopy c np).proc p).pid = (s.kern.proc p).pid :=
    s.kern.modify_keeps Proc.pid rfl
  have hparent : ∀ p, ((s.kern.forkCopy c np).proc p).parent =
      if p = np then some c else (s.kern.proc p).parent := by
    intro p
    rw [Kernel.forkCopy, Kernel.modify_proc]
    split <;> rfl
  have hchildren : ∀ d, ((update s.fork c (.copied np)) d).child = (s.fork d).child := by
    intro d
    rw [child_update]
    split
    · rename_i heq
      rw [heq, hchild]
      rfl
    · rfl
  refine ⟨h.pids.mono rfl rfl fun p hp => ⟨hstage p ▸ hp, hpid p⟩, ?_, ?_, ?_⟩
  · constructor
    · obtain ⟨i, hi, hia⟩ := h.parents.init_alive
      exact ⟨i, hi, by rw [hstage, hia]⟩
    · intro p q hp
      rw [hstage]
      rw [hparent] at hp
      split at hp
      · rw [← some.inj hp]
        exact hcalive
      · exact h.parents.parent_alive p q hp
    · intro p hp hpi
      rw [hparent]
      split
      · exact ⟨c, rfl⟩
      · rw [hstage] at hp
        exact h.parents.has_parent p hp hpi
    · intro p hp
      rw [hstage] at hp
      rw [hparent, if_neg]
      · exact h.parents.unused_parent p hp
      · intro heq
        rw [heq, hnp] at hp
        cases hp
  · constructor
    · intro d hd
      dsimp only at hd ⊢
      rw [hstage]
      by_cases hdc : d = c
      · rw [hdc]
        exact hcalive
      · rw [update_of_ne hdc] at hd
        exact h.forking.forking_alive d hd
    · intro d m hd
      rw [hchildren] at hd
      rw [hstage]
      exact h.forking.child_embryo d m hd
    · intro d e m hd he
      rw [hchildren] at hd he
      exact h.forking.child_inj d e m hd he
    · intro d m hd
      dsimp only at hd ⊢
      have hdc : d ≠ c := by
        intro heq
        rw [heq, update_self] at hd
        cases hd
      rw [update_of_ne hdc] at hd
      rw [hparent, if_neg]
      · exact h.forking.allocated_parent d m hd
      · intro heq
        exact hdc (h.forking.child_inj d c np (by rw [hd, heq]; rfl) hchild)
    · intro d m hd
      dsimp only at hd ⊢
      rw [hparent]
      by_cases hdc : d = c
      · rw [hdc, update_self, ForkPc.copied.injEq] at hd
        rw [if_pos hd.symm, hdc]
      · rw [update_of_ne hdc] at hd
        rw [if_neg]
        · exact h.forking.copied_parent d m hd
        · intro heq
          exact hdc (h.forking.child_inj d c np (by rw [hd, heq]; rfl) hchild)
  · refine h.history.mono rfl (fun _ he => he) (fun _ _ _ he => he) rfl rfl
      (fun p hp => hstage p ▸ hp) hpid ?_ ?_
    · intro d m hd
      dsimp only at hd
      by_cases hdc : d = c
      · rw [hdc, update_self] at hd
        cases hd
      · rwa [update_of_ne hdc] at hd
    · intro p q hp
      rw [hparent] at hp
      split at hp
      · rename_i heq
        rw [← some.inj hp, heq]
        exact Or.inr (Or.inr hc)
      · exact Or.inl hp

end KernelLabs.ProcTree

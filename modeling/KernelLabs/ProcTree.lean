import KernelLabs.ProcLife

/-!
The invariant of the process tree. Pids of slots in use are distinct and below
nextpid, every parent pointer leads to a live process, and the log ties a parent
pointer to the fork that set it or to init. Most actions only move processes
between SLEEPING, RUNNABLE and RUNNING; they are handled together through the
stage of a slot, and each step of fork, exit and a reaping wait has its own lemma.
-/
namespace KernelLabs.ProcTree

open MachineWords ProcTable ProcLife Runs List

/-- The part of a slot's state that the process tree depends on. -/
inductive Stage
  | unused | embryo | alive | zombie
  deriving DecidableEq, Repr

def stageOf : ProcState → Stage
  | .unused => .unused
  | .embryo => .embryo
  | .sleeping => .alive
  | .runnable => .alive
  | .running => .alive
  | .zombie => .zombie

def stage (k : Kernel) (p : Slot) : Stage := stageOf (k.proc p).state

theorem stageOf_unused (st : ProcState) : stageOf st = .unused ↔ st = .unused := by
  cases st <;> simp [stageOf]

theorem stageOf_alive (st : ProcState) :
    stageOf st = .alive ↔ st = .sleeping ∨ st = .runnable ∨ st = .running := by
  cases st <;> simp [stageOf]

structure SameTree (k k' : Kernel) : Prop where
  nextpid : k'.nextpid = k.nextpid
  initproc : k'.initproc = k.initproc
  pid : ∀ p, (k'.proc p).pid = (k.proc p).pid
  parent : ∀ p, (k'.proc p).parent = (k.proc p).parent
  stage : ∀ p, stage k' p = stage k p

/-- Changing one slot without touching its pid, parent or stage keeps the tree. -/
theorem sameTree_modify (k : Kernel) (p : Slot) (f : Proc → Proc)
    (hpid : (f (k.proc p)).pid = (k.proc p).pid)
    (hparent : (f (k.proc p)).parent = (k.proc p).parent)
    (hstage : stageOf (f (k.proc p)).state = stageOf (k.proc p).state) :
    SameTree k (k.modify p f) where
  nextpid := rfl
  initproc := rfl
  pid := k.modify_keeps Proc.pid hpid
  parent := k.modify_keeps Proc.parent hparent
  stage := k.modify_keeps (stageOf ∘ Proc.state) hstage

theorem sameTree_refl (k : Kernel) : SameTree k k :=
  ⟨rfl, rfl, fun _ => rfl, fun _ => rfl, fun _ => rfl⟩

theorem stageOf_wakeOne (chan : Chan) (q : Proc) :
    stageOf (Kernel.wakeOne chan q).state = stageOf q.state := by
  rw [Kernel.wakeOne_eq]
  dsimp only
  split
  · rename_i h
    rw [h.1]
    rfl
  · rfl

theorem sameTree_wakeup1 (k : Kernel) (chan : Chan) : SameTree k (k.wakeup1 chan) where
  nextpid := rfl
  initproc := rfl
  pid p := by rw [Kernel.wakeup1_proc, Kernel.wakeOne_eq]
  parent p := by rw [Kernel.wakeup1_proc, Kernel.wakeOne_eq]
  stage p := stageOf_wakeOne chan (k.proc p)

theorem stageOf_killOne (q : Proc) : stageOf (Kernel.killOne q).state = stageOf q.state := by
  unfold Kernel.killOne
  dsimp only
  split
  · rename_i h
    rw [h]
    rfl
  · rfl

/-- A live process may be moved to any other live state. -/
theorem sameTree_alive {k : Kernel} {c : Slot} {f : Proc → Proc} (h : stage k c = .alive)
    (hpid : (f (k.proc c)).pid = (k.proc c).pid)
    (hparent : (f (k.proc c)).parent = (k.proc c).parent)
    (hstate : stageOf (f (k.proc c)).state = .alive) : SameTree k (k.modify c f) :=
  sameTree_modify k c f hpid hparent (hstate.trans h.symm)

/-- The pids that wait has returned, newest first. -/
def reapedPids (log : List Entry) : List ℤ :=
  log.filterMap fun e =>
    match e with
    | .reaped _ _ pid => some pid
    | _ => none

def forks (log : List Entry) : ℕ :=
  log.countP fun e =>
    match e with
    | .created _ _ _ _ => true
    | _ => false

theorem forks_created (p q : Slot) (pid qpid : ℤ) (log : List Entry) :
    forks (.created p pid q qpid :: log) = forks log + 1 := countP_cons_of_pos rfl

/-- Pids of slots in use were handed out once each. -/
structure PidsOk (log : List Entry) (k : Kernel) : Prop where
  nextpid_eq : k.nextpid = forks log + 2
  range : ∀ p, stage k p ≠ .unused → 1 ≤ (k.proc p).pid ∧ (k.proc p).pid < k.nextpid
  inj : ∀ p q, stage k p ≠ .unused → stage k q ≠ .unused →
    (k.proc p).pid = (k.proc q).pid → p = q

/-- Parent pointers lead to live processes. -/
structure ParentsOk (k : Kernel) : Prop where
  init_alive : ∃ i, k.initproc = some i ∧ stage k i = .alive
  parent_alive : ∀ p q, (k.proc p).parent = some q → stage k q = .alive
  has_parent : ∀ p, stage k p = .alive ∨ stage k p = .zombie →
    k.initproc ≠ some p → ∃ q, (k.proc p).parent = some q
  unused_parent : ∀ p, stage k p = .unused → (k.proc p).parent = none

/-- The children that live processes hold inside fork are distinct EMBRYO slots. -/
structure ForksOk (s : Sys) : Prop where
  forking_alive : ∀ c, s.fork c ≠ .idle → stage s.kern c = .alive
  child_embryo : ∀ c np, (s.fork c).child = some np → stage s.kern np = .embryo
  child_inj : ∀ c d np, (s.fork c).child = some np → (s.fork d).child = some np → c = d
  allocated_parent : ∀ c np, s.fork c = .allocated np → (s.kern.proc np).parent = none
  copied_parent : ∀ c np, s.fork c = .copied np → (s.kern.proc np).parent = some c

/-- Parent pointers and reaped pids are accounted for by the log. -/
structure HistoryOk (log : List Entry) (s : Sys) : Prop where
  allocated_entry : ∀ c np, s.fork c = .allocated np →
    Entry.created np (s.kern.proc np).pid c (s.kern.proc c).pid ∈ log
  parent_entry : ∀ p q, (s.kern.proc p).parent = some q → s.kern.initproc = some q ∨
    Entry.created p (s.kern.proc p).pid q (s.kern.proc q).pid ∈ log
  reaped_gone : ∀ pid ∈ reapedPids log, pid < s.kern.nextpid ∧
    ∀ p, stage s.kern p ≠ .unused → (s.kern.proc p).pid ≠ pid
  reaped_once : (reapedPids log).Nodup
  reaped_by : ∀ w wpid pid, Entry.reaped w wpid pid ∈ log →
    s.kern.initproc = some w ∨ ∃ p, Entry.created p pid w wpid ∈ log

structure TreeInv (log : List Entry) (s : Sys) : Prop where
  pids : PidsOk log s.kern
  parents : ParentsOk s.kern
  forking : ForksOk s
  history : HistoryOk log s

theorem start_stage (p : Slot) : stage start.kern p = if p = 0 then .alive else .unused := by
  simp only [stage, start, boot_proc]
  split <;> rfl

theorem start_parent (p : Slot) : (start.kern.proc p).parent = none := by
  simp only [start, boot_proc]
  split <;> rfl

theorem start_used {p : Slot} (hp : stage start.kern p ≠ .unused) : p = 0 := by
  by_contra hne
  exact hp (by rw [start_stage, if_neg hne])

theorem start_treeInv : TreeInv [] start where
  pids := {
    nextpid_eq := rfl
    range := by
      intro p hp
      rw [start_used hp]
      decide
    inj := by
      intro p q hp hq _
      rw [start_used hp, start_used hq]
  }
  parents := {
    init_alive := ⟨0, rfl, rfl⟩
    parent_alive := by
      intro p q h
      simp [start_parent] at h
    has_parent := by
      intro p hp hinit
      have h0 : p = 0 := start_used (by rcases hp with h | h <;> simp [h])
      exact absurd (congrArg some h0.symm) hinit
    unused_parent := fun p _ => start_parent p
  }
  forking := {
    forking_alive := by simp [start]
    child_embryo := by simp [start, ForkPc.child]
    child_inj := by simp [start, ForkPc.child]
    allocated_parent := by simp [start]
    copied_parent := by simp [start]
  }
  history := {
    allocated_entry := by simp [start]
    parent_entry := by
      intro p q h
      simp [start_parent] at h
    reaped_gone := by simp [reapedPids]
    reaped_once := by simp [reapedPids]
    reaped_by := by simp
  }

/-- No step but a fork's first puts a slot in use. -/
theorem PidsOk.mono {log log' : List Entry} {k k' : Kernel} (h : PidsOk log k)
    (hlog : forks log' = forks log) (hnext : k'.nextpid = k.nextpid)
    (hused : ∀ p, stage k' p ≠ .unused →
      stage k p ≠ .unused ∧ (k'.proc p).pid = (k.proc p).pid) : PidsOk log' k' where
  nextpid_eq := by rw [hnext, hlog, h.nextpid_eq]
  range p hp := by
    obtain ⟨hold, hpid⟩ := hused p hp
    rw [hpid, hnext]
    exact h.range p hold
  inj p q hp hq heq := by
    obtain ⟨hpold, hppid⟩ := hused p hp
    obtain ⟨hqold, hqpid⟩ := hused q hq
    rw [hppid, hqpid] at heq
    exact h.inj p q hpold hqold heq

/-- Where no child is created and none is reaped, it is enough that every new
parent pointer was there before, leads to init, or was set by its fork. -/
theorem HistoryOk.mono {log log' : List Entry} {s s' : Sys} (h : HistoryOk log s)
    (hreaped : reapedPids log' = reapedPids log)
    (hmem : ∀ e ∈ log, e ∈ log')
    (hby : ∀ w wpid pid, Entry.reaped w wpid pid ∈ log' → Entry.reaped w wpid pid ∈ log)
    (hnext : s'.kern.nextpid = s.kern.nextpid) (hinit : s'.kern.initproc = s.kern.initproc)
    (hused : ∀ p, stage s'.kern p ≠ .unused → stage s.kern p ≠ .unused)
    (hpid : ∀ p, (s'.kern.proc p).pid = (s.kern.proc p).pid)
    (hfork : ∀ c np, s'.fork c = .allocated np → s.fork c = .allocated np)
    (hparent : ∀ p q, (s'.kern.proc p).parent = some q → (s.kern.proc p).parent = some q ∨
      s.kern.initproc = some q ∨ s.fork q = .allocated p) : HistoryOk log' s' where
  allocated_entry c np hc := by
    rw [hpid, hpid]
    exact hmem _ (h.allocated_entry c np (hfork c np hc))
  parent_entry p q hp := by
    rw [hpid, hpid, hinit]
    rcases hparent p q hp with hold | hi | hq
    · exact (h.parent_entry p q hold).imp_right (hmem _)
    · exact Or.inl hi
    · exact Or.inr (hmem _ (h.allocated_entry q p hq))
  reaped_gone pid hp := by
    rw [hreaped] at hp
    obtain ⟨hlt, hgone⟩ := h.reaped_gone pid hp
    refine ⟨by rw [hnext]; exact hlt, fun p hpu => ?_⟩
    rw [hpid]
    exact hgone p (hused p hpu)
  reaped_once := by
    rw [hreaped]
    exact h.reaped_once
  reaped_by w wpid pid hp := by
    rw [hinit]
    exact (h.reaped_by w wpid pid (hby w wpid pid hp)).imp_right
      fun ⟨p, hc⟩ => ⟨p, hmem _ hc⟩

theorem ParentsOk.of_sameTree {k k' : Kernel} (h : ParentsOk k) (hk : SameTree k k') :
    ParentsOk k' := by
  obtain ⟨_, hinit, _, hparent, hstage⟩ := hk
  exact {
    init_alive := by simpa only [hinit, hstage] using h.init_alive
    parent_alive := by simpa only [hparent, hstage] using h.parent_alive
    has_parent := by simpa only [hinit, hparent, hstage] using h.has_parent
    unused_parent := by simpa only [hparent, hstage] using h.unused_parent
  }

theorem ForkPc.child_ne_idle {pc : ForkPc} {np : Slot} (h : pc.child = some np) : pc ≠ .idle := by
  intro heq
  rw [heq] at h
  cases h

/-- Steps that start no fork and leave alone what the remaining forks hold. -/
theorem ForksOk.mono {s s' : Sys} (h : ForksOk s)
    (hfork : ∀ c, s'.fork c ≠ .idle → s'.fork c = s.fork c)
    (halive : ∀ c, s'.fork c ≠ .idle → stage s.kern c = .alive → stage s'.kern c = .alive)
    (hchild : ∀ c np, (s'.fork c).child = some np → stage s'.kern np = stage s.kern np ∧
      (s'.kern.proc np).parent = (s.kern.proc np).parent) : ForksOk s' where
  forking_alive c hc := halive c hc (h.forking_alive c (hfork c hc ▸ hc))
  child_embryo c np hc := by
    rw [(hchild c np hc).1]
    rw [hfork c (ForkPc.child_ne_idle hc)] at hc
    exact h.child_embryo c np hc
  child_inj c d np hc hd := by
    rw [hfork c (ForkPc.child_ne_idle hc)] at hc
    rw [hfork d (ForkPc.child_ne_idle hd)] at hd
    exact h.child_inj c d np hc hd
  allocated_parent c np hc := by
    rw [(hchild c np (by rw [hc]; rfl)).2]
    rw [hfork c (by simp [hc])] at hc
    exact h.allocated_parent c np hc
  copied_parent c np hc := by
    rw [(hchild c np (by rw [hc]; rfl)).2]
    rw [hfork c (by simp [hc])] at hc
    exact h.copied_parent c np hc

/-- Entries that neither create nor reap a process. -/
def Quiet (es : List Entry) : Prop := forks es = 0 ∧ reapedPids es = []

variable {es : List Entry}

theorem Quiet.forks_append (h : Quiet es) (log : List Entry) : forks (es ++ log) = forks log := by
  have hzero := h.1
  unfold forks at hzero ⊢
  rw [countP_append, hzero, Nat.zero_add]

theorem Quiet.reapedPids_append (h : Quiet es) (log : List Entry) :
    reapedPids (es ++ log) = reapedPids log := by
  have hnil := h.2
  unfold reapedPids at hnil ⊢
  rw [filterMap_append, hnil, nil_append]

variable {log : List Entry}

theorem mem_reapedPids {pid : ℤ} :
    pid ∈ reapedPids log ↔ ∃ w wpid, Entry.reaped w wpid pid ∈ log := by
  unfold reapedPids
  rw [mem_filterMap]
  constructor
  · rintro ⟨e, he, hpid⟩
    cases e with
    | reaped w wpid pid' =>
      simp only [Option.some.injEq] at hpid
      subst hpid
      exact ⟨w, wpid, he⟩
    | created => simp at hpid
    | killCall => simp at hpid
    | faulted => simp at hpid
  · rintro ⟨w, wpid, he⟩
    exact ⟨_, he, rfl⟩

theorem Quiet.reaped_mem (h : Quiet es) {w : Slot} {wpid pid : ℤ}
    (hmem : Entry.reaped w wpid pid ∈ es ++ log) : Entry.reaped w wpid pid ∈ log := by
  rcases mem_append.mp hmem with hnew | hold
  · have : pid ∈ reapedPids es := mem_reapedPids.mpr ⟨w, wpid, hnew⟩
    rw [h.2] at this
    cases this
  · exact hold

theorem TreeInv.quiet {s : Sys} (h : TreeInv log s) {k : Kernel} (hk : SameTree s.kern k)
    (hes : Quiet es) : TreeInv (es ++ log) { s with kern := k } where
  pids := h.pids.mono (hes.forks_append log) hk.nextpid
    fun p hp => ⟨by rwa [← hk.stage], hk.pid p⟩
  parents := h.parents.of_sameTree hk
  forking := h.forking.mono (fun _ _ => rfl) (fun c _ hc => by rwa [hk.stage])
    (fun _ np _ => ⟨hk.stage np, hk.parent np⟩)
  history := h.history.mono (hes.reapedPids_append log)
    (fun _ he => mem_append_right es he) (fun _ _ _ he => hes.reaped_mem he)
    hk.nextpid hk.initproc (fun p hp => by rwa [← hk.stage]) hk.pid (fun _ _ hc => hc)
    (fun p q hp => Or.inl (by rwa [← hk.parent]))

end KernelLabs.ProcTree

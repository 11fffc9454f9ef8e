import KernelLabs.ProcLife

/-!
Who is killed. kill searches by pid without looking at the slot's state, and
allocproc does not clear the killed flag, so a kill that lands on an UNUSED slot
reaches the next process that is forked into it; the same happens when fork gives
back a slot whose EMBRYO process was killed. In the runs without these two events
a killed flag is always owed to a kill of that very pid, or to a fault, since the
process was created.
-/
namespace KernelLabs.KillTarget

open ProcTable ProcLife Runs List

def creates (p : Slot) : Entry → Bool
  | .created q _ _ _ => decide (q = p)
  | _ => false

def sinceCreated (log : List Entry) (p : Slot) : List Entry :=
  log.takeWhile fun e => !creates p e

/-- A kill of its pid, or a fault of its own, since the process was created. -/
def Blamed (log : List Entry) (s : Sys) (p : Slot) : Prop :=
  Entry.killCall (s.kern.proc p).pid ∈ sinceCreated log p ∨
    Entry.faulted p ∈ sinceCreated log p

instance (log : List Entry) (s : Sys) (p : Slot) : Decidable (Blamed log s p) :=
  inferInstanceAs (Decidable (_ ∨ _))

/-- The condition on a step: kill does not land on an UNUSED slot, and fork does
not give back a slot that was killed while EMBRYO. -/
def Careful (s : Sys) : Act → Prop
  | .kill _ pid => ∀ q, s.kern.findPid pid = some q → (s.kern.proc q).state ≠ .unused
  | .forkFail c => ∀ np, s.fork c = .allocated np → (s.kern.proc np).killed = false
  | _ => True

instance (s : Sys) (a : Act) : Decidable (Careful s a) :=
  match a with
  | .kill _ _ | .forkFail _ => by
    unfold Careful
    infer_instance
  | .forkAlloc _ | .forkCopy _ | .forkDone _ | .exit _ | .wait _ | .setpriority _ _ _
  | .settickets _ _ | .fault _ | .sleep _ _ | .yield _ | .wakeup _ | .dispatch _ =>
    isTrue trivial

theorem sinceCreated_cons {e : Entry} {p : Slot} (h : creates p e = false) (log : List Entry) :
    sinceCreated (e :: log) p = e :: sinceCreated log p := by
  simp [sinceCreated, h]

variable {log : List Entry}

theorem mem_sinceCreated_append {es : List Entry} {p : Slot} (h : ∀ e ∈ es, creates p e = false)
    {e : Entry} (he : e ∈ sinceCreated log p) : e ∈ sinceCreated (es ++ log) p := by
  induction es with
  | nil => exact he
  | cons d rest ih =>
    rw [cons_append, sinceCreated_cons (h d mem_cons_self)]
    exact mem_cons_of_mem _ (ih fun d hd => h d (mem_cons_of_mem _ hd))

def KillsOk (log : List Entry) (s : Sys) : Prop :=
  ∀ p, (s.kern.proc p).killed = true → (s.kern.proc p).state ≠ .unused ∧ Blamed log s p

/-- Steps that set no flag, keep the pids and free no killed slot. -/
theorem KillsOk.mono {s t : Sys} (h : KillsOk log s) (es : List Entry)
    (hkilled : ∀ p, (t.kern.proc p).killed = true → (s.kern.proc p).killed = true ∧
      (t.kern.proc p).pid = (s.kern.proc p).pid ∧
      ((s.kern.proc p).state ≠ .unused → (t.kern.proc p).state ≠ .unused) ∧
      ∀ e ∈ es, creates p e = false) : KillsOk (es ++ log) t := by
  intro p hp
  obtain ⟨hold, hpid, hstate, hes⟩ := hkilled p hp
  obtain ⟨hused, hblamed⟩ := h p hold
  refine ⟨hstate hused, ?_⟩
  unfold Blamed
  rw [hpid]
  exact hblamed.imp (mem_sinceCreated_append hes) (mem_sinceCreated_append hes)

variable {s : Sys}

/-- Changing one slot without touching its flag or its pid, nor freeing it. -/
theorem KillsOk.modify {log es : List Entry} (h : KillsOk log s) (i : Slot)
    (f : Proc → Proc) (fork : Slot → ForkPc)
    (hf : (f (s.kern.proc i)).killed = true → (s.kern.proc i).killed = true ∧
      (f (s.kern.proc i)).pid = (s.kern.proc i).pid ∧
      ((s.kern.proc i).state ≠ .unused → (f (s.kern.proc i)).state ≠ .unused))
    (hes : ∀ p, ∀ e ∈ es, creates p e = false) :
    KillsOk (es ++ log) { kern := s.kern.modify i f, fork := fork } := by
  refine h.mono es fun p hp => ?_
  dsimp only at hp ⊢
  rw [Kernel.modify_proc] at hp ⊢
  split at hp
  · rename_i heq
    subst heq
    rw [if_pos rfl]
    obtain ⟨hkilled, hpid, hstate⟩ := hf hp
    exact ⟨hkilled, hpid, hstate, hes p⟩
  · rename_i hne
    rw [if_neg hne]
    exact ⟨hp, rfl, id, hes p⟩

theorem start_killsOk : KillsOk [] start := by
  intro p hp
  simp only [start, boot_proc] at hp
  split at hp <;> cases hp

/-- A new process comes out of an UNUSED slot, whose flag is clear. -/
theorem KillsOk.alloc_clean (h : KillsOk log s) {np : Slot}
    {k : Kernel} (halloc : s.kern.allocproc = some (np, k)) : (k.proc np).killed = false := by
  obtain ⟨hfree, rfl⟩ := Kernel.allocproc_eq_some halloc
  simp only [Kernel.modify_proc_self]
  by_contra hkilled
  exact (h np (by simpa using hkilled)).1 (Kernel.freeSlot_unused hfree)

theorem KillsOk.forkAlloc (h : KillsOk log s) (c : Slot) {np : Slot}
    {k : Kernel} (halloc : s.kern.allocproc = some (np, k)) :
    KillsOk (Entry.created np s.kern.nextpid c (s.kern.proc c).pid :: log)
      { kern := k, fork := Function.update s.fork c (.allocated np) } := by
  have hclean := h.alloc_clean halloc
  obtain ⟨_, rfl⟩ := Kernel.allocproc_eq_some halloc
  refine h.mono [_] fun p hp => ?_
  have hpn : p ≠ np := by
    intro heq
    subst heq
    rw [hclean] at hp
    cases hp
  dsimp only at hp ⊢
  rw [Kernel.modify_proc_ne _ _ hpn] at hp ⊢
  refine ⟨hp, rfl, id, fun e he => ?_⟩
  rw [mem_singleton.mp he]
  simp [creates, hpn.symm]

theorem creates_killCall {pid : ℤ} (p : Slot) :
    ∀ e ∈ [Entry.killCall pid], creates p e = false := by
  intro e he
  rw [mem_singleton.mp he]
  rfl

theorem KillsOk.kill (h : KillsOk log s) {pid : ℤ} {i : Slot} (hi : s.kern.findPid pid = some i)
    (hused : (s.kern.proc i).state ≠ .unused) :
    KillsOk (Entry.killCall pid :: log) { s with kern := s.kern.modify i Kernel.killOne } := by
  intro p hp
  by_cases hpi : p = i
  · subst hpi
    simp only [Blamed, Kernel.modify_proc_self, Kernel.killOne, Kernel.findPid_pid hi]
    refine ⟨?_, Or.inl ?_⟩
    · split
      · decide
      · exact hused
    · rw [sinceCreated_cons rfl]
      exact mem_cons_self
  · simp only [Blamed, Kernel.modify_proc_ne _ _ hpi] at hp ⊢
    obtain ⟨hused, hblamed⟩ := h p hp
    exact ⟨hused, hblamed.imp (mem_sinceCreated_append (creates_killCall p))
      (mem_sinceCreated_append (creates_killCall p))⟩

theorem KillsOk.fault (h : KillsOk log s) {c : Slot} (hc : s.Running c) :
    KillsOk (Entry.faulted c :: log) { s with kern := s.kern.fault c } := by
  intro p hp
  unfold Blamed
  simp only [Kernel.fault] at hp ⊢
  rw [sinceCreated_cons rfl]
  by_cases hpc : p = c
  · subst hpc
    rw [Kernel.modify_proc_self]
    refine ⟨?_, Or.inr mem_cons_self⟩
    rw [show (s.kern.proc p).state = .running from hc]
    decide
  · rw [Kernel.modify_proc_ne _ _ hpc] at hp ⊢
    obtain ⟨hused, hblamed⟩ := h p hp
    exact ⟨hused, hblamed.imp (mem_cons_of_mem _) (mem_cons_of_mem _)⟩

theorem KillsOk.exit (h : KillsOk log s) (c : Slot) :
    KillsOk log { s with kern := s.kern.exit c } := by
  refine h.mono [] fun p hp => ?_
  rw [Kernel.exit_proc] at hp ⊢
  refine ⟨hp, rfl, fun hused => ?_, by simp⟩
  dsimp only
  split
  · decide
  · split
    · decide
    · exact hused

theorem KillsOk.wakeup1 (h : KillsOk log s) (chan : Chan) :
    KillsOk log { s with kern := s.kern.wakeup1 chan } := by
  refine h.mono [] fun p hp => ?_
  rw [Kernel.wakeup1_proc, Kernel.wakeOne_eq] at hp ⊢
  refine ⟨hp, rfl, fun hused => ?_, by simp⟩
  dsimp only
  split
  · decide
  · exact hused

theorem KillsOk.effect {s t : Sys} {a : Act} {es : List Entry} (h : KillsOk log s)
    (hen : s.Enabled a) (hcareful : Careful s a) (heffect : s.Effect a t es) :
    KillsOk (es ++ log) t := by
  have hnil : ∀ p, ∀ e ∈ ([] : List Entry), creates p e = false := by simp
  cases heffect with
  | none => exact h
  | forkAlloc halloc => exact h.forkAlloc _ halloc
  | forkFail hc =>
    refine h.modify _ _ _ (fun hkilled => ?_) hnil
    rw [show (s.kern.proc _).killed = false from hcareful _ hc] at hkilled
    cases hkilled
  | forkCopy => exact h.modify _ _ _ (fun hkilled => ⟨hkilled, rfl, id⟩) hnil
  | forkDone => exact h.modify _ _ _ (fun hkilled => ⟨hkilled, rfl, fun _ => by simp⟩) hnil
  | exit c => exact h.exit c
  | reap =>
    refine h.modify _ _ _ (fun hkilled => ?_) (fun p e he => ?_)
    · cases hkilled
    · rw [mem_singleton.mp he]
      rfl
  | waitSleep => exact h.modify _ _ _ (fun hkilled => ⟨hkilled, rfl, fun _ => by simp⟩) hnil
  | killNone c pid => exact h.mono [_] fun p hp => ⟨hp, rfl, id, creates_killCall p⟩
  | kill c hfind => exact h.kill hfind (hcareful _ hfind)
  | setpriority => exact h.modify _ _ _ (fun hkilled => ⟨hkilled, rfl, id⟩) hnil
  | settickets => exact h.modify _ _ _ (fun hkilled => ⟨hkilled, rfl, id⟩) hnil
  | fault => exact h.fault hen.1
  | sleep => exact h.modify _ _ _ (fun hkilled => ⟨hkilled, rfl, fun _ => by simp⟩) hnil
  | yield => exact h.modify _ _ _ (fun hkilled => ⟨hkilled, rfl, fun _ => by simp⟩) hnil
  | wakeup chan => exact h.wakeup1 chan
  | dispatch => exact h.modify _ _ _ (fun hkilled => ⟨hkilled, rfl, fun _ => by simp⟩) hnil

/-- In a run whose kills and failed forks are careful, a process that was not the
target of a kill and took no fault since its creation is not killed, and neither
is the next process to be created. -/
theorem kill_reaches_target {log : List Entry} {s : Sys}
    (hrun : machine.Run Careful start log s) :
    (∀ p, (s.kern.proc p).state ≠ .unused → ¬ Blamed log s p →
      (s.kern.proc p).killed = false) ∧
    ∀ np k, s.kern.allocproc = some (np, k) → (k.proc np).killed = false := by
  have h : KillsOk log s :=
    hrun.invariant start_killsOk fun _ s a _ ih hcareful hstep => by
      obtain ⟨hen, rfl⟩ := Sys.step_eq_some hstep
      exact ih.effect hen hcareful (s.effect a)
  refine ⟨fun p _ hblamed => ?_, fun np k halloc => h.alloc_clean halloc⟩
  by_contra hkilled
  exact hblamed (h p (by simpa using hkilled)).2

/-- A kill of a running child, its exit and reaping, and a second fork into its slot. -/
theorem kill_reaches_target_reused_slot :
    ∃ log s, machine.Run Careful start log s ∧ Entry.killCall 2 ∈ log ∧
      (s.kern.proc 1).state = .runnable ∧ (s.kern.proc 1).killed = false := by
  obtain ⟨log, s, hrun, hkill, hstate, hblamed⟩ := Machine.exists_run_of_exec machine Careful start
    [.dispatch 0, .forkAlloc 0, .forkCopy 0, .forkDone 0, .kill 0 2, .yield 0, .dispatch 1,
      .exit 1, .dispatch 0, .wait 0, .forkAlloc 0, .forkCopy 0, .forkDone 0]
    (fun log s => Entry.killCall 2 ∈ log ∧ (s.kern.proc 1).state = .runnable ∧
      ¬ Blamed log s 1) (by decide +kernel)
  exact ⟨log, s, hrun, hkill, hstate,
    (kill_reaches_target hrun).1 1 (by rw [hstate]; decide) hblamed⟩

/-- kill(0) matches the first UNUSED slot, and the next fork starts out killed. -/
theorem kill_zero_reaches_fresh_process :
    ¬ ∀ log s, machine.Run Machine.Free start log s →
      ∀ p, (s.kern.proc p).state ≠ .unused → ¬ Blamed log s p →
        (s.kern.proc p).killed = false := by
  obtain ⟨log, s, hrun, hstate, hblamed, hkilled⟩ :=
    Machine.exists_run_of_exec machine Machine.Free start
      [.dispatch 0, .kill 0 0, .forkAlloc 0, .forkCopy 0, .forkDone 0]
      (fun log s => (s.kern.proc 1).state = .runnable ∧ ¬ Blamed log s 1 ∧
        (s.kern.proc 1).killed = true) (by decide +kernel)
  intro hclaim
  have := hclaim log s hrun 1 (by rw [hstate]; decide) hblamed
  rw [hkilled] at this
  cases this

end KernelLabs.KillTarget

import KernelLabs.ProcLife

/-!
What a step of a process does to the table as a scheduler sees it: the states of the
slots and the forks in progress. Each is an inversion over all actions, from which the
invariants of schedulers are read off.
-/
namespace KernelLabs.ProcMoves

open ProcTable ProcLife Function

/-- What a life-cycle step does to the state of slot `p`, where it changes it. -/
def Moves (s : Sys) (p : Slot) (st : ProcState) : Act → Prop
  | .forkAlloc _ => s.kern.freeSlot = some p ∧ st = .embryo
  | .forkFail c => s.fork c = .allocated p ∧ st = .unused
  | .forkDone c => s.fork c = .copied p ∧ st = .runnable
  | .exit c => p = c ∧ st = .zombie ∨ (s.kern.proc p).state = .sleeping ∧ st = .runnable
  | .wait c => p = c ∧ st = .sleeping ∨ (s.kern.proc p).state = .zombie ∧ st = .unused
  | .kill _ _ => (s.kern.proc p).state = .sleeping ∧ st = .runnable
  | .sleep c _ => p = c ∧ st = .sleeping
  | .yield c => p = c ∧ st = .runnable
  | .wakeup _ => (s.kern.proc p).state = .sleeping ∧ st = .runnable
  | .dispatch q => p = q ∧ st = .running
  | _ => False

variable {s : Sys} {a : Act}

theorem Moves.of_effect {t : Sys} {es : List Entry} (h : s.Effect a t es) (p : Slot) :
    (t.kern.proc p).state = (s.kern.proc p).state ∨ Moves s p (t.kern.proc p).state a := by
  -- a changed slot moves as its change says; the others stay as they are
  have hmodify : ∀ (i : Slot) (f : Proc → Proc),
      (p = i → Moves s p (f (s.kern.proc p)).state a) →
      ((s.kern.modify i f).proc p).state = (s.kern.proc p).state ∨
        Moves s p ((s.kern.modify i f).proc p).state a := by
    intro i f hf
    by_cases hpi : p = i
    · have hmoves := hf hpi
      subst hpi
      exact .inr (by rwa [Kernel.modify_proc_self])
    · exact .inl (by rw [Kernel.modify_proc_ne _ _ hpi])
  cases h with try dsimp only
  | none | killNone => exact .inl rfl
  | forkAlloc halloc =>
    obtain ⟨hfree, rfl⟩ := Kernel.allocproc_eq_some halloc
    dsimp only
    exact hmodify _ _ fun hp => ⟨hp ▸ hfree, rfl⟩
  | forkFail hc => exact hmodify _ _ fun hp => ⟨hp ▸ hc, rfl⟩
  | forkCopy => exact .inl (s.kern.modify_keeps Proc.state (by rfl) p)
  | forkDone hc => exact hmodify _ _ fun hp => ⟨hp ▸ hc, rfl⟩
  | exit c =>
    simp only [Moves, Kernel.exit_proc]
    by_cases hpc : p = c
    · exact .inr (.inl ⟨hpc, if_pos hpc⟩)
    · rw [if_neg hpc]
      by_cases hwakes : s.kern.ExitWakes c p
      · exact .inr (.inr ⟨hwakes.1, if_pos hwakes⟩)
      · exact .inl (if_neg hwakes)
  | reap hz =>
    exact hmodify _ _ fun hp => .inr ⟨hp ▸ (Kernel.zombieChild_eq_some hz).2, rfl⟩
  | waitSleep => exact hmodify _ _ fun hp => .inl ⟨hp, rfl⟩
  | kill c hfind =>
    by_cases hsleep : (s.kern.proc p).state = .sleeping
    · exact hmodify _ _ fun _ => ⟨hsleep, if_pos hsleep⟩
    · rw [Kernel.modify_proc]
      split
      · exact .inl (if_neg hsleep)
      · exact .inl rfl
  | setpriority => exact .inl (s.kern.modify_keeps Proc.state (by rfl) p)
  | settickets => exact .inl (s.kern.modify_keeps Proc.state (by rfl) p)
  | fault => exact .inl (s.kern.modify_keeps Proc.state (by rfl) p)
  | sleep => exact hmodify _ _ fun hp => ⟨hp, rfl⟩
  | yield => exact hmodify _ _ fun hp => ⟨hp, rfl⟩
  | wakeup chan =>
    simp only [Moves, Kernel.wakeup1_proc, Kernel.wakeOne_eq]
    by_cases hwake : (s.kern.proc p).state = .sleeping ∧ (s.kern.proc p).chan = chan
    · exact .inr ⟨hwake.1, if_pos hwake⟩
    · exact .inl (if_neg hwake)
  | dispatch => exact hmodify _ _ fun hp => ⟨hp, rfl⟩

theorem state_next (s : Sys) (a : Act) (p : Slot) :
    ((s.next a).kern.proc p).state = (s.kern.proc p).state ∨
      Moves s p ((s.next a).kern.proc p).state a :=
  Moves.of_effect (s.effect a) p

/-- A fork in progress was in progress before, and not ended by this step, or it has
just taken the free slot. -/
theorem child_next (hen : s.Enabled a) {c np : Slot} (h : ((s.next a).fork c).child = some np) :
    (s.fork c).child = some np ∧ a ≠ .forkFail c ∧ a ≠ .forkDone c ∨
      a = .forkAlloc c ∧ s.kern.freeSlot = some np ∧ ((s.next a).kern.proc np).state = .embryo ∧
        ∀ d, d ≠ c → (s.next a).fork d = s.fork d := by
  have hended : ∀ d, (update s.fork d .idle c).child = some np →
      (s.fork c).child = some np ∧ d ≠ c := by
    intro d hd
    by_cases hcd : c = d
    · subst hcd
      simp [ForkPc.child] at hd
    · rw [update_of_ne hcd] at hd
      exact ⟨hd, Ne.symm hcd⟩
  cases a with
  | forkAlloc d =>
    cases halloc : s.kern.allocproc with
    | none =>
      simp only [Sys.next, halloc] at h
      exact .inl ⟨h, by simp, by simp⟩
    | some r =>
      obtain ⟨m, k⟩ := r
      obtain ⟨hfree, rfl⟩ := Kernel.allocproc_eq_some halloc
      simp only [Sys.next, halloc] at h ⊢
      by_cases hcd : c = d
      · subst hcd
        simp only [update_self, ForkPc.child, Option.some.injEq] at h
        subst h
        exact .inr ⟨rfl, hfree, by simp, fun d hd => update_of_ne hd _ _⟩
      · rw [update_of_ne hcd] at h
        exact .inl ⟨h, by simp, by simp⟩
  | forkFail d =>
    obtain ⟨-, m, hd⟩ := hen
    simp only [Sys.next, hd] at h
    obtain ⟨hc, hne⟩ := hended d h
    exact .inl ⟨hc, by simpa using hne, by simp⟩
  | forkCopy d =>
    obtain ⟨-, m, hd⟩ := hen
    simp only [Sys.next, hd] at h
    refine .inl ⟨?_, by simp, by simp⟩
    by_cases hcd : c = d
    · subst hcd
      simpa [hd, ForkPc.child] using h
    · rwa [update_of_ne hcd] at h
  | forkDone d =>
    obtain ⟨-, m, hd⟩ := hen
    simp only [Sys.next, hd] at h
    obtain ⟨hc, hne⟩ := hended d h
    exact .inl ⟨hc, by simp, by simpa using hne⟩
  | _ => exact .inl ⟨h, by simp, by simp⟩

/-- A slot is claimed by the step that allocates it and by no other. -/
theorem claimed_of_next (hen : s.Enabled a) {p : Slot} (h : (s.next a).Claimed p) :
    s.Claimed p ∨ ∃ c, a = .forkAlloc c ∧ s.kern.freeSlot = some p := by
  rcases h with hstate | ⟨c, hc⟩
  · by_cases hold : (s.kern.proc p).state = .unused
    · rcases state_next s a p with hsame | hmoves
      · exact absurd (hsame.trans hold) hstate
      · -- the other moves start from a state that is not UNUSED, or free the slot
        have hother : ∀ st, (s.kern.proc p).state = st → st ≠ .unused → s.Claimed p :=
          fun st hst hne => absurd (hst.symm.trans hold) hne
        cases a with
        | forkAlloc d => exact .inr ⟨d, rfl, hmoves.1⟩
        | forkFail d => exact absurd hmoves.2 hstate
        | forkDone d => exact .inl (.inr ⟨d, by rw [hmoves.1]; rfl⟩)
        | exit d =>
          rcases hmoves with ⟨rfl, -⟩ | ⟨hsleep, -⟩
          · exact .inl hen.1.1.claimed
          · exact .inl (hother _ hsleep (by decide))
        | wait d =>
          rcases hmoves with ⟨rfl, -⟩ | ⟨-, hfreed⟩
          · exact .inl hen.1.claimed
          · exact absurd hfreed hstate
        | kill d pid => exact .inl (hother _ hmoves.1 (by decide))
        | sleep d chan => exact .inl (hmoves.1 ▸ Sys.Running.claimed hen)
        | yield d => exact .inl (hmoves.1 ▸ Sys.Running.claimed hen)
        | wakeup chan => exact .inl (hother _ hmoves.1 (by decide))
        | dispatch q => exact .inl (hother _ (hmoves.1 ▸ hen) (by decide))
        | _ => exact hmoves.elim
    · exact .inl (.inl hold)
  · rcases child_next hen hc with ⟨hold, -, -⟩ | ⟨hact, hfree, -, -⟩
    · exact .inl (.inr ⟨c, hold⟩)
    · exact .inr ⟨c, hact, hfree⟩

/-- The actions with which a process gives its CPU back. -/
def leaver : Act → Option Slot
  | .exit c => some c
  | .wait c => some c
  | .sleep c _ => some c
  | .yield c => some c
  | _ => none

/-- Every fork in progress has an EMBRYO of its own. -/
structure ForkOk (s : Sys) : Prop where
  embryo : ∀ c np, (s.fork c).child = some np → (s.kern.proc np).state = .embryo
  own_child : ∀ c d np, (s.fork c).child = some np → (s.fork d).child = some np → c = d

theorem forkOk_start : ForkOk start where
  embryo _ _ h := by simp [start, ForkPc.child] at h
  own_child _ _ _ h := by simp [start, ForkPc.child] at h

theorem ForkOk.embryo_next (h : ForkOk s) (hen : s.Enabled a) {c np : Slot}
    (hc : ((s.next a).fork c).child = some np) : ((s.next a).kern.proc np).state = .embryo := by
  rcases child_next hen hc with ⟨hold, hfail, hdone⟩ | ⟨-, -, hnew, -⟩
  · have hnp := h.embryo c np hold
    rcases state_next s a np with hsame | hmoves
    · rw [hsame, hnp]
    · -- the other moves start from a state that is not EMBRYO, or end this very fork
      cases a with
      | forkAlloc d => exact hmoves.2
      | forkFail d =>
        have hd : (s.fork d).child = some np := by rw [hmoves.1]; rfl
        exact absurd (by rw [h.own_child d c np hd hold]) hfail
      | forkDone d =>
        have hd : (s.fork d).child = some np := by rw [hmoves.1]; rfl
        exact absurd (by rw [h.own_child d c np hd hold]) hdone
      | exit d =>
        rcases hmoves with ⟨rfl, -⟩ | ⟨hsleep, -⟩
        · exact absurd (hen.1.1.symm.trans hnp) (by decide)
        · exact absurd (hsleep.symm.trans hnp) (by decide)
      | wait d =>
        rcases hmoves with ⟨rfl, -⟩ | ⟨hzombie, -⟩
        · exact absurd (hen.1.symm.trans hnp) (by decide)
        · exact absurd (hzombie.symm.trans hnp) (by decide)
      | kill d pid => exact absurd (hmoves.1.symm.trans hnp) (by decide)
      | sleep d chan =>
        obtain ⟨rfl, -⟩ := hmoves
        exact absurd (hen.symm.trans hnp) (by decide)
      | yield d =>
        obtain ⟨rfl, -⟩ := hmoves
        exact absurd (hen.symm.trans hnp) (by decide)
      | wakeup chan => exact absurd (hmoves.1.symm.trans hnp) (by decide)
      | dispatch q =>
        obtain ⟨rfl, -⟩ := hmoves
        exact absurd (hen.symm.trans hnp) (by decide)
      | _ => exact hmoves.elim
  · exact hnew

theorem ForkOk.next (h : ForkOk s) (hen : s.Enabled a) : ForkOk (s.next a) where
  embryo _ _ hc := h.embryo_next hen hc
  own_child c d np hc hd := by
    by_contra hcd
    have hused : ∀ e, (s.fork e).child = some np → s.kern.freeSlot ≠ some np := by
      intro e he hfree
      exact absurd ((h.embryo e np he).symm.trans (Kernel.freeSlot_unused hfree)) (by decide)
    rcases child_next hen hc with ⟨hold, -, -⟩ | ⟨-, hfree, -, hkeep⟩
    · rcases child_next hen hd with ⟨hold', -, -⟩ | ⟨-, hfree, -, -⟩
      · exact hcd (h.own_child c d np hold hold')
      · exact hused c hold hfree
    · rw [hkeep d (Ne.symm hcd)] at hd
      exact hused d hd hfree

/-- A table that differs in other fields, or by a dispatch, keeps the forks. -/
theorem ForkOk.of_kern (h : ForkOk s) {k : Kernel}
    (hk : ∀ p, (s.kern.proc p).state = .embryo → (k.proc p).state = .embryo) :
    ForkOk { s with kern := k } where
  embryo c np hc := hk np (h.embryo c np hc)
  own_child := h.own_child

/-- A RUNNING process leaves that state by its own action only. -/
theorem leaver_of_left (h : ForkOk s) (hen : s.Enabled a) {p : Slot}
    (hp : (s.kern.proc p).state = .running)
    (hleft : ((s.next a).kern.proc p).state ≠ .running) : leaver a = some p := by
  have hother : ∀ st, (s.kern.proc p).state = st → st ≠ .running → leaver a = some p :=
    fun st hst hne => absurd (hst.symm.trans hp) hne
  rcases state_next s a p with hsame | hmoves
  · exact absurd (hsame.trans hp) hleft
  · cases a with
    | forkAlloc d => exact hother _ (Kernel.freeSlot_unused hmoves.1) (by decide)
    | forkFail d => exact hother _ (h.embryo d p (by rw [hmoves.1]; rfl)) (by decide)
    | forkDone d => exact hother _ (h.embryo d p (by rw [hmoves.1]; rfl)) (by decide)
    | exit d =>
      rcases hmoves with ⟨rfl, -⟩ | ⟨hsleep, -⟩
      · rfl
      · exact hother _ hsleep (by decide)
    | wait d =>
      rcases hmoves with ⟨rfl, -⟩ | ⟨hzombie, -⟩
      · rfl
      · exact hother _ hzombie (by decide)
    | kill d pid => exact hother _ hmoves.1 (by decide)
    | sleep d chan => exact congrArg some hmoves.1.symm
    | yield d => exact congrArg some hmoves.1.symm
    | wakeup chan => exact hother _ hmoves.1 (by decide)
    | dispatch q => exact absurd hmoves.2 hleft
    | _ => exact hmoves.elim

theorem running_of_next (hen : s.Enabled a) (hsched : ∀ p, a ≠ .dispatch p) {p : Slot}
    (hp : ((s.next a).kern.proc p).state = .running) : (s.kern.proc p).state = .running := by
  have hother : ∀ st, ((s.next a).kern.proc p).state = st → st ≠ .running →
      (s.kern.proc p).state = .running := fun st hst hne => absurd (hst.symm.trans hp) hne
  rcases state_next s a p with hsame | hmoves
  · exact hsame.symm.trans hp
  · cases a with
    | dispatch q => exact absurd rfl (hsched q)
    | exit d =>
      rcases hmoves with ⟨-, hst⟩ | ⟨-, hst⟩
      · exact hother _ hst (by decide)
      · exact hother _ hst (by decide)
    | wait d =>
      rcases hmoves with ⟨-, hst⟩ | ⟨-, hst⟩
      · exact hother _ hst (by decide)
      · exact hother _ hst (by decide)
    | forkCopy d => exact hmoves.elim
    | setpriority d pid priority => exact hmoves.elim
    | settickets d number => exact hmoves.elim
    | fault d => exact hmoves.elim
    | _ => exact hother _ hmoves.2 (by decide)

end KernelLabs.ProcMoves

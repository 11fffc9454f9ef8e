import KernelLabs.FileTable
import KernelLabs.ReferenceCount
import KernelLabs.Runs

/-!
The count of every open file against the descriptors that refer to it. Inside a call
a reference may be held by a local variable, between the function that made it and
the one that stores or drops it; the invariant counts those as well, and at the end
of every call there are none.
-/
namespace KernelLabs.FileRefs

open ProcTable PanicMonad FileTable ReferenceCount Runs Function Option

/-- Every count is the number of descriptors that refer to the entry and of the
references that the call in progress holds. -/
def Counted (held : List FileId) (s : Sys) : Prop :=
  ∀ f, (s.ftable f).ref = count s.ofile f + held.count f

def Grows (s t : Sys) : Prop :=
  ∀ f, 1 ≤ (s.ftable f).ref → 1 ≤ (t.ftable f).ref ∧
    { t.ftable f with ref := 0 } = { s.ftable f with ref := 0 }

theorem Grows.refl (s : Sys) : Grows s s := fun _ h => ⟨h, rfl⟩

theorem Grows.trans {s t u : Sys} (hst : Grows s t) (htu : Grows t u) : Grows s u := by
  intro f hf
  obtain ⟨ht, hdata⟩ := hst f hf
  obtain ⟨hu, hdata'⟩ := htu f ht
  exact ⟨hu, hdata'.trans hdata⟩

section Operations

variable {held : List FileId} {s : Sys} {f : FileId} {c : Slot} {fd : Fd}

@[simp] theorem setFile_ofile (x : File) : (s.setFile f x).ofile = s.ofile := rfl

@[simp] theorem setFd_ftable (x : Option FileId) : (s.setFd c fd x).ftable = s.ftable := rfl

theorem setFd_ofile (x : Option FileId) :
    (s.setFd c fd x).ofile = update s.ofile (c, fd) x := rfl

@[simp] theorem setFd_kern (x : Option FileId) : (s.setFd c fd x).kern = s.kern := rfl

@[simp] theorem taken_ofile : (s.taken f).ofile = s.ofile := rfl

@[simp] theorem duped_ofile : (s.duped f).ofile = s.ofile := rfl

@[simp] theorem closed_ofile : (s.closed f).ofile = s.ofile := by
  unfold Sys.closed
  split <;> rfl

@[simp] theorem closed_kern : (s.closed f).kern = s.kern := by
  unfold Sys.closed
  split <;> rfl

theorem setFile_ref (g : FileId) (x : File) :
    ((s.setFile f x).ftable g).ref = if g = f then x.ref else (s.ftable g).ref := by
  by_cases h : g = f
  · subst h
    simp [Sys.setFile]
  · simp [Sys.setFile, h]

theorem setFd_other (x : Option FileId) {p : Slot} (hp : p ≠ c) (i : Fd) :
    (s.setFd c fd x).ofile (p, i) = s.ofile (p, i) := by
  unfold Sys.setFd
  exact update_of_ne (by simp [hp]) _ _

theorem setFd_self (x : Option FileId) : (s.setFd c fd x).ofile (c, fd) = x := by
  simp [Sys.setFd]

theorem setFd_ne (x : Option FileId) {p : Slot × Fd} (hp : p ≠ (c, fd)) :
    (s.setFd c fd x).ofile p = s.ofile p := by
  unfold Sys.setFd
  exact update_of_ne hp _ _

/-- The count does not depend on the order in which references are held. -/
theorem Counted.perm {held' : List FileId} (h : Counted held s) (hperm : held.Perm held') :
    Counted held' s := by
  intro g
  rw [← hperm.count_eq]
  exact h g

theorem Counted.held_pos (h : Counted (f :: held) s) : 1 ≤ (s.ftable f).ref := by
  have hf := h f
  rw [List.count_cons_self] at hf
  omega

theorem Counted.open_pos (h : Counted held s) (hopen : s.ofile (c, fd) = some f) :
    1 ≤ (s.ftable f).ref := by
  have hf := h f
  have hne : count s.ofile f ≠ 0 := by
    intro hzero
    exact count_eq_zero_iff.mp hzero (c, fd) hopen
  omega

theorem Counted.unreferenced (h : Counted held s) (hzero : (s.ftable f).ref = 0)
    (p : Slot × Fd) : s.ofile p ≠ some f := by
  have hf := h f
  have hcount : count s.ofile f = 0 := by omega
  exact count_eq_zero_iff.mp hcount p

/-- The entry of one file changes, and the references to it that are held. -/
theorem Counted.setFile {held' : List FileId} (h : Counted held s) {x : File}
    (hx : x.ref + held.count f = (s.ftable f).ref + held'.count f)
    (hothers : ∀ g, g ≠ f → held'.count g = held.count g) : Counted held' (s.setFile f x) := by
  intro g
  have hg := h g
  rw [setFile_ref, setFile_ofile]
  by_cases hgf : g = f
  · subst hgf
    rw [if_pos rfl]
    omega
  · rw [if_neg hgf, hothers g hgf]
    exact hg

theorem Counted.taken (h : Counted held s) (hzero : (s.ftable f).ref = 0) :
    Counted (f :: held) (s.taken f) := by
  refine h.setFile ?_ fun g hgf => List.count_cons_of_ne hgf.symm
  rw [List.count_cons_self]
  dsimp only
  omega

theorem Counted.duped (h : Counted held s) : Counted (f :: held) (s.duped f) := by
  refine h.setFile ?_ fun g hgf => List.count_cons_of_ne hgf.symm
  rw [List.count_cons_self]
  dsimp only
  omega

theorem Counted.closed (h : Counted (f :: held) s) : Counted held (s.closed f) := by
  have hpos := h.held_pos
  unfold Sys.closed
  split
  · refine h.setFile ?_ fun g hgf => (List.count_cons_of_ne hgf.symm).symm
    rw [List.count_cons_self]
    dsimp only
    omega
  · have hlast : Counted held (s.setFile f { s.ftable f with ref := 0, type := .none }) := by
      refine h.setFile ?_ fun g hgf => (List.count_cons_of_ne hgf.symm).symm
      rw [List.count_cons_self]
      dsimp only
      omega
    exact hlast

/-- A held reference is stored in a descriptor that was free. -/
theorem Counted.store (h : Counted (f :: held) s) (hfree : s.ofile (c, fd) = none) :
    Counted held (s.setFd c fd (some f)) := by
  intro g
  have hg := h g
  have hupd := count_update s.ofile (c, fd) (some f) g
  rw [List.count_cons] at hg
  rw [hfree] at hupd
  rw [setFd_ftable, setFd_ofile]
  simp only [reduceCtorEq, if_false, some.injEq, beq_iff_eq] at hg hupd
  omega

theorem Counted.clear (h : Counted held s) (hopen : s.ofile (c, fd) = some f) :
    Counted (f :: held) (s.setFd c fd none) := by
  intro g
  have hg := h g
  have hupd := count_update s.ofile (c, fd) none g
  rw [hopen] at hupd
  rw [setFd_ftable, setFd_ofile, List.count_cons]
  simp only [reduceCtorEq, if_false, some.injEq, beq_iff_eq] at hupd ⊢
  omega

theorem grows_setFile {x : File} (hx : 1 ≤ (s.ftable f).ref → 1 ≤ x.ref ∧
    { x with ref := 0 } = { s.ftable f with ref := 0 }) : Grows s (s.setFile f x) := by
  intro g hg
  by_cases hgf : g = f
  · subst hgf
    simpa [Sys.setFile] using hx hg
  · simp [Sys.setFile, hgf, hg]

theorem setFile_grows {x : File} (hx : 1 ≤ x.ref → 1 ≤ (s.ftable f).ref ∧
    { s.ftable f with ref := 0 } = { x with ref := 0 }) : Grows (s.setFile f x) s := by
  intro g hg
  by_cases hgf : g = f
  · subst hgf
    simp only [Sys.setFile, update_self] at hg ⊢
    exact hx hg
  · simp only [Sys.setFile, update_of_ne hgf] at hg ⊢
    exact ⟨hg, trivial⟩

theorem grows_duped : Grows s (s.duped f) := by
  refine grows_setFile fun hpos => ⟨?_, rfl⟩
  dsimp only
  omega

/-- Read backwards, fileclose brings an entry into use. -/
theorem closed_grows : Grows (s.closed f) s := by
  unfold Sys.closed
  split
  · exact setFile_grows fun _ => ⟨by omega, rfl⟩
  · refine setFile_grows (s := s) fun hpos => ?_
    dsimp only at hpos
    omega

end Operations

/-- What a call of process c that creates no process leaves behind: counts that are
right, entries in use that are still the same files, the descriptors of the other
processes, and all descriptors when it fails. -/
structure Served (c : Slot) (s : Sys) (r : Option ℤ) (t : Sys) : Prop where
  counted : Counted [] t
  kept : ∃ u, Grows s u ∧ Grows t u
  kern : t.kern = s.kern
  others : ∀ p i, p ≠ c → t.ofile (p, i) = s.ofile (p, i)
  failed : r = none → t.ofile = s.ofile

variable {s : Sys}

theorem Served.refused {c : Slot} (h : Counted [] s) : Served c s none s where
  counted := h
  kept := ⟨s, Grows.refl s, Grows.refl s⟩
  kern := rfl
  others := fun _ _ _ => rfl
  failed := fun _ => rfl

/-- Handing references back to the pipes and the inodes changes no table. -/
theorem Served.release {c : Slot} {s t : Sys} {r : Option ℤ} (h : Served c s r t)
    (x : List Release) : Served c s r (t.release x) where
  counted := h.counted
  kept := h.kept
  kern := h.kern
  others := h.others
  failed := h.failed

section Calls

variable {s : Sys} {c : Slot}

theorem sysDup_served (h : Counted [] s) (fd : ℤ) : Returns (sysDup c fd) s (Served c s) := by
  unfold sysDup
  refine returns_bind (argfd_returns s c fd ?_ fun i f hopen => ?_)
  · exact (returns_pure _).mpr (Served.refused h)
  have href : 1 ≤ (s.ftable f).ref := h.open_pos hopen
  refine returns_bind (fdalloc_returns s c f ?_ fun new hfree => ?_)
  · exact (returns_pure _).mpr (Served.refused h)
  -- the descriptor is filled before the reference it needs is counted
  refine returns_bind (filedup_returns href ((returns_pure _).mpr ?_))
  have hcounted : Counted [] ((s.duped f).setFd c new (some f)) := (h.duped (f := f)).store hfree
  exact {
    counted := hcounted
    kept := ⟨s.duped f, grows_duped, Grows.refl _⟩
    kern := rfl
    others := fun p i hp => setFd_other _ hp i
    failed := by simp }

theorem sysClose_served (h : Counted [] s) (fd : ℤ) : Returns (sysClose c fd) s (Served c s) := by
  unfold sysClose
  refine returns_bind (argfd_returns s c fd ?_ fun i f hopen => ?_)
  · exact (returns_pure _).mpr (Served.refused h)
  have hheld : Counted [f] (s.setFd c i none) := h.clear hopen
  rw [returns_modify_bind]
  refine returns_bind (fileclose_returns hheld.held_pos ((returns_pure _).mpr ?_))
  exact {
    counted := hheld.closed
    kept := ⟨s, Grows.refl s, closed_grows (s := s.setFd c i none)⟩
    kern := closed_kern
    others := by
      intro p j hp
      rw [closed_ofile]
      exact setFd_other _ hp j
    failed := by simp }

/-- An entry that was taken and given back leaves everything as it was. -/
theorem served_taken_closed (h : Counted [] s) {f : FileId} (hzero : (s.ftable f).ref = 0) :
    Served c s none ((s.taken f).closed f) where
  counted := (h.taken hzero).closed
  kept := ⟨s.taken f, grows_setFile (by omega), closed_grows⟩
  kern := closed_kern
  others := by
    intro p i _
    rw [closed_ofile, taken_ofile]
  failed := by
    intro _
    rw [closed_ofile, taken_ofile]

theorem sysOpen_served (h : Counted [] s) (target : Target) (omode : BitVec 32) :
    Returns (sysOpen c target omode) s (Served c s) := by
  cases target with
  | badArgs => exact (returns_pure _).mpr (Served.refused h)
  | missing => exact (returns_pure _).mpr (Served.refused h)
  | found ip isDir =>
    have hrefused := (Served.refused (c := c) h).release [.iput ip]
    simp only [sysOpen]
    split
    · simpa only [returns_modify_bind, returns_pure] using hrefused
    refine returns_bind (filealloc_returns s ?_ fun f hzero => ?_)
    · simpa only [returns_modify_bind, returns_pure] using hrefused
    have hheld : Counted [f] (s.taken f) := h.taken hzero
    refine returns_bind (fdalloc_returns (s.taken f) c f ?_ fun fd hfree => ?_)
    · -- no descriptor: the entry goes back
      refine returns_bind (fileclose_returns hheld.held_pos ?_)
      simp only [returns_modify_bind, returns_pure]
      exact (served_taken_closed h hzero).release [.iput ip]
    · simp only [returns_modify_bind, returns_pure]
      have hstored := hheld.store hfree
      refine {
        counted := hstored.setFile rfl fun _ _ => rfl
        kept := ⟨_, ?_, Grows.refl _⟩
        kern := rfl
        others := fun p i hp => setFd_other _ hp i
        failed := by simp }
      intro g hg
      have hgf : g ≠ f := by
        rintro rfl
        omega
      simp [Sys.setFile, Sys.setFd, Sys.taken, hgf, hg]

theorem fileclose_two_returns {α : Type} {u : Sys} {f g : FileId} {k : FileM α}
    {Q : α → Sys → Prop} (hheld : Counted [f, g] u) (hgrow : Grows s u) (hkern : u.kern = s.kern)
    (hofile : u.ofile = s.ofile) (hk : ∀ t, Served c s none t → Returns k t Q) :
    Returns (fileclose f >>= fun _ => fileclose g >>= fun _ => k) u Q := by
  have hone : Counted [g] (u.closed f) := hheld.closed
  refine returns_bind (fileclose_returns hheld.held_pos ?_)
  refine returns_bind (fileclose_returns hone.held_pos (hk _ ?_))
  exact {
    counted := hone.closed
    kept := ⟨u, hgrow, closed_grows.trans closed_grows⟩
    kern := by rw [closed_kern, closed_kern, hkern]
    others := by
      intro p i _
      rw [closed_ofile, closed_ofile, hofile]
    failed := by
      intro _
      rw [closed_ofile, closed_ofile, hofile] }

/-- pipealloc gives two entries, both held by the caller, or leaves things as they were. -/
theorem pipealloc_returns (h : Counted [] s) (mem : Option PipeId)
    {Q : Option (FileId × FileId) → Sys → Prop} (hnone : ∀ t, Served c s none t → Q none t)
    (hsome : ∀ f0 f1 t, Counted [f0, f1] t → Grows s t → t.kern = s.kern → t.ofile = s.ofile →
      Q (some (f0, f1)) t) :
    Returns (pipealloc mem) s Q := by
  unfold pipealloc
  refine returns_bind (filealloc_returns s ?_ fun f0 hzero0 => ?_)
  · exact (returns_pure _).mpr (hnone s (Served.refused h))
  have hheld0 : Counted [f0] (s.taken f0) := h.taken hzero0
  have hgrow0 : Grows s (s.taken f0) := grows_setFile (by omega)
  refine returns_bind (filealloc_returns (s.taken f0) ?_ fun f1 hzero1 => ?_)
  · refine returns_bind (fileclose_returns hheld0.held_pos ((returns_pure _).mpr ?_))
    exact hnone _ (served_taken_closed h hzero0)
  have hheld : Counted [f0, f1] ((s.taken f0).taken f1) :=
    (hheld0.taken hzero1).perm (List.Perm.swap f0 f1 [])
  have hgrow : Grows s ((s.taken f0).taken f1) := hgrow0.trans (grows_setFile (by omega))
  cases mem with
  | none =>
    exact fileclose_two_returns hheld hgrow rfl rfl fun t ht =>
      (returns_pure _).mpr (hnone t ht)
  | some p =>
    simp only [returns_modify_bind, returns_pure]
    have hfilled : Counted [f0, f1] (((s.taken f0).taken f1).setFile f0
        (pipeFile (((s.taken f0).taken f1).ftable f0) p false)) := hheld.setFile rfl fun _ _ => rfl
    refine hsome f0 f1 _ (hfilled.setFile rfl fun _ _ => rfl) ?_ rfl rfl
    -- the entries that are filled in were not in use before
    intro g hg
    obtain ⟨hg1, -⟩ := hgrow0 g hg
    have hgf0 : g ≠ f0 := by
      rintro rfl
      omega
    have hgf1 : g ≠ f1 := by
      rintro rfl
      omega
    simp [Sys.setFile, Sys.taken, hgf0, hgf1, hg]

theorem setFd_setFd_none {fd : Fd} (x : Option FileId) (hfree : s.ofile (c, fd) = none) :
    (s.setFd c fd x).setFd c fd none = s := by
  unfold Sys.setFd
  rw [update_idem, ← hfree, update_eq_self]

theorem sysPipe_served (h : Counted [] s) (argOk : Bool) (mem : Option PipeId) :
    Returns (sysPipe c argOk mem) s (Served c s) := by
  cases argOk with
  | false => exact (returns_pure _).mpr (Served.refused h)
  | true =>
    simp only [sysPipe, if_true]
    refine returns_bind (pipealloc_returns (c := c) h mem (fun t ht => ?_)
      fun rf wf t hheld hgrow hkern hofile => ?_)
    · exact (returns_pure _).mpr ht
    refine returns_bind (fdalloc_returns t c rf ?_ fun fd0 hfree0 => ?_)
    · exact fileclose_two_returns hheld hgrow hkern hofile fun u hu => (returns_pure _).mpr hu
    have hheld1 : Counted [wf] (t.setFd c fd0 (some rf)) := hheld.store hfree0
    refine returns_bind (fdalloc_returns _ c wf ?_ fun fd1 hfree1 => ?_)
    · -- the first descriptor is cleared again
      rw [returns_modify_bind, setFd_setFd_none _ hfree0]
      exact fileclose_two_returns hheld hgrow hkern hofile fun u hu => (returns_pure _).mpr hu
    · refine (returns_pure _).mpr ?_
      exact {
        counted := hheld1.store hfree1
        kept := ⟨t, hgrow, Grows.refl t⟩
        kern := hkern
        others := by
          intro p i hp
          rw [setFd_other _ hp, setFd_other _ hp, hofile]
        failed := by simp }

/-- fork's loop counts every descriptor that it copies to a process without any. -/
theorem dupFds_returns {np : Slot} (l : List Fd) (hl : l.Nodup)
    (h : Counted [] s) (hempty : ∀ i ∈ l, s.ofile (np, i) = none) :
    Returns (dupFds c np l) s fun _ t =>
      Counted [] t ∧ Grows s t ∧ t.kern = s.kern ∧
        ∀ p i, p ≠ np → t.ofile (p, i) = s.ofile (p, i) := by
  induction l generalizing s with
  | nil => exact (returns_pure _).mpr ⟨h, Grows.refl s, rfl, fun _ _ _ => rfl⟩
  | cons i rest ih =>
    obtain ⟨hi, hrest⟩ := List.nodup_cons.mp hl
    simp only [dupFds, returns_get_bind]
    cases hopen : s.ofile (c, i) with
    | none => exact ih hrest h fun j hj => hempty j (List.mem_cons_of_mem _ hj)
    | some f =>
      have href : 1 ≤ (s.ftable f).ref := h.open_pos hopen
      refine returns_bind (filedup_returns href ?_)
      rw [returns_modify_bind]
      have hfree : (s.duped f).ofile (np, i) = none := hempty i List.mem_cons_self
      have hcounted : Counted [] ((s.duped f).setFd np i (some f)) := h.duped.store hfree
      refine (ih hrest hcounted ?_).mono ?_
      · intro j hj
        have hji : (np, j) ≠ (np, i) := by
          rintro ⟨rfl⟩
          exact hi hj
        rw [setFd_ne _ hji]
        exact hempty j (List.mem_cons_of_mem _ hj)
      · rintro _ t ⟨ht, hgrow, hkern, hothers⟩
        refine ⟨ht, ?_, hkern, ?_⟩
        · exact grows_duped.trans hgrow
        · intro p j hp
          rw [hothers p j hp, setFd_other _ hp, duped_ofile]

theorem closeFds_returns (l : List Fd) (h : Counted [] s) :
    Returns (closeFds c l) s fun _ t =>
      Counted [] t ∧ Grows t s ∧ t.kern = s.kern ∧
        (∀ p i, p ≠ c → t.ofile (p, i) = s.ofile (p, i)) ∧
        ∀ i, i ∈ l ∨ s.ofile (c, i) = none → t.ofile (c, i) = none := by
  induction l generalizing s with
  | nil => exact (returns_pure _).mpr ⟨h, Grows.refl s, rfl, fun _ _ _ => rfl, by simp⟩
  | cons i rest ih =>
    simp only [closeFds, returns_get_bind]
    cases hopen : s.ofile (c, i) with
    | none =>
      refine (ih h).mono ?_
      rintro _ t ⟨ht, hgrow, hkern, hothers, hclosed⟩
      refine ⟨ht, hgrow, hkern, hothers, fun j hj => hclosed j ?_⟩
      rcases hj with hj | hj
      · rcases List.mem_cons.mp hj with rfl | hj
        · exact .inr hopen
        · exact .inl hj
      · exact .inr hj
    | some f =>
      refine returns_bind (fileclose_returns (h.open_pos hopen) ?_)
      rw [returns_modify_bind]
      -- clearing the descriptor first gives the same state
      have hswap : (s.closed f).setFd c i none = (s.setFd c i none).closed f := by
        unfold Sys.closed
        rw [apply_ite fun u : Sys => u.setFd c i none]
        rfl
      rw [hswap]
      refine (ih (h.clear hopen).closed).mono ?_
      rintro _ t ⟨ht, hgrow, hkern, hothers, hclosed⟩
      refine ⟨ht, ?_, ?_, ?_, fun j hj => hclosed j ?_⟩
      · exact hgrow.trans (closed_grows (s := s.setFd c i none))
      · rw [hkern, closed_kern, setFd_kern]
      · intro p j hp
        rw [hothers p j hp, closed_ofile, setFd_other _ hp]
      · rw [closed_ofile]
        by_cases hji : j = i
        · subst hji
          exact .inr (setFd_self _)
        · rw [setFd_ne _ (by simpa using hji)]
          rcases hj with hj | hj
          · exact .inl (List.mem_of_ne_of_mem hji hj)
          · exact .inr hj

end Calls

def Live (q : Proc) : Prop := q.state ≠ .unused ∧ q.state ≠ .zombie

instance (q : Proc) : Decidable (Live q) := by
  unfold Live
  infer_instance

/-- The counts are right, and only live processes have descriptors. -/
structure Inv (s : Sys) : Prop where
  counted : Counted [] s
  vacant : ∀ p i, ¬ Live (s.kern.proc p) → s.ofile (p, i) = none

structure Sound (s : Sys) (r : Option ℤ) (t : Sys) : Prop where
  inv : Inv t
  kept : ∃ u, Grows s u ∧ Grows t u
  failed : r = none → t.ofile = s.ofile

theorem Served.sound {c : Slot} {s t : Sys} {r : Option ℤ} (h : Served c s r t) (hinv : Inv s)
    (hlive : Live (s.kern.proc c)) : Sound s r t where
  inv := {
    counted := h.counted
    vacant := by
      intro p i hp
      rw [h.kern] at hp
      have hpc : p ≠ c := by
        rintro rfl
        exact hp hlive
      rw [h.others p i hpc]
      exact hinv.vacant p i hp }
  kept := h.kept
  failed := h.failed

section Processes

variable {s : Sys} {c : Slot}

theorem fork_sound (hinv : Inv s) (memory : Bool) : Returns (fork c memory) s (Sound s) := by
  simp only [fork, returns_get_bind]
  cases halloc : s.kern.allocproc with
  | none =>
    exact (returns_pure _).mpr ⟨hinv, ⟨s, Grows.refl s, Grows.refl s⟩, fun _ => rfl⟩
  | some r =>
    obtain ⟨np, k⟩ := r
    obtain ⟨hfree, hk⟩ := Kernel.allocproc_eq_some halloc
    have hother : ∀ p, p ≠ np → k.proc p = s.kern.proc p := by
      intro p hp
      simp only [hk, Kernel.modify_proc_ne _ _ hp]
    have hnp : ∀ i, s.ofile (np, i) = none := by
      intro i
      exact hinv.vacant np i (by simp [Live, Kernel.freeSlot_unused hfree])
    simp only [returns_modify_bind]
    cases memory with
    | false =>
      simp only [Bool.false_eq_true, if_false, returns_modify_bind, returns_pure]
      refine ⟨⟨hinv.counted, ?_⟩, ⟨s, Grows.refl s, Grows.refl s⟩, fun _ => rfl⟩
      intro p i hp
      by_cases hpn : p = np
      · subst hpn
        exact hnp i
      · simp only [Kernel.forkFail, Kernel.modify_proc_ne _ _ hpn, hother p hpn] at hp
        exact hinv.vacant p i hp
    | true =>
      simp only [if_true, returns_modify_bind]
      have hstart : Counted [] { s with kern := k.forkCopy c np } := hinv.counted
      refine returns_bind ((dupFds_returns _ (List.nodup_finRange NOFILE) hstart
        fun i _ => hnp i).mono ?_)
      rintro _ t ⟨hcounted, hgrow, hkern, hothers⟩
      rw [returns_modify_bind, returns_get_bind, returns_pure]
      refine ⟨⟨hcounted, ?_⟩, ⟨t, hgrow, Grows.refl t⟩, by simp⟩
      intro p i hp
      simp only [hkern, Kernel.forkDone] at hp
      have hpn : p ≠ np := by
        rintro rfl
        rw [Kernel.modify_proc_self] at hp
        simp [Live] at hp
      simp only [Kernel.forkCopy, Kernel.modify_proc_ne _ _ hpn, hother p hpn] at hp
      rw [hothers p i hpn]
      exact hinv.vacant p i hp

theorem exit_sound (hinv : Inv s) (hinit : s.kern.initproc ≠ some c) :
    Returns (exit c) s (Sound s) := by
  simp only [exit, returns_get_bind, if_neg hinit]
  refine returns_bind ((closeFds_returns _ hinv.counted).mono ?_)
  rintro _ t ⟨hcounted, hgrow, hkern, hothers, hclosed⟩
  rw [returns_modify_bind, returns_pure]
  refine ⟨⟨hcounted, ?_⟩, ⟨s, Grows.refl s, hgrow⟩, by simp⟩
  intro p i hp
  by_cases hpc : p = c
  · subst hpc
    exact hclosed i (.inl (List.mem_finRange i))
  · simp only [hkern, Kernel.exit_proc, hpc, if_false] at hp
    rw [hothers p i hpc]
    refine hinv.vacant p i fun hlive => hp ?_
    unfold Live
    split
    · exact ⟨by simp, by simp⟩
    · exact hlive

end Processes

inductive Call
  | open (target : Target) (omode : BitVec 32)
  | dup (fd : ℤ)
  | close (fd : ℤ)
  | pipe (argOk : Bool) (mem : Option PipeId)
  | fork (memory : Bool)
  | exit
  deriving DecidableEq

def Call.run (c : Slot) : Call → FileM (Option ℤ)
  | .open target omode => sysOpen c target omode
  | .dup fd => sysDup c fd
  | .close fd => sysClose c fd
  | .pipe argOk mem => sysPipe c argOk mem
  | .fork memory => FileTable.fork c memory
  | .exit => FileTable.exit c

/-- The other changes of the process table: a child is reaped, a process sleeps,
yields, is woken, dispatched or killed. -/
inductive Life
  | wait (c : Slot)
  | sleep (c : Slot) (chan : Chan)
  | yield (c : Slot)
  | wakeup (chan : Chan)
  | dispatch (p : Slot)
  | kill (pid : ℤ)

def Life.next (k : Kernel) : Life → Kernel
  | .wait c => (k.wait c).2
  | .sleep c chan => k.sleep c chan
  | .yield c => k.yield c
  | .wakeup chan => k.wakeup1 chan
  | .dispatch p => k.dispatch p
  | .kill pid => (k.kill pid).2

inductive Act
  | call (c : Slot) (x : Call)
  | life (a : Life)

/-- A call is made by a RUNNING process, and exit by one that is not init. -/
def Callable (s : Sys) (c : Slot) (x : Call) : Prop :=
  (s.kern.proc c).state = .running ∧ (x = .exit → s.kern.initproc ≠ some c)

def Life.Enabled (k : Kernel) : Life → Prop
  | .wait c => (k.proc c).state = .running
  | .sleep c _ => (k.proc c).state = .running
  | .yield c => (k.proc c).state = .running
  | .wakeup _ => True
  | .dispatch p => (k.proc p).state = .runnable
  | .kill _ => True

instance (s : Sys) (c : Slot) (x : Call) : Decidable (Callable s c x) :=
  inferInstanceAs (Decidable (_ ∧ (_ → _)))

instance (k : Kernel) (a : Life) : Decidable (a.Enabled k) := by
  cases a <;> unfold Life.Enabled <;> infer_instance

/-- A call that panics makes no step; the log keeps the results of the calls. -/
def machine : Machine Sys Act (Slot × Option ℤ) where
  step s
    | .call c x =>
      if Callable s c x then
        match (x.run c).run s with
        | .ok _ t => some t
        | .error _ _ => none
      else none
    | .life a => if a.Enabled s.kern then some { s with kern := a.next s.kern } else none
  emit s
    | .call c x =>
      match (x.run c).run s with
      | .ok r _ => [(c, r)]
      | .error _ _ => []
    | .life _ => []

def start : Sys where
  kern := boot
  ftable := fun _ =>
    { type := .none, ref := 0, readable := false, writable := false, pipe := 0, ip := 0, off := 0 }
  ofile := fun _ => none
  released := []

theorem call_sound {c : Slot} {x : Call} (hinv : Inv s) (hcall : Callable s c x) :
    Returns (x.run c) s (Sound s) := by
  have hlive : Live (s.kern.proc c) := by
    simp [Live, hcall.1]
  cases x with
  | «open» target omode =>
    exact (sysOpen_served hinv.counted target omode).mono fun _ _ h => h.sound hinv hlive
  | dup fd => exact (sysDup_served hinv.counted fd).mono fun _ _ h => h.sound hinv hlive
  | close fd => exact (sysClose_served hinv.counted fd).mono fun _ _ h => h.sound hinv hlive
  | pipe argOk mem =>
    exact (sysPipe_served hinv.counted argOk mem).mono fun _ _ h => h.sound hinv hlive
  | fork memory => exact fork_sound hinv memory
  | exit => exact exit_sound hinv (hcall.2 rfl)

/-- The other changes of the table bring no process to an end. -/
theorem live_next {k : Kernel} (a : Life) {p : Slot} (hlive : Live (k.proc p)) :
    Live ((a.next k).proc p) := by
  have hmodify : ∀ (q : Slot) (g : Proc → Proc), (q = p → Live (g (k.proc q))) →
      Live ((k.modify q g).proc p) := by
    intro q g hg
    by_cases hpq : p = q
    · subst hpq
      rw [Kernel.modify_proc_self]
      exact hg rfl
    · rwa [Kernel.modify_proc_ne _ _ hpq]
  cases a with
  | wait c =>
    obtain ⟨z, hz, hwait⟩ | hwait | hwait := k.wait_cases c
    · simp only [Life.next, hwait]
      refine hmodify z _ ?_
      rintro rfl
      exact absurd (Kernel.zombieChild_eq_some hz).2 hlive.2
    · simpa only [Life.next, hwait] using hlive
    · simp only [Life.next, hwait]
      exact hmodify c _ fun _ => by simp [Live]
  | sleep c chan =>
    simp only [Life.next, Kernel.sleep]
    exact hmodify c _ fun _ => by simp [Live]
  | yield c =>
    simp only [Life.next, Kernel.yield]
    exact hmodify c _ fun _ => by simp [Live]
  | wakeup chan =>
    simp only [Life.next, Kernel.wakeup1_proc, Kernel.wakeOne_eq]
    unfold Live
    split
    · exact ⟨by simp, by simp⟩
    · exact hlive
  | dispatch q =>
    simp only [Life.next, Kernel.dispatch]
    exact hmodify q _ fun _ => by simp [Live]
  | kill pid =>
    obtain ⟨-, hkill⟩ | ⟨q, -, hkill⟩ := k.kill_cases pid
    · simpa only [Life.next, hkill] using hlive
    · simp only [Life.next, hkill]
      refine hmodify q _ ?_
      rintro rfl
      unfold Live Kernel.killOne
      split
      · exact ⟨by simp, by simp⟩
      · exact hlive

theorem inv_step {s t : Sys} {a : Act} (hinv : Inv s) (hstep : machine.step s a = some t) :
    Inv t := by
  cases a with
  | call c x =>
    simp only [machine] at hstep
    split at hstep
    · rename_i hcall
      obtain ⟨r, u, hrun, hsound⟩ := call_sound hinv hcall
      rw [hrun] at hstep
      obtain rfl := some.inj hstep
      exact hsound.inv
    · cases hstep
  | life a =>
    simp only [machine] at hstep
    split at hstep
    · obtain rfl := some.inj hstep
      refine ⟨hinv.counted, ?_⟩
      intro p i hp
      exact hinv.vacant p i fun hlive => hp (live_next a hlive)
    · cases hstep

theorem inv_start : Inv start where
  counted := by
    intro f
    have hzero : count start.ofile f = 0 := count_eq_zero_iff.mpr fun i => by simp [start]
    rw [hzero]
    rfl
  vacant := fun _ _ _ => rfl

theorem inv_of_run {log : List (Slot × Option ℤ)}
    (hrun : machine.Run Machine.Free start log s) : Inv s := by
  refine Machine.Run.invariant (P := fun _ s => Inv s) inv_start ?_ hrun
  intro _ s a t hinv _ hstep
  exact inv_step hinv hstep

def liveDescriptors (s : Sys) (d : Slot × Fd) : Option FileId :=
  if Live (s.kern.proc d.1) then s.ofile d else none

theorem Inv.ref_eq (h : Inv s) (f : FileId) : (s.ftable f).ref = count (liveDescriptors s) f := by
  have hsame : liveDescriptors s = s.ofile := by
    funext d
    unfold liveDescriptors
    split
    · rfl
    · rename_i hdead
      exact (h.vacant d.1 d.2 hdead).symm
  rw [hsame, h.counted f]
  simp

/-- In every run the count of each ftable entry is the number of descriptors of live
processes that refer to it. Every call then returns without a panic, in a state with
right counts again; no entry is handed out or becomes another file while a descriptor
refers to it; and a call that fails leaves all descriptor tables as they were. -/
theorem file_refs {log : List (Slot × Option ℤ)} {s : Sys}
    (hrun : machine.Run Machine.Free start log s) :
    (∀ f, (s.ftable f).ref = count (liveDescriptors s) f) ∧
      (∀ f, s.freeFile = some f → ∀ d, s.ofile d ≠ some f) ∧
      ∀ c x, Callable s c x → ∃ r t, (x.run c).run s = .ok r t ∧
        (∀ f, (t.ftable f).ref = count (liveDescriptors t) f) ∧
        (∀ d f, s.ofile d = some f → t.ofile d = some f →
          { t.ftable f with ref := 0 } = { s.ftable f with ref := 0 }) ∧
        (r = none → t.ofile = s.ofile) := by
  have hinv := inv_of_run hrun
  refine ⟨hinv.ref_eq, fun f hf d => hinv.counted.unreferenced (Sys.freeFile_eq_some hf) d, ?_⟩
  intro c x hcall
  obtain ⟨r, t, hret, hsound⟩ := call_sound hinv hcall
  refine ⟨r, t, hret, hsound.inv.ref_eq, ?_, hsound.failed⟩
  intro ⟨p, i⟩ f hs ht
  obtain ⟨u, hgrow, hgrow'⟩ := hsound.kept
  obtain ⟨-, hdata⟩ := hgrow f (hinv.counted.open_pos hs)
  obtain ⟨-, hdata'⟩ := hgrow' f (hsound.inv.counted.open_pos ht)
  exact hdata'.symm.trans hdata

/-- init opens a file, dups it and forks, so that the entry has four descriptors; the
child exits, and init's pipe fails for want of a page. -/
theorem file_refs_fork_exit :
    ∃ log s, machine.Run Machine.Free start log s ∧
      (∀ f, (s.ftable f).ref = count (liveDescriptors s) f) ∧
      (log.map Prod.snd = [none, some 0, some 2, some 1, some 0] ∧
        (s.ftable 0).ref = 2 ∧ s.ofile (1, 0) = none) := by
  obtain ⟨log, s, hrun, hP⟩ := Machine.exists_run_of_exec machine Machine.Free start
    [.life (.dispatch 0), .call 0 (.open (.found 7 false) O_RDWR), .call 0 (.dup 0),
      .call 0 (.fork true), .life (.dispatch 1), .call 1 .exit, .call 0 (.pipe true none)]
    (fun log s => log.map Prod.snd = [none, some 0, some 2, some 1, some 0] ∧
      (s.ftable 0).ref = 2 ∧ s.ofile (1, 0) = none)
    (by decide +kernel)
  exact ⟨log, s, hrun, (file_refs hrun).1, hP⟩

end KernelLabs.FileRefs

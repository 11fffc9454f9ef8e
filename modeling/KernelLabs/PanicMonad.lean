import Mathlib.Logic.Basic

/-!
Pre- and postconditions for stateful computations that may stop with an error. A
computation is taken to return from a state when it ends there without an error, in
a result and a state that meet the postcondition; the weaker form admits the errors of
a given kind as well, and no others. The rules follow the constructs of do notation, so
that a specification of a composed computation is assembled from those of its parts.
-/
namespace KernelLabs.PanicMonad

open EStateM

universe u

variable {ε σ α β : Type u}

/-- From `s` the computation ends without an error, as `Q` says. -/
def Returns (x : EStateM ε σ α) (s : σ) (Q : α → σ → Prop) : Prop :=
  ∃ r t, x.run s = .ok r t ∧ Q r t

/-- From `s` the computation ends as `Q` says or with an error that `E` admits. -/
def Ends (E : ε → Prop) (x : EStateM ε σ α) (s : σ) (Q : α → σ → Prop) : Prop :=
  match x.run s with
  | .ok r t => Q r t
  | .error e _ => E e

variable {t : σ}

section Returns

variable {x : EStateM ε σ α} {f : α → EStateM ε σ β} {s : σ} {Q Q' : α → σ → Prop}
  {P : β → σ → Prop}

theorem Returns.mono (h : Returns x s Q) (himp : ∀ r t, Q r t → Q' r t) : Returns x s Q' := by
  obtain ⟨r, t, hrun, hQ⟩ := h
  exact ⟨r, t, hrun, himp r t hQ⟩

theorem Returns.of_ok (h : Returns x s Q) {r : α} (hrun : x.run s = .ok r t) : Q r t := by
  obtain ⟨r', t', hrun', hQ⟩ := h
  rw [hrun] at hrun'
  obtain ⟨rfl, rfl⟩ := EStateM.Result.ok.inj hrun'
  exact hQ

/-- A computation has one end. -/
theorem Returns.both (h : Returns x s Q) (h' : Returns x s Q') : ∃ r t, Q r t ∧ Q' r t := by
  obtain ⟨r, t, hrun, hQ⟩ := h
  obtain ⟨r', t', hrun', hQ'⟩ := h'
  rw [hrun] at hrun'
  obtain ⟨rfl, rfl⟩ := EStateM.Result.ok.inj hrun'
  exact ⟨r, t, hQ, hQ'⟩

/-- The rest of a computation is judged where its first part ends. -/
theorem returns_bind (h : Returns x s fun r t => Returns (f r) t P) : Returns (x >>= f) s P := by
  obtain ⟨r, t, hrun, r', t', hrun', hP⟩ := h
  refine ⟨r', t', ?_, hP⟩
  rw [run_bind, hrun]
  exact hrun'

@[simp] theorem returns_pure (a : α) : Returns (pure a : EStateM ε σ α) s Q ↔ Q a s := by
  constructor
  · rintro ⟨r, t, hrun, hQ⟩
    cases hrun
    exact hQ
  · intro hQ
    exact ⟨a, s, rfl, hQ⟩

@[simp] theorem returns_get_bind (f : σ → EStateM ε σ β) :
    Returns (get >>= f) s P ↔ Returns (f s) s P := Iff.rfl

@[simp] theorem returns_set_bind (t : σ) (f : PUnit.{u + 1} → EStateM ε σ β) :
    Returns (set t >>= f) s P ↔ Returns (f ⟨⟩) t P := Iff.rfl

@[simp] theorem returns_set (t : σ) {Q : PUnit.{u + 1} → σ → Prop} :
    Returns (set t : EStateM ε σ PUnit.{u + 1}) s Q ↔ Q ⟨⟩ t := returns_pure (s := t) PUnit.unit

@[simp] theorem returns_modify_bind (g : σ → σ) (f : PUnit.{u + 1} → EStateM ε σ β) :
    Returns (modify g >>= f) s P ↔ Returns (f ⟨⟩) (g s) P := Iff.rfl

@[simp] theorem returns_modify (g : σ → σ) {Q : PUnit.{u + 1} → σ → Prop} :
    Returns (modify g : EStateM ε σ PUnit.{u + 1}) s Q ↔ Q ⟨⟩ (g s) :=
  returns_pure (s := g s) PUnit.unit

/-- A loop over a list keeps what every turn keeps. -/
theorem returns_forM {ι : Type u} {body : ι → EStateM ε σ PUnit.{u + 1}} {I : σ → Prop} (l : List ι)
    (hbody : ∀ j ∈ l, ∀ t, I t → Returns (body j) t fun _ u => I u) (hstart : I s) :
    Returns (l.forM body) s fun _ t => I t := by
  induction l generalizing s with
  | nil => exact (returns_pure _).mpr hstart
  | cons j rest ih =>
    refine returns_bind ((hbody j List.mem_cons_self s hstart).mono fun _ t ht => ?_)
    exact ih (fun k hk => hbody k (List.mem_cons_of_mem j hk)) ht

end Returns

section Ends

variable {E : ε → Prop} {x : EStateM ε σ α} {f : α → EStateM ε σ β} {s : σ} {Q Q' : α → σ → Prop}
  {P : β → σ → Prop}

theorem Ends.of_ok (h : Ends E x s Q) {r : α} (hrun : x.run s = .ok r t) : Q r t := by
  rw [Ends, hrun] at h
  exact h

theorem Ends.of_error (h : Ends E x s Q) {e : ε} (hrun : x.run s = .error e t) : E e := by
  rw [Ends, hrun] at h
  exact h

theorem Ends.mono (h : Ends E x s Q) (himp : ∀ r t, Q r t → Q' r t) : Ends E x s Q' := by
  unfold Ends at h ⊢
  split <;> rename_i hrun <;> rw [hrun] at h
  · exact himp _ _ h
  · exact h

theorem Ends.mono_error (h : Ends E x s Q) {E' : ε → Prop} (herror : ∀ e, E e → E' e) :
    Ends E' x s Q := by
  unfold Ends at h ⊢
  split <;> rename_i hrun <;> rw [hrun] at h
  · exact h
  · exact herror _ h

theorem Returns.ends (h : Returns x s Q) : Ends E x s Q := by
  obtain ⟨r, t, hrun, hQ⟩ := h
  rw [Ends, hrun]
  exact hQ

theorem Ends.both (h : Ends E x s Q) {E' : ε → Prop} (h' : Ends E' x s Q') :
    Ends (fun e => E e ∧ E' e) x s fun r t => Q r t ∧ Q' r t := by
  unfold Ends at h h' ⊢
  split <;> rename_i hrun <;> rw [hrun] at h h'
  · exact ⟨h, h'⟩
  · exact ⟨h, h'⟩

/-- Where no error is admitted, the computation returns. -/
theorem Ends.returns (h : Ends E x s Q) (hE : ∀ e, ¬E e) : Returns x s Q := by
  unfold Ends at h
  cases hrun : x.run s with
  | ok r t =>
    rw [hrun] at h
    exact ⟨r, t, hrun, h⟩
  | error e t =>
    rw [hrun] at h
    exact absurd h (hE e)

/-- A computation in which every error is expected. -/
theorem ends_any (x : EStateM ε σ α) (s : σ) : Ends (fun _ => True) x s fun _ _ => True := by
  unfold Ends
  split <;> trivial

theorem ends_iff_of_ok {r : α} (hrun : x.run s = .ok r t) : Ends E x s Q ↔ Q r t := by
  rw [Ends, hrun]

theorem ends_bind_iff : Ends E (x >>= f) s P ↔ Ends E x s fun r t => Ends E (f r) t P := by
  unfold Ends
  rw [run_bind]
  cases x.run s <;> exact Iff.rfl

theorem ends_bind (h : Ends E x s fun r t => Ends E (f r) t P) : Ends E (x >>= f) s P :=
  ends_bind_iff.mpr h

@[simp] theorem ends_pure (a : α) : Ends E (pure a : EStateM ε σ α) s Q ↔ Q a s := Iff.rfl

@[simp] theorem ends_throw (e : ε) : Ends E (throw e : EStateM ε σ α) s Q ↔ E e := Iff.rfl

@[simp] theorem ends_get_bind (f : σ → EStateM ε σ β) :
    Ends E (get >>= f) s P ↔ Ends E (f s) s P := Iff.rfl

@[simp] theorem ends_set_bind (t : σ) (f : PUnit.{u + 1} → EStateM ε σ β) :
    Ends E (set t >>= f) s P ↔ Ends E (f ⟨⟩) t P := Iff.rfl

@[simp] theorem ends_set (t : σ) {Q : PUnit.{u + 1} → σ → Prop} :
    Ends E (set t : EStateM ε σ PUnit.{u + 1}) s Q ↔ Q ⟨⟩ t := Iff.rfl

@[simp] theorem ends_modify_bind (g : σ → σ) (f : PUnit.{u + 1} → EStateM ε σ β) :
    Ends E (modify g >>= f) s P ↔ Ends E (f ⟨⟩) (g s) P := Iff.rfl

@[simp] theorem ends_modify (g : σ → σ) {Q : PUnit.{u + 1} → σ → Prop} :
    Ends E (modify g : EStateM ε σ PUnit.{u + 1}) s Q ↔ Q ⟨⟩ (g s) := Iff.rfl

/-- A loop over a list keeps what is said of the places that remain. -/
theorem ends_forM {ι : Type u} {f : ι → EStateM ε σ PUnit.{u + 1}} {I : List ι → σ → Prop}
    (hbody : ∀ j rest t, I (j :: rest) t → Ends E (f j) t fun _ u => I rest u)
    (l : List ι) (hstart : I l s) : Ends E (l.forM f) s fun _ t => I [] t := by
  induction l generalizing s with
  | nil => exact hstart
  | cons j rest ih => exact ends_bind ((hbody j rest s hstart).mono fun _ _ h => ih h)

end Ends

/-- From `s` the computation ends as `Q` says, or with an error and in a state that `E`
admits together. -/
def Halts (E : ε → σ → Prop) (x : EStateM ε σ α) (s : σ) (Q : α → σ → Prop) : Prop :=
  match x.run s with
  | .ok r t => Q r t
  | .error e t => E e t

section Halts

variable {E E' : ε → σ → Prop} {x : EStateM ε σ α} {f : α → EStateM ε σ β} {s : σ}
  {Q Q' : α → σ → Prop} {P : β → σ → Prop}

theorem halts_iff_of_ok {r : α} (hrun : x.run s = .ok r t) : Halts E x s Q ↔ Q r t := by
  rw [Halts, hrun]

theorem halts_iff_of_error {e : ε} (hrun : x.run s = .error e t) : Halts E x s Q ↔ E e t := by
  rw [Halts, hrun]

theorem Halts.ends (h : Halts E x s Q) {E₁ : ε → Prop} (herror : ∀ e t, E e t → E₁ e) :
    Ends E₁ x s Q := by
  unfold Halts at h
  unfold Ends
  split <;> rename_i hrun <;> rw [hrun] at h
  · exact h
  · exact herror _ _ h

theorem Halts.mono (h : Halts E x s Q) (herror : ∀ e t, E e t → E' e t)
    (himp : ∀ r t, Q r t → Q' r t) : Halts E' x s Q' := by
  unfold Halts at h ⊢
  cases hrun : x.run s <;> rw [hrun] at h
  · exact himp _ _ h
  · exact herror _ _ h

/-- What follows from two descriptions of the same end. -/
theorem Halts.both {P : Prop} (h : Halts E x s Q) (h' : Halts E' x s Q')
    (herror : ∀ e t, E e t → E' e t → P) (hstate : ∀ r t, Q r t → Q' r t → P) : P := by
  unfold Halts at h h'
  cases hrun : x.run s <;> rw [hrun] at h h'
  · exact hstate _ _ h h'
  · exact herror _ _ h h'

theorem halts_bind_iff : Halts E (x >>= f) s P ↔ Halts E x s fun r t => Halts E (f r) t P := by
  unfold Halts
  rw [run_bind]
  cases x.run s <;> exact Iff.rfl

@[simp] theorem halts_pure (a : α) : Halts E (pure a : EStateM ε σ α) s Q ↔ Q a s := Iff.rfl

end Halts

/-- How a computation ends, without the state. -/
def outcome (x : EStateM ε σ α) (s : σ) : Except ε α :=
  match x.run s with
  | .ok r _ => .ok r
  | .error e _ => .error e

theorem outcome_bind {x : EStateM ε σ α} {s : σ} {r : α} (hrun : x.run s = .ok r t)
    (f : α → EStateM ε σ β) : outcome (x >>= f) s = outcome (f r) t := by
  rw [outcome, run_bind, hrun]
  rfl

end KernelLabs.PanicMonad

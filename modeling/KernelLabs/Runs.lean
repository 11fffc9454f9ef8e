import Mathlib.Logic.Basic

/-!
Finite runs of a machine whose step is a partial function of the action.
A step may write entries to a log that the machine never reads; the log is
kept newest first, so that the history of a run is read from its head. A guard
restricts the actions a run may take, which is how a property that needs a
condition on every step of a run is stated.
-/
namespace KernelLabs.Runs

/-- A partial step for every action, and the entries that it adds to the log. -/
structure Machine (σ α ω : Type*) where
  step : σ → α → Option σ
  emit : σ → α → List ω

namespace Machine

variable {σ α ω : Type*}

/-- The runs from `start` in which every action meets the guard. -/
inductive Run (M : Machine σ α ω) (guard : σ → α → Prop) (start : σ) : List ω → σ → Prop
  | nil : Run M guard start [] start
  | snoc {log : List ω} {s t : σ} (a : α) (hrun : Run M guard start log s)
      (hguard : guard s a) (hstep : M.step s a = some t) :
      Run M guard start (M.emit s a ++ log) t

/-- The guard that admits every action. -/
def Free (_ : σ) (_ : α) : Prop := True

instance (s : σ) (a : α) : Decidable (Free s a) := inferInstanceAs (Decidable True)

variable {M : Machine σ α ω} {guard : σ → α → Prop}

/-- What holds at the start and is kept by every admitted step holds throughout. -/
theorem Run.invariant {start : σ}
    {P : List ω → σ → Prop} (hstart : P [] start)
    (hstep : ∀ log s a t, P log s → guard s a → M.step s a = some t → P (M.emit s a ++ log) t)
    {log : List ω} {s : σ} (hrun : M.Run guard start log s) : P log s := by
  induction hrun with
  | nil => exact hstart
  | snoc a _ hguard hs ih => exact hstep _ _ a _ ih hguard hs

/-- Weakening the guard keeps a run. -/
theorem Run.mono {guard guard' : σ → α → Prop} {start : σ} (himp : ∀ s a, guard s a → guard' s a)
    {log : List ω} {s : σ} (hrun : M.Run guard start log s) : M.Run guard' start log s := by
  induction hrun with
  | nil => exact Run.nil
  | snoc a _ hguard hs ih => exact Run.snoc a ih (himp _ _ hguard) hs

/-- Running a list of actions, stopping where the guard or the step refuses one. -/
def exec (M : Machine σ α ω) (guard : σ → α → Prop) [∀ s a, Decidable (guard s a)]
    (log : List ω) (s : σ) : List α → Option (List ω × σ)
  | [] => some (log, s)
  | a :: rest =>
      if guard s a then
        match M.step s a with
        | none => none
        | some t => M.exec guard (M.emit s a ++ log) t rest
      else none

theorem Run.exec [∀ s a, Decidable (guard s a)] {start : σ} (acts : List α) {log log' : List ω}
    {s t : σ} (hrun : M.Run guard start log s) (h : M.exec guard log s acts = some (log', t)) :
    M.Run guard start log' t := by
  induction acts generalizing log s with
  | nil =>
    simp only [Machine.exec, Option.some.injEq, Prod.mk.injEq] at h
    obtain ⟨rfl, rfl⟩ := h
    exact hrun
  | cons a rest ih =>
    simp only [Machine.exec] at h
    split at h
    · rename_i hguard
      split at h
      · simp at h
      · rename_i u hu
        exact ih (Run.snoc a hrun hguard hu) h
    · simp at h

/-- A decidable property of a list of actions executed behind a run gives a run with that
property. -/
theorem Run.exists_exec [∀ s a, Decidable (guard s a)] {start s : σ} {log : List ω}
    (hrun : M.Run guard start log s) (acts : List α) (P : List ω → σ → Prop)
    [∀ log s, Decidable (P log s)]
    (h : (M.exec guard log s acts).any (fun r => P r.1 r.2) = true) :
    ∃ log t, M.Run guard start log t ∧ P log t := by
  cases hexec : M.exec guard log s acts with
  | none => simp [hexec] at h
  | some r =>
    obtain ⟨log', t⟩ := r
    refine ⟨log', t, Run.exec acts hrun hexec, ?_⟩
    simpa [hexec] using h

theorem exists_run_of_exec (M : Machine σ α ω) (guard : σ → α → Prop)
    [∀ s a, Decidable (guard s a)] (start : σ) (acts : List α) (P : List ω → σ → Prop)
    [∀ log s, Decidable (P log s)]
    (h : (M.exec guard [] start acts).any (fun r => P r.1 r.2) = true) :
    ∃ log t, M.Run guard start log t ∧ P log t :=
  Run.nil.exists_exec acts P h

end Machine

end KernelLabs.Runs

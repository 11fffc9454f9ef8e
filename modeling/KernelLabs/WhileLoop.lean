import Mathlib.Tactic.Linarith

/-!
A while loop with a bound on its rounds, the rule that carries an invariant and a measure
through it, and the loop that walks down an interval of indices until a test succeeds.
-/
namespace KernelLabs.WhileLoop

open Option

variable {σ : Type*}

/-- At most the given number of rounds of `while (test s) s = body s`. -/
def whileLoop (test : σ → Bool) (body : σ → σ) : ℕ → σ → σ
  | 0, s => s
  | n + 1, s => if test s then whileLoop test body n (body s) else s

/-- A measure that every round makes smaller bounds the rounds: the loop comes to its end,
and what every round keeps holds there. -/
theorem whileLoop_spec (test : σ → Bool) (body : σ → σ) (I : σ → Prop) (μ : σ → ℕ)
    (hround : ∀ s, I s → test s = true → I (body s) ∧ μ (body s) < μ s) :
    ∀ (n : ℕ) (s : σ), I s → μ s < n →
      I (whileLoop test body n s) ∧ test (whileLoop test body n s) = false := by
  intro n
  induction n with
  | zero =>
    intro s _ hn
    omega
  | succ n ih =>
    intro s hs hn
    rw [whileLoop]
    cases htest : test s with
    | false => exact ⟨hs, htest⟩
    | true =>
      obtain ⟨hkept, hless⟩ := hround s hs htest
      have hbound : μ (body s) < n := by omega
      exact ih (body s) hkept hbound

/-- A loop that has come to its end is not changed by more rounds. -/
theorem whileLoop_of_stopped {test : σ → Bool} {body : σ → σ} {n m : ℕ} {s : σ} (hnm : n ≤ m)
    (hstop : test (whileLoop test body n s) = false) :
    whileLoop test body m s = whileLoop test body n s := by
  induction n generalizing m s with
  | zero =>
    rw [whileLoop] at hstop ⊢
    cases m with
    | zero => rfl
    | succ m => rw [whileLoop, if_neg (by simp [hstop])]
  | succ n ih =>
    obtain ⟨m, rfl⟩ : ∃ k, m = k + 1 := ⟨m - 1, by omega⟩
    rw [whileLoop] at hstop ⊢
    rw [whileLoop]
    cases htest : test s with
    | false => rfl
    | true =>
      rw [htest, if_pos rfl] at hstop
      rw [if_pos rfl, if_pos rfl]
      exact ih (by omega) hstop

/-- A map that carries one loop's rounds to another's carries the loops. -/
theorem whileLoop_map {τ : Type*} {test : σ → Bool} {body : σ → σ} {test' : τ → Bool}
    {body' : τ → τ} (f : σ → τ) (htest : ∀ s, test' (f s) = test s)
    (hbody : ∀ s, f (body s) = body' (f s)) (n : ℕ) (s : σ) :
    f (whileLoop test body n s) = whileLoop test' body' n (f s) := by
  induction n generalizing s with
  | zero => rfl
  | succ n ih =>
    rw [whileLoop, whileLoop, htest]
    cases test s with
    | false => rfl
    | true => rw [if_pos rfl, if_pos rfl, ih, hbody]

/-- The loop `while (m >= l && !found(m)) m--`. -/
def walkDown (found : ℤ → Bool) (l m : ℤ) : ℤ :=
  whileLoop (fun m => decide (l ≤ m) && !found m) (fun m => m - 1) ((m + 1 - l).toNat + 1) m

/-- Where the walk stops: at the last index of the interval that passes the test, or just
below the interval when there is none. -/
structure Stops (found : ℤ → Bool) (l m k : ℤ) : Prop where
  le : k ≤ m
  low : l - 1 ≤ m → l - 1 ≤ k
  passed : ∀ j, k < j → j ≤ m → found j = false
  stop : l ≤ k → found k = true

theorem walkDown_stops (found : ℤ → Bool) (l m : ℤ) : Stops found l m (walkDown found l m) := by
  have hloop := whileLoop_spec
    (fun k => decide (l ≤ k) && !found k) (fun k => k - 1)
    (fun k => k ≤ m ∧ (l - 1 ≤ m → l - 1 ≤ k) ∧ ∀ j, k < j → j ≤ m → found j = false)
    (fun k => (k + 1 - l).toNat) ?_ ((m + 1 - l).toNat + 1) m ?_ (Nat.lt_succ_self _)
  · obtain ⟨⟨hle, hlow, hpassed⟩, hend⟩ := hloop
    refine ⟨hle, hlow, hpassed, ?_⟩
    intro hl
    change (decide (l ≤ walkDown found l m) && !found (walkDown found l m)) = false at hend
    simpa [hl] using hend
  · intro k hk htest
    obtain ⟨hle, hlow, hpassed⟩ := hk
    obtain ⟨hl, hnot⟩ : l ≤ k ∧ found k = false := by simpa using htest
    refine ⟨⟨by omega, fun _ => by omega, ?_⟩, by omega⟩
    intro j hj hjm
    by_cases hjk : j = k
    · rw [hjk]
      exact hnot
    · exact hpassed j (by omega) hjm
  · exact ⟨le_refl m, fun hm => hm, fun j hj hjm => by omega⟩

variable {found : ℤ → Bool}

theorem walkDown_below {l m : ℤ} (h : m < l) : walkDown found l m = m := by
  rw [walkDown, whileLoop, if_neg]
  simp only [not_le.mpr h, decide_false, Bool.false_and, Bool.false_eq_true, not_false_eq_true]

theorem walkDown_eq {l m k : ℤ} (hl : l ≤ k) (hm : k ≤ m) (hfound : found k = true)
    (hgap : ∀ j, k < j → j ≤ m → found j = false) : walkDown found l m = k := by
  have hstops := walkDown_stops found l m
  rcases lt_trichotomy (walkDown found l m) k with hlt | heq | hlt
  · rw [hstops.passed k hlt hm] at hfound
    contradiction
  · exact heq
  · have hstop := hstops.stop (by omega)
    rw [hgap _ hlt hstops.le] at hstop
    contradiction

theorem walkDown_lt {l m : ℤ}
    (hnone : ∀ j, l ≤ j → j ≤ m → found j = false) : walkDown found l m < l := by
  have hstops := walkDown_stops found l m
  by_contra hl
  have hstop := hstops.stop (by omega)
  rw [hnone _ (by omega) hstops.le] at hstop
  contradiction

/-! ### Loops that can fault -/

/-- The loop `while (test s) s = body s` whose test and body may fault. It faults as well when
the given number of rounds does not suffice. -/
def whileIn (test : σ → Option Bool) (body : σ → Option σ) : ℕ → σ → Option σ
  | 0, _ => none
  | n + 1, s =>
    (test s).bind fun more => if more then (body s).bind (whileIn test body n) else some s

/-- Where no round faults, the loop is the one without faults. -/
theorem whileIn_eq {test : σ → Option Bool} {body : σ → Option σ} {test' : σ → Bool}
    {body' : σ → σ} (I : σ → Prop) (μ : σ → ℕ) (htest : ∀ s, I s → test s = some (test' s))
    (hbody : ∀ s, I s → test' s = true → body s = some (body' s))
    (hround : ∀ s, I s → test' s = true → I (body' s) ∧ μ (body' s) < μ s) :
    ∀ (n : ℕ) (s : σ), I s → μ s < n →
      whileIn test body n s = some (whileLoop test' body' n s) := by
  intro n
  induction n with
  | zero =>
    intro s _ hn
    omega
  | succ n ih =>
    intro s hs hn
    rw [whileIn, whileLoop, htest s hs, bind_some]
    cases h : test' s with
    | false => rfl
    | true =>
      obtain ⟨hkept, hless⟩ := hround s hs h
      rw [if_pos rfl, if_pos rfl, hbody s hs h, bind_some]
      exact ih (body' s) hkept (by omega)

/-- The walk down an interval with a test that may fault. -/
def walkDownIn (found : ℤ → Option Bool) (l m : ℤ) : Option ℤ :=
  whileIn (fun m => if l ≤ m then (found m).map (!·) else some false) (fun m => some (m - 1))
    ((m + 1 - l).toNat + 1) m

theorem walkDownIn_eq {found : ℤ → Option Bool} {found' : ℤ → Bool} {l m : ℤ}
    (h : ∀ i, l ≤ i → i ≤ m → found i = some (found' i)) :
    walkDownIn found l m = some (walkDown found' l m) := by
  refine whileIn_eq (fun k => k ≤ m) (fun k => (k + 1 - l).toNat) (fun k hk => ?_)
    (fun _ _ _ => rfl) (fun k hk htest => ?_) _ m (le_refl m) (Nat.lt_succ_self _)
  · by_cases hl : l ≤ k
    · rw [if_pos hl, h k hl hk, map_some, decide_eq_true hl, Bool.true_and]
    · rw [if_neg hl, decide_eq_false hl, Bool.false_and]
  · rw [Bool.and_eq_true, decide_eq_true_eq] at htest
    omega

end KernelLabs.WhileLoop

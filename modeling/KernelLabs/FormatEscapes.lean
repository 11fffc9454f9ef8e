import KernelLabs.PrintFormat

/-!
Formats whose escape sequences vprintfmt does not recognise. Each of them is printed as it
stands: its % by the default case of the switch, which moves the cursor back to just behind it,
and the characters after it as text.
-/
namespace KernelLabs.FormatEscapes

open PrintFormat List Option

/-- The characters after a % are an escape sequence that vprintfmt does not recognise, with no
flag '*': flags and widths, and then a character of the default case or the NUL. -/
def unrecognised : List UInt8 → Bool
  | [] => true
  | c :: rest =>
    match key c with
    | .minus | .zero | .digit | .dot | .alt | .long => unrecognised rest
    | .other => true
    | _ => false

/-- Each % of a format starts an unrecognised escape sequence. -/
def allUnrecognised : List UInt8 → Bool
  | [] => true
  | c :: rest => (c ≠ ascii '%' || unrecognised rest) && allUnrecognised rest

section Scan

variable {v : Version} {env : Env} {fmt : List UInt8} {σ : Type*} {putch : σ → ℤ → σ}
  {o : Outcome σ} {sp : Spec} {pos ap : ℕ} {sink : σ} {c : UInt8} {rest : List UInt8}

theorem key_of_digit (h : ¬(c < ascii '0' ∨ ascii '9' < c)) : key c = .zero ∨ key c = .digit := by
  rw [not_or, UInt8.not_lt, UInt8.not_lt] at h
  by_cases hzero : c = ascii '0'
  · exact Or.inl (hzero ▸ rfl)
  · have hminus : c ≠ ascii '-' := by
      rintro rfl
      exact absurd h.1 (by decide)
    have hone : ascii '1' ≤ c := by
      have hne : c.toNat ≠ (ascii '0').toNat := fun heq => hzero (UInt8.toNat_inj.mp heq)
      have hle : (ascii '0').toNat ≤ c.toNat := UInt8.le_iff_toNat_le.mp h.1
      exact UInt8.le_iff_toNat_le.mpr (Nat.lt_of_le_of_ne hle hne.symm)
    exact Or.inr (by rw [key, if_neg hminus, if_neg hzero, if_pos ⟨hone, h.2⟩])

theorem unrecognised_drop {precision value : ℤ} {ch : UInt8} {k : ℕ} {l : List UInt8}
    (hread : readDigits precision ch (l ++ [0]) = some (value, k))
    (h : unrecognised l = true) : unrecognised (l.drop k) = true := by
  induction l generalizing precision ch value k with
  | nil => rw [drop_nil]; rfl
  | cons c rest ih =>
    rw [cons_append, readDigits] at hread
    by_cases hend : c < ascii '0' ∨ ascii '9' < c
    · rw [if_pos hend, some.injEq, Prod.mk.injEq] at hread
      rw [← hread.2, drop_zero]
      exact h
    · rw [if_neg hend, map_eq_some_iff] at hread
      obtain ⟨⟨value', k'⟩, hread, heq⟩ := hread
      rw [Prod.mk.injEq] at heq
      rw [← heq.2, drop_succ_cons]
      refine ih hread ?_
      rcases key_of_digit hend with hkey | hkey
      · rw [unrecognised, hkey] at h
        exact h
      · rw [unrecognised, hkey] at h
        exact h

theorem backup_succ (hbyte : byteAt fmt pos = some c) (hne : c ≠ ascii '%') :
    backup fmt (pos + 1) = backup fmt pos := by
  rw [backup, hbyte, if_neg (fun heq => hne (some.inj heq))]

/-- An unrecognised escape sequence ends where it began, and one % has been printed. -/
theorem reaches_unrecognised {p : ℕ} (hrest : (fmt ++ [0]).drop pos = rest ++ [0])
    (h : unrecognised rest = true) (hp : backup fmt pos = some p)
    (hnext : ∀ ap, Reaches v env fmt putch (.running ⟨.text, p, ap, putch sink (code '%')⟩) o) :
    Reaches v env fmt putch (.running ⟨.escape sp, pos, ap, sink⟩) o := by
  -- the digits of a width are read in one turn, so the induction is on the length
  induction hlen : rest.length using Nat.strong_induction_on generalizing rest pos sp ap with
  | _ n ih =>
    cases rest with
    | nil =>
      refine reaches_switch hrest ?_
      simp only [switch, key_zero, hp]
      exact hnext ap
    | cons c rest =>
      rw [cons_append] at hrest
      have hbyte := byteAt_of_drop hrest
      refine reaches_switch hrest ?_
      rw [length_cons] at hlen
      rw [unrecognised] at h
      by_cases hpercent : c = ascii '%'
      · rw [hpercent, show key (ascii '%') = .percent by decide] at h
        cases h
      have hbackup : backup fmt (pos + 1) = some p := (backup_succ hbyte hpercent).trans hp
      have hagain (hnext' : unrecognised rest = true) (sp : Spec) :
          Reaches v env fmt putch (.running ⟨.escape sp, pos + 1, ap, sink⟩) o :=
        ih rest.length (by omega) (drop_succ hrest) hnext' hbackup rfl
      unfold switch
      cases hkey : key c with
      | digit =>
        rw [hkey] at h
        obtain ⟨value, k, hread, hk, hdigits⟩ := readDigits_inside 0 c rest
        have hbehind := drop_succ hrest
        have hdrop : (fmt ++ [0]).drop (pos + 1 + k) = rest.drop k ++ [0] := by
          rw [← drop_drop, hbehind, drop_append_of_le_length hk]
        have hsame : backup fmt (pos + 1 + k) = backup fmt (pos + 1) := by
          refine backup_add fun j hj => ?_
          rw [byteAt, ← getElem?_drop, hbehind, getElem?_append_left (by omega)]
          exact hdigits j hj
        rw [hbehind, hread]
        exact ih (rest.drop k).length (by rw [length_drop]; omega) hdrop
          (unrecognised_drop hread h) (hsame.trans hbackup) rfl
      | other =>
        simp only [hp]
        exact hnext ap
      | minus => exact hagain (by rw [hkey] at h; exact h) _
      | zero => exact hagain (by rw [hkey] at h; exact h) _
      | dot => exact hagain (by rw [hkey] at h; exact h) _
      | alt => exact hagain (by rw [hkey] at h; exact h) _
      | long => exact hagain (by rw [hkey] at h; exact h) _
      | _ =>
        rw [hkey] at h
        cases h

/-- From a place in the text on, the format is printed as it stands. -/
theorem reaches_literal {out : List ℤ} (hrest : (fmt ++ [0]).drop pos = rest ++ [0])
    (hbytes : ∀ c ∈ rest, c ≠ 0) (h : allUnrecognised rest = true) :
    Reaches v env fmt (fun out c => out ++ [c]) (.running ⟨.text, pos, ap, out⟩)
      (.returned (out ++ rest.map fun c => (c.toNat : ℤ))) := by
  induction rest generalizing pos ap out with
  | nil =>
    rw [map_nil, append_nil]
    exact reaches_end hrest
  | cons c rest ih =>
    rw [allUnrecognised, Bool.and_eq_true, Bool.or_eq_true, decide_eq_true_eq] at h
    rw [cons_append] at hrest
    have hbyte := byteAt_of_drop hrest
    have hbehind := drop_succ hrest
    have hnext (ap : ℕ) : Reaches v env fmt (fun out c => out ++ [c])
        (.running ⟨.text, pos + 1, ap, out ++ [(c.toNat : ℤ)]⟩)
        (.returned (out ++ (c :: rest).map fun c => (c.toNat : ℤ))) := by
      have hout : out ++ (c :: rest).map (fun c => (c.toNat : ℤ)) =
          out ++ [(c.toNat : ℤ)] ++ rest.map fun c => (c.toNat : ℤ) := append_cons ..
      rw [hout]
      exact ih hbehind (fun d hd => hbytes d (mem_cons_of_mem c hd)) h.2
    by_cases hpercent : c = ascii '%'
    · subst hpercent
      refine reaches_percent hrest ?_
      have hbackup : backup fmt (pos + 1) = some (pos + 1) := by rw [backup, if_pos hbyte]
      exact reaches_unrecognised hbehind (h.1.resolve_left (not_not.mpr rfl)) hbackup hnext
    · exact reaches_char hrest hpercent (hbytes c mem_cons_self) (hnext ap)

theorem iterate_inside (n : ℕ) : ((Outcome.step v env fmt putch)^[n] (start sink)).Inside fmt := by
  induction n with
  | zero => exact Nat.zero_le _
  | succ n ih =>
    rw [Function.iterate_succ_apply']
    cases hrunning : ((Outcome.step v env fmt putch)^[n] (start sink)).isRunning with
    | true => exact (step_nearer ih hrunning).1
    | false =>
      generalize (Outcome.step v env fmt putch)^[n] (start sink) = o at ih hrunning
      cases o with
      | running st => cases hrunning
      | returned sink => trivial
      | outside => exact ih

end Scan

/-- For every format and argument list vprintfmt returns, and no step of its run reads outside
of the format. A format in which each % starts an unrecognised escape sequence without '*' is
printed as it stands. -/
theorem format_scanning (v : Version) (env : Env) (fmt : List UInt8) :
    (∀ {σ : Type} (putch : σ → ℤ → σ) (sink : σ),
      (∃ out, vprintfmt v env fmt putch sink = .returned out) ∧
      ∀ n, (Outcome.step v env fmt putch)^[n] (start sink) ≠ .outside) ∧
    ((∀ c ∈ fmt, c ≠ 0) → allUnrecognised fmt = true →
      PrintFormat.text v env fmt = fmt.map fun c => (c.toNat : ℤ)) := by
  refine ⟨fun putch sink => ⟨exists_returned v env fmt putch sink, fun n houtside => ?_⟩,
    fun hbytes h => ?_⟩
  · have hinside : ((Outcome.step v env fmt putch)^[n] (start sink)).Inside fmt :=
      iterate_inside n
    rw [houtside] at hinside
    exact hinside
  · exact text_eq_of_reaches (reaches_literal rfl hbytes h)

/-- The format "100%, %-08.3lq%", which ends in a %. -/
theorem format_scanning_hundred :
    PrintFormat.text .lab3 ⟨fun _ => 0, fun _ => [], fun _ => 0⟩ (bytes "100%, %-08.3lq%") =
      (bytes "100%, %-08.3lq%").map fun c => (c.toNat : ℤ) :=
  (format_scanning .lab3 _ (bytes "100%, %-08.3lq%")).2 (by decide +kernel) (by decide +kernel)

end KernelLabs.FormatEscapes

import KernelLabs.DebugInfo
import KernelLabs.PanicMonad

/-!
The command backtrace of lab1's kern/monitor.c. A frame is named by its base pointer: word 0
holds the base pointer of the caller, word 1 the return address and the next five words the
arguments. The loop carries a base pointer with the return address of its frame and reads
the next return address before it tests whether there is a next frame, so that it ends with
a read through the null pointer.
-/
namespace KernelLabs.Backtrace

open PageWords PanicMonad DebugInfo List

/-- What the command does to the outside: the reads `p[k]` of stack words, and what it prints.
The formats are "ebp %08x eip %08x args %08x %08x %08x %08x %08x\r \n" for a frame and
"\t%s:%d: %.*s+%d\r \n" for its source line. -/
inductive Event
  | read (p : Word) (k : ℕ)
  | header
  | frame (ebp eip : Word) (args : List Word)
  | source (info : Eipdebuginfo) (offset : Word)
  deriving DecidableEq

abbrev BacktraceM := EStateM String (List Event)

def emit (e : Event) : BacktraceM Unit := modify fun log => log ++ [e]

variable (t : Symbols) (mem : Word → Word)

def word (p : Word) (k : ℕ) : Word := mem (p + BitVec.ofNat 32 (4 * k))

def readWord (p : Word) (k : ℕ) : BacktraceM Word := do
  emit (.read p k)
  return word mem p k

def backtraceLoop : ℕ → Word → Word → BacktraceM Unit
  | 0, _, _ => throw "still running"
  | n + 1, ebp, eip => do
    if ebp ≠ 0 then
      let a₂ ← readWord mem ebp 2
      let a₃ ← readWord mem ebp 3
      let a₄ ← readWord mem ebp 4
      let a₅ ← readWord mem ebp 5
      let a₆ ← readWord mem ebp 6
      emit (.frame ebp eip [a₂, a₃, a₄, a₅, a₆])
      match debuginfoEip t eip with
      | .error text => throw text
      | .ok (_, info) =>
        emit (.source info (eip - info.eipFnAddr))
        let ebp ← readWord mem ebp 0
        let eip ← readWord mem ebp 1
        backtraceLoop n ebp eip
    else
      return

def monBacktrace (turns : ℕ) (ebp : Word) : BacktraceM ℤ := do
  let eip ← readWord mem ebp 1
  emit .header
  backtraceLoop t mem turns ebp eip
  return 0

/-! ### What a run does -/

/-- The frames from a base pointer on, up to the one whose saved base pointer is null. -/
inductive Chain : Word → List Word → Prop
  | nil : Chain 0 []
  | cons {ebp : Word} {frames : List Word} (hne : ebp ≠ 0) (hrest : Chain (word mem ebp 0) frames) :
      Chain ebp (ebp :: frames)

/-- The saved return address is one for which debuginfo_eip panics. -/
def Panics (f : Word) : Prop := word mem f 1 < ULIM

instance (f : Word) : Decidable (Panics mem f) := by
  unfold Panics
  infer_instance

def frameEvents (f : Word) : List Event :=
  [.read f 2, .read f 3, .read f 4, .read f 5, .read f 6,
    .frame f (word mem f 1) ([2, 3, 4, 5, 6].map (word mem f))]

/-- The source line of a frame, and the reads that lead to the next one. -/
def nextEvents (f : Word) : List Event :=
  match debuginfoEip t (word mem f 1) with
  | .error _ => []
  | .ok (_, info) =>
    [.source info (word mem f 1 - info.eipFnAddr), .read f 0, .read (word mem f 0) 1]

def visits : List Word → List Event
  | [] => []
  | f :: rest =>
    frameEvents mem f ++ if Panics mem f then [] else nextEvents t mem f ++ visits rest

variable {t mem}

theorem debuginfoEip_of_panics {f : Word} (h : Panics mem f) :
    debuginfoEip t (word mem f 1) = .error "User address" := by
  unfold Panics at h
  rw [debuginfoEip, if_pos h]

theorem debuginfoEip_of_not_panics {f : Word} (h : ¬Panics mem f) :
    ∃ r, debuginfoEip t (word mem f 1) = .ok r := by
  unfold Panics at h
  rw [debuginfoEip, if_neg h]
  dsimp only
  split
  · exact ⟨_, rfl⟩
  · split
    · exact ⟨_, rfl⟩
    · split <;> split <;> exact ⟨_, rfl⟩

/-- The computation ends with the log `out`, whether it returns or stops with a panic. -/
def Logs {α : Type} (x : BacktraceM α) (log out : List Event) : Prop :=
  Halts (fun _ u => u = out) x log fun _ u => u = out

section Logs

variable {α β : Type} {log out : List Event}

theorem logs_emit_bind (e : Event) (f : Unit → BacktraceM β) :
    Logs (emit e >>= f) log out ↔ Logs (f ()) (log ++ [e]) out := Iff.rfl

theorem logs_readWord_bind (p : Word) (k : ℕ) (f : Word → BacktraceM β) :
    Logs (readWord mem p k >>= f) log out ↔ Logs (f (word mem p k)) (log ++ [.read p k]) out :=
  Iff.rfl

theorem logs_bind {x : BacktraceM α} (f : α → BacktraceM β) (hf : ∀ r u, Logs (f r) u u)
    (h : Logs x log out) : Logs (x >>= f) log out := by
  rw [Logs, halts_bind_iff]
  refine h.mono (fun _ _ hu => hu) fun r u hu => ?_
  rw [← hu]
  exact hf r u

end Logs

/-- The loop begins each turn with the return address of the frame at hand; by induction on
the chain. -/
theorem logs_backtraceLoop {ebp : Word} {frames : List Word} (h : Chain mem ebp frames) :
    ∀ (n : ℕ) (log : List Event), frames.length < n →
      Logs (backtraceLoop t mem n ebp (word mem ebp 1)) log (log ++ visits t mem frames) := by
  induction h with
  | nil =>
    intro n log hn
    obtain ⟨n, rfl⟩ := Nat.exists_eq_add_one_of_ne_zero (Nat.ne_zero_of_lt hn)
    exact (append_nil log).symm
  | @cons ebp frames hne hrest ih =>
    intro n log hn
    obtain ⟨n, rfl⟩ := Nat.exists_eq_add_one_of_ne_zero (Nat.ne_zero_of_lt hn)
    rw [backtraceLoop, if_pos hne]
    simp only [logs_readWord_bind, logs_emit_bind, append_assoc, cons_append, nil_append]
    by_cases hpanics : Panics mem ebp
    · rw [debuginfoEip_of_panics hpanics, visits, if_pos hpanics, append_nil]
      exact rfl
    · obtain ⟨⟨r, info⟩, hinfo⟩ := debuginfoEip_of_not_panics (t := t) hpanics
      have hdone := ih n (log ++ (frameEvents mem ebp ++ nextEvents t mem ebp))
        (Nat.lt_of_succ_lt_succ hn)
      rw [hinfo, visits, if_neg hpanics]
      simp only [logs_readWord_bind, logs_emit_bind, append_assoc, cons_append, nil_append]
      simp only [frameEvents, nextEvents, hinfo, append_assoc, cons_append, nil_append] at hdone ⊢
      exact hdone

theorem logs_monBacktrace {ebp : Word} {frames : List Word} (h : Chain mem ebp frames) {turns : ℕ}
    (hturns : frames.length < turns) :
    Logs (monBacktrace t mem turns ebp) []
      (.read ebp 1 :: .header :: visits t mem frames) := by
  rw [monBacktrace]
  simp only [logs_readWord_bind, logs_emit_bind]
  exact logs_bind _ (fun _ _ => rfl) (logs_backtraceLoop h turns [.read ebp 1, .header] hturns)

/-! ### The frames that are visited -/

def frameLine : Event → Option (Word × Word × List Word)
  | .frame ebp eip args => some (ebp, eip, args)
  | _ => none

variable (mem) in
/-- One line for each frame, in order and with its own return address, and reads of the words
0 to 6 of the frames only. -/
structure VisitsExactly (frames : List Word) (log : List Event) : Prop where
  lines : log.filterMap frameLine =
    frames.map fun f => (f, word mem f 1, [2, 3, 4, 5, 6].map (word mem f))
  reads : ∀ p k, .read p k ∈ log → p ∈ frames ∧ k ≤ 6

variable (mem) in
/-- debuginfo_eip panics on the return address of the last frame, and on no other. -/
def PanicsAtLast (frames : List Word) : Prop :=
  ∃ init last, frames = init ++ [last] ∧ (∀ f ∈ init, ¬Panics mem f) ∧ Panics mem last

section Visits

variable {frames : List Word} {f ebp : Word}

theorem panicsAtLast_cons_of_panics (h : Panics mem f) :
    PanicsAtLast mem (f :: frames) ↔ frames = [] := by
  constructor
  · rintro ⟨init, last, heq, hinit, _⟩
    cases init with
    | nil => exact (List.cons.inj heq).2
    | cons g init =>
      obtain ⟨rfl, _⟩ := List.cons.inj heq
      exact absurd h (hinit f mem_cons_self)
  · rintro rfl
    exact ⟨[], f, rfl, fun g hg => absurd hg not_mem_nil, h⟩

theorem panicsAtLast_cons_of_not_panics (h : ¬Panics mem f) :
    PanicsAtLast mem (f :: frames) ↔ PanicsAtLast mem frames := by
  constructor
  · rintro ⟨init, last, heq, hinit, hlast⟩
    cases init with
    | nil =>
      obtain ⟨rfl, _⟩ := List.cons.inj heq
      exact absurd hlast h
    | cons g init =>
      exact ⟨init, last, (List.cons.inj heq).2, fun g hg => hinit g (mem_cons_of_mem _ hg), hlast⟩
  · rintro ⟨init, last, rfl, hinit, hlast⟩
    exact ⟨f :: init, last, rfl, forall_mem_cons.mpr ⟨h, hinit⟩, hlast⟩

/-- The lines of a chain begin with that of its first frame. -/
theorem lines_visits_cons :
    (visits t mem (f :: frames)).filterMap frameLine =
      (f, word mem f 1, [2, 3, 4, 5, 6].map (word mem f)) ::
        if Panics mem f then [] else (visits t mem frames).filterMap frameLine := by
  rw [visits, filterMap_append]
  split
  · rfl
  · rename_i hpanics
    obtain ⟨⟨r, info⟩, hinfo⟩ := debuginfoEip_of_not_panics (t := t) hpanics
    rw [filterMap_append, nextEvents, hinfo]
    rfl

theorem read_mem_visits_cons (h : ¬Panics mem f) {p : Word} {k : ℕ} :
    .read p k ∈ visits t mem (f :: frames) ↔
      (p = f ∧ k ∈ [2, 3, 4, 5, 6, 0]) ∨ (p = word mem f 0 ∧ k = 1) ∨
        .read p k ∈ visits t mem frames := by
  obtain ⟨⟨r, info⟩, hinfo⟩ := debuginfoEip_of_not_panics (t := t) h
  rw [visits, if_neg h]
  simp only [frameEvents, nextEvents, hinfo, mem_append, mem_cons, Event.read.injEq,
    not_mem_nil, or_false, reduceCtorEq, false_or]
  tauto

/-- A chain that does not begin with the null pointer has a frame there. -/
theorem Chain.mem_of_ne (h : Chain mem ebp frames) (hne : ebp ≠ 0) : ebp ∈ frames := by
  cases h with
  | nil => exact absurd rfl hne
  | cons _ hrest => exact mem_cons_self

theorem Chain.not_null (h : Chain mem ebp frames) : ∀ f ∈ frames, f ≠ 0 := by
  induction h with
  | nil => exact fun f hf => absurd hf not_mem_nil
  | cons hne hrest ih => exact forall_mem_cons.mpr ⟨hne, ih⟩

theorem not_panicsAtLast_nil : ¬PanicsAtLast mem [] := by
  rintro ⟨init, last, heq, _⟩
  exact append_ne_nil_of_right_ne_nil init (cons_ne_nil last []) heq.symm

theorem Chain.ne_null (h : Chain mem ebp frames) (hlast : PanicsAtLast mem frames) : ebp ≠ 0 := by
  cases h with
  | nil => exact absurd hlast not_panicsAtLast_nil
  | cons hne _ => exact hne

/-- Where debuginfo_eip panics at the last frame, the chain is visited. -/
theorem Chain.visitsExactly (h : Chain mem ebp frames) (hlast : PanicsAtLast mem frames) :
    VisitsExactly mem frames (visits t mem frames) := by
  induction h with
  | nil => exact absurd hlast not_panicsAtLast_nil
  | @cons f frames hne hrest ih =>
    by_cases hpanics : Panics mem f
    · obtain rfl := (panicsAtLast_cons_of_panics hpanics).mp hlast
      refine ⟨?_, fun p k hread => ?_⟩
      · rw [lines_visits_cons, if_pos hpanics]
        rfl
      · rw [visits, if_pos hpanics, append_nil] at hread
        simp only [frameEvents, mem_cons, Event.read.injEq, not_mem_nil, or_false,
          reduceCtorEq] at hread
        refine ⟨?_, by omega⟩
        rw [mem_singleton]
        tauto
    · have hlast' := (panicsAtLast_cons_of_not_panics hpanics).mp hlast
      have hrec := ih hlast'
      have hnext : word mem f 0 ∈ frames := hrest.mem_of_ne (hrest.ne_null hlast')
      refine ⟨?_, fun p k hread => ?_⟩
      · rw [lines_visits_cons, if_neg hpanics, hrec.lines]
        rfl
      · rcases (read_mem_visits_cons hpanics).mp hread with ⟨rfl, hk⟩ | ⟨rfl, rfl⟩ | hread
        · refine ⟨mem_cons_self, ?_⟩
          simp only [mem_cons, not_mem_nil, or_false] at hk
          omega
        · exact ⟨mem_cons_of_mem _ hnext, by decide⟩
        · obtain ⟨hp, hk⟩ := hrec.reads p k hread
          exact ⟨mem_cons_of_mem _ hp, hk⟩

/-- A chain of which every frame has its line and that is read without the null pointer. -/
theorem Chain.panicsAtLast (h : Chain mem ebp frames) (hne : ebp ≠ 0)
    (hlines : (visits t mem frames).filterMap frameLine =
      frames.map fun f => (f, word mem f 1, [2, 3, 4, 5, 6].map (word mem f)))
    (hreads : ∀ p k, .read p k ∈ visits t mem frames → p ≠ 0) : PanicsAtLast mem frames := by
  induction h with
  | nil => exact absurd rfl hne
  | @cons f frames hf hrest ih =>
    rw [lines_visits_cons, map_cons] at hlines
    have htail := (List.cons.inj hlines).2
    by_cases hpanics : Panics mem f
    · rw [if_pos hpanics] at htail
      exact (panicsAtLast_cons_of_panics hpanics).mpr (map_eq_nil_iff.mp htail.symm)
    · rw [if_neg hpanics] at htail
      have hnext : word mem f 0 ≠ 0 :=
        hreads _ 1 ((read_mem_visits_cons hpanics).mpr (.inr (.inl ⟨rfl, rfl⟩)))
      refine (panicsAtLast_cons_of_not_panics hpanics).mpr (ih hnext htail fun p k hread => ?_)
      exact hreads p k ((read_mem_visits_cons hpanics).mpr (.inr (.inr hread)))

end Visits

variable (t mem) in
/-- On a finite chain the command visits exactly the frames if and only if it ends with the
panic of debuginfo_eip at the last one: in every other case it reads through the null pointer
or stops before the last frame. -/
theorem monBacktrace_visitsExactly_iff {ebp : Word} {frames : List Word}
    (h : Chain mem ebp frames) {turns : ℕ} (hturns : frames.length < turns) :
    Halts (fun _ log => VisitsExactly mem frames log) (monBacktrace t mem turns ebp) []
        (fun _ log => VisitsExactly mem frames log) ↔ PanicsAtLast mem frames := by
  have hlogs := logs_monBacktrace (t := t) h hturns
  have hiff : Halts (fun _ log => VisitsExactly mem frames log) (monBacktrace t mem turns ebp) []
      (fun _ log => VisitsExactly mem frames log) ↔
        VisitsExactly mem frames (.read ebp 1 :: .header :: visits t mem frames) := by
    constructor
    · intro hvisits
      exact hvisits.both hlogs (fun _ _ hv heq => heq ▸ hv) fun _ _ hv heq => heq ▸ hv
    · intro hvisits
      exact hlogs.mono (fun _ _ heq => heq ▸ hvisits) fun _ _ heq => heq ▸ hvisits
  rw [hiff]
  constructor
  · intro hvisits
    have hnull : ∀ p k, .read p k ∈ (.read ebp 1 :: .header :: visits t mem frames) → p ≠ 0 :=
      fun p k hread => h.not_null p (hvisits.reads p k hread).1
    exact h.panicsAtLast (hnull ebp 1 mem_cons_self) hvisits.lines fun p k hread =>
      hnull p k (mem_cons_of_mem _ (mem_cons_of_mem _ hread))
  · intro hlast
    have hvisits := h.visitsExactly (t := t) hlast
    refine ⟨hvisits.lines, fun p k hread => ?_⟩
    rcases mem_cons.mp hread with heq | hread
    · obtain ⟨rfl, rfl⟩ := Event.read.inj heq
      exact ⟨h.mem_of_ne (h.ne_null hlast), by decide⟩
    · exact hvisits.reads p k ((mem_cons.mp hread).resolve_left Event.noConfusion)

def twoFrames (a : Word) : Word :=
  if a = 0xf0001000 then 0xf0002000
  else if a = 0xf0001004 then 0xf0100100
  else if a = 0xf0002004 then 0xf0100040
  else 0

theorem chain_twoFrames : Chain twoFrames 0xf0001000 [0xf0001000, 0xf0002000] :=
  .cons (by decide) (.cons (by decide) .nil)

/-- The chain of two frames is printed in full, and then the word at address 4 is read. -/
theorem backtrace_reads_null :
    Chain twoFrames 0xf0001000 [0xf0001000, 0xf0002000] ∧
      ∃ log, (monBacktrace ⟨[], []⟩ twoFrames 3 0xf0001000).run [] = .ok 0 log ∧
        log.filterMap frameLine = [(0xf0001000, 0xf0100100, [0, 0, 0, 0, 0]),
          (0xf0002000, 0xf0100040, [0, 0, 0, 0, 0])] ∧
        .read 0 1 ∈ log ∧ ¬VisitsExactly twoFrames [0xf0001000, 0xf0002000] log := by
  have hnull : ∀ {log : List Event}, .read 0 1 ∈ log →
      ¬VisitsExactly twoFrames [0xf0001000, 0xf0002000] log :=
    fun hread hvisits => absurd (hvisits.reads 0 1 hread).1 (by decide)
  exact ⟨chain_twoFrames, _, rfl, by decide, by decide, hnull (by decide)⟩

/-- A single frame with a user address: the command prints its line and panics. -/
theorem monBacktrace_visitsExactly_single :
    Halts (fun _ log => VisitsExactly (fun _ => 0) [0xf0001000] log)
        (monBacktrace ⟨[], []⟩ (fun _ => 0) 2 0xf0001000) []
        (fun _ log => VisitsExactly (fun _ => 0) [0xf0001000] log) :=
  (monBacktrace_visitsExactly_iff ⟨[], []⟩ (fun _ => 0) (.cons (by decide) .nil) (by decide)).mpr
    ⟨[], 0xf0001000, rfl, fun f hf => absurd hf not_mem_nil, by decide⟩

end KernelLabs.Backtrace

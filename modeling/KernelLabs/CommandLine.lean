import KernelLabs.MonitorArgs

/-!
The function runcmd of the monitor over the bytes of the line. It walks through the line with
one pointer, puts a NUL over every blank, and keeps the addresses of the words in argv. The
loops are given a number of rounds; a number above the length of the line is enough. Every
write through the pointer and into argv is recorded with its place.
-/
namespace KernelLabs.CommandLine

open Monitor Function List

abbrev NUL : Char := '\x00'

def WHITESPACE : List Char := ['\t', '\r', '\n', ' ']

def strchr : List Char → Char → Option (List Char)
  | [], _ => none
  | x :: rest, c => if x = c then some (x :: rest) else strchr rest c

/-- The memory, the variables of runcmd, and the places at which it wrote. -/
structure Cmd where
  mem : ℕ → Char
  buf : ℕ
  argc : ℕ
  argv : ℕ → Option ℕ
  stored : List ℕ
  slots : List ℕ

/-- argv[argc] = p -/
def Cmd.setArgv (s : Cmd) (p : Option ℕ) : Cmd :=
  { s with argv := Function.update s.argv s.argc p, slots := s.argc :: s.slots }

/-- while (*buf && strchr(WHITESPACE, *buf)) *buf++ = 0; -/
def gobble : ℕ → Cmd → Cmd
  | 0, s => s
  | n + 1, s =>
    if s.mem s.buf ≠ NUL ∧ (strchr WHITESPACE (s.mem s.buf)).isSome then
      gobble n { s with
        mem := Function.update s.mem s.buf NUL
        buf := s.buf + 1
        stored := s.buf :: s.stored }
    else s

/-- while (*buf && !strchr(WHITESPACE, *buf)) buf++; -/
def scanPast : ℕ → Cmd → Cmd
  | 0, s => s
  | n + 1, s =>
    if s.mem s.buf ≠ NUL ∧ (strchr WHITESPACE (s.mem s.buf)).isNone then
      scanPast n { s with buf := s.buf + 1 }
    else s

inductive Split
  | done (s : Cmd)
  | tooMany (s : Cmd)
  | running (s : Cmd)

def splitLine (rounds : ℕ) : ℕ → Cmd → Split
  | 0, s => .running s
  | n + 1, s =>
    let s := gobble rounds s
    if s.mem s.buf = NUL then .done (s.setArgv none)
    else if s.argc = MAXARGS - 1 then .tooMany s
    else splitLine rounds n (scanPast rounds { s.setArgv (some s.buf) with argc := s.argc + 1 })

def strcmp (mem : ℕ → Char) (p : ℕ) : List Char → ℤ
  | [] => (mem p).toNat
  | q :: rest =>
    if mem p ≠ NUL ∧ mem p = q then strcmp mem (p + 1) rest
    else ((mem p).toNat : ℤ) - q.toNat

def lookup (mem : ℕ → Char) (p : ℕ) : List (Command × String × String) → Option Command
  | [] => none
  | entry :: rest =>
    if strcmp mem p entry.2.1.toList = 0 then some entry.1 else lookup mem p rest

/-- What runcmd does with the line; a fault is the use of a null pointer. -/
inductive Result
  | empty
  | tooMany
  | unknown
  | invoked (cmd : Command)
  | fault
  | running
  deriving DecidableEq

def invoke (s : Cmd) : Result :=
  if s.argc = 0 then .empty
  else
    match s.argv 0 with
    | none => .fault
    | some p =>
      match lookup s.mem p Command.table with
      | some cmd => .invoked cmd
      | none => .unknown

def runcmd (rounds : ℕ) (mem : ℕ → Char) (buf : ℕ) (argv : ℕ → Option ℕ) : Result × Cmd :=
  match splitLine rounds rounds (Cmd.setArgv ⟨mem, buf, 0, argv, [], []⟩ none) with
  | .running s => (.running, s)
  | .tooMany s => (.tooMany, s)
  | .done s => (invoke s, s)

/-- The characters stand at `p`, followed by a NUL. -/
structure StringAt (mem : ℕ → Char) (p : ℕ) (text : List Char) : Prop where
  chars : ∀ i c, text[i]? = some c → mem (p + i) = c
  stop : mem (p + text.length) = NUL
  proper : NUL ∉ text

def runs (line : List Char) : List (List Char) := (line.splitOnP isWhitespace).filter (· ≠ [])

section Runs

variable {line word rest : List Char} {c : Char}

theorem isSome_strchr {text : List Char} : (strchr text c).isSome ↔ c ∈ text := by
  induction text with
  | nil => simp [strchr]
  | cons x rest ih =>
    rw [strchr, mem_cons]
    by_cases hx : x = c
    · rw [if_pos hx]
      exact iff_of_true rfl (.inl hx.symm)
    · rw [if_neg hx, ih]
      exact ⟨.inr, fun h => h.resolve_left (Ne.symm hx)⟩

theorem strchr_blank : (strchr WHITESPACE c).isSome ↔ isWhitespace c = true := by
  rw [isSome_strchr]
  simp [WHITESPACE, isWhitespace, or_assoc]

theorem strchr_other : (strchr WHITESPACE c).isNone ↔ isWhitespace c = false := by
  rw [← Bool.not_eq_true, ← strchr_blank]
  simp

theorem runs_nil : runs [] = [] := by
  rw [runs, splitOnP_nil]
  rfl

theorem runs_blank (hc : isWhitespace c = true) : runs (c :: rest) = runs rest := by
  rw [runs, splitOnP_cons_eq_if_modifyHead, if_pos hc, runs, filter_cons_of_neg (by simp)]

theorem runs_blanks (rest : List Char) : runs (rest.dropWhile isWhitespace) = runs rest := by
  induction rest with
  | nil => rfl
  | cons c rest ih =>
    by_cases hc : isWhitespace c = true
    · rw [dropWhile_cons_of_pos hc, runs_blank hc, ih]
    · rw [dropWhile_cons_of_neg hc]

/-- A run is followed by the end of the line or by a blank. -/
theorem runs_word (hword : word ≠ []) (hchars : ∀ c ∈ word, isWhitespace c = false)
    (hrest : ∀ c ∈ rest.head?, isWhitespace c = true) : runs (word ++ rest) = word :: runs rest := by
  cases rest with
  | nil =>
    rw [append_nil, runs_nil, runs, splitOnP_eq_singleton hchars,
      filter_cons_of_pos (by simpa using hword)]
    rfl
  | cons c rest =>
    have hc : isWhitespace c = true := hrest c rfl
    rw [runs_blank hc, runs, splitOnP_append_cons _ _ hc, splitOnP_eq_singleton hchars,
      singleton_append, filter_cons_of_pos (by simpa using hword)]
    rfl

end Runs

namespace StringAt

variable {mem : ℕ → Char} {p : ℕ} {text rest : List Char} {c : Char}

theorem head (h : StringAt mem p (c :: rest)) : mem p = c := h.chars 0 c rfl

theorem tail (h : StringAt mem p (c :: rest)) : StringAt mem (p + 1) rest where
  chars := by
    intro i d hd
    rw [Nat.add_assoc, Nat.add_comm 1 i]
    exact h.chars (i + 1) d (by simpa using hd)
  stop := by
    have := h.stop
    rwa [length_cons, Nat.add_comm rest.length, ← Nat.add_assoc] at this
  proper := fun hmem => h.proper (mem_cons_of_mem _ hmem)

theorem head_ne (h : StringAt mem p (c :: rest)) : c ≠ NUL := by
  rintro rfl
  exact h.proper mem_cons_self

theorem nil_iff (h : StringAt mem p text) : mem p = NUL ↔ text = [] := by
  cases text with
  | nil => exact iff_of_true h.stop rfl
  | cons c rest => exact iff_of_false (h.head ▸ h.head_ne) (by simp)

theorem update (h : StringAt mem p text) {q : ℕ} (hq : q < p) (b : Char) :
    StringAt (Function.update mem q b) p text where
  chars i c hc := by
    rw [update_of_ne (by omega)]
    exact h.chars i c hc
  stop := by
    rw [update_of_ne (by omega)]
    exact h.stop
  proper := h.proper

end StringAt

/-- The rest of the line stands at the pointer, and its end is where it was. -/
structure At (stop : ℕ) (s : Cmd) (rest : List Char) : Prop where
  string : StringAt s.mem s.buf rest
  last : s.buf + rest.length = stop

/-- What gobble does: the blanks in front of the rest are overwritten, nothing else is. -/
structure Gobbled (stop : ℕ) (s : Cmd) (rest : List Char) (t : Cmd) : Prop where
  ahead : At stop t (rest.dropWhile isWhitespace)
  buf : t.buf = s.buf + (rest.takeWhile isWhitespace).length
  mem : ∀ a, t.mem a = if s.buf ≤ a ∧ a < t.buf then NUL else s.mem a
  argc : t.argc = s.argc
  argv : t.argv = s.argv
  slots : t.slots = s.slots
  stored : ∀ a ∈ t.stored, a ∈ s.stored ∨ s.buf ≤ a ∧ a < stop

variable {stop : ℕ} {s : Cmd} {rest : List Char}

theorem Gobbled.stay (h : At stop s rest)
    (hhead : ∀ c ∈ rest.head?, isWhitespace c = false) : Gobbled stop s rest s := by
  have hdrop : rest.dropWhile isWhitespace = rest ∧ rest.takeWhile isWhitespace = [] := by
    cases rest with
    | nil => exact ⟨rfl, rfl⟩
    | cons c rest =>
      have hc := hhead c rfl
      exact ⟨dropWhile_cons_of_neg (by simp [hc]), takeWhile_cons_of_neg (by simp [hc])⟩
  refine ⟨?_, ?_, fun a => ?_, rfl, rfl, rfl, fun a ha => .inl ha⟩
  · rw [hdrop.1]
    exact h
  · rw [hdrop.2]
    rfl
  · rw [if_neg (by omega)]

theorem gobbled {n : ℕ} (h : At stop s rest)
    (hn : rest.length < n) : Gobbled stop s rest (gobble n s) := by
  induction n generalizing s rest with
  | zero => omega
  | succ n ih =>
    rw [gobble]
    cases rest with
    | nil =>
      rw [if_neg fun hloop => hloop.1 (h.string.nil_iff.mpr rfl)]
      exact Gobbled.stay h (by simp)
    | cons c rest =>
      have hlast := h.last
      rw [h.string.head]
      rw [length_cons] at hn hlast
      by_cases hc : isWhitespace c = true
      · have hnext : At stop { s with
            mem := Function.update s.mem s.buf NUL
            buf := s.buf + 1
            stored := s.buf :: s.stored } rest :=
          ⟨h.string.tail.update (Nat.lt_succ_self _) NUL, by simp only; omega⟩
        have hrest := ih hnext (by omega)
        rw [if_pos ⟨h.string.head_ne, strchr_blank.mpr hc⟩]
        generalize gobble n _ = t at hrest ⊢
        refine ⟨?_, ?_, fun a => ?_, hrest.argc, hrest.argv, hrest.slots, fun a ha => ?_⟩
        · rw [dropWhile_cons_of_pos hc]
          exact hrest.ahead
        · rw [hrest.buf, takeWhile_cons_of_pos hc, length_cons]
          simp only
          omega
        · have hbuf := hrest.buf
          rw [hrest.mem a]
          simp only at hbuf ⊢
          rcases lt_trichotomy a s.buf with hlt | rfl | hgt
          · rw [if_neg (by omega), if_neg (by omega), update_of_ne (by omega)]
          · rw [if_neg (by omega), if_pos (by omega), update_self]
          · rw [update_of_ne (by omega)]
            by_cases hend : a < t.buf
            · rw [if_pos (by omega), if_pos (by omega)]
            · rw [if_neg (by omega), if_neg (by omega)]
        · rcases hrest.stored a ha with hold | hnew
          · rcases mem_cons.mp hold with rfl | hold
            · exact .inr ⟨le_rfl, by omega⟩
            · exact .inl hold
          · simp only at hnew
            exact .inr (by omega)
      · rw [if_neg fun hloop => hc (strchr_blank.mp hloop.2)]
        apply Gobbled.stay h
        intro d hd
        rw [head?_cons, Option.mem_some_iff] at hd
        simpa [← hd] using hc

/-- What the scan past a word does: only the pointer moves. -/
theorem scanPast_eq {n : ℕ} (h : At stop s rest) (hn : rest.length < n) :
    scanPast n s = { s with buf := s.buf + (rest.takeWhile fun c => !isWhitespace c).length } ∧
      At stop (scanPast n s) (rest.dropWhile fun c => !isWhitespace c) := by
  induction n generalizing s rest with
  | zero => omega
  | succ n ih =>
    rw [scanPast]
    cases rest with
    | nil =>
      rw [if_neg fun hloop => hloop.1 (h.string.nil_iff.mpr rfl)]
      exact ⟨rfl, h⟩
    | cons c rest =>
      have hlast := h.last
      rw [h.string.head]
      rw [length_cons] at hn hlast
      by_cases hc : isWhitespace c = false
      · have hnext : At stop { s with buf := s.buf + 1 } rest :=
          ⟨h.string.tail, by simp only; omega⟩
        obtain ⟨heq, hat⟩ := ih hnext (by omega)
        rw [if_pos ⟨h.string.head_ne, strchr_other.mpr hc⟩,
          dropWhile_cons_of_pos (by simp [hc]), takeWhile_cons_of_pos (by simp [hc])]
        refine ⟨?_, hat⟩
        rw [heq, length_cons]
        simp only [Nat.add_assoc, Nat.add_comm 1]
      · rw [if_neg fun hloop => hc (strchr_other.mp hloop.2), dropWhile_cons_of_neg (by simpa using hc),
          takeWhile_cons_of_neg (by simpa using hc)]
        exact ⟨rfl, h⟩

/-- The words that stand in argv. The NUL behind the last of them may be missing while the
pointer stands there. -/
structure Words (s : Cmd) (words : List (List Char)) : Prop where
  argc : s.argc = words.length
  stands : ∀ i word, words[i]? = some word → ∃ q, s.argv i = some q ∧
    q + word.length ≤ s.buf ∧ (∀ j c, word[j]? = some c → s.mem (q + j) = c) ∧ NUL ∉ word ∧
    (q + word.length < s.buf → s.mem (q + word.length) = NUL)

variable {words : List (List Char)}

theorem Words.gobble {s t : Cmd}
    (h : Words s words) (ht : Gobbled stop s rest t) : Words t words where
  argc := ht.argc.trans h.argc
  stands := by
    intro i word hword
    obtain ⟨q, hq, hend, hchars, hproper, hnul⟩ := h.stands i word hword
    have hbuf := ht.buf
    refine ⟨q, by rw [ht.argv, hq], by omega, fun j c hc => ?_, hproper, fun hlt => ?_⟩
    · obtain ⟨hj, _⟩ := List.getElem?_eq_some_iff.mp hc
      rw [ht.mem, if_neg (by omega)]
      exact hchars j c hc
    · rw [ht.mem]
      by_cases hold : q + word.length < s.buf
      · rw [if_neg (by omega)]
        exact hnul hold
      · rw [if_pos (by omega)]

/-- With the pointer at the end of the line every word is a string. -/
theorem Words.strings (h : Words s words) (hend : s.mem s.buf = NUL) (i : ℕ) (word : List Char)
    (hword : words[i]? = some word) : ∃ q, s.argv i = some q ∧ StringAt s.mem q word := by
  obtain ⟨q, hq, hle, hchars, hproper, hnul⟩ := h.stands i word hword
  refine ⟨q, hq, hchars, ?_, hproper⟩
  rcases Nat.lt_or_eq_of_le hle with hlt | heq
  · exact hnul hlt
  · rw [heq, hend]

theorem Words.snoc (h : Words s words)
    (hclosed : ∀ i word q, words[i]? = some word → s.argv i = some q → q + word.length ≠ s.buf)
    {word : List Char} (hchars : ∀ j c, word[j]? = some c → s.mem (s.buf + j) = c)
    (hproper : NUL ∉ word) :
    Words { s.setArgv (some s.buf) with argc := s.argc + 1, buf := s.buf + word.length }
      (words ++ [word]) where
  argc := by
    rw [length_append, length_singleton, ← h.argc]
  stands := by
    intro i w hw
    simp only [Cmd.setArgv, h.argc]
    rcases lt_trichotomy i words.length with hlt | rfl | hgt
    · rw [getElem?_append_left hlt] at hw
      obtain ⟨q, hq, hle, hold, hnonul, hnul⟩ := h.stands i w hw
      have hne := hclosed i w q hw hq
      rw [update_of_ne (by omega)]
      exact ⟨q, hq, by omega, hold, hnonul, fun _ => hnul (by omega)⟩
    · rw [getElem?_concat_length, Option.some.injEq] at hw
      rw [update_self, ← hw]
      exact ⟨s.buf, rfl, le_rfl, hchars, hproper, fun hlt => absurd hlt (lt_irrefl _)⟩
    · rw [getElem?_eq_none (by rw [length_append, length_singleton]; omega)] at hw
      cases hw

/-- Every write so far was inside the line, from `first` up to its NUL, and inside argv. -/
structure Inside (first stop : ℕ) (s : Cmd) : Prop where
  stored : ∀ a ∈ s.stored, first ≤ a ∧ a < stop
  slots : ∀ i ∈ s.slots, i < MAXARGS

theorem Inside.setArgv {first stop : ℕ} (h : Inside first stop s)
    (hargc : s.argc < MAXARGS) (p : Option ℕ) : Inside first stop (s.setArgv p) where
  stored := h.stored
  slots := by
    intro i hi
    rcases mem_cons.mp hi with rfl | hold
    · exact hargc
    · exact h.slots i hold

structure Scan (first stop : ℕ) (line : List Char) (s : Cmd) (rest : List Char)
    (words : List (List Char)) : Prop where
  ahead : At stop s rest
  begun : first ≤ s.buf
  placed : Words s words
  split : runs line = words ++ runs rest
  boundary : words ≠ [] → ∀ c ∈ rest.head?, isWhitespace c = true
  count : words.length ≤ MAXARGS - 1
  inside : Inside first stop s

def Split.Good (first stop : ℕ) (line : List Char) : Split → Prop
  | .done t => Inside first stop t ∧ (runs line).length ≤ MAXARGS - 1 ∧
    t.argc = (runs line).length ∧
    (∀ i word, (runs line)[i]? = some word → ∃ q, t.argv i = some q ∧ StringAt t.mem q word) ∧
    t.argv t.argc = none
  | .tooMany t => Inside first stop t ∧ MAXARGS - 1 < (runs line).length
  | .running _ => False

section Scan

variable {first stop : ℕ} {line rest : List Char} {s t : Cmd} {words : List (List Char)}

theorem Inside.gobble (h : Inside first stop s) (hfirst : first ≤ s.buf)
    (ht : Gobbled stop s rest t) : Inside first stop t where
  stored := by
    intro a ha
    rcases ht.stored a ha with hold | hnew
    · exact h.stored a hold
    · omega
  slots := by
    rw [ht.slots]
    exact h.slots

theorem Scan.done (h : Scan first stop line s rest words) (ht : Gobbled stop s rest t)
    (hend : rest.dropWhile isWhitespace = []) :
    (Split.done (t.setArgv none)).Good first stop line := by
  have hruns : runs line = words := by
    rw [h.split, ← runs_blanks, hend, runs_nil, append_nil]
  have hwords := h.placed.gobble ht
  have hcount := h.count
  have hargc : t.argc < MAXARGS := by
    rw [hwords.argc]
    exact Nat.lt_of_le_of_lt hcount (by decide)
  have hnul : t.mem t.buf = NUL := ht.ahead.string.nil_iff.mpr hend
  refine ⟨(h.inside.gobble h.begun ht).setArgv hargc none, ?_, ?_, ?_, ?_⟩
  · rw [hruns]
    exact hcount
  · rw [hruns]
    exact hwords.argc
  · rw [hruns]
    intro i word hword
    obtain ⟨hi, _⟩ := List.getElem?_eq_some_iff.mp hword
    obtain ⟨q, hq, hstring⟩ := hwords.strings hnul i word hword
    refine ⟨q, ?_, hstring⟩
    rw [Cmd.setArgv]
    simp only [hwords.argc]
    rw [update_of_ne (by omega), hq]
  · rw [Cmd.setArgv]
    exact update_self ..

theorem takeWhile_dropWhile_chars (p : Char → Bool) (l : List Char) :
    (∀ c ∈ l.takeWhile p, p c = true) ∧ ∀ c ∈ (l.dropWhile p).head?, p c = false := by
  refine ⟨fun c hc => all_eq_true.mp all_takeWhile c hc, fun c hc => ?_⟩
  have := head?_dropWhile_not p l
  rw [hc] at this
  simpa using this

theorem takeWhile_ne_nil {l : List Char} (hsome : l.dropWhile isWhitespace ≠ []) :
    ((l.dropWhile isWhitespace).takeWhile fun c => !isWhitespace c) ≠ [] := by
  have hhead := (takeWhile_dropWhile_chars isWhitespace l).2
  cases hdrop : l.dropWhile isWhitespace with
  | nil => exact absurd hdrop hsome
  | cons c tail =>
    rw [hdrop] at hhead
    rw [takeWhile_cons_of_pos (by simp [hhead c rfl])]
    exact cons_ne_nil _ _

/-- The first run of a line stands behind its blanks, up to the next blank. -/
theorem runs_of_dropWhile {l : List Char} (hsome : l.dropWhile isWhitespace ≠ []) :
    runs l = ((l.dropWhile isWhitespace).takeWhile fun c => !isWhitespace c) ::
      runs ((l.dropWhile isWhitespace).dropWhile fun c => !isWhitespace c) := by
  obtain ⟨hword, hrest⟩ := takeWhile_dropWhile_chars (fun c => !isWhitespace c)
    (l.dropWhile isWhitespace)
  rw [← runs_word (takeWhile_ne_nil hsome) (fun c hc => by simpa using hword c hc)
    (fun c hc => by simpa using hrest c hc), takeWhile_append_dropWhile, runs_blanks]

variable (h : Scan first stop line s rest words)

include h

/-- Behind a word there is a blank before the next one. -/
theorem Scan.blank_passed (hsome : rest.dropWhile isWhitespace ≠ []) (hwords : words ≠ []) :
    0 < (rest.takeWhile isWhitespace).length := by
  cases rest with
  | nil => exact absurd rfl hsome
  | cons c rest =>
    rw [takeWhile_cons_of_pos (h.boundary hwords c rfl), length_cons]
    exact Nat.succ_pos _

theorem Scan.word (ht : Gobbled stop s rest t) (hsome : rest.dropWhile isWhitespace ≠ [])
    (hroom : words.length ≠ MAXARGS - 1) {rounds : ℕ} (hrounds : rest.length < rounds) :
    ∃ rest', rest'.length < rest.length ∧
      Scan first stop line
        (scanPast rounds { t.setArgv (some t.buf) with argc := t.argc + 1 }) rest'
        (words ++ [(rest.dropWhile isWhitespace).takeWhile fun c => !isWhitespace c]) := by
  have hwords := h.placed.gobble ht
  have hbuf := ht.buf
  have hcount := h.count
  have hargc : t.argc < MAXARGS := by
    rw [hwords.argc]
    exact Nat.lt_of_le_of_lt hcount (by decide)
  have hshort : (rest.dropWhile isWhitespace).length ≤ rest.length :=
    (dropWhile_sublist _).length_le
  have hrest := (takeWhile_dropWhile_chars (fun c => !isWhitespace c)
    (rest.dropWhile isWhitespace)).2
  have happend := takeWhile_append_dropWhile (p := fun c => !isWhitespace c)
    (l := rest.dropWhile isWhitespace)
  have hnext : At stop { t.setArgv (some t.buf) with argc := t.argc + 1 }
      (rest.dropWhile isWhitespace) := ⟨ht.ahead.string, ht.ahead.last⟩
  obtain ⟨hscan, hat⟩ := scanPast_eq hnext (Nat.lt_of_le_of_lt hshort hrounds)
  have hne := takeWhile_ne_nil hsome
  have hruns := runs_of_dropWhile hsome
  generalize (rest.dropWhile isWhitespace).takeWhile (fun c => !isWhitespace c) = word
    at happend hscan hne hruns ⊢
  generalize (rest.dropWhile isWhitespace).dropWhile (fun c => !isWhitespace c) = rest'
    at hrest happend hat hruns ⊢
  have hpos := length_pos_iff.mpr hne
  refine ⟨rest', ?_, hat, ?_, ?_, ?_, fun _ c hc => ?_, ?_, ?_⟩
  · rw [← happend, length_append] at hshort
    omega
  · rw [hscan]
    have := h.begun
    simp only [Cmd.setArgv]
    omega
  · rw [hscan]
    refine hwords.snoc ?_ ?_ ?_
    · -- a word before this one ends before the blanks that were passed
      intro i w q hw hq
      obtain ⟨q', hq', hle, _⟩ := h.placed.stands i w hw
      rw [ht.argv, hq', Option.some.injEq] at hq
      have hblank := h.blank_passed hsome (ne_nil_of_mem (mem_of_getElem? hw))
      omega
    · intro j c hc
      apply ht.ahead.string.chars
      rw [← happend, getElem?_append_left (List.getElem?_eq_some_iff.mp hc).1, hc]
    · intro hmem
      apply ht.ahead.string.proper
      rw [← happend]
      exact mem_append_left _ hmem
  · rw [h.split, hruns, append_assoc, singleton_append]
  · simpa using hrest c hc
  · rw [length_append, length_singleton]
    omega
  · rw [hscan]
    have hput := (h.inside.gobble h.begun ht).setArgv hargc (some t.buf)
    exact ⟨hput.stored, hput.slots⟩

theorem splitLine_good {rounds n : ℕ} (hrounds : rest.length < rounds) (hn : rest.length < n) :
    (splitLine rounds n s).Good first stop line := by
  induction n generalizing s rest words with
  | zero => omega
  | succ n ih =>
    have ht := gobbled h.ahead hrounds
    rw [splitLine]
    generalize gobble rounds s = t at ht
    dsimp only
    by_cases hend : rest.dropWhile isWhitespace = []
    · rw [if_pos (ht.ahead.string.nil_iff.mpr hend)]
      exact h.done ht hend
    rw [if_neg fun hnul => hend (ht.ahead.string.nil_iff.mp hnul)]
    have hargc := (h.placed.gobble ht).argc
    by_cases hfull : words.length = MAXARGS - 1
    · rw [if_pos (hargc.trans hfull)]
      refine ⟨h.inside.gobble h.begun ht, ?_⟩
      rw [h.split, length_append, hfull, runs_of_dropWhile hend, length_cons]
      omega
    · rw [if_neg fun heq => hfull (hargc.symm.trans heq)]
      obtain ⟨rest', hless, hnext⟩ := h.word ht hend hfull hrounds
      exact ih hnext (by omega) (by omega)

end Scan

section Lookup

variable {mem : ℕ → Char} {p : ℕ} {name text : List Char}

theorem toNat_eq_zero_iff {c : Char} : c.toNat = 0 ↔ c = NUL := by
  constructor
  · intro h
    apply Char.ext
    apply UInt32.toNat.inj
    exact h
  · rintro rfl
    rfl

theorem toNat_sub_eq_zero_iff {c d : Char} : (c.toNat : ℤ) - d.toNat = 0 ↔ c = d := by
  constructor
  · intro h
    apply Char.ext
    apply UInt32.toNat.inj
    exact Int.ofNat_inj.mp (Int.sub_eq_zero.mp h)
  · rintro rfl
    exact Int.sub_self _

theorem strcmp_eq_zero_iff (h : StringAt mem p text) (hname : NUL ∉ name) :
    strcmp mem p name = 0 ↔ name = text := by
  induction name generalizing p text with
  | nil =>
    rw [strcmp, Int.natCast_eq_zero, toNat_eq_zero_iff, h.nil_iff]
    exact eq_comm
  | cons q rest ih =>
    have hq : q ≠ NUL := fun heq => hname (heq ▸ mem_cons_self)
    have hrest : NUL ∉ rest := fun hmem => hname (mem_cons_of_mem _ hmem)
    rw [strcmp]
    cases text with
    | nil =>
      have hnul : mem p = NUL := h.nil_iff.mpr rfl
      rw [if_neg fun hboth => hboth.1 hnul, toNat_sub_eq_zero_iff, hnul]
      exact iff_of_false hq.symm (cons_ne_nil _ _)
    | cons c tail =>
      rw [List.cons.injEq]
      by_cases hc : c = q
      · have hhead : mem p = q := h.head.trans hc
        rw [if_pos ⟨h.head ▸ h.head_ne, hhead⟩, ih h.tail hrest]
        exact ⟨fun heq => ⟨hc.symm, heq⟩, And.right⟩
      · rw [if_neg fun hboth => hc (h.head.symm.trans hboth.2), toNat_sub_eq_zero_iff, h.head]
        exact iff_of_false hc fun hboth => hc hboth.1.symm

variable {table : List (Command × String × String)}

/-- The loop over the table finds the first entry of that name. -/
theorem lookup_eq_find
    (hproper : ∀ entry ∈ table, NUL ∉ entry.2.1.toList) (h : StringAt mem p text) :
    lookup mem p table =
      (table.find? fun entry => entry.2.1 == String.ofList text).map Prod.fst := by
  induction table with
  | nil => rfl
  | cons entry rest ih =>
    have hrest := ih fun entry hentry => hproper entry (mem_cons_of_mem _ hentry)
    have hcmp := strcmp_eq_zero_iff h (hproper entry mem_cons_self)
    rw [lookup]
    by_cases heq : entry.2.1.toList = text
    · rw [if_pos (hcmp.mpr heq), find?_cons_of_pos (by simp [← heq]), Option.map_some]
    · have hname : ¬ entry.2.1 = String.ofList text := by
        intro hname
        apply heq
        rw [hname, String.toList_ofList]
      rw [if_neg fun hzero => heq (hcmp.mp hzero), hrest, find?_cons_of_neg (by simpa using hname)]

/-- With different names there is no other entry of that name. -/
theorem find_eq_some_iff (hnames : (table.map fun entry => entry.2.1).Nodup) (name : String)
    (entry : Command × String × String) :
    (table.find? fun entry => entry.2.1 == name) = some entry ↔
      entry ∈ table ∧ entry.2.1 = name := by
  constructor
  · intro h
    exact ⟨mem_of_find?_eq_some h, by simpa using find?_some h⟩
  · intro h
    obtain ⟨hmem, hname⟩ := h
    cases hfind : table.find? fun entry => entry.2.1 == name with
    | none =>
      have := find?_eq_none.mp hfind entry hmem
      simp [hname] at this
    | some other =>
      have hother : other.2.1 = entry.2.1 := by
        rw [hname]
        simpa using find?_some hfind
      rw [inj_on_of_nodup_map hnames (mem_of_find?_eq_some hfind) hmem hother]

theorem table_names : (Command.table.map fun entry => entry.2.1).Nodup := by decide

theorem table_proper : ∀ entry ∈ Command.table, NUL ∉ entry.2.1.toList := by decide

theorem find_table_iff {name : String} {cmd : Command} :
    (Command.table.find? fun entry => entry.2.1 == name).map Prod.fst = some cmd ↔
      ∃ desc, (cmd, name, desc) ∈ Command.table := by
  rw [Option.map_eq_some_iff]
  constructor
  · intro h
    obtain ⟨⟨first, title, desc⟩, hfind, rfl⟩ := h
    obtain ⟨hmem, rfl⟩ := (find_eq_some_iff table_names name _).mp hfind
    exact ⟨desc, hmem⟩
  · intro h
    obtain ⟨desc, hmem⟩ := h
    exact ⟨_, (find_eq_some_iff table_names name _).mpr ⟨hmem, rfl⟩, rfl⟩

end Lookup

/-- With the words in argv, the command that is invoked has the name of the first. -/
theorem invoke_eq_invoked_iff (hargc : s.argc = words.length)
    (hwords : ∀ i word, words[i]? = some word → ∃ q, s.argv i = some q ∧ StringAt s.mem q word)
    (cmd : Command) :
    invoke s = .invoked cmd ↔
      ∃ word desc, words.head? = some word ∧ (cmd, String.ofList word, desc) ∈ Command.table := by
  rw [invoke, hargc]
  cases words with
  | nil => simp
  | cons word rest =>
    obtain ⟨q, hq, hstring⟩ := hwords 0 word rfl
    rw [if_neg (by simp), hq]
    simp only [head?_cons, Option.some.injEq, exists_and_left, exists_eq_left']
    rw [← find_table_iff, ← lookup_eq_find table_proper hstring]
    cases lookup s.mem q Command.table with
    | none => simp
    | some other => simp

theorem scan_start {mem : ℕ → Char} {p : ℕ} {line : List Char} (h : StringAt mem p line)
    (argv : ℕ → Option ℕ) :
    Scan p (p + line.length) line (Cmd.setArgv ⟨mem, p, 0, argv, [], []⟩ none) line [] where
  ahead := ⟨h, rfl⟩
  begun := le_rfl
  placed := ⟨rfl, by simp⟩
  split := rfl
  boundary h := absurd rfl h
  count := Nat.zero_le _
  inside := Inside.setArgv ⟨by simp, by simp⟩ (show 0 < MAXARGS by decide) none

/-- The two ways through runcmd: the line is split and a command is looked up, or it has too
many words. -/
theorem runcmd_cases {mem : ℕ → Char} {p : ℕ} {line : List Char} (hline : StringAt mem p line)
    (argv : ℕ → Option ℕ) {rounds : ℕ} (hrounds : line.length < rounds) :
    ∃ s, Inside p (p + line.length) s ∧
      ((runs line).length ≤ MAXARGS - 1 ∧ runcmd rounds mem p argv = (invoke s, s) ∧
          s.argc = (runs line).length ∧
          (∀ i word, (runs line)[i]? = some word → ∃ q, s.argv i = some q ∧ StringAt s.mem q word) ∧
          s.argv s.argc = none ∨
        MAXARGS - 1 < (runs line).length ∧ runcmd rounds mem p argv = (.tooMany, s)) := by
  have hgood := splitLine_good (scan_start hline argv) hrounds hrounds
  rw [runcmd]
  cases hsplit : splitLine rounds rounds (Cmd.setArgv ⟨mem, p, 0, argv, [], []⟩ none) with
  | running s =>
    rw [hsplit] at hgood
    exact absurd hgood id
  | tooMany s =>
    rw [hsplit] at hgood
    obtain ⟨hinside, hmany⟩ := hgood
    exact ⟨s, hinside, .inr ⟨hmany, rfl⟩⟩
  | done s =>
    rw [hsplit] at hgood
    obtain ⟨hinside, hle, hargc, hwords, hnull⟩ := hgood
    exact ⟨s, hinside, .inl ⟨hle, rfl, hargc, hwords, hnull⟩⟩

/-- For every NUL-terminated line in the memory: all writes are inside the line and inside
argv. A line of at most MAXARGS - 1 runs has its runs in argv, as strings in their order and
followed by a null pointer, and the command with the name of the first run, and no other, is
invoked; with more runs none is. -/
theorem runcmd_splits {mem : ℕ → Char} {p : ℕ} {line : List Char} (hline : StringAt mem p line)
    (argv : ℕ → Option ℕ) {rounds : ℕ} (hrounds : line.length < rounds) :
    (∀ a ∈ (runcmd rounds mem p argv).2.stored, p ≤ a ∧ a < p + line.length) ∧
      (∀ i ∈ (runcmd rounds mem p argv).2.slots, i < MAXARGS) ∧
      ((runs line).length ≤ MAXARGS - 1 →
        (runcmd rounds mem p argv).2.argc = (runs line).length ∧
        (∀ i word, (runs line)[i]? = some word →
          ∃ q, (runcmd rounds mem p argv).2.argv i = some q ∧
            StringAt (runcmd rounds mem p argv).2.mem q word) ∧
        (runcmd rounds mem p argv).2.argv (runs line).length = none ∧
        ∀ cmd, (runcmd rounds mem p argv).1 = .invoked cmd ↔
          ∃ word desc, (runs line).head? = some word ∧
            (cmd, String.ofList word, desc) ∈ Command.table) ∧
      (MAXARGS - 1 < (runs line).length → (runcmd rounds mem p argv).1 = .tooMany) := by
  obtain ⟨s, hinside, ⟨hle, hrun, hargc, hwords, hnull⟩ | ⟨hmany, hrun⟩⟩ :=
    runcmd_cases hline argv hrounds
  · rw [hrun]
    refine ⟨hinside.stored, hinside.slots, fun _ => ?_, fun hmany => absurd hmany (by omega)⟩
    rw [hargc] at hnull
    exact ⟨hargc, hwords, hnull, invoke_eq_invoked_iff hargc hwords⟩
  · rw [hrun]
    exact ⟨hinside.stored, hinside.slots, fun hle => absurd hmany (by omega), fun _ => rfl⟩

/-- The line " help me": two words, and the command help is invoked. -/
theorem runcmd_splits_help :
    let mem : ℕ → Char := fun a => " help me".toList.getD a NUL
    StringAt mem 0 " help me".toList ∧ runs " help me".toList = ["help".toList, "me".toList] ∧
      (runcmd 9 mem 0 fun _ => none).1 = .invoked .help := by
  intro mem
  have hline : StringAt mem 0 " help me".toList := by
    refine ⟨fun i c hc => ?_, rfl, by decide⟩
    rw [Nat.zero_add]
    simp only [mem, getD_eq_getElem?_getD, hc, Option.getD_some]
  have hruns : runs " help me".toList = ["help".toList, "me".toList] := by decide
  have hmain := (runcmd_splits hline (fun _ => none) (show _ < 9 by decide)).2.2.1
  rw [hruns] at hmain
  refine ⟨hline, hruns, ((hmain (by decide)).2.2.2 .help).mpr ?_⟩
  exact ⟨_, _, rfl, by simp [Command.table]; rfl⟩

/-! ### The runs as the words of the monitor -/

theorem scanArgs_eq {n : ℕ} {line : List Char} {argv : List String} (hn : line.length < n)
    (hcount : argv.length ≤ MAXARGS - 1) :
    scanArgs n line argv =
      if argv.length + (runs line).length ≤ MAXARGS - 1 then
        some (argv ++ (runs line).map String.ofList)
      else none := by
  induction n generalizing line argv with
  | zero => omega
  | succ n ih =>
    rw [scanArgs]
    by_cases hend : line.dropWhile isWhitespace = []
    · have hruns : runs line = [] := by rw [← runs_blanks, hend, runs_nil]
      rw [hend, hruns, if_pos (by simpa using hcount), map_nil, append_nil]
    · have hruns := runs_of_dropWhile hend
      have hless : ((line.dropWhile isWhitespace).dropWhile fun c => !isWhitespace c).length < n := by
        have hshort := (dropWhile_sublist isWhitespace (l := line)).length_le
        have hword := length_pos_iff.mpr (takeWhile_ne_nil hend)
        have happend := congrArg length (takeWhile_append_dropWhile (p := fun c => !isWhitespace c)
          (l := line.dropWhile isWhitespace))
        rw [length_append] at happend
        omega
      rw [hruns, length_cons]
      cases hdrop : line.dropWhile isWhitespace with
      | nil => exact absurd hdrop hend
      | cons c rest =>
        rw [hdrop] at hless
        dsimp only
        by_cases hfull : argv.length = MAXARGS - 1
        · rw [if_pos hfull, if_neg (by omega)]
        · rw [if_neg hfull, ih hless (by rw [length_append, length_singleton]; omega)]
          simp only [length_append, length_singleton, map_cons, append_assoc, singleton_append,
            Nat.add_assoc, Nat.add_comm 1]

/-- runcmd over the bytes invokes the command that the words of the line name. -/
theorem runcmd_invoked_iff_lineCommand {mem : ℕ → Char} {p : ℕ} {line : List Char}
    (hline : StringAt mem p line) (argv : ℕ → Option ℕ) {rounds : ℕ}
    (hrounds : line.length < rounds) (cmd : Command) :
    (runcmd rounds mem p argv).1 = .invoked cmd ↔
      lineCommand line = some (cmd, (runs line).map String.ofList) := by
  rw [lineCommand, parseLine, scanArgs_eq (Nat.lt_succ_self _) (Nat.zero_le _), length_nil,
    Nat.zero_add, nil_append]
  obtain ⟨s, _, ⟨hle, hrun, hargc, hwords, _⟩ | ⟨hmany, hrun⟩⟩ := runcmd_cases hline argv hrounds
  · rw [hrun, if_pos hle, invoke_eq_invoked_iff hargc hwords]
    cases runs line with
    | nil => simp
    | cons word rest =>
      simp only [head?_cons, Option.some.injEq, exists_and_left, exists_eq_left', map_cons]
      rw [← find_table_iff, Option.map_eq_some_iff, Option.map_eq_some_iff]
      simp only [Prod.mk.injEq, and_true]
  · rw [hrun, if_neg (by omega)]
    simp

end KernelLabs.CommandLine

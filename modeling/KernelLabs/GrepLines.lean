import Mathlib.Data.List.Basic

/-!
grep.c of xv6: the matcher and the loop that reads the input into a buffer of 1024 bytes, writes
the lines that match and moves the unfinished line to the front for the next read. Strings are
lists of bytes without the NUL at their end. A run is given by the chunks that the calls of read
return one after the other.
-/
namespace KernelLabs.GrepLines

open List Option

abbrev Byte := UInt8

abbrev newline : Byte := 10

abbrev caret : Byte := 94

abbrev dot : Byte := 46

abbrev star : Byte := 42

abbrev dollar : Byte := 36

abbrev BUFSIZE : ℕ := 1024

/-! ### The model -/

mutual

def matchhere (re text : List Byte) : Bool :=
  match re with
  | [] => true
  | c :: re =>
    if re.head? = some star then matchstar c re.tail text
    else if c = dollar ∧ re = [] then text = []
    else
      match text with
      | [] => false
      | t :: text => (c = dot || c = t) && matchhere re text
termination_by (re.length, text.length, 0)
decreasing_by
  · exact Prod.Lex.left _ _ (by rw [length_tail, length_cons]; omega)
  · exact Prod.Lex.left _ _ (by rw [length_cons]; omega)

def matchstar (c : Byte) (re text : List Byte) : Bool :=
  matchhere re text ||
    match text with
    | [] => false
    | t :: text => (t = c || c = dot) && matchstar c re text
termination_by (re.length, text.length, 1)
decreasing_by
  · exact Prod.Lex.right _ (Prod.Lex.right _ Nat.zero_lt_one)
  · exact Prod.Lex.right _ (Prod.Lex.left _ _ (by rw [length_cons]; omega))

end

def matchAnywhere (re : List Byte) : List Byte → Bool
  | [] => matchhere re []
  | t :: text => matchhere re (t :: text) || matchAnywhere re text

def match_ (re text : List Byte) : Bool :=
  if re.head? = some caret then matchhere re.tail text else matchAnywhere re text

def strchr : List Byte → Option (List Byte × List Byte)
  | [] => none
  | c :: p =>
    if c = newline then some ([], p)
    else if c = 0 then none
    else (strchr p).map (Prod.map (c :: ·) id)

variable {r : List Byte × List Byte}

theorem strchr_eq_some {p : List Byte} (h : strchr p = some r) :
    p = r.1 ++ newline :: r.2 ∧ newline ∉ r.1 := by
  induction p generalizing r with
  | nil => exact absurd h nofun
  | cons c p ih =>
    rw [strchr] at h
    split_ifs at h with hnewline hnul
    · obtain rfl := some.inj h
      exact ⟨by rw [hnewline]; rfl, not_mem_nil⟩
    · obtain ⟨r', hr', rfl⟩ := map_eq_some_iff.mp h
      obtain ⟨hp, hno⟩ := ih hr'
      refine ⟨by rw [hp]; rfl, ?_⟩
      exact not_mem_cons_of_ne_of_not_mem (Ne.symm hnewline) hno

theorem length_of_strchr {p : List Byte} (h : strchr p = some r) : r.2.length < p.length := by
  rw [(strchr_eq_some h).1, length_append, length_cons]
  omega

def scan (pattern p : List Byte) : List Byte × List Byte :=
  match _h : strchr p with
  | none => ([], p)
  | some r =>
    let s := scan pattern r.2
    ((if match_ pattern r.1 then r.1 ++ [newline] else []) ++ s.1, s.2)
termination_by p.length
decreasing_by exact length_of_strchr _h

def kept (pattern buf : List Byte) : List Byte :=
  let p := (scan pattern buf).2
  if p.length = buf.length then [] else p

def grepLoop (pattern : List Byte) : List Byte → List (List Byte) → List Byte
  | _, [] => []
  | buf, chunk :: reads =>
    (scan pattern (buf ++ chunk)).1 ++ grepLoop pattern (kept pattern (buf ++ chunk)) reads

def grep (pattern : List Byte) (reads : List (List Byte)) : List Byte := grepLoop pattern [] reads

/-- Every call of read returns at least one byte, and no more than there is room for. -/
def Possible (pattern : List Byte) : List Byte → List (List Byte) → Prop
  | _, [] => True
  | buf, chunk :: reads =>
    (chunk ≠ [] ∧ chunk.length ≤ BUFSIZE - buf.length - 1) ∧
      Possible pattern (kept pattern (buf ++ chunk)) reads

/-! ### Lines -/

def stream (lines : List (List Byte)) : List Byte := lines.flatMap (· ++ [newline])

def matching (pattern : List Byte) (lines : List (List Byte)) : List Byte :=
  stream (lines.filter (match_ pattern))

/-- Lines that fit the buffer, without the bytes that end a line or a string. -/
structure Text (lines : List (List Byte)) : Prop where
  short : ∀ line ∈ lines, line.length < 1023
  whole : ∀ line ∈ lines, newline ∉ line
  clean : ∀ line ∈ lines, 0 ∉ line

theorem Text.right {lines rest : List (List Byte)} (h : Text (lines ++ rest)) : Text rest :=
  ⟨fun l hl => h.short l (mem_append_right _ hl),
    fun l hl => h.whole l (mem_append_right _ hl),
    fun l hl => h.clean l (mem_append_right _ hl)⟩

theorem Text.not_mem_stream {lines : List (List Byte)} (h : Text lines) : 0 ∉ stream lines := by
  intro h0
  obtain ⟨line, hline, h0⟩ := mem_flatMap.mp h0
  rcases mem_append.mp h0 with h0 | h0
  · exact h.clean line hline h0
  · exact absurd (mem_singleton.mp h0) (by decide)

@[simp] theorem stream_nil : stream [] = [] := rfl

theorem stream_cons (line : List Byte) (lines : List (List Byte)) :
    stream (line :: lines) = line ++ newline :: stream lines := by
  rw [stream, flatMap_cons, append_assoc]
  rfl

theorem stream_append (lines rest : List (List Byte)) :
    stream (lines ++ rest) = stream lines ++ stream rest := flatMap_append

theorem matching_append (pattern : List Byte) (lines rest : List (List Byte)) :
    matching pattern (lines ++ rest) = matching pattern lines ++ matching pattern rest := by
  rw [matching, filter_append, stream_append]
  rfl

theorem matching_cons (pattern line : List Byte) (lines : List (List Byte)) :
    matching pattern (line :: lines) =
      (if match_ pattern line then line ++ [newline] else []) ++ matching pattern lines := by
  unfold matching
  by_cases hmatch : match_ pattern line
  · rw [if_pos hmatch, filter_cons_of_pos hmatch, stream_cons, append_assoc]
    rfl
  · rw [if_neg hmatch, filter_cons_of_neg hmatch, nil_append]

theorem length_matching_le (pattern : List Byte) (lines : List (List Byte)) :
    (matching pattern lines).length ≤ (stream lines).length := by
  induction lines with
  | nil => exact Nat.le_refl _
  | cons line lines ih =>
    rw [matching_cons, stream_cons, length_append, length_append, length_cons]
    split_ifs
    · rw [length_append, length_singleton]
      omega
    · rw [length_nil]
      omega

theorem mem_stream {b : Byte} {line : List Byte} {lines : List (List Byte)}
    (hline : line ∈ lines) (hb : b ∈ line) : b ∈ stream lines :=
  mem_flatMap.mpr ⟨line, hline, mem_append_left _ hb⟩

/-- Every string is made of lines and the bytes behind the last newline. -/
theorem exists_lines (p : List Byte) : ∃ lines rest, p = stream lines ++ rest ∧
    newline ∉ rest ∧ ∀ line ∈ lines, newline ∉ line := by
  induction p with
  | nil => exact ⟨[], [], rfl, not_mem_nil, nofun⟩
  | cons c p ih =>
    obtain ⟨lines, rest, rfl, hrest, hlines⟩ := ih
    by_cases hc : c = newline
    · refine ⟨[] :: lines, rest, ?_, hrest,
        forall_mem_cons.mpr ⟨not_mem_nil, hlines⟩⟩
      rw [stream_cons, hc]
      rfl
    · cases lines with
      | nil =>
        exact ⟨[], c :: rest, rfl, not_mem_cons_of_ne_of_not_mem (Ne.symm hc) hrest, nofun⟩
      | cons line lines =>
        obtain ⟨hline, hlines⟩ := forall_mem_cons.mp hlines
        refine ⟨(c :: line) :: lines, rest, ?_, hrest, forall_mem_cons.mpr
          ⟨not_mem_cons_of_ne_of_not_mem (Ne.symm hc) hline, hlines⟩⟩
        rw [stream_cons, stream_cons]
        rfl

theorem strchr_line {line : List Byte} (hwhole : newline ∉ line) (hclean : 0 ∉ line)
    (rest : List Byte) : strchr (line ++ newline :: rest) = some (line, rest) := by
  induction line with
  | nil => rw [nil_append, strchr, if_pos rfl]
  | cons c line ih =>
    obtain ⟨hc, hwhole⟩ := ne_and_not_mem_of_not_mem_cons hwhole
    obtain ⟨hc', hclean⟩ := ne_and_not_mem_of_not_mem_cons hclean
    rw [cons_append, strchr, if_neg (Ne.symm hc), if_neg (Ne.symm hc'), ih hwhole hclean]
    rfl

theorem strchr_none {p : List Byte} (h : newline ∉ p) : strchr p = none := by
  induction p with
  | nil => rfl
  | cons c p ih =>
    obtain ⟨hc, hp⟩ := ne_and_not_mem_of_not_mem_cons h
    rw [strchr, if_neg (Ne.symm hc), ih hp, map_none, ite_self]

theorem scan_of_none {pattern p : List Byte} (h : strchr p = none) : scan pattern p = ([], p) := by
  rw [scan]
  split
  · rfl
  · simp_all

theorem scan_of_some {pattern p : List Byte} (h : strchr p = some r) :
    scan pattern p = ((if match_ pattern r.1 then r.1 ++ [newline] else []) ++
      (scan pattern r.2).1, (scan pattern r.2).2) := by
  rw [scan]
  split <;> simp_all

section Chunks

variable {pattern rest : List Byte} {lines : List (List Byte)}

theorem scan_lines (hrest : newline ∉ rest) (hwhole : ∀ line ∈ lines, newline ∉ line)
    (hclean : ∀ line ∈ lines, 0 ∉ line) :
    scan pattern (stream lines ++ rest) = (matching pattern lines, rest) := by
  induction lines with
  | nil => exact scan_of_none (strchr_none hrest)
  | cons line lines ih =>
    obtain ⟨hline, hwhole⟩ := forall_mem_cons.mp hwhole
    obtain ⟨hline', hclean⟩ := forall_mem_cons.mp hclean
    rw [stream_cons, append_assoc, cons_append,
      scan_of_some (strchr_line hline hline' _), ih hwhole hclean, matching_cons]

theorem kept_lines (hrest : newline ∉ rest) (hwhole : ∀ line ∈ lines, newline ∉ line)
    (hclean : ∀ line ∈ lines, 0 ∉ line) :
    kept pattern (stream lines ++ rest) = if lines = [] then [] else rest := by
  unfold kept
  rw [scan_lines hrest hwhole hclean]
  cases lines with
  | nil => rw [stream_nil, nil_append, if_pos rfl, if_pos rfl]
  | cons line lines =>
    have hlonger : rest.length ≠ (stream (line :: lines) ++ rest).length := by
      rw [stream_cons, length_append, length_append, length_cons]
      omega
    rw [if_neg hlonger, if_neg (cons_ne_nil _ _)]

/-- A stream that begins with lines consists of them and of other lines. -/
theorem stream_rest {all : List (List Byte)} (hwhole : ∀ line ∈ lines, newline ∉ line)
    (hclean : ∀ line ∈ lines, 0 ∉ line) (hall : Text all) (h : stream lines ++ rest = stream all) :
    ∃ others, all = lines ++ others ∧ rest = stream others := by
  induction lines generalizing all with
  | nil => exact ⟨all, rfl, h⟩
  | cons line lines ih =>
    obtain ⟨hline, hwhole⟩ := forall_mem_cons.mp hwhole
    obtain ⟨hline', hclean⟩ := forall_mem_cons.mp hclean
    rw [stream_cons, append_assoc, cons_append] at h
    cases all with
    | nil => simp at h
    | cons first all =>
      have hfirst := strchr_line (hall.whole first mem_cons_self)
        (hall.clean first mem_cons_self) (stream all)
      rw [← stream_cons, ← h, strchr_line hline hline'] at hfirst
      obtain ⟨rfl, hrest⟩ := Prod.mk.inj (some.inj hfirst)
      have htail : Text ([line] ++ all) := hall
      obtain ⟨others, rfl, hothers⟩ := ih hwhole hclean htail.right hrest
      exact ⟨others, rfl, hothers⟩

/-- What one turn of the loop does to a buffer without a newline and a chunk. -/
theorem turn_cases {buf chunk : List Byte} (hbuf : newline ∉ buf) (hclean : 0 ∉ buf ++ chunk) :
    (newline ∉ chunk ∧ ∀ pattern, scan pattern (buf ++ chunk) = ([], buf ++ chunk) ∧
      kept pattern (buf ++ chunk) = []) ∨
    (newline ∈ chunk ∧ ∃ lines rest, buf ++ chunk = stream lines ++ rest ∧ newline ∉ rest ∧
      (∀ line ∈ lines, newline ∉ line) ∧ (∀ line ∈ lines, 0 ∉ line) ∧
      ∀ pattern, scan pattern (buf ++ chunk) = (matching pattern lines, rest) ∧
        kept pattern (buf ++ chunk) = rest) := by
  obtain ⟨lines, rest, hsplit, hrest, hwhole⟩ := exists_lines (buf ++ chunk)
  have hlines : ∀ line ∈ lines, 0 ∉ line := by
    intro line hline h0
    rw [hsplit] at hclean
    exact hclean (mem_append_left _ (mem_stream hline h0))
  rw [hsplit]
  by_cases hempty : lines = []
  · subst hempty
    refine Or.inl ⟨fun hchunk => hrest ?_, fun pattern => ⟨scan_lines hrest hwhole hlines, ?_⟩⟩
    · rw [stream_nil, nil_append] at hsplit
      rw [← hsplit]
      exact mem_append_right _ hchunk
    · rw [kept_lines hrest hwhole hlines, if_pos rfl]
  · refine Or.inr ⟨?_, lines, rest, rfl, hrest, hwhole, hlines, fun pattern =>
      ⟨scan_lines hrest hwhole hlines, ?_⟩⟩
    · obtain ⟨line, others, rfl⟩ := exists_cons_of_ne_nil hempty
      have hmem : newline ∈ buf ++ chunk := by
        rw [hsplit, stream_cons]
        simp
      exact (mem_append.mp hmem).resolve_left hbuf
    · rw [kept_lines hrest hwhole hlines, if_neg hempty]

variable {reads : List (List Byte)}

/-- While every chunk has a newline, the buffer holds the beginning of the next line. -/
theorem grepLoop_of_newlines {buf : List Byte}
    {all : List (List Byte)} (hall : Text all) (hbuf : newline ∉ buf)
    (hstream : buf ++ reads.flatten = stream all) (hreads : ∀ chunk ∈ reads, newline ∈ chunk) :
    grepLoop pattern buf reads = matching pattern all := by
  induction reads generalizing buf all with
  | nil =>
    rw [flatten_nil, append_nil] at hstream
    cases all with
    | nil => rfl
    | cons line all =>
      rw [stream_cons] at hstream
      exact absurd (hstream ▸ by simp) hbuf
  | cons chunk reads ih =>
    obtain ⟨hchunk, hreads⟩ := forall_mem_cons.mp hreads
    rw [flatten_cons, ← append_assoc] at hstream
    have hclean : 0 ∉ buf ++ chunk := fun h0 =>
      hall.not_mem_stream (hstream ▸ mem_append_left _ h0)
    rcases turn_cases hbuf hclean with
      ⟨hno, _⟩ | ⟨_, lines, rest, hsplit, hrest, hwhole, hlines, hturn⟩
    · exact absurd hchunk hno
    · rw [hsplit, append_assoc] at hstream
      obtain ⟨others, rfl, hothers⟩ := stream_rest hwhole hlines hall hstream
      rw [grepLoop, (hturn pattern).1, (hturn pattern).2, matching_append,
        ih hall.right hrest hothers hreads]

/-- The bytes of the chunks without a newline, with which a turn ends with m = 0. -/
def lost (reads : List (List Byte)) : List Byte := (reads.filter (newline ∉ ·)).flatten

theorem length_grepLoop_le {buf : List Byte} (hbuf : newline ∉ buf)
    (hclean : 0 ∉ buf ++ reads.flatten) :
    (grepLoop pattern buf reads).length + (lost reads).length ≤
      buf.length + reads.flatten.length := by
  induction reads generalizing buf with
  | nil => exact Nat.zero_le _
  | cons chunk reads ih =>
    rw [flatten_cons, ← append_assoc] at hclean
    have hclean' : 0 ∉ buf ++ chunk := fun h0 => hclean (mem_append_left _ h0)
    have hlater : 0 ∉ reads.flatten := fun h0 => hclean (mem_append_right _ h0)
    rw [grepLoop, length_append, flatten_cons, length_append]
    rcases turn_cases hbuf hclean' with
      ⟨hno, hturn⟩ | ⟨hin, lines, rest, hsplit, hrest, _, _, hturn⟩
    · have hlost : (lost (chunk :: reads)).length = chunk.length + (lost reads).length := by
        rw [lost, filter_cons, if_pos (decide_eq_true hno), flatten_cons, length_append]
        rfl
      have hle := ih not_mem_nil hlater
      rw [(hturn pattern).1, (hturn pattern).2, hlost]
      rw [length_nil] at *
      omega
    · have hlost : lost (chunk :: reads) = lost reads := by
        have hin' : ¬decide (newline ∉ chunk) = true := fun hno => of_decide_eq_true hno hin
        rw [lost, filter_cons, if_neg hin']
        rfl
      have hclean'' : 0 ∉ rest ++ reads.flatten := by
        rw [hsplit, append_assoc] at hclean
        exact fun h0 => hclean (mem_append_right _ h0)
      have hle := ih hrest hclean''
      have hwritten := length_matching_le pattern lines
      have hlength := congrArg List.length hsplit
      rw [length_append, length_append] at hlength
      rw [(hturn pattern).1, (hturn pattern).2, hlost]
      dsimp only
      omega

theorem Possible.ne_nil {buf chunk : List Byte}
    (h : Possible pattern buf reads) (hchunk : chunk ∈ reads) : chunk ≠ [] := by
  induction reads generalizing buf with
  | nil => exact absurd hchunk not_mem_nil
  | cons first reads ih =>
    rcases mem_cons.mp hchunk with rfl | hchunk
    · exact h.1.1
    · exact ih h.2 hchunk

end Chunks

theorem match_nil (text : List Byte) : match_ [] text = true := by
  cases text <;> simp [match_, matchAnywhere, matchhere]

theorem matching_nil (lines : List (List Byte)) : matching [] lines = stream lines := by
  rw [matching, filter_eq_self.mpr fun line _ => match_nil line]

/-- grep writes the matching lines exactly when every read brings the end of a line: a turn that
finds no newline in the buffer sets m to 0 and forgets what it has read. -/
theorem grep_splits {lines : List (List Byte)} (htext : Text lines) {reads : List (List Byte)}
    (hreads : ∀ pattern, Possible pattern [] reads) (hstream : reads.flatten = stream lines) :
    (∀ pattern, grep pattern reads = matching pattern lines) ↔ ∀ chunk ∈ reads, newline ∈ chunk := by
  constructor
  · intro hgrep chunk hchunk
    by_contra hno
    have hclean : 0 ∉ [] ++ reads.flatten := by
      rw [nil_append, hstream]
      exact htext.not_mem_stream
    -- the empty pattern matches every line, so that nothing may be lost
    have hle : (grep [] reads).length + (lost reads).length ≤ 0 + reads.flatten.length :=
      length_grepLoop_le not_mem_nil hclean
    rw [hgrep [], matching_nil, ← hstream] at hle
    have hlost : lost reads = [] := eq_nil_of_length_eq_zero (by omega)
    have hempty := flatten_eq_nil_iff.mp hlost chunk
      (mem_filter.mpr ⟨hchunk, decide_eq_true hno⟩)
    exact (hreads []).ne_nil hchunk hempty
  · intro hnewlines pattern
    exact grepLoop_of_newlines htext not_mem_nil hstream hnewlines

/-- The line b comes in two reads, and both of them end a line. -/
theorem grep_splits_two_reads : Text [[97], [98]] ∧
    ∀ pattern, grep pattern [[97, 10, 98], [10]] = matching pattern [[97], [98]] := by
  have htext : Text [[97], [98]] := ⟨by decide, by decide, by decide⟩
  have hreads (pattern : List Byte) : Possible pattern [] [[97, 10, 98], [10]] := by
    have hkept : kept pattern (stream [[97]] ++ [98]) = [98] :=
      kept_lines (by decide) (by decide) (by decide)
    refine ⟨⟨by decide, by decide⟩, ⟨by decide, ?_⟩, trivial⟩
    change _ ≤ BUFSIZE - (kept pattern (stream [[97]] ++ [98])).length - 1
    rw [hkept]
    decide
  exact ⟨htext, (grep_splits htext hreads rfl).mpr (by decide)⟩

/-- The line ab comes in two reads, of which the first is forgotten: the pattern a finds
nothing. -/
theorem grep_partial_line_forgotten :
    (Text [[97, 98]] ∧ (∀ pattern, Possible pattern [] [[97], [98, 10]]) ∧
      [[97], [98, 10]].flatten = stream [[97, 98]]) ∧
    grep [97] [[97], [98, 10]] = [] ∧ matching [97] [[97, 98]] = [97, 98, 10] := by
  have hkept (pattern : List Byte) : kept pattern (stream [] ++ [97]) = [] :=
    kept_lines (by decide) (by decide) (by decide)
  have hfirst : scan [97] (stream [] ++ [97]) = ([], [97]) :=
    scan_lines (by decide) (by decide) (by decide)
  have hsecond : scan [97] (stream [[98]] ++ []) = (matching [97] [[98]], []) :=
    scan_lines (by decide) (by decide) (by decide)
  have hmatch : match_ [97] [97, 98] = true ∧ match_ [97] [98] = false := by
    simp only [match_, matchAnywhere, matchhere]
    decide
  refine ⟨⟨⟨by decide, by decide, by decide⟩, fun pattern => ?_, rfl⟩, ?_, ?_⟩
  · refine ⟨⟨by decide, by decide⟩, ⟨by decide, ?_⟩, trivial⟩
    change _ ≤ BUFSIZE - (kept pattern (stream [] ++ [97])).length - 1
    rw [hkept]
    decide
  · change (scan [97] (stream [] ++ [97])).1 ++
      ((scan [97] (kept [97] (stream [] ++ [97]) ++ [98, 10])).1 ++ []) = []
    rw [hfirst, hkept]
    change (scan [97] (stream [[98]] ++ [])).1 ++ [] = []
    rw [hsecond, matching_cons, hmatch.2]
    rfl
  · rw [matching_cons, hmatch.1]
    rfl

end KernelLabs.GrepLines

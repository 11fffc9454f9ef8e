import Mathlib.Data.List.Basic
import Mathlib.Logic.Function.Basic
import Mathlib.Tactic.Ring

/-!
The function readline of JOS (lib/readline.c). A backspace or a DEL erases the last character
that is held. When nothing is held the test for them fails, and a DEL then passes the test for
printable characters, since it is above the blank: it is stored as the first character of the
line, which is the line of the editing rules only if it is erased again.
-/
namespace KernelLabs.LineEditing

open Function List

abbrev BUFLEN : ℕ := 1024

/-- The characters that the editing knows, as getchar returns them. -/
abbrev backspace : ℤ := 8

abbrev delete : ℤ := 127

abbrev blank : ℤ := 32

abbrev newline : ℤ := 10

abbrev carriageReturn : ℤ := 13

def byte (c : ℤ) : UInt8 := UInt8.ofNat (c % 256).toNat

/-- The array buf with the index i, and the indices at which buf was written. -/
structure Line where
  buf : ℕ → UInt8
  i : ℕ
  used : List ℕ

def Line.write (s : Line) (c : UInt8) : Line :=
  { s with buf := update s.buf s.i c, used := s.i :: s.used }

/-- What readline returns: NULL after a read error, or buf; or it waits for more characters. -/
inductive Outcome
  | null
  | line (s : Line)
  | waiting (s : Line)

def readLoop : List ℤ → Line → Outcome
  | [], s => .waiting s
  | c :: rest, s =>
    if c < 0 then .null
    else if (c = backspace ∨ c = delete) ∧ 0 < s.i then readLoop rest { s with i := s.i - 1 }
    else if blank ≤ c ∧ s.i < BUFLEN - 1 then
      readLoop rest { s.write (byte c) with i := s.i + 1 }
    else if c = newline ∨ c = carriageReturn then .line (s.write 0)
    else readLoop rest s

def readline (buf : ℕ → UInt8) (chars : List ℤ) : Outcome := readLoop chars ⟨buf, 0, []⟩

def text (buf : ℕ → UInt8) : List UInt8 := ((List.range BUFLEN).map buf).takeWhile (· ≠ 0)

/-- The editing rules: backspace and DEL erase the last character if there is one, printable
characters are held while there is room, other control characters are ignored. -/
def edit (held : List UInt8) (c : ℤ) : List UInt8 :=
  if c = backspace ∨ c = delete then held.dropLast
  else if blank ≤ c ∧ held.length < BUFLEN - 1 then held ++ [byte c]
  else held

/-- A DEL that arrived when nothing was held still stands in the line: `n` characters stand
there, and the first is such a DEL if the flag is set. -/
def strayStep (state : ℕ × Bool) (c : ℤ) : ℕ × Bool :=
  if (c = backspace ∨ c = delete) ∧ 0 < state.1 then
    (state.1 - 1, if state.1 = 1 then false else state.2)
  else if c = delete then (1, true)
  else if blank ≤ c ∧ state.1 < BUFLEN - 1 then (state.1 + 1, state.2)
  else state

def stray (chars : List ℤ) : Bool := (chars.foldl strayStep (0, false)).2

/-- The characters of a line: not NUL, no more than a byte, and not the end of the line. -/
def InLine (c : ℤ) : Prop := 1 ≤ c ∧ c ≤ 255 ∧ c ≠ newline ∧ c ≠ carriageReturn

instance (c : ℤ) : Decidable (InLine c) := inferInstanceAs (Decidable (_ ∧ _ ∧ _ ∧ _))

def typed (held : List UInt8) (c : ℤ) : List UInt8 :=
  if (c = backspace ∨ c = delete) ∧ held ≠ [] then held.dropLast
  else if blank ≤ c ∧ held.length < BUFLEN - 1 then held ++ [byte c]
  else held

theorem byte_ne_zero {c : ℤ} (h : InLine c) : byte c ≠ 0 := by
  obtain ⟨hlow, hhigh, _⟩ := h
  intro hzero
  have hval := congrArg UInt8.toNat hzero
  rw [byte, UInt8.toNat_ofNat'] at hval
  rw [show (0 : UInt8).toNat = 0 from rfl] at hval
  omega

theorem byte_eq_delete {c : ℤ} (h : InLine c) (hbyte : byte c = 127) : c = delete := by
  obtain ⟨hlow, hhigh, _⟩ := h
  have hval := congrArg UInt8.toNat hbyte
  rw [byte, UInt8.toNat_ofNat', show (127 : UInt8).toNat = 127 from rfl] at hval
  rw [delete]
  omega

theorem takeWhile_map_range {f : ℕ → UInt8} {n N : ℕ} (hn : n < N) (hbefore : ∀ k < n, f k ≠ 0)
    (hzero : f n = 0) : ((List.range N).map f).takeWhile (· ≠ 0) = (List.range n).map f := by
  obtain ⟨m, rfl⟩ := Nat.exists_eq_add_of_lt hn
  rw [show n + m + 1 = n + (m + 1) by ring, range_add, map_append, takeWhile_append_of_pos]
  · rw [range_succ_eq_map, map_cons, map_cons, Nat.add_zero, hzero,
      takeWhile_cons_of_neg (by simp), append_nil]
  · intro b hb
    obtain ⟨k, hk, rfl⟩ := mem_map.mp hb
    simpa using hbefore k (mem_range.mp hk)

/-- The array holds the characters up to its index. -/
structure Holds (s : Line) (held : List UInt8) : Prop where
  count : s.i = held.length
  room : held.length ≤ BUFLEN - 1
  stored : ∀ k b, held[k]? = some b → s.buf k = b ∧ b ≠ 0
  used : ∀ k ∈ s.used, k < BUFLEN

namespace Holds

variable {s : Line} {held : List UInt8} {c : ℤ}

theorem used_write (h : Holds s held) (b : UInt8) : ∀ k ∈ (s.write b).used, k < BUFLEN := by
  intro k hk
  rcases mem_cons.mp hk with hnew | hold
  · have hroom := h.room
    rw [hnew, h.count]
    exact Nat.lt_of_le_of_lt hroom (by decide)
  · exact h.used k hold

theorem append (h : Holds s held) (hc : InLine c) (hroom : held.length < BUFLEN - 1) :
    Holds { s.write (byte c) with i := s.i + 1 } (held ++ [byte c]) where
  count := by
    rw [length_append, length_singleton, ← h.count]
  room := by
    rw [length_append, length_singleton]
    omega
  stored := by
    intro k b hk
    simp only [Line.write, h.count]
    rcases lt_trichotomy k held.length with hlt | rfl | hgt
    · rw [getElem?_append_left hlt] at hk
      rw [update_of_ne (by omega)]
      exact h.stored k b hk
    · rw [getElem?_concat_length, Option.some.injEq] at hk
      rw [update_self, ← hk]
      exact ⟨rfl, byte_ne_zero hc⟩
    · rw [getElem?_eq_none (by rw [length_append, length_singleton]; omega)] at hk
      cases hk
  used := h.used_write (byte c)

/-- The last character is erased by the index alone. -/
theorem erase (h : Holds s held) : Holds { s with i := s.i - 1 } held.dropLast where
  count := by rw [length_dropLast, ← h.count]
  room := by
    have := h.room
    rw [length_dropLast]
    omega
  stored := by
    intro k b hk
    obtain ⟨hlt, _⟩ := List.getElem?_eq_some_iff.mp hk
    rw [length_dropLast] at hlt
    rw [getElem?_dropLast, if_pos hlt] at hk
    exact h.stored k b hk
  used := h.used

theorem text_eq (h : Holds s held) : text (s.write 0).buf = held := by
  have hroom := h.room
  have hbefore : (List.range held.length).map (s.write 0).buf = held := by
    apply ext_getElem?
    intro k
    rw [getElem?_map]
    by_cases hk : k < held.length
    · have hstored := (h.stored k held[k] (getElem?_eq_getElem hk)).1
      rw [getElem?_range hk, getElem?_eq_getElem hk, Option.map_some, Line.write]
      simp only [h.count]
      rw [update_of_ne (by omega), hstored]
    · rw [getElem?_eq_none (by simpa using hk), getElem?_eq_none (by omega)]
      rfl
  rw [text, takeWhile_map_range (n := held.length) (by rw [BUFLEN] at hroom ⊢; omega), hbefore]
  · intro k hk
    have hmem : (s.write 0).buf k ∈ (List.range held.length).map (s.write 0).buf :=
      mem_map_of_mem (mem_range.mpr hk)
    rw [hbefore] at hmem
    obtain ⟨j, hj⟩ := mem_iff_getElem?.mp hmem
    exact (h.stored j _ hj).2
  · rw [← h.count, Line.write]
    exact update_self ..

end Holds

variable {chars : List ℤ}

/-- What the loop returns: the characters that its turns leave, at indices of the array. -/
theorem readLoop_line (hchars : ∀ c ∈ chars, InLine c) {last : ℤ}
    (hlast : last = newline ∨ last = carriageReturn) {s : Line} {held : List UInt8}
    (h : Holds s held) :
    ∃ t, readLoop (chars ++ [last]) s = .line t ∧ text t.buf = chars.foldl typed held ∧
      ∀ k ∈ t.used, k < BUFLEN := by
  induction chars generalizing s held with
  | nil =>
    refine ⟨s.write 0, ?_, h.text_eq, h.used_write 0⟩
    rw [nil_append, readLoop]
    rcases hlast with rfl | rfl
    · rw [if_neg (by decide), if_neg (fun h => absurd h.1 (by decide)),
        if_neg (fun h => absurd h.1 (by decide)), if_pos (.inl rfl)]
    · rw [if_neg (by decide), if_neg (fun h => absurd h.1 (by decide)),
        if_neg (fun h => absurd h.1 (by decide)), if_pos (.inr rfl)]
  | cons c rest ih =>
    have hc := hchars c mem_cons_self
    have hrest : ∀ c ∈ rest, InLine c := fun c hc => hchars c (mem_cons_of_mem _ hc)
    obtain ⟨hlow, _, hnewline, hreturn⟩ := hc
    rw [cons_append, foldl_cons, readLoop, typed, if_neg (by omega), h.count]
    by_cases herase : (c = backspace ∨ c = delete) ∧ held ≠ []
    · rw [if_pos herase, if_pos ⟨herase.1, length_pos_iff.mpr herase.2⟩, ← h.count]
      exact ih hrest h.erase
    rw [if_neg herase, if_neg fun hpos => herase ⟨hpos.1, length_pos_iff.mp hpos.2⟩]
    by_cases hstore : blank ≤ c ∧ held.length < BUFLEN - 1
    · rw [if_pos hstore, if_pos hstore, ← h.count]
      exact ih hrest (h.append (hchars c mem_cons_self) hstore.2)
    · rw [if_neg hstore, if_neg hstore, if_neg (not_or.mpr ⟨hnewline, hreturn⟩)]
      exact ih hrest h

/-- The characters of the code and of the rules side by side. They agree until a DEL is stored;
from then on the line starts with it until the line is empty, and the rules hold no more. -/
structure Beside (state : ℕ × Bool) (held rule : List UInt8) : Prop where
  count : state.1 = held.length
  room : held.length ≤ BUFLEN - 1
  same : state.2 = false → held = rule
  first : state.2 = true → held.head? = some 127 ∧ rule.length ≤ held.length
  visible : 127 ∉ rule

namespace Beside

variable {state : ℕ × Bool} {held rule : List UInt8} {c : ℤ}

theorem erase (h : Beside state held rule) (hheld : held ≠ []) :
    Beside (state.1 - 1, if state.1 = 1 then false else state.2) held.dropLast rule.dropLast where
  count := by rw [length_dropLast, h.count]
  room := by
    have := h.room
    rw [length_dropLast]
    omega
  same := by
    intro hflag
    by_cases hstray : state.2 = true
    · -- the DEL was the last character, and the rules held at most one
      obtain ⟨_, hle⟩ := h.first hstray
      have hone : state.1 = 1 := by
        by_contra hne
        dsimp only at hflag
        rw [if_neg hne, hstray] at hflag
        cases hflag
      rw [h.count] at hone
      rw [eq_nil_of_length_eq_zero (show held.dropLast.length = 0 by
          rw [length_dropLast]; omega),
        eq_nil_of_length_eq_zero (show rule.dropLast.length = 0 by
          rw [length_dropLast]; omega)]
    · rw [h.same (by simpa using hstray)]
  first := by
    intro hflag
    dsimp only at hflag
    by_cases hone : state.1 = 1
    · rw [if_pos hone] at hflag
      cases hflag
    · rw [if_neg hone] at hflag
      obtain ⟨hhead, hle⟩ := h.first hflag
      have hpos := length_pos_iff.mpr hheld
      rw [h.count] at hone
      refine ⟨?_, ?_⟩
      · rw [head?_dropLast, if_pos (by omega), hhead]
      · rw [length_dropLast, length_dropLast]
        omega
  visible := fun hmem => h.visible (dropLast_subset _ hmem)

/-- An erasing key while nothing is held: only a DEL changes the line. -/
theorem strike (h : Beside state [] rule) :
    Beside (if c = delete then (1, true) else state) (if c = delete then [127] else [])
      rule.dropLast := by
  have hflag : state.2 = false := by
    by_contra hstray
    have := (h.first (by simpa using hstray)).1
    simp at this
  have hrule : rule = [] := (h.same hflag).symm
  subst hrule
  by_cases hdelete : c = delete
  · rw [if_pos hdelete, if_pos hdelete]
    exact ⟨rfl, by simp, (fun hflag => nomatch hflag), fun _ => ⟨rfl, by simp⟩, by simp⟩
  · rw [if_neg hdelete, if_neg hdelete]
    exact h

theorem insert (h : Beside state held rule) (hc : InLine c) (hdelete : c ≠ delete) :
    Beside (if blank ≤ c ∧ state.1 < BUFLEN - 1 then (state.1 + 1, state.2) else state)
      (if blank ≤ c ∧ held.length < BUFLEN - 1 then held ++ [byte c] else held)
      (if blank ≤ c ∧ rule.length < BUFLEN - 1 then rule ++ [byte c] else rule) := by
  have hvisible : 127 ∉ rule ++ [byte c] := by
    rw [mem_append, mem_singleton, not_or]
    exact ⟨h.visible, fun heq => hdelete (byte_eq_delete hc heq.symm)⟩
  rw [h.count]
  by_cases hstore : blank ≤ c ∧ held.length < BUFLEN - 1
  · have hrule : blank ≤ c ∧ rule.length < BUFLEN - 1 := by
      refine ⟨hstore.1, ?_⟩
      by_cases hstray : state.2 = true
      · exact Nat.lt_of_le_of_lt (h.first hstray).2 hstore.2
      · rw [← h.same (by simpa using hstray)]
        exact hstore.2
    rw [if_pos hstore, if_pos hstore, if_pos hrule]
    refine ⟨by simp, ?_, fun hflag => by rw [h.same hflag], fun hflag => ?_, hvisible⟩
    · rw [length_append, length_singleton]
      exact hstore.2
    · obtain ⟨hhead, hle⟩ := h.first hflag
      refine ⟨by rw [head?_append, hhead]; rfl, ?_⟩
      rw [length_append, length_append]
      omega
  · rw [if_neg hstore, if_neg hstore]
    by_cases hrule : blank ≤ c ∧ rule.length < BUFLEN - 1
    · -- the line of the code is full, that of the rules is not: this needs a stray DEL
      have hfull : ¬ held.length < BUFLEN - 1 := fun hlt => hstore ⟨hrule.1, hlt⟩
      rw [if_pos hrule]
      refine ⟨h.count, h.room, fun hflag => ?_, fun hflag => ?_, hvisible⟩
      · rw [h.same hflag] at hfull
        exact absurd hrule.2 hfull
      · refine ⟨(h.first hflag).1, ?_⟩
        rw [length_append, length_singleton]
        omega
    · rw [if_neg hrule]
      exact h

theorem step (h : Beside state held rule) (hc : InLine c) :
    Beside (strayStep state c) (typed held c) (edit rule c) := by
  by_cases hkey : c = backspace ∨ c = delete
  · have hedit : edit rule c = rule.dropLast := if_pos hkey
    rw [hedit]
    by_cases hheld : held = []
    · subst hheld
      have hzero : ¬ 0 < state.1 := by rw [h.count]; simp
      have hstate : strayStep state c = if c = delete then (1, true) else state := by
        rw [strayStep, if_neg (fun hpos => hzero hpos.2)]
        rcases hkey with rfl | rfl
        · have hlow : ¬ (blank ≤ backspace ∧ state.1 < BUFLEN - 1) :=
            fun hstore => absurd hstore.1 (by decide)
          rw [if_neg (by decide), if_neg hlow, if_neg (by decide)]
        · rfl
      have htyped : typed [] c = if c = delete then [127] else [] := by
        rcases hkey with rfl | rfl <;> decide
      rw [hstate, htyped]
      exact h.strike
    · have hpos : 0 < state.1 := by rw [h.count]; exact length_pos_iff.mpr hheld
      have htyped : typed held c = held.dropLast := if_pos ⟨hkey, hheld⟩
      rw [strayStep, if_pos ⟨hkey, hpos⟩, htyped]
      exact h.erase hheld
  · have hdelete : c ≠ delete := fun heq => hkey (.inr heq)
    have hinsert := h.insert hc hdelete
    rw [strayStep, if_neg (fun hpos => hkey hpos.1), if_neg hdelete]
    have htyped : typed held c =
        if blank ≤ c ∧ held.length < BUFLEN - 1 then held ++ [byte c] else held :=
      if_neg fun hne => hkey hne.1
    have hedit : edit rule c =
        if blank ≤ c ∧ rule.length < BUFLEN - 1 then rule ++ [byte c] else rule := if_neg hkey
    rw [htyped, hedit]
    exact hinsert

end Beside

theorem beside_foldl (hchars : ∀ c ∈ chars, InLine c) {state : ℕ × Bool}
    {held rule : List UInt8} (h : Beside state held rule) :
    Beside (chars.foldl strayStep state) (chars.foldl typed held) (chars.foldl edit rule) := by
  induction chars generalizing state held rule with
  | nil => exact h
  | cons c rest ih =>
    have hrest : ∀ c ∈ rest, InLine c := fun c hc => hchars c (mem_cons_of_mem _ hc)
    exact ih hrest (h.step (hchars c mem_cons_self))

/-- The code follows the rules if and only if no stray DEL stands in the line at its end. -/
theorem typed_eq_edit_iff (hchars : ∀ c ∈ chars, InLine c) :
    chars.foldl typed [] = chars.foldl edit [] ↔ stray chars = false := by
  have hstart : Beside (0, false) [] [] := ⟨rfl, by simp, fun _ => rfl, by simp, by simp⟩
  have h := beside_foldl hchars hstart
  rw [stray]
  constructor
  · intro heq
    by_contra hstray
    obtain ⟨hfirst, _⟩ := h.first (by simpa using hstray)
    rw [heq] at hfirst
    exact h.visible (mem_of_mem_head? hfirst)
  · exact h.same

/-- For every line of characters from 1 to 255 that ends with a newline or a carriage return:
readline returns the string of the editing rules, with every index inside the array, if and
only if no DEL that arrived when nothing was held is left at the start of the line. -/
theorem readline_edits_iff (buf : ℕ → UInt8) {chars : List ℤ} (hchars : ∀ c ∈ chars, InLine c)
    {last : ℤ} (hlast : last = newline ∨ last = carriageReturn) :
    (∃ t, readline buf (chars ++ [last]) = .line t ∧ text t.buf = chars.foldl edit [] ∧
        ∀ k ∈ t.used, k < BUFLEN) ↔ stray chars = false := by
  have hempty : Holds ⟨buf, 0, []⟩ [] := ⟨rfl, by simp, by simp, by simp⟩
  obtain ⟨t, hline, htext, hused⟩ := readLoop_line hchars hlast hempty
  rw [← typed_eq_edit_iff hchars]
  constructor
  · intro h
    obtain ⟨t', hline', htext', _⟩ := h
    obtain rfl : t = t' := by
      have := hline.symm.trans hline'
      injection this
    rw [← htext, htext']
  · intro heq
    exact ⟨t, hline, by rw [htext, heq], hused⟩

/-- The line "ab", backspace, "c": it is "ac". -/
theorem readline_edits_ac :
    ∃ t, readline (fun _ => 0) ([97, 98, backspace, 99] ++ [newline]) = .line t ∧
      text t.buf = [97, 99] := by
  have hchars : ∀ c ∈ [97, 98, backspace, 99], InLine c := by decide
  obtain ⟨t, hline, htext, _⟩ := (readline_edits_iff (fun _ => 0) hchars (.inl rfl)).mpr (by decide)
  exact ⟨t, hline, by rw [htext]; decide⟩

/-- A DEL as the first character is returned as the line. -/
theorem readline_stores_delete :
    (∃ t, readline (fun _ => 0) [delete, newline] = .line t ∧ text t.buf = [127]) ∧
      [delete].foldl edit [] = [] := by
  refine ⟨⟨_, rfl, by decide +kernel⟩, by decide⟩

end KernelLabs.LineEditing

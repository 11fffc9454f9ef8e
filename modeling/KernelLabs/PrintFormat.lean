import KernelLabs.MachineWords
import KernelLabs.WhileLoop

/-!
The function vprintfmt of JOS (lib/printfmt.c), in the version of lab1, which prints octal
numbers, and in that of lab3. It hands characters to a function putch, whose state is any type.
The format is a list of bytes with a NUL behind it, and a read of it elsewhere ends the run in
an outcome of its own. The variable arguments are words of the stack; the strings that they
point to are values.
-/
namespace KernelLabs.PrintFormat

open MachineWords WhileLoop List Option

abbrev Word := BitVec 32

inductive Version
  | lab1 | lab3
  deriving DecidableEq

/-- What vprintfmt reads besides the format: the words of the argument list, the strings at
addresses, and the words around the table error_string, by their index. -/
structure Env where
  arg : ℕ → Word
  str : Word → List UInt8
  around : ℤ → Word

abbrev ascii (c : Char) : UInt8 := c.toNat.toUInt8

def bytes (text : String) : List UInt8 := text.toList.map ascii

abbrev code (c : Char) : ℤ := c.toNat

structure Spec where
  padc : ℤ
  width : ℤ
  precision : ℤ
  lflag : ℤ
  altflag : Bool

def Spec.init : Spec := ⟨code ' ', -1, -1, 0, false⟩

/-- The label process_precision, with the number that was read. -/
def Spec.process (sp : Spec) (precision : ℤ) : Spec :=
  if sp.width < 0 then { sp with width := precision, precision := -1 }
  else { sp with precision := precision }

inductive Mode
  | text
  | escape (sp : Spec)

/-- The cursor in the format, the index of the next argument and the state of putch. -/
structure State (σ : Type*) where
  mode : Mode
  pos : ℕ
  ap : ℕ
  sink : σ

inductive Outcome (σ : Type*)
  | running (st : State σ)
  | returned (sink : σ)
  | outside

section Output

variable {σ : Type*} (putch : σ → ℤ → σ)

def pad (c : ℤ) : ℕ → σ → σ
  | 0, s => s
  | n + 1, s => pad c n (putch s c)

def digit (d : ℕ) : ℤ := if d < 10 then code '0' + d else code 'a' + d - 10

def printnum (base : ℕ) (padc : ℤ) : ℕ → ℕ → ℤ → σ → σ
  | 0, _, _, s => s
  | depth + 1, num, width, s =>
    let s :=
      if base ≤ num then printnum base padc depth (num / base) (int32 (width - 1)) s
      else pad putch padc (int32 (width - 1)).toNat s
    putch s (digit (num % base))

/-- The depth for a number of 64 bits in any base. -/
abbrev DEPTH : ℕ := 64

def number (sp : Spec) (base num : ℕ) (s : σ) : σ :=
  printnum putch base sp.padc DEPTH num sp.width s

def signed (sp : Spec) (num : ℤ) (s : σ) : σ :=
  let s := if num < 0 then putch s (code '-') else s
  number putch sp 10 num.natAbs s

def strnlen (text : List UInt8) (size : ℤ) : ℤ := min text.length (size % 2 ^ 32)

/-- A plain char, which is signed. -/
def char (b : UInt8) : ℤ := if b.toNat < 128 then b.toNat else b.toNat - 256

def shown (sp : Spec) (b : UInt8) : ℤ :=
  if sp.altflag = true ∧ (char b < code ' ' ∨ code '~' < char b) then code '?' else char b

def string (sp : Spec) (text : List UInt8) (s : σ) : σ :=
  let left := int32 (sp.width - strnlen text sp.precision)
  let padded := 0 < sp.width ∧ sp.padc ≠ code '-'
  let s := if padded then pad putch sp.padc left.toNat s else s
  let width := if padded then min left 0 else sp.width
  let text := if sp.precision < 0 then text else text.take sp.precision.toNat
  let s := text.foldl (fun s b => putch s (shown sp b)) s
  pad putch (code ' ') (int32 (width - text.length)).toNat s

end Output

section Arguments

variable (env : Env)

def getuint (ap : ℕ) (lflag : ℤ) : ℕ × ℕ :=
  if 2 ≤ lflag then ((env.arg (ap + 1) ++ env.arg ap).toNat, ap + 2)
  else if lflag ≠ 0 then ((env.arg ap).toNat, ap + 1)
  else ((env.arg ap).toNat, ap + 1)

def getint (ap : ℕ) (lflag : ℤ) : ℤ × ℕ :=
  if 2 ≤ lflag then ((env.arg (ap + 1) ++ env.arg ap).toInt, ap + 2)
  else if lflag ≠ 0 then ((env.arg ap).toInt, ap + 1)
  else ((env.arg ap).toInt, ap + 1)

/-- The string at an address that may be NULL. -/
def stringAt (p : Word) : List UInt8 := if p = 0 then bytes "(null)" else env.str p

abbrev MAXERROR : ℤ := 7

def errorString : List (Option String) :=
  [none, some "unspecified error", some "bad environment", some "invalid parameter",
    some "out of memory", some "out of environments", some "segmentation fault"]

/-- error_string[err] for err < MAXERROR. Outside of the table it is the word that stands
there, as an address. -/
def errorText (err : ℤ) : Option (List UInt8) :=
  if 0 ≤ err then (errorString.getD err.toNat none).map bytes
  else if env.around err = 0 then none
  else some (env.str (env.around err))

variable {σ : Type*} (putch : σ → ℤ → σ)

/-- The case 'e': printfmt with the format "error %d" or with "%s". -/
def error (err : ℤ) (s : σ) : σ :=
  let err := if err < 0 then int32 (-err) else err
  match if MAXERROR ≤ err then none else errorText env err with
  | none => signed putch Spec.init err ((bytes "error ").foldl (fun s b => putch s b.toNat) s)
  | some text => string putch Spec.init text s

end Arguments

inductive Key
  | minus | zero | digit | star | dot | alt | long | char | error | string | signed | unsigned
  | octal | pointer | hex | percent | other
  deriving DecidableEq

def key (ch : UInt8) : Key :=
  if ch = ascii '-' then .minus
  else if ch = ascii '0' then .zero
  else if ascii '1' ≤ ch ∧ ch ≤ ascii '9' then .digit
  else if ch = ascii '*' then .star
  else if ch = ascii '.' then .dot
  else if ch = ascii '#' then .alt
  else if ch = ascii 'l' then .long
  else if ch = ascii 'c' then .char
  else if ch = ascii 'e' then .error
  else if ch = ascii 's' then .string
  else if ch = ascii 'd' then .signed
  else if ch = ascii 'u' then .unsigned
  else if ch = ascii 'o' then .octal
  else if ch = ascii 'p' then .pointer
  else if ch = ascii 'x' then .hex
  else if ch = ascii '%' then .percent
  else .other

section Format

variable (fmt : List UInt8)

def byteAt (i : ℕ) : Option UInt8 := (fmt ++ [0])[i]?

/-- The loop over the digits of a width, over the bytes behind the first digit: the number and
how many more digits were read. -/
def readDigits (precision : ℤ) (ch : UInt8) : List UInt8 → Option (ℤ × ℕ)
  | [] => none
  | c :: rest =>
    let precision := int32 (precision * 10 + ch.toNat - code '0')
    if c < ascii '0' ∨ ascii '9' < c then some (precision, 0)
    else (readDigits precision c rest).map fun result => (result.1, result.2 + 1)

/-- for (; fmt[-1] != '%'; fmt--); at an index of the format. -/
def backup : ℕ → Option ℕ
  | 0 => none
  | p + 1 => if byteAt fmt p = some (ascii '%') then some (p + 1) else backup p

end Format

section Loop

variable (v : Version) (env : Env) (fmt : List UInt8) {σ : Type*} (putch : σ → ℤ → σ)

/-- The switch for the character ch, with the cursor behind it at `st.pos + 1`. -/
def switch (st : State σ) (sp : Spec) (ch : UInt8) : Outcome σ :=
  let again (sp : Spec) (pos ap : ℕ) : Outcome σ := .running ⟨.escape sp, pos, ap, st.sink⟩
  let next (ap : ℕ) (sink : σ) : Outcome σ := .running ⟨.text, st.pos + 1, ap, sink⟩
  match key ch with
  | .minus => again { sp with padc := code '-' } (st.pos + 1) st.ap
  | .zero => again { sp with padc := code '0' } (st.pos + 1) st.ap
  | .digit =>
    match readDigits 0 ch ((fmt ++ [0]).drop (st.pos + 1)) with
    | none => .outside
    | some (precision, k) => again (sp.process precision) (st.pos + 1 + k) st.ap
  | .star => again (sp.process (env.arg st.ap).toInt) (st.pos + 1) (st.ap + 1)
  | .dot => again { sp with width := if sp.width < 0 then 0 else sp.width } (st.pos + 1) st.ap
  | .alt => again { sp with altflag := true } (st.pos + 1) st.ap
  | .long => again { sp with lflag := int32 (sp.lflag + 1) } (st.pos + 1) st.ap
  | .char => next (st.ap + 1) (putch st.sink (env.arg st.ap).toInt)
  | .error => next (st.ap + 1) (error env putch (env.arg st.ap).toInt st.sink)
  | .string => next (st.ap + 1) (string putch sp (stringAt env (env.arg st.ap)) st.sink)
  | .signed =>
    let (num, ap) := getint env st.ap sp.lflag
    next ap (signed putch sp num st.sink)
  | .unsigned =>
    let (num, ap) := getuint env st.ap sp.lflag
    next ap (number putch sp 10 num st.sink)
  | .octal =>
    match v with
    | .lab1 =>
      let (num, ap) := getuint env st.ap sp.lflag
      let sink := if sp.altflag = true ∧ num ≠ 0 then putch st.sink (code '0') else st.sink
      next ap (number putch sp 8 num sink)
    | .lab3 =>
      -- replace this with your code
      next st.ap (putch (putch (putch st.sink (code 'X')) (code 'X')) (code 'X'))
  | .pointer =>
    next (st.ap + 1)
      (number putch sp 16 (env.arg st.ap).toNat (putch (putch st.sink (code '0')) (code 'x')))
  | .hex =>
    let (num, ap) := getuint env st.ap sp.lflag
    next ap (number putch sp 16 num st.sink)
  | .percent => next st.ap (putch st.sink ch.toNat)
  | .other =>
    match backup fmt st.pos with
    | none => .outside
    | some pos => .running ⟨.text, pos, st.ap, putch st.sink (code '%')⟩

def step (st : State σ) : Outcome σ :=
  match byteAt fmt st.pos with
  | none => .outside
  | some ch =>
    match st.mode with
    | .text =>
      if ch = ascii '%' then .running { st with mode := .escape Spec.init, pos := st.pos + 1 }
      else if ch = 0 then .returned st.sink
      else .running { st with pos := st.pos + 1, sink := putch st.sink ch.toNat }
    | .escape sp => switch v env fmt putch st sp ch

def Outcome.isRunning : Outcome σ → Bool
  | .running _ => true
  | _ => false

def Outcome.step : Outcome σ → Outcome σ
  | .running st => PrintFormat.step v env fmt putch st
  | o => o

/-- The steps of a run of vprintfmt are at most quadratic in the length of the format. -/
def bound : ℕ := 2 * (fmt.length + 2) * (fmt.length + 2)

def start (sink : σ) : Outcome σ := .running ⟨.text, 0, 0, sink⟩

def vprintfmt (sink : σ) : Outcome σ :=
  whileLoop Outcome.isRunning (Outcome.step v env fmt putch) (bound fmt) (start sink)

end Loop

def text (v : Version) (env : Env) (fmt : List UInt8) : List ℤ :=
  match vprintfmt v env fmt (fun out c => out ++ [c]) [] with
  | .returned out => out
  | _ => []

section Error

variable (v : Version) (env args : Env) {σ : Type*} (putch : σ → ℤ → σ) (s : σ)

set_option maxRecDepth 2000 in
theorem vprintfmt_number : vprintfmt v args (bytes "error %d") putch s =
    .returned (signed putch Spec.init (args.arg 0).toInt
      ((bytes "error ").foldl (fun s b => putch s b.toNat) s)) := rfl

theorem vprintfmt_string : vprintfmt v args (bytes "%s") putch s =
    .returned (string putch Spec.init (stringAt args (args.arg 0)) s) := rfl

/-- The case 'e' prints what the call of printfmt prints that the source makes there. -/
theorem error_eq_printfmt (err : ℤ) :
    let n := if err < 0 then int32 (-err) else err
    match if MAXERROR ≤ n then none else errorText env n with
    | none => (args.arg 0).toInt = n →
        vprintfmt v args (bytes "error %d") putch s = .returned (error env putch err s)
    | some text => stringAt args (args.arg 0) = text →
        vprintfmt v args (bytes "%s") putch s = .returned (error env putch err s) := by
  dsimp only
  split <;> rename_i hcase <;> intro harg
  · rw [vprintfmt_number, error, hcase, harg]
  · rw [vprintfmt_string, error, hcase, harg]

end Error

/-! ### The state of putch -/

section Sinks

variable {v : Version} {env : Env} {fmt : List UInt8} {σ τ : Type*} {p : σ → ℤ → σ}
  {q : τ → ℤ → τ} {h : σ → τ}

def State.map (h : σ → τ) (st : State σ) : State τ := ⟨st.mode, st.pos, st.ap, h st.sink⟩

def Outcome.map (h : σ → τ) : Outcome σ → Outcome τ
  | .running st => .running (st.map h)
  | .returned sink => .returned (h sink)
  | .outside => .outside

variable (hputch : ∀ s c, h (p s c) = q (h s) c)

include hputch

theorem map_pad (c : ℤ) (n : ℕ) (s : σ) : h (pad p c n s) = pad q c n (h s) := by
  induction n generalizing s with
  | zero => rfl
  | succ n ih => rw [pad, pad, ih, hputch]

theorem map_printnum (base : ℕ) (padc : ℤ) (depth num : ℕ) (width : ℤ) (s : σ) :
    h (printnum p base padc depth num width s) = printnum q base padc depth num width (h s) := by
  induction depth generalizing num width s with
  | zero => rfl
  | succ depth ih =>
    rw [printnum, printnum, hputch]
    split
    · rw [ih]
    · rw [map_pad hputch]

theorem map_number (sp : Spec) (base num : ℕ) (s : σ) :
    h (number p sp base num s) = number q sp base num (h s) := map_printnum hputch ..

theorem map_signed (sp : Spec) (num : ℤ) (s : σ) :
    h (signed p sp num s) = signed q sp num (h s) := by
  rw [signed, signed, map_number hputch]
  split
  · rw [hputch]
  · rfl

theorem map_foldl {α : Type*} (f : α → ℤ) (l : List α) (s : σ) :
    h (l.foldl (fun s b => p s (f b)) s) = l.foldl (fun s b => q s (f b)) (h s) := by
  induction l generalizing s with
  | nil => rfl
  | cons b rest ih => rw [foldl_cons, foldl_cons, ih, hputch]

theorem map_string (sp : Spec) (text : List UInt8) (s : σ) :
    h (string p sp text s) = string q sp text (h s) := by
  rw [string, string, map_pad hputch, map_foldl hputch]
  split
  · rw [map_pad hputch]
  · rfl

theorem map_error (err : ℤ) (s : σ) : h (error env p err s) = error env q err (h s) := by
  rw [error, error]
  split
  · rw [map_signed hputch, map_foldl hputch]
  · rw [map_string hputch]

theorem map_switch (st : State σ) (sp : Spec) (ch : UInt8) :
    (switch v env fmt p st sp ch).map h = switch v env fmt q (st.map h) sp ch := by
  simp only [switch, State.map]
  cases key ch with
  | digit =>
    dsimp only
    cases readDigits 0 ch ((fmt ++ [0]).drop (st.pos + 1)) <;> rfl
  | octal =>
    cases v with
    | lab1 =>
      simp only [Outcome.map, State.map, map_number hputch, ← hputch, ← apply_ite h]
    | lab3 => simp [Outcome.map, State.map, hputch]
  | other =>
    dsimp only
    cases backup fmt st.pos with
    | none => rfl
    | some pos => simp [Outcome.map, State.map, hputch]
  | _ => simp [Outcome.map, State.map, map_number hputch, map_signed hputch, map_string hputch,
      map_error hputch, hputch]

theorem map_step (o : Outcome σ) : (o.step v env fmt p).map h = (o.map h).step v env fmt q := by
  cases o with
  | running st =>
    simp only [Outcome.step, Outcome.map, step, State.map]
    cases byteAt fmt st.pos with
    | none => rfl
    | some ch =>
      cases st.mode with
      | text =>
        dsimp only
        by_cases hpercent : ch = ascii '%'
        · simp only [if_pos hpercent]
        by_cases hzero : ch = 0
        · simp only [if_neg hpercent, if_pos hzero]
        · simp only [if_neg hpercent, if_neg hzero, hputch]
      | escape sp => exact map_switch hputch ..
  | returned sink => rfl
  | outside => rfl

/-- vprintfmt does not look at the state of putch. -/
theorem map_vprintfmt (sink : σ) :
    (vprintfmt v env fmt p sink).map h = vprintfmt v env fmt q (h sink) := by
  refine whileLoop_map (Outcome.map h) (fun o => ?_) (map_step hputch) (bound fmt) (start sink)
  cases o <;> rfl

end Sinks

/-! ### The cursor -/

section Cursor

variable {v : Version} {env : Env} {fmt : List UInt8} {σ : Type*} {putch : σ → ℤ → σ}
  {pos : ℕ} {ch : UInt8}

theorem key_zero : key 0 = .other := by decide

theorem byteAt_of_le (h : pos ≤ fmt.length) : ∃ ch, byteAt fmt pos = some ch := by
  have hlt : pos < (fmt ++ [0]).length := by
    rw [length_append, length_singleton]
    omega
  exact ⟨_, getElem?_eq_getElem hlt⟩

/-- A byte that is not NUL is before the end of the format. -/
theorem lt_of_byteAt (h : byteAt fmt pos = some ch) (hch : ch ≠ 0) :
    pos < fmt.length ∧ fmt[pos]? = some ch := by
  rw [byteAt] at h
  rcases lt_trichotomy pos fmt.length with hlt | rfl | hgt
  · rw [getElem?_append_left hlt] at h
    exact ⟨hlt, h⟩
  · rw [getElem?_concat_length, some.injEq] at h
    exact absurd h.symm hch
  · rw [getElem?_eq_none (by rw [length_append, length_singleton]; omega)] at h
    cases h

/-- The digits that are read end inside the format, and none of them is a %. -/
theorem readDigits_inside (precision : ℤ) (ch : UInt8) (l : List UInt8) :
    ∃ value k, readDigits precision ch (l ++ [0]) = some (value, k) ∧ k ≤ l.length ∧
      ∀ j < k, l[j]? ≠ some (ascii '%') := by
  induction l generalizing precision ch with
  | nil => exact ⟨_, 0, rfl, le_rfl, by simp⟩
  | cons c rest ih =>
    rw [cons_append, readDigits]
    by_cases hend : c < ascii '0' ∨ ascii '9' < c
    · exact ⟨_, 0, if_pos hend, Nat.zero_le _, by simp⟩
    · obtain ⟨value, k, hread, hle, hdigits⟩ := ih (int32 (precision * 10 + ch.toNat - code '0')) c
      refine ⟨value, k + 1, by rw [if_neg hend, hread]; rfl, by simpa using hle, fun j hj => ?_⟩
      cases j with
      | zero =>
        rw [getElem?_cons_zero, Ne, some.injEq]
        rintro rfl
        exact hend (.inl (by decide))
      | succ j =>
        rw [getElem?_cons_succ]
        exact hdigits j (by omega)

/-- Characters other than % do not change where the escape began. -/
theorem backup_add {k : ℕ} (h : ∀ j < k, byteAt fmt (pos + j) ≠ some (ascii '%')) :
    backup fmt (pos + k) = backup fmt pos := by
  induction k with
  | zero => rfl
  | succ k ih =>
    rw [← Nat.add_assoc, backup, if_neg (h k (Nat.lt_succ_self k))]
    exact ih fun j hj => h j (by omega)

theorem backup_le {p : ℕ} (h : backup fmt pos = some p) : 0 < p ∧ p ≤ pos := by
  induction pos with
  | zero => cases h
  | succ pos ih =>
    rw [backup] at h
    split at h
    · rw [some.injEq] at h
      omega
    · have := ih h
      omega

def percents (fmt : List UInt8) (i : ℕ) : ℕ := (fmt.drop i).count (ascii '%')

theorem percents_anti (fmt : List UInt8) {i j : ℕ} (h : i ≤ j) : percents fmt j ≤ percents fmt i := by
  obtain ⟨k, rfl⟩ := Nat.exists_eq_add_of_le h
  rw [percents, percents, ← drop_drop]
  exact (drop_sublist k _).count_le _

theorem percents_le (fmt : List UInt8) (i : ℕ) : percents fmt i ≤ fmt.length :=
  count_le_length.trans (by rw [length_drop]; omega)

theorem percents_of_percent (h : fmt[pos]? = some (ascii '%')) :
    percents fmt pos = percents fmt (pos + 1) + 1 := by
  obtain ⟨hlt, hget⟩ := List.getElem?_eq_some_iff.mp h
  rw [percents, drop_eq_getElem_cons hlt, hget, count_cons_self, percents]

/-- The cursor is inside the format, and behind a % in an escape. -/
def Outcome.Inside (fmt : List UInt8) : Outcome σ → Prop
  | .running ⟨.text, pos, _, _⟩ => pos ≤ fmt.length
  | .running ⟨.escape _, pos, _, _⟩ => pos ≤ fmt.length ∧ ∃ p, backup fmt pos = some p
  | .returned _ => True
  | .outside => False

/-- What is left to do. The % of an escape is not met again, even when the cursor goes back. -/
def Outcome.measure (fmt : List UInt8) : Outcome σ → ℕ
  | .running ⟨.text, pos, _, _⟩ =>
    percents fmt pos * (2 * (fmt.length + 2)) + (fmt.length + 1 - pos)
  | .running ⟨.escape _, pos, _, _⟩ =>
    percents fmt ((backup fmt pos).getD 0) * (2 * (fmt.length + 2)) + (fmt.length + 1) +
      (fmt.length + 2 - pos)
  | _ => 0

/-- A result of a turn of the switch is nearer to the end. -/
def Nearer (fmt : List UInt8) (pos p : ℕ) (o : Outcome σ) : Prop :=
  o.Inside fmt ∧ o.measure fmt <
    percents fmt p * (2 * (fmt.length + 2)) + (fmt.length + 1) + (fmt.length + 2 - pos)

theorem nearer_again {p k : ℕ} (hpos : pos < fmt.length) (hp : backup fmt pos = some p)
    (hk : pos + 1 + k ≤ fmt.length) (hbytes : ∀ j < k + 1, byteAt fmt (pos + j) ≠ some (ascii '%'))
    (sp : Spec) (ap : ℕ) (sink : σ) :
    Nearer fmt pos p (.running ⟨.escape sp, pos + 1 + k, ap, sink⟩) := by
  have hbackup : backup fmt (pos + 1 + k) = some p := by
    rw [Nat.add_assoc, Nat.add_comm 1 k, backup_add hbytes, hp]
  refine ⟨⟨hk, p, hbackup⟩, ?_⟩
  simp only [Outcome.measure, hbackup, getD_some]
  omega

theorem nearer_text {p next : ℕ} (hnext : next ≤ fmt.length) (hp : p ≤ next)
    (hpos : pos ≤ fmt.length) (ap : ℕ) (sink : σ) :
    Nearer fmt pos p (.running ⟨.text, next, ap, sink⟩) := by
  refine ⟨hnext, ?_⟩
  simp only [Outcome.measure]
  have := Nat.mul_le_mul_right (2 * (fmt.length + 2)) (percents_anti fmt hp)
  omega

theorem nearer_switch {st : State σ} {sp : Spec} {p : ℕ} (hbyte : byteAt fmt st.pos = some ch)
    (hpos : st.pos ≤ fmt.length) (hp : backup fmt st.pos = some p) :
    Nearer fmt st.pos p (switch v env fmt putch st sp ch) := by
  have hle := (backup_le hp).2
  by_cases hother : key ch = .other
  · simp only [switch, hother, hp]
    exact nearer_text (by omega) le_rfl hpos _ _
  have hch : ch ≠ 0 := fun hzero => hother (hzero ▸ key_zero)
  obtain ⟨hlt, _⟩ := lt_of_byteAt hbyte hch
  by_cases hpercent : ch = ascii '%'
  · simp only [switch, show key ch = .percent by rw [hpercent]; decide]
    exact nearer_text hlt (by omega) hpos _ _
  have hone : ∀ j < 0 + 1, byteAt fmt (st.pos + j) ≠ some (ascii '%') := by
    intro j hj
    rw [show j = 0 by omega, Nat.add_zero, hbyte, Ne, some.injEq]
    exact hpercent
  have hagain (sp : Spec) (ap : ℕ) (sink : σ) :
      Nearer fmt st.pos p (.running ⟨.escape sp, st.pos + 1, ap, sink⟩) :=
    nearer_again hlt hp hlt hone sp ap sink
  have hnext (ap : ℕ) (sink : σ) :
      Nearer fmt st.pos p (.running ⟨.text, st.pos + 1, ap, sink⟩) :=
    nearer_text hlt (by omega) hpos ap sink
  unfold switch
  cases hkey : key ch with
  | digit =>
    obtain ⟨value, k, hread, hle, hdigits⟩ := readDigits_inside 0 ch (fmt.drop (st.pos + 1))
    rw [length_drop] at hle
    rw [drop_append_of_le_length hlt, hread]
    refine nearer_again hlt hp (by omega) (fun j hj => ?_) _ _ _
    cases j with
    | zero => exact hone 0 (Nat.lt_succ_self 0)
    | succ j =>
      have hdigit := hdigits j (by omega)
      rw [getElem?_drop] at hdigit
      rwa [byteAt, getElem?_append_left (by omega), Nat.add_comm j, ← Nat.add_assoc]
  | octal => cases v <;> exact hnext _ _
  | other => exact absurd hkey hother
  | minus => exact hagain _ _ _
  | zero => exact hagain _ _ _
  | star => exact hagain _ _ _
  | dot => exact hagain _ _ _
  | alt => exact hagain _ _ _
  | long => exact hagain _ _ _
  | _ => exact hnext _ _

/-- A step from inside the format stays inside and is nearer to the end. -/
theorem step_nearer {o : Outcome σ} (h : o.Inside fmt) (hrunning : o.isRunning = true) :
    (o.step v env fmt putch).Inside fmt ∧
      (o.step v env fmt putch).measure fmt < o.measure fmt := by
  cases o with
  | returned sink => cases hrunning
  | outside => cases hrunning
  | running st =>
    obtain ⟨mode, pos, ap, sink⟩ := st
    cases mode with
    | escape sp =>
      obtain ⟨hpos, p, hp⟩ := h
      obtain ⟨ch, hch⟩ := byteAt_of_le hpos
      have hnearer : Nearer fmt pos p
          (switch v env fmt putch ⟨.escape sp, pos, ap, sink⟩ sp ch) :=
        nearer_switch hch hpos hp
      simp only [Outcome.step, step, hch, Outcome.measure, hp, getD_some]
      exact hnearer
    | text =>
      have hpos : pos ≤ fmt.length := h
      obtain ⟨ch, hch⟩ := byteAt_of_le hpos
      simp only [Outcome.step, step, hch]
      by_cases hpercent : ch = ascii '%'
      · rw [if_pos hpercent]
        rw [hpercent] at hch
        obtain ⟨hlt, hget⟩ := lt_of_byteAt hch (by decide)
        have hbackup : backup fmt (pos + 1) = some (pos + 1) := by rw [backup, if_pos hch]
        refine ⟨⟨hlt, pos + 1, hbackup⟩, ?_⟩
        simp only [Outcome.measure, hbackup, getD_some, percents_of_percent hget,
          Nat.add_mul, Nat.one_mul]
        omega
      rw [if_neg hpercent]
      by_cases hzero : ch = 0
      · rw [if_pos hzero]
        refine ⟨trivial, ?_⟩
        simp only [Outcome.measure]
        omega
      · rw [if_neg hzero]
        obtain ⟨hlt, _⟩ := lt_of_byteAt hch hzero
        refine ⟨hlt, ?_⟩
        simp only [Outcome.measure]
        have := Nat.mul_le_mul_right (2 * (fmt.length + 2))
          (percents_anti fmt (Nat.le_succ pos))
        simp only [Nat.succ_eq_add_one] at this
        omega

/-- vprintfmt returns for every format, and never reads outside of it. -/
theorem exists_returned (v : Version) (env : Env) (fmt : List UInt8) (putch : σ → ℤ → σ)
    (sink : σ) : ∃ out, vprintfmt v env fmt putch sink = .returned out := by
  have hmeasure : (start sink).measure fmt < bound fmt := by
    have hle := Nat.mul_le_mul_right (2 * (fmt.length + 2)) (percents_le fmt 0)
    have hbound : bound fmt =
        fmt.length * (2 * (fmt.length + 2)) + 4 * (fmt.length + 2) := by
      rw [bound, Nat.mul_add, Nat.mul_comm _ fmt.length]
      omega
    simp only [start, Outcome.measure]
    omega
  obtain ⟨hinside, hstopped⟩ := whileLoop_spec Outcome.isRunning (Outcome.step v env fmt putch)
    (Outcome.Inside fmt) (Outcome.measure fmt) (fun o h hrunning => step_nearer h hrunning)
    (bound fmt) (start sink) (Nat.zero_le _) hmeasure
  rw [vprintfmt]
  cases hend : whileLoop Outcome.isRunning (Outcome.step v env fmt putch) (bound fmt)
      (start sink) with
  | running st =>
    rw [hend] at hstopped
    cases hstopped
  | returned out => exact ⟨out, rfl⟩
  | outside =>
    rw [hend] at hinside
    exact absurd hinside id

end Cursor

section Text

variable {v : Version} {env : Env} {fmt : List UInt8}

theorem vprintfmt_text (v : Version) (env : Env) (fmt : List UInt8) :
    vprintfmt v env fmt (fun out c => out ++ [c]) [] = .returned (text v env fmt) := by
  obtain ⟨out, hout⟩ := exists_returned v env fmt (fun out c => out ++ [c]) []
  rw [text, hout]

/-- Every putch gets the characters of the text, in their order. -/
theorem vprintfmt_eq {σ : Type*} (putch : σ → ℤ → σ) (sink : σ) :
    vprintfmt v env fmt putch sink = .returned ((text v env fmt).foldl putch sink) := by
  have happend (out : List ℤ) (c : ℤ) :
      (out ++ [c]).foldl putch sink = putch (out.foldl putch sink) c := by
    rw [foldl_append]
    rfl
  have hmap : (vprintfmt v env fmt (fun out c => out ++ [c]) []).map
      (fun out => out.foldl putch sink) = vprintfmt v env fmt putch sink :=
    map_vprintfmt happend []
  rw [vprintfmt_text] at hmap
  exact hmap.symm

/-- The outcome of some number of steps. -/
def Reaches {σ : Type*} (v : Version) (env : Env) (fmt : List UInt8) (putch : σ → ℤ → σ)
    (o o' : Outcome σ) : Prop :=
  ∃ n, whileLoop Outcome.isRunning (Outcome.step v env fmt putch) n o = o'

theorem Reaches.refl {σ : Type*} {putch : σ → ℤ → σ} (o : Outcome σ) :
    Reaches v env fmt putch o o := ⟨0, rfl⟩

theorem Reaches.head {σ : Type*} {putch : σ → ℤ → σ} {st : State σ} {o o' : Outcome σ}
    (hstep : step v env fmt putch st = o) (h : Reaches v env fmt putch o o') :
    Reaches v env fmt putch (.running st) o' := by
  obtain ⟨n, hn⟩ := h
  refine ⟨n + 1, ?_⟩
  have hrunning : (Outcome.running st).isRunning = true := rfl
  rw [whileLoop, if_pos hrunning, Outcome.step, hstep]
  exact hn

theorem text_eq_of_reaches {out : List ℤ}
    (h : Reaches v env fmt (fun out c => out ++ [c]) (start []) (.returned out)) :
    text v env fmt = out := by
  obtain ⟨n, hn⟩ := h
  have htext := vprintfmt_text v env fmt
  rw [vprintfmt] at htext
  have hsame : Outcome.returned (text v env fmt) = .returned out := by
    rcases Nat.le_total n (bound fmt) with hle | hle
    · rw [← htext, whileLoop_of_stopped hle (by rw [hn]; rfl), hn]
    · rw [← hn, whileLoop_of_stopped hle (by rw [htext]; rfl), htext]
  injection hsame

end Text

/-! ### The steps of a run -/

section Runs

variable {v : Version} {env : Env} {fmt : List UInt8} {σ : Type*} {putch : σ → ℤ → σ}
  {o : Outcome σ} {sp : Spec} {pos ap : ℕ} {sink : σ} {c : UInt8} {rest : List UInt8}

theorem byteAt_of_drop (h : (fmt ++ [0]).drop pos = c :: rest) : byteAt fmt pos = some c := by
  rw [byteAt, ← head?_drop, h, head?_cons]

theorem drop_succ (h : (fmt ++ [0]).drop pos = c :: rest) : (fmt ++ [0]).drop (pos + 1) = rest := by
  rw [← drop_drop, h, drop_one, tail_cons]

theorem drop_add {first : List UInt8} (h : (fmt ++ [0]).drop pos = first ++ rest) :
    (fmt ++ [0]).drop (pos + first.length) = rest := by
  rw [← drop_drop, h, drop_left]

theorem reaches_percent (h : (fmt ++ [0]).drop pos = ascii '%' :: rest)
    (hnext : Reaches v env fmt putch (.running ⟨.escape Spec.init, pos + 1, ap, sink⟩) o) :
    Reaches v env fmt putch (.running ⟨.text, pos, ap, sink⟩) o := by
  refine Reaches.head ?_ hnext
  simp only [step, byteAt_of_drop h, if_pos]

theorem reaches_char (h : (fmt ++ [0]).drop pos = c :: rest) (hpercent : c ≠ ascii '%')
    (hzero : c ≠ 0)
    (hnext : Reaches v env fmt putch (.running ⟨.text, pos + 1, ap, putch sink c.toNat⟩) o) :
    Reaches v env fmt putch (.running ⟨.text, pos, ap, sink⟩) o := by
  refine Reaches.head ?_ hnext
  simp only [step, byteAt_of_drop h, if_neg hpercent, if_neg hzero]

theorem reaches_switch (h : (fmt ++ [0]).drop pos = c :: rest)
    (hnext : Reaches v env fmt putch (switch v env fmt putch ⟨.escape sp, pos, ap, sink⟩ sp c) o) :
    Reaches v env fmt putch (.running ⟨.escape sp, pos, ap, sink⟩) o := by
  refine Reaches.head ?_ hnext
  simp only [step, byteAt_of_drop h]

theorem reaches_end (h : (fmt ++ [0]).drop pos = [0]) :
    Reaches v env fmt putch (.running ⟨.text, pos, ap, sink⟩) (.returned sink) := by
  refine Reaches.head ?_ (Reaches.refl _)
  simp only [step, byteAt_of_drop h]
  rfl

end Runs

end KernelLabs.PrintFormat

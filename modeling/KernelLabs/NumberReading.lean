import KernelLabs.BoundedPrint
import KernelLabs.Numerals

/-!
The function strtol of lab1 (lib/string.c), and the numbers that vprintfmt prints read back. A
string is the list of its bytes before the NUL, and endptr is given as the bytes from there on.
-/
namespace KernelLabs.NumberReading

open MachineWords PrintFormat NumberFields Numerals List Option

def digitOf (c : UInt8) : Option ℕ :=
  if ascii '0' ≤ c ∧ c ≤ ascii '9' then some (c.toNat - (ascii '0').toNat)
  else if ascii 'a' ≤ c ∧ c ≤ ascii 'z' then some (c.toNat - (ascii 'a').toNat + 10)
  else if ascii 'A' ≤ c ∧ c ≤ ascii 'Z' then some (c.toNat - (ascii 'A').toNat + 10)
  else none

def readVal (base : ℤ) : List UInt8 → ℤ → ℤ × List UInt8
  | [], val => (val, [])
  | c :: rest, val =>
    match digitOf c with
    | none => (val, c :: rest)
    | some dig =>
      if base ≤ dig then (val, c :: rest)
      else readVal base rest (int32 (val * base + dig))

def readSign : List UInt8 → Bool × List UInt8
  | [] => (false, [])
  | c :: rest =>
    if c = ascii '+' then (false, rest)
    else if c = ascii '-' then (true, rest)
    else (false, c :: rest)

def readBase (base : ℤ) (s : List UInt8) : ℤ × List UInt8 :=
  if (base = 0 ∨ base = 16) ∧ s[0]? = some (ascii '0') ∧ s[1]? = some (ascii 'x') then
    (16, s.drop 2)
  else if base = 0 ∧ s[0]? = some (ascii '0') then (8, s.drop 1)
  else if base = 0 then (10, s)
  else (base, s)

def strtol (s : List UInt8) (base : ℤ) : ℤ × List UInt8 :=
  let s := s.dropWhile fun c => c = ascii ' ' ∨ c = ascii '\t'
  let (neg, s) := readSign s
  let (base, s) := readBase base s
  let (val, s) := readVal base s 0
  (if neg then int32 (-val) else val, s)

/-! ### Reading digits -/

variable {d : ℕ}

section Digits

variable {b : ℕ} {ds : List ℕ}

def numeralBytes (ds : List ℕ) : List UInt8 := (ds.map Nat.digitChar).map ascii

theorem digitOf_digitChar (h : d < 16) : digitOf (ascii d.digitChar) = some d := by
  interval_cases d <;> rfl

theorem readVal_numeral (hb : b ≤ 16) (hds : ∀ d ∈ ds, d < b) (n : ℕ) :
    readVal b (numeralBytes ds) (int32 n) =
      (int32 (ds.foldl (fun n d => n * b + d) n : ℕ), []) := by
  induction ds generalizing n with
  | nil => rfl
  | cons d ds ih =>
    have hd := hds d mem_cons_self
    have hacc : int32 (int32 n * b + d) = int32 ((n * b + d : ℕ) : ℤ) := by
      rw [Int.natCast_add, Int.natCast_mul, int32, int32, int32, Int.bmod_add_bmod.symm,
        Int.bmod_mul_bmod, Int.bmod_add_bmod]
    rw [numeralBytes, map_cons, map_cons, readVal, digitOf_digitChar (by omega)]
    dsimp only
    rw [if_neg (by omega), hacc, foldl_cons]
    exact ih (fun e he => hds e (mem_cons_of_mem d he)) _

theorem digitChar_bytes (h : d < 16) :
    ascii d.digitChar ≠ ascii ' ' ∧ ascii d.digitChar ≠ ascii '\t' ∧
      ascii d.digitChar ≠ ascii '+' ∧ ascii d.digitChar ≠ ascii '-' ∧
      ascii d.digitChar ≠ ascii 'x' := by
  interval_cases d <;> decide

def signBytes (neg : Bool) : List UInt8 := if neg then [ascii '-'] else []

/-- strtol of a sign and a body whose base prefix leaves a numeral. -/
theorem strtol_eq (neg : Bool) {base : ℤ} {rest : List UInt8} (hd : d < 16)
    (hbase : readBase base (ascii d.digitChar :: rest) = ((b : ℤ), numeralBytes ds)) (hb : b ≤ 16)
    (hds : ∀ d ∈ ds, d < b) :
    strtol (signBytes neg ++ ascii d.digitChar :: rest) base =
      (if neg then int32 (-int32 (value b ds)) else int32 (value b ds), []) := by
  obtain ⟨hblank, htab, hplus, hminus, _⟩ := digitChar_bytes hd
  have hspace : (signBytes neg ++ ascii d.digitChar :: rest).dropWhile
      (fun c => decide (c = ascii ' ' ∨ c = ascii '\t')) =
        signBytes neg ++ ascii d.digitChar :: rest := by
    cases neg with
    | true => rfl
    | false =>
      rw [signBytes, if_neg (by decide), nil_append, dropWhile_cons_of_neg]
      rw [decide_eq_true_eq, not_or]
      exact ⟨hblank, htab⟩
  have hsign : readSign (signBytes neg ++ ascii d.digitChar :: rest) =
      (neg, ascii d.digitChar :: rest) := by
    cases neg with
    | true => rfl
    | false =>
      rw [signBytes, if_neg (by decide), nil_append, readSign, if_neg hplus, if_neg hminus]
  have hval : readVal b (numeralBytes ds) 0 = (int32 (value b ds), []) := readVal_numeral hb hds 0
  rw [strtol, hspace, hsign]
  dsimp only
  rw [hbase]
  dsimp only
  rw [hval]

theorem strtol_unsigned {base : ℤ} {rest : List UInt8} (hd : d < 16)
    (hbase : readBase base (ascii d.digitChar :: rest) = ((b : ℤ), numeralBytes ds)) (hb : b ≤ 16)
    (hds : ∀ d ∈ ds, d < b) :
    strtol (ascii d.digitChar :: rest) base = (int32 (value b ds), []) := by
  have hread := strtol_eq false hd hbase hb hds
  rw [signBytes, if_neg Bool.false_ne_true, if_neg Bool.false_ne_true, nil_append] at hread
  exact hread

end Digits

/-! ### Printed numbers -/

/-- No padding, or the flag '0' and a width. -/
inductive Pad
  | none
  | zeros (width : Width)

def Pad.flag : Pad → Flag
  | none => .none
  | zeros _ => .zero

def Pad.width : Pad → Width
  | none => .digits 0
  | zeros width => width

def field (conv : Conv) (pad : Pad) : NumberFields.Field := ⟨pad.flag, pad.width, .int, conv⟩

def altText (altflag : Bool) : List UInt8 := if altflag then [ascii '#'] else []

def octalFormat (altflag : Bool) (pad : Pad) : List UInt8 :=
  ascii '%' :: (altText altflag ++ (pad.flag.text ++ (pad.width.text ++ [ascii 'o'])))

/-- A format with the base for which its text is read: %d, %u, %x and %o with their own base,
and %d, %#o and 0x%x with the base 0. -/
inductive Sample
  | number (conv : Conv) (pad : Pad)
  | octal (pad : Pad)
  | anyDecimal
  | anyOctal
  | anyHex

def Sample.format : Sample → List UInt8
  | number conv pad => (field conv pad).format
  | octal pad => octalFormat false pad
  | anyDecimal => (field .d .none).format
  | anyOctal => octalFormat true .none
  | anyHex => ascii '0' :: ascii 'x' :: (field .x .none).format

def Sample.base : Sample → ℤ
  | number conv _ => conv.base
  | octal _ => 8
  | _ => 0

def Sample.argument (env : Env) : Sample → Word
  | number conv pad => env.arg (field conv pad).skip
  | octal pad => env.arg (field .u pad).skip
  | _ => env.arg 0

section Texts

variable {env : Env}

theorem reaches_alt {v : Version} {fmt rest : List UInt8} {σ : Type*} {putch : σ → ℤ → σ}
    {o : Outcome σ} {sp : Spec} {pos ap : ℕ} {sink : σ} (altflag : Bool)
    (h : (fmt ++ [0]).drop pos = altText altflag ++ rest) (halt : sp.altflag = false)
    (hnext : Reaches v env fmt putch (.running ⟨.escape { sp with altflag := altflag },
      pos + (altText altflag).length, ap, sink⟩) o) :
    Reaches v env fmt putch (.running ⟨.escape sp, pos, ap, sink⟩) o := by
  cases altflag with
  | true => exact reaches_switch h hnext
  | false =>
    have hsp : { sp with altflag := false } = sp := by rw [← halt]
    rw [hsp] at hnext
    exact hnext

theorem octal_text (altflag : Bool) (pad : Pad) :
    PrintFormat.text .lab1 env (octalFormat altflag pad) =
      (if altflag = true ∧ ((Sample.octal pad).argument env).toNat ≠ 0 then [code '0'] else []) ++
        (replicate (int32 ((field .u pad).wide env -
            (Nat.toDigits 8 ((Sample.octal pad).argument env).toNat).length)).toNat pad.flag.padc ++
          (Nat.toDigits 8 ((Sample.octal pad).argument env).toNat).map code) := by
  set f := field .u pad
  set num := ((Sample.octal pad).argument env).toNat
  have hnum : num < 2 ^ 64 := by
    have : num < 2 ^ 32 := BitVec.isLt _
    omega
  have hlength : (Nat.toDigits 8 num).length ≤ 64 :=
    (Nat.length_toDigits_le_iff (by decide) (by decide)).mpr
      (Nat.lt_of_lt_of_le hnum (Nat.pow_le_pow_left (by decide) 64))
  have hformat : (octalFormat altflag pad ++ [0]).drop 0 =
      ascii '%' :: (altText altflag ++ (pad.flag.text ++ (pad.width.text ++ [ascii 'o', 0]))) := by
    rw [drop_zero, octalFormat]
    simp only [cons_append, append_assoc, nil_append]
  apply text_eq_of_reaches
  refine reaches_percent hformat ?_
  have halt := drop_succ hformat
  refine reaches_alt altflag halt rfl ?_
  have hflag := drop_add halt
  refine reaches_flag pad.flag hflag rfl ?_
  have hwidth := drop_add hflag
  refine reaches_width f (by decide) hwidth rfl rfl ?_
  have hconv := drop_add hwidth
  refine reaches_switch hconv ?_
  let sp : Spec := ⟨pad.flag.padc, pad.width.parsed env, -1, 0, altflag⟩
  have htext (out : List ℤ) : out ++ (replicate (int32 (f.wide env -
      (Nat.toDigits 8 num).length)).toNat pad.flag.padc ++ (Nat.toDigits 8 num).map code) =
      number (fun out c => out ++ [c]) sp 8 num out := by
    rw [number_append (by decide) (by decide) sp hnum,
      ← f.left_of_parsed env Nat.length_toDigits_pos hlength]
    rfl
  rw [htext]
  exact reaches_end (drop_succ hconv)

def Sample.text (env : Env) (s : Sample) : List UInt8 :=
  (PrintFormat.text .lab1 env s.format).map BoundedPrint.toChar

theorem toChar_digitChar (h : d < 16) :
    BoundedPrint.toChar (code d.digitChar) = ascii d.digitChar := by
  interval_cases d <;> rfl

theorem numeralBytes_append (ds es : List ℕ) :
    numeralBytes (ds ++ es) = numeralBytes ds ++ numeralBytes es := by
  rw [numeralBytes, map_append, map_append]
  rfl

/-- The padding and the digits of a number as the bytes of a numeral. -/
theorem exists_numeral {b : ℕ} (hlow : 1 < b) (hhigh : b ≤ 16) (n : ℕ) {k : ℕ} {padc : ℤ}
    (hpad : padc = code '0' ∨ k = 0) :
    ∃ d ds, (replicate k padc ++ (Nat.toDigits b n).map code).map BoundedPrint.toChar =
        numeralBytes (d :: ds) ∧
      (∀ e ∈ d :: ds, e < b) ∧ value b (d :: ds) = n ∧
      (k = 0 → (d = 0 ↔ n = 0) ∧ (d = 0 → ds = [])) := by
  obtain ⟨d, ds, hdigits, hbound, hvalue, hzero⟩ := exists_digits hlow n
  have hbytes : ((Nat.toDigits b n).map code).map BoundedPrint.toChar =
      numeralBytes (d :: ds) := by
    rw [hdigits, numeralBytes, List.map_map, List.map_map, List.map_map]
    refine map_congr_left fun e he => toChar_digitChar ?_
    exact Nat.lt_of_lt_of_le (hbound e he) hhigh
  rw [map_append, hbytes, map_replicate]
  cases k with
  | zero => exact ⟨d, ds, rfl, hbound, hvalue, fun _ => hzero⟩
  | succ k =>
    obtain rfl : padc = code '0' := hpad.resolve_right (Nat.succ_ne_zero k)
    refine ⟨0, replicate k 0 ++ (d :: ds), ?_, ?_, ?_, fun hk => absurd hk (by omega)⟩
    · have hzeros : replicate (k + 1) (BoundedPrint.toChar (code '0')) =
          numeralBytes (replicate (k + 1) 0) := by
        rw [numeralBytes, map_replicate, map_replicate]
        rfl
      rw [hzeros, ← numeralBytes_append, replicate_succ, cons_append]
    · intro e he
      rw [← cons_append, ← replicate_succ, mem_append] at he
      rcases he with he | he
      · rw [eq_of_mem_replicate he]
        omega
      · exact hbound e he
    · rw [← cons_append, ← replicate_succ, value_zeros, hvalue]

theorem Pad.fill_eq_zero (pad : Pad) (env : Env) {n : ℕ} (hlow : 1 ≤ n) (hhigh : n ≤ 64)
    (conv : Conv) :
    pad.flag.padc = code '0' ∨ (int32 ((field conv pad).wide env - n)).toNat = 0 := by
  cases pad with
  | zeros width => exact Or.inl rfl
  | none =>
    refine Or.inr ?_
    have hwide : (field conv Pad.none).wide env = 0 := rfl
    rw [hwide, int32_eq_self (by omega) (by omega)]
    omega

theorem number_bytes (env : Env) (conv : Conv) (pad : Pad) :
    ∃ d ds, ((PrintFormat.text .lab1 env (field conv pad).format).map BoundedPrint.toChar =
        signBytes (decide ((field conv pad).value env < 0)) ++ numeralBytes (d :: ds)) ∧
      (∀ e ∈ d :: ds, e < conv.base) ∧
      value conv.base (d :: ds) = ((field conv pad).value env).natAbs ∧
      (pad = .none → (d = 0 ↔ (field conv pad).value env = 0) ∧ (d = 0 → ds = [])) := by
  set f := field conv pad
  obtain ⟨hlow, hhigh⟩ := f.base_bounds
  obtain ⟨hpos, hlength⟩ := f.numeral_length env
  have hpad := pad.fill_eq_zero env hpos hlength conv
  obtain ⟨d, ds, hbytes, hbound, hvalue, hzero⟩ :=
    exists_numeral hlow hhigh (f.value env).natAbs hpad
  refine ⟨d, ds, ?_, hbound, hvalue, fun hnone => ?_⟩
  · rw [f.text_format, NumberFields.Field.printed, map_append]
    have hsign : (f.sign env).map BoundedPrint.toChar =
        signBytes (decide (f.value env < 0)) := by
      rw [NumberFields.Field.sign, signBytes]
      by_cases hneg : f.value env < 0
      · rw [if_pos hneg, if_pos (decide_eq_true hneg)]
        rfl
      · rw [if_neg hneg, if_neg (by rw [decide_eq_true_eq]; exact hneg)]
        rfl
    rw [hsign]
    exact congrArg _ hbytes
  · have hfill := hpad.resolve_left (by rw [hnone]; decide)
    obtain ⟨hiff, halone⟩ := hzero hfill
    exact ⟨hiff.trans Int.natAbs_eq_zero, halone⟩

end Texts

/-! ### Reading them back -/

section Read

variable {env : Env}

/-- The sign and the digits of a number give it back modulo 2^32. -/
theorem signed_emod (x : ℤ) :
    (if decide (x < 0) = true then int32 (-int32 x.natAbs) else int32 x.natAbs) % 2 ^ 32 =
      x % 2 ^ 32 := by
  have hemod (y : ℤ) : int32 y % 2 ^ 32 = y % 2 ^ 32 := Int.bmod_emod ..
  by_cases hneg : x < 0
  · rw [if_pos (decide_eq_true hneg), hemod]
    have habs := hemod x.natAbs
    omega
  · rw [if_neg (by rw [decide_eq_true_eq]; exact hneg), hemod]
    congr 1
    omega

theorem field_emod (conv : Conv) (pad : Pad) :
    (field conv pad).value env % 2 ^ 32 = (env.arg (field conv pad).skip).toNat := by
  set w := env.arg (field conv pad).skip
  have hunsigned : (w.toNat : ℤ) % 2 ^ 32 = w.toNat := by
    have := w.isLt
    omega
  have hsigned : w.toInt % 2 ^ 32 = w.toNat := by
    rw [BitVec.toInt_eq_toNat_bmod]
    exact (Int.bmod_emod ..).trans hunsigned
  cases conv with
  | d => exact hsigned
  | u => exact hunsigned
  | x => exact hunsigned

theorem readBase_numeral {base : ℤ} (hbase : base ≠ 0) {ds : List ℕ} (hds : ∀ e ∈ ds, e < 16) :
    readBase base (numeralBytes (d :: ds)) = (base, numeralBytes (d :: ds)) := by
  have hsecond : (numeralBytes (d :: ds))[1]? ≠ some (ascii 'x') := by
    cases ds with
    | nil => nofun
    | cons e es =>
      intro h
      exact (digitChar_bytes (hds e mem_cons_self)).2.2.2.2 (some.inj h)
  rw [readBase, if_neg (fun h => hsecond h.2.2), if_neg (fun h => hbase h.1), if_neg hbase]

/-- A numeral that does not begin with a zero is decimal. -/
theorem readBase_decimal {ds : List ℕ} (hd : d ≠ 0) (hlt : d < 10) :
    readBase 0 (numeralBytes (d :: ds)) = (10, numeralBytes (d :: ds)) := by
  have hfirst : (numeralBytes (d :: ds))[0]? ≠ some (ascii '0') := by
    intro h
    have hbyte : ascii d.digitChar = ascii '0' := some.inj h
    interval_cases d <;> revert hbyte <;> first | exact absurd rfl hd | decide
  rw [readBase, if_neg (fun h => hfirst h.2.1), if_neg (fun h => hfirst h.2), if_pos rfl]

theorem readBase_octal {ds : List ℕ} (hd : d < 16) :
    readBase 0 (ascii '0' :: numeralBytes (d :: ds)) = (8, numeralBytes (d :: ds)) := by
  have hsecond : (ascii '0' :: numeralBytes (d :: ds))[1]? ≠ some (ascii 'x') := fun h =>
    (digitChar_bytes hd).2.2.2.2 (some.inj h)
  rw [readBase, if_neg (fun h => hsecond h.2.2), if_pos ⟨rfl, rfl⟩]
  rfl

theorem octal_bytes (env : Env) (altflag : Bool) (pad : Pad) :
    ∃ d ds, ((PrintFormat.text .lab1 env (octalFormat altflag pad)).map BoundedPrint.toChar =
        (if altflag = true ∧ ((Sample.octal pad).argument env).toNat ≠ 0 then [ascii '0'] else [])
          ++ numeralBytes (d :: ds)) ∧
      (∀ e ∈ d :: ds, e < 8) ∧ value 8 (d :: ds) = ((Sample.octal pad).argument env).toNat ∧
      (pad = .none → (d = 0 ↔ ((Sample.octal pad).argument env).toNat = 0) ∧
        (d = 0 → ds = [])) := by
  set num := ((Sample.octal pad).argument env).toNat with hnum
  have hlength : (Nat.toDigits 8 num).length ≤ 64 :=
    (Nat.length_toDigits_le_iff (by decide) (by decide)).mpr
      (Nat.lt_of_lt_of_le (BitVec.isLt _) (by decide))
  have hpad := pad.fill_eq_zero env Nat.length_toDigits_pos hlength .u
  obtain ⟨d, ds, hbytes, hbound, hvalue, hzero⟩ :=
    exists_numeral (b := 8) (by decide) (by decide) num hpad
  refine ⟨d, ds, ?_, hbound, hvalue, fun hnone => hzero (hpad.resolve_left ?_)⟩
  · rw [octal_text, map_append, ← hnum, hbytes, apply_ite (List.map _)]
    rfl
  · rw [hnone]
    decide

theorem reads_back {text : List UInt8} {base : ℤ} (val : ℤ) {w : Word}
    (h : strtol text base = (val, [])) (hval : val % 2 ^ 32 = w.toNat) :
    (strtol text base).2 = [] ∧ (strtol text base).1 % 2 ^ 32 = w.toNat := by
  rw [h]
  exact ⟨rfl, hval⟩

theorem int32_emod (w : Word) : int32 w.toNat % 2 ^ 32 = w.toNat := by
  have hlt := w.isLt
  have hemod : int32 w.toNat % 2 ^ 32 = (w.toNat : ℤ) % 2 ^ 32 := Int.bmod_emod ..
  omega

theorem reads_back_number (conv : Conv) (pad : Pad) :
    strtol ((Sample.number conv pad).text env) conv.base =
      (if decide ((field conv pad).value env < 0) = true then
        int32 (-int32 ((field conv pad).value env).natAbs)
      else int32 ((field conv pad).value env).natAbs, []) := by
  obtain ⟨hlow, hhigh⟩ := (field conv pad).base_bounds
  obtain ⟨d, ds, htext, hbound, hvalue, _⟩ := number_bytes env conv pad
  have hlt (e : ℕ) (he : e ∈ d :: ds) : e < 16 := Nat.lt_of_lt_of_le (hbound e he) hhigh
  have hbase : readBase conv.base (numeralBytes (d :: ds)) =
      ((conv.base : ℤ), numeralBytes (d :: ds)) :=
    readBase_numeral (by cases conv <;> decide) fun e he => hlt e (mem_cons_of_mem d he)
  rw [Sample.text, Sample.format, htext, ← hvalue]
  exact strtol_eq _ (hlt d mem_cons_self) hbase hhigh hbound

theorem hex_text (f : NumberFields.Field) :
    PrintFormat.text .lab1 env (ascii '0' :: ascii 'x' :: f.format) =
      code '0' :: code 'x' :: f.printed env := by
  have hformat : ((ascii '0' :: ascii 'x' :: f.format) ++ [0]).drop 0 =
      ascii '0' :: ascii 'x' :: (f.format ++ [0]) := rfl
  have hletter := drop_succ hformat
  apply text_eq_of_reaches
  refine reaches_char hformat (by decide) (by decide) ?_
  refine reaches_char hletter (by decide) (by decide) ?_
  exact f.reaches_format env .lab1 _ (drop_succ hletter)

end Read

/-- Printed numbers read back. For every format and every argument, strtol consumes the whole
text and returns the argument modulo 2^32. -/
theorem printed_numbers_read_back (env : Env) (s : Sample) :
    (strtol (s.text env) s.base).2 = [] ∧
      (strtol (s.text env) s.base).1 % 2 ^ 32 = (s.argument env).toNat := by
  cases s with
  | number conv pad =>
    exact reads_back _ (reads_back_number conv pad) ((signed_emod _).trans (field_emod conv pad))
  | octal pad =>
    obtain ⟨d, ds, htext, hbound, hvalue, _⟩ := octal_bytes env false pad
    have hlt (e : ℕ) (he : e ∈ d :: ds) : e < 16 := Nat.lt_trans (hbound e he) (by decide)
    have hbase : readBase 8 (numeralBytes (d :: ds)) = (8, numeralBytes (d :: ds)) :=
      readBase_numeral (by decide) fun e he => hlt e (mem_cons_of_mem d he)
    refine reads_back (int32 ((Sample.octal pad).argument env).toNat) ?_ (int32_emod _)
    rw [Sample.text, Sample.format, htext, if_neg (fun h => Bool.false_ne_true h.1),
      nil_append, ← hvalue]
    exact strtol_unsigned (hlt d mem_cons_self) hbase (by decide) hbound
  | anyDecimal =>
    refine reads_back _ ?_ ((signed_emod _).trans (field_emod .d .none))
    obtain ⟨d, ds, htext, hbound, hvalue, hzero⟩ := number_bytes env .d .none
    obtain ⟨hiff, halone⟩ := hzero rfl
    rw [Sample.text, Sample.format, htext]
    by_cases hd : d = 0
    · rw [hd, halone hd, hiff.mp hd]
      rfl
    · have hlt := hbound d mem_cons_self
      rw [← hvalue]
      exact strtol_eq _ (Nat.lt_trans hlt (by decide)) (readBase_decimal hd hlt) (by decide) hbound
  | anyOctal =>
    obtain ⟨d, ds, htext, hbound, hvalue, hzero⟩ := octal_bytes env true .none
    obtain ⟨hiff, halone⟩ := hzero rfl
    refine reads_back (int32 ((Sample.octal .none).argument env).toNat) ?_ (int32_emod _)
    rw [Sample.text, Sample.format, htext]
    by_cases hd : d = 0
    · rw [if_neg (fun h => h.2 (hiff.mp hd)), hd, halone hd, hiff.mp hd]
      rfl
    · have hlt := hbound d mem_cons_self
      rw [if_pos ⟨rfl, fun h => hd (hiff.mpr h)⟩, ← hvalue]
      exact strtol_unsigned (d := 0) (by decide) (readBase_octal (Nat.lt_trans hlt (by decide)))
        (by decide) hbound
  | anyHex =>
    obtain ⟨d, ds, htext, hbound, hvalue, _⟩ := number_bytes env .x .none
    have hnonneg : ¬(field .x .none).value env < 0 := Int.not_lt.mpr (Int.natCast_nonneg _)
    have hnatAbs : ((field .x .none).value env).natAbs = (env.arg 0).toNat := rfl
    rw [(field .x .none).text_format, decide_eq_false hnonneg] at htext
    refine reads_back (int32 (env.arg 0).toNat) ?_ (int32_emod _)
    rw [Sample.text, Sample.format, hex_text, map_cons, map_cons, htext, ← hnatAbs, ← hvalue]
    exact strtol_unsigned (d := 0) (by decide) rfl (by decide) hbound

end KernelLabs.NumberReading

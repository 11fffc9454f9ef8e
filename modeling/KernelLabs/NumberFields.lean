import KernelLabs.PrintFormat
import Mathlib.Tactic.IntervalCases

/-!
Numbers in a field of a given width: the escape sequences of vprintfmt that consist of a flag,
a width, the letters of the argument's length and one of the conversions d, u and x. The sign
is printed before printnum pads, and the character of the flag '-' is itself the padding.
-/
namespace KernelLabs.NumberFields

open MachineWords PrintFormat List BitVec

inductive Flag
  | none | zero | minus
  deriving DecidableEq

/-- A width in the format, where 0 stands for no width, or the one of an argument. -/
inductive Width
  | digits (w : ℕ)
  | star

inductive Length
  | int | long | longLong

inductive Conv
  | d | u | x

structure Field where
  flag : Flag
  width : Width
  length : Length
  conv : Conv

def Flag.text : Flag → List UInt8
  | none => []
  | zero => [ascii '0']
  | minus => [ascii '-']

def Flag.padc : Flag → ℤ
  | none => code ' '
  | zero => code '0'
  | minus => code '-'

def Width.text : Width → List UInt8
  | digits w => if w = 0 then [] else (Nat.toDigits 10 w).map ascii
  | star => [ascii '*']

def Length.count : Length → ℕ
  | int => 0
  | long => 1
  | longLong => 2

def Conv.letter : Conv → UInt8
  | d => ascii 'd'
  | u => ascii 'u'
  | x => ascii 'x'

def Conv.base : Conv → ℕ
  | d => 10
  | u => 10
  | x => 16

namespace Field

variable (f : Field) (env : Env)

def format : List UInt8 :=
  ascii '%' :: (f.flag.text ++ (f.width.text ++
    (List.replicate f.length.count (ascii 'l') ++ [f.conv.letter])))

def skip : ℕ :=
  match f.width with
  | .digits _ => 0
  | .star => 1

def wide : ℤ :=
  match f.width with
  | .digits w => w
  | .star => (env.arg 0).toInt

def value : ℤ :=
  match f.conv, f.length with
  | .d, .longLong => (env.arg (f.skip + 1) ++ env.arg f.skip).toInt
  | .d, _ => (env.arg f.skip).toInt
  | _, .longLong => (env.arg (f.skip + 1) ++ env.arg f.skip).toNat
  | _, _ => (env.arg f.skip).toNat

def sign : List ℤ := if f.value env < 0 then [code '-'] else []

def numeral : List ℤ := (Nat.toDigits f.conv.base (f.value env).natAbs).map code

def fill : ℕ := (f.wide env - (f.sign env).length - (f.numeral env).length).toNat

def expected : List ℤ :=
  match f.flag with
  | .none => List.replicate (f.fill env) (code ' ') ++ (f.sign env ++ f.numeral env)
  | .zero => f.sign env ++ (List.replicate (f.fill env) (code '0') ++ f.numeral env)
  | .minus => f.sign env ++ (f.numeral env ++ List.replicate (f.fill env) (code ' '))

def printed : List ℤ :=
  f.sign env ++
    (List.replicate (int32 (f.wide env - (f.numeral env).length)).toNat f.flag.padc ++
      f.numeral env)

theorem length_expected :
    ((f.expected env).length : ℤ) =
      max (f.wide env) ((f.sign env).length + (f.numeral env).length) := by
  have hlength : (f.expected env).length =
      f.fill env + ((f.sign env).length + (f.numeral env).length) := by
    rw [expected]
    cases f.flag <;> simp only [length_append, length_replicate] <;> omega
  rw [hlength, fill]
  omega

end Field

/-! ### printnum -/

section Numerals

theorem digit_eq {d : ℕ} (h : d < 16) : digit d = code d.digitChar := by
  interval_cases d <;> rfl

theorem pad_append (c : ℤ) (n : ℕ) (out : List ℤ) :
    pad (fun out c => out ++ [c]) c n out = out ++ List.replicate n c := by
  induction n generalizing out with
  | zero => rw [pad, List.replicate_zero, append_nil]
  | succ n ih => rw [pad, ih, List.replicate_succ, List.append_assoc, singleton_append]

/-- printnum pads to the left of the digits, with what the digits leave of the width. -/
theorem printnum_append {base : ℕ} (hlow : 1 < base) (hhigh : base ≤ 16) (padc : ℤ)
    (depth num : ℕ) (width : ℤ) (out : List ℤ) (h : num < base ^ (depth + 1)) :
    printnum (fun out c => out ++ [c]) base padc (depth + 1) num width out =
      out ++ (List.replicate (int32 (width - (Nat.toDigits base num).length)).toNat padc ++
        (Nat.toDigits base num).map code) := by
  induction depth generalizing num width out with
  | zero =>
    rw [Nat.zero_add, Nat.pow_one] at h
    rw [printnum, if_neg (by omega), pad_append, Nat.mod_eq_of_lt h, digit_eq (by omega),
      Nat.toDigits_of_lt_base h, List.append_assoc]
    rfl
  | succ depth ih =>
    by_cases hbase : base ≤ num
    · have hdiv : num / base < base ^ (depth + 1) :=
        Nat.div_lt_of_lt_mul (by rw [← Nat.pow_succ']; exact h)
      have hlast : num % base < base := Nat.mod_lt _ (by omega)
      have hwidth : int32 (int32 (width - 1) - (Nat.toDigits base (num / base)).length) =
          int32 (width - (Nat.toDigits base num).length) := by
        rw [Int.sub_eq_add_neg, int32_add_left, Nat.toDigits_of_base_le hlow hbase,
          length_append, length_singleton]
        congr 1
        omega
      rw [printnum, if_pos hbase, ih _ _ _ hdiv, hwidth, digit_eq (by omega),
        Nat.toDigits_of_base_le hlow hbase]
      simp only [map_append, map_cons, map_nil, List.append_assoc]
    · have hlt : num < base := by omega
      rw [printnum, if_neg hbase, pad_append, Nat.mod_eq_of_lt hlt, digit_eq (by omega),
        Nat.toDigits_of_lt_base hlt, List.append_assoc]
      rfl

theorem number_append {base : ℕ} (hlow : 1 < base) (hhigh : base ≤ 16) (sp : Spec) {num : ℕ}
    (h : num < 2 ^ 64) (out : List ℤ) :
    number (fun out c => out ++ [c]) sp base num out =
      out ++ (List.replicate (int32 (sp.width - (Nat.toDigits base num).length)).toNat sp.padc ++
        (Nat.toDigits base num).map code) :=
  printnum_append hlow hhigh sp.padc 63 num sp.width out
    (Nat.lt_of_lt_of_le h (Nat.pow_le_pow_left hlow 64))

end Numerals

/-! ### The digits of a width -/

section Widths

theorem isDigit_bounds {c : Char} (h : c.isDigit = true) : 48 ≤ c.toNat ∧ c.toNat ≤ 57 := by
  rw [Char.isDigit, Bool.and_eq_true, decide_eq_true_eq, decide_eq_true_eq] at h
  exact h

theorem ascii_toNat {c : Char} (h : c.toNat < 256) : (ascii c).toNat = c.toNat := by
  rw [ascii, Nat.toUInt8, UInt8.toNat_ofNat', Nat.mod_eq_of_lt h]

theorem int32_digit (n d : ℤ) : int32 (int32 n * 10 + d) = int32 (n * 10 + d) := by
  simp only [int32, ← Int.bmod_add_bmod (x := _ * 10), Int.bmod_mul_bmod]

/-- The first digit of a width is not the flag '0'. -/
theorem toDigits_head {w : ℕ} (h : w ≠ 0) :
    ∃ c cs, Nat.toDigits 10 w = c :: cs ∧ 49 ≤ c.toNat ∧ c.toNat ≤ 57 := by
  induction w using Nat.strong_induction_on with
  | _ w ih =>
    have hpos := Nat.pos_of_ne_zero h
    by_cases hlt : w < 10
    · refine ⟨w.digitChar, [], Nat.toDigits_of_lt_base hlt, ?_⟩
      interval_cases w <;> decide
    · obtain ⟨c, cs, hdigits, hbounds⟩ := ih (w / 10) (by omega) (by omega)
      refine ⟨c, cs ++ [(w % 10).digitChar], ?_, hbounds⟩
      rw [Nat.toDigits_of_base_le (by omega) (by omega), hdigits]
      rfl

theorem readDigits_eq {cs : List Char} (hdigits : ∀ c ∈ cs, c.isDigit = true) {first : Char}
    (hfirst : first.isDigit = true) {next : UInt8} (hnext : ascii '9' < next)
    (rest : List UInt8) (n : ℕ) :
    readDigits (int32 n) (ascii first) (cs.map ascii ++ next :: rest) =
      some (int32 (Nat.ofDigitChars 10 (first :: cs) n), cs.length) := by
  have hvalue (c : Char) (hc : c.isDigit = true) (n : ℕ) :
      int32 (int32 n * 10 + (ascii c).toNat - code '0') =
        int32 ((10 * n + (c.toNat - '0'.toNat) : ℕ) : ℤ) := by
    obtain ⟨hlow, hhigh⟩ := isDigit_bounds hc
    rw [ascii_toNat (by omega), add_sub_assoc, int32_digit]
    congr 1
    have hzero : '0'.toNat = 48 := rfl
    simp only [code, hzero]
    omega
  induction cs generalizing first n with
  | nil =>
    rw [map_nil, nil_append, readDigits, if_pos (Or.inr hnext), hvalue _ hfirst,
      Nat.ofDigitChars_cons, Nat.ofDigitChars_nil, length_nil]
  | cons c cs ih =>
    have hc := hdigits c mem_cons_self
    have hdigit : ¬(ascii c < ascii '0' ∨ ascii '9' < ascii c) := by
      obtain ⟨hlow, hhigh⟩ := isDigit_bounds hc
      rw [UInt8.lt_iff_toNat_lt, UInt8.lt_iff_toNat_lt, ascii_toNat (c := c) (by omega)]
      have hzero : (ascii '0').toNat = 48 := rfl
      have hnine : (ascii '9').toNat = 57 := rfl
      omega
    rw [map_cons, List.cons_append, readDigits]
    simp only [if_neg hdigit, hvalue _ hfirst]
    rw [ih (fun d hd => hdigits d (mem_cons_of_mem c hd)) hc, Option.map_some,
      length_cons, ← Nat.ofDigitChars_cons]

end Widths

/-! ### The run over a field -/

section Runs

variable {v : Version} {env : Env} {fmt : List UInt8} {σ : Type*} {putch : σ → ℤ → σ}
  {o : Outcome σ} {sp : Spec} {pos ap : ℕ} {sink : σ} {c : UInt8} {rest : List UInt8}

theorem reaches_flag (flag : Flag) (h : (fmt ++ [0]).drop pos = flag.text ++ rest)
    (hpadc : sp.padc = code ' ')
    (hnext : Reaches v env fmt putch
      (.running ⟨.escape { sp with padc := flag.padc }, pos + flag.text.length, ap, sink⟩) o) :
    Reaches v env fmt putch (.running ⟨.escape sp, pos, ap, sink⟩) o := by
  cases flag with
  | none =>
    have hsp : { sp with padc := Flag.none.padc } = sp := by rw [Flag.padc, ← hpadc]
    rw [hsp] at hnext
    exact hnext
  | zero => exact reaches_switch h hnext
  | minus => exact reaches_switch h hnext

theorem reaches_longs (k : ℕ) (h : (fmt ++ [0]).drop pos = List.replicate k (ascii 'l') ++ rest)
    (hlow : 0 ≤ sp.lflag) (hhigh : sp.lflag + k < 2 ^ 31)
    (hnext : Reaches v env fmt putch
      (.running ⟨.escape { sp with lflag := sp.lflag + k }, pos + k, ap, sink⟩) o) :
    Reaches v env fmt putch (.running ⟨.escape sp, pos, ap, sink⟩) o := by
  induction k generalizing sp pos with
  | zero =>
    simp only [Nat.cast_zero, add_zero] at hnext
    exact hnext
  | succ k ih =>
    rw [List.replicate_succ] at h
    refine reaches_switch h ?_
    have hlflag : int32 (sp.lflag + 1) = sp.lflag + 1 := int32_eq_self (by omega) (by omega)
    have hswitch : switch v env fmt putch ⟨.escape sp, pos, ap, sink⟩ sp (ascii 'l') =
        .running ⟨.escape { sp with lflag := sp.lflag + 1 }, pos + 1, ap, sink⟩ := by
      rw [← hlflag]
      rfl
    rw [hswitch]
    have hlow' : 0 ≤ sp.lflag + 1 := by omega
    have hcount : sp.lflag + 1 + (k : ℤ) = sp.lflag + (k + 1 : ℕ) := by omega
    have hhigh' : sp.lflag + 1 + (k : ℤ) < 2 ^ 31 := by rw [hcount]; exact hhigh
    have hrest : (fmt ++ [0]).drop (pos + 1) = List.replicate k (ascii 'l') ++ rest := drop_succ h
    refine ih hrest hlow' hhigh' ?_
    rw [hcount, Nat.add_assoc, Nat.add_comm 1 k]
    exact hnext

/-- The variable width after the width of a field, which is -1 without one. -/
def Width.parsed (env : Env) : Width → ℤ
  | .digits w => if w = 0 then -1 else int32 w
  | .star => (env.arg 0).toInt

theorem process_width (hwidth : sp.width = -1) (hprecision : sp.precision = -1) (n : ℤ) :
    sp.process n = { sp with width := n } := by
  rw [Spec.process, if_pos (by omega), ← hprecision]

theorem key_digit {n : ℕ} (hlow : 49 ≤ n) (hhigh : n ≤ 57) : key n.toUInt8 = .digit := by
  interval_cases n <;> rfl

theorem reaches_width (f : Field) {next : UInt8} (hafter : ascii '9' < next)
    (h : (fmt ++ [0]).drop pos = f.width.text ++ next :: rest) (hwidth : sp.width = -1)
    (hprecision : sp.precision = -1)
    (hnext : Reaches v env fmt putch (.running ⟨.escape { sp with width := f.width.parsed env },
      pos + f.width.text.length, f.skip, sink⟩) o) :
    Reaches v env fmt putch (.running ⟨.escape sp, pos, 0, sink⟩) o := by
  obtain ⟨flag, width, length, conv⟩ := f
  cases width with
  | star =>
    refine reaches_switch h ?_
    have hswitch : switch v env fmt putch ⟨.escape sp, pos, 0, sink⟩ sp (ascii '*') =
        .running ⟨.escape (sp.process (env.arg 0).toInt), pos + 1, 1, sink⟩ := rfl
    rw [hswitch, process_width hwidth hprecision]
    exact hnext
  | digits w =>
    by_cases hzero : w = 0
    · simp only [Width.text, Width.parsed, if_pos hzero, ← hwidth] at hnext
      exact hnext
    · obtain ⟨d, ds, hdigits, hlow, hhigh⟩ := toDigits_head hzero
      have hdigit (c : Char) (hc : c ∈ d :: ds) : c.isDigit = true :=
        Nat.isDigit_of_mem_toDigits (by omega) (by omega) (hdigits ▸ hc)
      have hread : readDigits 0 (ascii d) (ds.map ascii ++ next :: rest) =
          some (int32 w, ds.length) := by
        have := readDigits_eq (fun c hc => hdigit c (mem_cons_of_mem d hc))
          (hdigit d mem_cons_self) hafter rest 0
        rw [← hdigits, Nat.ofDigitChars_ten_toDigits] at this
        exact this
      simp only [Width.text, Width.parsed, if_neg hzero, hdigits, map_cons,
        List.cons_append, length_cons, length_map] at h hnext
      refine reaches_switch h ?_
      simp only [switch, key_digit hlow hhigh, drop_succ h, hread, process_width hwidth hprecision]
      rw [Nat.add_assoc, Nat.add_comm 1 ds.length]
      exact hnext

end Runs

namespace Field

variable (f : Field) (env : Env)

theorem base_bounds : 1 < f.conv.base ∧ f.conv.base ≤ 16 := by
  cases f.conv <;> decide

theorem value_natAbs_lt : (f.value env).natAbs < 2 ^ 64 := by
  obtain ⟨flag, width, length, conv⟩ := f
  have hlong (x : BitVec (32 + 32)) : x.toInt.natAbs < 2 ^ 64 ∧ x.toNat < 2 ^ 64 := by
    have hlt : x.toInt < 2 ^ 63 := toInt_lt
    have hle : -2 ^ 63 ≤ x.toInt := le_toInt x
    exact ⟨by omega, x.isLt⟩
  have hint (x : Word) : x.toInt.natAbs < 2 ^ 64 ∧ x.toNat < 2 ^ 64 := by
    have hlt : x.toInt < 2 ^ 31 := toInt_lt
    have hle : -2 ^ 31 ≤ x.toInt := le_toInt x
    have hnat : x.toNat < 2 ^ 32 := x.isLt
    omega
  cases length with
  | longLong =>
    cases conv with
    | d => exact (hlong _).1
    | u => exact (hlong _).2
    | x => exact (hlong _).2
  | _ =>
    cases conv with
    | d => exact (hint _).1
    | u => exact (hint _).2
    | x => exact (hint _).2

theorem numeral_length : 1 ≤ (f.numeral env).length ∧ (f.numeral env).length ≤ 64 := by
  obtain ⟨hlow, _⟩ := f.base_bounds
  rw [numeral, length_map]
  refine ⟨Nat.length_toDigits_pos, (Nat.length_toDigits_le_iff hlow (by decide)).mpr ?_⟩
  exact Nat.lt_of_lt_of_le (f.value_natAbs_lt env) (Nat.pow_le_pow_left hlow 64)

theorem getint_value {f : Field} (hconv : f.conv = .d) {lflag : ℤ}
    (hlflag : lflag = f.length.count) : (getint env f.skip lflag).1 = f.value env := by
  obtain ⟨flag, width, length, conv⟩ := f
  subst hconv hlflag
  cases length <;> rfl

theorem getuint_value {f : Field} (hconv : f.conv ≠ .d) {lflag : ℤ}
    (hlflag : lflag = f.length.count) : ((getuint env f.skip lflag).1 : ℤ) = f.value env := by
  obtain ⟨flag, width, length, conv⟩ := f
  subst hlflag
  cases conv with
  | d => exact absurd rfl hconv
  | u => cases length <;> rfl
  | x => cases length <;> rfl

/-- A conversion prints the sign and then the number of the argument. -/
theorem switch_conv (v : Version) (fmt : List UInt8) {sp : Spec} (pos : ℕ) (out : List ℤ)
    (hlflag : sp.lflag = f.length.count) :
    ∃ ap, switch v env fmt (fun out c => out ++ [c]) ⟨.escape sp, pos, f.skip, out⟩ sp
        f.conv.letter =
      .running ⟨.text, pos + 1, ap, number (fun out c => out ++ [c]) sp f.conv.base
        (f.value env).natAbs (out ++ f.sign env)⟩ := by
  have hunsigned (hconv : f.conv ≠ .d) :
      (getuint env f.skip sp.lflag).1 = (f.value env).natAbs ∧ out ++ f.sign env = out := by
    have hvalue := getuint_value env hconv hlflag
    have hsign : f.sign env = [] := if_neg (by omega)
    exact ⟨by omega, by rw [hsign, append_nil]⟩
  cases hconv : f.conv with
  | d =>
    refine ⟨(getint env f.skip sp.lflag).2, ?_⟩
    have hsink : out ++ f.sign env =
        if (getint env f.skip sp.lflag).1 < 0 then out ++ [code '-'] else out := by
      rw [sign, ← getint_value env hconv hlflag]
      split
      · rfl
      · rw [append_nil]
    rw [← getint_value env hconv hlflag, hsink]
    rfl
  | u =>
    obtain ⟨hvalue, hsign⟩ := hunsigned (by rw [hconv]; nofun)
    refine ⟨(getuint env f.skip sp.lflag).2, ?_⟩
    rw [← hvalue, hsign]
    rfl
  | x =>
    obtain ⟨hvalue, hsign⟩ := hunsigned (by rw [hconv]; nofun)
    refine ⟨(getuint env f.skip sp.lflag).2, ?_⟩
    rw [← hvalue, hsign]
    rfl

/-- A width that overflows an int wraps, and so does what the digits leave of it. -/
theorem left_of_parsed {n : ℕ} (hlow : 1 ≤ n) (hhigh : n ≤ 64) :
    (int32 (f.width.parsed env - n)).toNat = (int32 (f.wide env - n)).toNat := by
  obtain ⟨flag, width, length, conv⟩ := f
  cases width with
  | star => rfl
  | digits w =>
    simp only [Width.parsed, wide]
    by_cases hzero : w = 0
    · rw [if_pos hzero, hzero, int32_eq_self (by omega) (by omega),
        int32_eq_self (by omega) (by omega)]
      omega
    · rw [if_neg hzero, Int.sub_eq_add_neg, int32_add_left, ← Int.sub_eq_add_neg]

/-- The run over an escape sequence at the end of a format. -/
theorem reaches_format (v : Version) {fmt : List UInt8} {pos : ℕ} (out : List ℤ)
    (h : (fmt ++ [0]).drop pos = f.format ++ [0]) :
    Reaches v env fmt (fun out c => out ++ [c]) (.running ⟨.text, pos, 0, out⟩)
      (.returned (out ++ f.printed env)) := by
  obtain ⟨hlow, hhigh⟩ := f.base_bounds
  have hafter (k : ℕ) : ∃ next rest, ascii '9' < next ∧
      List.replicate k (ascii 'l') ++ [f.conv.letter, 0] = next :: rest := by
    cases k with
    | zero => exact ⟨f.conv.letter, [0], by cases f.conv <;> decide, rfl⟩
    | succ k => exact ⟨ascii 'l', _, by decide, rfl⟩
  obtain ⟨next, rest, hnext, hrest⟩ := hafter f.length.count
  have hformat : (fmt ++ [0]).drop pos =
      ascii '%' :: (f.flag.text ++ (f.width.text ++ next :: rest)) := by
    rw [h, ← hrest, format]
    simp only [List.cons_append, List.append_assoc, nil_append]
  refine reaches_percent hformat ?_
  have hflag := drop_succ hformat
  refine reaches_flag f.flag hflag rfl ?_
  have hwidth := drop_add hflag
  refine reaches_width f hnext hwidth rfl rfl ?_
  have hlongs := drop_add hwidth
  rw [← hrest] at hlongs
  have hcount : (0 : ℤ) + f.length.count < 2 ^ 31 := by cases f.length <;> decide
  refine reaches_longs f.length.count hlongs (le_refl _) hcount ?_
  have hconv := drop_add hlongs
  rw [length_replicate] at hconv
  refine reaches_switch hconv ?_
  let sp : Spec := ⟨f.flag.padc, f.width.parsed env, -1, 0 + f.length.count, false⟩
  have hlflag : sp.lflag = f.length.count := Int.zero_add _
  obtain ⟨ap, hswitch⟩ := f.switch_conv env v fmt
    (pos + 1 + f.flag.text.length + f.width.text.length + f.length.count) out hlflag
  obtain ⟨hpos, hlength⟩ := f.numeral_length env
  rw [printed, ← f.left_of_parsed env hpos hlength, numeral, length_map, ← List.append_assoc,
    ← number_append hlow hhigh sp (f.value_natAbs_lt env)]
  exact hswitch ▸ reaches_end (drop_succ hconv)

theorem text_format (v : Version) : PrintFormat.text v env f.format = f.printed env :=
  text_eq_of_reaches (f.reaches_format env v [] rfl)

variable {f env}

theorem sign_of_nonneg (h : 0 ≤ f.value env) : f.sign env = [] := if_neg (by omega)

theorem sign_of_neg (h : f.value env < 0) : f.sign env = [code '-'] := if_pos h

theorem printed_of_narrow (hwide : 0 ≤ f.wide env)
    (h : f.wide env ≤ (f.numeral env).length) : f.printed env = f.expected env := by
  obtain ⟨_, hhigh⟩ := f.numeral_length env
  have hleft : (int32 (f.wide env - (f.numeral env).length)).toNat = 0 := by
    rw [int32_eq_self (by omega) (by omega)]
    omega
  have hfill : f.fill env = 0 := by
    rw [fill]
    omega
  rw [printed, expected, hleft, hfill]
  cases f.flag <;> simp only [List.replicate_zero, nil_append, append_nil]

theorem printed_of_left (h : 0 ≤ f.value env) (hflag : f.flag ≠ .minus)
    (hlow : ((f.numeral env).length : ℤ) ≤ f.wide env)
    (hhigh : f.wide env < 2 ^ 31 + (f.numeral env).length) : f.printed env = f.expected env := by
  have hleft : (int32 (f.wide env - (f.numeral env).length)).toNat = f.fill env := by
    rw [int32_eq_self (by omega) (by omega), fill, sign_of_nonneg h, length_nil]
    congr 1
    omega
  rw [printed, expected, hleft, sign_of_nonneg h]
  cases hf : f.flag with
  | none => rfl
  | zero => rfl
  | minus => exact absurd hf hflag

/-- The lengths agree only for a number without a sign, of which an int can hold what the
digits leave of the width. -/
theorem length_of_eq (hlow : ((f.numeral env).length : ℤ) < f.wide env)
    (h : f.printed env = f.expected env) :
    0 ≤ f.value env ∧ f.wide env < 2 ^ 31 + (f.numeral env).length := by
  have hlength := congrArg (fun out : List ℤ => (out.length : ℤ)) h
  simp only [length_expected, printed, length_append, length_replicate] at hlength
  have hint := int32_eq_emod (f.wide env - (f.numeral env).length)
  generalize int32 (f.wide env - (f.numeral env).length) = left at hint hlength
  rcases Int.lt_or_le (f.value env) 0 with hneg | hnonneg
  · rw [sign_of_neg hneg, length_singleton] at hlength
    split at hint <;> omega
  · rw [sign_of_nonneg hnonneg, length_nil] at hlength
    refine ⟨hnonneg, ?_⟩
    split at hint <;> omega

theorem numeral_last (f : Field) (env : Env) : ∃ init d, d < 16 ∧ f.numeral env = init ++ [digit d] := by
  obtain ⟨hlow, hhigh⟩ := f.base_bounds
  have hlast : (f.value env).natAbs % f.conv.base < 16 :=
    Nat.lt_of_lt_of_le (Nat.mod_lt _ (by omega)) hhigh
  by_cases hlt : (f.value env).natAbs < f.conv.base
  · refine ⟨[], (f.value env).natAbs % f.conv.base, hlast, ?_⟩
    rw [digit_eq hlast, numeral, Nat.toDigits_of_lt_base hlt, Nat.mod_eq_of_lt hlt]
    rfl
  · refine ⟨(Nat.toDigits f.conv.base ((f.value env).natAbs / f.conv.base)).map code,
      (f.value env).natAbs % f.conv.base, hlast, ?_⟩
    rw [digit_eq hlast, numeral, Nat.toDigits_of_base_le hlow (by omega), map_append]
    rfl

theorem digit_ne_blank {d : ℕ} (h : d < 16) : digit d ≠ code ' ' := by
  interval_cases d <;> decide

/-- With the flag '-' the field ends in the last digit, not in a blank. -/
theorem not_minus_of_eq (hlow : ((f.numeral env).length : ℤ) < f.wide env)
    (h : f.printed env = f.expected env) : f.flag ≠ .minus := by
  intro hflag
  obtain ⟨hnonneg, hhigh⟩ := length_of_eq hlow h
  obtain ⟨init, d, hd, hnumeral⟩ := numeral_last f env
  obtain ⟨n, hfill⟩ : ∃ n, f.fill env = n + 1 := by
    rw [fill, sign_of_nonneg hnonneg, length_nil]
    exact Nat.exists_eq_add_one.mpr (by omega)
  apply digit_ne_blank hd
  have hlast := congrArg getLast? h
  simp only [printed, expected, hflag, hfill, List.replicate_succ'] at hlast
  rw [← List.append_assoc, hnumeral, ← List.append_assoc, getLast?_concat,
    ← List.append_assoc, ← List.append_assoc, getLast?_concat] at hlast
  exact Option.some.inj hlast

end Field

/-- The escape sequence of a number prints the field that its flag and its width mean exactly
when the width is not larger than the digits, or when the number has no sign, the flag is not
'-' and an int can hold what the digits leave of the width. -/
theorem number_field_iff (v : Version) (env : Env) (f : Field) (hwide : 0 ≤ f.wide env) :
    PrintFormat.text v env f.format = f.expected env ↔
      f.wide env ≤ (f.numeral env).length ∨
        0 ≤ f.value env ∧ f.flag ≠ .minus ∧ f.wide env < 2 ^ 31 + (f.numeral env).length := by
  rw [f.text_format env v]
  by_cases hlow : f.wide env ≤ (f.numeral env).length
  · exact iff_of_true (Field.printed_of_narrow hwide hlow) (Or.inl hlow)
  have hlt : ((f.numeral env).length : ℤ) < f.wide env := by omega
  constructor
  · intro h
    obtain ⟨hnonneg, hhigh⟩ := Field.length_of_eq hlt h
    exact Or.inr ⟨hnonneg, Field.not_minus_of_eq hlt h, hhigh⟩
  · intro h
    rcases h with hle | ⟨hnonneg, hflag, hhigh⟩
    · exact absurd hle hlow
    · exact Field.printed_of_left hnonneg hflag (by omega) hhigh

def oneArg (n : Word) : Env := ⟨fun _ => n, fun _ => [], fun _ => 0⟩

/-- The format "%5d" with the argument 42. -/
theorem number_field_forty_two :
    PrintFormat.text .lab3 (oneArg 42) (Field.mk .none (.digits 5) .int .d).format =
      (Field.mk .none (.digits 5) .int .d).expected (oneArg 42) :=
  (number_field_iff .lab3 (oneArg 42) (Field.mk .none (.digits 5) .int .d) (by decide)).mpr
    (by decide)

/-- The format "%-5d" prints "----7" for the argument 7, and not "7    ". -/
theorem minus_flag_pads_left :
    (Field.mk .minus (.digits 5) .int .d).format = bytes "%-5d" ∧
      PrintFormat.text .lab3 (oneArg 7) (bytes "%-5d") =
        [code '-', code '-', code '-', code '-', code '7'] ∧
      (Field.mk .minus (.digits 5) .int .d).expected (oneArg 7) =
        [code '7', code ' ', code ' ', code ' ', code ' '] := by
  have hformat : (Field.mk .minus (.digits 5) .int .d).format = bytes "%-5d" := by decide
  refine ⟨hformat, ?_, by decide⟩
  rw [← hformat, Field.text_format]
  decide

end KernelLabs.NumberFields

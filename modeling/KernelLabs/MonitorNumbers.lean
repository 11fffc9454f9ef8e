import KernelLabs.Monitor
import KernelLabs.NumberReading

/-!
The numbers that the monitor's commands get as text. convert2int goes through all characters
and skips those that are no hexadecimal digit, so it reads what vprintfmt prints with %x, in
either case of its letters and behind "0x".
-/
namespace KernelLabs.MonitorNumbers

open MachineWords Monitor Numerals NumberFields NumberReading List BitVec

def hexValue (c : Char) : Option ℕ :=
  if '0' ≤ c ∧ c ≤ '9' then some (c.toNat - '0'.toNat)
  else if 'a' ≤ c ∧ c ≤ 'f' then some (c.toNat - 'a'.toNat + 10)
  else if 'A' ≤ c ∧ c ≤ 'F' then some (c.toNat - 'A'.toNat + 10)
  else none

def hexDigits (text : List Char) : List ℕ := text.filterMap hexValue

section Digits

variable {c : Char}

theorem hexDigit_eq (n : ℕ) (c : Char) :
    hexDigit (BitVec.ofNat 32 n) c =
      BitVec.ofNat 32 ((hexValue c).elim n fun d => n * 16 + d) := by
  have hacc (d : ℕ) :
      BitVec.ofNat 32 n * 16 + BitVec.ofNat 32 d = BitVec.ofNat 32 (n * 16 + d) := by
    rw [ofNat_add, ofNat_mul]
    rfl
  unfold hexDigit hexValue
  split
  · exact hacc _
  · split
    · exact hacc _
    · split
      · exact hacc _
      · rfl

/-- The accumulator holds the value of the digits so far, modulo 2^32. -/
theorem foldl_hexDigit (text : List Char) (n : ℕ) :
    text.foldl hexDigit (BitVec.ofNat 32 n) =
      BitVec.ofNat 32 ((hexDigits text).foldl (fun n d => n * 16 + d) n) := by
  induction text generalizing n with
  | nil => rfl
  | cons c text ih =>
    rw [foldl_cons, hexDigit_eq, ih, hexDigits, hexDigits]
    cases hvalue : hexValue c with
    | none => rw [filterMap_cons_none hvalue, Option.elim_none]
    | some d => rw [filterMap_cons_some hvalue, Option.elim_some, foldl_cons]

theorem convert2int_eq (text : String) :
    convert2int text = BitVec.ofNat 32 (value 16 (hexDigits text.toList)) :=
  foldl_hexDigit text.toList 0

theorem hexValue_digitChar {d : ℕ} (h : d < 16) : hexValue d.digitChar = some d := by
  interval_cases d <;> rfl

theorem hexValue_toLower (c : Char) : hexValue c.toLower = hexValue c := by
  by_cases hupper : c.val ≥ 'A'.val ∧ c.val ≤ 'Z'.val
  · have hlow : 65 ≤ c.toNat := hupper.1
    have hhigh : c.toNat ≤ 90 := hupper.2
    rw [← Char.ofNat_toNat c]
    interval_cases c.toNat <;> rfl
  · have hsame : c.toLower = c := dif_neg hupper
    rw [hsame]

theorem hexDigits_toLower (text : List Char) :
    hexDigits (text.map Char.toLower) = hexDigits text := by
  rw [hexDigits, filterMap_map, hexDigits]
  congr 1
  funext c
  exact hexValue_toLower c

theorem hexDigits_append (text text' : List Char) :
    hexDigits (text ++ text') = hexDigits text ++ hexDigits text' :=
  filterMap_append

theorem hexDigits_digitChar {ds : List ℕ} (h : ∀ d ∈ ds, d < 16) :
    hexDigits (ds.map Nat.digitChar) = ds := by
  induction ds with
  | nil => rfl
  | cons d ds ih =>
    rw [hexDigits, map_cons, filterMap_cons_some (hexValue_digitChar (h d mem_cons_self))]
    exact congrArg _ (ih fun e he => h e (mem_cons_of_mem d he))

end Digits

def chars (out : List ℤ) : List Char := out.map fun c => Char.ofNat c.toNat

section Printed

variable {env : PrintFormat.Env}

theorem chars_code (text : List Char) : chars (text.map PrintFormat.code) = text := by
  rw [chars, map_map]
  refine (map_congr_left fun c _ => ?_).trans (map_id text)
  exact Char.ofNat_toNat c

/-- The digits that are printed for %x, behind any number of zeros. -/
theorem hexDigits_printed (env : PrintFormat.Env) (pad : Pad) :
    value 16 (hexDigits (chars (PrintFormat.text .lab3 env (field .x pad).format))) =
      (env.arg (field .x pad).skip).toNat := by
  set f := field .x pad
  set n := (env.arg f.skip).toNat
  have hnonneg : ¬f.value env < 0 := Int.not_lt.mpr (Int.natCast_nonneg _)
  obtain ⟨hpos, hlength⟩ := f.numeral_length env
  have hpad := pad.fill_eq_zero env hpos hlength .x
  set k := (int32 (f.wide env - (f.numeral env).length)).toNat
  have hzeros : List.replicate k pad.flag.padc =
      (List.replicate k '0').map PrintFormat.code := by
    rw [map_replicate]
    rcases hpad with hzero | hnone
    · rw [hzero]
    · rw [show k = 0 from hnone, List.replicate_zero, List.replicate_zero]
  obtain ⟨d, ds, hdigits, hbound, hvalue, _⟩ := exists_digits (b := 16) (by decide) n
  have htext : PrintFormat.text .lab3 env f.format =
      (List.replicate k '0' ++ Nat.toDigits 16 n).map PrintFormat.code := by
    rw [f.text_format, NumberFields.Field.printed, NumberFields.Field.sign, if_neg hnonneg,
      nil_append, map_append, ← hzeros]
    rfl
  have hpadding : hexDigits (List.replicate k '0') = List.replicate k 0 :=
    filterMap_replicate_of_some rfl
  rw [htext, chars_code, hdigits, hexDigits_append, hpadding, hexDigits_digitChar hbound,
    value_zeros, hvalue]

end Printed

/-- Monitor addresses read back: the text of %x, with any zero padding, in either case and with
or without "0x" before it, gives the argument. For every text, convert2int is the value modulo
2^32 of the numeral of its hexadecimal digits. -/
theorem monitor_numbers_read_back :
    (∀ (env : PrintFormat.Env) (pad : Pad) (lead : List Char) (text : String),
      lead = [] ∨ lead = ['0', 'x'] →
      text.toList.map Char.toLower =
        lead ++ chars (PrintFormat.text .lab3 env (field .x pad).format) →
      convert2int text = env.arg (field .x pad).skip) ∧
    ∀ text : String, convert2int text =
      BitVec.ofNat 32 (Nat.ofDigits 16 (hexDigits text.toList).reverse) := by
  refine ⟨fun env pad lead text hlead htext => ?_, fun text => ?_⟩
  · have hzero : value 16 (hexDigits text.toList) = (env.arg (field .x pad).skip).toNat := by
      rw [← hexDigits_toLower, htext, hexDigits_append]
      rcases hlead with rfl | rfl
      · exact hexDigits_printed env pad
      · exact (value_zeros 16 1 _).trans (hexDigits_printed env pad)
    rw [convert2int_eq, hzero, ofNat_toNat, setWidth_eq]
  · rw [convert2int_eq, value_eq_ofDigits]

/-- The text "0X00bEEf" for the format "%06x" and the argument 0xbeef. -/
theorem monitor_numbers_beef : convert2int "0X00bEEf" = 0xbeef :=
  monitor_numbers_read_back.1 (oneArg 0xbeef) (.zeros (.digits 6)) ['0', 'x'] "0X00bEEf"
    (Or.inr rfl) (by rw [NumberFields.Field.text_format]; decide)

end KernelLabs.MonitorNumbers

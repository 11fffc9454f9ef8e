import KernelLabs.NumberFields

/-!
The functions sprintputch, vsnprintf and snprintf of JOS (lib/printfmt.c), which print to a
buffer of a bounded size. The memory keeps a list of the addresses that were written. The
strings that vprintfmt reads are values, so they are not in the buffer.
-/
namespace KernelLabs.BoundedPrint

open MachineWords PrintFormat Function List

structure Memory where
  byte : ℕ → UInt8
  written : List ℕ

def Memory.store (mem : Memory) (addr : ℕ) (b : UInt8) : Memory :=
  ⟨update mem.byte addr b, addr :: mem.written⟩

structure Sprintbuf where
  buf : ℕ
  ebuf : ℕ
  cnt : ℤ
  mem : Memory

def toChar (ch : ℤ) : UInt8 := UInt8.ofInt ch

def sprintputch (b : Sprintbuf) (ch : ℤ) : Sprintbuf :=
  let cnt := int32 (b.cnt + 1)
  if b.buf < b.ebuf then ⟨uint32 (b.buf + 1), b.ebuf, cnt, b.mem.store b.buf (toChar ch)⟩
  else { b with cnt := cnt }

abbrev E_INVAL : ℤ := 3

/-- vsnprintf at the address buf, where 0 is NULL: the value that it returns and the memory
after it. There is none when vprintfmt reads outside of the format. -/
def vsnprintf (v : Version) (env : Env) (fmt : List UInt8) (buf : ℕ) (n : ℤ) (mem : Memory) :
    Option (ℤ × Memory) :=
  let b : Sprintbuf := ⟨buf, ((buf + n - 1) % 2 ^ 32).toNat, 0, mem⟩
  if buf = 0 ∨ n < 1 then some (-E_INVAL, mem)
  else
    match vprintfmt v env fmt sprintputch b with
    | .returned b => some (b.cnt, b.mem.store b.buf 0)
    | _ => none

def kept (n : ℕ) (out : List ℤ) : List UInt8 := (out.take (n - 1)).map toChar

/-- The buffer after a text was printed to it, but without the NUL. -/
structure Holds (buf n : ℕ) (mem : Memory) (out : List ℤ) (b : Sprintbuf) : Prop where
  cursor : b.buf = buf + (kept n out).length
  ebuf : b.ebuf = buf + n - 1
  cnt : b.cnt = int32 out.length
  bytes : ∀ i (h : i < (kept n out).length), b.mem.byte (buf + i) = (kept n out)[i]
  outside : ∀ a, a < buf ∨ buf + n ≤ a → b.mem.byte a = mem.byte a
  written : ∀ a ∈ b.mem.written, a ∈ mem.written ∨ buf ≤ a ∧ a < buf + n

section Runs

variable {buf n : ℕ} {mem : Memory} {out : List ℤ} {b : Sprintbuf}

theorem length_kept (n : ℕ) (out : List ℤ) : (kept n out).length = min (n - 1) out.length := by
  rw [kept, length_map, length_take]

theorem kept_append_of_lt {c : ℤ} (h : out.length < n - 1) :
    kept n (out ++ [c]) = kept n out ++ [toChar c] := by
  rw [kept, take_of_length_le (by rw [length_append, length_singleton]; omega),
    kept, take_of_length_le (by omega), map_append]
  rfl

theorem kept_append_of_le {c : ℤ} (h : n - 1 ≤ out.length) : kept n (out ++ [c]) = kept n out := by
  rw [kept, take_append_of_le_length h, kept]

theorem byte_store_self (mem : Memory) (a : ℕ) (c : UInt8) : (mem.store a c).byte a = c :=
  update_self ..

theorem byte_store_of_ne {a a' : ℕ} (h : a' ≠ a) (c : UInt8) :
    (mem.store a c).byte a' = mem.byte a' :=
  update_of_ne h ..

/-- A character is kept while there is room for it and for the NUL. -/
theorem Holds.sprintputch (hsize : buf + n ≤ 2 ^ 32) (hn : 1 ≤ n) (h : Holds buf n mem out b)
    (c : ℤ) : Holds buf n mem (out ++ [c]) (sprintputch b c) := by
  have hcnt : int32 (b.cnt + 1) = int32 (out ++ [c]).length := by
    rw [h.cnt, int32_add_left, length_append, length_singleton]
    rfl
  have hcursor := h.cursor
  have hebuf := h.ebuf
  have hlength := length_kept n out
  rw [BoundedPrint.sprintputch]
  by_cases hroom : b.buf < b.ebuf
  · have hlt : out.length < n - 1 := by omega
    have hnext : uint32 (b.buf + 1) = b.buf + 1 := Nat.mod_eq_of_lt (by omega)
    rw [if_pos hroom]
    constructor
    case cursor =>
      rw [kept_append_of_lt hlt, length_append, length_singleton, ← Nat.add_assoc, ← hcursor]
      exact hnext
    case ebuf => exact hebuf
    case cnt => exact hcnt
    case bytes =>
      intro i hi
      simp only [kept_append_of_lt hlt] at hi ⊢
      rw [length_append, length_singleton] at hi
      rw [hcursor]
      by_cases hlast : i < (kept n out).length
      · rw [byte_store_of_ne (by omega), h.bytes i hlast, getElem_append_left hlast]
      · obtain rfl : i = (kept n out).length := by omega
        rw [byte_store_self, getElem_concat_length rfl]
    case outside =>
      intro a ha
      rw [byte_store_of_ne (by omega)]
      exact h.outside a ha
    case written =>
      intro a ha
      rcases mem_cons.mp ha with rfl | ha
      · exact Or.inr (by omega)
      · exact h.written a ha
  · have hle : n - 1 ≤ out.length := by omega
    rw [if_neg hroom]
    constructor
    case cursor =>
      rw [kept_append_of_le hle]
      exact hcursor
    case ebuf => exact hebuf
    case cnt => exact hcnt
    case bytes =>
      simp only [kept_append_of_le hle]
      exact h.bytes
    case outside => exact h.outside
    case written => exact h.written

theorem Holds.foldl (hsize : buf + n ≤ 2 ^ 32) (hn : 1 ≤ n) (h : Holds buf n mem out b)
    (chars : List ℤ) : Holds buf n mem (out ++ chars) (chars.foldl BoundedPrint.sprintputch b) := by
  induction chars generalizing out b with
  | nil => rw [append_nil]; exact h
  | cons c chars ih =>
    have hnext := ih (h.sprintputch hsize hn c)
    rw [append_assoc, singleton_append] at hnext
    exact hnext

/-- vsnprintf prints the text to the buffer and puts the NUL behind it. -/
theorem exists_vsnprintf (v : Version) (env : Env) (fmt : List UInt8) (mem : Memory)
    (hbuf : buf ≠ 0) (hn : 1 ≤ n) (hsize : buf + n ≤ 2 ^ 32) :
    ∃ b, Holds buf n mem (text v env fmt) b ∧ vsnprintf v env fmt buf n mem =
      some (int32 (text v env fmt).length, b.mem.store b.buf 0) := by
  have hebuf : (((buf : ℤ) + n - 1) % 2 ^ 32).toNat = buf + n - 1 := by omega
  have hstart : Holds buf n mem [] ⟨buf, buf + n - 1, 0, mem⟩ := by
    refine ⟨?_, rfl, rfl, ?_, fun _ _ => rfl, fun _ ha => Or.inl ha⟩
    · simp [kept]
    · simp [kept]
  have hholds := hstart.foldl hsize hn (text v env fmt)
  refine ⟨_, hholds, ?_⟩
  have hvalid : ¬(buf = 0 ∨ (n : ℤ) < 1) := by omega
  simp only [vsnprintf, if_neg hvalid, hebuf, vprintfmt_eq, hholds.cnt]
  rfl

end Runs

/-- What is said of a return value and a memory after a text was printed to a buffer. -/
structure Printed (buf n : ℕ) (mem : Memory) (out : List ℤ) (rc : ℤ) (mem' : Memory) :
    Prop where
  rc : rc = out.length
  bytes : ∀ i (h : i < (kept n out).length), mem'.byte (buf + i) = (kept n out)[i]
  nul : mem'.byte (buf + (kept n out).length) = 0
  outside : ∀ a, a < buf ∨ buf + n ≤ a → mem'.byte a = mem.byte a
  written : ∀ a ∈ mem'.written, a ∈ mem.written ∨ buf ≤ a ∧ a < buf + n

theorem Holds.printed {buf n : ℕ} {mem : Memory} {out : List ℤ} {b : Sprintbuf} (hn : 1 ≤ n)
    (h : Holds buf n mem out b) (hlength : out.length < 2 ^ 31) :
    Printed buf n mem out (int32 out.length) (b.mem.store b.buf 0) := by
  have hkept := length_kept n out
  constructor
  case rc => exact int32_eq_self (by omega) (by omega)
  case bytes =>
    intro i hi
    rw [h.cursor, byte_store_of_ne (by omega), h.bytes i hi]
  case nul => rw [h.cursor, byte_store_self]
  case outside =>
    intro a ha
    rw [h.cursor, byte_store_of_ne (by omega), h.outside a ha]
  case written =>
    intro a ha
    rcases mem_cons.mp ha with rfl | ha
    · rw [h.cursor]
      exact Or.inr (by omega)
    · exact h.written a ha

/-- The buffer of n bytes at buf is written like the bounded print of the text, or the
arguments are refused and nothing is written. -/
def Bounded (v : Version) (env : Env) (fmt : List UInt8) (buf : ℕ) (n : ℤ) (mem : Memory) :
    Prop :=
  ∃ rc mem', vsnprintf v env fmt buf n mem = some (rc, mem') ∧
    if buf = 0 ∨ n < 1 then rc = -E_INVAL ∧ mem' = mem
    else Printed buf n.toNat mem (text v env fmt) rc mem'

/-- vsnprintf is the bounded print exactly when it refuses its arguments or an int can hold
the length of the text. -/
theorem vsnprintf_bounded_iff (v : Version) (env : Env) (fmt : List UInt8) (buf : ℕ) (n : ℤ)
    (mem : Memory) (hsize : 1 ≤ n → buf + n ≤ 2 ^ 32) :
    Bounded v env fmt buf n mem ↔ buf = 0 ∨ n < 1 ∨ (text v env fmt).length < 2 ^ 31 := by
  by_cases hvalid : buf = 0 ∨ n < 1
  · refine iff_of_true ⟨-E_INVAL, mem, ?_, ?_⟩ (by omega)
    · rw [vsnprintf, if_pos hvalid]
    · rw [if_pos hvalid]
      exact ⟨rfl, rfl⟩
  · obtain ⟨m, rfl⟩ : ∃ m : ℕ, n = m := ⟨n.toNat, by omega⟩
    have hn : 1 ≤ m := by omega
    have hend : buf + m ≤ 2 ^ 32 := by omega
    obtain ⟨b, hholds, hprint⟩ := exists_vsnprintf v env fmt mem (by omega) hn hend
    constructor
    · intro h
      obtain ⟨rc, mem', hrun, hspec⟩ := h
      rw [if_neg hvalid] at hspec
      rw [hprint, Option.some.injEq, Prod.mk.injEq] at hrun
      have hrc := hspec.rc
      have := int32_bounds (text v env fmt).length
      omega
    · intro h
      refine ⟨_, _, hprint, ?_⟩
      rw [if_neg hvalid]
      exact hholds.printed (by omega) (by omega)

/-- A buffer of three bytes for the text "hello". -/
theorem vsnprintf_bounded_hello :
    Bounded .lab3 (NumberFields.oneArg 0) (bytes "hello") 4096 3 ⟨fun _ => 255, []⟩ :=
  (vsnprintf_bounded_iff .lab3 (NumberFields.oneArg 0) (bytes "hello") 4096 3 ⟨fun _ => 255, []⟩
    (by decide)).mpr (by decide)

/-- A text of 2 ^ 31 characters: vsnprintf returns a negative number. -/
theorem vsnprintf_returns_negative :
    (text .lab3 (NumberFields.oneArg (-1)) (bytes "%2147483647d")).length = 2 ^ 31 ∧
      ∃ mem, vsnprintf .lab3 (NumberFields.oneArg (-1)) (bytes "%2147483647d") 4096 1
        ⟨fun _ => 255, []⟩ = some (-2147483648, mem) := by
  let f : NumberFields.Field := ⟨.none, .digits 2147483647, .int, .d⟩
  have hformat : f.format = bytes "%2147483647d" := by decide
  have hlength : (text .lab3 (NumberFields.oneArg (-1)) (bytes "%2147483647d")).length =
      2 ^ 31 := by
    have hsign : (f.sign (NumberFields.oneArg (-1))).length = 1 := by decide
    have hnumeral : (f.numeral (NumberFields.oneArg (-1))).length = 1 := by decide
    have hleft : (int32 (f.wide (NumberFields.oneArg (-1)) - 1)).toNat = 2 ^ 31 - 2 := by decide
    rw [← hformat, f.text_format, NumberFields.Field.printed, length_append,
      length_append, length_replicate, hsign, hnumeral, Nat.cast_one, hleft]
    rfl
  refine ⟨hlength, ?_⟩
  obtain ⟨b, _, hprint⟩ := exists_vsnprintf .lab3 (NumberFields.oneArg (-1))
    (bytes "%2147483647d") ⟨fun _ => 255, []⟩ (show 4096 ≠ 0 by decide) (le_refl 1) (by decide)
  rw [hlength] at hprint
  exact ⟨_, hprint⟩

end KernelLabs.BoundedPrint

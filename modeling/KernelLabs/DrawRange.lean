import KernelLabs.Lottery

/-!
The range of the drawn ticket. The date comes from cmostime in lapic.c, whose registers hold
binary or BCD digits and the year of the century. The timestamp is an unsigned sum that is
stored in an int; from January 2038 on it is negative, and C's remainder keeps the sign, so
that the number of the ticket may be zero or negative.
-/
namespace KernelLabs.Lottery

open MachineWords

def conv (x : ℕ) : ℕ := x / 16 * 10 + x % 16

/-- cmostime for the registers that both reads have found; `bcd` is the bit of status
register B. -/
def cmostime (bcd : Bool) (t1 : RtcDate) : RtcDate :=
  let t1 : RtcDate :=
    if bcd then
      ⟨conv t1.second, conv t1.minute, conv t1.hour, conv t1.day, conv t1.month, conv t1.year⟩
    else t1
  { t1 with year := t1.year + 2000 }

/-- The dates of the years 2000 to 2099. -/
structure InRange (r : RtcDate) : Prop where
  second : r.second < 60
  minute : r.minute < 60
  hour : r.hour < 24
  day : 1 ≤ r.day ∧ r.day ≤ 31
  month : 1 ≤ r.month ∧ r.month ≤ 12
  year : 2000 ≤ r.year ∧ r.year ≤ 2099

def timestamp (r : RtcDate) : ℤ :=
  r.second + 60 * r.minute + 3600 * r.hour + 86400 * (r.day - 1) + 2592000 * (r.month - 1) +
    31536000 * (r.year - 1970)

section Remainder

variable {a b : ℤ}

/-- The remainder of a negative number is not positive. -/
theorem tmod_nonpos (h : a ≤ 0) : a.tmod b ≤ 0 := by
  have hneg := Int.tmod_nonneg b (Int.neg_nonneg_of_nonpos h)
  rw [Int.neg_tmod] at hneg
  omega

theorem tmod_nonneg_iff : 0 ≤ a.tmod b ↔ 0 ≤ a ∨ b ∣ a := by
  rw [Int.dvd_iff_tmod_eq_zero]
  constructor
  · intro h
    by_cases ha : 0 ≤ a
    · exact .inl ha
    · have hle := tmod_nonpos (b := b) (show a ≤ 0 by omega)
      exact .inr (by omega)
  · rintro (ha | hzero)
    · exact Int.tmod_nonneg b ha
    · exact Int.le_of_eq hzero.symm

end Remainder

variable {r : RtcDate}

theorem timestamp_bounds (h : InRange r) : 0 ≤ timestamp r ∧ timestamp r < 2 ^ 32 := by
  obtain ⟨_, _, _, ⟨_, _⟩, ⟨_, _⟩, ⟨_, _⟩⟩ := h
  rw [timestamp]
  constructor <;> omega

theorem int32_timestamp (h : InRange r) :
    int32 (timestamp r) = if timestamp r < 2 ^ 31 then timestamp r else timestamp r - 2 ^ 32 := by
  obtain ⟨hlow, hhigh⟩ := timestamp_bounds h
  rw [int32_eq_emod, Int.emod_eq_of_lt hlow hhigh]

theorem rand_eq : rand r = (1593 * (int32 (timestamp r)).tmod 100 + 1042).tmod 4930 := by
  have hlow := Int.lt_tmod_of_pos (int32 (timestamp r)) (show (0 : ℤ) < 100 by decide)
  have hhigh := Int.tmod_lt_of_pos (int32 (timestamp r)) (show (0 : ℤ) < 100 by decide)
  rw [rand, ← timestamp, int32_eq_self (x := 1593 * _ + 1042) (by omega) (by omega)]

/-- From 2038 on both remainders are those of a negative number. -/
theorem rand_of_late (h : InRange r) (hlate : ¬timestamp r < 2 ^ 31)
    (hseed : ¬(100 : ℤ) ∣ 2 ^ 32 - timestamp r) :
    rand r = -((1593 * ((2 ^ 32 - timestamp r) % 100) - 1042) % 4930) := by
  obtain ⟨_, hhigh⟩ := timestamp_bounds h
  have hneg : (timestamp r - 2 ^ 32).tmod 100 = -((2 ^ 32 - timestamp r) % 100) := by
    rw [← Int.neg_sub, Int.neg_tmod, Int.tmod_eq_emod_of_nonneg (by omega)]
  have hsum : 1593 * -((2 ^ 32 - timestamp r) % 100) + 1042 =
      -(1593 * ((2 ^ 32 - timestamp r) % 100) - 1042) := by ring
  rw [rand_eq, int32_timestamp h, if_neg hlate, hneg, hsum, Int.neg_tmod,
    Int.tmod_eq_emod_of_nonneg (by omega)]

/-- rand is negative exactly when the remainder of the timestamp is. -/
theorem rand_nonneg_iff : 0 ≤ rand r ↔ 0 ≤ (int32 (timestamp r)).tmod 100 := by
  have hlow := Int.lt_tmod_of_pos (int32 (timestamp r)) (show (0 : ℤ) < 100 by decide)
  have hhigh := Int.tmod_lt_of_pos (int32 (timestamp r)) (show (0 : ℤ) < 100 by decide)
  rw [rand_eq, tmod_nonneg_iff]
  constructor
  · rintro (h | ⟨k, hk⟩)
    · omega
    · -- no negative remainder gives a multiple of 4930
      omega
  · intro h
    exact .inl (by omega)

/-- The ticket is not above the total, and it is positive when rand does not leave a negative
remainder. -/
theorem chosenTicket_mem_iff {runnable : ℤ} (hpos : 1 ≤ runnable) (hfit : runnable ≤ INT_MAX) :
    (1 ≤ chosenTicket r runnable ∧ chosenTicket r runnable ≤ runnable) ↔
      0 ≤ (rand r).tmod runnable := by
  have hle := chosenTicket_le r (show 0 < runnable by omega) hfit
  have hlow := Int.lt_tmod_of_pos (rand r) (show 0 < runnable by omega)
  have hhigh := Int.tmod_lt_of_pos (rand r) (show 0 < runnable by omega)
  rw [INT_MAX] at hfit
  rw [chosenTicket, int32_eq_self (by omega) (by omega)] at hle ⊢
  omega

/-- The drawn ticket is in range if and only if the timestamp fits an int, or it is a multiple
of 100 as a negative int, or the total divides the number that rand makes of it. -/
theorem drawn_ticket_in_range_iff (bcd : Bool) (t1 : RtcDate) (h : InRange (cmostime bcd t1))
    {runnable : ℤ} (hpos : 1 ≤ runnable) (hfit : runnable ≤ INT_MAX) :
    (1 ≤ chosenTicket (cmostime bcd t1) runnable ∧
        chosenTicket (cmostime bcd t1) runnable ≤ runnable) ↔
      timestamp (cmostime bcd t1) < 2 ^ 31 ∨ 100 ∣ 2 ^ 32 - timestamp (cmostime bcd t1) ∨
        runnable ∣ (1593 * ((2 ^ 32 - timestamp (cmostime bcd t1)) % 100) - 1042) % 4930 := by
  generalize cmostime bcd t1 = r at h ⊢
  obtain ⟨hlow, hhigh⟩ := timestamp_bounds h
  rw [chosenTicket_mem_iff hpos hfit, tmod_nonneg_iff, rand_nonneg_iff, int32_timestamp h,
    tmod_nonneg_iff]
  by_cases hsmall : timestamp r < 2 ^ 31
  · rw [if_pos hsmall]
    exact iff_of_true (.inl (.inl hlow)) (.inl hsmall)
  · have hdvd : (100 : ℤ) ∣ timestamp r - 2 ^ 32 ↔ 100 ∣ 2 ^ 32 - timestamp r := by
      rw [← Int.neg_sub, Int.dvd_neg]
    rw [if_neg hsmall, hdvd, or_iff_right (show ¬0 ≤ timestamp r - 2 ^ 32 by omega),
      or_iff_right hsmall]
    by_cases hseed : (100 : ℤ) ∣ 2 ^ 32 - timestamp r
    · exact iff_of_true (.inl hseed) (.inl hseed)
    · rw [rand_of_late h hsmall hseed, Int.dvd_neg]

/-- The first of January 2040 in BCD, with three tickets: the ticket -1 is drawn. -/
theorem drawn_ticket_negative :
    InRange (cmostime true ⟨0, 0, 0, 0x01, 0x01, 0x40⟩) ∧
      chosenTicket (cmostime true ⟨0, 0, 0, 0x01, 0x01, 0x40⟩) 3 = -1 :=
  ⟨⟨by decide, by decide, by decide, by decide, by decide, by decide⟩, by decide⟩

/-- The same date in the year 2020, where every ticket is in range. -/
theorem drawn_ticket_in_range_2020 :
    InRange (cmostime true ⟨0, 0, 0, 0x01, 0x01, 0x20⟩) ∧
      1 ≤ chosenTicket (cmostime true ⟨0, 0, 0, 0x01, 0x01, 0x20⟩) 3 ∧
      chosenTicket (cmostime true ⟨0, 0, 0, 0x01, 0x01, 0x20⟩) 3 ≤ 3 := by
  have hrange : InRange (cmostime true ⟨0, 0, 0, 0x01, 0x01, 0x20⟩) :=
    ⟨by decide, by decide, by decide, by decide, by decide, by decide⟩
  refine ⟨hrange, ?_⟩
  exact (drawn_ticket_in_range_iff true ⟨0, 0, 0, 0x01, 0x01, 0x20⟩ hrange (by decide)
    (by decide)).mpr (.inl (by decide))

end KernelLabs.Lottery

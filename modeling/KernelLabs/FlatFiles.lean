import Mathlib.Data.List.Basic

/-!
A file as a list of its elements, with reads and writes at an offset. A write begins inside the
file or at its end, so it leaves no gap, and it makes the file longer where it ends behind it.
-/
namespace KernelLabs.FlatFiles

open List

variable {α : Type*}

def write (file : List α) (off : ℕ) (data : List α) : List α :=
  file.take off ++ (data ++ file.drop (off + data.length))

def read (file : List α) (off n : ℕ) : List α := (file.drop off).take n

variable {file data : List α} {off : ℕ}

section

variable (h : off ≤ file.length)

include h

theorem length_write : (write file off data).length = max file.length (off + data.length) := by
  simp only [write, length_append, length_take, length_drop]
  omega

theorem getElem?_write (i : ℕ) :
    (write file off data)[i]? =
      if off ≤ i ∧ i < off + data.length then data[i - off]? else file[i]? := by
  have htake : (file.take off).length = off := by
    rw [length_take]
    omega
  by_cases hlow : i < off
  · rw [write, getElem?_append_left (by omega), getElem?_take_of_lt hlow, if_neg (by omega)]
  rw [write, getElem?_append_right (by omega), htake]
  by_cases hhigh : i < off + data.length
  · rw [getElem?_append_left (by omega), if_pos (by omega)]
  · rw [getElem?_append_right (by omega), getElem?_drop, if_neg (by omega)]
    congr 1
    omega

/-- A file is what was written when its length and its elements are. -/
theorem eq_write {file' : List α}
    (hlength : file'.length = max file.length (off + data.length))
    (hget : ∀ i < file'.length, file'[i]? =
      if off ≤ i ∧ i < off + data.length then data[i - off]? else file[i]?) :
    file' = write file off data := by
  apply ext_getElem?
  intro i
  by_cases hi : i < file'.length
  · rw [hget i hi, getElem?_write h]
  · rw [getElem?_eq_none (by omega), getElem?_eq_none]
    rw [length_write h]
    omega

theorem write_nil : write file off [] = file := by
  refine (eq_write h ?_ fun i _ => ?_).symm
  · rw [length_nil]
    omega
  · rw [if_neg (by rw [length_nil]; omega)]

/-- Two writes one behind the other are one write. -/
theorem write_append (data' : List α) :
    write (write file off data) (off + data.length) data' = write file off (data ++ data') := by
  have hlength : (write file off data).length = max file.length (off + data.length) :=
    length_write h
  have hend : off + data.length ≤ (write file off data).length := by
    rw [hlength]
    exact Nat.le_max_right _ _
  refine eq_write h ?_ fun i hi => ?_
  · rw [length_write hend, hlength, length_append]
    omega
  · rw [getElem?_write hend, getElem?_write h, length_append]
    by_cases hsecond : off + data.length ≤ i ∧ i < off + data.length + data'.length
    · rw [if_pos hsecond, if_pos (by omega), getElem?_append_right (by omega)]
      congr 1
      omega
    · rw [if_neg hsecond]
      by_cases hfirst : off ≤ i ∧ i < off + data.length
      · rw [if_pos hfirst, if_pos (by omega), getElem?_append_left (by omega)]
      · rw [if_neg hfirst, if_neg (by omega)]

end

theorem length_read (file : List α) (off n : ℕ) :
    (read file off n).length = min n (file.length - off) := by
  rw [read, length_take, length_drop]

theorem getElem?_read {n i : ℕ} (hi : i < n) : (read file off n)[i]? = file[off + i]? := by
  rw [read, getElem?_take_of_lt hi, getElem?_drop]

section Records

variable {w : ℕ}

def records (w : ℕ) (file : List α) : List (List α) :=
  (List.range (file.length / w)).map fun j => read file (w * j) w

theorem length_records (w : ℕ) (file : List α) : (records w file).length = file.length / w := by
  rw [records, length_map, length_range]

theorem getElem?_records {j : ℕ} (hj : j < file.length / w) :
    (records w file)[j]? = some (read file (w * j) w) := by
  rw [records, getElem?_map, getElem?_range hj, Option.map_some]

theorem length_record (hw : w ∣ file.length) {j : ℕ} (hj : j < file.length / w) :
    (read file (w * j) w).length = w := by
  obtain ⟨c, hc⟩ := hw
  have hpos : 0 < w := by
    rcases Nat.eq_zero_or_pos w with rfl | hpos
    · rw [Nat.div_zero] at hj
      omega
    · exact hpos
  rw [hc, Nat.mul_div_cancel_left c hpos] at hj
  rw [length_read, hc, ← Nat.mul_sub]
  have : w * 1 ≤ w * (c - j) := Nat.mul_le_mul_left w (by omega)
  omega

/-- A record as large as the others, written over one of them or behind the last one. -/
theorem records_write (hpos : 0 < w) (hw : w ∣ file.length) (hdata : data.length = w) {j : ℕ}
    (hj : j ≤ file.length / w) :
    records w (write file (w * j) data) =
      if j < file.length / w then (records w file).set j data else records w file ++ [data] := by
  obtain ⟨c, hc⟩ := hw
  have hlength : file.length / w = c := by rw [hc, Nat.mul_div_cancel_left c hpos]
  rw [hlength] at hj ⊢
  have hoff : w * j ≤ file.length := by rw [hc]; exact Nat.mul_le_mul_left w hj
  have hcount : (write file (w * j) data).length / w = max c (j + 1) := by
    have hmax : max (w * c) (w * (j + 1)) = w * max c (j + 1) := Nat.mul_max_mul_left ..
    rw [length_write hoff, hdata, hc, ← Nat.mul_succ, hmax, Nat.mul_div_cancel_left _ hpos]
  -- a record is the new one or, at another place, the one of the old file
  have hrecord (i : ℕ) :
      read (write file (w * j) data) (w * i) w = if i = j then data else read file (w * i) w := by
    apply ext_getElem?
    intro p
    by_cases hp : p < w
    · rw [getElem?_read hp, getElem?_write hoff, hdata]
      by_cases hi : i = j
      · rw [if_pos hi, hi, if_pos (by omega), Nat.add_sub_cancel_left]
      · rw [if_neg hi, getElem?_read hp, if_neg]
        rcases Nat.lt_or_gt_of_ne hi with hlt | hgt
        · have := Nat.mul_le_mul_left w hlt
          rw [Nat.mul_succ] at this
          omega
        · have := Nat.mul_le_mul_left w hgt
          rw [Nat.mul_succ] at this
          omega
    · have hnone (l : List α) (hl : l.length ≤ w) : l[p]? = none :=
        getElem?_eq_none (by omega)
      have hread (f : List α) (off : ℕ) : (read f off w).length ≤ w := by
        rw [length_read]
        omega
      rw [hnone _ (hread _ _), hnone]
      split
      · omega
      · exact hread _ _
  apply ext_getElem?
  intro i
  by_cases hi : i < max c (j + 1)
  · rw [getElem?_records (by rw [hcount]; exact hi), hrecord]
    by_cases hover : j < c
    · rw [if_pos hover, getElem?_set, length_records, hlength]
      by_cases heq : i = j
      · rw [if_pos heq, if_pos heq.symm, if_pos (by omega)]
      · rw [if_neg heq, if_neg (Ne.symm heq), getElem?_records (by omega)]
    · have hcj : (records w file).length = j := by
        rw [length_records, hlength]
        omega
      rw [if_neg hover]
      by_cases heq : i = j
      · rw [if_pos heq, heq, ← hcj, getElem?_concat_length]
      · rw [if_neg heq, getElem?_append_left (by omega), getElem?_records (by omega)]
  · rw [getElem?_eq_none (by rw [length_records, hcount]; omega), getElem?_eq_none]
    split
    · rw [length_set, length_records, hlength]
      omega
    · rw [length_append, length_records, hlength, length_singleton]
      omega

end Records

end KernelLabs.FlatFiles

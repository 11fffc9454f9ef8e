import Mathlib.Algebra.NeZero
import Mathlib.Data.Nat.ModEq
import Mathlib.Logic.Function.Basic

/-!
A ring of slots addressed by two free-running counters of a fixed width. A
counter is never reduced to a slot number when it is stored, only when the ring is
read or written, and it wraps at the width. The ring's size divides the number of
counter values, so the wrap is not seen in the slots: what is buffered is a list,
and the operations at the two ends are those of a queue.
-/
namespace KernelLabs.RingBuffer

open Function List Option

variable {size w : ℕ} {α : Type*}

/-- The slot that a counter addresses. -/
def slot (size : ℕ) [NeZero size] (n : BitVec w) : Fin size :=
  ⟨n.toNat % size, Nat.mod_lt _ (Nat.pos_of_neZero size)⟩

/-- The ring holds the list: its elements stand in the slots from the read counter
on, and the write counter is behind the last of them. -/
structure Holds [NeZero size] (data : Fin size → α) (nread nwrite : BitVec w)
    (buffered : List α) : Prop where
  fits : buffered.length ≤ size
  behind : nwrite = nread + BitVec.ofNat w buffered.length
  stored : ∀ i b, buffered[i]? = some b → data (slot size (nread + BitVec.ofNat w i)) = b

/-- The elements in the slots from one counter up to another. -/
def between [NeZero size] (data : Fin size → α) (first last : BitVec w) : List α :=
  (List.range (last - first).toNat).map fun i => data (slot size (first + BitVec.ofNat w i))

section Counters

variable [NeZero size]

theorem slot_add (hdvd : size ∣ 2 ^ w) (n : BitVec w) (i : ℕ) :
    (slot size (n + BitVec.ofNat w i)).val = (n.toNat + i) % size := by
  simp only [slot, BitVec.toNat_add, BitVec.toNat_ofNat, Nat.add_mod_mod]
  exact Nat.mod_mod_of_dvd _ hdvd

/-- Distances below the size lead to different slots. -/
theorem slot_add_ne (hdvd : size ∣ 2 ^ w) (n : BitVec w) {i j : ℕ} (hij : i < j) (hj : j < size) :
    slot size (n + BitVec.ofNat w i) ≠ slot size (n + BitVec.ofNat w j) := by
  intro heq
  have hval := congrArg Fin.val heq
  rw [slot_add hdvd, slot_add hdvd] at hval
  have hsame : Nat.ModEq size i j := Nat.ModEq.add_left_cancel' n.toNat hval
  have hi := Nat.mod_eq_of_lt (lt_trans hij hj)
  have hj' := Nat.mod_eq_of_lt hj
  unfold Nat.ModEq at hsame
  omega

/-- Distances that the width can tell apart lead to different counter values. -/
theorem add_ofNat_inj (n : BitVec w) {i j : ℕ} (hi : i < 2 ^ w) (hj : j < 2 ^ w) :
    n + BitVec.ofNat w i = n + BitVec.ofNat w j ↔ i = j := by
  constructor
  · intro heq
    have hval := congrArg BitVec.toNat (BitVec.add_right_inj _ |>.mp heq)
    rwa [BitVec.toNat_ofNat, BitVec.toNat_ofNat, Nat.mod_eq_of_lt hi, Nat.mod_eq_of_lt hj]
      at hval
  · rintro rfl
    rfl

end Counters

namespace Holds

variable [NeZero size] {data : Fin size → α} {nread nwrite : BitVec w} {buffered : List α}

/-- The difference of the counters is the number of buffered elements. -/
theorem sub_eq (h : Holds data nread nwrite buffered) (hsize : size < 2 ^ w) :
    (nwrite - nread).toNat = buffered.length := by
  have hlt : buffered.length < 2 ^ w := lt_of_le_of_lt h.fits hsize
  rw [h.behind, BitVec.add_comm, BitVec.add_sub_cancel, BitVec.toNat_ofNat, Nat.mod_eq_of_lt hlt]

/-- The test for a full ring, an equality of wrapped counters. -/
theorem full_iff (h : Holds data nread nwrite buffered) (hsize : size < 2 ^ w) :
    nwrite = nread + BitVec.ofNat w size ↔ buffered.length = size := by
  rw [h.behind]
  exact add_ofNat_inj nread (lt_of_le_of_lt h.fits hsize) hsize

/-- The test for an empty ring, an equality of wrapped counters. -/
theorem empty_iff (h : Holds data nread nwrite buffered) (hsize : size < 2 ^ w) :
    nread = nwrite ↔ buffered = [] := by
  have hzero : nread = nread + BitVec.ofNat w 0 := by simp
  rw [h.behind, ← length_eq_zero_iff, eq_comm (a := buffered.length)]
  nth_rewrite 1 [hzero]
  exact add_ofNat_inj nread (Nat.two_pow_pos w) (lt_of_le_of_lt h.fits hsize)

/-- An empty ring, whatever its slots hold and wherever its counters stand. -/
theorem nil (data : Fin size → α) (n : BitVec w) : Holds data n n [] where
  fits := Nat.zero_le _
  behind := by simp
  stored := by simp

/-- Writing behind the last element appends, while the ring is not full. -/
theorem push (h : Holds data nread nwrite buffered) (hdvd : size ∣ 2 ^ w)
    (hroom : buffered.length < size) (b : α) :
    Holds (update data (slot size nwrite) b) nread (nwrite + 1) (buffered ++ [b]) where
  fits := by
    rw [length_append, length_singleton]
    exact hroom
  behind := by
    rw [h.behind, length_append, length_singleton, BitVec.ofNat_add, BitVec.add_assoc]
    rfl
  stored := by
    intro i c hc
    rcases lt_trichotomy i buffered.length with hlt | rfl | hgt
    · -- an element that was there before stands in another slot
      rw [getElem?_append_left hlt] at hc
      have hne : slot size (nread + BitVec.ofNat w i) ≠ slot size nwrite := by
        rw [h.behind]
        exact slot_add_ne hdvd nread hlt hroom
      rw [update_of_ne hne]
      exact h.stored i c hc
    · rw [getElem?_concat_length, some.injEq] at hc
      rw [← h.behind, update_self, hc]
    · have hend : (buffered ++ [b]).length ≤ i := by
        rw [length_append, length_singleton]
        exact hgt
      rw [getElem?_eq_none hend] at hc
      exact absurd hc (by simp)

/-- Reading at the read counter takes the first element. -/
theorem pop {b : α} {rest : List α} (h : Holds data nread nwrite (b :: rest)) :
    data (slot size nread) = b ∧ Holds data (nread + 1) nwrite rest := by
  have hshift : ∀ i, nread + 1 + BitVec.ofNat w i = nread + BitVec.ofNat w (i + 1) := by
    intro i
    rw [Nat.add_comm i 1, BitVec.ofNat_add, BitVec.add_assoc]
    rfl
  refine ⟨by simpa using h.stored 0 b rfl, ?_, ?_, ?_⟩
  · have := h.fits
    rw [length_cons] at this
    omega
  · rw [hshift]
    exact h.behind
  · intro i c hc
    rw [hshift]
    exact h.stored (i + 1) c (by simpa using hc)

/-- Taking the last element back. -/
theorem unpush {b : α} (h : Holds data nread nwrite (buffered ++ [b])) :
    Holds data nread (nwrite - 1) buffered where
  fits := by
    have := h.fits
    rw [length_append] at this
    omega
  behind := by
    rw [h.behind, length_append, length_singleton, BitVec.ofNat_add, ← BitVec.add_assoc]
    exact BitVec.add_sub_cancel _ _
  stored := by
    intro i c hc
    obtain ⟨hlt, _⟩ := List.getElem?_eq_some_iff.mp hc
    apply h.stored i c
    rw [getElem?_append_left hlt, hc]

/-- A stretch of the buffered elements, read between its counters. -/
theorem between_eq {front middle rest : List α}
    (h : Holds data nread nwrite (front ++ middle ++ rest)) (hsize : size < 2 ^ w)
    {first last : BitVec w} (hfirst : first = nread + BitVec.ofNat w front.length)
    (hlast : last = nread + BitVec.ofNat w (front ++ middle).length) :
    between data first last = middle := by
  have hfits := h.fits
  rw [length_append, length_append] at hfits
  have hcount : (last - first).toNat = middle.length := by
    have hadd : last = first + BitVec.ofNat w middle.length := by
      rw [hlast, hfirst, length_append, BitVec.ofNat_add, BitVec.add_assoc]
    rw [hadd, BitVec.add_comm, BitVec.add_sub_cancel, BitVec.toNat_ofNat,
      Nat.mod_eq_of_lt (by omega)]
  apply ext_getElem?
  intro i
  rw [between, hcount, getElem?_map]
  by_cases hi : i < middle.length
  · rw [getElem?_range hi, map_some, getElem?_eq_getElem hi, some.injEq,
      hfirst, BitVec.add_assoc, ← BitVec.ofNat_add]
    apply h.stored
    rw [append_assoc, getElem?_append_right (by omega), Nat.add_sub_cancel_left,
      getElem?_append_left hi, getElem?_eq_getElem hi]
  · rw [getElem?_eq_none (by simpa using hi), getElem?_eq_none (by omega)]
    rfl

end Holds

end KernelLabs.RingBuffer

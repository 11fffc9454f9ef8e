import Mathlib.Data.BitVec
import Mathlib.Tactic.Ring

/-!
The function memmove of JOS (lib/string.c), in the version with the string instructions and in
the plain one. A copy goes upwards or downwards, in words or in bytes. Whatever the direction
and the step are, the bytes that a step reads have not been overwritten, since the direction is
chosen from the overlap of the two ranges.
-/
namespace KernelLabs.MemMove

open Function BitVec

abbrev Word := BitVec 32

abbrev Mem := Word → UInt8

/-! ### The model -/

def movs (size : ℕ) (edi esi : Word) (mem : Mem) : Mem := fun a =>
  if (a - edi).toNat < size then mem (esi + (a - edi)) else mem a

/-- The instruction rep, where `step` is the size or, after std, its negative. -/
def rep (size : ℕ) (step : Word) : ℕ → Word → Word → Mem → Mem
  | 0, _, _, mem => mem
  | ecx + 1, edi, esi, mem => rep size step ecx (edi + step) (esi + step) (movs size edi esi mem)

def aligned (s d n : Word) : Prop :=
  s.toInt.tmod 4 = 0 ∧ d.toInt.tmod 4 = 0 ∧ n.toNat % 4 = 0

instance (s d n : Word) : Decidable (aligned s d n) := inferInstanceAs (Decidable (_ ∧ _ ∧ _))

/-- memmove with string instructions: the pointer that it returns and the memory after it. -/
def memmove (dst src n : Word) (mem : Mem) : Word × Mem :=
  let s := src
  let d := dst
  if s < d ∧ s + n > d then
    let s := s + n
    let d := d + n
    if aligned s d n then (dst, rep 4 (-4) (n.toNat / 4) (d - 4) (s - 4) mem)
    else (dst, rep 1 (-1) n.toNat (d - 1) (s - 1) mem)
  else
    if aligned s d n then (dst, rep 4 4 (n.toNat / 4) d s mem)
    else (dst, rep 1 1 n.toNat d s mem)

def copyDown : ℕ → Word → Word → Mem → Mem
  | 0, _, _, mem => mem
  | n + 1, d, s, mem =>
    let d := d - 1
    let s := s - 1
    copyDown n d s (update mem d (mem s))

def copyUp : ℕ → Word → Word → Mem → Mem
  | 0, _, _, mem => mem
  | n + 1, d, s, mem => copyUp n (d + 1) (s + 1) (update mem d (mem s))

def memmovePlain (dst src n : Word) (mem : Mem) : Word × Mem :=
  let s := src
  let d := dst
  if s < d ∧ s + n > d then (dst, copyDown n.toNat (d + n) (s + n) mem)
  else (dst, copyUp n.toNat d s mem)

/-! ### Partial copies -/

/-- The bytes with offsets in [lo, hi) have been copied from what they were, and no others have
changed. -/
def Copied (mem mem' : Mem) (dst src : Word) (lo hi : ℕ) : Prop :=
  ∀ a, mem' a = if lo ≤ (a - dst).toNat ∧ (a - dst).toNat < hi then mem (src + (a - dst)) else mem a

section Copies

variable {mem mem' : Mem} {dst src n : Word} {lo hi k size : ℕ}

theorem copied_refl (mem : Mem) (dst src : Word) (k : ℕ) : Copied mem mem dst src k k := by
  intro a
  rw [if_neg (by omega)]

/-- The place of an address in a chunk of the copy. -/
theorem chunk_offset (a dst : Word) (hk : k + size ≤ 2 ^ 32) (hlt : k < 2 ^ 32) :
    (a - (dst + BitVec.ofNat 32 k)).toNat < size ↔
      k ≤ (a - dst).toNat ∧ (a - dst).toNat < k + size := by
  bv_omega

theorem chunk_source (a k : Word) : src + k + (a - (dst + k)) = src + (a - dst) := by
  ring

/-- A step over the chunk at `k`, from a memory in which no byte that it reads has changed,
joins the chunk to what has been copied. -/
theorem Copied.movs {lo' hi' : ℕ} (h : Copied mem mem' dst src lo hi) (hk : k + size ≤ 2 ^ 32)
    (hlt : k < 2 ^ 32)
    (hread : ∀ o, k ≤ o → o < k + size → ¬(lo ≤ (src + BitVec.ofNat 32 o - dst).toNat ∧
      (src + BitVec.ofNat 32 o - dst).toNat < hi))
    (hjoin : ∀ o, lo' ≤ o ∧ o < hi' ↔ (k ≤ o ∧ o < k + size) ∨ (lo ≤ o ∧ o < hi)) :
    Copied mem (movs size (dst + BitVec.ofNat 32 k) (src + BitVec.ofNat 32 k) mem')
      dst src lo' hi' := by
  intro a
  simp only [hjoin, MemMove.movs]
  by_cases hchunk : k ≤ (a - dst).toNat ∧ (a - dst).toNat < k + size
  · have hsource := hread _ hchunk.1 hchunk.2
    rw [ofNat_toNat, setWidth_eq] at hsource
    rw [if_pos ((chunk_offset a dst hk hlt).mpr hchunk), if_pos (.inl hchunk), chunk_source, h,
      if_neg hsource]
  · rw [if_neg (fun hin => hchunk ((chunk_offset a dst hk hlt).mp hin)), h]
    simp only [hchunk, false_or]

/-- The place of a byte of the source among those of the destination. -/
theorem source_offset (dst : Word) {o : ℕ} (h : src.toNat + o < 2 ^ 32) :
    (dst.toNat ≤ src.toNat + o ∧
      (src + BitVec.ofNat 32 o - dst).toNat = src.toNat + o - dst.toNat) ∨
    (src.toNat + o < dst.toNat ∧
      (src + BitVec.ofNat 32 o - dst).toNat = 2 ^ 32 + src.toNat + o - dst.toNat) := by
  bv_omega

/-- The two ranges do not leave the address space. -/
structure Ranges (dst src n : Word) : Prop where
  dst_le : dst.toNat + n.toNat ≤ 2 ^ 32
  src_le : src.toNat + n.toNat ≤ 2 ^ 32

/-- Upwards, the bytes that are read are not behind those that were written. -/
theorem Copied.up (h : Copied mem mem' dst src 0 k) (hranges : Ranges dst src n)
    (hk : k + size ≤ n.toNat) (hpos : 0 < size)
    (hup : ¬(src.toNat < dst.toNat ∧ dst.toNat < src.toNat + n.toNat)) :
    Copied mem (MemMove.movs size (dst + BitVec.ofNat 32 k) (src + BitVec.ofNat 32 k) mem')
      dst src 0 (k + size) := by
  obtain ⟨hdst, hsrc⟩ := hranges
  have hn := n.isLt
  refine h.movs (by omega) (by omega) (fun o ho hosize => ?_) fun o => by omega
  have ho32 : src.toNat + o < 2 ^ 32 := by omega
  rcases source_offset dst ho32 with hcase | hcase <;> omega

/-- Downwards, they are not before them. -/
theorem Copied.down (h : Copied mem mem' dst src (k + size) n.toNat) (hranges : Ranges dst src n)
    (hk : k + size ≤ n.toNat) (hpos : 0 < size) (hdown : src.toNat < dst.toNat) :
    Copied mem (MemMove.movs size (dst + BitVec.ofNat 32 k) (src + BitVec.ofNat 32 k) mem')
      dst src k n.toNat := by
  obtain ⟨hdst, hsrc⟩ := hranges
  have hn := n.isLt
  refine h.movs (by omega) (by omega) (fun o ho hosize => ?_) fun o => by omega
  have ho32 : src.toNat + o < 2 ^ 32 := by omega
  rcases source_offset dst ho32 with hcase | hcase <;> omega

/-! ### Whole copies -/

/-- rep upwards, from the chunk at `k` to the end. -/
theorem Copied.rep_up (h : Copied mem mem' dst src 0 k) (hranges : Ranges dst src n)
    (hpos : 0 < size) (hup : ¬(src.toNat < dst.toNat ∧ dst.toNat < src.toNat + n.toNat)) {c : ℕ}
    (hc : k + size * c = n.toNat) :
    Copied mem (rep size (BitVec.ofNat 32 size) c (dst + BitVec.ofNat 32 k)
      (src + BitVec.ofNat 32 k) mem') dst src 0 n.toNat := by
  induction c generalizing k mem' with
  | zero =>
    rw [rep, ← hc, Nat.mul_zero, Nat.add_zero]
    exact h
  | succ c ih =>
    rw [Nat.mul_succ] at hc
    have hnext := ih (h.up hranges (by omega) hpos hup) (by omega)
    rw [rep, BitVec.add_assoc dst, BitVec.add_assoc src, ← ofNat_add]
    exact hnext

/-- rep downwards, from the chunk that ends at `size * c` to the beginning. -/
theorem Copied.rep_down {c : ℕ} (h : Copied mem mem' dst src (size * c) n.toNat)
    (hranges : Ranges dst src n) (hpos : 0 < size) (hdown : src.toNat < dst.toNat)
    (hc : size * c ≤ n.toNat) :
    Copied mem (rep size (-BitVec.ofNat 32 size) c
      (dst + BitVec.ofNat 32 (size * c) - BitVec.ofNat 32 size)
      (src + BitVec.ofNat 32 (size * c) - BitVec.ofNat 32 size) mem') dst src 0 n.toNat := by
  induction c generalizing mem' with
  | zero => exact h
  | succ c ih =>
    have hlast (p : Word) : p + BitVec.ofNat 32 (size * (c + 1)) - BitVec.ofNat 32 size =
        p + BitVec.ofNat 32 (size * c) := by
      rw [Nat.mul_succ, ofNat_add]
      ring
    rw [Nat.mul_succ] at h hc
    have hnext := ih (h.down hranges hc hpos hdown) (by omega)
    rw [rep, hlast, hlast, ← BitVec.sub_eq_add_neg, ← BitVec.sub_eq_add_neg]
    exact hnext

theorem update_eq_movs (d s : Word) (mem : Mem) : update mem d (mem s) = movs 1 d s mem := by
  funext a
  unfold movs
  by_cases ha : a = d
  · rw [ha, update_self, BitVec.sub_self, if_pos (by decide)]
    exact congrArg mem (BitVec.add_zero s).symm
  · have hne : ¬(a - d).toNat < 1 := by bv_omega
    rw [update_of_ne ha, if_neg hne]

theorem copyUp_eq (c : ℕ) (d s : Word) (mem : Mem) : copyUp c d s mem = rep 1 1 c d s mem := by
  induction c generalizing d s mem with
  | zero => rfl
  | succ c ih => rw [copyUp, rep, ih, update_eq_movs]

theorem copyDown_eq (c : ℕ) (d s : Word) (mem : Mem) :
    copyDown c d s mem = rep 1 (-1) c (d - 1) (s - 1) mem := by
  induction c generalizing d s mem with
  | zero => rfl
  | succ c ih =>
    rw [copyDown, rep, ih, update_eq_movs, ← BitVec.sub_eq_add_neg, ← BitVec.sub_eq_add_neg]

/-- The test of the overlap, in which the end of the source does not wrap. -/
theorem overlap_iff (hranges : Ranges dst src n) :
    (src < dst ∧ src + n > dst) ↔
      src.toNat < dst.toNat ∧ dst.toNat < src.toNat + n.toNat := by
  obtain ⟨hdst, hsrc⟩ := hranges
  bv_omega

/-- A copy by rep, in the direction that the overlap asks for. -/
theorem copied_up (hranges : Ranges dst src n) (hpos : 0 < size)
    (hup : ¬(src < dst ∧ src + n > dst)) {c : ℕ} (hc : size * c = n.toNat) (mem : Mem) :
    Copied mem (rep size (BitVec.ofNat 32 size) c dst src mem) dst src 0 n.toNat := by
  rw [overlap_iff hranges] at hup
  have h := (copied_refl mem dst src 0).rep_up hranges hpos hup (c := c) (by omega)
  rw [BitVec.add_zero, BitVec.add_zero] at h
  exact h

theorem copied_down (hranges : Ranges dst src n) (hpos : 0 < size)
    (hdown : src < dst ∧ src + n > dst) {c : ℕ} (hc : size * c = n.toNat) (mem : Mem) :
    Copied mem (rep size (-BitVec.ofNat 32 size) c (dst + n - BitVec.ofNat 32 size)
      (src + n - BitVec.ofNat 32 size) mem) dst src 0 n.toNat := by
  rw [overlap_iff hranges] at hdown
  have hstart : Copied mem mem dst src (size * c) n.toNat := by
    rw [hc]
    exact copied_refl mem dst src n.toNat
  have h := hstart.rep_down hranges hpos hdown.1 hc.le
  rw [hc, ofNat_toNat, setWidth_eq] at h
  exact h

theorem words_of_aligned (h : aligned src dst n) : 4 * (n.toNat / 4) = n.toNat := by
  have := h.2.2
  omega

/-- Every path of memmove copies what the source held before. -/
theorem memmove_eq (hranges : Ranges dst src n) (mem : Mem) :
    ∃ mem', memmove dst src n mem = (dst, mem') ∧ Copied mem mem' dst src 0 n.toNat := by
  unfold memmove
  dsimp only
  split
  · rename_i hover
    split
    · rename_i hal
      exact ⟨_, rfl, copied_down hranges (by decide) hover (words_of_aligned hal) mem⟩
    · exact ⟨_, rfl, copied_down hranges (by decide) hover (Nat.one_mul _) mem⟩
  · rename_i hover
    split
    · rename_i hal
      exact ⟨_, rfl, copied_up hranges (by decide) hover (words_of_aligned hal) mem⟩
    · exact ⟨_, rfl, copied_up hranges (by decide) hover (Nat.one_mul _) mem⟩

end Copies

/-- The destination holds the bytes that the source held, every other byte is unchanged, and
the destination is returned. -/
structure Snapshot (mem : Mem) (dst src n : Word) (result : Word × Mem) : Prop where
  returned : result.1 = dst
  copied : ∀ i < n.toNat, result.2 (dst + BitVec.ofNat 32 i) = mem (src + BitVec.ofNat 32 i)
  other : ∀ a, (∀ i < n.toNat, a ≠ dst + BitVec.ofNat 32 i) → result.2 a = mem a

theorem Copied.snapshot {mem mem' : Mem} {dst src n : Word}
    (h : Copied mem mem' dst src 0 n.toNat) : Snapshot mem dst src n (dst, mem') := by
  refine ⟨rfl, fun i hi => ?_, fun a ha => ?_⟩
  · have hn := n.isLt
    have hback : dst + BitVec.ofNat 32 i - dst = BitVec.ofNat 32 i := by ring
    have hoff : (BitVec.ofNat 32 i).toNat = i := by
      rw [toNat_ofNat]
      omega
    have hget := h (dst + BitVec.ofNat 32 i)
    rw [hback, hoff, if_pos (by omega)] at hget
    exact hget
  · have hout : ¬(a - dst).toNat < n.toNat := by
      intro hlt
      apply ha _ hlt
      rw [ofNat_toNat, setWidth_eq]
      ring
    have hget := h a
    rw [if_neg (fun hin => hout hin.2)] at hget
    exact hget

/-- memmove is a snapshot copy, in each of the paths of both versions and for every overlap of
the two ranges. -/
theorem memmove_snapshot (mem : Mem) {dst src n : Word} (h : Ranges dst src n) :
    Snapshot mem dst src n (memmove dst src n mem) ∧
      Snapshot mem dst src n (memmovePlain dst src n mem) := by
  obtain ⟨mem', heq, hcopied⟩ := memmove_eq h mem
  refine ⟨heq ▸ hcopied.snapshot, ?_⟩
  unfold memmovePlain
  dsimp only
  split
  · rename_i hover
    rw [copyDown_eq]
    exact (copied_down h (by decide) hover (Nat.one_mul _) mem).snapshot
  · rename_i hover
    rw [copyUp_eq]
    exact (copied_up h (by decide) hover (Nat.one_mul _) mem).snapshot

/-- Eight bytes that are moved up by four, through the words downwards. -/
theorem memmove_snapshot_eight :
    Snapshot (fun a => (a.toNat % 256).toUInt8) 0x104 0x100 8
      (memmove 0x104 0x100 8 fun a => (a.toNat % 256).toUInt8) :=
  (memmove_snapshot _ ⟨by decide, by decide⟩).1

end KernelLabs.MemMove

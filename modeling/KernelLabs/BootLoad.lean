import Mathlib.Data.BitVec
import Mathlib.Data.List.Basic

/-!
The boot loader of JOS (boot/main.c). bootmain reads the first page of the kernel image to
0x10000, and then the segments that the program headers in this page describe, each of them in
whole sectors. It reads the headers in memory one by one, so a segment that is loaded over them
would be taken for headers. A loop that does not end within a number of turns gives no memory.
Beside the memory, the loop over the headers gives the arguments of its calls of readseg.
-/
namespace KernelLabs.BootLoad

open List BitVec Option

abbrev Word := BitVec 32

abbrev Mem := Word → UInt8

/-- The bytes of the disk, of which the image begins at sector 1. -/
abbrev Disk := ℕ → UInt8

abbrev SECTSIZE : ℕ := 512

def image (disk : Disk) (k : ℕ) : UInt8 := disk (SECTSIZE + k)

abbrev ELFHDR : Word := 0x10000

abbrev ELF_MAGIC : Word := 0x464C457F

abbrev ELF_PROG_LOAD : Word := 1

/-! ### The model -/

def read16 (f : ℕ → UInt8) : Word := BitVec.ofNat 32 ((f 0).toNat + 256 * (f 1).toNat)

def read32 (f : ℕ → UInt8) : Word :=
  BitVec.ofNat 32 ((f 0).toNat + 256 * ((f 1).toNat + 256 * ((f 2).toNat + 256 * (f 3).toNat)))

/-- The fields of a struct Proghdr that the loader uses, and the type that it ignores. -/
structure Proghdr where
  type : Word
  offset : Word
  pa : Word
  memsz : Word
deriving DecidableEq

def proghdr (f : ℕ → UInt8) : Proghdr :=
  ⟨read32 f, read32 fun i => f (4 + i), read32 fun i => f (12 + i), read32 fun i => f (20 + i)⟩

def bytesAt (mem : Mem) (a : Word) : ℕ → UInt8 := fun i => mem (a + BitVec.ofNat 32 i)

def readsect (disk : Disk) (dst sector : Word) (mem : Mem) : Mem := fun a =>
  if (a - dst).toNat < SECTSIZE then
    disk (SECTSIZE * (sector.toNat % 2 ^ 28) + (a - dst).toNat)
  else mem a

def readsegLoop (disk : Disk) (endPa : Word) : ℕ → Word → Word → Mem → Option Mem
  | 0, _, _, _ => none
  | n + 1, pa, sector, mem =>
    if pa < endPa then readsegLoop disk endPa n (pa + 512) (sector + 1) (readsect disk pa sector mem)
    else some mem

def readseg (disk : Disk) (n : ℕ) (pa count offset : Word) (mem : Mem) : Option Mem :=
  readsegLoop disk (pa + count) n (pa &&& ~~~511) (offset / 512 + 1) mem

/-- The arguments of readseg for a header. -/
def Proghdr.call (h : Proghdr) : Word × Word × Word := (h.pa, h.memsz, h.offset)

def loadLoop (disk : Disk) (n : ℕ) (eph : Word) :
    ℕ → Word → Mem → Option (Mem × List (Word × Word × Word))
  | 0, _, _ => none
  | turns + 1, ph, mem =>
    if ph < eph then
      let header := proghdr (bytesAt mem ph)
      (readseg disk n header.pa header.memsz header.offset mem).bind fun mem =>
        (loadLoop disk n eph turns (ph + 32) mem).map (Prod.map id (header.call :: ·))
    else some (mem, [])

def bootmain (disk : Disk) (n : ℕ) (mem : Mem) : Option (Mem × List (Word × Word × Word)) :=
  (readseg disk n ELFHDR 4096 0 mem).bind fun mem =>
    let elf := bytesAt mem ELFHDR
    if read32 elf ≠ ELF_MAGIC then none
    else
      let ph := ELFHDR + read32 fun i => elf (28 + i)
      let eph := ph + 32 * read16 fun i => elf (44 + i)
      loadLoop disk n eph n ph mem

/-! ### One segment -/

section Segments

variable (disk : Disk)

def Proghdr.endPa (h : Proghdr) : ℕ := (h.pa + h.memsz).toNat

/-- The address is in one of the sectors that readseg reads for the segment. -/
def Proghdr.Covers (h : Proghdr) (a : Word) : Prop :=
  h.pa.toNat / 512 ≤ a.toNat / 512 ∧ 512 * (a.toNat / 512) < h.endPa

instance (h : Proghdr) (a : Word) : Decidable (h.Covers a) :=
  inferInstanceAs (Decidable (_ ∧ _))

/-- The offset in the image of what readseg puts at the address: p_pa - p_offset is between
them, both rounded down to sectors. -/
def Proghdr.source (h : Proghdr) (a : Word) : ℕ :=
  512 * (h.offset.toNat / 512) + (a.toNat - 512 * (h.pa.toNat / 512))

def Proghdr.byte (h : Proghdr) (a : Word) : UInt8 := image disk (h.source a)

def Proghdr.loaded (h : Proghdr) (mem : Mem) : Mem := fun a =>
  if h.Covers a then h.byte disk a else mem a

def Proghdr.Below (h : Proghdr) : Prop := h.endPa ≤ 2 ^ 32 - 512

instance (h : Proghdr) : Decidable h.Below := inferInstanceAs (Decidable (_ ≤ _))

def Proghdr.sectors (h : Proghdr) : ℕ := (h.endPa - 512 * (h.pa.toNat / 512) + 511) / 512

variable {disk} {endPa pa sector : Word} {mem : Mem}

/-- The address of the next sector wraps around and stays below the end. -/
theorem readsegLoop_none (hend : 2 ^ 32 - 512 < endPa.toNat) :
    ∀ (n : ℕ) (pa sector : Word) (mem : Mem), pa.toNat % 512 = 0 →
      readsegLoop disk endPa n pa sector mem = none
  | 0, _, _, _, _ => rfl
  | n + 1, pa, sector, mem, hpa => by
    have hlt : pa < endPa := by
      have := pa.isLt
      rw [lt_def]
      omega
    rw [readsegLoop, if_pos hlt]
    refine readsegLoop_none hend n _ _ _ ?_
    rw [toNat_add]
    have : (512 : Word).toNat = 512 := rfl
    omega

theorem roundDown_toNat (pa : Word) : (pa &&& ~~~511).toNat = 512 * (pa.toNat / 512) := by
  have hlow : ∀ i < 32, (511 : Word).getLsbD i = decide (i < 9) := by decide
  have hmask : pa &&& ~~~(511 : Word) = pa >>> 9 <<< 9 := by
    refine eq_of_getLsbD_eq fun i hi => ?_
    rw [getLsbD_and, getLsbD_not, hlow i hi, getLsbD_shiftLeft,
      getLsbD_ushiftRight, decide_eq_true hi, Bool.true_and, Bool.and_comm]
    by_cases hsmall : i < 9
    · rw [decide_eq_true hsmall, Bool.not_true, Bool.false_and, Bool.false_and]
    · rw [Nat.add_sub_cancel' (Nat.le_of_not_lt hsmall)]
  rw [hmask, toNat_shiftLeft, toNat_ushiftRight, Nat.shiftRight_eq_div_pow, Nat.shiftLeft_eq]
  have := pa.isLt
  omega

theorem firstSector_toNat (offset : Word) : (offset / 512 + 1).toNat = offset.toNat / 512 + 1 := by
  have h512 : (512 : Word).toNat = 512 := rfl
  have h1 : (1 : Word).toNat = 1 := rfl
  rw [toNat_add, toNat_udiv, h512, h1]
  have := offset.isLt
  omega

def swept (disk : Disk) (endPa pa sector : Word) (mem : Mem) : Mem := fun a =>
  if pa.toNat ≤ a.toNat ∧ 512 * (a.toNat / 512) < endPa.toNat then
    disk (512 * sector.toNat + (a.toNat - pa.toNat))
  else mem a

theorem swept_of_le (hpa : pa.toNat % 512 = 0) (h : endPa.toNat ≤ pa.toNat) :
    swept disk endPa pa sector mem = mem := by
  funext a
  refine if_neg ?_
  omega

theorem swept_step (hpa : pa.toNat % 512 = 0) (hlt : pa.toNat < endPa.toNat)
    (hend : endPa.toNat ≤ 2 ^ 32 - 512) (hsector : sector.toNat + 1 < 2 ^ 28) :
    swept disk endPa (pa + 512) (sector + 1) (readsect disk pa sector mem) =
      swept disk endPa pa sector mem := by
  have hnext : (pa + 512).toNat = pa.toNat + 512 := by bv_omega
  have hsucc : (sector + 1).toNat = sector.toNat + 1 := by bv_omega
  funext a
  unfold swept readsect
  rw [hnext, hsucc]
  rcases Nat.lt_or_ge a.toNat pa.toNat with ha | ha
  · -- before the sector: the difference wraps around
    have hsub : ¬(a - pa).toNat < 512 := by bv_omega
    rw [if_neg (by omega), if_neg hsub, if_neg (by omega)]
  · have hsub : (a - pa).toNat = a.toNat - pa.toNat := toNat_sub_of_le ha
    rw [hsub, Nat.mod_eq_of_lt (by omega)]
    rcases Nat.lt_or_ge a.toNat (pa.toNat + 512) with hin | hout
    · have hnear : a.toNat - pa.toNat < SECTSIZE := by
        change _ < 512
        omega
      rw [if_neg (by omega), if_pos hnear, if_pos (by omega)]
    · have hfar : ¬a.toNat - pa.toNat < SECTSIZE := by
        change ¬_ < 512
        omega
      rw [if_neg hfar]
      refine ite_congr (by simp only [eq_iff_iff]; omega) (fun _ => congrArg disk ?_) fun _ => rfl
      omega

theorem readsegLoop_eq_some (hend : endPa.toNat ≤ 2 ^ 32 - 512) {m : Mem} :
    ∀ (n : ℕ) (pa sector : Word) (mem : Mem), pa.toNat % 512 = 0 →
      sector.toNat + (2 ^ 32 - pa.toNat) / 512 < 2 ^ 28 →
      (readsegLoop disk endPa n pa sector mem = some m ↔
        (endPa.toNat - pa.toNat + 511) / 512 < n ∧ m = swept disk endPa pa sector mem)
  | 0, _, _, _, _, _ => by simp [readsegLoop]
  | n + 1, pa, sector, mem, hpa, hsector => by
    rw [readsegLoop]
    by_cases hlt : pa < endPa
    · have hlt' : pa.toNat < endPa.toNat := hlt
      have hnext : (pa + 512).toNat = pa.toNat + 512 := by bv_omega
      have hsucc : (sector + 1).toNat = sector.toNat + 1 := by bv_omega
      rw [if_pos hlt, readsegLoop_eq_some hend n _ _ _ (by omega) (by omega),
        swept_step hpa hlt' hend (by omega), hnext]
      refine and_congr_left fun _ => ?_
      omega
    · have hge : endPa.toNat ≤ pa.toNat := Nat.le_of_not_lt hlt
      rw [if_neg hlt, swept_of_le hpa hge, some.injEq, eq_comm]
      refine (and_iff_right ?_).symm
      omega

theorem Proghdr.loaded_eq_swept (h : Proghdr) :
    h.loaded disk mem =
      swept disk (h.pa + h.memsz) (h.pa &&& ~~~511) (h.offset / 512 + 1) mem := by
  have hround := roundDown_toNat h.pa
  have hsector := firstSector_toNat h.offset
  funext a
  unfold Proghdr.loaded swept Proghdr.byte Proghdr.source image
  rw [hround, hsector]
  refine ite_congr ?_ (fun _ => congrArg disk ?_) fun _ => rfl
  · simp only [Proghdr.Covers, Proghdr.endPa, eq_iff_iff]
    omega
  · change 512 + _ = _
    omega

theorem readseg_eq_some (h : Proghdr) {n : ℕ} {m : Mem} :
    readseg disk n h.pa h.memsz h.offset mem = some m ↔
      (h.Below ∧ h.sectors < n) ∧ m = h.loaded disk mem := by
  have hround := roundDown_toNat h.pa
  have haligned : (h.pa &&& ~~~511).toNat % 512 = 0 := by omega
  unfold readseg Proghdr.Below Proghdr.sectors Proghdr.endPa
  by_cases hend : (h.pa + h.memsz).toNat ≤ 2 ^ 32 - 512
  · have hsector : (h.offset / 512 + 1).toNat + (2 ^ 32 - (h.pa &&& ~~~511).toNat) / 512 <
        2 ^ 28 := by
      have := h.offset.isLt
      rw [firstSector_toNat]
      omega
    rw [readsegLoop_eq_some hend n _ _ mem haligned hsector, Proghdr.loaded_eq_swept, hround,
      and_iff_right hend]
  · rw [readsegLoop_none (by omega) n _ _ mem haligned]
    exact iff_of_false nofun fun hm => hend hm.1.1

theorem readseg_congr {h h' : Proghdr} {n : ℕ} (hcall : h.call = h'.call) :
    readseg disk n h.pa h.memsz h.offset mem = readseg disk n h'.pa h'.memsz h'.offset mem := by
  unfold Proghdr.call at hcall
  obtain ⟨hpa, hmemsz, hoffset⟩ := by simpa only [Prod.mk.injEq] using hcall
  rw [hpa, hmemsz, hoffset]

end Segments

/-! ### All segments -/

section Headers

variable (disk : Disk)

def loadedAll (hs : List Proghdr) (mem : Mem) : Mem :=
  hs.foldl (fun m h => h.loaded disk m) mem

/-- The last of the headers whose sectors cover the address. -/
def lastOver (hs : List Proghdr) (a : Word) : Option Proghdr :=
  hs.reverse.find? fun h => h.Covers a

variable {disk} {mem : Mem} {hs : List Proghdr} {h : Proghdr} {a : Word}

theorem loadedAll_apply (hs : List Proghdr) (a : Word) :
    loadedAll disk hs mem a = ((lastOver hs a).map (Proghdr.byte disk · a)).getD (mem a) := by
  induction hs using reverseRecOn with
  | nil => rfl
  | append_singleton hs h ih =>
    unfold loadedAll lastOver at *
    rw [foldl_append, List.reverse_append]
    change (h.loaded disk _) a = _
    rw [Proghdr.loaded, ih]
    by_cases hcovers : h.Covers a
    · simp [hcovers]
    · simp [hcovers]

theorem loadedAll_eq_of_lastOver (mem : Mem) (hlast : lastOver hs a = some h) :
    loadedAll disk hs mem a = h.byte disk a := by
  rw [loadedAll_apply, hlast]
  rfl

/-- A byte that is the same whatever the memory held before is one that a header brings. -/
theorem exists_lastOver {x : UInt8} (hall : ∀ mem, loadedAll disk hs mem a = x) :
    ∃ h, lastOver hs a = some h ∧ h.byte disk a = x := by
  cases hlast : lastOver hs a with
  | none =>
    have hkept := hall fun _ => x + 1
    rw [loadedAll_apply, hlast] at hkept
    have hne : x + 1 ≠ x := by simp
    exact absurd hkept hne
  | some h =>
    refine ⟨h, rfl, ?_⟩
    rw [← loadedAll_eq_of_lastOver (fun _ => 0) hlast, hall]

theorem covers_of_lastOver (hlast : lastOver hs a = some h) : h ∈ hs ∧ h.Covers a := by
  have hpred : decide (h.Covers a) = true :=
    find?_some (p := fun h : Proghdr => decide (h.Covers a)) hlast
  exact ⟨mem_reverse.mp (mem_of_find?_eq_some hlast), of_decide_eq_true hpred⟩

theorem lastOver_isSome (hmem : h ∈ hs) (hcovers : h.Covers a) : (lastOver hs a).isSome := by
  unfold lastOver
  rw [find?_isSome]
  exact ⟨h, mem_reverse.mpr hmem, decide_eq_true hcovers⟩

end Headers

/-! ### Images -/

section Images

variable (disk : Disk)

def phoff : ℕ := (read32 fun i => image disk (28 + i)).toNat

def phnum : ℕ := (read16 fun i => image disk (44 + i)).toNat

def headerOf (i : ℕ) : Proghdr := proghdr fun b => image disk (phoff disk + 32 * i + b)

def headers : List Proghdr := (List.range (phnum disk)).map (headerOf disk)

def segments : List Proghdr := (headers disk).filter fun h => h.type = ELF_PROG_LOAD

def headerAddr (i : ℕ) : Word := ELFHDR + BitVec.ofNat 32 (phoff disk + 32 * i)

def Proghdr.Holds (h : Proghdr) (a : ℕ) : Prop := h.pa.toNat ≤ a ∧ a < h.pa.toNat + h.memsz.toNat

/-- The segments lie in memory in order and apart, and in the image as in memory. -/
structure Placed : Prop where
  ordered : (segments disk).Pairwise fun s t => s.pa.toNat ≤ t.pa.toNat
  disjoint : (segments disk).Pairwise fun s t => ∀ a, s.Holds a → ¬t.Holds a
  congruent : ∀ s ∈ segments disk, s.pa.toNat % 512 = s.offset.toNat % 512
  fits : ∀ s ∈ segments disk, s.pa.toNat + s.memsz.toNat < 2 ^ 32

def page : Proghdr := ⟨0, 0, ELFHDR, 4096⟩

/-- bootmain comes to the entry point by the headers of the image, with the image in every byte of
every segment. -/
def Loads (mem : Mem) : Prop :=
  ∃ n m, bootmain disk n mem = some (m, (headers disk).map Proghdr.call) ∧
    ∀ s ∈ segments disk, ∀ k < s.memsz.toNat,
      m (s.pa + BitVec.ofNat 32 k) = image disk (s.offset.toNat + k)

/-- The bytes of a program header with the arguments of readseg. -/
def Used (b : ℕ) : Prop := b / 4 = 1 ∨ b / 4 = 3 ∨ b / 4 = 5

/-- No segment reaches into the last sector of the address space, where the loop of readseg never
ends. A header that is read in memory is there as in the image: of the first page and the headers
before, the last one to cover a byte of it brings the byte of the image. And the last header
whose sectors cover a byte of a segment has the same byte of the image for it as the segment. -/
structure Shared : Prop where
  below : ∀ h ∈ headers disk, h.Below
  kept : ∀ i < phnum disk, ∀ b, Used b → ∃ h,
    lastOver (page :: (headers disk).take i) (headerAddr disk i + BitVec.ofNat 32 b) = some h ∧
      h.byte disk (headerAddr disk i + BitVec.ofNat 32 b) = image disk (phoff disk + 32 * i + b)
  agree : ∀ s ∈ segments disk, ∀ a : Word, s.Holds a.toNat → ∀ h,
    lastOver (headers disk) a = some h → image disk (h.source a) = image disk (s.source a)

variable {disk} {mem m : Mem}

theorem page_loaded {k : ℕ} (hk : k < 4096) :
    page.loaded disk mem (ELFHDR + BitVec.ofNat 32 k) = image disk k := by
  have ha : (ELFHDR + BitVec.ofNat 32 k).toNat = 65536 + k := by
    rw [toNat_add, toNat_ofNat]
    change (65536 + _) % _ = _
    omega
  have hcovers : page.Covers (ELFHDR + BitVec.ofNat 32 k) := by
    unfold Proghdr.Covers Proghdr.endPa
    rw [ha]
    change 65536 / 512 ≤ _ ∧ _ < 65536 + 4096
    omega
  unfold Proghdr.loaded Proghdr.byte Proghdr.source
  rw [if_pos hcovers, ha]
  refine congrArg (image disk) ?_
  change 512 * (0 / 512) + (65536 + k - 512 * (65536 / 512)) = _
  omega

variable {f g : ℕ → UInt8}

theorem read16_congr (h : ∀ b < 2, f b = g b) : read16 f = read16 g := by
  unfold read16
  rw [h 0 (by decide), h 1 (by decide)]

theorem read32_eq_iff : read32 f = read32 g ↔ ∀ b < 4, f b = g b := by
  constructor
  · intro h
    have hnat := congrArg BitVec.toNat h
    unfold read32 at hnat
    rw [toNat_ofNat, toNat_ofNat] at hnat
    have hbyte (f : ℕ → UInt8) (b : ℕ) : (f b).toNat < 256 := UInt8.toNat_lt _
    have := hbyte f 0
    have := hbyte f 1
    have := hbyte f 2
    have := hbyte f 3
    have := hbyte g 0
    have := hbyte g 1
    have := hbyte g 2
    have := hbyte g 3
    intro b hb
    refine UInt8.toNat_inj.mp ?_
    obtain rfl | rfl | rfl | rfl : b = 0 ∨ b = 1 ∨ b = 2 ∨ b = 3 := by omega
    all_goals omega
  · intro h
    unfold read32
    rw [h 0 (by decide), h 1 (by decide), h 2 (by decide), h 3 (by decide)]

theorem call_eq_iff : (proghdr f).call = (proghdr g).call ↔ ∀ b, Used b → f b = g b := by
  unfold Proghdr.call proghdr
  simp only [Prod.mk.injEq, read32_eq_iff]
  constructor
  · rintro ⟨hpa, hmemsz, hoffset⟩ b (hb | hb | hb)
    · have := hoffset (b - 4) (by omega)
      rwa [Nat.add_sub_cancel' (by omega)] at this
    · have := hpa (b - 12) (by omega)
      rwa [Nat.add_sub_cancel' (by omega)] at this
    · have := hmemsz (b - 20) (by omega)
      rwa [Nat.add_sub_cancel' (by omega)] at this
  · intro h
    refine ⟨fun b hb => h _ ?_, fun b hb => h _ ?_, fun b hb => h _ ?_⟩
    all_goals
      unfold Used
      omega

theorem length_headers : (headers disk).length = phnum disk := by
  rw [headers, length_map, length_range]

variable {i : ℕ}

theorem headers_drop (hi : i < phnum disk) :
    (headers disk).drop i = headerOf disk i :: (headers disk).drop (i + 1) := by
  rw [drop_eq_getElem_cons (by rw [length_headers]; exact hi)]
  simp [headers]

theorem headers_take (hi : i < phnum disk) :
    (headers disk).take (i + 1) = (headers disk).take i ++ [headerOf disk i] := by
  rw [take_succ_eq_append_getElem (by rw [length_headers]; exact hi)]
  simp [headers]

/-- The memory before turn i, if the headers read so far are those of the image. -/
def before (disk : Disk) (i : ℕ) (mem : Mem) : Mem :=
  loadedAll disk (page :: (headers disk).take i) mem

theorem before_succ (hi : i < phnum disk) :
    before disk (i + 1) mem = (headerOf disk i).loaded disk (before disk i mem) := by
  rw [before, headers_take hi, ← List.cons_append, loadedAll, foldl_append]
  rfl

/-- Turn i goes by header i of the image. -/
def Reads (disk : Disk) (i : ℕ) (mem : Mem) : Prop :=
  (proghdr (bytesAt (before disk i mem) (headerAddr disk i))).call = (headerOf disk i).call

instance (i : ℕ) : Decidable (Reads disk i mem) := inferInstanceAs (Decidable (_ = _))

theorem reads_iff : Reads disk i mem ↔ ∀ b, Used b →
    before disk i mem (headerAddr disk i + BitVec.ofNat 32 b) =
      image disk (phoff disk + 32 * i + b) :=
  call_eq_iff

theorem headerAddr_toNat (hfits : (headerAddr disk 0).toNat + 32 * phnum disk < 2 ^ 32)
    (hi : i ≤ phnum disk) : (headerAddr disk i).toNat = (headerAddr disk 0).toNat + 32 * i := by
  have hadd : headerAddr disk i = headerAddr disk 0 + BitVec.ofNat 32 (32 * i) := by
    rw [headerAddr, headerAddr, BitVec.add_assoc, ← ofNat_add]
    rfl
  rw [hadd, toNat_add, toNat_ofNat]
  omega

theorem headerAddr_succ (i : ℕ) : headerAddr disk i + 32 = headerAddr disk (i + 1) := by
  rw [headerAddr, headerAddr, BitVec.add_assoc, Nat.mul_succ, ← Nat.add_assoc,
    ofNat_add (x := phoff disk + 32 * i)]
  rfl

/-- The loop goes by the headers of the image exactly when each of them is read as it is in the
image, and then the memory is known. -/
theorem loadLoop_eq_some (hfits : (headerAddr disk 0).toNat + 32 * phnum disk < 2 ^ 32) {n : ℕ} :
    ∀ turns i, i ≤ phnum disk →
    (loadLoop disk n (headerAddr disk (phnum disk)) turns (headerAddr disk i)
        (before disk i mem) = some (m, ((headers disk).drop i).map Proghdr.call) ↔
      phnum disk - i < turns ∧ (∀ h ∈ (headers disk).drop i, h.Below ∧ h.sectors < n) ∧
        (∀ j < phnum disk, i ≤ j → Reads disk j mem) ∧ m = before disk (phnum disk) mem)
  | 0, _, _ => by simp [loadLoop]
  | turns + 1, i, hi => by
    have hlt : headerAddr disk i < headerAddr disk (phnum disk) ↔ i < phnum disk := by
      rw [lt_def, headerAddr_toNat hfits hi, headerAddr_toNat hfits le_rfl]
      omega
    rw [loadLoop]
    rcases Nat.lt_or_ge i (phnum disk) with hmore | hdone
    · have ih := loadLoop_eq_some hfits (n := n) turns (i + 1) hmore
      rw [before_succ hmore] at ih
      rw [if_pos (hlt.mpr hmore), headers_drop hmore, forall_mem_cons, map_cons, headerAddr_succ]
      dsimp only
      constructor
      · intro hloop
        obtain ⟨m', hread, hrest⟩ := bind_eq_some_iff.mp hloop
        obtain ⟨⟨m'', calls⟩, htail, heq⟩ := map_eq_some_iff.mp hrest
        obtain ⟨rfl, hcalls⟩ := Prod.mk.inj heq
        obtain ⟨hcall, rfl⟩ := List.cons.inj hcalls
        rw [readseg_congr hcall] at hread
        obtain ⟨hfirst, rfl⟩ := (readseg_eq_some _).mp hread
        obtain ⟨hturns, hall, hreads, hm⟩ := ih.mp htail
        refine ⟨by omega, ⟨hfirst, hall⟩, fun j hj hij => ?_, hm⟩
        rcases Nat.eq_or_lt_of_le hij with rfl | hlater
        · exact hcall
        · exact hreads j hj hlater
      · rintro ⟨hturns, ⟨hfirst, hall⟩, hreads, hm⟩
        have hcall : Reads disk i mem := hreads i hmore le_rfl
        rw [readseg_congr hcall, (readseg_eq_some _).mpr ⟨hfirst, rfl⟩, bind_some]
        rw [ih.mpr ⟨by omega, hall, fun j hj hij => hreads j hj (by omega), hm⟩, map_some,
          Prod.map_apply, id_eq, hcall]
    · have hlen : (headers disk).length ≤ i := by rw [length_headers]; exact hdone
      obtain rfl : i = phnum disk := Nat.le_antisymm hi hdone
      rw [if_neg (fun h => absurd (hlt.mp h) (by omega)), drop_of_length_le hlen,
        some.injEq, map_nil, Prod.mk.injEq, and_iff_left rfl, eq_comm (a := m)]
      refine ⟨fun hm => ⟨by omega, by simp, fun j hj hij => by omega, hm⟩, fun h => h.2.2.2⟩

/-- The first page gives the headers their place and their number. -/
theorem bootmain_eq (hmagic : read32 (image disk) = ELF_MAGIC) {n : ℕ} :
    bootmain disk n mem = if 8 < n then
      loadLoop disk n (headerAddr disk (phnum disk)) n (headerAddr disk 0) (before disk 0 mem)
      else none := by
  have hpage {p : Mem} : readseg disk n ELFHDR 4096 0 mem = some p ↔
      (page.Below ∧ page.sectors < n) ∧ p = page.loaded disk mem := readseg_eq_some page
  have hbelow : page.Below := by decide
  have hsectors : page.sectors = 8 := by decide
  have hmagic' : read32 (bytesAt (page.loaded disk mem) ELFHDR) = ELF_MAGIC := by
    rw [← hmagic]
    exact read32_eq_iff.mpr fun b hb => page_loaded (by omega)
  have hoff : (read32 fun i => bytesAt (page.loaded disk mem) ELFHDR (28 + i)) =
      BitVec.ofNat 32 (phoff disk) := by
    rw [phoff, ofNat_toNat, setWidth_eq]
    exact read32_eq_iff.mpr fun b hb => page_loaded (by omega)
  have hnum : (read16 fun i => bytesAt (page.loaded disk mem) ELFHDR (44 + i)) =
      BitVec.ofNat 32 (phnum disk) := by
    rw [phnum, ofNat_toNat, setWidth_eq]
    exact read16_congr fun b hb => page_loaded (by omega)
  have hstart : ELFHDR + BitVec.ofNat 32 (phoff disk) = headerAddr disk 0 := rfl
  have hend : headerAddr disk 0 + 32 * BitVec.ofNat 32 (phnum disk) =
      headerAddr disk (phnum disk) := by
    rw [headerAddr, headerAddr, BitVec.add_assoc, Nat.mul_zero, Nat.add_zero,
      ofNat_add (x := phoff disk), ofNat_mul]
    rfl
  unfold bootmain
  by_cases hn : 8 < n
  · rw [if_pos hn, hpage.mpr ⟨⟨hbelow, hsectors ▸ hn⟩, rfl⟩, bind_some]
    dsimp only
    rw [if_neg (not_not.mpr hmagic'), hoff, hnum, hstart, hend]
    rfl
  · have hnone : readseg disk n ELFHDR 4096 0 mem = none := by
      rw [eq_none_iff_forall_ne_some]
      intro p hp
      exact hn (hsectors ▸ (hpage.mp hp).1.2)
    rw [if_neg hn, hnone, bind_none]

theorem bootmain_eq_some (hmagic : read32 (image disk) = ELF_MAGIC)
    (hfits : (headerAddr disk 0).toNat + 32 * phnum disk < 2 ^ 32) {n : ℕ} :
    bootmain disk n mem = some (m, (headers disk).map Proghdr.call) ↔
      (8 < n ∧ phnum disk < n) ∧ (∀ h ∈ headers disk, h.Below ∧ h.sectors < n) ∧
        (∀ i < phnum disk, Reads disk i mem) ∧ m = before disk (phnum disk) mem := by
  have hloop := @loadLoop_eq_some disk mem m hfits n n 0 (Nat.zero_le _)
  rw [drop_zero, Nat.sub_zero] at hloop
  rw [bootmain_eq hmagic]
  by_cases hn : 8 < n
  · rw [if_pos hn, hloop]
    simp [hn]
  · rw [if_neg hn]
    exact iff_of_false nofun fun h => hn h.1.1

theorem reads_first (hmagic : read32 (image disk) = ELF_MAGIC) (hsome : 0 < phnum disk)
    (hloads : Loads disk mem) : Reads disk 0 mem := by
  obtain ⟨n, m, hboot, _⟩ := hloads
  have hcons : headers disk = headerOf disk 0 :: (headers disk).drop 1 := headers_drop hsome
  rw [bootmain_eq hmagic] at hboot
  split at hboot
  · cases n with
    | zero => cases hboot
    | succ n =>
      rw [loadLoop, hcons, map_cons] at hboot
      split at hboot
      · obtain ⟨m', _, hrest⟩ := bind_eq_some_iff.mp hboot
        obtain ⟨_, _, heq⟩ := map_eq_some_iff.mp hrest
        exact (List.cons.inj (Prod.mk.inj heq).2).1
      · cases hboot
  · cases hboot

theorem phnum_lt (disk : Disk) : phnum disk < 2 ^ 16 := by
  have hlow : (image disk (44 + 0)).toNat < 256 := UInt8.toNat_lt _
  have hhigh : (image disk (44 + 1)).toNat < 256 := UInt8.toNat_lt _
  unfold phnum read16
  rw [toNat_ofNat]
  dsimp only
  omega

/-- The first header is read in the first page, so the address of no header wraps around. -/
theorem headerAddr_fits (hfirst : 0 < phnum disk →
      ∃ h, lastOver [page] (headerAddr disk 0 + BitVec.ofNat 32 4) = some h) :
    (headerAddr disk 0).toNat + 32 * phnum disk < 2 ^ 32 := by
  rcases Nat.eq_zero_or_pos (phnum disk) with hzero | hpos
  · rw [hzero]
    exact (headerAddr disk 0).isLt
  · obtain ⟨h, hlast⟩ := hfirst hpos
    obtain ⟨hmem, hcovers⟩ := covers_of_lastOver hlast
    obtain rfl := mem_singleton.mp hmem
    have hnum := phnum_lt disk
    obtain ⟨hlow, hhigh⟩ := hcovers
    have hend : page.endPa = 69632 := rfl
    have hpa : page.pa.toNat = 65536 := rfl
    have hfour : (BitVec.ofNat 32 4).toNat = 4 := rfl
    rw [hend] at hhigh
    rw [hpa] at hlow
    rw [toNat_add, hfour] at hlow hhigh
    have := (headerAddr disk 0).isLt
    omega

namespace Proghdr

variable {s : Proghdr}

section

variable (hfits : s.pa.toNat + s.memsz.toNat < 2 ^ 32)

include hfits

theorem covers_of_holds {a : Word} (h : s.Holds a.toNat) : s.Covers a := by
  obtain ⟨hlow, hhigh⟩ := h
  refine ⟨Nat.div_le_div_right hlow, ?_⟩
  rw [endPa, toNat_add, Nat.mod_eq_of_lt hfits]
  omega

theorem toNat_pa_add {k : ℕ}
    (hk : k < s.memsz.toNat) : (s.pa + BitVec.ofNat 32 k).toNat = s.pa.toNat + k := by
  rw [toNat_add, toNat_ofNat]
  omega

theorem holds_add {k : ℕ} (hk : k < s.memsz.toNat) : s.Holds (s.pa + BitVec.ofNat 32 k).toNat := by
  rw [toNat_pa_add hfits hk]
  exact ⟨Nat.le_add_right _ _, Nat.add_lt_add_left hk _⟩

end

theorem exists_of_holds {a : Word} (h : s.Holds a.toNat) :
    ∃ k < s.memsz.toNat, a = s.pa + BitVec.ofNat 32 k := by
  obtain ⟨hlow, hhigh⟩ := h
  refine ⟨a.toNat - s.pa.toNat, by omega, eq_of_toNat_eq ?_⟩
  have := a.isLt
  rw [toNat_add, toNat_ofNat]
  omega

theorem byte_eq {k : ℕ} (hcongruent : s.pa.toNat % 512 = s.offset.toNat % 512)
    (hfits : s.pa.toNat + s.memsz.toNat < 2 ^ 32) (hk : k < s.memsz.toNat) :
    s.byte disk (s.pa + BitVec.ofNat 32 k) = image disk (s.offset.toNat + k) := by
  unfold byte source
  rw [toNat_pa_add hfits hk]
  refine congrArg (image disk) ?_
  omega

theorem sectors_lt (h : Proghdr) : h.sectors < 2 ^ 24 := by
  have : h.endPa < 2 ^ 32 := isLt _
  unfold sectors
  omega

end Proghdr

/-- What the loader leaves in a byte of a segment is what the last header to cover it brings. -/
theorem Placed.before_eq_iff (hplaced : Placed disk) {s : Proghdr} (hs : s ∈ segments disk)
    {a : Word} (ha : s.Holds a.toNat) (mem : Mem) : before disk (phnum disk) mem a = s.byte disk a ↔
      ∀ h, lastOver (headers disk) a = some h → image disk (h.source a) = image disk (s.source a) := by
  have hcovered : (lastOver (headers disk) a).isSome :=
    lastOver_isSome (mem_of_mem_filter hs) (Proghdr.covers_of_holds (hplaced.fits s hs) ha)
  obtain ⟨h, hlast⟩ := isSome_iff_exists.mp hcovered
  have hall : (headers disk).take (phnum disk) = headers disk := by
    rw [← length_headers, take_length]
  have hbefore : before disk (phnum disk) mem a = h.byte disk a := by
    rw [before, hall]
    exact loadedAll_eq_of_lastOver (page.loaded disk mem) hlast
  rw [hbefore, hlast]
  refine ⟨fun heq h' hh => ?_, fun hall => hall h rfl⟩
  obtain rfl := some.inj hh
  exact heq

/-- Whole sectors do no harm, whatever the memory held before, exactly under the condition on the
headers that share them. -/
theorem boot_load (hmagic : read32 (image disk) = ELF_MAGIC) (hplaced : Placed disk) :
    (∀ mem, Loads disk mem) ↔ Shared disk := by
  constructor
  · intro hloads
    have hfits : (headerAddr disk 0).toNat + 32 * phnum disk < 2 ^ 32 := by
      refine headerAddr_fits fun hpos => ?_
      have hbyte := exists_lastOver fun mem =>
        reads_iff.mp (reads_first hmagic hpos (hloads mem)) 4 (Or.inl rfl)
      exact hbyte.imp fun h hh => hh.1
    refine ⟨?_, fun i hi b hb => exists_lastOver fun mem => ?_, fun s hs a ha => ?_⟩
    · obtain ⟨n, m, hboot, _⟩ := hloads fun _ => 0
      exact fun h hh => (((bootmain_eq_some hmagic hfits).mp hboot).2.1 h hh).1
    · obtain ⟨n, m, hboot, _⟩ := hloads mem
      exact reads_iff.mp (((bootmain_eq_some hmagic hfits).mp hboot).2.2.1 i hi) b hb
    · obtain ⟨n, m, hboot, hbytes⟩ := hloads fun _ => 0
      obtain ⟨_, _, _, rfl⟩ := (bootmain_eq_some hmagic hfits).mp hboot
      rw [← hplaced.before_eq_iff hs ha fun _ => 0]
      obtain ⟨k, hk, rfl⟩ := Proghdr.exists_of_holds ha
      rw [Proghdr.byte_eq (hplaced.congruent s hs) (hplaced.fits s hs) hk]
      exact hbytes s hs k hk
  · intro hshared mem
    have hfits : (headerAddr disk 0).toNat + 32 * phnum disk < 2 ^ 32 :=
      headerAddr_fits fun hpos =>
        (hshared.kept 0 hpos 4 (Or.inl rfl)).imp fun h hh => hh.1
    have hreads : ∀ i < phnum disk, Reads disk i mem := by
      intro i hi
      refine reads_iff.mpr fun b hb => ?_
      obtain ⟨h, hlast, hbyte⟩ := hshared.kept i hi b hb
      rw [before, loadedAll_eq_of_lastOver mem hlast, hbyte]
    have hturns : phnum disk < 2 ^ 24 := (phnum_lt disk).trans (by decide)
    refine ⟨2 ^ 24, _, (bootmain_eq_some hmagic hfits).mpr ⟨⟨by decide, hturns⟩,
      fun h hh => ⟨hshared.below h hh, h.sectors_lt⟩, hreads, rfl⟩, fun s hs k hk => ?_⟩
    have ha := Proghdr.holds_add (hplaced.fits s hs) hk
    rw [(hplaced.before_eq_iff hs ha mem).mpr (hshared.agree s hs _ ha),
      Proghdr.byte_eq (hplaced.congruent s hs) (hplaced.fits s hs) hk]

end Images

/-! ### Two images -/

/-- Segments one after the other, of which none is loaded into the next. -/
theorem placed_of_pairwise {disk : Disk}
    (hafter : (segments disk).Pairwise fun s t => s.pa.toNat + s.memsz.toNat ≤ t.pa.toNat)
    (hcongruent : ∀ s ∈ segments disk, s.pa.toNat % 512 = s.offset.toNat % 512)
    (hfits : ∀ s ∈ segments disk, s.pa.toNat + s.memsz.toNat < 2 ^ 32) : Placed disk where
  ordered := hafter.imp fun h => Nat.le_of_add_right_le h
  disjoint := hafter.imp fun h a hs ht => absurd (hs.2.trans_le (h.trans ht.1)) (lt_irrefl a)
  congruent := hcongruent
  fits := hfits

/-- Headers without a common sector, or with the same distance p_pa - p_offset. -/
def Proghdr.Compatible (s t : Proghdr) : Prop :=
  s.endPa ≤ 512 * (t.pa.toNat / 512) ∨ t.endPa ≤ 512 * (s.pa.toNat / 512) ∨
    s.pa.toNat / 512 + t.offset.toNat / 512 = t.pa.toNat / 512 + s.offset.toNat / 512

instance (s t : Proghdr) : Decidable (s.Compatible t) := inferInstanceAs (Decidable (_ ∨ _))

theorem Proghdr.Compatible.source_eq {s t : Proghdr} (h : s.Compatible t) {a : Word}
    (hs : s.Covers a) (ht : t.Covers a) : s.source a = t.source a := by
  unfold Covers at hs ht
  unfold source
  rcases h with h | h | h <;> omega

def word (w : ℕ) : List UInt8 :=
  [UInt8.ofNat w, UInt8.ofNat (w / 256), UInt8.ofNat (w / 65536), UInt8.ofNat (w / 16777216)]

/-- A disk with an image that has the given loadable segments, and from the second page on the
number of the page in every byte. -/
def imageWith (hs : List Proghdr) : Disk :=
  let zeros := List.replicate 12 0
  let header (h : Proghdr) :=
    word 1 ++ word h.offset.toNat ++ word 0 ++ word h.pa.toNat ++ word h.memsz.toNat ++
      word h.memsz.toNat ++ word 0 ++ word 0
  let start := [0x7F, 0x45, 0x4C, 0x46] ++ zeros ++ zeros ++ word 52 ++ zeros ++
    [UInt8.ofNat hs.length, 0] ++ [0, 0, 0, 0, 0, 0] ++ (hs.map header).flatten
  fun k => if k < 4096 + 512 then start.getD (k - 512) 0 else UInt8.ofNat (k / 4096)

def shared : Disk := imageWith [⟨1, 0x1000, 0x100000, 16⟩, ⟨1, 0x2100, 0x100100, 16⟩]

/-- The second segment brings the bytes of its own page of the image to the sector that both
segments share, over the first. -/
theorem boot_load_shared_sector :
    (read32 (image shared) = ELF_MAGIC ∧ Placed shared) ∧
      (∃ n m, bootmain shared n (fun _ => 0) = some (m, (headers shared).map Proghdr.call) ∧
        m 0x100000 ≠ image shared 0x1000) ∧ ¬Loads shared fun _ => 0 := by
  have hheaders : headers shared =
      [⟨1, 0x1000, 0x100000, 16⟩, ⟨1, 0x2100, 0x100100, 16⟩] := by decide +kernel
  have hsegments : segments shared = headers shared := by
    rw [segments, hheaders]
    rfl
  have hmagic : read32 (image shared) = ELF_MAGIC := by decide +kernel
  have hplaced : Placed shared := by
    refine placed_of_pairwise ?_ ?_ ?_ <;> rw [hsegments, hheaders] <;> decide
  have hfits : (headerAddr shared 0).toNat + 32 * phnum shared < 2 ^ 32 := by decide +kernel
  have hbyte : before shared (phnum shared) (fun _ => 0) 0x100000 ≠ image shared 0x1000 := by
    decide +kernel
  refine ⟨⟨hmagic, hplaced⟩, ⟨16, _, (bootmain_eq_some hmagic hfits).mpr
    ⟨by decide +kernel, ?_, by decide +kernel, rfl⟩, hbyte⟩, ?_⟩
  · rw [hheaders]
    decide
  · rintro ⟨n, m, hboot, hbytes⟩
    obtain ⟨_, _, _, rfl⟩ := (bootmain_eq_some hmagic hfits).mp hboot
    refine hbyte (hbytes ⟨1, 0x1000, 0x100000, 16⟩ ?_ 0 (by decide))
    rw [hsegments, hheaders]
    exact mem_cons_self

def paged : Disk :=
  imageWith [⟨1, 0, 0x10000, 256⟩, ⟨1, 0x1000, 0x100000, 16⟩, ⟨1, 0x1100, 0x100100, 16⟩]

/-- The first segment is the page of the headers itself, and the others have one page of the image
for the sector that they share. -/
theorem boot_load_paged :
    (read32 (image paged) = ELF_MAGIC ∧ Placed paged) ∧ ∀ mem, Loads paged mem := by
  have hheaders : headers paged = [⟨1, 0, 0x10000, 256⟩, ⟨1, 0x1000, 0x100000, 16⟩,
      ⟨1, 0x1100, 0x100100, 16⟩] := by decide +kernel
  have hsegments : segments paged = headers paged := by
    rw [segments, hheaders]
    rfl
  have hmagic : read32 (image paged) = ELF_MAGIC := by decide +kernel
  have hplaced : Placed paged := by
    refine placed_of_pairwise ?_ ?_ ?_ <;> rw [hsegments, hheaders] <;> decide
  have hcompatible : ∀ s ∈ headers paged, ∀ t ∈ headers paged, s.Compatible t := by
    rw [hheaders]
    decide
  have hkept : ∀ i < phnum paged, ∀ b < 24, b / 4 = 1 ∨ b / 4 = 3 ∨ b / 4 = 5 →
      ((lastOver (page :: (headers paged).take i) (headerAddr paged i + BitVec.ofNat 32 b)).map
        (Proghdr.byte paged · (headerAddr paged i + BitVec.ofNat 32 b))) =
          some (image paged (phoff paged + 32 * i + b)) := by
    decide +kernel
  refine ⟨⟨hmagic, hplaced⟩, (boot_load hmagic hplaced).mpr ⟨?_, ?_, ?_⟩⟩
  · rw [hheaders]
    decide
  · intro i hi b hb
    have hlt : b < 24 := by
      unfold Used at hb
      omega
    exact map_eq_some_iff.mp (hkept i hi b hlt hb)
  · intro s hs a ha h hlast
    obtain ⟨hmem, hcovers⟩ := covers_of_lastOver hlast
    have hs' : s ∈ headers paged := hsegments ▸ hs
    have hsource := (hcompatible h hmem s hs').source_eq hcovers
      (Proghdr.covers_of_holds (hplaced.fits s hs) ha)
    rw [hsource]

end KernelLabs.BootLoad

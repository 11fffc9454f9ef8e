import KernelLabs.AddressSpace
import Mathlib.Tactic.IntervalCases

/-!
Memory as the processor reads and writes it. A word of memory is four bytes in little-endian
order, and an access through a virtual address goes to the bytes that the walk of the page
directory gives, each byte for itself, since an access need not be aligned and may lie in two
pages. A write needs the write bit in both entries of each byte, because the kernel runs with
CR0_WP set, and nothing is written when one of the bytes faults. Behind the last page there
is no memory: what is read there is a parameter, and writes are lost.
-/
namespace KernelLabs.MemoryBytes

open PageWords PhysPages PageDir KernelWords AddressSpace Function BitVec Option

variable {M : MemSize}

def wordByte (w : Word) (r : ℕ) : BitVec 8 := (w >>> (8 * r)).setWidth 8

def ofBytes (f : ℕ → BitVec 8) : Word := f 3 ++ f 2 ++ f 1 ++ f 0

theorem wordByte_ofBytes (f : ℕ → BitVec 8) {r : ℕ} (hr : r < 4) : wordByte (ofBytes f) r = f r := by
  refine eq_of_getLsbD_eq ?_
  intro i hi
  simp only [wordByte, ofBytes, getLsbD_setWidth, getLsbD_ushiftRight, getLsbD_append]
  interval_cases r
  · simp [hi]
  · simp [hi, show 8 + i - 8 = i by omega]
  · simp [hi, show ¬16 + i < 8 by omega, show ¬16 + i - 8 < 8 by omega,
      show 16 + i - 8 - 8 = i by omega]
  · simp [hi, show ¬24 + i < 8 by omega, show ¬24 + i - 8 < 8 by omega,
      show ¬24 + i - 8 - 8 < 8 by omega, show 24 + i - 8 - 8 - 8 = i by omega]

def wordIndex (pa : Word) : Fin NPTENTRIES :=
  ⟨pa.toNat % 4096 / 4, Nat.div_lt_of_lt_mul (Nat.mod_lt _ (by decide))⟩

def physByte (s : Phys M) (pa : Word) : Option (BitVec 8) :=
  if h : PGNUM pa < M.npages then
    some (wordByte (s.mem ⟨PGNUM pa, h⟩ (wordIndex pa)) (pa.toNat % 4))
  else none

/-- A store of one byte, which is lost where there is no memory. -/
def setByte (s : Phys M) (pa : Word) (b : BitVec 8) : Phys M :=
  if h : PGNUM pa < M.npages then
    s.setWord ⟨PGNUM pa, h⟩ (wordIndex pa)
      (ofBytes (update (wordByte (s.mem ⟨PGNUM pa, h⟩ (wordIndex pa))) (pa.toNat % 4) b))
  else s

theorem physByte_setByte (s : Phys M) (pa pa' : Word) (b : BitVec 8) :
    physByte (setByte s pa b) pa' =
      if pa' = pa ∧ PGNUM pa < M.npages then some b else physByte s pa' := by
  by_cases h : PGNUM pa < M.npages
  swap
  · rw [setByte, dif_neg h, if_neg (fun hboth => h hboth.2)]
  rw [setByte, dif_pos h]
  unfold physByte
  by_cases h' : PGNUM pa' < M.npages
  swap
  · have hne : ¬(pa' = pa ∧ PGNUM pa < M.npages) := by
      rintro ⟨rfl, _⟩
      exact h' h
    rw [dif_neg h', dif_neg h', if_neg hne]
  rw [dif_pos h', dif_pos h']
  have hlt := pa.isLt
  have hlt' := pa'.isLt
  have hnum := PGNUM_eq pa
  have hnum' := PGNUM_eq pa'
  by_cases hpage : PGNUM pa' = PGNUM pa
  swap
  · -- the bytes lie in different pages
    have hne : (⟨PGNUM pa', h'⟩ : Page M) ≠ ⟨PGNUM pa, h⟩ := fun heq => hpage (Fin.mk.inj heq)
    have hne' : ¬(pa' = pa ∧ PGNUM pa < M.npages) := by
      rintro ⟨rfl, _⟩
      exact hpage rfl
    rw [if_neg hne', Phys.setWord]
    dsimp only
    rw [update_of_ne hne]
  have hsame : (⟨PGNUM pa', h'⟩ : Page M) = ⟨PGNUM pa, h⟩ := Fin.ext hpage
  rw [hsame, Phys.setWord]
  dsimp only
  rw [update_self]
  by_cases hword : wordIndex pa' = wordIndex pa
  · rw [hword, update_self, wordByte_ofBytes _ (Nat.mod_lt _ (by decide)),
      update_apply]
    have hindex : pa'.toNat % 4096 / 4 = pa.toNat % 4096 / 4 := congrArg Fin.val hword
    by_cases hbyte : pa'.toNat % 4 = pa.toNat % 4
    · have heq : pa' = pa := eq_of_toNat_eq (by omega)
      rw [if_pos hbyte, if_pos ⟨heq, h⟩]
    · have hne : pa' ≠ pa := by
        rintro rfl
        exact hbyte rfl
      rw [if_neg hbyte, if_neg (fun hboth => hne hboth.1)]
  · have hne : pa' ≠ pa := by
      rintro rfl
      exact hword rfl
    rw [update_of_ne hword, if_neg (fun hboth => hne hboth.1)]

def writeTarget (s : Phys M) (pgdir : Page M) (va : Word) : Option Word :=
  (AddressSpace.translate s pgdir va).bind fun r => if r.2 &&& PTE_W ≠ 0 then some r.1 else none

def store32 (s : Phys M) (pgdir : Page M) (va value : Word) : Except Word (Phys M) :=
  match writeTarget s pgdir va, writeTarget s pgdir (va + 1), writeTarget s pgdir (va + 2),
    writeTarget s pgdir (va + 3) with
  | none, _, _, _ => .error va
  | _, none, _, _ => .error (va + 1)
  | _, _, none, _ => .error (va + 2)
  | _, _, _, none => .error (va + 3)
  | some p₀, some p₁, some p₂, some p₃ =>
    .ok (setByte (setByte (setByte (setByte s p₀ (wordByte value 0)) p₁ (wordByte value 1))
      p₂ (wordByte value 2)) p₃ (wordByte value 3))

/-! ### What a store does -/

section Stores

variable {s : Phys M} {pgdir : Page M} {va value : Word} {p : ℕ → Word}

def setBytes (s : Phys M) (p : ℕ → Word) (value : Word) : Phys M :=
  setByte (setByte (setByte (setByte s (p 0) (wordByte value 0)) (p 1) (wordByte value 1))
    (p 2) (wordByte value 2)) (p 3) (wordByte value 3)

theorem store32_of_targets
    (h : ∀ i < 4, writeTarget s pgdir (va + BitVec.ofNat 32 i) = some (p i)) :
    store32 s pgdir va value = .ok (setBytes s p value) := by
  have h₀ : writeTarget s pgdir va = some (p 0) := by
    rw [← h 0 (by decide)]
    exact congrArg _ (BitVec.add_zero va).symm
  have h₁ : writeTarget s pgdir (va + 1) = some (p 1) := h 1 (by decide)
  have h₂ : writeTarget s pgdir (va + 2) = some (p 2) := h 2 (by decide)
  have h₃ : writeTarget s pgdir (va + 3) = some (p 3) := h 3 (by decide)
  rw [store32, h₀, h₁, h₂, h₃]
  rfl

theorem targets_of_store32 {t : Phys M} (h : store32 s pgdir va value = .ok t) :
    ∃ p : ℕ → Word, ∀ i < 4, writeTarget s pgdir (va + BitVec.ofNat 32 i) = some (p i) := by
  refine ⟨fun i => (writeTarget s pgdir (va + BitVec.ofNat 32 i)).getD 0, fun i hi => ?_⟩
  have hsome : (writeTarget s pgdir (va + BitVec.ofNat 32 i)).isSome := by
    unfold store32 at h
    split at h
    · cases h
    · cases h
    · cases h
    · cases h
    · rename_i p₀ p₁ p₂ p₃ h₀ h₁ h₂ h₃
      have hva : va + BitVec.ofNat 32 0 = va := BitVec.add_zero va
      interval_cases i
      · rw [hva, h₀]
        rfl
      · exact isSome_of_eq_some h₁
      · exact isSome_of_eq_some h₂
      · exact isSome_of_eq_some h₃
  obtain ⟨pa, hpa⟩ := isSome_iff_exists.mp hsome
  simp only [hpa, getD_some]

theorem physByte_setBytes (hne : ∀ i < 4, ∀ j < 4, p i = p j → i = j) {i : ℕ} (hi : i < 4) :
    physByte (setBytes s p value) (p i) =
      if PGNUM (p i) < M.npages then some (wordByte value i) else none := by
  have hnone : ¬PGNUM (p i) < M.npages → physByte s (p i) = none := fun h => dif_neg h
  have hsame : ∀ j < 4, (p i = p j ∧ PGNUM (p j) < M.npages) ↔
      (i = j ∧ PGNUM (p i) < M.npages) := by
    intro j hj
    constructor
    · intro h
      exact ⟨hne i hi j hj h.1, h.1 ▸ h.2⟩
    · rintro ⟨rfl, h⟩
      exact ⟨rfl, h⟩
  unfold setBytes
  rw [physByte_setByte, physByte_setByte, physByte_setByte, physByte_setByte]
  simp only [hsame 0 (by decide), hsame 1 (by decide), hsame 2 (by decide), hsame 3 (by decide)]
  by_cases hlt : PGNUM (p i) < M.npages
  · simp only [hlt, and_true, if_true]
    interval_cases i <;> rfl
  · simp only [hlt, and_false, if_false]
    exact hnone hlt

theorem physByte_setBytes_of_ne {pa : Word} (h : ∀ i < 4, pa ≠ p i) :
    physByte (setBytes s p value) pa = physByte s pa := by
  have hother : ∀ i < 4, ¬(pa = p i ∧ PGNUM (p i) < M.npages) := fun i hi hboth => h i hi hboth.1
  unfold setBytes
  rw [physByte_setByte, physByte_setByte, physByte_setByte, physByte_setByte,
    if_neg (hother 3 (by decide)), if_neg (hother 2 (by decide)), if_neg (hother 1 (by decide)),
    if_neg (hother 0 (by decide))]

theorem setBytes_rest : (setBytes s p value).pages = s.pages ∧
    (setBytes s p value).freeList = s.freeList := by
  have hone : ∀ (u : Phys M) (pa : Word) (b : BitVec 8),
      (setByte u pa b).pages = u.pages ∧ (setByte u pa b).freeList = u.freeList := by
    intro u pa b
    unfold setByte
    split <;> exact ⟨rfl, rfl⟩
  constructor
  · exact (((hone _ _ _).1.trans (hone _ _ _).1).trans (hone _ _ _).1).trans (hone _ _ _).1
  · exact (((hone _ _ _).2.trans (hone _ _ _).2).trans (hone _ _ _).2).trans (hone _ _ _).2

theorem offset_of_writeTarget {pa : Word} (h : writeTarget s pgdir va = some pa) :
    pa.toNat % 4096 = va.toNat % 4096 := by
  obtain ⟨r, hr, hpa⟩ := bind_eq_some_iff.mp h
  obtain ⟨table, _, htable⟩ := bind_eq_some_iff.mp hr
  split at htable
  · obtain rfl := some.inj htable
    split at hpa
    · obtain rfl := some.inj hpa
      have hframe := PTE_ADDR_toNat (s.mem table (PTX va))
      have hoffset := PGOFF_toNat va
      have hlt := (s.mem table (PTX va)).isLt
      rw [toNat_add]
      omega
    · contradiction
  · contradiction

/-- The four bytes of a word lie at different places. -/
theorem targets_injective (h : ∀ i < 4, writeTarget s pgdir (va + BitVec.ofNat 32 i) = some (p i)) :
    ∀ i < 4, ∀ j < 4, p i = p j → i = j := by
  intro i hi j hj heq
  have hoffset := offset_of_writeTarget (h i hi)
  have hoffset' := offset_of_writeTarget (h j hj)
  have hsum : (va + BitVec.ofNat 32 i).toNat = (va.toNat + i) % 2 ^ 32 := by
    rw [toNat_add, toNat_ofNat, Nat.add_mod_mod]
  have hsum' : (va + BitVec.ofNat 32 j).toNat = (va.toNat + j) % 2 ^ 32 := by
    rw [toNat_add, toNat_ofNat, Nat.add_mod_mod]
  rw [heq] at hoffset
  omega

theorem toNat_add_of_page {i : ℕ} (h : va.toNat % 4096 + i < 4096) :
    (va + BitVec.ofNat 32 i).toNat = va.toNat + i := by
  have hlt := va.isLt
  rw [toNat_add, toNat_ofNat]
  omega

theorem PGNUM_add {i : ℕ} (h : va.toNat % 4096 + i < 4096) :
    PGNUM (va + BitVec.ofNat 32 i) = PGNUM va := by
  rw [PGNUM_eq, PGNUM_eq, toNat_add_of_page h]
  omega

/-- Addresses in one page are written in one page. -/
theorem writeTarget_add {i : ℕ} (h : va.toNat % 4096 + i < 4096) :
    writeTarget s pgdir (va + BitVec.ofNat 32 i) =
      (writeTarget s pgdir va).map fun pa => pa + BitVec.ofNat 32 i := by
  have hsum := toNat_add_of_page h
  have hdir : PDX (va + BitVec.ofNat 32 i) = PDX va := by
    refine Fin.ext ?_
    rw [PDX_val, PDX_val, hsum]
    omega
  have htab : PTX (va + BitVec.ofNat 32 i) = PTX va := by
    refine Fin.ext ?_
    rw [PTX_val, PTX_val, hsum]
    omega
  have hoff : PGOFF (va + BitVec.ofNat 32 i) = PGOFF va + BitVec.ofNat 32 i := by
    refine eq_of_toNat_eq ?_
    rw [toNat_add, PGOFF_toNat, PGOFF_toNat, hsum, toNat_ofNat]
    omega
  unfold writeTarget AddressSpace.translate
  rw [hdir, htab, hoff]
  cases tableOf s pgdir (PDX va) with
  | none => rfl
  | some table =>
    rw [bind_some, bind_some]
    by_cases hpresent : Present (s.mem table (PTX va))
    · rw [if_pos hpresent, if_pos hpresent, bind_some, bind_some]
      dsimp only
      split
      · rw [map_some, BitVec.add_assoc]
      · rfl
    · rw [if_neg hpresent, if_neg hpresent]
      rfl

theorem wordByte_of_lt {n i : ℕ} (h : value.toNat < 2 ^ (8 * n)) (hi : n ≤ i) :
    wordByte value i = 0 := by
  have hlt : value.toNat < 2 ^ (8 * i) :=
    Nat.lt_of_lt_of_le h (Nat.pow_le_pow_right (by decide) (by omega))
  refine eq_of_toNat_eq ?_
  rw [wordByte, toNat_setWidth, toNat_ushiftRight, Nat.shiftRight_eq_div_pow, Nat.div_eq_of_lt hlt]
  rfl

theorem address_of_writeTarget {pa : Word} (h : writeTarget s pgdir va = some pa) :
    address s pgdir va = some pa := by
  obtain ⟨r, hr, hpa⟩ := bind_eq_some_iff.mp h
  split at hpa
  · rw [address, hr, map_some, some.inj hpa]
  · contradiction

end Stores

def readByte (s : Phys M) (pgdir : Page M) (io : Word → BitVec 8) (va : Word) : Option (BitVec 8) :=
  (AddressSpace.translate s pgdir va).map fun r => (physByte s r.1).getD (io r.1)

def load32 (s : Phys M) (pgdir : Page M) (io : Word → BitVec 8) (va : Word) : Except Word Word :=
  match readByte s pgdir io va, readByte s pgdir io (va + 1), readByte s pgdir io (va + 2),
    readByte s pgdir io (va + 3) with
  | none, _, _, _ => .error va
  | _, none, _, _ => .error (va + 1)
  | _, _, none, _ => .error (va + 2)
  | _, _, _, none => .error (va + 3)
  | some b₀, some b₁, some b₂, some b₃ => .ok (b₃ ++ b₂ ++ b₁ ++ b₀)

end KernelLabs.MemoryBytes

import KernelLabs.BlockOwners
import KernelLabs.FlatFiles

/-!
The bytes of a file. bmap finds the block of every byte below the size without a change of the
state, when all these blocks are allocated; a block that it allocates is not yet in use, so
bytes in other blocks stay. From this follows what the loops of readi and writei do.
-/
namespace KernelLabs.FileBytes

open PanicMonad OwnerMarks DiskBlocks BlockOwners FlatFiles MachineWords Function List Option
  Multiset

def addrAt (blocks : ℕ → Block) (d : Dinode) (bn : ℕ) : ℕ :=
  if h : bn < NDIRECT then d.addrs ⟨bn, Nat.lt_succ_of_lt h⟩
  else if h : bn - NDIRECT < NINDIRECT then
    if d.addrs INDIRECT = 0 then 0 else (blocks (d.addrs INDIRECT)).uints ⟨bn - NDIRECT, h⟩
  else 0

def byteAt (blocks : ℕ → Block) (d : Dinode) (i : ℕ) : UInt8 :=
  (blocks (addrAt blocks d (i / BSIZE))).byte i

def content (blocks : ℕ → Block) (d : Dinode) : List UInt8 :=
  (List.range d.size).map (byteAt blocks d)

/-- Every block below the size is allocated. -/
structure Whole (blocks : ℕ → Block) (d : Dinode) : Prop where
  size_le : d.size ≤ MAXFILE * BSIZE
  allocated : ∀ i < d.size, addrAt blocks d (i / BSIZE) ≠ 0

def Full (e : String) : Prop := e = "balloc: out of blocks"

section Addresses

variable {blocks blocks' : ℕ → Block} {d : Dinode} {bn bn' : ℕ}

theorem addrAt_direct (j : Fin NDIRECT) : addrAt blocks d j = d.addrs j.castSucc :=
  dif_pos j.isLt

theorem addrAt_entry (j : Fin NINDIRECT) (hind : d.addrs INDIRECT ≠ 0) :
    addrAt blocks d (NDIRECT + j) = (blocks (d.addrs INDIRECT)).uints j := by
  have hj : NDIRECT + j.val - NDIRECT = j := Nat.add_sub_cancel_left ..
  rw [addrAt, dif_neg (by omega), dif_pos (by rw [hj]; exact j.isLt), if_neg hind]
  simp only [hj]

theorem addrAt_entry_zero (j : Fin NINDIRECT) (hind : d.addrs INDIRECT = 0) :
    addrAt blocks d (NDIRECT + j) = 0 := by
  rw [addrAt, dif_neg (by omega)]
  simp only [if_pos hind, dite_eq_ite, ite_self]

theorem maxfile_eq : MAXFILE = NDIRECT + NINDIRECT := rfl

/-- The number of a block of a file is a direct or an indirect one. -/
theorem blockNumber_cases (h : bn < MAXFILE) :
    (∃ j : Fin NDIRECT, bn = j) ∨ ∃ j : Fin NINDIRECT, bn = NDIRECT + j := by
  have hmax := maxfile_eq
  by_cases hdirect : bn < NDIRECT
  · exact Or.inl ⟨⟨bn, hdirect⟩, rfl⟩
  · refine Or.inr ⟨⟨bn - NDIRECT, by omega⟩, ?_⟩
    simp only
    omega

theorem lt_of_addrAt (h : addrAt blocks d bn ≠ 0) : bn < MAXFILE := by
  have hmax := maxfile_eq
  by_contra hge
  apply h
  rw [addrAt, dif_neg (by omega), dif_neg (by omega)]

/-- An address in use is a direct one or an entry of the indirect block. -/
theorem addrAt_cases (h : addrAt blocks d bn ≠ 0) :
    (∃ j : Fin NDIRECT, bn = j ∧ d.addrs j.castSucc ≠ 0) ∨
      ∃ j : Fin NINDIRECT, bn = NDIRECT + j ∧ d.addrs INDIRECT ≠ 0 ∧
        (blocks (d.addrs INDIRECT)).uints j ≠ 0 := by
  rcases blockNumber_cases (lt_of_addrAt h) with ⟨j, rfl⟩ | ⟨j, rfl⟩
  · rw [addrAt_direct] at h
    exact Or.inl ⟨j, rfl, h⟩
  · by_cases hind : d.addrs INDIRECT = 0
    · exact absurd (addrAt_entry_zero j hind) h
    · rw [addrAt_entry j hind] at h
      exact Or.inr ⟨j, rfl, hind, h⟩

theorem addrAt_mem (halive : d.type ≠ 0) (h : addrAt blocks d bn ≠ 0) :
    addrAt blocks d bn ∈ addrsOf blocks d := by
  rw [addrsOf_alive halive]
  rcases addrAt_cases h with ⟨j, rfl, hj⟩ | ⟨j, rfl, hind, hj⟩
  · rw [addrAt_direct]
    exact mem_add.mpr (Or.inl (direct_mem hj))
  · rw [addrAt_entry j hind, indirect, if_neg hind]
    refine mem_add.mpr (Or.inr (Multiset.mem_cons_of_mem ?_))
    exact mem_entries.mpr ⟨hj, j, mem_finRange j, rfl⟩

theorem addrAt_inj (halive : d.type ≠ 0) (hnodup : (addrsOf blocks d).Nodup)
    (h : addrAt blocks d bn ≠ 0) (heq : addrAt blocks d bn = addrAt blocks d bn') : bn = bn' := by
  rw [addrsOf_alive halive] at hnodup
  obtain ⟨hdirect, hindirect, hdisjoint⟩ := nodup_add.mp hnodup
  have hentries (hind : d.addrs INDIRECT ≠ 0) :
      (entries (finRange NINDIRECT) (blocks (d.addrs INDIRECT)).uints).Nodup := by
    rw [indirect, if_neg hind] at hindirect
    exact (Multiset.nodup_cons.mp hindirect).2
  have hcross (i : Fin NDIRECT) (hi : d.addrs i.castSucc ≠ 0) (j : Fin NINDIRECT)
      (hind : d.addrs INDIRECT ≠ 0) :
      d.addrs i.castSucc ≠ (blocks (d.addrs INDIRECT)).uints j := by
    intro hsame
    refine Multiset.disjoint_left.mp hdisjoint (direct_mem hi) ?_
    rw [indirect, if_neg hind]
    refine Multiset.mem_cons_of_mem (mem_entries.mpr ⟨hi, j, mem_finRange j, hsame.symm⟩)
  have h' : addrAt blocks d bn' ≠ 0 := heq ▸ h
  rcases addrAt_cases h with ⟨j, rfl, hj⟩ | ⟨j, rfl, hind, hj⟩
  · rw [addrAt_direct] at heq
    rcases addrAt_cases h' with ⟨j', rfl, _⟩ | ⟨j', rfl, hind, _⟩
    · rw [addrAt_direct] at heq
      rw [entries_inj hdirect (mem_finRange j) (mem_finRange j') hj heq]
    · rw [addrAt_entry j' hind] at heq
      exact absurd heq (hcross j hj j' hind)
  · rw [addrAt_entry j hind] at heq
    rcases addrAt_cases h' with ⟨j', rfl, hj'⟩ | ⟨j', rfl, _, _⟩
    · rw [addrAt_direct] at heq
      exact absurd heq.symm (hcross j' hj' j hind)
    · rw [addrAt_entry j' hind] at heq
      rw [entries_inj (hentries hind) (mem_finRange j) (mem_finRange j') hj heq]

/-- The addresses depend on addrs and on the indirect block. -/
theorem addrAt_congr (h : d.addrs INDIRECT ≠ 0 → blocks' (d.addrs INDIRECT) = blocks (d.addrs INDIRECT))
    (bn : ℕ) : addrAt blocks' d bn = addrAt blocks d bn := by
  by_cases hind : d.addrs INDIRECT = 0
  · simp only [addrAt, if_pos hind]
  · simp only [addrAt, if_neg hind, h hind]

end Addresses

/-- What bmap keeps: the addresses in use, and the blocks there. -/
structure Maps (k : Slot) (s t : Fs) : Prop where
  addr : ∀ bn, addrAt s.blocks (s.icache k).copy bn ≠ 0 →
    addrAt t.blocks (t.icache k).copy bn = addrAt s.blocks (s.icache k).copy bn
  block : ∀ bn, addrAt s.blocks (s.icache k).copy bn ≠ 0 →
    t.blocks (addrAt s.blocks (s.icache k).copy bn) =
      s.blocks (addrAt s.blocks (s.icache k).copy bn)

section Mapping

variable {L : Layout} {s t u : Fs} {k : Slot} {R : Multiset ℕ}

theorem Maps.trans (h : Maps k s t) (h' : Maps k t u) : Maps k s u where
  addr := by
    intro bn hbn
    have hbn' := h.addr bn hbn
    rw [h'.addr bn (by rw [hbn']; exact hbn), hbn']
  block := by
    intro bn hbn
    have hbn' := h.addr bn hbn
    rw [← h.block bn hbn, ← hbn']
    exact h'.block bn (by rw [hbn']; exact hbn)

/-- A block of the file is not the indirect block. -/
theorem data_of_addrAt (h : Owned L s k R) {bn : ℕ}
    (hbn : addrAt s.blocks (s.icache k).copy bn ≠ 0) :
    Data s k (addrAt s.blocks (s.icache k).copy bn) := by
  rcases addrAt_cases hbn with ⟨i, rfl, hi⟩ | ⟨i, rfl, hind, hi⟩
  · rw [addrAt_direct]
    exact h.data_of_direct (direct_mem hi)
  · rw [addrAt_entry i hind]
    exact h.data_of_entry hind (mem_entries.mpr ⟨hi, i, mem_finRange i, rfl⟩)

theorem maps_of_kept (h : Owned L s k R) (hkept : Kept k s t) : Maps k s t where
  addr bn hbn := by
    rcases addrAt_cases hbn with ⟨i, rfl, hi⟩ | ⟨i, rfl, hind, hi⟩
    · rw [addrAt_direct, addrAt_direct, hkept.addrs _ hi]
    · have hind' := hkept.addrs INDIRECT hind
      rw [addrAt_entry i hind, addrAt_entry i (by rw [hind']; exact hind), hind',
        hkept.uints hind i hi]
  block bn hbn := hkept.blocks _ (data_of_addrAt h hbn)

/-- bmap returns the address of the block, which is in use afterwards. -/
theorem ends_bmap_maps (h : Owned L s k R) {bn : ℕ} (hbn : bn < MAXFILE) :
    Ends Full (bmap L k bn) s fun b t => Owned L t k R ∧ Grows k R s t ∧ Maps k s t ∧
      b = addrAt t.blocks (t.icache k).copy bn ∧ b ≠ 0 := by
  unfold bmap
  rcases blockNumber_cases hbn with ⟨j, rfl⟩ | ⟨j, rfl⟩
  · rw [dif_pos j.isLt]
    refine ends_addrOrAlloc rfl h fun t ht hgrows hkept hne _ => ?_
    exact ⟨ht, hgrows, maps_of_kept h hkept, (addrAt_direct j).symm, hne⟩
  · have hj : NDIRECT + j.val - NDIRECT = j := Nat.add_sub_cancel_left ..
    rw [dif_neg (by omega), dif_pos (by rw [hj]; exact j.isLt)]
    simp only [hj]
    refine ends_bind (ends_addrOrAlloc rfl h fun t ht hgrows hkept hne _ => ?_)
    refine ends_entryOrAlloc rfl ht hne fun b u hu hgrows' hkept' hcache hb hentry => ?_
    have hne' : (u.icache k).copy.addrs INDIRECT ≠ 0 := by rw [hcache]; exact hne
    refine ⟨hu, hgrows.trans hgrows', (maps_of_kept h hkept).trans (maps_of_kept ht hkept'), ?_, hb⟩
    rw [addrAt_entry j hne', hentry]

theorem returns_addrOrAlloc {j : Fin (NDIRECT + 1)} (h : (s.icache k).copy.addrs j ≠ 0) :
    Returns (addrOrAlloc L k j) s fun b t => b = (s.icache k).copy.addrs j ∧ t = s := by
  unfold addrOrAlloc
  rw [returns_get_bind, if_neg h, returns_pure]
  exact ⟨rfl, rfl⟩

theorem returns_entryOrAlloc {ind : ℕ} {j : Fin NINDIRECT} (h : (s.blocks ind).uints j ≠ 0) :
    Returns (entryOrAlloc L ind j) s fun b t => b = (s.blocks ind).uints j ∧ t = s := by
  unfold entryOrAlloc
  rw [returns_get_bind, if_neg h, returns_pure]
  exact ⟨rfl, rfl⟩

theorem returns_bmap {bn : ℕ} (h : addrAt s.blocks (s.icache k).copy bn ≠ 0) :
    Returns (bmap L k bn) s fun b t => b = addrAt s.blocks (s.icache k).copy bn ∧ t = s := by
  unfold bmap
  rcases addrAt_cases h with ⟨j, rfl, hj⟩ | ⟨j, rfl, hind, hj⟩
  · rw [dif_pos j.isLt, addrAt_direct]
    exact returns_addrOrAlloc hj
  · have heq : NDIRECT + j.val - NDIRECT = j := Nat.add_sub_cancel_left ..
    rw [dif_neg (by omega), dif_pos (by rw [heq]; exact j.isLt), addrAt_entry j hind]
    simp only [heq]
    refine returns_bind ((returns_addrOrAlloc hind).mono fun b t ht => ?_)
    obtain ⟨rfl, rfl⟩ := ht
    exact returns_entryOrAlloc hj

end Mapping

section Reading

variable {L : Layout} {s : Fs} {k : Slot}

theorem byteAt_block (blocks : ℕ → Block) (d : Dinode) {off i : ℕ} (hi : off % BSIZE + i < BSIZE) :
    byteAt blocks d (off + i) = (blocks (addrAt blocks d (off / BSIZE))).byte (off % BSIZE + i) := by
  have hi' : off % 512 + i < 512 := hi
  have hdiv : (off + i) / BSIZE = off / BSIZE := show (off + i) / 512 = off / 512 by omega
  have hmod : (off + i) % BSIZE = (off % BSIZE + i) % BSIZE := (Nat.mod_add_mod ..).symm
  rw [byteAt, hdiv, Block.byte, Block.byte]
  congr 1
  exact Fin.ext hmod

/-- The loop of readi from the offset `off`, when `n - tot` bytes are left. -/
theorem returns_readFrom {n turns off tot : ℕ} (htot : tot ≤ n) (hturns : n ≤ tot + turns)
    (h : ∀ i < n - tot, addrAt s.blocks (s.icache k).copy ((off + i) / BSIZE) ≠ 0) :
    Returns (readFrom L k n turns off tot) s fun bytes t => t = s ∧
      bytes = (List.range (n - tot)).map fun i => byteAt s.blocks (s.icache k).copy (off + i) := by
  induction turns generalizing off tot with
  | zero =>
    have hdone : n - tot = 0 := by omega
    unfold readFrom
    rw [if_neg (by omega), returns_pure, hdone]
    exact ⟨rfl, rfl⟩
  | succ turns ih =>
    unfold readFrom
    by_cases hlt : tot < n
    · rw [if_pos hlt]
      refine returns_bind ((returns_bmap (h 0 (by omega))).mono fun b t ht => ?_)
      obtain ⟨rfl, rfl⟩ := ht
      rw [returns_get_bind]
      set m := min (n - tot) (BSIZE - off % BSIZE) with hm
      have hmpos : 0 < m := by
        have := Nat.mod_lt off (show 0 < BSIZE by decide)
        omega
      have hmle : m ≤ n - tot := Nat.min_le_left _ _
      have hrest : ∀ i < n - (tot + m),
          addrAt t.blocks (t.icache k).copy ((off + m + i) / BSIZE) ≠ 0 := by
        intro i hi
        rw [Nat.add_assoc]
        exact h (m + i) (by omega)
      refine returns_bind ((ih (by omega) (by omega) hrest).mono fun bytes t ht => ?_)
      obtain ⟨rfl, rfl⟩ := ht
      rw [returns_pure]
      refine ⟨rfl, ?_⟩
      have hsplit : n - tot = m + (n - (tot + m)) := by omega
      rw [hsplit, List.range_add, map_append, List.map_map]
      congr 1
      · refine map_congr_left fun i hi => ?_
        have hi' := List.mem_range.mp hi
        have hbyte : off % BSIZE + i < BSIZE := by omega
        exact (byteAt_block _ _ hbyte).symm
      · refine map_congr_left fun i _ => ?_
        rw [comp_apply, Nat.add_assoc]
    · have hdone : n - tot = 0 := by omega
      rw [if_neg hlt, returns_pure, hdone]
      exact ⟨rfl, rfl⟩

end Reading

/-- The effect of a write of `len` bytes on the bytes of a file. -/
structure Wrote (k : Slot) (s t : Fs) (off len : ℕ) (src : ℕ → UInt8) : Prop where
  inside : ∀ i < len, addrAt t.blocks (t.icache k).copy ((off + i) / BSIZE) ≠ 0 ∧
    byteAt t.blocks (t.icache k).copy (off + i) = src i
  outside : ∀ i, i < off ∨ off + len ≤ i → addrAt s.blocks (s.icache k).copy (i / BSIZE) ≠ 0 →
    addrAt t.blocks (t.icache k).copy (i / BSIZE) ≠ 0 ∧
      byteAt t.blocks (t.icache k).copy i = byteAt s.blocks (s.icache k).copy i

section Writing

variable {L : Layout} {s t u : Fs} {k : Slot} {R : Multiset ℕ} {src : ℕ → UInt8}

theorem Wrote.refl (k : Slot) (s : Fs) (off : ℕ) (src : ℕ → UInt8) : Wrote k s s off 0 src :=
  ⟨fun _ hi => absurd hi (Nat.not_lt_zero _), fun _ _ hused => ⟨hused, rfl⟩⟩

theorem Wrote.append {off m len : ℕ} (h : Wrote k s t off m src)
    (h' : Wrote k t u (off + m) len fun i => src (m + i)) : Wrote k s u off (m + len) src where
  inside := by
    intro i hi
    by_cases hfirst : i < m
    · obtain ⟨hused, hbyte⟩ := h.inside i hfirst
      obtain ⟨hused', hbyte'⟩ := h'.outside (off + i) (Or.inl (by omega)) hused
      exact ⟨hused', hbyte'.trans hbyte⟩
    · have hsecond := h'.inside (i - m) (by omega)
      have hpos : off + m + (i - m) = off + i := by omega
      have hsrc : m + (i - m) = i := by omega
      rw [hpos, hsrc] at hsecond
      exact hsecond
  outside := by
    intro i hi hused
    obtain ⟨hused', hbyte⟩ := h.outside i (by omega) hused
    obtain ⟨hused'', hbyte'⟩ := h'.outside i (by omega) hused'
    exact ⟨hused'', hbyte'.trans hbyte⟩

theorem Maps.wrote {off len : ℕ} (h : Maps k s t) (h' : Wrote k t u off len src) :
    Wrote k s u off len src where
  inside := h'.inside
  outside := by
    intro i hi hused
    have haddr := h.addr (i / BSIZE) hused
    have hbyte : byteAt t.blocks (t.icache k).copy i = byteAt s.blocks (s.icache k).copy i := by
      rw [byteAt, byteAt, haddr, h.block _ hused]
    rw [← hbyte]
    exact h'.outside i hi (by rw [haddr]; exact hused)

theorem byte_memmove (a : Block) (dst : ℕ) (src : ℕ → UInt8) (m i : ℕ) :
    (a.memmove dst src m).byte i =
      if dst ≤ i % BSIZE ∧ i % BSIZE < dst + m then src (i % BSIZE - dst) else a.byte i := rfl

theorem wrote_setBlock (h : Owned L s k R) {off m : ℕ}
    (hused : addrAt s.blocks (s.icache k).copy (off / BSIZE) ≠ 0) (hm : off % BSIZE + m ≤ BSIZE) :
    Wrote k s (s.setBlock (addrAt s.blocks (s.icache k).copy (off / BSIZE))
      ((s.blocks (addrAt s.blocks (s.icache k).copy (off / BSIZE))).memmove (off % BSIZE) src m))
      off m src := by
  set b := addrAt s.blocks (s.icache k).copy (off / BSIZE) with hb
  set a := (s.blocks b).memmove (off % BSIZE) src m with ha
  have haddr (bn : ℕ) : addrAt (s.setBlock b a).blocks (s.icache k).copy bn =
      addrAt s.blocks (s.icache k).copy bn := by
    refine addrAt_congr (fun hind => update_of_ne ?_ _ _) bn
    exact ((data_of_addrAt h hused).ne_indirect hind).symm
  have hself : (s.setBlock b a).blocks b = a := update_self ..
  have hm' : off % 512 + m ≤ 512 := hm
  constructor
  · intro i hi
    have hdiv : (off + i) / BSIZE = off / BSIZE := show (off + i) / 512 = off / 512 by omega
    have hmod : (off + i) % 512 = off % 512 + i := by omega
    change addrAt (s.setBlock b a).blocks (s.icache k).copy _ ≠ 0 ∧
      byteAt (s.setBlock b a).blocks (s.icache k).copy _ = _
    rw [byteAt, haddr, hdiv, ← hb, hself, ha, byte_memmove, if_pos ?_]
    · refine ⟨hused, ?_⟩
      congr 1
      show (off + i) % 512 - off % 512 = i
      omega
    · show off % 512 ≤ (off + i) % 512 ∧ (off + i) % 512 < off % 512 + m
      omega
  · intro i hi hused'
    change addrAt (s.setBlock b a).blocks (s.icache k).copy _ ≠ 0 ∧
      byteAt (s.setBlock b a).blocks (s.icache k).copy _ = _
    rw [byteAt, haddr, byteAt]
    refine ⟨hused', ?_⟩
    by_cases hblock : i / BSIZE = off / BSIZE
    · have hblock' : i / 512 = off / 512 := hblock
      rw [hblock, ← hb, hself, ha, byte_memmove, if_neg]
      show ¬(off % 512 ≤ i % 512 ∧ i % 512 < off % 512 + m)
      omega
    · have hne : addrAt s.blocks (s.icache k).copy (i / BSIZE) ≠ b :=
        fun heq => hblock (addrAt_inj h.alive h.nodup hused' heq)
      exact congrArg (fun a => Block.byte a i) (update_of_ne hne _ _)

/-- The loop of writei from the offset `off`, when `n - tot` bytes are left. -/
theorem ends_writeFrom_bytes {n turns off tot : ℕ} (h : Owned L s k R) (htot : tot ≤ n)
    (hturns : n ≤ tot + turns) (hend : off + (n - tot) ≤ MAXFILE * BSIZE) :
    Ends Full (writeFrom L k src n turns off tot) s fun r t => r = off + (n - tot) ∧
      Owned L t k R ∧ Grows k R s t ∧ Wrote k s t off (n - tot) fun i => src (tot + i) := by
  induction turns generalizing s off tot with
  | zero =>
    have hdone : n - tot = 0 := by omega
    unfold writeFrom
    rw [if_neg (by omega), ends_pure, hdone]
    exact ⟨rfl, h, Grows.refl k R s, Wrote.refl ..⟩
  | succ turns ih =>
    unfold writeFrom
    by_cases hlt : tot < n
    · rw [if_pos hlt]
      have hbn : off / BSIZE < MAXFILE := Nat.div_lt_of_lt_mul (by rw [Nat.mul_comm]; omega)
      refine ends_bind ((ends_bmap_maps h hbn).mono fun b t ht => ?_)
      obtain ⟨ht, hgrows, hmaps, rfl, hne⟩ := ht
      rw [ends_modify_bind]
      set m := min (n - tot) (BSIZE - off % BSIZE) with hm
      have hmod : off % BSIZE < BSIZE := Nat.mod_lt off (by decide)
      have hmpos : 0 < m := by omega
      have hmle : m ≤ n - tot := Nat.min_le_left _ _
      set b := addrAt t.blocks (t.icache k).copy (off / BSIZE)
      set a := (t.blocks b).memmove (off % BSIZE) (fun i => src (tot + i)) m
      have hblock : Wrote k t (t.setBlock b a) off m fun i => src (tot + i) :=
        wrote_setBlock ht hne (by omega)
      obtain ⟨hu, hgrows'⟩ := ht.setData (data_of_addrAt ht hne) a
      refine (ih hu (by omega) (by omega) (by omega)).mono fun r v hv => ?_
      obtain ⟨hr, hv, hgrows'', hwrote⟩ := hv
      refine ⟨by omega, hv, (hgrows.trans hgrows').trans hgrows'', ?_⟩
      have hrest : Wrote k (t.setBlock b a) v (off + m) (n - (tot + m))
          fun i => src (tot + (m + i)) := by
        simp only [← Nat.add_assoc]
        exact hwrote
      have hsplit : n - tot = m + (n - (tot + m)) := by omega
      rw [hsplit]
      exact hmaps.wrote (hblock.append hrest)
    · have hdone : n - tot = 0 := by omega
      rw [if_neg hlt, ends_pure, hdone]
      exact ⟨rfl, h, Grows.refl k R s, Wrote.refl ..⟩

end Writing

section Contents

variable {L : Layout} {s t : Fs} {k : Slot} {R : Multiset ℕ} {src : ℕ → UInt8} {off n : ℕ}
  {blocks blocks' : ℕ → Block} {d : Dinode}

theorem length_content (blocks : ℕ → Block) (d : Dinode) : (content blocks d).length = d.size := by
  rw [content, length_map, length_range]

theorem getElem?_content {i : ℕ} (hi : i < d.size) :
    (content blocks d)[i]? = some (byteAt blocks d i) := by
  rw [content, getElem?_map, getElem?_range hi, map_some]

theorem content_congr (halive : d.type ≠ 0) (hwhole : Whole blocks d)
    (h : ∀ b ∈ addrsOf blocks d, blocks' b = blocks b) :
    content blocks' d = content blocks d ∧ Whole blocks' d := by
  have haddr : ∀ bn, addrAt blocks' d bn = addrAt blocks d bn :=
    addrAt_congr fun hind => h _ (indirect_mem halive hind)
  refine ⟨map_congr_left fun i hi => ?_, hwhole.size_le, fun i hi => ?_⟩
  · have hused := hwhole.allocated i (List.mem_range.mp hi)
    rw [byteAt, haddr, h _ (addrAt_mem halive hused), byteAt]
  · rw [haddr]
    exact hwhole.allocated i hi

/-- The file with the bytes that were written and the size that follows from them. -/
theorem Wrote.content (h : Wrote k s t off n src) (hwhole : Whole s.blocks (s.icache k).copy)
    (hoff : off ≤ (s.icache k).copy.size) (hend : off + n ≤ MAXFILE * BSIZE)
    (haddrs : d.addrs = (t.icache k).copy.addrs)
    (hsize : d.size = max (s.icache k).copy.size (off + n)) :
    content t.blocks d = write (content s.blocks (s.icache k).copy) off ((List.range n).map src) ∧
      Whole t.blocks d := by
  have haddr (bn : ℕ) : addrAt t.blocks d bn = addrAt t.blocks (t.icache k).copy bn := by
    simp only [addrAt, haddrs]
  have hbyte (i : ℕ) : byteAt t.blocks d i = byteAt t.blocks (t.icache k).copy i := by
    rw [byteAt, haddr, byteAt]
  have hlength : ((List.range n).map src).length = n := by
    rw [length_map, length_range]
  have hold := length_content s.blocks (s.icache k).copy
  constructor
  · refine eq_write (by omega) ?_ fun i hi => ?_
    · rw [length_content, hold, hlength, hsize]
    rw [length_content, hsize] at hi
    rw [getElem?_content (by omega), hbyte, hlength]
    by_cases hin : off ≤ i ∧ i < off + n
    · have hwritten := (h.inside (i - off) (by omega)).2
      have hpos : off + (i - off) = i := by omega
      rw [hpos] at hwritten
      rw [if_pos hin, hwritten, getElem?_map, getElem?_range (by omega), map_some]
    · have hlt : i < (s.icache k).copy.size := by omega
      rw [if_neg hin, (h.outside i (by omega) (hwhole.allocated i hlt)).2, getElem?_content hlt]
  · refine ⟨?_, fun i hi => ?_⟩
    · have := hwhole.size_le
      omega
    rw [haddr]
    by_cases hin : off ≤ i ∧ i < off + n
    · have hwritten := (h.inside (i - off) (by omega)).1
      have hpos : off + (i - off) = i := by omega
      rw [hpos] at hwritten
      exact hwritten
    · exact (h.outside i (by omega) (hwhole.allocated i (by omega))).1

/-- The unsigned sum is below its first term exactly when it wraps. -/
theorem uint32_add_lt_iff (hoff : off < 2 ^ 32) (hn : n < 2 ^ 32) :
    uint32 (off + n) < off ↔ 2 ^ 32 ≤ off + n := by
  rw [uint32]
  omega

theorem uint32_add (h : ¬2 ^ 32 ≤ off + n) : uint32 (off + n) = off + n :=
  Nat.mod_eq_of_lt (by omega)

theorem maxfile_lt : MAXFILE * BSIZE < 2 ^ 31 := by decide

/-- A file after writei, with the entry of its inode as the only one that changed. -/
structure Extended (k : Slot) (R : Multiset ℕ) (s t : Fs) (file : List UInt8) : Prop where
  whole : Whole t.blocks (t.icache k).copy
  content : content t.blocks (t.icache k).copy = file
  blocks : ∀ b ∈ R, t.blocks b = s.blocks b
  dinodes : ∀ i ≠ (s.icache k).inum, t.dinodes i = s.dinodes i
  icache : ∃ a size, t.icache = update s.icache k
    { s.icache k with copy := { (s.icache k).copy with addrs := a, size := size } }

/-- writei within the bounds writes the bytes, or the disk is full. -/
theorem ends_writei_bytes (h : Owned L s k R) (hwhole : Whole s.blocks (s.icache k).copy)
    (hdev : (s.icache k).copy.type ≠ T_DEV) (hoff : off ≤ (s.icache k).copy.size)
    (hend : off + n ≤ MAXFILE * BSIZE) :
    Ends Full (writei L k src off n) s fun r t => r = n ∧ Extended k R s t
      (write (FileBytes.content s.blocks (s.icache k).copy) off ((List.range n).map src)) := by
  have hmax := maxfile_lt
  have hsum : uint32 (off + n) = off + n := uint32_add (by omega)
  unfold writei
  rw [ends_get_bind]
  dsimp only
  rw [if_neg hdev, hsum, if_neg (by omega), if_neg (by omega)]
  refine ends_bind ((ends_writeFrom_bytes h (Nat.zero_le n) (by omega) ?_).mono fun r t ht => ?_)
  · rw [Nat.sub_zero]
    exact hend
  obtain ⟨rfl, _, hgrows, hwrote⟩ := ht
  simp only [Nat.sub_zero, Nat.zero_add] at hwrote ⊢
  obtain ⟨a, ha⟩ := hgrows.icache
  have hslot : (t.icache k).copy = { (s.icache k).copy with addrs := a } := by
    rw [ha, update_self]
  by_cases hlong : 0 < n ∧ (s.icache k).copy.size < off + n
  · rw [if_pos hlong, ends_modify_bind]
    unfold iupdate
    rw [ends_modify_bind, ends_pure]
    set e : Dinode := { (t.icache k).copy with size := off + n } with he
    have hself : (t.setCopy k e).icache k = { t.icache k with copy := e } := update_self ..
    have hsize : e.size = max (s.icache k).copy.size (off + n) := by
      change off + n = _
      omega
    obtain ⟨hcontent, hwhole'⟩ := hwrote.content hwhole hoff hend (d := e) rfl hsize
    refine ⟨rfl, ?_, ?_, hgrows.blocks, fun i hi => ?_, a, off + n, ?_⟩
    · change Whole t.blocks ((t.setCopy k e).icache k).copy
      rw [hself]
      exact hwhole'
    · change FileBytes.content t.blocks ((t.setCopy k e).icache k).copy = _
      rw [hself]
      exact hcontent
    · have hinum : ((t.setCopy k e).icache k).inum = (s.icache k).inum := by
        rw [hself, ha, update_self]
      change update t.dinodes ((t.setCopy k e).icache k).inum _ i = _
      rw [hinum, update_of_ne hi, hgrows.dinodes]
    · change update t.icache k { t.icache k with copy := e } = _
      rw [he, hslot, ha, update_idem, update_self]
  · rw [if_neg hlong]
    have hsize : (t.icache k).copy.size = max (s.icache k).copy.size (off + n) := by
      rw [hslot]
      change (s.icache k).copy.size = _
      omega
    obtain ⟨hcontent, hwhole'⟩ := hwrote.content hwhole hoff hend rfl hsize
    refine ⟨rfl, hwhole', hcontent, hgrows.blocks, fun i _ => by rw [hgrows.dinodes], a,
      (s.icache k).copy.size, ha⟩

/-- readi within the bounds gives the bytes from the offset to the end of the file, and changes
nothing. -/
theorem returns_readi_bytes (hwhole : Whole s.blocks (s.icache k).copy)
    (hdev : (s.icache k).copy.type ≠ T_DEV) (hoff : off ≤ (s.icache k).copy.size)
    (hwrap : ¬2 ^ 32 ≤ off + n) (input : List UInt8) :
    Returns (readi L input k off n) s fun r t => t = s ∧
      r = (((read (FileBytes.content s.blocks (s.icache k).copy) off n).length : ℤ),
        read (FileBytes.content s.blocks (s.icache k).copy) off n) := by
  have hmax := maxfile_lt
  have hsize := hwhole.size_le
  have hlength := length_read (FileBytes.content s.blocks (s.icache k).copy) off n
  rw [length_content] at hlength
  unfold readi
  rw [returns_get_bind]
  dsimp only
  rw [if_neg hdev, uint32_add hwrap, if_neg (by omega)]
  set m := if (s.icache k).copy.size < off + n then (s.icache k).copy.size - off else n with hm
  have hread : m = (read (FileBytes.content s.blocks (s.icache k).copy) off n).length := by
    rw [hm, hlength]
    split <;> omega
  have hused : ∀ i < m - 0, addrAt s.blocks (s.icache k).copy ((off + i) / BSIZE) ≠ 0 := by
    intro i hi
    exact hwhole.allocated (off + i) (by omega)
  refine returns_bind ((returns_readFrom (Nat.zero_le m) (by omega) hused).mono fun bytes t ht => ?_)
  obtain ⟨rfl, rfl⟩ := ht
  rw [returns_pure]
  refine ⟨rfl, ?_⟩
  have hint : int32 m = m := int32_eq_self (by omega) (by omega)
  rw [hint, hread, Nat.sub_zero, Prod.mk.injEq]
  refine ⟨rfl, ext_getElem? fun i => ?_⟩
  by_cases hi : i < (read (FileBytes.content t.blocks (t.icache k).copy) off n).length
  · rw [getElem?_map, getElem?_range hi, map_some, getElem?_read (by omega),
      getElem?_content (by omega)]
  · rw [getElem?_eq_none (by simpa using hi), getElem?_eq_none (by omega)]

theorem readi_refused (hdev : (s.icache k).copy.type ≠ T_DEV)
    (h : (s.icache k).copy.size < off ∨ uint32 (off + n) < off) (input : List UInt8) :
    (readi L input k off n).run s = .ok (-1, []) s := by
  have hrun : Returns (readi L input k off n) s fun r t => r = (-1, []) ∧ t = s := by
    unfold readi
    rw [returns_get_bind]
    dsimp only
    rw [if_neg hdev, if_pos h, returns_pure]
    exact ⟨rfl, rfl⟩
  obtain ⟨r, t, hok, rfl, rfl⟩ := hrun
  exact hok

theorem writei_refused (hdev : (s.icache k).copy.type ≠ T_DEV)
    (h : ((s.icache k).copy.size < off ∨ uint32 (off + n) < off) ∨
      MAXFILE * BSIZE < uint32 (off + n)) :
    (writei L k src off n).run s = .ok (-1) s := by
  have hrun : Returns (writei L k src off n) s fun r t => r = -1 ∧ t = s := by
    unfold writei
    rw [returns_get_bind]
    dsimp only
    rw [if_neg hdev]
    by_cases hrange : (s.icache k).copy.size < off ∨ uint32 (off + n) < off
    · rw [if_pos hrange, returns_pure]
      exact ⟨rfl, rfl⟩
    · rw [if_neg hrange, if_pos (h.resolve_left hrange), returns_pure]
      exact ⟨rfl, rfl⟩
  obtain ⟨r, t, hok, rfl, rfl⟩ := hrun
  exact hok

end Contents

end KernelLabs.FileBytes

import KernelLabs.DiskBlocks
import KernelLabs.OwnerMarks

/-!
Which blocks an inode owns, and what the functions of the block and inode layers do to
the owners. The function works for the inode whose copy is in one cache entry; the
blocks of everything else, the other inodes and the metadata, are a multiset that is
carried along. Every block is marked exactly when one of the two names it, and the
function keeps this and the content of the blocks of the others.
-/
namespace KernelLabs.BlockOwners

open PanicMonad OwnerMarks DiskBlocks Function List Multiset

def direct (d : Dinode) : Multiset ℕ :=
  entries (finRange NDIRECT) fun j => d.addrs j.castSucc

def indirect (blocks : ℕ → Block) (d : Dinode) : Multiset ℕ :=
  if d.addrs INDIRECT = 0 then 0
  else d.addrs INDIRECT ::ₘ entries (finRange NINDIRECT) (blocks (d.addrs INDIRECT)).uints

/-- The blocks of an inode; an inode of type 0 is not allocated. -/
def addrsOf (blocks : ℕ → Block) (d : Dinode) : Multiset ℕ :=
  if d.type = 0 then 0 else direct d + indirect blocks d

section Addresses

variable {blocks blocks' : ℕ → Block} {d : Dinode} {b : ℕ}

theorem addrsOf_alive (halive : d.type ≠ 0) : addrsOf blocks d = direct d + indirect blocks d :=
  if_neg halive

theorem addrsOf_dead (hdead : d.type = 0) : addrsOf blocks d = 0 := if_pos hdead

theorem indirect_mem (halive : d.type ≠ 0) (hind : d.addrs INDIRECT ≠ 0) :
    d.addrs INDIRECT ∈ addrsOf blocks d := by
  rw [addrsOf_alive halive, indirect, if_neg hind]
  exact mem_add.mpr (Or.inr (Multiset.mem_cons_self _ _))

/-- Only the content of the indirect block matters. -/
theorem addrsOf_congr
    (h : d.type ≠ 0 → d.addrs INDIRECT ≠ 0 → blocks' (d.addrs INDIRECT) = blocks (d.addrs INDIRECT)) :
    addrsOf blocks' d = addrsOf blocks d := by
  by_cases halive : d.type = 0
  · rw [addrsOf_dead halive, addrsOf_dead halive]
  · rw [addrsOf_alive halive, addrsOf_alive halive, indirect, indirect]
    by_cases hind : d.addrs INDIRECT = 0
    · rw [if_pos hind, if_pos hind]
    · rw [if_neg hind, if_neg hind, h halive hind]

theorem addrsOf_congr_of_mem (h : ∀ b ∈ addrsOf blocks d, blocks' b = blocks b) :
    addrsOf blocks' d = addrsOf blocks d :=
  addrsOf_congr fun halive hind => h _ (indirect_mem halive hind)

/-- A zeroed block whose address is put in an empty place of addrs. -/
theorem addrsOf_addrs {j : Fin (NDIRECT + 1)} (halive : d.type ≠ 0) (hempty : d.addrs j = 0)
    (hb : b ≠ 0) (hblank : blocks b = Block.zero) :
    addrsOf blocks { d with addrs := update d.addrs j b } = b ::ₘ addrsOf blocks d := by
  rw [addrsOf_alive (d := { d with addrs := update d.addrs j b }) halive, addrsOf_alive halive]
  induction j using Fin.lastCases with
  | last =>
    have hdirect : direct { d with addrs := update d.addrs INDIRECT b } = direct d := by
      refine entries_congr fun j _ => ?_
      exact update_of_ne (Fin.castSucc_ne_last j) _ _
    rw [hdirect, indirect, indirect, if_pos hempty]
    simp only [update_self, if_neg hb, hblank, Block.uints_zero]
    rw [entries_zero fun _ _ => rfl, add_cons]
  | cast j =>
    have hdirect : direct { d with addrs := update d.addrs j.castSucc b } =
        b ::ₘ direct d := by
      rw [direct, direct, ← entries_update (nodup_finRange _) (mem_finRange j) hempty hb]
      refine entries_congr fun i _ => ?_
      simp only [update_apply, Fin.castSucc_inj]
    have hind : indirect blocks { d with addrs := update d.addrs j.castSucc b } =
        indirect blocks d := by
      simp only [indirect, update_of_ne (Fin.castSucc_ne_last j).symm]
    rw [hdirect, hind, cons_add]

/-- An address that is put in an empty place of the indirect block. -/
theorem addrsOf_entry {j : Fin NINDIRECT} (halive : d.type ≠ 0) (hind : d.addrs INDIRECT ≠ 0)
    (hempty : (blocks (d.addrs INDIRECT)).uints j = 0) (hb : b ≠ 0) (hlt : b < 2 ^ 32) :
    addrsOf (update blocks (d.addrs INDIRECT) ((blocks (d.addrs INDIRECT)).setUint j b)) d =
      b ::ₘ addrsOf blocks d := by
  rw [addrsOf_alive halive, addrsOf_alive halive, indirect, indirect, if_neg hind, if_neg hind,
    update_self, Block.uints_setUint hlt,
    entries_update (nodup_finRange _) (mem_finRange j) hempty hb, cons_swap,
    add_cons]

theorem addrsOf_blank (hblank : d.addrs = fun _ => 0) : addrsOf blocks d = 0 := by
  by_cases halive : d.type = 0
  · exact addrsOf_dead halive
  · rw [addrsOf_alive halive, direct, indirect, hblank, if_pos rfl, entries_zero fun _ _ => rfl,
      Multiset.zero_add]

theorem direct_mem {j : Fin NDIRECT} (hj : d.addrs j.castSucc ≠ 0) :
    d.addrs j.castSucc ∈ direct d :=
  mem_entries.mpr ⟨hj, j, mem_finRange j, rfl⟩

end Addresses

/-- The panics that do not tell of a broken disk: a resource has run out, the inode is
free, the caller holds no reference, or the file would be too long. -/
def Panics (e : String) : Prop :=
  e ∈ ["balloc: out of blocks", "ialloc: no inodes", "iget: no inodes", "ilock", "ilock: no type",
    "bmap: out of range"]

theorem panics_full : Panics "balloc: out of blocks" := by simp [Panics]

variable {E : String → Prop} {Q : ℕ → Fs → Prop}

section Allocator

variable {L : Layout} {s : Fs} {X : Multiset ℕ} {b : ℕ}

theorem ends_balloc (hfull : E "balloc: out of blocks") (hX : Marked s.bitmap (· < L.size) X)
    (hQ : ∀ b, b ∉ X → b < L.size → Marked (s.mark b true).bitmap (· < L.size) (b ::ₘ X) →
      Q b ((s.mark b true).setBlock b Block.zero)) :
    Ends E (balloc L) s Q := by
  unfold balloc
  rw [ends_get_bind]
  split
  · exact hfull
  · rename_i b hfind
    have hfree : s.bitmap b = false := by simpa using List.find?_some hfind
    have hlt : b < L.size := List.mem_range.mp (mem_of_find?_eq_some hfind)
    rw [ends_set_bind, bzero, ends_modify_bind, ends_pure]
    exact hQ b (hX.fresh hfree) hlt (hX.take hlt hfree)

theorem ends_bfree (hX : Marked s.bitmap (· < L.size) (b ::ₘ X)) {Q : Unit → Fs → Prop}
    (hQ : Marked (s.mark b false).bitmap (· < L.size) X → Q () (s.mark b false)) :
    Ends Panics (bfree b) s Q := by
  have hused := hX.used_of_mem (Multiset.mem_cons_self b X)
  unfold bfree
  rw [ends_get_bind, if_neg (by rw [hused]; decide), ends_set]
  exact hQ hX.drop

end Allocator

/-- The inode in a cache entry and the others with the blocks `R` share the disk. -/
structure Owned (L : Layout) (s : Fs) (k : Slot) (R : Multiset ℕ) : Prop where
  alive : (s.icache k).copy.type ≠ 0
  zero_mem : 0 ∈ R
  marked : Marked s.bitmap (· < L.size) (addrsOf s.blocks (s.icache k).copy + R)

/-- What bmap leaves alone: all but addrs of one entry and the blocks of that inode. -/
structure Grows (k : Slot) (R : Multiset ℕ) (s t : Fs) : Prop where
  dinodes : t.dinodes = s.dinodes
  icache : ∃ a, t.icache =
    update s.icache k { s.icache k with copy := { (s.icache k).copy with addrs := a } }
  blocks : ∀ b ∈ R, t.blocks b = s.blocks b

section Growing

variable {L : Layout} {s t u : Fs} {k : Slot} {R : Multiset ℕ} {b : ℕ}

theorem Grows.refl (k : Slot) (R : Multiset ℕ) (s : Fs) : Grows k R s s where
  dinodes := rfl
  icache := ⟨(s.icache k).copy.addrs, (update_eq_self k s.icache).symm⟩
  blocks := fun _ _ => rfl

theorem Grows.trans (h : Grows k R s t) (h' : Grows k R t u) : Grows k R s u where
  dinodes := h'.dinodes.trans h.dinodes
  icache := by
    obtain ⟨a, ha⟩ := h.icache
    obtain ⟨a', ha'⟩ := h'.icache
    refine ⟨a', ?_⟩
    rw [ha', ha, update_idem, update_self]
  blocks := fun b hb => (h'.blocks b hb).trans (h.blocks b hb)

theorem Owned.fresh_ne (h : Owned L s k R)
    (hb : b ∉ addrsOf s.blocks (s.icache k).copy + R) : b ≠ 0 := by
  rintro rfl
  exact hb (mem_add.mpr (Or.inr h.zero_mem))

/-- A block outside the inode's own ones may be overwritten. -/
theorem addrsOf_setBlock {d : Dinode} {a : Block} (hb : b ∉ addrsOf s.blocks d) :
    addrsOf (s.setBlock b a).blocks d = addrsOf s.blocks d := by
  refine addrsOf_congr_of_mem fun c hc => update_of_ne ?_ _ _
  rintro rfl
  exact hb hc

theorem grows_setBlock {a : Block} (hb : b ∉ R) : Grows k R s (s.setBlock b a) where
  dinodes := rfl
  icache := (Grows.refl k R s).icache
  blocks := by
    intro c hc
    refine update_of_ne ?_ _ _
    rintro rfl
    exact hb hc

/-- A block that holds data: the inode owns it, and it is not the indirect block. -/
structure Data (s : Fs) (k : Slot) (b : ℕ) : Prop where
  owned : b ∈ addrsOf s.blocks (s.icache k).copy
  ne_indirect : (s.icache k).copy.addrs INDIRECT ≠ 0 → b ≠ (s.icache k).copy.addrs INDIRECT

/-- What bmap keeps of the inode: the addresses in use, and the blocks that hold data. -/
structure Kept (k : Slot) (s t : Fs) : Prop where
  addrs : ∀ i, (s.icache k).copy.addrs i ≠ 0 →
    (t.icache k).copy.addrs i = (s.icache k).copy.addrs i
  uints : (s.icache k).copy.addrs INDIRECT ≠ 0 → ∀ i,
    (s.blocks ((s.icache k).copy.addrs INDIRECT)).uints i ≠ 0 →
      (t.blocks ((s.icache k).copy.addrs INDIRECT)).uints i =
        (s.blocks ((s.icache k).copy.addrs INDIRECT)).uints i
  blocks : ∀ b, Data s k b → t.blocks b = s.blocks b

theorem Kept.refl (k : Slot) (s : Fs) : Kept k s s :=
  ⟨fun _ _ => rfl, fun _ _ _ => rfl, fun _ _ => rfl⟩

section Fresh

variable {c : ℕ} (hfresh : b ∉ addrsOf s.blocks (s.icache k).copy + R)

include hfresh

theorem blocks_fresh (hc : c ∈ addrsOf s.blocks (s.icache k).copy) :
    ((s.mark b true).setBlock b Block.zero).blocks c = s.blocks c := by
  refine update_of_ne ?_ _ _
  rintro rfl
  exact hfresh (mem_add.mpr (Or.inl hc))

theorem grows_fresh : Grows k R s ((s.mark b true).setBlock b Block.zero) :=
  ⟨rfl, (Grows.refl k R s).icache,
    (grows_setBlock (k := k) fun hR => hfresh (mem_add.mpr (Or.inr hR))).blocks⟩

theorem addrsOf_fresh : addrsOf ((s.mark b true).setBlock b Block.zero).blocks (s.icache k).copy =
    addrsOf s.blocks (s.icache k).copy :=
  addrsOf_setBlock fun hown => hfresh (mem_add.mpr (Or.inl hown))

end Fresh

theorem ends_addrOrAlloc {j : Fin (NDIRECT + 1)} (hfull : E "balloc: out of blocks")
    (h : Owned L s k R)
    (hQ : ∀ t, Owned L t k R → Grows k R s t → Kept k s t → (t.icache k).copy.addrs j ≠ 0 →
      ((s.icache k).copy.addrs j ≠ 0 → t = s) → Q ((t.icache k).copy.addrs j) t) :
    Ends E (addrOrAlloc L k j) s Q := by
  unfold addrOrAlloc
  rw [ends_get_bind]
  by_cases hempty : (s.icache k).copy.addrs j = 0
  · rw [if_pos hempty]
    refine ends_bind (ends_balloc hfull h.marked fun b hfresh _ hmarked => ?_)
    rw [ends_modify_bind, ends_pure]
    have hb : b ≠ 0 := h.fresh_ne hfresh
    let u := (s.mark b true).setBlock b Block.zero
    have hslot : (u.setAddr k j b).icache k = { s.icache k with
        copy := { (s.icache k).copy with
          addrs := update (s.icache k).copy.addrs j b } } := update_self _ _ _
    have hbj : ((u.setAddr k j b).icache k).copy.addrs j = b := by
      rw [hslot]
      exact update_self _ _ _
    have hnames : addrsOf (u.setAddr k j b).blocks ((u.setAddr k j b).icache k).copy =
        b ::ₘ addrsOf s.blocks (s.icache k).copy := by
      rw [hslot, ← addrsOf_fresh hfresh]
      exact addrsOf_addrs h.alive hempty hb (update_self _ _ _)
    have howned : Owned L (u.setAddr k j b) k R := by
      refine ⟨by rw [hslot]; exact h.alive, h.zero_mem, ?_⟩
      rw [hnames, cons_add]
      exact hmarked
    have hgrows : Grows k R s (u.setAddr k j b) := ⟨rfl, ⟨_, rfl⟩, (grows_fresh hfresh).blocks⟩
    have hkept : Kept k s (u.setAddr k j b) := by
      refine ⟨fun i hi => ?_, fun hind i _ => ?_, fun c hc => blocks_fresh hfresh hc.owned⟩
      · have hne : i ≠ j := fun heq => hi (heq ▸ hempty)
        rw [hslot]
        exact update_of_ne hne _ _
      · exact congrArg (fun a => Block.uints a i) (blocks_fresh hfresh (indirect_mem h.alive hind))
    have := hQ _ howned hgrows hkept (by rw [hbj]; exact hb) (fun hne => absurd hempty hne)
    rwa [hbj] at this
  · rw [if_neg hempty, ends_pure]
    exact hQ s h (Grows.refl k R s) (Kept.refl k s) hempty fun _ => rfl

theorem ends_entryOrAlloc {j : Fin NINDIRECT} (hfull : E "balloc: out of blocks")
    (h : Owned L s k R) (hind : (s.icache k).copy.addrs INDIRECT ≠ 0)
    (hQ : ∀ b t, Owned L t k R → Grows k R s t → Kept k s t → t.icache = s.icache → b ≠ 0 →
      (t.blocks ((t.icache k).copy.addrs INDIRECT)).uints j = b → Q b t) :
    Ends E (entryOrAlloc L ((s.icache k).copy.addrs INDIRECT) j) s Q := by
  have hmem : (s.icache k).copy.addrs INDIRECT ∈ addrsOf s.blocks (s.icache k).copy :=
    indirect_mem h.alive hind
  unfold entryOrAlloc
  rw [ends_get_bind]
  by_cases hempty : (s.blocks ((s.icache k).copy.addrs INDIRECT)).uints j = 0
  · rw [if_pos hempty]
    refine ends_bind (ends_balloc hfull h.marked fun b hfresh hlt hmarked => ?_)
    rw [ends_modify_bind, ends_pure]
    have hb : b ≠ 0 := h.fresh_ne hfresh
    have hlt32 : b < 2 ^ 32 := by
      have := L.size_lt
      omega
    have hsame := blocks_fresh hfresh hmem
    have hnew := addrsOf_fresh hfresh
    have hgrows := grows_fresh hfresh
    have hdata : ∀ c, Data s k c → ((s.mark b true).setBlock b Block.zero).blocks c = s.blocks c :=
      fun c hc => blocks_fresh hfresh hc.owned
    set ind := (s.icache k).copy.addrs INDIRECT with hindEq
    set u := (s.mark b true).setBlock b Block.zero
    have hindR : ind ∉ R := fun hR' => h.marked.ne_of_mem hmem hR' rfl
    have huints : ((u.setBlock ind ((u.blocks ind).setUint j b)).blocks ind).uints =
        update (s.blocks ind).uints j b := by
      change (update u.blocks ind ((u.blocks ind).setUint j b) ind).uints = _
      rw [update_self, Block.uints_setUint hlt32, hsame]
    have hnames : addrsOf (u.setBlock ind ((u.blocks ind).setUint j b)).blocks (s.icache k).copy =
        b ::ₘ addrsOf s.blocks (s.icache k).copy := by
      rw [← hnew]
      exact addrsOf_entry h.alive hind (by rw [hsame]; exact hempty) hb hlt32
    refine hQ b (u.setBlock ind ((u.blocks ind).setUint j b)) ⟨h.alive, h.zero_mem, ?_⟩
      (hgrows.trans (grows_setBlock hindR)) ⟨fun _ _ => rfl, fun _ i hi => ?_, fun c hc => ?_⟩ rfl
      hb ?_
    · change Marked _ _ (addrsOf (u.setBlock ind ((u.blocks ind).setUint j b)).blocks
        (s.icache k).copy + R)
      rw [hnames, cons_add]
      exact hmarked
    · have hne : i ≠ j := fun heq => hi (heq ▸ hempty)
      rw [huints, update_of_ne hne]
    · rw [← hdata c hc]
      exact update_of_ne (hc.ne_indirect hind) _ _
    · change ((u.setBlock ind ((u.blocks ind).setUint j b)).blocks ind).uints j = b
      rw [huints, update_self]
  · rw [if_neg hempty, ends_pure]
    exact hQ _ s h (Grows.refl k R s) (Kept.refl k s) rfl hempty rfl

theorem Owned.nodup (h : Owned L s k R) : (addrsOf s.blocks (s.icache k).copy).Nodup :=
  (nodup_add.mp h.marked.nodup).1

theorem Owned.data_of_direct (h : Owned L s k R) (hb : b ∈ direct (s.icache k).copy) :
    Data s k b := by
  have hnodup := h.nodup
  rw [addrsOf_alive h.alive] at hnodup
  refine ⟨?_, ?_⟩
  · rw [addrsOf_alive h.alive]
    exact mem_add.mpr (Or.inl hb)
  · rintro hind rfl
    refine Multiset.disjoint_left.mp (nodup_add.mp hnodup).2.2 hb ?_
    rw [indirect, if_neg hind]
    exact Multiset.mem_cons_self _ _

theorem Owned.data_of_entry (h : Owned L s k R) (hind : (s.icache k).copy.addrs INDIRECT ≠ 0)
    (hb : b ∈ entries (finRange NINDIRECT)
      (s.blocks ((s.icache k).copy.addrs INDIRECT)).uints) : Data s k b := by
  have hnodup := h.nodup
  rw [addrsOf_alive h.alive, indirect, if_neg hind] at hnodup
  refine ⟨?_, ?_⟩
  · rw [addrsOf_alive h.alive, indirect, if_neg hind]
    exact mem_add.mpr (Or.inr (Multiset.mem_cons_of_mem hb))
  · rintro - rfl
    exact (Multiset.nodup_cons.mp (nodup_add.mp hnodup).2.1).1 hb

/-- bmap finds the block of this number without a change of addrs. -/
def Backed (d : Dinode) (bn : ℕ) : Prop :=
  if h : bn < NDIRECT then d.addrs ⟨bn, Nat.lt_succ_of_lt h⟩ ≠ 0 else d.addrs INDIRECT ≠ 0

theorem ends_bmap {bn : ℕ} (h : Owned L s k R)
    (hQ : ∀ b t, Owned L t k R → Grows k R s t → Data t k b →
      (Backed (s.icache k).copy bn → t.icache = s.icache) → Q b t) :
    Ends Panics (bmap L k bn) s Q := by
  unfold bmap
  split
  · rename_i hlt
    refine ends_addrOrAlloc panics_full h fun t ht hgrows _ hne hsame => ?_
    refine hQ _ t ht hgrows (ht.data_of_direct (direct_mem (j := ⟨bn, hlt⟩) hne)) fun hbacked => ?_
    rw [Backed, dif_pos hlt] at hbacked
    rw [hsame hbacked]
  · rename_i hge
    split
    · refine ends_bind (ends_addrOrAlloc panics_full h fun t ht hgrows _ hne hsame => ?_)
      refine ends_entryOrAlloc panics_full ht hne fun b u hu hgrows' _ hcache hb hentry => ?_
      have hne' : (u.icache k).copy.addrs INDIRECT ≠ 0 := by rw [hcache]; exact hne
      have hmem := mem_entries.mpr ⟨hb, _, mem_finRange _, hentry⟩
      refine hQ b u hu (hgrows.trans hgrows') (hu.data_of_entry hne' hmem) fun hbacked => ?_
      rw [Backed, dif_neg hge] at hbacked
      rw [hcache, hsame hbacked]
    · rw [ends_throw]
      simp [Panics]

theorem Owned.setData (h : Owned L s k R) (hb : Data s k b) (a : Block) :
    Owned L (s.setBlock b a) k R ∧ Grows k R s (s.setBlock b a) := by
  have hR : b ∉ R := fun hR => h.marked.ne_of_mem hb.owned hR rfl
  have hnames : addrsOf (s.setBlock b a).blocks (s.icache k).copy =
      addrsOf s.blocks (s.icache k).copy := by
    refine addrsOf_congr fun _ hind => update_of_ne ?_ _ _
    exact (hb.ne_indirect hind).symm
  refine ⟨⟨h.alive, h.zero_mem, ?_⟩, grows_setBlock hR⟩
  change Marked s.bitmap (· < L.size) (addrsOf (s.setBlock b a).blocks (s.icache k).copy + R)
  rw [hnames]
  exact h.marked

/-- What the loop of writei does from the offset `off`, when `n - tot` bytes are left. -/
theorem ends_writeFrom {src : ℕ → UInt8} {n turns off tot : ℕ} (h : Owned L s k R)
    (htot : tot ≤ n) (hturns : n ≤ tot + turns)
    (hQ : ∀ t, Owned L t k R → Grows k R s t →
      ((∀ j < n - tot, Backed (s.icache k).copy ((off + j) / BSIZE)) → t.icache = s.icache) →
      Q (off + (n - tot)) t) :
    Ends Panics (writeFrom L k src n turns off tot) s Q := by
  induction turns generalizing s off tot with
  | zero =>
    have hdone : n - tot = 0 := by omega
    unfold writeFrom
    rw [if_neg (by omega), ends_pure]
    have := hQ s h (Grows.refl k R s) fun _ => rfl
    rwa [hdone] at this
  | succ turns ih =>
    unfold writeFrom
    by_cases hlt : tot < n
    · rw [if_pos hlt]
      refine ends_bind (ends_bmap h fun b t ht hgrows hdata hsame => ?_)
      rw [ends_modify_bind]
      set m := min (n - tot) (BSIZE - off % BSIZE) with hm
      have hmpos : 0 < m := by
        have := Nat.mod_lt off (show 0 < BSIZE by decide)
        omega
      have hmle : m ≤ n - tot := Nat.min_le_left _ _
      obtain ⟨hu, hgrows'⟩ := ht.setData hdata
        ((t.blocks b).memmove (off % BSIZE) (fun i => src (tot + i)) m)
      refine ih hu (by omega) (by omega) fun v hv hgrows'' hsame' => ?_
      have hoff : off + m + (n - (tot + m)) = off + (n - tot) := by omega
      rw [hoff]
      refine hQ v hv ((hgrows.trans hgrows').trans hgrows'') fun hbacked => ?_
      have ht' : t.icache = s.icache := hsame (by simpa using hbacked 0 (by omega))
      have hv' : v.icache = t.icache := by
        refine hsame' fun j hj => ?_
        change Backed (t.icache k).copy _
        rw [ht', Nat.add_assoc]
        exact hbacked (m + j) (by omega)
      rw [hv', ht']
    · have hdone : n - tot = 0 := by omega
      rw [if_neg hlt, ends_pure]
      have := hQ s h (Grows.refl k R s) fun _ => rfl
      rwa [hdone] at this

end Growing

section Truncating

variable {L : Layout} {s : Fs} {k : Slot} {R X : Multiset ℕ} {bm : ℕ → Bool}

def trimmed (s : Fs) (k : Slot) (bm : ℕ → Bool) (a : Fin (NDIRECT + 1) → ℕ) : Fs :=
  { s with
    bitmap := bm
    icache := update s.icache k
      { s.icache k with copy := { (s.icache k).copy with addrs := a } } }

@[simp] theorem trimmed_icache (a : Fin (NDIRECT + 1) → ℕ) : (trimmed s k bm a).icache k =
    { s.icache k with copy := { (s.icache k).copy with addrs := a } } := update_self _ _ _

@[simp] theorem mark_trimmed (a : Fin (NDIRECT + 1) → ℕ) (b : ℕ) (used : Bool) :
    (trimmed s k bm a).mark b used = trimmed s k (update bm b used) a := rfl

@[simp] theorem setAddr_trimmed (a : Fin (NDIRECT + 1) → ℕ) (j : Fin (NDIRECT + 1)) (b : ℕ) :
    (trimmed s k bm a).setAddr k j b = trimmed s k bm (update a j b) := by
  simp only [Fs.setAddr, Fs.setCopy, Fs.setInode, trimmed_icache]
  simp only [trimmed, update_idem]

theorem trimmed_self (s : Fs) (k : Slot) : trimmed s k s.bitmap (s.icache k).copy.addrs = s := by
  simp only [trimmed, update_eq_self]

def cleared (a : Fin (NDIRECT + 1) → ℕ) (rest : List (Fin NDIRECT)) : Fin (NDIRECT + 1) → ℕ :=
  Fin.lastCases (a INDIRECT) fun j => if j ∈ rest then a j.castSucc else 0

section Cleared

variable {a : Fin (NDIRECT + 1) → ℕ} {j : Fin NDIRECT} {rest : List (Fin NDIRECT)}

@[simp] theorem cleared_indirect : cleared a rest INDIRECT = a INDIRECT := Fin.lastCases_last

@[simp] theorem cleared_castSucc (j : Fin NDIRECT) :
    cleared a rest j.castSucc = if j ∈ rest then a j.castSucc else 0 := Fin.lastCases_castSucc j

theorem cleared_all : cleared a (finRange NDIRECT) = a := by
  funext i
  induction i using Fin.lastCases with
  | last => exact cleared_indirect
  | cast j => rw [cleared_castSucc, if_pos (mem_finRange j)]

theorem cleared_cons_zero (hzero : a j.castSucc = 0) : cleared a (j :: rest) = cleared a rest := by
  funext i
  induction i using Fin.lastCases with
  | last => rw [cleared_indirect, cleared_indirect]
  | cast i =>
    rw [cleared_castSucc, cleared_castSucc]
    by_cases heq : i = j
    · subst heq
      simp [hzero]
    · simp [heq]

theorem update_cleared_cons (hj : j ∉ rest) :
    update (cleared a (j :: rest)) j.castSucc 0 = cleared a rest := by
  funext i
  induction i using Fin.lastCases with
  | last =>
    rw [update_of_ne (Fin.castSucc_ne_last j).symm, cleared_indirect, cleared_indirect]
  | cast i =>
    rw [cleared_castSucc]
    by_cases heq : i = j
    · subst heq
      rw [update_self, if_neg hj]
    · rw [update_of_ne (fun h => heq (Fin.castSucc_inj.mp h)), cleared_castSucc]
      simp [heq]

theorem update_cleared_nil : update (cleared a []) INDIRECT 0 = fun _ => 0 := by
  funext i
  induction i using Fin.lastCases with
  | last => exact update_self _ _ _
  | cast i =>
    rw [update_of_ne (Fin.castSucc_ne_last i), cleared_castSucc]
    exact if_neg not_mem_nil

end Cleared

variable {a : Fin (NDIRECT + 1) → ℕ}

theorem ends_freeDirect
    (h : Marked bm (· < L.size) (entries (finRange NDIRECT) (fun j => a j.castSucc) + X)) :
    Ends Panics ((finRange NDIRECT).forM (freeDirect k)) (trimmed s k bm a) fun _ t =>
      ∃ bm', t = trimmed s k bm' (cleared a []) ∧ Marked bm' (· < L.size) X := by
  let I (rest : List (Fin NDIRECT)) (t : Fs) : Prop := rest.Nodup ∧ ∃ bm',
    t = trimmed s k bm' (cleared a rest) ∧
    Marked bm' (· < L.size) (entries rest (fun j => a j.castSucc) + X)
  have hloop := ends_forM (E := Panics) (f := freeDirect k) (I := I) (s := trimmed s k bm a) ?_
    (finRange NDIRECT) ?_
  · refine hloop.mono ?_
    rintro _ t ⟨-, bm', rfl, hmarked⟩
    exact ⟨bm', rfl, by simpa [entries] using hmarked⟩
  · rintro j rest t ⟨hnodup, bm', rfl, hmarked⟩
    obtain ⟨hj, hrest⟩ := List.nodup_cons.mp hnodup
    unfold freeDirect
    rw [ends_get_bind]
    simp only [trimmed_icache, cleared_castSucc, List.mem_cons_self, if_true]
    rw [entries_cons] at hmarked
    by_cases hzero : a j.castSucc = 0
    · rw [if_pos hzero, ends_pure]
      rw [if_pos hzero, Multiset.zero_add] at hmarked
      exact ⟨hrest, bm', by rw [cleared_cons_zero hzero], hmarked⟩
    · rw [if_neg hzero, Multiset.add_assoc, singleton_add] at hmarked
      rw [if_neg hzero]
      refine ends_bind (ends_bfree hmarked fun hmarked' => ?_)
      rw [ends_modify, mark_trimmed, setAddr_trimmed, update_cleared_cons hj]
      exact ⟨hrest, _, rfl, hmarked'⟩
  · exact ⟨nodup_finRange _, bm, by rw [cleared_all], h⟩

/-- The blocks named by the words `w` are given back one by one. -/
theorem ends_freeEntry {w : Fin NINDIRECT → ℕ}
    (h : Marked bm (· < L.size) (entries (finRange NINDIRECT) w + X)) :
    Ends Panics ((finRange NINDIRECT).forM (freeEntry w)) (trimmed s k bm a) fun _ t =>
      ∃ bm', t = trimmed s k bm' a ∧ Marked bm' (· < L.size) X := by
  let I (rest : List (Fin NINDIRECT)) (t : Fs) : Prop := ∃ bm',
    t = trimmed s k bm' a ∧ Marked bm' (· < L.size) (entries rest w + X)
  have hloop := ends_forM (E := Panics) (f := freeEntry w) (I := I) (s := trimmed s k bm a) ?_
    (finRange NINDIRECT) ⟨bm, rfl, h⟩
  · refine hloop.mono ?_
    rintro _ t ⟨bm', rfl, hmarked⟩
    exact ⟨bm', rfl, by simpa [entries] using hmarked⟩
  · rintro j rest t ⟨bm', rfl, hmarked⟩
    unfold freeEntry
    rw [entries_cons] at hmarked
    by_cases hzero : w j = 0
    · rw [if_pos hzero, ends_pure]
      rw [if_pos hzero, Multiset.zero_add] at hmarked
      exact ⟨bm', rfl, hmarked⟩
    · rw [if_neg hzero, Multiset.add_assoc, singleton_add] at hmarked
      rw [if_neg hzero]
      exact ends_bfree hmarked fun hmarked' => ⟨_, rfl, hmarked'⟩

/-- The indirect block and the blocks it names are given back. -/
theorem ends_freeIndirect
    (h : Marked bm (· < L.size) (indirect s.blocks { (s.icache k).copy with addrs := a } + R)) :
    Ends Panics (freeIndirect k) (trimmed s k bm (cleared a [])) fun _ t =>
      ∃ bm', t = trimmed s k bm' (fun _ => 0) ∧ Marked bm' (· < L.size) R := by
  unfold freeIndirect
  rw [ends_get_bind]
  simp only [trimmed_icache, cleared_indirect]
  rw [indirect] at h
  by_cases hzero : a INDIRECT = 0
  · rw [if_pos hzero, ends_pure]
    rw [if_pos hzero, Multiset.zero_add] at h
    refine ⟨bm, ?_, h⟩
    rw [← update_cleared_nil (a := a), update_eq_self_iff.mpr]
    rw [cleared_indirect, hzero]
  · rw [if_neg hzero] at h ⊢
    rw [← singleton_add, Multiset.add_comm {_}, Multiset.add_assoc] at h
    refine ends_bind ((ends_freeEntry h).mono ?_)
    rintro _ t ⟨bm', rfl, hmarked⟩
    rw [singleton_add] at hmarked
    refine ends_bind (ends_bfree hmarked fun hmarked' => ?_)
    rw [ends_modify, mark_trimmed, setAddr_trimmed, update_cleared_nil]
    exact ⟨_, rfl, hmarked'⟩

def emptied (d : Dinode) : Dinode := { d with size := 0, addrs := fun _ => 0 }

def truncated (s : Fs) (k : Slot) (bm : ℕ → Bool) : Fs :=
  { s with
    bitmap := bm
    dinodes := update s.dinodes (s.icache k).inum (emptied (s.icache k).copy)
    icache := update s.icache k
      { s.icache k with copy := emptied (s.icache k).copy } }

theorem ends_itrunc (h : Owned L s k R) {Q : Unit → Fs → Prop}
    (hQ : ∀ bm, Marked bm (· < L.size) R → Q () (truncated s k bm)) :
    Ends Panics (itrunc k) s Q := by
  have hmarked := h.marked
  rw [addrsOf_alive h.alive, Multiset.add_assoc] at hmarked
  unfold itrunc
  refine ends_bind ?_
  rw [← trimmed_self s k]
  refine (ends_freeDirect hmarked).mono ?_
  rintro _ t ⟨bm, rfl, hmarked⟩
  refine ends_bind ((ends_freeIndirect hmarked).mono ?_)
  rintro _ t ⟨bm', rfl, hmarked'⟩
  rw [ends_modify_bind, iupdate, ends_modify]
  convert hQ bm' hmarked' using 1
  simp only [Fs.setCopy, Fs.setInode, Fs.setDinode, trimmed, truncated, emptied,
    update_self, update_idem]

end Truncating

end KernelLabs.BlockOwners

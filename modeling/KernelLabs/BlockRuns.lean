import KernelLabs.BlockOwners
import KernelLabs.Runs
import Mathlib.Algebra.Order.BigOperators.Group.Finset
import Mathlib.Algebra.Order.Group.Multiset

/-!
Sequences of inode operations from an image of a disk. Every operation but iget, idup,
ialloc and iput locks the inode it works on. Between two operations every valid copy in
the cache is the inode on the disk, which is what iupdate's comment asks of its
callers; bmap does not call iupdate, so an operation that lets bmap change addrs keeps
this only where iupdate follows, as in a writei that makes the file longer. Then every
block of the data region is marked exactly when one inode names it, once.
-/
namespace KernelLabs.BlockRuns

open Runs PanicMonad OwnerMarks DiskBlocks BlockOwners Function Multiset Finset

/-- The operations. `relabel` is what create, link and unlink do with a locked inode. -/
inductive Call
  | ialloc (type : ℤ)
  | iget (inum : ℕ)
  | idup (k : Slot)
  | iput (k : Slot)
  | bmap (k : Slot) (bn : ℕ)
  | itrunc (k : Slot)
  | writei (k : Slot) (src : ℕ → UInt8) (off n : ℕ)
  | relabel (k : Slot) (major minor nlink : ℤ)

def relabel (k : Slot) (major minor nlink : ℤ) : FsM Unit := do
  modify fun s => s.setCopy k
    { (s.icache k).copy with major := major, minor := minor, nlink := nlink }
  iupdate k

def locked {α : Type} (k : Slot) (body : FsM α) : FsM α := do
  ilock k
  body

def perform (L : Layout) : Call → FsM Unit
  | .ialloc type => do let _ ← ialloc L type
  | .iget inum => do let _ ← iget inum
  | .idup k => do let _ ← idup k
  | .iput k => iput k
  | .bmap k bn => do let _ ← locked k (bmap L k bn)
  | .itrunc k => locked k (itrunc k)
  | .writei k src off n => do let _ ← locked k (writei L k src off n)
  | .relabel k major minor nlink => locked k (relabel k major minor nlink)

/-- The caller holds a reference to the entry it names, and an inode number is one. -/
def Enabled (L : Layout) (s : Fs) : Call → Prop
  | .ialloc _ => True
  | .iget inum => inum < L.ninodes
  | .idup k | .iput k | .bmap k _ | .itrunc k | .writei k _ _ _ | .relabel k _ _ _ =>
    0 < (s.icache k).ref

instance (L : Layout) (s : Fs) : (c : Call) → Decidable (Enabled L s c)
  | .ialloc _ => inferInstanceAs (Decidable True)
  | .iget _ | .idup _ | .iput _ | .bmap _ _ | .itrunc _ | .writei _ _ _ _ | .relabel _ _ _ _ =>
    inferInstanceAs (Decidable (_ < _))

/-- An operation that panics is not completed. -/
def machine (L : Layout) : Machine Fs Call Unit where
  step s c :=
    if Enabled L s c then
      match (perform L c).run s with
      | .ok _ t => some t
      | .error _ _ => none
    else none
  emit _ _ := []

def held (s : Fs) (k : Slot) : Dinode :=
  if (s.icache k).valid = true then (s.icache k).copy else s.dinodes (s.icache k).inum

instance (d : Dinode) (bn : ℕ) : Decidable (Backed d bn) :=
  if h : bn < NDIRECT then
    decidable_of_iff (d.addrs ⟨bn, Nat.lt_succ_of_lt h⟩ ≠ 0) (by rw [Backed, dif_pos h])
  else decidable_of_iff (d.addrs INDIRECT ≠ 0) (by rw [Backed, dif_neg h])

/-- bmap changes addrs only in a writei that makes the file longer. -/
def Flushed (s : Fs) : Call → Prop
  | .bmap k bn => Backed (held s k) bn
  | .writei k _ off n =>
    (held s k).size < off + n ∨ ∀ j < n, Backed (held s k) ((off + j) / BSIZE)
  | _ => True

instance (s : Fs) : (c : Call) → Decidable (Flushed s c)
  | .bmap _ _ => inferInstanceAs (Decidable (Backed _ _))
  | .writei _ _ _ _ => inferInstanceAs (Decidable (_ ∨ _))
  | .ialloc _ | .iget _ | .idup _ | .iput _ | .itrunc _ | .relabel _ _ _ _ =>
    inferInstanceAs (Decidable True)

/-- The inode as the kernel sees it: the valid copy in the cache, or else the disk's. -/
def view (s : Fs) (i : ℕ) : Dinode :=
  match Fin.find? fun k : Slot => decide (0 < (s.icache k).ref ∧ (s.icache k).inum = i ∧
      (s.icache k).valid = true) with
  | some k => (s.icache k).copy
  | none => s.dinodes i

def occurrences (L : Layout) (s : Fs) : Multiset ℕ :=
  ∑ i ∈ Finset.range L.ninodes, addrsOf s.blocks (view s i)

/-- A block of the data region is marked exactly when it occurs once, and none occurs
more often. -/
structure Ownership (L : Layout) (s : Fs) : Prop where
  used_iff : ∀ b < L.size, L.dataStart ≤ b →
    (s.bitmap b = true ↔ (occurrences L s).count b = 1)
  once : ∀ b < L.size, L.dataStart ≤ b → (occurrences L s).count b ≤ 1

/-- A disk on which this holds, before any inode is cached: the metadata is marked,
and all addresses are in the data region. -/
structure Image (L : Layout) (s : Fs) : Prop extends Ownership L s where
  empty : ∀ k, (s.icache k).ref = 0
  metadata : ∀ b < L.dataStart, s.bitmap b = true
  inside : ∀ b ∈ occurrences L s, L.dataStart ≤ b ∧ b < L.size

def others (L : Layout) (s : Fs) (i : ℕ) : Multiset ℕ :=
  Multiset.range L.dataStart +
    ∑ i' ∈ (Finset.range L.ninodes).erase i, addrsOf s.blocks (s.dinodes i')

def total (L : Layout) (s : Fs) : Multiset ℕ :=
  Multiset.range L.dataStart + ∑ i ∈ Finset.range L.ninodes, addrsOf s.blocks (s.dinodes i)

structure Inv (L : Layout) (s : Fs) : Prop where
  clean : ∀ k, 0 < (s.icache k).ref → (s.icache k).valid = true →
    (s.icache k).copy = s.dinodes (s.icache k).inum ∧ (s.icache k).copy.type ≠ 0
  distinct : ∀ k k', 0 < (s.icache k).ref → 0 < (s.icache k').ref →
    (s.icache k).inum = (s.icache k').inum → k = k'
  inum_lt : ∀ k, 0 < (s.icache k).ref → (s.icache k).inum < L.ninodes
  marked : Marked s.bitmap (· < L.size) (total L s)

section Owners

variable {L : Layout} {s t : Fs} {i : ℕ}

theorem total_eq (hi : i < L.ninodes) :
    total L s = addrsOf s.blocks (s.dinodes i) + others L s i := by
  rw [total, others, ← add_sum_erase _ _ (Finset.mem_range.mpr hi), add_left_comm]

theorem zero_mem_others : 0 ∈ others L s i :=
  Multiset.mem_add.mpr (Or.inl (Multiset.mem_range.mpr L.dataStart_pos))

theorem mem_others {i' b : ℕ} (hlt : i' < L.ninodes) (hne : i' ≠ i)
    (hb : b ∈ addrsOf s.blocks (s.dinodes i')) : b ∈ others L s i := by
  have hi' : i' ∈ (Finset.range L.ninodes).erase i := mem_erase.mpr ⟨hne, Finset.mem_range.mpr hlt⟩
  refine Multiset.mem_add.mpr (Or.inr ?_)
  exact mem_of_le (Finset.single_le_sum (f := fun i => addrsOf s.blocks (s.dinodes i))
    (fun _ _ => Multiset.zero_le _) hi') hb

/-- The others are as before when their inodes and their blocks are. -/
theorem others_congr (hdinodes : ∀ i' ≠ i, t.dinodes i' = s.dinodes i')
    (hblocks : ∀ b ∈ others L s i, t.blocks b = s.blocks b) : others L t i = others L s i := by
  rw [others, others]
  congr 1
  refine sum_congr rfl fun i' hi' => ?_
  obtain ⟨hne, hlt⟩ := mem_erase.mp hi'
  rw [hdinodes i' hne]
  exact addrsOf_congr_of_mem fun b hb =>
    hblocks b (mem_others (Finset.mem_range.mp hlt) hne hb)

end Owners

section Steps

variable {L : Layout} {s t : Fs} {k : Slot}

/-- An operation on one inode that ends with the inode on the disk as its entry has it. -/
theorem Inv.settle (h : Inv L s) (href : 0 < (s.icache k).ref) {d : Dinode} {e : Inode}
    (hdinodes : t.dinodes = update s.dinodes (s.icache k).inum d)
    (hicache : t.icache = update s.icache k e) (hinum : e.inum = (s.icache k).inum)
    (hclean : 0 < e.ref → e.valid = true → e.copy = d ∧ d.type ≠ 0)
    (hblocks : ∀ b ∈ others L s (s.icache k).inum, t.blocks b = s.blocks b)
    (hmarked : Marked t.bitmap (· < L.size) (addrsOf t.blocks d + others L s (s.icache k).inum)) :
    Inv L t := by
  have hlt := h.inum_lt k href
  have hself : t.icache k = e := by rw [hicache, update_self]
  have hother : ∀ k' ≠ k, t.icache k' = s.icache k' := fun k' hne => by
    rw [hicache, update_of_ne hne]
  -- an entry in use has the inode number that it had, and was in use or is `k`
  have hold : ∀ k', 0 < (t.icache k').ref →
      0 < (s.icache k').ref ∧ (t.icache k').inum = (s.icache k').inum := by
    intro k' href'
    by_cases hne : k' = k
    · subst hne
      rw [hself]
      exact ⟨href, hinum⟩
    · rw [hother k' hne] at href' ⊢
      exact ⟨href', rfl⟩
  refine ⟨fun k' href' hvalid => ?_, fun k₁ k₂ h₁ h₂ heq => ?_, fun k' href' => ?_, ?_⟩
  · by_cases hne : k' = k
    · subst hne
      rw [hself] at href' hvalid ⊢
      obtain ⟨hcopy, htype⟩ := hclean href' hvalid
      rw [hdinodes, hinum, update_self, hcopy]
      exact ⟨rfl, htype⟩
    · rw [hother k' hne] at href' hvalid ⊢
      have hinums : (s.icache k').inum ≠ (s.icache k).inum := fun heq =>
        hne (h.distinct k' k href' href heq)
      rw [hdinodes, update_of_ne hinums]
      exact h.clean k' href' hvalid
  · obtain ⟨h₁', hi₁⟩ := hold k₁ h₁
    obtain ⟨h₂', hi₂⟩ := hold k₂ h₂
    exact h.distinct k₁ k₂ h₁' h₂' (by rw [← hi₁, ← hi₂, heq])
  · obtain ⟨href'', hi⟩ := hold k' href'
    rw [hi]
    exact h.inum_lt k' href''
  · rw [total_eq hlt, hdinodes, update_self,
      others_congr (s := s) (fun i' hne => by rw [hdinodes, update_of_ne hne]) hblocks]
    exact hmarked

theorem Inv.marked_at (h : Inv L s) (href : 0 < (s.icache k).ref) :
    Marked s.bitmap (· < L.size)
      (addrsOf s.blocks (s.dinodes (s.icache k).inum) + others L s (s.icache k).inum) := by
  rw [← total_eq (h.inum_lt k href)]
  exact h.marked

theorem Inv.owned (h : Inv L s) (href : 0 < (s.icache k).ref) (hvalid : (s.icache k).valid = true) :
    Owned L s k (others L s (s.icache k).inum) := by
  obtain ⟨hcopy, htype⟩ := h.clean k href hvalid
  refine ⟨htype, zero_mem_others, ?_⟩
  rw [hcopy]
  exact h.marked_at href

/-- A change of an entry that leaves its inode number and its copy as they were. -/
theorem Inv.touch (h : Inv L s) (href : 0 < (s.icache k).ref) {ip : Inode}
    (hinum : ip.inum = (s.icache k).inum) (hvalid : ip.valid = (s.icache k).valid)
    (hcopy : ip.copy = (s.icache k).copy) : Inv L (s.setInode k ip) := by
  refine h.settle (k := k) (d := s.dinodes (s.icache k).inum) href
    (update_eq_self _ _).symm rfl hinum ?_ (fun _ _ => rfl) (h.marked_at href)
  intro _ hval
  rw [hvalid] at hval
  obtain ⟨heq, htype⟩ := h.clean k href hval
  rw [hcopy, ← heq]
  exact ⟨rfl, htype⟩

/-- An entry that was not in use takes an inode that no entry in use holds. -/
theorem Inv.recycle (h : Inv L s) {inum : ℕ} (hinum : inum < L.ninodes)
    (hfree : (s.icache k).ref = 0)
    (hnone : ∀ k', 0 < (s.icache k').ref → (s.icache k').inum ≠ inum) :
    Inv L (s.setInode k { s.icache k with inum := inum, ref := 1, valid := false }) := by
  set ip : Inode := { s.icache k with inum := inum, ref := 1, valid := false } with hip
  have hself : (s.setInode k ip).icache k = ip := update_self _ _ _
  have hother : ∀ k' ≠ k, (s.setInode k ip).icache k' = s.icache k' := fun k' hne =>
    update_of_ne hne _ _
  refine ⟨fun k' href hvalid => ?_, fun k₁ k₂ h₁ h₂ heq => ?_, fun k' href => ?_, h.marked⟩
  · have hne : k' ≠ k := by
      rintro rfl
      rw [hself] at hvalid
      cases hvalid
    rw [hother k' hne] at href hvalid ⊢
    exact h.clean k' href hvalid
  · by_cases hk₁ : k₁ = k
    · subst hk₁
      by_contra hne
      rw [hself, hother k₂ (Ne.symm hne)] at heq
      rw [hother k₂ (Ne.symm hne)] at h₂
      exact hnone k₂ h₂ heq.symm
    · rw [hother k₁ hk₁] at h₁ heq
      by_cases hk₂ : k₂ = k
      · subst hk₂
        rw [hself] at heq
        exact absurd heq (hnone k₁ h₁)
      · rw [hother k₂ hk₂] at h₂ heq
        exact h.distinct k₁ k₂ h₁ h₂ heq
  · by_cases hne : k' = k
    · subst hne
      rw [hself]
      exact hinum
    · rw [hother k' hne] at href ⊢
      exact h.inum_lt k' href

variable (h : Inv L s)

include h

theorem ends_iget {inum : ℕ} (hinum : inum < L.ninodes) :
    Ends Panics (iget inum) s fun _ t => Inv L t := by
  unfold iget
  rw [ends_get_bind]
  split
  · rename_i k hk
    have hfound : 0 < (s.icache k).ref := (of_decide_eq_true (Fin.find?_eq_some_iff.mp hk).1).1
    rw [ends_set_bind, ends_pure]
    exact h.touch hfound rfl rfl rfl
  · rename_i hnone
    split
    · rw [ends_throw]
      simp [Panics]
    · rename_i k hk
      rw [ends_set_bind, ends_pure]
      have hfree := of_decide_eq_true (Fin.find?_eq_some_iff.mp hk).1
      refine h.recycle hinum hfree fun k' href heq => ?_
      have hno : 0 < (s.icache k').ref → ¬ (s.icache k').inum = inum := by
        simpa using Fin.find?_eq_none_iff.mp hnone k'
      exact hno href heq

/-- The inode that ialloc takes has no blocks before and none afterwards. -/
theorem Inv.setFresh {inum : ℕ} {type : ℤ} (hinum : inum < L.ninodes)
    (hdead : (s.dinodes inum).type = 0) : Inv L (s.setDinode inum (Dinode.fresh type)) := by
  have hsame : ∀ i, (s.setDinode inum (Dinode.fresh type)).dinodes i =
      if i = inum then Dinode.fresh type else s.dinodes i := fun i => update_apply ..
  refine ⟨fun k href hvalid => ?_, h.distinct, h.inum_lt, ?_⟩
  · obtain ⟨hcopy, htype⟩ := h.clean k href hvalid
    have hne : (s.icache k).inum ≠ inum := by
      rintro rfl
      rw [hcopy] at htype
      exact htype hdead
    rw [hsame]
    change (s.icache k).copy = (if (s.icache k).inum = inum then _ else _) ∧ _
    rw [if_neg hne]
    exact ⟨hcopy, htype⟩
  · have hothers : others L (s.setDinode inum (Dinode.fresh type)) inum = others L s inum :=
      others_congr (fun i hne => by rw [hsame, if_neg hne]) fun _ _ => rfl
    have hfresh : addrsOf s.blocks (Dinode.fresh type) = 0 := addrsOf_blank rfl
    have hmarked := h.marked
    rw [total_eq hinum, addrsOf_dead hdead, zero_add] at hmarked
    rw [total_eq hinum, hsame, if_pos rfl, hothers]
    change Marked s.bitmap _ (addrsOf s.blocks (Dinode.fresh type) + _)
    rw [hfresh, zero_add]
    exact hmarked

theorem ends_ialloc (type : ℤ) : Ends Panics (ialloc L type) s fun _ t => Inv L t := by
  unfold ialloc
  rw [ends_get_bind]
  split
  · rw [ends_throw]
    simp [Panics]
  · rename_i inum hfind
    have hdead : (s.dinodes inum).type = 0 := by simpa using List.find?_some hfind
    have hinum : inum < L.ninodes := by
      have := List.mem_range'_1.mp (List.mem_of_find?_eq_some hfind)
      omega
    rw [ends_set_bind]
    exact ends_iget (h.setFresh hinum hdead) hinum

/-- ilock leaves the invariant, and the body then works on the inode as it is held. -/
theorem ends_locked {α : Type} {body : FsM α} (href : 0 < (s.icache k).ref)
    (hbody : ∀ t, Inv L t → 0 < (t.icache k).ref → (t.icache k).valid = true →
      (t.icache k).copy = held s k → Ends Panics body t fun _ u => Inv L u) :
    Ends Panics (locked k body) s fun _ u => Inv L u := by
  unfold locked ilock
  refine ends_bind ?_
  rw [ends_get_bind, if_neg (by omega)]
  by_cases hvalid : (s.icache k).valid = true
  · rw [if_neg (by rw [hvalid]; decide), ends_pure]
    exact hbody s h href hvalid (by rw [held, if_pos hvalid])
  · rw [if_pos (by simpa using hvalid), ends_set_bind]
    by_cases hdead : (s.dinodes (s.icache k).inum).type = 0
    · rw [if_pos hdead, ends_throw]
      simp [Panics]
    · rw [if_neg hdead, ends_pure]
      set ip : Inode := { s.icache k with copy := s.dinodes (s.icache k).inum, valid := true } with hip
      have hself : (s.setInode k ip).icache k = ip := update_self _ _ _
      have hinv : Inv L (s.setInode k ip) :=
        h.settle (k := k) (d := s.dinodes (s.icache k).inum) href
          (update_eq_self _ _).symm rfl rfl (fun _ _ => ⟨rfl, hdead⟩) (fun _ _ => rfl)
          (h.marked_at href)
      refine hbody _ hinv ?_ ?_ ?_
      · rw [hself]
        exact href
      · rw [hself]
      · rw [hself, held, if_neg hvalid]

/-- What bmap has done is kept where it left the copy alone. -/
theorem Inv.grown (href : 0 < (s.icache k).ref) (hvalid : (s.icache k).valid = true)
    (howned : Owned L t k (others L s (s.icache k).inum))
    (hgrows : Grows k (others L s (s.icache k).inum) s t) (hcache : t.icache = s.icache) :
    Inv L t := by
  obtain ⟨hcopy, htype⟩ := h.clean k href hvalid
  refine h.settle (k := k) (d := (s.icache k).copy) (e := s.icache k) href ?_ ?_ rfl
    (fun _ _ => ⟨rfl, htype⟩) hgrows.blocks ?_
  · rw [hgrows.dinodes, hcopy, update_eq_self]
  · rw [hcache, update_eq_self]
  · have hmarked := howned.marked
    rw [hcache] at hmarked
    exact hmarked

theorem ends_locked_bmap (href : 0 < (s.icache k).ref) {bn : ℕ} (hbacked : Backed (held s k) bn) :
    Ends Panics (locked k (bmap L k bn)) s fun _ t => Inv L t := by
  refine ends_locked h href fun t ht href' hvalid hcopy => ?_
  refine ends_bmap (ht.owned href' hvalid) fun b u hu hgrows _ hsame => ?_
  rw [hcopy] at hsame
  exact ht.grown href' hvalid hu hgrows (hsame hbacked)

/-- writei that makes the file longer writes the inode with the new blocks to the disk. -/
theorem Inv.extended (href : 0 < (s.icache k).ref)
    (howned : Owned L t k (others L s (s.icache k).inum))
    (hgrows : Grows k (others L s (s.icache k).inum) s t) (size : ℕ) :
    Ends Panics (do
      modify fun s => s.setCopy k { (s.icache k).copy with size := size }
      iupdate k) t fun _ u => Inv L u := by
  obtain ⟨a, ha⟩ := hgrows.icache
  have hself : t.icache k = { s.icache k with copy := { (s.icache k).copy with addrs := a } } := by
    rw [ha, update_self]
  set d : Dinode := { (t.icache k).copy with size := size } with hd
  rw [ends_modify_bind, iupdate, ends_modify]
  have hslot : (t.setCopy k d).icache k = { t.icache k with copy := d } := update_self _ _ _
  refine h.settle (k := k) (d := d) (e := { t.icache k with copy := d }) href ?_ ?_ ?_ ?_
    hgrows.blocks ?_
  · rw [hslot]
    change update t.dinodes _ _ = _
    rw [hgrows.dinodes, hself]
  · change update t.icache k _ = _
    nth_rewrite 1 [ha]
    exact update_idem _ _ _
  · rw [hself]
  · exact fun _ _ => ⟨rfl, howned.alive⟩
  · have hnames : addrsOf t.blocks d = addrsOf t.blocks (t.icache k).copy := rfl
    change Marked t.bitmap _ (addrsOf t.blocks d + _)
    rw [hnames]
    exact howned.marked

theorem ends_locked_writei (href : 0 < (s.icache k).ref) {src : ℕ → UInt8} {off n : ℕ}
    (hflushed : (held s k).size < off + n ∨ ∀ j < n, Backed (held s k) ((off + j) / BSIZE)) :
    Ends Panics (locked k (writei L k src off n)) s fun _ t => Inv L t := by
  refine ends_locked h href fun t ht href' hvalid hcopy => ?_
  unfold writei
  rw [ends_get_bind]
  dsimp only
  rw [← hcopy] at hflushed
  split
  · split
    · exact ht
    · exact ht
  split
  · exact ht
  split
  · exact ht
  rename_i hrange _
  have hoff : off ≤ (t.icache k).copy.size := not_lt.mp fun hlt => hrange (Or.inl hlt)
  refine ends_bind (ends_writeFrom (ht.owned href' hvalid) (Nat.zero_le n) (by omega)
    fun u hu hgrows hsame => ?_)
  rw [Nat.sub_zero] at hsame ⊢
  split
  · exact ends_bind ((ht.extended href' hu hgrows (off + n)).mono fun _ _ hv => hv)
  · rename_i hshort
    refine ht.grown href' hvalid hu hgrows (hsame ?_)
    refine hflushed.resolve_left fun hlong => hshort ⟨?_, hlong⟩
    omega

theorem ends_locked_itrunc (href : 0 < (s.icache k).ref) :
    Ends Panics (locked k (itrunc k)) s fun _ t => Inv L t := by
  refine ends_locked h href fun t ht href' hvalid _ => ?_
  have howned := ht.owned href' hvalid
  refine ends_itrunc howned fun bm hmarked => ?_
  refine ht.settle (k := k) href' rfl rfl rfl (fun _ _ => ⟨rfl, howned.alive⟩) (fun _ _ => rfl) ?_
  rw [addrsOf_blank rfl, zero_add]
  exact hmarked

theorem ends_locked_relabel (href : 0 < (s.icache k).ref) {major minor nlink : ℤ} :
    Ends Panics (locked k (relabel k major minor nlink)) s fun _ t => Inv L t := by
  refine ends_locked h href fun t ht href' hvalid _ => ?_
  have howned := ht.owned href' hvalid
  set d : Dinode := { (t.icache k).copy with major := major, minor := minor, nlink := nlink } with hd
  unfold relabel
  rw [ends_modify_bind, iupdate, ends_modify]
  have hslot : (t.setCopy k d).icache k = { t.icache k with copy := d } := update_self _ _ _
  rw [← hd, hslot]
  exact ht.settle (k := k) (d := d) href' rfl rfl rfl (fun _ _ => ⟨rfl, howned.alive⟩)
    (fun _ _ => rfl) howned.marked

theorem ends_iput (href : 0 < (s.icache k).ref) : Ends Panics (iput k) s fun _ t => Inv L t := by
  unfold iput
  rw [ends_get_bind]
  dsimp only
  split
  · rename_i hlast
    have howned := h.owned href hlast.1
    refine ends_bind (ends_itrunc howned fun bm hmarked => ?_)
    rw [ends_modify_bind, iupdate]
    simp only [ends_modify_bind, ends_modify]
    refine h.settle (k := k) (d := { emptied (s.icache k).copy with type := 0 })
      (e := { s.icache k with
        copy := { emptied (s.icache k).copy with type := 0 }
        valid := false
        ref := (s.icache k).ref - 1 }) href ?_ ?_ rfl ?_ (fun _ _ => rfl) ?_
    · simp only [Fs.setInode, Fs.setCopy, Fs.setDinode, truncated, update_self, update_idem]
    · simp only [Fs.setInode, Fs.setCopy, Fs.setDinode, truncated, update_self, update_idem]
    · intro _ hvalid
      cases hvalid
    · rw [addrsOf_dead rfl, zero_add]
      exact hmarked
  · rw [ends_modify]
    exact h.touch href rfl rfl rfl

/-- Every operation that meets the condition keeps the invariant or stops for want of a
resource. -/
theorem Inv.perform {c : Call} (hen : Enabled L s c) (hflushed : Flushed s c) :
    Ends Panics (perform L c) s fun _ t => Inv L t := by
  cases c with
  | ialloc type => exact ends_bind (ends_ialloc h type)
  | iget inum => exact ends_bind (ends_iget h hen)
  | idup k => exact h.touch hen rfl rfl rfl
  | iput k => exact ends_iput h hen
  | bmap k bn => exact ends_bind (ends_locked_bmap h hen hflushed)
  | itrunc k => exact ends_locked_itrunc h hen
  | writei k src off n => exact ends_bind (ends_locked_writei h hen hflushed)
  | relabel k major minor nlink => exact ends_locked_relabel h hen

end Steps

section Images

variable {L : Layout} {s : Fs}

theorem view_eq (h : ∀ k, 0 < (s.icache k).ref → (s.icache k).valid = true →
    (s.icache k).copy = s.dinodes (s.icache k).inum) (i : ℕ) : view s i = s.dinodes i := by
  unfold view
  split
  · rename_i k hk
    obtain ⟨href, hinum, hvalid⟩ := of_decide_eq_true (Fin.find?_eq_some_iff.mp hk).1
    rw [h k href hvalid, hinum]
  · rfl

theorem total_eq_occurrences (h : ∀ i, view s i = s.dinodes i) :
    total L s = Multiset.range L.dataStart + occurrences L s := by
  simp only [total, occurrences, h]

theorem count_total {b : ℕ} (h : ∀ i, view s i = s.dinodes i) (hb : L.dataStart ≤ b) :
    (total L s).count b = (occurrences L s).count b := by
  have hmeta : (Multiset.range L.dataStart).count b = 0 :=
    count_eq_zero.mpr fun hmem => by
      have := Multiset.mem_range.mp hmem
      omega
  rw [total_eq_occurrences h, count_add, hmeta, Nat.zero_add]

theorem Inv.ownership (h : Inv L s) : Ownership L s := by
  have hview := view_eq fun k href hvalid => (h.clean k href hvalid).1
  refine ⟨fun b hlt hb => ?_, fun b _ hb => ?_⟩
  · rw [← count_total hview hb]
    exact h.marked.used_iff_count hlt
  · rw [← count_total hview hb]
    exact h.marked.count_le b

theorem Image.inv (h : Image L s) : Inv L s := by
  have hunused : ∀ k, ¬ 0 < (s.icache k).ref := fun k href => by
    rw [h.empty k] at href
    exact Nat.lt_irrefl 0 href
  have hview := view_eq (s := s) fun k href => absurd href (hunused k)
  have hdata : ∀ b, L.dataStart ≤ b → b < L.size → (b ∈ occurrences L s ↔ s.bitmap b = true) := by
    intro b hb hlt
    rw [h.used_iff b hlt hb, ← count_pos]
    have := h.once b hlt hb
    omega
  refine ⟨fun k href => absurd href (hunused k), fun k _ href => absurd href (hunused k),
    fun k href => absurd href (hunused k), ?_⟩
  rw [total_eq_occurrences hview]
  refine ⟨nodup_add.mpr ⟨nodup_range _, ?_, ?_⟩, ?_, ?_⟩
  · refine nodup_iff_count_le_one.mpr fun b => ?_
    by_cases hb : b ∈ occurrences L s
    · exact h.once b (h.inside b hb).2 (h.inside b hb).1
    · rw [count_eq_zero.mpr hb]
      exact Nat.zero_le 1
  · refine Multiset.disjoint_left.mpr fun hmeta hocc => ?_
    exact absurd (Multiset.mem_range.mp hmeta) (not_lt.mpr (h.inside _ hocc).1)
  · intro b hb
    rcases Multiset.mem_add.mp hb with hmeta | hocc
    · exact lt_of_lt_of_le (Multiset.mem_range.mp hmeta) L.dataStart_le
    · exact (h.inside b hocc).2
  · intro b hlt
    rw [Multiset.mem_add, Multiset.mem_range]
    by_cases hb : b < L.dataStart
    · simp [hb, h.metadata b hb]
    · rw [or_iff_right hb]
      exact (hdata b (not_lt.mp hb) hlt).symm

end Images

theorem Inv.step {L : Layout} {s t : Fs} {c : Call} (h : Inv L s) (hflushed : Flushed s c)
    (hstep : (machine L).step s c = some t) : Inv L t := by
  simp only [machine] at hstep
  split at hstep
  · rename_i hen
    split at hstep
    · rename_i r u hrun
      obtain rfl := Option.some.inj hstep
      exact (h.perform hen hflushed).of_ok hrun
    · cases hstep
  · cases hstep

/-- In every run from a consistent image in which bmap changes the addresses of an inode
only on behalf of a writei that makes the file longer, every block of the data region is
marked exactly when it occurs once among the addresses of the allocated inodes, none
occurs more often, and no operation ends with the panic of bfree. -/
theorem block_ownership {L : Layout} {image s : Fs} {log : List Unit} (himage : Image L image)
    (hrun : (machine L).Run Flushed image log s) :
    Ownership L s ∧ ∀ c, Enabled L s c → Flushed s c → ∀ e t,
      (perform L c).run s = .error e t → Panics e ∧ e ≠ "freeing free block" := by
  have hinv : Inv L s := by
    refine Machine.Run.invariant (P := fun _ s => Inv L s) himage.inv ?_ hrun
    intro _ s c t ih hflushed hstep
    exact ih.step hflushed hstep
  refine ⟨hinv.ownership, fun c hen hflushed e t herror => ?_⟩
  have hpanics : Panics e := (hinv.perform hen hflushed).of_error herror
  refine ⟨hpanics, ?_⟩
  rintro rfl
  simp [Panics] at hpanics

def smallDisk : Layout where
  size := 20
  ninodes := 3
  dataStart := 2
  dataStart_pos := by decide
  dataStart_le := by decide
  size_lt := by decide

/-- Inode 1 is a directory of two blocks, of which only the first is allocated. mkfs
makes such a root directory when the entries fill its last block, because it rounds
the size up to the next block. -/
def holedRoot : Fs where
  bitmap b := decide (b ≤ 2)
  dinodes i :=
    if i = 1 then
      { Dinode.fresh T_DIR with
        nlink := 1, size := 1024, addrs := fun j => if j = 0 then 2 else 0 }
    else Dinode.fresh 0
  blocks _ := Block.zero
  icache _ := { inum := 0, ref := 0, valid := false, copy := Dinode.fresh 0 }

theorem holedRoot_image : Image smallDisk holedRoot where
  used_iff := by decide +kernel
  once := by decide +kernel
  empty _ := rfl
  metadata := by decide +kernel
  inside := by decide +kernel

/-- An entry is written to the second block of the directory and the directory is
given up: the block stays marked, and no inode names it. -/
theorem hole_write_leaks : Image smallDisk holedRoot ∧
    ∃ log s, (machine smallDisk).Run Machine.Free holedRoot log s ∧
      s.bitmap 3 = true ∧ (occurrences smallDisk s).count 3 = 0 ∧ ¬ Ownership smallDisk s := by
  refine ⟨holedRoot_image, ?_⟩
  obtain ⟨log, s, hrun, hused, hzero⟩ :=
    Machine.exists_run_of_exec (machine smallDisk) Machine.Free holedRoot
      [.iget 1, .writei 0 (fun _ => 1) 512 16, .iput 0]
      (fun _ s => s.bitmap 3 = true ∧ (occurrences smallDisk s).count 3 = 0) (by decide +kernel)
  refine ⟨log, s, hrun, hused, hzero, fun h => ?_⟩
  rw [(h.used_iff 3 (by decide) (by decide)).mp hused] at hzero
  cases hzero

/-- A file is made, grows into its indirect block and is given up while it has a link:
its blocks stay marked and named, and a later iput does not meet bfree's panic. -/
theorem block_ownership_indirect :
    ∃ log s, (machine smallDisk).Run Flushed holedRoot log s ∧ s.bitmap 16 = true ∧
      (occurrences smallDisk s).count 16 = 1 ∧
      ∀ e t, (perform smallDisk (.iput 0)).run s = .error e t → e ≠ "freeing free block" := by
  obtain ⟨log, s, hrun, hused, href⟩ :=
    Machine.exists_run_of_exec (machine smallDisk) Flushed holedRoot
      [.ialloc T_FILE, .relabel 0 0 0 1, .writei 0 (fun _ => 1) 0 6145]
      (fun _ s => s.bitmap 16 = true ∧ 0 < (s.icache 0).ref) (by decide +kernel)
  obtain ⟨hown, hpanic⟩ := block_ownership holedRoot_image hrun
  refine ⟨log, s, hrun, hused, (hown.used_iff 16 (by decide) (by decide)).mp hused, ?_⟩
  exact fun e t herror => (hpanic (.iput 0) href trivial e t herror).2

end KernelLabs.BlockRuns

import KernelLabs.UserSizes

/-!
fork copies memory faithfully: what copyuvm has made when it returns a directory. The frames
that the child gets come from the free list, so that they are different from each other and
from all frames of the parent, whatever the walks of the two directories go through.
-/
namespace KernelLabs.ForkCopy

open MachineWords PageWords PanicMonad TableOwners UserPages UserTables UserCalls UserRelease
  UserGrow UserMemory UserSizes List BitVec Option

/-- The frame is the directory, one of its tables or a page mapped below KERNBASE. -/
def FrameOf (m : Mem) (d f : ℕ) : Prop := f = d ∨ UsedAsTable m d f ∨ MappedUser m d f

/-- The directory `d` in `t` is a copy of `pgdir` in `s`. -/
structure Faithful (L : Layout) (pgdir sz : ℕ) (s : Vm) (d : ℕ) (t : Vm) : Prop where
  copied : ∀ b, Aligned b → b < PGROUNDUP sz →
    ∃ f, target (pteAt t.mem d b) = some f ∧ ¬FrameOf s.mem pgdir f ∧
      pteFlags (pteAt t.mem d b) = pteFlags (pteAt s.mem pgdir b) ∧
      t.mem f = s.mem (PGNUM (pteAt s.mem pgdir b))
  distinct : ∀ b b', Aligned b → Aligned b' → b < PGROUNDUP sz → b' < PGROUNDUP sz →
    target (pteAt t.mem d b) = target (pteAt t.mem d b') → b = b'
  others : ∀ b, Aligned b → PGROUNDUP sz ≤ b → b < KERNBASE → ¬Present (pteAt t.mem d b)
  kernel : ∀ (P : Pool L) (R : Multiset ℕ) (s' t' : Vm) (d' : ℕ), Balanced P s' R →
    (setupkvm L).run s' = .ok (some d') t' →
    ∀ b, Aligned b → KERNBASE ≤ b → pteAt t.mem d b = pteAt t'.mem d' b
  parent : ∀ f, FrameOf s.mem pgdir f → t.mem f = s.mem f

variable {L : Layout} {P : Pool L} {R : Multiset ℕ} {s t : Vm} {pgdir sz d : ℕ}

theorem mem_footprint_iff {m : Mem} {f : ℕ} : f ∈ tableFormat.footprint m d ↔ FrameOf m d f := by
  constructor
  · intro h
    rw [Format.footprint_eq] at h
    rcases Multiset.mem_cons.mp h with hdir | hrest
    · exact .inl hdir
    · rcases Multiset.mem_add.mp hrest with htable | hpage
      · obtain ⟨i, hi⟩ := Format.exists_of_mem_tables htable
        exact .inr (.inl ⟨i, target_eq_some.mp hi⟩)
      · obtain ⟨i, j, howns, hleaf⟩ := Format.exists_leaf_of_mem_pages hpage
        have hpte : pteAt m d (addr i j) = tableFormat.leaf m d i j := by
          rw [pteAt, pdx_addr, ptx_addr]
        have huser : addr i j < KERNBASE := (owns_pdx (aligned_addr i j).2).mp (by rwa [pdx_addr])
        rw [← hpte] at hleaf
        exact .inr (.inr ⟨addr i j, huser, target_eq_some.mp hleaf⟩)
  · intro h
    rcases h with rfl | ⟨i, hi⟩ | hpage
    · exact Format.dir_mem_footprint _ _
    · exact Format.table_mem_footprint (target_eq_some.mpr hi)
    · exact mappedUser_mem_footprint hpage

/-- Two user addresses with the same frame are the same page. -/
theorem page_inj {m : Mem} {b b' f : ℕ} (hnodup : (tableFormat.footprint m d).Nodup)
    (hb : Aligned b) (hb' : Aligned b') (huser : b < KERNBASE) (huser' : b' < KERNBASE)
    (h : target (pteAt m d b) = some f) (h' : target (pteAt m d b') = some f) : b = b' := by
  obtain ⟨hd, ht⟩ := Format.leaf_inj hnodup (owns_pdx_of_lt huser) (owns_pdx_of_lt huser') h h'
  exact eq_of_indices hb hb' hd ht

/-- The flags of an entry that is made from the flags of a present one. -/
theorem pteFlags_entry {f : ℕ} {pte : Word} (hf : f < 2 ^ 20) (hpresent : Present pte) :
    pteFlags (entry (f * PGSIZE) (pteFlags pte)) = pteFlags pte := by
  have hflags : Present (pteFlags pte) := by
    rw [present_iff] at hpresent ⊢
    rw [pteFlags_toNat]
    omega
  have hshift : (BitVec.ofNat 32 (f * PGSIZE)).toNat = f <<< 12 := by
    simp only [toNat_ofNat, Nat.shiftLeft_eq, PGSIZE]
    omega
  refine eq_of_toNat_eq ?_
  rw [pteFlags_toNat, entry, BitVec.or_assoc, or_PTE_P hflags, toNat_or, hshift,
    ← Nat.shiftLeft_add_eq_or_of_lt (pteFlags_lt pte), Nat.shiftLeft_eq]
  have := pteFlags_lt pte
  omega

theorem kernel_of_setupkvm {s' t' : Vm} {d' : ℕ} (h : Balanced P s' R)
    (hrun : (setupkvm L).run s' = .ok (some d') t') {b : ℕ} (hb : Aligned b) (hkernel : KERNBASE ≤ b) :
    pteAt t'.mem d' b = kernelPte L b := by
  have hreturns : Returns (setupkvm L) s' fun r t => ∀ d, r = some d →
      pteAt t.mem d b = kernelPte L b := by
    refine returns_setupkvm h (fun t _ _ _ d hd => ?_) fun d t ht d' hd => ?_
    · cases hd
    · obtain rfl := some.inj hd
      exact ht.kernel b hb hkernel
  exact hreturns.of_ok hrun d' rfl

theorem Copied.faithful (h : Copied P R pgdir sz d s t)
    (hparent : ∀ f ∈ tableFormat.footprint s.mem pgdir, f ∈ R)
    (hpresent : ∀ b, Aligned b → b < PGROUNDUP sz → Present (pteAt s.mem pgdir b)) :
    Faithful L pgdir sz s d t := by
  have hround := (roundUp_spec h.le).2.2
  have hle := (roundUp_spec h.le).2.1
  have htarget : ∀ b, Aligned b → b < PGROUNDUP sz →
      ∃ f < 2 ^ 20, pteAt t.mem d b = entry (f * PGSIZE) (pteFlags (pteAt s.mem pgdir b)) ∧
        target (pteAt t.mem d b) = some f := by
    intro b hb hlt
    obtain ⟨⟨f, hf, hpte⟩, -⟩ := h.copied b hb (by omega) ((hround b hb).mp hlt)
    refine ⟨f, hf, hpte, ?_⟩
    rw [hpte]
    exact target_entry hf (pteFlags_lt _)
  refine ⟨?_, ?_, ?_, ?_, ?_⟩
  · intro b hb hlt
    obtain ⟨f, hf, hpte, hframe⟩ := htarget b hb hlt
    have hpage := (h.copied b hb (by omega) ((hround b hb).mp hlt)).2
    have hpar := hpresent b hb hlt
    refine ⟨f, hframe, ?_, ?_, ?_⟩
    · intro hof
      have hmem := Format.pages_subset_footprint (mem_pages_of_target (by omega) hframe)
      exact not_mem_rest h.owned hmem (hparent f (mem_footprint_iff.mpr hof))
    · rw [hpte]
      exact pteFlags_entry hf hpar
    · rw [pageAt_some hframe, pageAt_some (target_eq_some.mpr ⟨hpar, rfl⟩)] at hpage
      exact some.inj hpage
  · intro b b' hb hb' hlt hlt' heq
    obtain ⟨f, -, -, hframe⟩ := htarget b hb hlt
    exact page_inj (footprint_nodup h.owned) hb hb' (by omega) (by omega) hframe (heq ▸ hframe)
  · intro b hb hge huser hpage
    have := (hround b hb).mpr ((h.sized b hb huser).mp hpage)
    omega
  · intro P' R' s' t' d' hbalanced hrun b hb hkernel
    rw [h.kernel b hb hkernel, kernel_of_setupkvm hbalanced hrun hb hkernel]
  · intro f hf
    exact h.kept f (hparent f (mem_footprint_iff.mpr hf))

/-- Every directory that copyuvm returns is a faithful copy of the parent's. -/
theorem copyuvm_faithful (hsz : sz < 2 ^ 32) (h : Balanced P s R)
    (hparent : ∀ f, FrameOf s.mem pgdir f → f ∈ R)
    (hpresent : ∀ b, Aligned b → b < PGROUNDUP sz → Present (pteAt s.mem pgdir b))
    (hrun : (copyuvm L pgdir sz).run s = .ok (some d) t) : Faithful L pgdir sz s d t := by
  have hfoot : ∀ f ∈ tableFormat.footprint s.mem pgdir, f ∈ R :=
    fun f hf => hparent f (mem_footprint_iff.mp hf)
  have hends := ends_copyuvm (Q := fun r t => ∀ d, r = some d → Faithful L pgdir sz s d t) hsz h
    hfoot (fun t _ _ _ d hd => by cases hd) fun d t hcopied d' hd => by
      obtain rfl := some.inj hd
      exact Copied.faithful hcopied hfoot hpresent
  exact hends.of_ok hrun d rfl

/-- The copy of a process with one page, with enough free pages for the tables. -/
theorem copyuvm_faithful_onePage :
    ∃ d t, (copyuvm smallKernel 1024 4096).run (onePage (range' 1027 1500)) = .ok (some d) t ∧
      Faithful smallKernel 1024 4096 (onePage (range' 1027 1500)) d t := by
  have hbalanced : Balanced (onePagePool 1500 (by decide)) (onePage (range' 1027 1500))
      (tableFormat.footprint (onePage (range' 1027 1500)).mem 1024) := by
    have howned := onePage_owned 1500 (by decide)
    rwa [Owned, add_zero] at howned
  have hcopyable : Copyable (onePage (range' 1027 1500)).mem 1024 4096 :=
    ((spans_iff_sized (by decide)).mp (onePage_spans _)).copyable (by decide)
  have hreturns : Returns (copyuvm smallKernel 1024 4096) (onePage (range' 1027 1500))
      fun r _ => ∃ d, r = some d := by
    refine returns_copyuvm hbalanced hcopyable (fun _ hf => hf) (fun t _ _ hshort => ?_)
      fun d t _ => ⟨d, rfl⟩
    have hcard := hshort rfl
    have hframes : (onePagePool 1500 (by decide)).frames.card = 1503 := length_range'
    have hparent : ({1024, 1025, 1026} : Multiset ℕ).card = 3 := rfl
    rw [Short, onePage_footprint, hframes, hparent, NPTENTRIES, PGSIZE] at hcard
    omega
  obtain ⟨r, t, hrun, d, rfl⟩ := hreturns
  refine ⟨d, t, hrun, copyuvm_faithful (by decide) hbalanced (fun f hf => ?_) (fun b hb hlt => ?_) hrun⟩
  · exact mem_footprint_iff.mpr hf
  · exact hcopyable.2 b hb hlt

end KernelLabs.ForkCopy

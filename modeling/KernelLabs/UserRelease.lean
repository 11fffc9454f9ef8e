import KernelLabs.UserCalls

/-!
How pages of a directory go back to the free list: deallocuvm, which skips the entries of
the directory that have no table, freevm, and setupkvm, which calls freevm when one of
the kernel's mappings cannot be made. freevm gives back exactly the footprint.
-/
namespace KernelLabs.UserRelease

open MachineWords PageWords PanicMonad TableOwners UserPages UserTables UserCalls Function Multiset

variable {L : Layout} {P : Pool L} {s : Vm} {R : Multiset ℕ} {d : ℕ}

/-- The pages from `lo` up to `hi` are not mapped, the walks of the others end where they
did, with the contents of the user pages, and `R` is untouched. -/
structure Cleared (P : Pool L) (R : Multiset ℕ) (d lo hi : ℕ) (s t : Vm) : Prop where
  owned : Owned P R d t
  kept : ∀ f ∈ R, t.mem f = s.mem f
  gone : ∀ b, Aligned b → lo ≤ b → b < hi → ¬ Present (pteAt t.mem d b)
  others : ∀ b, Aligned b → b < lo ∨ hi ≤ b → pteAt t.mem d b = pteAt s.mem d b
  pages : ∀ b, Aligned b → b < KERNBASE → b < lo ∨ hi ≤ b → pageAt t.mem d b = pageAt s.mem d b
  supplied : Supplied s t

theorem Owned.cleared {lo hi : ℕ} (h : Owned P R d s)
    (hgone : ∀ b, Aligned b → lo ≤ b → b < hi → ¬ Present (pteAt s.mem d b)) :
    Cleared P R d lo hi s s :=
  ⟨h, fun _ _ => rfl, hgone, fun _ _ _ => rfl, fun _ _ _ _ => rfl, id⟩

/-- Two stretches, one after the other; the first may reach beyond `hi` if it changes
nothing there. -/
theorem Cleared.trans {t u : Vm} {lo mid hi : ℕ} (hst : Cleared P R d lo mid s t)
    (htu : Cleared P R d mid hi t u) (hlo : lo ≤ mid)
    (hbeyond : ∀ b, Aligned b → hi ≤ b → b < mid →
      pteAt t.mem d b = pteAt s.mem d b ∧ pageAt t.mem d b = pageAt s.mem d b) :
    Cleared P R d lo hi s u where
  owned := htu.owned
  kept f hf := (htu.kept f hf).trans (hst.kept f hf)
  gone b hb hlow hhigh := by
    by_cases hmid : mid ≤ b
    · exact htu.gone b hb hmid hhigh
    · rw [htu.others b hb (.inl (by omega))]
      exact hst.gone b hb hlow (by omega)
  others b hb hout := by
    rw [htu.others b hb (by omega)]
    by_cases hmid : hi ≤ b ∧ b < mid
    · exact (hbeyond b hb hmid.1 hmid.2).1
    · exact hst.others b hb (by omega)
  pages b hb hbuser hout := by
    rw [htu.pages b hb hbuser (by omega)]
    by_cases hmid : hi ≤ b ∧ b < mid
    · exact (hbeyond b hb hmid.1 hmid.2).2
    · exact hst.pages b hb hbuser (by omega)
  supplied := hst.supplied.trans htu.supplied

variable {Q : Unit → Vm → Prop}

/-- A mapped user page goes to the free list, and its entry is cleared after that. -/
theorem cleared_unmap {a f p : ℕ} (h : Owned P R d s) (ha : Aligned a) (huser : a < KERNBASE)
    (htable : target (s.mem d (pdx a)) = some f) (hpage : target (s.mem f (ptx a)) = some p)
    (hQ : ∀ t, Cleared P R d a (a + PGSIZE) s (t.setWord f (ptx a) 0) → Q () t) :
    Returns (kfree L p) s Q := by
  have hnodup := footprint_nodup h
  have howns := owns_pdx_of_lt huser
  have hfoot : p ::ₘ tableFormat.footprint (store s.mem f (ptx a) 0) d =
      tableFormat.footprint s.mem d := by
    have hstore := Format.footprint_store (j := ptx a) (w := 0) hnodup htable howns
    have hzero : tableFormat.held 0 = 0 := Format.held_none tableFormat.target_blank
    rw [Format.held_some (F := tableFormat) hpage, hzero, add_zero] at hstore
    rw [← hstore, ← Multiset.singleton_add, add_comm]
  rw [Owned, ← hfoot, cons_add] at h
  refine returns_kfree h fun t ht hmem hsupplied => hQ t ?_
  obtain ⟨hp, hrest⟩ := Multiset.nodup_cons.mp h.nodup
  have hpf : f ≠ p := by
    rintro rfl
    exact (Format.page_ne hnodup (Format.mem_pages htable howns hpage)).2 _ htable
  -- the memory differs from the one store only at the freed page
  have hagree : ∀ g, g ≠ p → (t.setWord f (ptx a) 0).mem g = store s.mem f (ptx a) 0 g := by
    intro g hg
    by_cases hgf : g = f
    · subst hgf
      simp only [Vm.setWord, store, update_self, hmem g hg]
    · simp only [Vm.setWord, store, update_of_ne hgf, hmem g hg]
  have hsame : ∀ g ∈ tableFormat.footprint (store s.mem f (ptx a) 0) d,
      (t.setWord f (ptx a) 0).mem g = store s.mem f (ptx a) 0 g := by
    intro g hg
    refine hagree g ?_
    rintro rfl
    exact hp (Multiset.mem_add.mpr (.inl hg))
  have hothers : ∀ b, Aligned b → b < a ∨ a + PGSIZE ≤ b →
      pteAt (store s.mem f (ptx a) 0) d b = pteAt s.mem d b := by
    intro b hb hout
    have hba : b ≠ a := by
      rw [PGSIZE] at hout
      omega
    exact Format.leaf_store_ne hnodup htable fun hi => hba (eq_of_indices hb ha hi.1 hi.2)
  have hpte : ∀ b, pteAt (t.setWord f (ptx a) 0).mem d b = pteAt (store s.mem f (ptx a) 0) d b :=
    fun b => Format.leaf_congr hsame _ _
  refine ⟨ht.congr rfl (by rw [Format.footprint_congr hsame]), fun g hg => ?_, fun b hb hlo hhi => ?_,
    fun b hb hout => (hpte b).trans (hothers b hb hout), fun b hb hbuser hout => ?_, hsupplied⟩
  · have hgp : g ≠ p := by
      rintro rfl
      exact hp (Multiset.mem_add.mpr (.inr hg))
    have hgf : g ≠ f := by
      rintro rfl
      refine Multiset.disjoint_left.mp (nodup_add.mp hrest).2.2 ?_ hg
      have hmem' : g ∈ p ::ₘ tableFormat.footprint (store s.mem g (ptx a) 0) d :=
        hfoot ▸ Format.table_mem_footprint htable
      exact (Multiset.mem_cons.mp hmem').resolve_left hgp
    rw [hagree g hgp, store_ne hgf]
  · have hba : b = a := by
      simp only [Aligned, PGSIZE] at ha hb hhi
      omega
    subst hba
    rw [hpte, pteAt, Format.leaf_store_self hnodup htable]
    decide
  · refine pageAt_congr ((hpte b).trans (hothers b hb hout)) fun g hg => ?_
    have hgpages := mem_pages_of_target hbuser ((congrArg target (hothers b hb hout)).trans hg)
    have hgp : g ≠ p := by
      rintro rfl
      exact hp (Multiset.mem_add.mpr (.inl (Format.pages_subset_footprint hgpages)))
    have hgf : g ≠ f := by
      rintro rfl
      exact (Format.page_ne hnodup (mem_pages_of_target hbuser hg)).2 _ htable
    rw [hagree g hgp, store_ne hgf]

def nextEntry (a : ℕ) : ℕ := ((pdx a).val + 1) * 2 ^ 22

theorem nextEntry_spec {a : ℕ} (h : a < KERNBASE) :
    uint32 (uint32 (((pdx a).val + 1) * 2 ^ 22 + 2 ^ 32 - PGSIZE) + PGSIZE) = nextEntry a ∧
      Aligned (nextEntry a) ∧ a + PGSIZE ≤ nextEntry a + a % PGSIZE ∧
      ∀ b, a ≤ b → b < nextEntry a → pdx b = pdx a := by
  have hval : (pdx a).val = a / 2 ^ 22 := by
    simp only [pdx, NPTENTRIES, KERNBASE] at *
    omega
  refine ⟨?_, ?_, ?_, fun b hab hb => Fin.ext ?_⟩
  · simp only [nextEntry, hval, uint32, PGSIZE, KERNBASE] at *
    omega
  · simp only [Aligned, nextEntry, hval, PGSIZE, KERNBASE] at *
    omega
  · simp only [nextEntry, hval, PGSIZE, KERNBASE] at *
    omega
  · simp only [nextEntry, hval] at hb ⊢
    simp only [pdx, NPTENTRIES, KERNBASE] at *
    omega

theorem returns_deallocFrom {oldsz : ℕ} (hold : oldsz ≤ KERNBASE) (turns : ℕ) {a : ℕ}
    (hturns : oldsz ≤ a + turns * PGSIZE) (ha : Aligned a) (h : Owned P R d s)
    (hQ : ∀ t, Cleared P R d a oldsz s t → Q () t) :
    Returns (deallocFrom L d oldsz (turns + 1) a) s Q := by
  have hdone : oldsz ≤ a → Q () s := fun hle => hQ s (Owned.cleared h fun b _ hlo hhi => by omega)
  induction turns generalizing a s with
  | zero =>
    have hle : oldsz ≤ a := by omega
    rw [deallocFrom, if_neg (by omega), returns_pure]
    exact hdone hle
  | succ turns ih =>
    rw [deallocFrom]
    by_cases hlt : a < oldsz
    · have huser : a < KERNBASE := by omega
      have hnext := ha.next (by rw [KERNBASE] at huser; rw [PGSIZE]; omega)
      have hturns' : oldsz ≤ a + PGSIZE + turns * PGSIZE := by
        rw [Nat.add_mul, one_mul] at hturns
        omega
      -- the rest of the loop, from the next page on
      have hrest : ∀ t, Cleared P R d a (a + PGSIZE) s t →
          Returns (deallocFrom L d oldsz (turns + 1) (uint32 (a + PGSIZE))) t Q := by
        intro t ht
        have hbeyond : ∀ b, Aligned b → oldsz ≤ b → b < a + PGSIZE →
            pteAt t.mem d b = pteAt s.mem d b ∧ pageAt t.mem d b = pageAt s.mem d b := by
          intro b hb hlo hhi
          simp only [Aligned, PGSIZE] at hb ha hhi
          omega
        rw [hnext.2]
        have hQ' : ∀ u, Cleared P R d (a + PGSIZE) oldsz t u → Q () u := fun u hu =>
          hQ u (ht.trans hu (Nat.le_add_right _ _) hbeyond)
        exact ih hturns' hnext.1 ht.owned hQ' fun hle =>
          hQ' t (Owned.cleared ht.owned fun b _ hlo hhi => by omega)
      rw [if_pos hlt]
      cases htable : target (s.mem d (pdx a)) with
      | none =>
        obtain ⟨hjump, haligned, hge, hpdx⟩ := nextEntry_spec huser
        have hgone : ∀ b, Aligned b → a ≤ b → b < nextEntry a → ¬ Present (pteAt s.mem d b) := by
          intro b _ hlo hhi
          have hb : tableFormat.target (s.mem d (pdx b)) = none := by rw [hpdx b hlo hhi]; exact htable
          rw [pteAt, Format.leaf_none hb]
          decide
        refine returns_bind (returns_walkpgdir_absent htable ?_)
        dsimp only
        rw [hjump]
        have hge' : a + PGSIZE ≤ nextEntry a := by rwa [ha.1, add_zero] at hge
        have hQ' : ∀ u, Cleared P R d (nextEntry a) oldsz s u → Q () u := fun u hu =>
          hQ u ((Owned.cleared h hgone).trans hu (by omega) fun _ _ _ _ => ⟨rfl, rfl⟩)
        exact ih (by omega) haligned h hQ' fun hle =>
          hQ' s (Owned.cleared h fun b _ hlo hhi => by omega)
      | some f =>
        refine returns_bind (returns_walkpgdir_present htable ?_)
        simp only [returns_get_bind]
        cases hpage : target (s.mem f (ptx a)) with
        | none =>
          rw [if_neg (target_eq_none.mp hpage)]
          refine hrest s (Owned.cleared h fun b hb hlo hhi => ?_)
          obtain rfl : b = a := by
            simp only [Aligned, PGSIZE] at hb ha hhi
            omega
          rw [pteAt, Format.leaf_some htable]
          exact target_eq_none.mp hpage
        | some p =>
          obtain ⟨hp, rfl⟩ := target_eq_some.mp hpage
          have hfree : Freeable L (PGNUM (s.mem f (ptx a))) := by
            refine h.freeable (Multiset.mem_add.mpr (.inl ?_))
            exact Format.page_mem_footprint htable (owns_pdx_of_lt huser) hpage
          have hne : PTE_ADDR (s.mem f (ptx a)) ≠ 0 := by
            intro hzero
            have hpos := pos_of_freeable hfree
            rw [← PGNUM_PTE_ADDR, hzero] at hpos
            exact absurd hpos (by decide)
          rw [if_pos hp, if_neg hne, PGNUM_PTE_ADDR]
          refine returns_bind (cleared_unmap h ha huser htable hpage fun t ht => ?_)
          rw [returns_modify_bind]
          exact hrest _ ht
    · rw [if_neg hlt, returns_pure]
      exact hdone (by omega)

theorem roundUp_spec {sz : ℕ} (h : sz ≤ KERNBASE) :
    Aligned (PGROUNDUP sz) ∧ PGROUNDUP sz ≤ KERNBASE ∧
      ∀ b, Aligned b → (b < PGROUNDUP sz ↔ b < sz) := by
  refine ⟨?_, ?_, fun b hb => ?_⟩
  · simp only [Aligned, PGROUNDUP, uint32, PGSIZE, KERNBASE] at *
    omega
  · simp only [PGROUNDUP, uint32, PGSIZE, KERNBASE] at *
    omega
  · simp only [Aligned, PGROUNDUP, uint32, PGSIZE, KERNBASE] at *
    omega

theorem returns_deallocuvm {oldsz newsz : ℕ} (hold : oldsz ≤ KERNBASE) (hnew : newsz < oldsz)
    (h : Owned P R d s) {Q : ℕ → Vm → Prop}
    (hQ : ∀ t, Cleared P R d (PGROUNDUP newsz) oldsz s t → Q newsz t) :
    Returns (deallocuvm L d oldsz newsz) s Q := by
  obtain ⟨haligned, hle, -⟩ := roundUp_spec (show newsz ≤ KERNBASE by omega)
  obtain ⟨turns, hturns⟩ := exists_turns
  rw [deallocuvm, if_neg (by omega), hturns]
  refine returns_bind (returns_deallocFrom hold turns ?_ haligned h fun t ht => ?_)
  · rw [KERNBASE] at hold
    rw [PGSIZE]
    omega
  · rw [returns_pure]
    exact hQ t ht

/-- The loop of freevm gives back the tables that are left in the list. -/
theorem returns_freeTables (l : List (Fin NPTENTRIES)) (words : Fin NPTENTRIES → Word)
    (hwords : s.mem d = words)
    (h : Balanced P s ((l.map fun i => tableFormat.held (words i)).sum + d ::ₘ R))
    (hQ : ∀ t, Balanced P t (d ::ₘ R) → (∀ f ∈ R, t.mem f = s.mem f) → Q () t) :
    Returns (freeTables L d l) s Q := by
  induction l generalizing s with
  | nil =>
    rw [freeTables, returns_pure]
    rw [List.map_nil, List.sum_nil, zero_add] at h
    exact hQ s h fun _ _ => rfl
  | cons i rest ih =>
    rw [List.map_cons, List.sum_cons, add_assoc] at h
    rw [freeTables]
    simp only [returns_get_bind, hwords]
    cases htable : target (words i) with
    | none =>
      rw [Format.held_none (F := tableFormat) htable, zero_add] at h
      rw [if_neg (target_eq_none.mp htable)]
      exact returns_bind ((returns_pure _).mpr (ih hwords h hQ))
    | some f =>
      obtain ⟨hp, rfl⟩ := target_eq_some.mp htable
      rw [Format.held_some (F := tableFormat) htable, Multiset.singleton_add] at h
      have hnot := (Multiset.nodup_cons.mp h.nodup).1
      rw [if_pos hp, PGNUM_PTE_ADDR]
      refine returns_bind (returns_kfree h fun t ht hmem _ => ?_)
      have hd : d ≠ PGNUM (words i) := by
        intro heq
        exact hnot (Multiset.mem_add.mpr (.inr (heq ▸ Multiset.mem_cons_self _ _)))
      refine ih ((hmem d hd).trans hwords) ht fun u hu hkept => hQ u hu fun f hf => ?_
      rw [hkept f hf, hmem f]
      rintro rfl
      exact hnot (Multiset.mem_add.mpr (.inr (Multiset.mem_cons_of_mem hf)))

/-- freevm gives back the pages of the directory, and no others. -/
theorem returns_freevm (h : Owned P R d s)
    (hQ : ∀ t, Balanced P t R → (∀ f ∈ R, t.mem f = s.mem f) → Q () t) :
    Returns (freevm L d) s Q := by
  rw [freevm]
  refine returns_bind (returns_deallocuvm le_rfl (by decide) h fun t ht => ?_)
  have hpages : tableFormat.pages t.mem d = 0 :=
    pages_eq_zero fun a ha huser => ht.gone a ha (by simp [PGROUNDUP, uint32, PGSIZE]) huser
  have hbalanced := ht.owned
  rw [Owned, Format.footprint_eq, hpages, add_zero, Format.tables_eq, Fin.sum_univ_def,
    cons_add, ← add_cons] at hbalanced
  refine returns_bind (returns_freeTables _ (t.mem d) rfl hbalanced fun u hu hkept => ?_)
  refine returns_kfree hu fun v hv hmem _ => hQ v hv fun f hf => ?_
  have hfd : f ≠ d := by
    rintro rfl
    exact (Multiset.nodup_cons.mp hu.nodup).1 hf
  rw [hmem f hfd, hkept f hf, ht.kept f hf]

/-- The regions of the table kmap: page aligned, above KERNBASE and in ascending order. -/
def Ascending : ℕ → List Kmap → Prop
  | _, [] => True
  | bound, k :: rest =>
    let size := uint32 (k.physEnd + 2 ^ 32 - k.physStart)
    bound ≤ k.virt ∧ k.virt % PGSIZE = 0 ∧ 0 < size ∧ size % PGSIZE = 0 ∧
      k.virt + size ≤ 2 ^ 32 ∧ Ascending (k.virt + size) rest

theorem ascending_kmap (L : Layout) : Ascending KERNBASE (kmap L) := by
  have haligned := L.aligned
  have htext := L.text
  have hdata := L.data_lt
  have hend := L.finish_le
  simp only [kmap, Ascending, uint32, PGSIZE, KERNLINK, KERNBASE, EXTMEM, PHYSTOP, DEVSPACE,
    true_and, and_true] at *
  omega

theorem returns_mappages_kernel {a size pa : ℕ} {perm : Word} (ha : a % PGSIZE = 0)
    (hpos : 0 < size) (hsize : size % PGSIZE = 0) (hmax : a + size ≤ 2 ^ 32)
    (hkernel : KERNBASE ≤ a) (h : Owned P R d s)
    (hclear : ∀ b, Aligned b → a ≤ b → ¬ Present (pteAt s.mem d b)) {Q : ℤ → Vm → Prop}
    (hfail : ∀ t, Owned P R d t → (∀ f ∈ R, t.mem f = s.mem f) → Starved P R d s → Q (-1) t)
    (hdone : ∀ t, KernelRange P R d a pa perm (a + size) s t → Q 0 t) :
    Returns (mappages d a size pa perm) s Q := by
  have hge : PGSIZE ≤ size := Nat.le_of_dvd hpos (Nat.dvd_of_mod_eq_zero hsize)
  have haligned : Aligned a := ⟨ha, by omega⟩
  have hpages : (size / PGSIZE - 1) * PGSIZE = size - PGSIZE := by
    rw [Nat.sub_mul, one_mul, Nat.div_mul_cancel (Nat.dvd_of_mod_eq_zero hsize)]
  rw [mappages, haligned.roundDown, haligned.last hpos hsize hmax]
  refine returns_mapFrom (size / PGSIZE - 1) ?_ haligned ?_ ?_ hkernel h hclear hfail ?_
  · rw [PGSIZE]
    omega
  · rw [hpages]
    omega
  · rw [PGSIZE] at *
    omega
  · rw [Nat.sub_add_cancel (by omega)]
    exact hdone

/-- The entry that a table of kernel mappings gives to the page at `b`. -/
def kernelEntry : List Kmap → ℕ → Word
  | [], _ => 0
  | k :: rest, b =>
    if k.virt ≤ b ∧ b < k.virt + uint32 (k.physEnd + 2 ^ 32 - k.physStart) then
      entry (k.physStart + (b - k.virt)) k.perm
    else kernelEntry rest b

theorem kernelEntry_of_lt {ks : List Kmap} {bound b : ℕ} (hks : Ascending bound ks)
    (hb : b < bound) : kernelEntry ks b = 0 := by
  induction ks generalizing bound with
  | nil => rfl
  | cons k rest ih =>
    obtain ⟨hle, -, -, -, -, hrest⟩ := hks
    rw [kernelEntry, if_neg (by omega)]
    exact ih hrest (by omega)

/-- What the loop of setupkvm over `ks` leaves, when it starts with nothing mapped from `bound`
on. -/
structure KernelMade (P : Pool L) (R : Multiset ℕ) (d bound : ℕ) (ks : List Kmap) (s t : Vm) :
    Prop where
  owned : Owned P R d t
  kept : ∀ f ∈ R, t.mem f = s.mem f
  below : ∀ b, Aligned b → b < bound → pteAt t.mem d b = pteAt s.mem d b
  kernel : ∀ b, Aligned b → bound ≤ b → pteAt t.mem d b = kernelEntry ks b
  entries : ∀ i, tableFormat.owns i = true → t.mem d i = s.mem d i
  supplied : Supplied s t

theorem KernelMade.of_range {t u : Vm} {bound : ℕ} {k : Kmap} {rest : List Kmap}
    (hks : Ascending bound (k :: rest)) (hzero : ∀ b, Aligned b → bound ≤ b → pteAt s.mem d b = 0)
    (hst : KernelRange P R d k.virt k.physStart k.perm
      (k.virt + uint32 (k.physEnd + 2 ^ 32 - k.physStart)) s t)
    (htu : KernelMade P R d (k.virt + uint32 (k.physEnd + 2 ^ 32 - k.physStart)) rest t u) :
    KernelMade P R d bound (k :: rest) s u := by
  obtain ⟨hle, -, hpos, -, -, hrest⟩ := hks
  refine ⟨htu.owned, fun f hf => (htu.kept f hf).trans (hst.kept f hf), fun b hb hlt => ?_,
    fun b hb hge => ?_, fun i hi => (htu.entries i hi).trans (hst.entries i hi),
    hst.supplied.trans htu.supplied⟩
  · rw [htu.below b hb (by omega), hst.others b hb (.inl (by omega))]
  · rw [kernelEntry]
    by_cases hin : k.virt ≤ b ∧ b < k.virt + uint32 (k.physEnd + 2 ^ 32 - k.physStart)
    · rw [if_pos hin, htu.below b hb hin.2, hst.new b hb hin.1 hin.2]
    · rw [if_neg hin]
      by_cases hlow : b < k.virt
      · rw [htu.below b hb (by omega), hst.others b hb (.inl hlow), hzero b hb hge,
          kernelEntry_of_lt hrest (by omega)]
      · exact htu.kernel b hb (by omega)

theorem returns_mapKernel (ks : List Kmap) {bound : ℕ} (hbound : KERNBASE ≤ bound)
    (hks : Ascending bound ks) (h : Owned P R d s)
    (hzero : ∀ b, Aligned b → bound ≤ b → pteAt s.mem d b = 0) {Q : Option Frame → Vm → Prop}
    (hnone : ∀ t, Balanced P t R → (∀ f ∈ R, t.mem f = s.mem f) → Starved P R d s → Q none t)
    (hsome : ∀ t, KernelMade P R d bound ks s t → Q (some d) t) :
    Returns (mapKernel L d ks) s Q := by
  induction ks generalizing bound s with
  | nil =>
    rw [mapKernel, returns_pure]
    exact hsome s ⟨h, fun _ _ => rfl, fun _ _ _ => rfl, hzero, fun _ _ => rfl, id⟩
  | cons k rest ih =>
    have hregion := hks
    obtain ⟨hle, haligned, hpos, hsize, hmax, hrest⟩ := hks
    have hclear : ∀ b, Aligned b → k.virt ≤ b → ¬ Present (pteAt s.mem d b) := by
      intro b hb hkb
      rw [hzero b hb (by omega)]
      decide
    rw [mapKernel]
    refine returns_bind (returns_mappages_kernel haligned hpos hsize hmax (by omega) h hclear
      (fun t ht hkept hstarved => ?_) fun t ht => ?_)
    · rw [if_pos (by decide)]
      refine returns_bind (returns_freevm ht fun u hu hkept' => ?_)
      rw [returns_pure]
      exact hnone u hu (fun f hf => (hkept' f hf).trans (hkept f hf)) hstarved
    · rw [if_neg (by decide)]
      have hzero' : ∀ b, Aligned b → k.virt + uint32 (k.physEnd + 2 ^ 32 - k.physStart) ≤ b →
          pteAt t.mem d b = 0 := by
        intro b hb hge
        rw [ht.others b hb (.inr hge)]
        exact hzero b hb (by omega)
      refine ih (by omega) hrest ht.owned hzero' (fun u hu hkept hstarved => ?_) fun u hu => ?_
      · exact hnone u hu (fun f hf => (hkept f hf).trans (ht.kept f hf))
          (hstarved.of_user ht.supplied ht.user)
      · exact hsome u (.of_range hregion hzero ht hu)

/-- The entry of a page above KERNBASE in every directory that setupkvm makes. -/
def kernelPte (L : Layout) (b : ℕ) : Word := kernelEntry (kmap L) b

/-- A directory as setupkvm makes it: the kernel's mappings, no user pages and no tables for
them. -/
structure Fresh (P : Pool L) (R : Multiset ℕ) (d : ℕ) (s t : Vm) : Prop where
  owned : Owned P R d t
  kept : ∀ f ∈ R, t.mem f = s.mem f
  empty : ∀ b, Aligned b → b < KERNBASE → ¬ Present (pteAt t.mem d b)
  kernel : ∀ b, Aligned b → KERNBASE ≤ b → pteAt t.mem d b = kernelPte L b
  entries : ∀ i, tableFormat.owns i = true → t.mem d i = 0
  supplied : Supplied s t

/-- The pool has too few pages for a directory with user pages below `sz`, with a table for each
of its entries, and one page more besides those of `R`. -/
def Short (P : Pool L) (R : Multiset ℕ) (sz : ℕ) : Prop :=
  P.frames.card ≤ R.card + (NPTENTRIES + 2) + sz / PGSIZE

/-- The user pages of a directory are at most as many as there are pages below `a`. -/
theorem card_pages_le {m : Mem} {a : ℕ} (ha : Aligned a)
    (hnodup : (tableFormat.footprint m d).Nodup)
    (h : ∀ b, Aligned b → b < KERNBASE → Present (pteAt m d b) → b < a) :
    (tableFormat.pages m d).card ≤ a / PGSIZE := by
  have hpages : (tableFormat.pages m d).Nodup := Format.pages_nodup hnodup
  let image := (Finset.range (a / PGSIZE)).image fun n => PGNUM (pteAt m d (n * PGSIZE))
  have hsubset : (tableFormat.pages m d).toFinset ⊆ image := by
    intro f hf
    obtain ⟨i, j, howns, hleaf⟩ := Format.exists_leaf_of_mem_pages (Multiset.mem_toFinset.mp hf)
    have haligned := aligned_addr i j
    have hpte : pteAt m d (addr i j) = tableFormat.leaf m d i j := by
      rw [pteAt, pdx_addr, ptx_addr]
    have huser : addr i j < KERNBASE := (owns_pdx haligned.2).mp (by rwa [pdx_addr])
    obtain ⟨hpresent, hnum⟩ := target_eq_some.mp hleaf
    rw [← hpte] at hpresent hnum
    have hlt := h _ haligned huser hpresent
    refine Finset.mem_image.mpr ⟨addr i j / PGSIZE, ?_, ?_⟩
    · simp only [Finset.mem_range, Aligned, PGSIZE] at *
      omega
    · rw [Nat.div_mul_cancel (Nat.dvd_of_mod_eq_zero haligned.1)]
      exact hnum
  calc (tableFormat.pages m d).card
      = (tableFormat.pages m d).toFinset.card := (Multiset.toFinset_card_of_nodup hpages).symm
    _ ≤ image.card := Finset.card_le_card hsubset
    _ ≤ (Finset.range (a / PGSIZE)).card := Finset.card_image_le
    _ = a / PGSIZE := Finset.card_range _

/-- Where the free list is empty, the pool is used up by the directory and the rest. -/
theorem card_frames_le {u : Vm} {a : ℕ} (ha : Aligned a) (h : Owned P R d u)
    (hfree : u.freelist = [])
    (hpages : ∀ b, Aligned b → b < KERNBASE → Present (pteAt u.mem d b) → b < a) :
    P.frames.card ≤ R.card + (NPTENTRIES + 1) + a / PGSIZE := by
  have hcard : P.frames.card = (tableFormat.footprint u.mem d).card + R.card := by
    rw [← h, hfree, card_add, card_add]
    exact zero_add _
  have hfoot := Format.card_footprint_le (F := tableFormat) u.mem d
  have hle := card_pages_le ha (footprint_nodup h) hpages
  rw [Fintype.card_fin] at hfoot
  omega

/-- setupkvm makes a directory without user pages, or gives back all it has taken. -/
theorem returns_setupkvm (h : Balanced P s R) {Q : Option Frame → Vm → Prop}
    (hnone : ∀ t, Balanced P t R → (∀ f ∈ R, t.mem f = s.mem f) →
      (s.deny = [] → Short P R 0) → Q none t)
    (hsome : ∀ d t, Fresh P R d s t → Q (some d) t) :
    Returns (setupkvm L) s Q := by
  rw [setupkvm]
  refine returns_bind (returns_kalloc h (fun t hmem _ ht hfree => ?_) fun d t hmem hsupplied ht => ?_)
  · rw [returns_pure]
    refine hnone t ht (fun f _ => by rw [hmem]) fun hdeny => ?_
    have hcard : P.frames.card = R.card := by
      rw [← ht, hfree hdeny, card_add]
      exact zero_add _
    rw [Short, Nat.zero_div]
    omega
  · rw [returns_modify_bind, if_neg (by decide)]
    have hblank : ∀ i, (t.setPage d fun _ => 0).mem d i = tableFormat.blank := by
      intro i
      simp only [Vm.setPage, update_self]
      rfl
    have hkept : ∀ f ∈ R, (t.setPage d fun _ => 0).mem f = s.mem f := by
      intro f hf
      rw [← hmem]
      refine update_of_ne ?_ _ _
      rintro rfl
      exact (Multiset.nodup_cons.mp ht.nodup).1 hf
    have howned : Owned P R d (t.setPage d fun _ => 0) := by
      refine ht.congr rfl ?_
      rw [Format.footprint_blank hblank, Multiset.singleton_add]
    have hzero : ∀ b, pteAt (t.setPage d fun _ => 0).mem d b = 0 :=
      fun b => Format.leaf_blank hblank _ _
    have habsent : ¬ Present 0 := by decide
    refine returns_mapKernel (kmap L) le_rfl (ascending_kmap L) howned (fun b _ _ => hzero b)
      (fun u hu hkept' hstarved => ?_) fun u hu => ?_
    · refine hnone u hu (fun f hf => (hkept' f hf).trans (hkept f hf)) fun hdeny => ?_
      obtain ⟨v, hv, hsame, hfree⟩ := hstarved (hsupplied hdeny)
      have hcard := card_frames_le (a := 0) ⟨rfl, by decide⟩ hv hfree fun b hb hbuser hpresent => by
        rw [hsame b hb hbuser, hzero b] at hpresent
        exact absurd hpresent habsent
      rw [Short]
      omega
    · refine hsome d u ⟨hu.owned, fun f hf => (hu.kept f hf).trans (hkept f hf),
        fun b hb hbuser => ?_, hu.kernel, fun i hi => (hu.entries i hi).trans (hblank i),
        hsupplied.trans hu.supplied⟩
      rw [hu.below b hb hbuser, hzero b]
      exact habsent

end KernelLabs.UserRelease

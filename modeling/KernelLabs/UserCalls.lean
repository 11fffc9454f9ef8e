import KernelLabs.PanicMonad
import KernelLabs.UserTables

/-!
What the functions of vm.c on one page directory do to the pages. The frames of a pool
are distinct and ones that kfree accepts; in a balanced state each of them is on the
free list or accounted for by the owners that are named. A specification names the
directory that the function works on and the frames `R` that belong to others or are in
hand: the function keeps the balance and does not write to `R`.
-/
namespace KernelLabs.UserCalls

open MachineWords PageWords PanicMonad TableOwners UserPages UserTables Function Multiset

variable {L : Layout}

/-- The frames that were handed to kfree at boot. -/
structure Pool (L : Layout) where
  frames : Multiset ℕ
  nodup : frames.Nodup
  freeable : ∀ f ∈ frames, Freeable L f

variable {P : Pool L}

/-- The frames of the pool are those on the free list and those of `X`. -/
def Balanced (P : Pool L) (s : Vm) (X : Multiset ℕ) : Prop :=
  (s.freelist : Multiset ℕ) + X = P.frames

variable {f : ℕ}

theorem lt_of_freeable (h : Freeable L f) : f < 2 ^ 20 := by
  rw [Freeable, PHYSTOP, PGSIZE] at h
  omega

theorem pos_of_freeable (h : Freeable L f) : 0 < f := by
  have htext := L.text
  have hdata := L.data_lt
  rw [Freeable, PGSIZE] at h
  rw [KERNLINK, EXTMEM] at htext
  omega

namespace Balanced

variable {s t : Vm} {X : Multiset ℕ}

variable (h : Balanced P s X)

include h

theorem nodup : X.Nodup :=
  nodup_of_le (Multiset.le_add_left _ _) (h ▸ P.nodup)

theorem freeable (hf : f ∈ X) : Freeable L f :=
  P.freeable f (h ▸ mem_add.mpr (.inr hf))

/-- The free list has no duplicates and nothing in common with the owners. -/
theorem freelist_nodup : s.freelist.Nodup :=
  coe_nodup.mp (nodup_of_le (Multiset.le_add_right _ _) (h ▸ P.nodup))

theorem not_mem_of_free (hf : f ∈ s.freelist) : f ∉ X := by
  have hnodup : ((s.freelist : Multiset ℕ) + X).Nodup := h ▸ P.nodup
  exact disjoint_left.mp (nodup_add.mp hnodup).2.2 (mem_coe.mpr hf)

theorem congr {Y : Multiset ℕ} (hfree : t.freelist = s.freelist)
    (hXY : Y = X) : Balanced P t Y := by
  rw [Balanced, hfree, hXY]
  exact h

end Balanced

variable {s : Vm} {X R : Multiset ℕ} {d : ℕ}

/-- Where the environment denies no page, it denies none later. -/
def Supplied (s t : Vm) : Prop := s.deny = [] → t.deny = []

theorem Supplied.trans {t u : Vm} (hst : Supplied s t) (htu : Supplied t u) : Supplied s u :=
  fun h => htu (hst h)

theorem returns_kalloc (h : Balanced P s X) {Q : Option Frame → Vm → Prop}
    (hnone : ∀ t, t.mem = s.mem → Supplied s t → Balanced P t X →
      (s.deny = [] → t.freelist = []) → Q none t)
    (hsome : ∀ r t, t.mem = s.mem → Supplied s t → Balanced P t (r ::ₘ X) → Q (some r) t) :
    Returns kalloc s Q := by
  obtain ⟨mem, freelist, deny⟩ := s
  unfold kalloc
  simp only [returns_get_bind]
  split
  · simp only [returns_set_bind, returns_pure]
    exact hnone _ rfl (fun hdeny => by cases hdeny) h fun hdeny => by cases hdeny
  · simp only [returns_set_bind, returns_pure]
    refine hnone _ rfl ?_ h fun _ => rfl
    rintro rfl
    rfl
  · rename_i r rest _
    simp only [returns_set_bind, returns_pure]
    refine hsome r _ rfl ?_ ?_
    · rintro rfl
      rfl
    rw [Balanced] at h ⊢
    rw [← h, add_cons, ← cons_coe, cons_add]

theorem returns_kfree (h : Balanced P s (f ::ₘ X)) {Q : Unit → Vm → Prop}
    (hQ : ∀ t, Balanced P t X → (∀ g, g ≠ f → t.mem g = s.mem g) → Supplied s t → Q () t) :
    Returns (kfree L f) s Q := by
  have hf : Freeable L f := h.freeable (mem_cons_self f X)
  unfold kfree
  rw [if_neg (not_not_intro hf)]
  simp only [returns_modify_bind, returns_modify]
  refine hQ _ ?_ (fun g hg => update_of_ne hg _ _) id
  rw [Balanced] at h ⊢
  rw [← h, add_cons, ← cons_coe, cons_add]
  rfl

/-- The directory `d` has its pages, and `R` has the others that are not free. -/
abbrev Owned (P : Pool L) (R : Multiset ℕ) (d : ℕ) (s : Vm) : Prop :=
  Balanced P s (tableFormat.footprint s.mem d + R)

/-- The directory `d` is as it was, seen through its walks, with the contents of its user
pages, and `R` is untouched. -/
structure Keeps (P : Pool L) (R : Multiset ℕ) (d : ℕ) (s t : Vm) : Prop where
  owned : Owned P R d t
  kept : ∀ f ∈ R, t.mem f = s.mem f
  same : ∀ a, pteAt t.mem d a = pteAt s.mem d a
  pages : ∀ a, a < KERNBASE → pageAt t.mem d a = pageAt s.mem d a
  supplied : Supplied s t

/-- A call of kalloc has failed. If the environment denies no page, then the free list was
empty, with a directory that had the user part of that in `s`. -/
def Starved (P : Pool L) (R : Multiset ℕ) (d : ℕ) (s : Vm) : Prop :=
  s.deny = [] → ∃ u : Vm, Owned P R d u ∧
    (∀ b, Aligned b → b < KERNBASE → pteAt u.mem d b = pteAt s.mem d b) ∧ u.freelist = []

variable {t : Vm}

theorem Starved.of_user (h : Starved P R d t) (hsupplied : Supplied s t)
    (huser : ∀ b, Aligned b → b < KERNBASE → pteAt t.mem d b = pteAt s.mem d b) :
    Starved P R d s := by
  intro hdeny
  obtain ⟨u, howned, hsame, hfree⟩ := h (hsupplied hdeny)
  exact ⟨u, howned, fun b hb hbuser => (hsame b hb hbuser).trans (huser b hb hbuser), hfree⟩

theorem footprint_nodup (h : Owned P R d s) : (tableFormat.footprint s.mem d).Nodup :=
  (nodup_add.mp h.nodup).1

theorem not_mem_rest (h : Owned P R d s) (hf : f ∈ tableFormat.footprint s.mem d) : f ∉ R :=
  disjoint_left.mp (nodup_add.mp h.nodup).2.2 hf

theorem keeps_of_mem_eq (hmem : t.mem = s.mem) (hsupplied : Supplied s t)
    (h : Balanced P t (tableFormat.footprint s.mem d + R)) : Keeps P R d s t where
  owned := by rwa [Owned, hmem]
  kept f _ := by rw [hmem]
  same a := by rw [hmem]
  pages a _ := by rw [hmem]
  supplied := hsupplied

variable {Q : Option (Frame × Fin NPTENTRIES) → Vm → Prop}

theorem returns_walkpgdir_present {a f : ℕ} {alloc : Bool} (h : target (s.mem d (pdx a)) = some f)
    (hQ : Q (some (f, ptx a)) s) : Returns (walkpgdir d a alloc) s Q := by
  obtain ⟨hp, rfl⟩ := target_eq_some.mp h
  unfold walkpgdir
  simp only [returns_get_bind, if_pos hp, returns_pure, PGNUM_PTE_ADDR]
  exact hQ

theorem returns_walkpgdir_absent {a : ℕ} (h : target (s.mem d (pdx a)) = none) (hQ : Q none s) :
    Returns (walkpgdir d a false) s Q := by
  have hp := target_eq_none.mp h
  unfold walkpgdir
  simp only [returns_get_bind, if_neg hp, Bool.not_false, if_true, returns_pure]
  exact hQ

/-- The frame `r` becomes the table of an entry that has none. -/
theorem keeps_addTable {r : ℕ} {i : Fin NPTENTRIES} (hmem : t.mem = s.mem)
    (hsupplied : Supplied s t)
    (hbalanced : Balanced P t (r ::ₘ (tableFormat.footprint s.mem d + R)))
    (habsent : target (s.mem d i) = none) :
    Keeps P R d s
      ((t.setPage r fun _ => 0).setWord d i (entry (r * PGSIZE) (PTE_W ||| PTE_U))) := by
  obtain ⟨hr, hrest⟩ := nodup_cons.mp hbalanced.nodup
  obtain ⟨hnodup, -, hdisjoint⟩ := nodup_add.mp hrest
  have hrd : r ∉ tableFormat.footprint s.mem d := fun hr' => hr (mem_add.mpr (.inl hr'))
  have htarget : target (entry (r * PGSIZE) (PTE_W ||| PTE_U)) = some r :=
    target_entry (lt_of_freeable (hbalanced.freeable (mem_cons_self _ _))) (by decide)
  have hnew := Format.newTable (F := tableFormat) hnodup habsent htarget hrd
  have hstate : ((t.setPage r fun _ => 0).setWord d i (entry (r * PGSIZE) (PTE_W ||| PTE_U))).mem =
      store (update s.mem r fun _ => tableFormat.blank) d i
        (entry (r * PGSIZE) (PTE_W ||| PTE_U)) := by
    rw [← hmem]
    rfl
  set u := (t.setPage r fun _ => 0).setWord d i (entry (r * PGSIZE) (PTE_W ||| PTE_U))
  have hframe : ∀ f, f ≠ d → f ≠ r → u.mem f = s.mem f := by
    intro f hfd hfr
    rw [hstate, store_ne hfd, update_of_ne hfr]
  have hsame : ∀ a, pteAt u.mem d a = pteAt s.mem d a := by
    intro a
    rw [hstate]
    exact hnew.2 _ _
  refine ⟨hbalanced.congr rfl ?_, fun f hf => hframe f ?_ ?_, hsame, fun a ha => ?_, hsupplied⟩
  · rw [hstate, hnew.1, cons_add]
  · rintro rfl
    exact disjoint_left.mp hdisjoint (Format.dir_mem_footprint _ _) hf
  · rintro rfl
    exact hr (mem_add.mpr (.inr hf))
  · refine pageAt_congr (hsame a) fun f hf => ?_
    have hpage := mem_pages_of_target ha hf
    refine hframe f (Format.page_ne hnodup hpage).1 ?_
    rintro rfl
    exact hrd (Format.pages_subset_footprint hpage)

/-- The walk of the page at `a` has found or made the table `f`. No other entry of the
directory has changed. -/
structure Walked (P : Pool L) (R : Multiset ℕ) (d a f : ℕ) (s t : Vm) : Prop
    extends Keeps P R d s t where
  entries : ∀ i, i ≠ pdx a → t.mem d i = s.mem d i
  table : target (t.mem d (pdx a)) = some f

/-- The walk that allocates: out of memory nothing has changed; otherwise the walks end
where they did, and the entry has a table. -/
theorem returns_walkpgdir (h : Owned P R d s) (a : ℕ)
    (hnone : ∀ t, Keeps P R d s t → Starved P R d s → Q none t)
    (hsome : ∀ t f, Walked P R d a f s t → Q (some (f, ptx a)) t) :
    Returns (walkpgdir d a true) s Q := by
  cases htable : target (s.mem d (pdx a)) with
  | some f =>
    exact returns_walkpgdir_present htable
      (hsome s f ⟨keeps_of_mem_eq rfl id h, fun _ _ => rfl, htable⟩)
  | none =>
    have hp := target_eq_none.mp htable
    unfold walkpgdir
    simp only [returns_get_bind, if_neg hp, Bool.not_true, Bool.false_eq_true, if_false]
    refine returns_bind (returns_kalloc h (fun t hmem hsup ht hfree => ?_) fun r t hmem hsup ht => ?_)
    · simp only [returns_pure]
      have hkeeps := keeps_of_mem_eq hmem hsup ht
      exact hnone t hkeeps fun hdeny =>
        ⟨t, hkeeps.owned, fun b _ _ => hkeeps.same b, hfree hdeny⟩
    · simp only [returns_modify_bind, returns_pure]
      have hkeeps := keeps_addTable hmem hsup ht htable
      have hrd : d ≠ r := by
        rintro rfl
        exact (nodup_cons.mp ht.nodup).1
          (mem_add.mpr (.inl (Format.dir_mem_footprint _ _)))
      refine hsome _ r ⟨hkeeps, fun i hi => ?_, ?_⟩
      · simp only [Vm.setWord, Vm.setPage, update_self, update_of_ne hi, update_of_ne hrd, hmem]
      · simp only [Vm.setWord, update_self]
        exact target_entry (lt_of_freeable (ht.freeable (mem_cons_self _ _))) (by decide)

/-- The walk of the page at `a` ends at `w`, the walks of the other pages where they
did, the user pages have their contents, and `R` is untouched. -/
structure Mapped (P : Pool L) (R : Multiset ℕ) (d a : ℕ) (w : Word) (s t : Vm) : Prop where
  owned : Owned P R d t
  kept : ∀ f ∈ R, t.mem f = s.mem f
  new : pteAt t.mem d a = w
  others : ∀ b, Aligned b → b ≠ a → pteAt t.mem d b = pteAt s.mem d b
  page : a < KERNBASE → pageAt t.mem d a = (target w).map s.mem
  pages : ∀ b, Aligned b → b < KERNBASE → b ≠ a → pageAt t.mem d b = pageAt s.mem d b
  supplied : Supplied s t

variable {perm : Word}

section Store

variable {a f : ℕ} {w : Word} (ha : Aligned a) (htable : target (s.mem d (pdx a)) = some f)

include ha htable

/-- A store to the entry of `a`, apart from what it does to the balance. -/
theorem mapped_of_owned (hnodup : (tableFormat.footprint s.mem d).Nodup) (hR : ∀ g ∈ R, g ≠ f)
    (hw : a < KERNBASE → ∀ p, target w = some p → p ≠ f) (hmem : t.mem = store s.mem f (ptx a) w)
    (hsupplied : Supplied s t) (howned : Owned P R d t) : Mapped P R d a w s t := by
  have hnew : pteAt t.mem d a = w := by
    rw [hmem]
    exact Format.leaf_store_self hnodup htable
  have hothers : ∀ b, Aligned b → b ≠ a → pteAt t.mem d b = pteAt s.mem d b := by
    intro b hb hba
    rw [hmem]
    exact Format.leaf_store_ne hnodup htable fun h => hba (eq_of_indices hb ha h.1 h.2)
  refine ⟨howned, fun g hg => ?_, hnew, hothers, fun huser => ?_, fun b hb hbuser hba => ?_,
    hsupplied⟩
  · rw [hmem, store_ne (hR g hg)]
  · rw [pageAt, hnew]
    cases htarget : target w with
    | none => rfl
    | some p =>
      refine congrArg some ?_
      rw [hmem, store_ne (hw huser p htarget)]
  · refine pageAt_congr (hothers b hb hba) fun g hg => ?_
    have hgf : g ≠ f := by
      rintro rfl
      exact (Format.page_ne hnodup (mem_pages_of_target hbuser hg)).2 _ htable
    rw [hmem, store_ne hgf]

theorem mapped_kernel (h : Owned P R d s) (hkernel : KERNBASE ≤ a) :
    Mapped P R d a w s (s.setWord f (ptx a) w) := by
  have hnodup := footprint_nodup h
  have howns : tableFormat.owns (pdx a) = false := by
    rw [Bool.eq_false_iff, ne_eq, owns_pdx ha.2]
    omega
  have hR : ∀ g ∈ R, g ≠ f := by
    rintro g hg rfl
    exact not_mem_rest h (Format.table_mem_footprint htable) hg
  refine mapped_of_owned ha htable hnodup hR (fun huser => by omega) rfl id (h.congr rfl ?_)
  exact congrArg (· + R) (Format.footprint_store_of_not_owns hnodup htable howns)

/-- Mapping a page below KERNBASE where none was takes the page that was in hand. -/
theorem mapped_user {p : ℕ} (h : Owned P (p ::ₘ R) d s) (huser : a < KERNBASE)
    (hperm : perm.toNat < 2 ^ 12) (hempty : ¬ Present (pteAt s.mem d a)) :
    Mapped P R d a (entry (p * PGSIZE) perm) s
      (s.setWord f (ptx a) (entry (p * PGSIZE) perm)) := by
  have hnodup := footprint_nodup h
  have hp : p < 2 ^ 20 := lt_of_freeable (h.freeable (mem_add.mpr (.inr (mem_cons_self p R))))
  have hR : ∀ g ∈ R, g ≠ f := by
    rintro g hg rfl
    exact not_mem_rest h (Format.table_mem_footprint htable) (mem_cons_of_mem hg)
  have hold : tableFormat.held (s.mem f (ptx a)) = 0 := by
    refine Format.held_none (target_eq_none.mpr ?_)
    rwa [pteAt, Format.leaf_some htable] at hempty
  have hnew : tableFormat.held (entry (p * PGSIZE) perm) = {p} :=
    Format.held_some (target_entry hp hperm)
  have hfoot := Format.footprint_store (j := ptx a) (w := entry (p * PGSIZE) perm) hnodup htable
    (owns_pdx_of_lt huser)
  rw [hold, hnew, add_zero] at hfoot
  have hpf : ∀ g, target (entry (p * PGSIZE) perm) = some g → g ≠ f := by
    rintro g hg rfl
    rw [target_entry hp hperm] at hg
    obtain rfl := Option.some.inj hg
    exact not_mem_rest h (Format.table_mem_footprint htable) (mem_cons_self _ _)
  refine mapped_of_owned ha htable hnodup hR (fun _ => hpf) rfl id (h.congr rfl ?_)
  calc tableFormat.footprint (store s.mem f (ptx a) (entry (p * PGSIZE) perm)) d + R
      = tableFormat.footprint s.mem d + {p} + R := by rw [hfoot]
    _ = tableFormat.footprint s.mem d + p ::ₘ R := by rw [add_assoc, singleton_add]

end Store

theorem returns_mapPage {a pa : ℕ} (h : Owned P R d s)
    (hempty : ¬ Present (pteAt s.mem d a)) {Q : ℤ → Vm → Prop}
    (hfail : ∀ t, Keeps P R d s t → Starved P R d s → Q (-1) t)
    (hdone : ∀ t f, Walked P R d a f s t → Q 0 (t.setWord f (ptx a) (entry pa perm))) :
    Returns (mapPage d a pa perm) s Q := by
  unfold mapPage
  refine returns_bind (returns_walkpgdir h a (fun t ht hstarved => ?_) fun t f ht => ?_)
  · simp only [returns_pure]
    exact hfail t ht hstarved
  · have hleaf : ¬ Present (t.mem f (ptx a)) := by
      rw [← ht.same, pteAt, Format.leaf_some ht.table] at hempty
      exact hempty
    simp only [returns_get_bind, if_neg hleaf, returns_modify_bind, returns_pure]
    exact hdone t f ht

theorem returns_mapFrom_turn {turns last a pa : ℕ} (h : Owned P R d s)
    (hempty : ¬ Present (pteAt s.mem d a)) {Q : ℤ → Vm → Prop}
    (hfail : ∀ t, Keeps P R d s t → Starved P R d s → Q (-1) t)
    (hlast : a = last → ∀ t f, Walked P R d a f s t → Q 0 (t.setWord f (ptx a) (entry pa perm)))
    (hnext : a ≠ last → ∀ t f, Walked P R d a f s t →
      Returns (mapFrom d last perm turns (uint32 (a + PGSIZE)) (uint32 (pa + PGSIZE)))
        (t.setWord f (ptx a) (entry pa perm)) Q) :
    Returns (mapFrom d last perm (turns + 1) a pa) s Q := by
  rw [mapFrom]
  refine returns_bind (returns_mapPage h hempty (fun t ht hstarved => ?_) fun t f ht => ?_)
  · rw [if_pos (by decide), returns_pure]
    exact hfail t ht hstarved
  · rw [if_neg (by decide)]
    by_cases ha : a = last
    · rw [if_pos ha, returns_pure]
      exact hlast ha t f ht
    · rw [if_neg ha]
      exact hnext ha t f ht

theorem Keeps.mapped {t u : Vm} {a : ℕ} {w : Word} {R' : Multiset ℕ} (hst : Keeps P R d s t)
    (htu : Mapped P R' d a w t u) (hR : ∀ f ∈ R', f ∈ R)
    (hw : a < KERNBASE → ∀ p, target w = some p → p ∈ R) : Mapped P R' d a w s u where
  owned := htu.owned
  kept f hf := (htu.kept f hf).trans (hst.kept f (hR f hf))
  new := htu.new
  others b hb hba := (htu.others b hb hba).trans (hst.same b)
  page huser := by
    rw [htu.page huser]
    cases htarget : target w with
    | none => rfl
    | some p => exact congrArg some (hst.kept p (hw huser p htarget))
  pages b hb hbuser hba := (htu.pages b hb hbuser hba).trans (hst.pages b hbuser)
  supplied := hst.supplied.trans htu.supplied

/-- The bound on the turns of the loops over pages, in the form that their lemmas take. -/
theorem exists_turns : ∃ turns : ℕ, 2 ^ 20 = turns + 1 := ⟨1048575, rfl⟩

/-- mappages of one user page, with the page `p` in hand. -/
theorem returns_mappages_user {a p : ℕ} (h : Owned P (p ::ₘ R) d s) (ha : Aligned a)
    (huser : a < KERNBASE) (hperm : perm.toNat < 2 ^ 12) (hempty : ¬ Present (pteAt s.mem d a))
    {Q : ℤ → Vm → Prop} (hfail : ∀ t, Keeps P (p ::ₘ R) d s t → Starved P (p ::ₘ R) d s → Q (-1) t)
    (hdone : ∀ t, Mapped P R d a (entry (p * PGSIZE) perm) s t → Q 0 t) :
    Returns (mappages d a PGSIZE (p * PGSIZE) perm) s Q := by
  have hmax : a + PGSIZE ≤ 2 ^ 32 := by
    rw [KERNBASE] at huser
    rw [PGSIZE]
    omega
  have hlast : PGROUNDDOWN (uint32 (a + PGSIZE + 2 ^ 32 - 1)) = a := by
    rw [ha.last (by decide) (by decide) hmax, Nat.add_sub_cancel]
  obtain ⟨turns, hturns⟩ := exists_turns
  rw [mappages, ha.roundDown, hlast, hturns]
  refine returns_mapFrom_turn h hempty hfail (fun _ t f ht => ?_) (absurd rfl)
  have hempty' : ¬ Present (pteAt t.mem d a) := by rwa [ht.same]
  have hp : p < 2 ^ 20 := lt_of_freeable (h.freeable (mem_add.mpr (.inr (mem_cons_self p R))))
  refine hdone _ (ht.mapped (mapped_user ha ht.table ht.owned huser hperm hempty')
    (fun g hg => mem_cons_of_mem hg) fun _ g hg => ?_)
  rw [target_entry hp hperm] at hg
  obtain rfl := Option.some.inj hg
  exact mem_cons_self _ _

/-- What a stretch of kernel mappings below `bound` leaves: the user part is as it was, with its
entries in the directory, and from `bound` on nothing is mapped. -/
structure KernelPart (P : Pool L) (R : Multiset ℕ) (d bound : ℕ) (s t : Vm) : Prop where
  owned : Owned P R d t
  kept : ∀ f ∈ R, t.mem f = s.mem f
  user : ∀ b, Aligned b → b < KERNBASE → pteAt t.mem d b = pteAt s.mem d b
  clear : ∀ b, Aligned b → bound ≤ b → ¬ Present (pteAt t.mem d b)
  entries : ∀ i, tableFormat.owns i = true → t.mem d i = s.mem d i
  supplied : Supplied s t

/-- The kernel mappings of the pages from `a` up to `bound`, which go to the pages from `pa` on. -/
structure KernelRange (P : Pool L) (R : Multiset ℕ) (d a pa : ℕ) (perm : Word) (bound : ℕ)
    (s t : Vm) : Prop extends KernelPart P R d bound s t where
  new : ∀ b, Aligned b → a ≤ b → b < bound → pteAt t.mem d b = entry (pa + (b - a)) perm
  others : ∀ b, Aligned b → b < a ∨ bound ≤ b → pteAt t.mem d b = pteAt s.mem d b

theorem KernelRange.trans {t u : Vm} {a pa bound : ℕ}
    (hbound : a + PGSIZE ≤ bound) (hst : KernelRange P R d a pa perm (a + PGSIZE) s t)
    (htu : KernelRange P R d (a + PGSIZE) (uint32 (pa + PGSIZE)) perm bound t u) :
    KernelRange P R d a pa perm bound s u where
  owned := htu.owned
  kept f hf := (htu.kept f hf).trans (hst.kept f hf)
  user b hb hbuser := (htu.user b hb hbuser).trans (hst.user b hb hbuser)
  clear := htu.clear
  entries i hi := (htu.entries i hi).trans (hst.entries i hi)
  supplied := hst.supplied.trans htu.supplied
  new b hb hlo hhi := by
    by_cases hnext : a + PGSIZE ≤ b
    · have hpa : pa + PGSIZE + (b - (a + PGSIZE)) = pa + (b - a) := by omega
      rw [htu.new b hb hnext hhi, entry_uint32_add, hpa]
    · rw [htu.others b hb (.inl (by omega)), hst.new b hb hlo (by omega)]
  others b hb hout := by
    rw [htu.others b hb (by omega)]
    refine hst.others b hb ?_
    omega

/-- A store above KERNBASE maps one page of the kernel. -/
theorem Walked.kernelRange {a f pa : ℕ} (ht : Walked P R d a f s t) (ha : Aligned a)
    (hkernel : KERNBASE ≤ a) (hclear : ∀ b, Aligned b → a ≤ b → ¬ Present (pteAt s.mem d b)) :
    KernelRange P R d a pa perm (a + PGSIZE) s (t.setWord f (ptx a) (entry pa perm)) := by
  have h : Mapped P R d a (entry pa perm) s (t.setWord f (ptx a) (entry pa perm)) :=
    ht.mapped (mapped_kernel ha ht.table ht.owned hkernel) (fun _ hg => hg) fun huser => by omega
  refine ⟨⟨h.owned, h.kept, fun b hb hbuser => h.others b hb (by omega), fun b hb hbound => ?_,
    fun i hi => ?_, h.supplied⟩, fun b hb hlo hhi => ?_, fun b hb hout => h.others b hb ?_⟩
  · have hne : b ≠ a := by
      rw [PGSIZE] at hbound
      omega
    rw [h.others b hb hne]
    exact hclear b hb (by omega)
  · have hne : d ≠ f := (Format.table_ne_dir (footprint_nodup ht.owned) ht.table).symm
    simp only [Vm.setWord, update_of_ne hne]
    refine ht.entries i ?_
    rintro rfl
    have := (owns_pdx ha.2).mp hi
    omega
  · obtain rfl : b = a := by
      simp only [Aligned, PGSIZE] at ha hb hhi
      omega
    rw [h.new, Nat.sub_self, add_zero]
  · rw [PGSIZE] at hout
    omega

/-- The loop of mappages over `n + 1` pages above KERNBASE. -/
theorem returns_mapFrom {last : ℕ} (n : ℕ) {turns a pa : ℕ} (hturns : n < turns)
    (ha : Aligned a) (hlast : last = a + n * PGSIZE) (hmax : last < 2 ^ 32)
    (hkernel : KERNBASE ≤ a) (h : Owned P R d s)
    (hclear : ∀ b, Aligned b → a ≤ b → ¬ Present (pteAt s.mem d b)) {Q : ℤ → Vm → Prop}
    (hfail : ∀ t, Owned P R d t → (∀ f ∈ R, t.mem f = s.mem f) → Starved P R d s → Q (-1) t)
    (hdone : ∀ t, KernelRange P R d a pa perm (last + PGSIZE) s t → Q 0 t) :
    Returns (mapFrom d last perm turns a pa) s Q := by
  -- the pages that are left; what holds from `a` on moves up by one page with each turn
  induction n generalizing turns a pa s with
  | zero =>
    obtain ⟨turns, rfl⟩ := Nat.exists_eq_succ_of_ne_zero (Nat.pos_iff_ne_zero.mp hturns)
    rw [zero_mul, add_zero] at hlast
    refine returns_mapFrom_turn h (hclear a ha le_rfl)
      (fun t ht hstarved => hfail t ht.owned ht.kept hstarved)
      (fun _ t f ht => ?_) fun hne => absurd hlast.symm hne
    rw [hlast] at hdone
    exact hdone _ (ht.kernelRange ha hkernel hclear)
  | succ n ih =>
    obtain ⟨turns, rfl⟩ := Nat.exists_eq_succ_of_ne_zero (Nat.ne_zero_of_lt hturns)
    refine returns_mapFrom_turn h (hclear a ha le_rfl)
      (fun t ht hstarved => hfail t ht.owned ht.kept hstarved)
      (fun heq => ?_) fun _ t f ht => ?_
    · rw [hlast, PGSIZE] at heq
      omega
    · have hpart : KernelRange P R d a pa perm (a + PGSIZE) s _ :=
        ht.kernelRange ha hkernel hclear
      rw [Nat.add_mul, one_mul, add_comm (n * PGSIZE), ← add_assoc] at hlast
      obtain ⟨haligned, hnext⟩ := ha.next (by omega)
      rw [hnext]
      refine ih (Nat.lt_of_succ_lt_succ hturns) haligned hlast (by omega) hpart.owned hpart.clear
        (fun u hu hkept hstarved => ?_) fun u hu => hdone u (hpart.trans (by omega) hu)
      exact hfail u hu (fun g hg => (hkept g hg).trans (hpart.kept g hg))
        (hstarved.of_user hpart.supplied hpart.user)

end KernelLabs.UserCalls

import KernelLabs.UserRelease

/-!
How a process gets pages: allocuvm, which unmaps what it has mapped when it runs out of
memory, and copyuvm, which then gives the whole new directory back. Both are called
with the current size of the process; the pages below that size are the mapped ones,
and no call panics.
-/
namespace KernelLabs.UserGrow

open MachineWords PageWords PanicMonad TableOwners UserPages UserTables UserCalls UserRelease
  Multiset

variable {L : Layout} {P : Pool L} {s : Vm} {R : Multiset ℕ} {d : ℕ}

/-- The pages below KERNBASE that are mapped are those below the size. -/
def Sized (m : Mem) (d sz : ℕ) : Prop :=
  ∀ b, Aligned b → b < KERNBASE → (Present (pteAt m d b) ↔ b < sz)

theorem Sized.congr {m m' : Mem} {sz : ℕ} (h : Sized m d sz)
    (hsame : ∀ f ∈ tableFormat.footprint m d, m' f = m f) : Sized m' d sz := by
  intro b hb hbuser
  rw [pteAt, Format.leaf_congr hsame]
  exact h b hb hbuser

theorem Sized.of_round {m : Mem} {sz sz' : ℕ} (h : Sized m d sz)
    (hround : ∀ b, Aligned b → (b < sz ↔ b < sz')) : Sized m d sz' :=
  fun b hb hbuser => (h b hb hbuser).trans (hround b hb)

variable {t : Vm}

theorem Sized.cleared {lo hi sz : ℕ} (h : Sized s.mem d sz)
    (hcleared : Cleared P R d (PGROUNDUP lo) hi s t) (hlo : lo < KERNBASE)
    (hbelow : ∀ b, Aligned b → b < lo → b < sz) (habove : ∀ b, Aligned b → hi ≤ b → sz ≤ b) :
    Sized t.mem d lo := by
  intro b hb hbuser
  have hround := (roundUp_spec hlo.le).2.2 b hb
  by_cases hblo : b < lo
  · rw [hcleared.others b hb (.inl (hround.mpr hblo)), h b hb hbuser]
    exact iff_of_true (hbelow b hb hblo) hblo
  · by_cases hbhi : b < hi
    · exact iff_of_false (hcleared.gone b hb (not_lt.mp (mt hround.mp hblo)) hbhi) hblo
    · have hhi : hi ≤ b := not_lt.mp hbhi
      rw [hcleared.others b hb (.inr hhi), h b hb hbuser]
      exact iff_of_false (not_lt.mpr (habove b hb hhi)) hblo

/-- A page from kalloc, overwritten with `words`, is in hand besides the directory. -/
structure InHand (P : Pool L) (R : Multiset ℕ) (d p : ℕ) (words : Fin NPTENTRIES → Word)
    (s t : Vm) : Prop where
  owned : Owned P (p ::ₘ R) d t
  same : ∀ f ∈ tableFormat.footprint s.mem d + R, t.mem f = s.mem f
  page : t.mem p = words
  supplied : Supplied s t

theorem inHand {p : ℕ} (hmem : t.mem = s.mem) (hsupplied : Supplied s t)
    (h : Balanced P t (p ::ₘ (tableFormat.footprint s.mem d + R))) (words : Fin NPTENTRIES → Word) :
    InHand P R d p words s (t.setPage p words) := by
  have hp := (nodup_cons.mp h.nodup).1
  have hsame : ∀ f ∈ tableFormat.footprint s.mem d + R, (t.setPage p words).mem f = s.mem f := by
    intro f hf
    rw [← hmem]
    refine Function.update_of_ne ?_ _ _
    rintro rfl
    exact hp hf
  refine ⟨h.congr rfl ?_, hsame, Function.update_self _ _ _, hsupplied⟩
  have hfoot : tableFormat.footprint (t.setPage p words).mem d = tableFormat.footprint s.mem d :=
    Format.footprint_congr fun f hf => hsame f (mem_add.mpr (.inl hf))
  rw [hfoot, add_cons]

section InHand

variable {t u : Vm} {p : ℕ} {words : Fin NPTENTRIES → Word} (h : InHand P R d p words s t)

include h

theorem InHand.kept {f : ℕ} (hf : f ∈ R) : t.mem f = s.mem f :=
  h.same f (mem_add.mpr (.inr hf))

theorem InHand.footprint {f : ℕ} (hf : f ∈ tableFormat.footprint s.mem d) : t.mem f = s.mem f :=
  h.same f (mem_add.mpr (.inl hf))

theorem InHand.pte (b : ℕ) : pteAt t.mem d b = pteAt s.mem d b :=
  Format.leaf_congr (fun _ => h.footprint) _ _

theorem InHand.pages {b : ℕ} (hb : b < KERNBASE) : pageAt t.mem d b = pageAt s.mem d b :=
  pageAt_congr (h.pte b) fun _ hf =>
    h.footprint (Format.pages_subset_footprint (mem_pages_of_target hb hf))

theorem InHand.lt : p < 2 ^ 20 :=
  lt_of_freeable (h.owned.freeable (mem_add.mpr (.inr (mem_cons_self p R))))

end InHand

/-- The page at `a`, which was not mapped, has the entry `w` and the contents `words`. -/
structure Added (P : Pool L) (R : Multiset ℕ) (d a : ℕ) (w : Word) (words : Fin NPTENTRIES → Word)
    (s t : Vm) : Prop where
  owned : Owned P R d t
  kept : ∀ f ∈ R, t.mem f = s.mem f
  new : pteAt t.mem d a = w
  page : pageAt t.mem d a = some words
  others : ∀ b, Aligned b → b ≠ a → pteAt t.mem d b = pteAt s.mem d b
  pages : ∀ b, Aligned b → b < KERNBASE → b ≠ a → pageAt t.mem d b = pageAt s.mem d b
  supplied : Supplied s t

theorem InHand.added {t u : Vm} {p a : ℕ} {perm : Word} {words : Fin NPTENTRIES → Word}
    (h : InHand P R d p words s t) (hmapped : Mapped P R d a (entry (p * PGSIZE) perm) t u)
    (huser : a < KERNBASE) (hperm : perm.toNat < 2 ^ 12) :
    Added P R d a (entry (p * PGSIZE) perm) words s u where
  owned := hmapped.owned
  kept f hf := (hmapped.kept f hf).trans (h.kept hf)
  new := hmapped.new
  page := by
    rw [hmapped.page huser, target_entry h.lt hperm]
    exact congrArg some h.page
  others b hb hba := (hmapped.others b hb hba).trans (h.pte b)
  pages b hb hbuser hba := (hmapped.pages b hb hbuser hba).trans (h.pages hbuser)
  supplied := h.supplied.trans hmapped.supplied

theorem Sized.added {t u : Vm} {a pa : ℕ} {perm : Word} {words : Fin NPTENTRIES → Word}
    (h : Sized t.mem d a) (ha : Aligned a) (hadded : Added P R d a (entry pa perm) words t u) :
    Sized u.mem d (a + PGSIZE) := by
  intro b hb hbuser
  by_cases hba : b = a
  · subst hba
    rw [hadded.new]
    exact iff_of_true (present_perm _) (by rw [PGSIZE]; omega)
  · rw [hadded.others b hb hba, h b hb hbuser]
    simp only [Aligned, PGSIZE] at ha hb ⊢
    omega

theorem returns_kfree_hand {p : ℕ} (h : Owned P (p ::ₘ R) d s) {Q : Unit → Vm → Prop}
    (hQ : ∀ t, Keeps P R d s t → Q () t) : Returns (kfree L p) s Q := by
  rw [Owned, add_cons] at h
  have hp := (nodup_cons.mp h.nodup).1
  refine returns_kfree h fun t ht hmem hsupplied => hQ t ?_
  have hsame : ∀ f ∈ tableFormat.footprint s.mem d + R, t.mem f = s.mem f := by
    intro f hf
    refine hmem f ?_
    rintro rfl
    exact hp hf
  have hfoot : ∀ f ∈ tableFormat.footprint s.mem d, t.mem f = s.mem f :=
    fun f hf => hsame f (mem_add.mpr (.inl hf))
  have hpte : ∀ a, pteAt t.mem d a = pteAt s.mem d a := fun a => Format.leaf_congr hfoot _ _
  refine ⟨?_, fun f hf => hsame f (mem_add.mpr (.inr hf)), hpte, fun a ha => ?_, hsupplied⟩
  · rwa [Owned, Format.footprint_congr hfoot]
  · exact pageAt_congr (hpte a) fun f hf =>
      hfoot f (Format.pages_subset_footprint (mem_pages_of_target ha hf))

def grown (oldsz r : ℕ) : ℕ := if r = 0 then oldsz else r

def Zeroed (m : Mem) (d b : ℕ) : Prop :=
  (∃ f < 2 ^ 20, pteAt m d b = entry (f * PGSIZE) (PTE_W ||| PTE_U)) ∧
    pageAt m d b = some fun _ => 0

/-- The directory has the user pages below `a`: those below the old size as they were, and new
ones that are zero. -/
structure Growing (d oldsz a : ℕ) (s t : Vm) : Prop where
  sized : Sized t.mem d a
  same : ∀ b, Aligned b → b < oldsz ∨ KERNBASE ≤ b → pteAt t.mem d b = pteAt s.mem d b
  pages : ∀ b, Aligned b → b < KERNBASE → b < oldsz → pageAt t.mem d b = pageAt s.mem d b
  new : ∀ b, Aligned b → b < KERNBASE → oldsz ≤ b → b < a → Zeroed t.mem d b
  supplied : Supplied s t

structure Grown (P : Pool L) (R : Multiset ℕ) (d oldsz : ℕ) (s : Vm) (r : ℕ) (t : Vm) : Prop extends
    Growing d oldsz (grown oldsz r) s t where
  owned : Owned P R d t
  kept : ∀ f ∈ R, t.mem f = s.mem f
  lt : grown oldsz r < KERNBASE

variable {a : ℕ} {Q : ℕ → Vm → Prop}

section Grow

variable {oldsz newsz : ℕ}

theorem Sized.growing (h : Sized s.mem d a) (hround : ∀ b, Aligned b → (b < oldsz ↔ b < a)) :
    Growing d oldsz a s s where
  sized := h
  same _ _ _ := rfl
  pages _ _ _ _ := rfl
  new b hb _ hlo hhi := by
    have := hround b hb
    omega
  supplied := id

theorem Growing.of_round {a a' : ℕ} (h : Growing d oldsz a s t)
    (hround : ∀ b, Aligned b → (b < a ↔ b < a')) : Growing d oldsz a' s t where
  sized := h.sized.of_round hround
  same := h.same
  pages := h.pages
  new b hb hbuser hlo hhi := h.new b hb hbuser hlo ((hround b hb).mpr hhi)
  supplied := h.supplied

theorem Growing.congr {t u : Vm} (h : Growing d oldsz a s t)
    (hpte : ∀ b, pteAt u.mem d b = pteAt t.mem d b)
    (hpages : ∀ b, b < KERNBASE → pageAt u.mem d b = pageAt t.mem d b)
    (hsupplied : Supplied t u) : Growing d oldsz a s u where
  sized b hb hbuser := by
    rw [hpte]
    exact h.sized b hb hbuser
  same b hb hout := (hpte b).trans (h.same b hb hout)
  pages b hb hbuser hlt := (hpages b hbuser).trans (h.pages b hb hbuser hlt)
  new b hb hbuser hlo hhi := by
    rw [Zeroed, hpte, hpages b hbuser]
    exact h.new b hb hbuser hlo hhi
  supplied := h.supplied.trans hsupplied

theorem Growing.added {t u : Vm} {a p : ℕ} (h : Growing d oldsz a s t) (ha : Aligned a)
    (huser : a < KERNBASE) (hlo : oldsz ≤ a) (hp : p < 2 ^ 20)
    (hadded : Added P R d a (entry (p * PGSIZE) (PTE_W ||| PTE_U)) (fun _ => 0) t u) :
    Growing d oldsz (a + PGSIZE) s u where
  sized := h.sized.added ha hadded
  same b hb hout := (hadded.others b hb (by omega)).trans (h.same b hb hout)
  pages b hb hbuser hlt := (hadded.pages b hb hbuser (by omega)).trans (h.pages b hb hbuser hlt)
  new b hb hbuser hlo' hhi := by
    by_cases hba : b = a
    · subst hba
      exact ⟨⟨p, hp, hadded.new⟩, hadded.page⟩
    · rw [Zeroed, hadded.others b hb hba, hadded.pages b hb hbuser hba]
      refine h.new b hb hbuser hlo' ?_
      simp only [Aligned, PGSIZE] at ha hb hhi
      omega
  supplied := h.supplied.trans hadded.supplied

theorem Growing.undone {t u : Vm} (h : Growing d oldsz a s t)
    (hcleared : Cleared P R d (PGROUNDUP oldsz) newsz t u) (hnew : newsz < KERNBASE)
    (hle : oldsz ≤ newsz) (hlo : PGROUNDUP oldsz ≤ a) (hhi : a < newsz) :
    Growing d oldsz oldsz s u := by
  have hold : oldsz < KERNBASE := by omega
  have hround := (roundUp_spec hold.le).2.2
  refine ⟨h.sized.cleared hcleared hold (fun b hb hb' => ?_) (fun b hb hb' => ?_), fun b hb hout => ?_,
    fun b hb hbuser hlt => ?_, fun b _ _ hlo' hhi' => ?_, h.supplied.trans hcleared.supplied⟩
  · have := (hround b hb).mpr hb'
    omega
  · omega
  · rw [hcleared.others b hb ?_, h.same b hb hout]
    have := hround b hb
    omega
  · rw [hcleared.pages b hb hbuser (.inl ((hround b hb).mpr hlt)), h.pages b hb hbuser hlt]
  · omega

theorem returns_undo (hnew : newsz < KERNBASE) (ha : Aligned a) (hlo : PGROUNDUP oldsz ≤ a)
    (hhi : a < newsz) (hle : oldsz ≤ newsz) (h : Owned P R d t) (hgrowing : Growing d oldsz a s t)
    (hQ : ∀ r u, Owned P R d u → (∀ f ∈ R, u.mem f = t.mem f) → Growing d oldsz oldsz s u → Q r u) :
    Returns (deallocuvm L d newsz oldsz) t Q := by
  have hlt : oldsz < newsz := by
    have := (roundUp_spec (show oldsz ≤ KERNBASE by omega)).2.2 a ha
    omega
  refine returns_deallocuvm (by omega) hlt h fun u hu => ?_
  exact hQ _ u hu.owned hu.kept (hgrowing.undone hu hnew hle hlo hhi)

theorem grown_done (hnew : newsz < KERNBASE) (hle : oldsz ≤ newsz) (ha : Aligned a)
    (hge : newsz ≤ a) (hhi : a < newsz + PGSIZE) (h : Owned P R d t)
    (hkept : ∀ f ∈ R, t.mem f = s.mem f) (hgrowing : Growing d oldsz a s t) :
    Grown P R d oldsz s newsz t := by
  have hgrown : grown oldsz newsz = newsz := by
    unfold grown
    split <;> omega
  have hround : Growing d oldsz newsz s t := by
    refine hgrowing.of_round fun b hb => ?_
    simp only [Aligned, PGSIZE] at ha hb hhi
    omega
  rw [← hgrown] at hround
  exact ⟨hround, h, hkept, by rwa [hgrown]⟩

theorem grown_failed (h : Owned P R d t) (hkept : ∀ f ∈ R, t.mem f = s.mem f)
    (hgrowing : Growing d oldsz oldsz s t) (hold : oldsz < KERNBASE) : Grown P R d oldsz s 0 t :=
  ⟨hgrowing, h, hkept, hold⟩

/-- Too few pages for the pages below `a` are too few for those below `sz`. -/
theorem Short.of_card {a sz : ℕ} (h : P.frames.card ≤ R.card + (NPTENTRIES + 2) + a / PGSIZE)
    (hle : a ≤ sz) : Short P R sz := by
  have := Nat.div_le_div_right (c := PGSIZE) hle
  rw [Short]
  omega

/-- What a call of kalloc or of mappages for the page at `a` has found when it fails. -/
theorem Sized.short {t u : Vm} {a sz : ℕ} (h : Sized t.mem d a) (ha : Aligned a) (hle : a ≤ sz)
    {R' : Multiset ℕ} (hcard : R'.card ≤ R.card + 1) (hu : Owned P R' d u)
    (hsame : ∀ b, Aligned b → b < KERNBASE → pteAt u.mem d b = pteAt t.mem d b)
    (hfree : u.freelist = []) : Short P R sz := by
  have hframes := card_frames_le ha hu hfree fun b hb hbuser hpresent => by
    rw [hsame b hb hbuser] at hpresent
    exact (h b hb hbuser).mp hpresent
  exact Short.of_card (by omega) hle

theorem returns_allocFrom (hnew : newsz < KERNBASE) (hle : oldsz ≤ newsz) (turns : ℕ)
    (hturns : newsz ≤ a + turns * PGSIZE) (ha : Aligned a) (hlo : PGROUNDUP oldsz ≤ a)
    (hold : oldsz ≤ a) (hhi : a < newsz + PGSIZE) (h : Owned P R d t)
    (hkept : ∀ f ∈ R, t.mem f = s.mem f) (hgrowing : Growing d oldsz a s t)
    (hfail : ∀ u, Grown P R d oldsz s 0 u → (s.deny = [] → Short P R newsz) → Q 0 u)
    (hdone : ∀ u, Grown P R d oldsz s newsz u → Q newsz u) :
    Returns (allocFrom L d oldsz newsz (turns + 1) a) t Q := by
  induction turns generalizing a t with
  | zero =>
    rw [allocFrom, if_neg (by omega), returns_pure]
    exact hdone _ (grown_done hnew hle ha (by omega) hhi h hkept hgrowing)
  | succ turns ih =>
    rw [allocFrom]
    by_cases hlt : a < newsz
    · rw [if_pos hlt]
      have huser : a < KERNBASE := by omega
      refine returns_bind (returns_kalloc h (fun u hmem hsup hu hfree => ?_) fun p u hmem hsup hu => ?_)
      · have hk := keeps_of_mem_eq hmem hsup hu
        refine returns_bind (returns_undo hnew ha hlo hlt hle hk.owned
          (hgrowing.congr hk.same hk.pages hsup) fun _ v hv hkept' hgrow => ?_)
        rw [returns_pure]
        refine hfail v (grown_failed hv (fun f hf => ?_) hgrow (by omega)) fun hdeny => ?_
        · rw [hkept' f hf, hk.kept f hf, hkept f hf]
        · exact hgrowing.sized.short ha hlt.le (by omega) hk.owned (fun b _ _ => hk.same b)
            (hfree (hgrowing.supplied hdeny))
      · have hhand := inHand hmem hsup hu fun _ => 0
        rw [returns_modify_bind]
        generalize (u.setPage p fun _ => 0) = v at hhand ⊢
        have hempty : ¬ Present (pteAt v.mem d a) := by
          rw [hhand.pte, hgrowing.sized a ha huser]
          exact lt_irrefl a
        have hgrow := hgrowing.congr hhand.pte (fun b => hhand.pages) hhand.supplied
        refine returns_bind (returns_mappages_user hhand.owned ha huser (by decide) hempty
          (fun w hw hstarved => ?_) fun w hw => ?_)
        · rw [if_pos (by decide)]
          refine returns_bind (returns_undo hnew ha hlo hlt hle hw.owned
            (hgrow.congr hw.same hw.pages hw.supplied) fun _ x hx hkept' hundone => ?_)
          refine returns_bind (returns_kfree_hand hx fun y hy => ?_)
          rw [returns_pure]
          refine hfail y (grown_failed hy.owned (fun f hf => ?_)
            (hundone.congr hy.same hy.pages hy.supplied) (by omega)) fun hdeny => ?_
          · have hf' : f ∈ p ::ₘ R := mem_cons_of_mem hf
            rw [hy.kept f hf, hkept' f hf', hw.kept f hf', hhand.kept hf, hkept f hf]
          · obtain ⟨z, hz, hsame, hfree⟩ := hstarved (hgrow.supplied hdeny)
            exact hgrow.sized.short ha hlt.le (card_cons p R).le hz hsame hfree
        · rw [if_neg (by decide)]
          have hadded := hhand.added hw huser (by decide)
          obtain ⟨haligned, hnext⟩ := ha.next (by rw [KERNBASE] at huser; rw [PGSIZE]; omega)
          rw [hnext]
          refine ih ?_ haligned (by omega) (by omega) (by omega) hadded.owned
            (fun f hf => (hadded.kept f hf).trans (hkept f hf))
            (hgrowing.added ha huser hold hhand.lt hadded)
          rw [Nat.add_mul, one_mul] at hturns
          omega
    · rw [if_neg hlt, returns_pure]
      exact hdone _ (grown_done hnew hle ha (by omega) hhi h hkept hgrowing)

/-- What allocuvm returns: the larger of the two sizes, or zero when the new size is not below
KERNBASE or kalloc has failed. -/
def AllocAnswer (P : Pool L) (R : Multiset ℕ) (oldsz newsz : ℕ) (s : Vm) (r : ℕ) : Prop :=
  (r = max oldsz newsz ∧ newsz < KERNBASE) ∨
    (r = 0 ∧ (KERNBASE ≤ newsz ∨ (s.deny = [] → Short P R newsz)))

theorem returns_allocuvm (hold : oldsz < KERNBASE) (h : Owned P R d s)
    (hsized : Sized s.mem d oldsz)
    (hQ : ∀ r t, Grown P R d oldsz s r t → AllocAnswer P R oldsz newsz s r → Q r t) :
    Returns (allocuvm L d oldsz newsz) s Q := by
  have hsame : Growing d oldsz oldsz s s := hsized.growing fun _ _ => Iff.rfl
  rw [allocuvm]
  by_cases hmax : KERNBASE ≤ newsz
  · rw [if_pos hmax, returns_pure]
    exact hQ 0 s (grown_failed h (fun _ _ => rfl) hsame hold) (.inr ⟨rfl, .inl hmax⟩)
  · rw [if_neg hmax]
    by_cases hlt : newsz < oldsz
    · rw [if_pos hlt, returns_pure]
      have hgrown : grown oldsz oldsz = oldsz := by
        unfold grown
        split <;> rfl
      refine hQ oldsz s ⟨?_, h, fun _ _ => rfl, by rwa [hgrown]⟩ (.inl ⟨?_, by omega⟩)
      · rw [hgrown]
        exact hsame
      · rw [max_eq_left hlt.le]
    · obtain ⟨haligned, hle, hround⟩ := roundUp_spec hold.le
      obtain ⟨turns, hturns⟩ := exists_turns
      have hge : oldsz ≤ newsz := by omega
      have hup : oldsz ≤ PGROUNDUP oldsz ∧ PGROUNDUP oldsz < oldsz + PGSIZE := by
        simp only [PGROUNDUP, uint32, PGSIZE, KERNBASE] at *
        omega
      rw [if_neg hlt, hturns]
      refine returns_allocFrom (s := s) (by omega) hge turns ?_ haligned le_rfl hup.1 (by omega) h
        (fun _ _ => rfl) ((hsized.of_round fun b hb => (hround b hb).symm).growing
          fun b hb => (hround b hb).symm) (fun u hu hshort => ?_) fun u hu => ?_
      · rw [KERNBASE] at hmax
        rw [PGSIZE]
        omega
      · exact hQ 0 u hu (.inr ⟨rfl, .inr hshort⟩)
      · exact hQ newsz u hu (.inl ⟨(max_eq_right hge).symm, by omega⟩)

end Grow

theorem returns_shrink {oldsz newsz : ℕ} (hold : oldsz < KERNBASE) (h : Owned P R d s)
    (hsized : Sized s.mem d oldsz)
    (hQ : ∀ r t, Owned P R d t → (∀ f ∈ R, t.mem f = s.mem f) → Sized t.mem d r → r < KERNBASE →
      Q r t) :
    Returns (deallocuvm L d oldsz newsz) s Q := by
  by_cases hlt : newsz < oldsz
  · refine returns_deallocuvm (by omega) hlt h fun t ht => ?_
    exact hQ newsz t ht.owned ht.kept
      (hsized.cleared ht (by omega) (fun b _ hb => by omega) fun b _ hb => hb) (by omega)
  · rw [deallocuvm, if_pos (by omega), returns_pure]
    exact hQ oldsz s h (fun _ _ => rfl) hsized hold

section Copy

variable {pgdir sz : ℕ}

theorem walk_of_present {m : Mem} (h : Present (pteAt m d a)) :
    ∃ f, target (m d (pdx a)) = some f ∧ pteAt m d a = m f (ptx a) := by
  cases htable : target (m d (pdx a)) with
  | none =>
    rw [pteAt, Format.leaf_none (F := tableFormat) htable] at h
    exact absurd h (by decide)
  | some f => exact ⟨f, rfl, Format.leaf_some (F := tableFormat) htable⟩

/-- The pages below the size are all mapped, and none of them is a page of the kernel. -/
def Copyable (m : Mem) (pgdir sz : ℕ) : Prop :=
  sz ≤ KERNBASE ∧ ∀ b, Aligned b → b < sz → Present (pteAt m pgdir b)

theorem Sized.copyable {m : Mem} (h : Sized m pgdir sz) (hsz : sz ≤ KERNBASE) :
    Copyable m pgdir sz :=
  ⟨hsz, fun b hb hlt => (h b hb (by omega)).mpr hlt⟩

def Copy (m : Mem) (pgdir : ℕ) (m' : Mem) (d b : ℕ) : Prop :=
  (∃ f < 2 ^ 20, pteAt m' d b = entry (f * PGSIZE) (pteFlags (pteAt m pgdir b))) ∧
    pageAt m' d b = pageAt m pgdir b

/-- The child `d` has copies of the pages below `i`, and the kernel's pages. -/
structure Copying (L : Layout) (pgdir d i : ℕ) (s t : Vm) : Prop where
  sized : Sized t.mem d i
  kernel : ∀ b, Aligned b → KERNBASE ≤ b → pteAt t.mem d b = kernelPte L b
  copied : ∀ b, Aligned b → b < KERNBASE → b < i → Copy s.mem pgdir t.mem d b

theorem Copying.added {t u : Vm} {i p : ℕ} (h : Copying L pgdir d i s t) (hi : Aligned i)
    (huser : i < KERNBASE) (hp : p < 2 ^ 20) (hpresent : Present (pteAt s.mem pgdir i))
    (hadded : Added P R d i (entry (p * PGSIZE) (pteFlags (pteAt s.mem pgdir i)))
      (s.mem (PGNUM (pteAt s.mem pgdir i))) t u) :
    Copying L pgdir d (i + PGSIZE) s u where
  sized := h.sized.added hi hadded
  kernel b hb hkernel := (hadded.others b hb (by omega)).trans (h.kernel b hb hkernel)
  copied b hb hbuser hlt := by
    by_cases hbi : b = i
    · subst hbi
      refine ⟨⟨p, hp, hadded.new⟩, ?_⟩
      rw [hadded.page, pageAt_some (target_eq_some.mpr ⟨hpresent, rfl⟩)]
    · rw [Copy, hadded.others b hb hbi, hadded.pages b hb hbuser hbi]
      refine h.copied b hb hbuser ?_
      simp only [Aligned, PGSIZE] at hi hb hlt
      omega

structure Copied (P : Pool L) (R : Multiset ℕ) (pgdir sz d : ℕ) (s t : Vm) : Prop extends
    Copying L pgdir d sz s t where
  owned : Owned P R d t
  kept : ∀ f ∈ R, t.mem f = s.mem f
  le : sz ≤ KERNBASE

theorem Copying.done {i : ℕ} (h : Copying L pgdir d i s t) (hi : Aligned i) (hge : sz ≤ i)
    (hhi : i < sz + PGSIZE) (hile : i ≤ KERNBASE) (howned : Owned P R d t)
    (hkept : ∀ f ∈ R, t.mem f = s.mem f) : Copied P R pgdir sz d s t := by
  have hround : ∀ b, Aligned b → (b < i ↔ b < sz) := by
    intro b hb
    simp only [Aligned, PGSIZE] at hi hb hhi
    omega
  exact ⟨⟨h.sized.of_round hround, h.kernel, fun b hb hbuser hlt =>
    h.copied b hb hbuser ((hround b hb).mpr hlt)⟩, howned, hkept, by omega⟩

theorem kernelPte_KERNBASE (L : Layout) : Present (kernelPte L KERNBASE) := by
  have hin : KERNBASE ≤ KERNBASE ∧ KERNBASE < KERNBASE + uint32 (EXTMEM + 2 ^ 32 - 0) := by decide
  rw [kernelPte, kmap, kernelEntry, if_pos hin]
  exact present_perm _

theorem ends_mappages_remap {E : String → Prop} {a pa : ℕ} {perm : Word} (ha : Aligned a)
    (hmax : a + PGSIZE ≤ 2 ^ 32) (hpresent : Present (pteAt s.mem d a)) (hE : E "remap")
    {Q : ℤ → Vm → Prop} : Ends E (mappages d a PGSIZE pa perm) s Q := by
  obtain ⟨f, htable, hleaf⟩ := walk_of_present hpresent
  rw [hleaf] at hpresent
  obtain ⟨turns, hturns⟩ := exists_turns
  rw [mappages, ha.roundDown, ha.last (by decide) (by decide) hmax, hturns, mapFrom, mapPage]
  refine ends_bind (ends_bind ?_)
  refine (returns_walkpgdir_present (Q := fun r t => r = some (f, ptx a) ∧ t = s) htable
    ⟨rfl, rfl⟩).ends.mono ?_
  rintro r t ⟨rfl, rfl⟩
  simp only [ends_get_bind, if_pos hpresent, ends_throw]
  exact hE

/-- The loop of copyuvm: the parent's directory is among the frames that are not
touched. It panics only at a page that is not mapped in the parent or is one of the
kernel's. -/
theorem ends_copyFrom (turns : ℕ) {i : ℕ}
    (hturns : sz ≤ i + turns * PGSIZE ∨ KERNBASE < i + turns * PGSIZE)
    (hi : Aligned i) (hhi : i < sz + PGSIZE) (hile : i ≤ KERNBASE) (h : Owned P R d t)
    (hkept : ∀ f ∈ R, t.mem f = s.mem f) (hsupplied : Supplied s t)
    (hcopying : Copying L pgdir d i s t) (hparent : ∀ f ∈ tableFormat.footprint s.mem pgdir, f ∈ R)
    {Q : Option Frame → Vm → Prop}
    (hnone : ∀ u, Balanced P u R → (∀ f ∈ R, u.mem f = s.mem f) →
      (s.deny = [] → Short P R sz) → Q none u)
    (hsome : ∀ u, Copied P R pgdir sz d s u → Q (some d) u) :
    Ends (fun _ => ¬ Copyable s.mem pgdir sz) (copyFrom L pgdir d sz (turns + 1) i) t Q := by
  induction turns generalizing i t with
  | zero =>
    rw [copyFrom, if_neg (by omega), ends_pure]
    exact hsome t (hcopying.done hi (by omega) hhi hile h hkept)
  | succ turns ih =>
    rw [copyFrom]
    by_cases hlt : i < sz
    swap
    · rw [if_neg hlt, ends_pure]
      exact hsome t (hcopying.done hi (by omega) hhi hile h hkept)
    have hpar : ∀ f ∈ tableFormat.footprint s.mem pgdir, t.mem f = s.mem f :=
      fun f hf => hkept f (hparent f hf)
    have hpte : pteAt t.mem pgdir i = pteAt s.mem pgdir i := Format.leaf_congr hpar _ _
    rw [if_pos hlt]
    by_cases hpresent : Present (pteAt s.mem pgdir i)
    swap
    · have hE : ¬ Copyable s.mem pgdir sz := fun hall => hpresent (hall.2 i hi hlt)
      cases htable : target (t.mem pgdir (pdx i)) with
      | none => exact ends_bind (returns_walkpgdir_absent htable hE).ends
      | some f =>
        refine ends_bind (returns_walkpgdir_present htable ?_).ends
        have hleaf : ¬ Present (t.mem f (ptx i)) := by
          rwa [← hpte, pteAt, Format.leaf_some (F := tableFormat) htable] at hpresent
        simp only [ends_get_bind, if_pos hleaf]
        exact hE
    obtain ⟨table, htable, hleaf⟩ := walk_of_present (hpte.symm ▸ hpresent)
    have hpage : Present (t.mem table (ptx i)) := by rwa [← hleaf, hpte]
    refine ends_bind (returns_walkpgdir_present htable ?_).ends
    simp only [ends_get_bind, if_neg (not_not_intro hpage)]
    rw [← hleaf, hpte, PGNUM_PTE_ADDR]
    refine ends_bind (returns_kalloc h (fun u hmem hsup hu hfree => ?_) fun p u hmem hsup hu => ?_).ends
    · have hk := keeps_of_mem_eq hmem hsup hu
      refine (returns_bind (returns_freevm hk.owned fun v hv hkept' => ?_)).ends
      rw [returns_pure]
      refine hnone v hv (fun f hf => ?_) fun hdeny => ?_
      · rw [hkept' f hf, hk.kept f hf, hkept f hf]
      · exact hcopying.sized.short hi hlt.le (by omega) hk.owned (fun b _ _ => hk.same b)
          (hfree (hsupplied hdeny))
    have hhand := inHand hmem hsup hu (u.mem (PGNUM (pteAt s.mem pgdir i)))
    rw [ends_modify_bind]
    generalize u.setPage p (u.mem (PGNUM (pteAt s.mem pgdir i))) = v at hhand ⊢
    by_cases huser : i < KERNBASE
    swap
    · -- the child has the kernel's page here
      obtain rfl : i = KERNBASE := by omega
      refine ends_bind (ends_mappages_remap hi (by decide) ?_ fun hall => absurd hall.1 (by omega))
      rw [hhand.pte, hcopying.kernel _ hi le_rfl]
      exact kernelPte_KERNBASE L
    have hempty : ¬ Present (pteAt v.mem d i) := by
      rw [hhand.pte, hcopying.sized i hi huser]
      exact lt_irrefl i
    refine ends_bind (returns_mappages_user hhand.owned hi huser (pteFlags_lt _) hempty
      (fun w hw hstarved => ?_) fun w hw => ?_).ends
    · rw [if_pos (by decide)]
      refine (returns_bind (returns_kfree_hand hw.owned fun x hx => ?_)).ends
      refine returns_bind (returns_freevm hx.owned fun y hy hkept' => ?_)
      rw [returns_pure]
      refine hnone y hy (fun f hf => ?_) fun hdeny => ?_
      · rw [hkept' f hf, hx.kept f hf, hw.kept f (mem_cons_of_mem hf), hhand.kept hf, hkept f hf]
      · obtain ⟨z, hz, hsame, hfree⟩ := hstarved ((hsupplied.trans hhand.supplied) hdeny)
        exact hcopying.sized.short hi hlt.le (card_cons p R).le hz
          (fun b hb hbuser => (hsame b hb hbuser).trans (hhand.pte b)) hfree
    · rw [if_neg (by decide)]
      have hframe : t.mem (PGNUM (pteAt s.mem pgdir i)) = s.mem (PGNUM (pteAt s.mem pgdir i)) :=
        hpar _ (Format.pages_subset_footprint
          (mem_pages_of_target huser (target_eq_some.mpr ⟨hpresent, rfl⟩)))
      rw [hmem, hframe] at hhand
      have hadded := hhand.added hw huser (pteFlags_lt _)
      obtain ⟨haligned, hnext⟩ := hi.next (by rw [KERNBASE] at huser; rw [PGSIZE]; omega)
      have hle : i + PGSIZE ≤ KERNBASE := by
        simp only [Aligned, PGSIZE, KERNBASE] at *
        omega
      rw [hnext]
      refine ih ?_ haligned (by omega) hle hadded.owned
        (fun f hf => (hadded.kept f hf).trans (hkept f hf)) (hsupplied.trans hadded.supplied)
        (hcopying.added hi huser hhand.lt hpresent hadded)
      rw [Nat.add_mul, one_mul] at hturns
      omega

/-- copyuvm makes a copy of the parent, or gives back all it has taken. -/
theorem ends_copyuvm (hsz : sz < 2 ^ 32) (h : Balanced P s R)
    (hparent : ∀ f ∈ tableFormat.footprint s.mem pgdir, f ∈ R)
    {Q : Option Frame → Vm → Prop}
    (hnone : ∀ t, Balanced P t R → (∀ f ∈ R, t.mem f = s.mem f) →
      (s.deny = [] → Short P R sz) → Q none t)
    (hsome : ∀ d t, Copied P R pgdir sz d s t → Q (some d) t) :
    Ends (fun _ => ¬ Copyable s.mem pgdir sz) (copyuvm L pgdir sz) s Q := by
  rw [copyuvm]
  refine ends_bind (returns_setupkvm h (fun t ht hkept hshort => ?_) fun d t ht => ?_).ends
  · rw [ends_pure]
    exact hnone t ht hkept fun hdeny => Short.of_card (hshort hdeny) (Nat.zero_le sz)
  · obtain ⟨turns, hturns⟩ := exists_turns
    dsimp only
    rw [hturns]
    refine ends_copyFrom turns ?_ ⟨rfl, by decide⟩ (by rw [PGSIZE]; omega) (Nat.zero_le _) ht.owned
      ht.kept ht.supplied ⟨fun b hb hbuser => ?_, ht.kernel, fun b _ _ hlt => ?_⟩ hparent hnone
      (hsome d)
    · rw [PGSIZE, KERNBASE]
      omega
    · exact iff_of_false (ht.empty b hb hbuser) (Nat.not_lt_zero b)
    · exact absurd hlt (Nat.not_lt_zero b)

theorem returns_copyuvm (h : Balanced P s R) (hcopyable : Copyable s.mem pgdir sz)
    (hparent : ∀ f ∈ tableFormat.footprint s.mem pgdir, f ∈ R) {Q : Option Frame → Vm → Prop}
    (hnone : ∀ t, Balanced P t R → (∀ f ∈ R, t.mem f = s.mem f) →
      (s.deny = [] → Short P R sz) → Q none t)
    (hsome : ∀ d t, Copied P R pgdir sz d s t → Q (some d) t) :
    Returns (copyuvm L pgdir sz) s Q := by
  have hsz := hcopyable.1
  rw [KERNBASE] at hsz
  exact (ends_copyuvm (by omega) h hparent hnone hsome).returns fun _ hnot => hnot hcopyable

end Copy

end KernelLabs.UserGrow

import KernelLabs.ExecModel

/-!
The first part of exec, which makes a directory and loads the segments of the file into it. The
program headers are untrusted. Whatever they contain, and wherever kalloc fails, the loop returns,
with the pages that allocuvm has mapped in the directory and every other page as it was; loaduvm
finds the pages of a segment mapped, since the segment ends at or below the size that allocuvm
has returned.
-/
namespace KernelLabs.ExecLoad

open MachineWords PageWords PanicMonad TableOwners UserPages UserTables UserCalls UserRelease
  UserGrow UserSpace UserCopy ExecModel

variable {L : Layout} {P : Pool L} {R : Multiset ℕ} {s t u : Vm} {d sz va : ℕ}
  {buf : List (BitVec 8)}

/-- Pages of the directory have been written, and nothing else. -/
structure Stored (P : Pool L) (R : Multiset ℕ) (d : ℕ) (s t : Vm) : Prop where
  owned : Owned P R d t
  same : ∀ a, pteAt t.mem d a = pteAt s.mem d a
  kept : ∀ f ∈ R, t.mem f = s.mem f
  supplied : Supplied s t

theorem Stored.refl (h : Owned P R d s) : Stored P R d s s :=
  ⟨h, fun _ => rfl, fun _ _ => rfl, id⟩

theorem Stored.trans (hst : Stored P R d s t) (htu : Stored P R d t u) : Stored P R d s u where
  owned := htu.owned
  same a := (htu.same a).trans (hst.same a)
  kept f hf := (htu.kept f hf).trans (hst.kept f hf)
  supplied := hst.supplied.trans htu.supplied

theorem Stored.space (h : Space P R d s) (hstored : Stored P R d s t) : Space P R d t where
  owned := hstored.owned
  kernel b hb hkernel := (hstored.same b).trans (h.kernel b hb hkernel)

theorem Stored.sized (h : Sized s.mem d sz) (hstored : Stored P R d s t) : Sized t.mem d sz := by
  intro b hb huser
  rw [hstored.same]
  exact h b hb huser

theorem stored_setPage (h : Owned P R d s) {f : ℕ} (hf : f ∈ tableFormat.pages s.mem d)
    (words : Fin NPTENTRIES → Word) : Stored P R d s (s.setPage f words) := by
  obtain ⟨hdir, htables⟩ := Format.update_page (footprint_nodup h) hf words
  refine ⟨h.congr rfl ?_, fun a => Format.leaf_congr_tables hdir htables _ _, fun g hg => ?_, id⟩
  · exact congrArg (· + R) (Format.footprint_congr_tables hdir htables)
  · refine Function.update_of_ne ?_ _ _
    rintro rfl
    exact not_mem_rest h (Format.pages_subset_footprint hf) hg

/-! ### Headers -/

theorem leValue_lt (l : List Byte) : leValue l < 256 ^ l.length := by
  induction l with
  | nil => exact Nat.zero_lt_one
  | cons b rest ih =>
    have hb := b.isLt
    rw [leValue, List.length_cons, pow_succ]
    omega

theorem field_lt (bytes : List Byte) (off n : ℕ) : field bytes off n < 256 ^ n :=
  lt_of_lt_of_le (leValue_lt _) (Nat.pow_le_pow_right (by decide) (List.length_take_le _ _))

/-! ### Loading -/

section Load

variable {file : List Byte} {addr offset filesz : ℕ}

theorem returns_loadFrom (haddr : addr % PGSIZE = 0) (hmax : addr + filesz ≤ sz)
    (hsz : sz < KERNBASE) (turns : ℕ) {i : ℕ} (hturns : filesz ≤ i + turns * PGSIZE)
    (hi : i % PGSIZE = 0) (h : Owned P R d s) (hsized : Sized s.mem d sz) :
    Returns (loadFrom file d addr offset filesz (turns + 1) i) s fun _ t => Stored P R d s t := by
  induction turns generalizing i s with
  | zero =>
    rw [loadFrom, if_neg (by omega), returns_pure]
    exact .refl h
  | succ turns ih =>
    rw [loadFrom]
    by_cases hlt : i < filesz
    swap
    · rw [if_neg hlt, returns_pure]
      exact .refl h
    have haligned : Aligned (addr + i) ∧ addr + i < KERNBASE := by
      simp only [Aligned, PGSIZE, KERNBASE] at *
      omega
    have hva : uint32 (addr + i) = addr + i := Nat.mod_eq_of_lt haligned.1.2
    have hpresent : Present (pteAt s.mem d (addr + i)) :=
      (hsized _ haligned.1 haligned.2).mpr (by omega)
    obtain ⟨f, htable, hleaf⟩ := walk_of_present hpresent
    have hpage : PGNUM (pteAt s.mem d (addr + i)) ∈ tableFormat.pages s.mem d :=
      mem_pages_of_target haligned.2 (target_eq_some.mpr ⟨hpresent, rfl⟩)
    rw [if_pos hlt, hva]
    refine returns_bind (returns_walkpgdir_present htable ?_)
    simp only [returns_get_bind]
    rw [← hleaf, PGNUM_PTE_ADDR]
    generalize (if filesz - i < PGSIZE then filesz - i else PGSIZE) = n
    cases readi file (uint32 (offset + i)) n with
    | none =>
      rw [returns_pure]
      exact .refl h
    | some bytes =>
      have hstored := stored_setPage h hpage
        (poke (s.mem (PGNUM (pteAt s.mem d (addr + i)))) 0 bytes)
      dsimp only
      rw [returns_modify_bind]
      by_cases hshort : bytes.length ≠ n
      · rw [if_pos hshort, returns_pure]
        exact hstored
      · rw [if_neg hshort]
        have hnext : uint32 (i + PGSIZE) = i + PGSIZE := by
          simp only [uint32, PGSIZE, KERNBASE] at *
          omega
        rw [hnext]
        refine (ih ?_ ?_ hstored.owned (hstored.sized hsized)).mono fun _ t ht => hstored.trans ht
        · rw [Nat.add_mul, one_mul] at hturns
          omega
        · simp only [PGSIZE] at *
          omega

theorem returns_loaduvm (haddr : addr % PGSIZE = 0) (hmax : addr + filesz ≤ sz)
    (hsz : sz < KERNBASE) (h : Owned P R d s) (hsized : Sized s.mem d sz) :
    Returns (loaduvm file d addr offset filesz) s fun _ t => Stored P R d s t := by
  obtain ⟨turns, hturns⟩ := exists_turns
  rw [loaduvm, if_neg (not_not_intro haddr), hturns]
  refine returns_loadFrom haddr hmax hsz turns ?_ rfl h hsized
  simp only [PGSIZE, KERNBASE] at *
  omega

structure Loaded (P : Pool L) (R : Multiset ℕ) (d : ℕ) (s : Vm) (r : Option ℕ) (t : Vm) : Prop where
  space : Space P R d t
  kept : ∀ f ∈ R, t.mem f = s.mem f
  supplied : Supplied s t
  sized : ∀ size, r = some size → Sized t.mem d size ∧ size < KERNBASE

theorem Loaded.failed (h : Space P R d t) (hkept : ∀ f ∈ R, t.mem f = s.mem f)
    (hsupplied : Supplied s t) : Loaded P R d s none t :=
  ⟨h, hkept, hsupplied, fun size hsize => by cases hsize⟩

/-- The loop of exec over the program headers returns, whatever they contain. -/
theorem returns_loadSegments (phnum : ℕ) {off : ℕ} (h : Space P R d s) (hsized : Sized s.mem d sz)
    (hsz : sz < KERNBASE) : Returns (loadSegments L file d phnum off sz) s (Loaded P R d s) := by
  induction phnum generalizing off sz s with
  | zero =>
    rw [loadSegments, returns_pure]
    refine ⟨h, fun _ _ => rfl, id, fun size hsize => ?_⟩
    obtain rfl := Option.some.inj hsize
    exact ⟨hsized, hsz⟩
  | succ phnum ih =>
    have hfailed : Loaded P R d s none s := .failed h (fun _ _ => rfl) id
    rw [loadSegments]
    cases readAll file off proghdrSize with
    | none =>
      rw [returns_pure]
      exact hfailed
    | some bytes =>
      have hvaddr : (proghdr bytes).vaddr < 2 ^ 32 := field_lt _ _ 4
      have hmemsz : (proghdr bytes).memsz < 2 ^ 32 := field_lt _ _ 4
      dsimp only
      generalize proghdr bytes = ph at hvaddr hmemsz ⊢
      by_cases htype : ph.type ≠ ELF_PROG_LOAD
      · rw [if_pos htype]
        exact ih h hsized hsz
      rw [if_neg htype]
      by_cases hmem : ph.memsz < ph.filesz
      · rw [if_pos hmem, returns_pure]
        exact hfailed
      rw [if_neg hmem]
      by_cases hwrap : uint32 (ph.vaddr + ph.memsz) < ph.vaddr
      · rw [if_pos hwrap, returns_pure]
        exact hfailed
      rw [if_neg hwrap]
      refine returns_bind (returns_allocuvm hsz h.owned hsized fun r t ht hanswer => ?_)
      have hspace : Space P R d t :=
        ⟨ht.owned, fun b hb hkernel => (ht.same b hb (.inr hkernel)).trans (h.kernel b hb hkernel)⟩
      have hfailed' : Loaded P R d s none t := .failed hspace ht.kept ht.supplied
      by_cases hzero : r = 0
      · rw [if_pos hzero, returns_pure]
        exact hfailed'
      rw [if_neg hzero]
      by_cases halign : ph.vaddr % PGSIZE ≠ 0
      · rw [if_pos halign, returns_pure]
        exact hfailed'
      rw [if_neg halign]
      have hgrown : grown sz r = r := if_neg hzero
      have hsized' := ht.sized
      have hlt := ht.lt
      rw [hgrown] at hsized' hlt
      have hmax : ph.vaddr + ph.filesz ≤ r := by
        rcases hanswer with ⟨hr, -⟩ | ⟨hr, -⟩
        · simp only [uint32] at hr hwrap
          omega
        · exact absurd hr hzero
      refine returns_bind ((returns_loaduvm (not_not.mp halign) hmax hlt hspace.owned hsized').mono
        fun result v hv => ?_)
      have hspace' := Stored.space hspace hv
      have hkept : ∀ f ∈ R, v.mem f = s.mem f := fun f hf => (hv.kept f hf).trans (ht.kept f hf)
      have hsupplied := ht.supplied.trans hv.supplied
      by_cases hneg : result < 0
      · rw [if_pos hneg, returns_pure]
        exact .failed hspace' hkept hsupplied
      · rw [if_neg hneg]
        refine (ih hspace' (hv.sized hsized') hlt).mono fun result w hw => ?_
        exact ⟨hw.space, fun f hf => (hw.kept f hf).trans (hkept f hf), hsupplied.trans hw.supplied,
          hw.sized⟩

end Load

end KernelLabs.ExecLoad

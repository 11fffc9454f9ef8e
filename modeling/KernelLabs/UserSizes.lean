import KernelLabs.UserMemory

/-!
growproc, the body of sbrk. allocuvm and deallocuvm return a size, and zero as an error, and
the new size is computed in unsigned arithmetic. A call either changes the size by exactly
`n`, with the old pages as they were and the new ones zero, or fails and changes nothing, unless
a process that has memory asks to give back all of it or more than it has.
-/
namespace KernelLabs.UserSizes

open MachineWords PageWords PanicMonad TableOwners UserPages UserTables UserCalls UserRelease
  UserGrow UserMemory List Finset

def addInt (sz : ℕ) (n : ℤ) : ℕ := ((sz + n) % 2 ^ 32).toNat

/-- growproc for a process with the given directory and size: the result and the size that the
process has then. switchuvm, which loads the directory again, leaves the memory alone. -/
def growproc (L : Layout) (pgdir sz : ℕ) (n : ℤ) : VmM (ℤ × ℕ) := do
  if 0 < n then
    let newsz ← allocuvm L pgdir sz (addInt sz n)
    if newsz = 0 then
      return (-1, sz)
    else
      return (0, newsz)
  else if n < 0 then
    let newsz ← deallocuvm L pgdir sz (addInt sz n)
    if newsz = 0 then
      return (-1, sz)
    else
      return (0, newsz)
  else
    return (0, sz)

def mapping (m : Mem) (d b : ℕ) : Option Word :=
  if Present (pteAt m d b) then some (pteAt m d b) else none

/-- The user pages are exactly those of [0, PGROUNDUP(sz)). -/
def Spans (m : Mem) (d sz : ℕ) : Prop :=
  ∀ b, Aligned b → b < KERNBASE → (Present (pteAt m d b) ↔ b < PGROUNDUP sz)

structure Exact (d sz : ℕ) (n : ℤ) (s : Vm) (r : ℤ × ℕ) (t : Vm) : Prop where
  returned : r.1 = 0
  size : (r.2 : ℤ) = sz + n
  spans : Spans t.mem d r.2
  kept : ∀ b, Aligned b → b < PGROUNDUP sz → b < PGROUNDUP r.2 →
    mapping t.mem d b = mapping s.mem d b ∧ pageAt t.mem d b = pageAt s.mem d b
  zero : ∀ b, Aligned b → PGROUNDUP sz ≤ b → b < PGROUNDUP r.2 →
    pageAt t.mem d b = some fun _ => 0

structure Unchanged (d sz : ℕ) (s : Vm) (r : ℤ × ℕ) (t : Vm) : Prop where
  returned : r.1 = -1
  size : r.2 = sz
  kept : ∀ b, Aligned b → b < KERNBASE →
    mapping t.mem d b = mapping s.mem d b ∧ pageAt t.mem d b = pageAt s.mem d b

variable {L : Layout} {P : Pool L} {R : Multiset ℕ} {s : Vm} {d sz : ℕ} {n : ℤ}

theorem spans_iff_sized {m : Mem} (hsz : sz ≤ KERNBASE) : Spans m d sz ↔ Sized m d sz := by
  have hround := (roundUp_spec hsz).2.2
  constructor
  · intro h b hb hbuser
    exact (h b hb hbuser).trans (hround b hb)
  · intro h b hb hbuser
    exact (h b hb hbuser).trans (hround b hb).symm

theorem mapping_congr {m m' : Mem} {b : ℕ} (h : pteAt m' d b = pteAt m d b) :
    mapping m' d b = mapping m d b := by
  rw [mapping, mapping, h]

theorem mapping_absent {m : Mem} {b : ℕ} (h : ¬ Present (pteAt m d b)) :
    mapping m d b = none ∧ pageAt m d b = none := by
  refine ⟨if_neg h, ?_⟩
  rw [pageAt, target_eq_none.mpr h]
  rfl

/-! ### Growing -/

/-- A failed allocuvm has left the user pages as they were. -/
theorem Grown.unchanged {t : Vm} (hsized : Sized s.mem d sz)
    (h : Grown P R d sz s 0 t) : Unchanged d sz s (-1, sz) t := by
  refine ⟨rfl, rfl, ?_⟩
  intro b hb hbuser
  by_cases hlt : b < sz
  · exact ⟨mapping_congr (h.same b hb (.inl hlt)), h.pages b hb hbuser hlt⟩
  · have hafter := mapping_absent (mt (h.sized b hb hbuser).mp hlt)
    have hbefore := mapping_absent (mt (hsized b hb hbuser).mp hlt)
    exact ⟨hafter.1.trans hbefore.1.symm, hafter.2.trans hbefore.2.symm⟩

theorem Grown.exact {t : Vm} {newsz : ℕ} (hsz : sz < KERNBASE) (hpos : 0 < newsz)
    (hsize : (newsz : ℤ) = sz + n) (h : Grown P R d sz s newsz t) :
    Exact d sz n s (0, newsz) t := by
  have hgrown : grown sz newsz = newsz := if_neg (by omega)
  have hnew : newsz < KERNBASE := hgrown ▸ h.lt
  have hround := (roundUp_spec hnew.le).2.2
  have hround' := (roundUp_spec hsz.le).2.2
  refine ⟨rfl, hsize, (spans_iff_sized hnew.le).mpr ?_, ?_, ?_⟩
  · have := h.sized
    rwa [hgrown] at this
  · intro b hb hold _
    have hlt := (hround' b hb).mp hold
    exact ⟨mapping_congr (h.same b hb (.inl hlt)), h.pages b hb (by omega) hlt⟩
  · intro b hb hold hlt
    have hltNew := (hround b hb).mp hlt
    have hge : sz ≤ b := by
      by_contra hcontra
      have := (hround' b hb).mpr (by omega)
      omega
    exact (h.new b hb (by omega) hge (by omega)).2

theorem returns_grow (hsz : sz ≤ KERNBASE) (hpos : 0 < n) (hmax : n < 2 ^ 31)
    (h : Owned P R d s) (hsized : Sized s.mem d sz) :
    Returns (growproc L d sz n) s fun r t => Exact d sz n s r t ∨ Unchanged d sz s r t := by
  have hnew : addInt sz n = sz + n.toNat := by
    unfold addInt
    rw [KERNBASE] at hsz
    omega
  rw [growproc, if_pos hpos, hnew]
  by_cases hlt : sz < KERNBASE
  · refine returns_bind (returns_allocuvm hlt h hsized fun r t ht hanswer => ?_)
    rcases hanswer with ⟨hr, hbelow⟩ | ⟨rfl, -⟩
    · obtain rfl : r = sz + n.toNat := by omega
      rw [if_neg (by omega), returns_pure]
      exact .inl (Grown.exact hlt (by omega) (by omega) ht)
    · rw [if_pos rfl, returns_pure]
      exact .inr (Grown.unchanged hsized ht)
  · rw [allocuvm, if_pos (by omega)]
    refine returns_bind ((returns_pure _).mpr ?_)
    rw [if_pos rfl, returns_pure]
    exact .inr ⟨rfl, rfl, fun _ _ _ => ⟨rfl, rfl⟩⟩

/-! ### Shrinking -/

theorem Cleared.exact {t : Vm} {newsz : ℕ} (hsz : sz ≤ KERNBASE) (hlt : newsz < sz)
    (hsize : (newsz : ℤ) = sz + n) (hsized : Sized s.mem d sz)
    (h : Cleared P R d (PGROUNDUP newsz) sz s t) : Exact d sz n s (0, newsz) t := by
  have hround := (roundUp_spec (show newsz ≤ KERNBASE by omega)).2.2
  have hround' := (roundUp_spec hsz).2.2
  refine ⟨rfl, hsize, (spans_iff_sized (by omega)).mpr ?_, ?_, ?_⟩
  · exact hsized.cleared h (by omega) (fun b _ hb => by omega) fun b _ hb => hb
  · intro b hb _ hnew
    have hb' := (hround b hb).mp hnew
    exact ⟨mapping_congr (h.others b hb (.inl hnew)), h.pages b hb (by omega) (.inl hnew)⟩
  · intro b hb hold hnew
    have hb' := (hround b hb).mp hnew
    have := (hround' b hb).mpr (by omega)
    omega

theorem returns_shrink_exact (hsz : sz ≤ KERNBASE) (hneg : n < 0) (hpos : 0 < sz + n)
    (h : Owned P R d s) (hsized : Sized s.mem d sz) :
    Returns (growproc L d sz n) s (Exact d sz n s) := by
  obtain ⟨newsz, hnewsz⟩ : ∃ newsz : ℕ, (newsz : ℤ) = sz + n := ⟨(sz + n).toNat, by omega⟩
  have hnew : addInt sz n = newsz := by
    unfold addInt
    rw [KERNBASE] at hsz
    omega
  rw [growproc, if_neg (by omega), if_pos hneg, hnew]
  refine returns_bind (returns_deallocuvm hsz (by omega) h fun t ht => ?_)
  rw [if_neg (by omega), returns_pure]
  exact Cleared.exact hsz (by omega) hnewsz hsized ht

theorem returns_shrink_empty (hneg : n < 0) (hmin : -2 ^ 31 ≤ n) :
    Returns (growproc L d 0 n) s (Unchanged d 0 s) := by
  rw [growproc, if_neg (by omega), if_pos hneg, deallocuvm, if_pos (Nat.zero_le _)]
  refine returns_bind ((returns_pure _).mpr ?_)
  rw [if_pos rfl, returns_pure]
  exact ⟨rfl, rfl, fun _ _ _ => ⟨rfl, rfl⟩⟩

/-- Giving back all memory is reported as a failure, after the pages are gone. -/
theorem returns_shrink_all (hsz : sz ≤ KERNBASE) (hpos : 0 < sz) (hall : sz + n = 0)
    (h : Owned P R d s) :
    Returns (growproc L d sz n) s fun r t =>
      r = (-1, sz) ∧ ∀ b, Aligned b → b < sz → ¬ Present (pteAt t.mem d b) := by
  have hnew : addInt sz n = 0 := by
    unfold addInt
    omega
  rw [growproc, if_neg (by omega), if_pos (by omega), hnew]
  refine returns_bind (returns_deallocuvm hsz hpos h fun t ht => ?_)
  rw [if_pos rfl, returns_pure]
  exact ⟨rfl, fun b hb hlt => ht.gone b hb (by simp [PGROUNDUP, uint32, PGSIZE]) hlt⟩

/-- Giving back more than all memory is reported as a success, and nothing is done. -/
theorem returns_shrink_below (hsz : sz ≤ KERNBASE) (hpos : 0 < sz) (hbelow : sz + n < 0)
    (hmin : -2 ^ 31 ≤ n) : Returns (growproc L d sz n) s fun r _ => r = (0, sz) := by
  have hnew : sz ≤ addInt sz n := by
    unfold addInt
    rw [KERNBASE] at hsz
    omega
  rw [growproc, if_neg (by omega), if_pos (by omega), deallocuvm, if_pos hnew]
  refine returns_bind ((returns_pure _).mpr ?_)
  rw [if_neg (by omega), returns_pure]

/-- The calls that do what they should. -/
theorem returns_growproc (hsz : sz ≤ KERNBASE) (hmin : -2 ^ 31 ≤ n) (hmax : n < 2 ^ 31)
    (h : Owned P R d s) (hspans : Spans s.mem d sz) (hcond : sz = 0 ∨ 0 < sz + n) :
    Returns (growproc L d sz n) s fun r t => Exact d sz n s r t ∨ Unchanged d sz s r t := by
  have hsized := (spans_iff_sized hsz).mp hspans
  rcases lt_trichotomy n 0 with hneg | rfl | hpos
  · by_cases hzero : sz = 0
    · subst hzero
      exact (returns_shrink_empty hneg hmin).mono fun _ _ => .inr
    · exact (returns_shrink_exact hsz hneg (by omega) h hsized).mono fun _ _ => .inl
  · rw [growproc, if_neg (by omega), if_neg (by omega), returns_pure]
    refine .inl ⟨rfl, (add_zero _).symm, hspans, fun _ _ _ _ => ⟨rfl, rfl⟩, ?_⟩
    intro b _ hge hlt
    dsimp only at hlt
    omega
  · exact returns_grow hsz hpos hmax h hsized

/-- The calls that do neither. -/
theorem not_returns_growproc (hsz : sz ≤ KERNBASE) (hmin : -2 ^ 31 ≤ n) (h : Owned P R d s)
    (hspans : Spans s.mem d sz) (hpos : 0 < sz) (hle : sz + n ≤ 0) :
    ¬Returns (growproc L d sz n) s fun r t => Exact d sz n s r t ∨ Unchanged d sz s r t := by
  intro hreturns
  by_cases hall : sz + n = 0
  · obtain ⟨r, t, hgood, rfl, hgone⟩ := hreturns.both (returns_shrink_all hsz hpos hall h)
    rcases hgood with hexact | hunchanged
    · have := hexact.returned
      omega
    · have haligned : Aligned 0 := ⟨rfl, by omega⟩
      have huser : 0 < KERNBASE := by decide
      have hpresent := ((spans_iff_sized hsz).mp hspans 0 haligned huser).mpr hpos
      have hkept := (hunchanged.kept 0 haligned huser).1
      rw [mapping, mapping, if_pos hpresent, if_neg (hgone 0 haligned hpos)] at hkept
      cases hkept
  · obtain ⟨r, t, hgood, rfl⟩ :=
      hreturns.both (returns_shrink_below (L := L) hsz hpos (by omega) hmin)
    rcases hgood with hexact | hunchanged
    · have := hexact.size
      dsimp only at this
      omega
    · have := hunchanged.returned
      dsimp only at this
      omega

/-- growproc changes the size by exactly `n`, or fails and changes nothing, exactly if the process
has no memory or asks for a positive size. -/
theorem growproc_exact_or_unchanged_iff (hsz : sz ≤ KERNBASE) (hmin : -2 ^ 31 ≤ n)
    (hmax : n < 2 ^ 31) (h : Owned P R d s) (hspans : Spans s.mem d sz) :
    (Returns (growproc L d sz n) s fun r t => Exact d sz n s r t ∨ Unchanged d sz s r t) ↔
      sz = 0 ∨ 0 < sz + n := by
  constructor
  · intro hreturns
    by_contra hnot
    exact not_returns_growproc hsz hmin h hspans (by omega) (by omega) hreturns
  · intro hcond
    exact returns_growproc hsz hmin hmax h hspans hcond

/-! ### A process with one page -/

/-- The directory in frame 1024 has the table in frame 1025, which maps frame 1026 at 0. -/
def onePage (free : List Frame) : Vm where
  mem f j :=
    if f = 1024 ∧ j.val = 0 then entry (1025 * PGSIZE) (PTE_W ||| PTE_U)
    else if f = 1025 ∧ j.val = 0 then entry (1026 * PGSIZE) (PTE_W ||| PTE_U)
    else 0
  freelist := free
  deny := []

theorem freeable_range {n f : ℕ} (hn : n ≤ 2048) (hf : f ∈ range' 1024 (3 + n)) :
    Freeable smallKernel f := by
  obtain ⟨i, hi, rfl⟩ := mem_range'.mp hf
  simp only [Freeable, smallKernel, PGSIZE, PHYSTOP, KERNBASE]
  omega

def onePagePool (n : ℕ) (hn : n ≤ 2048) : Pool smallKernel where
  frames := (range' 1024 (3 + n) : List ℕ)
  nodup := Multiset.coe_nodup.mpr nodup_range'
  freeable _ hf := freeable_range hn (Multiset.mem_coe.mp hf)

section OnePage

variable (free : List Frame)

theorem onePage_dir (i : Fin NPTENTRIES) :
    target ((onePage free).mem 1024 i) = if i.val = 0 then some 1025 else none := by
  by_cases hi : i.val = 0
  · simp only [onePage, hi, and_self, if_true]
    exact target_entry (by decide) (by decide)
  · simp only [onePage, hi, and_false, if_false]
    exact tableFormat.target_blank

theorem onePage_table (j : Fin NPTENTRIES) :
    target ((onePage free).mem 1025 j) = if j.val = 0 then some 1026 else none := by
  have hne : (1025 = 1024) = False := by decide
  by_cases hj : j.val = 0
  · simp only [onePage, hne, hj, false_and, and_self, if_false, if_true]
    exact target_entry (by decide) (by decide)
  · simp only [onePage, hj, and_false, if_false]
    exact tableFormat.target_blank

theorem onePage_pte (b : ℕ) : target (pteAt (onePage free).mem 1024 b) =
    if (pdx b).val = 0 ∧ (ptx b).val = 0 then some 1026 else none := by
  have hdir := onePage_dir free (pdx b)
  by_cases hd : (pdx b).val = 0
  · rw [if_pos hd] at hdir
    rw [pteAt, Format.leaf_some (F := tableFormat) hdir, onePage_table]
    simp only [hd, true_and]
  · rw [if_neg hd] at hdir
    rw [pteAt, Format.leaf_none (F := tableFormat) hdir, if_neg (fun h => hd h.1)]
    exact tableFormat.target_blank

def firstEntry : Fin NPTENTRIES := ⟨0, Nat.zero_lt_succ _⟩

theorem onePage_footprint : tableFormat.footprint (onePage free).mem 1024 = {1024, 1025, 1026} := by
  have hheld : ∀ i : Fin NPTENTRIES, i ≠ firstEntry → i.val ≠ 0 := by
    intro i hi hzero
    exact hi (Fin.ext hzero)
  have htables : tableFormat.tables (onePage free).mem 1024 = {1025} := by
    rw [Format.tables_eq, sum_eq_single firstEntry]
    · exact Format.held_some ((onePage_dir free firstEntry).trans (if_pos rfl))
    · intro i _ hi
      exact Format.held_none ((onePage_dir free i).trans (if_neg (hheld i hi)))
    · intro hnot
      exact absurd (mem_univ _) hnot
  have hpages : tableFormat.pages (onePage free).mem 1024 = {1026} := by
    rw [Format.pages_eq, sum_eq_single firstEntry]
    · have hdir : tableFormat.target ((onePage free).mem 1024 firstEntry) = some 1025 :=
        (onePage_dir free firstEntry).trans (if_pos rfl)
      have howns : tableFormat.owns firstEntry = true := rfl
      rw [hdir, Format.pagesOf, if_pos howns, sum_eq_single firstEntry]
      · exact Format.held_some ((onePage_table free firstEntry).trans (if_pos rfl))
      · intro j _ hj
        exact Format.held_none ((onePage_table free j).trans (if_neg (hheld j hj)))
      · intro hnot
        exact absurd (mem_univ _) hnot
    · intro i _ hi
      have hdir : tableFormat.target ((onePage free).mem 1024 i) = none :=
        (onePage_dir free i).trans (if_neg (hheld i hi))
      rw [hdir, Format.pagesOf]
    · intro hnot
      exact absurd (mem_univ _) hnot
  rw [Format.footprint_eq, htables, hpages]
  rfl

end OnePage

theorem onePage_owned (n : ℕ) (hn : n ≤ 2048) :
    Owned (onePagePool n hn) 0 1024 (onePage (range' 1027 n)) := by
  have hsplit : range' 1024 (3 + n) = [1024, 1025, 1026] ++ range' 1027 n := by
    rw [← range'_append_1]
    rfl
  rw [Owned, onePage_footprint, add_zero]
  change ((range' 1027 n : List ℕ) : Multiset ℕ) + {1024, 1025, 1026} =
    ((range' 1024 (3 + n) : List ℕ) : Multiset ℕ)
  rw [hsplit, ← Multiset.coe_add, add_comm]
  rfl

theorem onePage_spans (free : List Frame) : Spans (onePage free).mem 1024 4096 := by
  intro b hb huser
  have hpte := onePage_pte free b
  by_cases hfirst : (pdx b).val = 0 ∧ (ptx b).val = 0
  · rw [if_pos hfirst] at hpte
    refine iff_of_true (target_eq_some.mp hpte).1 ?_
    simp only [Aligned, PGSIZE, PGROUNDUP, uint32, pdx, ptx, NPTENTRIES, KERNBASE] at *
    omega
  · rw [if_neg hfirst] at hpte
    refine iff_of_false (target_eq_none.mp hpte) ?_
    simp only [Aligned, PGSIZE, PGROUNDUP, uint32, pdx, ptx, NPTENTRIES, KERNBASE] at *
    omega

/-- A process with one page asks for another one. -/
theorem growproc_exact_or_unchanged_onePage :
    (Returns (growproc smallKernel 1024 4096 4096) (onePage (range' 1027 1)) fun r t =>
      Exact 1024 4096 4096 (onePage (range' 1027 1)) r t ∨
        Unchanged 1024 4096 (onePage (range' 1027 1)) r t) ↔
      4096 = 0 ∨ 0 < ((4096 : ℕ) : ℤ) + 4096 :=
  growproc_exact_or_unchanged_iff (by decide) (by decide) (by decide)
    (onePage_owned 1 (by decide)) (onePage_spans _)

/-- A process with one page gives it back: the page is gone, and the call fails. -/
theorem growproc_fails_after_freeing :
    Spans (onePage []).mem 1024 4096 ∧
      (Returns (growproc smallKernel 1024 4096 (-4096)) (onePage []) fun r t =>
        r = (-1, 4096) ∧ ¬Present (pteAt t.mem 1024 0)) ∧
      ¬Returns (growproc smallKernel 1024 4096 (-4096)) (onePage []) fun r t =>
        Exact 1024 4096 (-4096) (onePage []) r t ∨ Unchanged 1024 4096 (onePage []) r t := by
  have howned := onePage_owned 0 (by decide)
  refine ⟨onePage_spans [], ?_, ?_⟩
  · refine (returns_shrink_all (by decide) (by decide) (by decide) howned).mono ?_
    rintro r t ⟨hr, hgone⟩
    exact ⟨hr, hgone 0 ⟨rfl, by decide⟩ (by decide)⟩
  · exact not_returns_growproc (by decide) (by decide) howned (onePage_spans []) (by decide)
      (by decide)

end KernelLabs.UserSizes

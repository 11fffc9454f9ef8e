import KernelLabs.MonitorFrames

/-!
setperm and the accounting of pages. The counter of a page is the number of entries that name
it: the entries of the directory that name it as a table, and the entries of the tables that
map it. Which parts of the address space are counted is a parameter, since boot_map_region
does not count the mappings that it makes above UTOP. setperm stores the present bit like any
other bit, and the counter of the page is not told.
-/
namespace KernelLabs.Monitor

open PageWords PhysPages PageDir PageRefinement KernelWords AddressSpace MemoryBytes PanicMonad
  TableOwners ReferenceCount RegionMap Function Finset

variable {M : MemSize}

/-! ### The entry that setperm stores -/

/-- The letter is P, and the present bit changes. -/
def Toggles (clear perm : String) (pte : Word) : Prop :=
  perm.toList.head? = some 'P' ∧ (clear.toList.head? = some '0' ↔ Present pte)

section Entry

variable (clear perm : String) (w : Word)

theorem permBit_and : permBit perm &&& 0xFFF = permBit perm := by
  unfold permBit
  split <;> decide

/-- Of the bits only the one with the given letter can change. -/
theorem permEntry_xor : (permEntry clear perm w ^^^ w) &&& ~~~permBit perm = 0 := by
  unfold permEntry
  refine BitVec.eq_of_getLsbD_eq fun i hi => ?_
  split <;>
    simp only [BitVec.getLsbD_and, BitVec.getLsbD_or, BitVec.getLsbD_xor, BitVec.getLsbD_not, hi,
      decide_true, Bool.true_and, BitVec.ofNat_eq_ofNat, BitVec.getLsbD_zero] <;>
    cases w.getLsbD i <;> cases (permBit perm).getLsbD i <;> rfl

theorem permBit_and_eq_zero_or (x : Word) :
    permBit perm &&& x = 0 ∨ permBit perm &&& x = permBit perm := by
  have hbit (k : ℕ) : BitVec.twoPow 32 k &&& x = 0 ∨
      BitVec.twoPow 32 k &&& x = BitVec.twoPow 32 k := by
    rw [BitVec.and_comm, BitVec.and_twoPow]
    split
    · exact Or.inr rfl
    · exact Or.inl rfl
  unfold permBit
  split
  · exact hbit 0
  · exact hbit 1
  · exact hbit 2
  · exact Or.inl BitVec.zero_and

/-- Rights are taken together with a word: they change with the bit unless the word is without
it. -/
theorem permEntry_and_eq_iff (x : Word) :
    permEntry clear perm w &&& x = w &&& x ↔ permEntry clear perm w = w ∨ permBit perm &&& x = 0 := by
  have hxor := permEntry_xor clear perm w
  have hother (i : ℕ) (hi : i < 32) (h : (permBit perm).getLsbD i = false) :
      (permEntry clear perm w).getLsbD i = w.getLsbD i := by
    have hat := congrArg (fun v : Word => v.getLsbD i) hxor
    simp only [BitVec.getLsbD_and, BitVec.getLsbD_xor, BitVec.getLsbD_not, hi, decide_true, h,
      Bool.not_false, Bool.and_true, BitVec.ofNat_eq_ofNat, BitVec.getLsbD_zero] at hat
    simpa using hat
  constructor
  · intro heq
    refine (permBit_and_eq_zero_or perm x).symm.imp_left fun hbit => ?_
    refine BitVec.eq_of_getLsbD_eq fun i hi => ?_
    cases h : (permBit perm).getLsbD i with
    | false => exact hother i hi h
    | true =>
      have hx := congrArg (fun v : Word => v.getLsbD i) hbit
      have hat := congrArg (fun v : Word => v.getLsbD i) heq
      simp only [BitVec.getLsbD_and, h, Bool.true_and] at hx hat
      simpa [hx] using hat
  · rintro (heq | hzero)
    · rw [heq]
    · refine BitVec.eq_of_getLsbD_eq fun i hi => ?_
      have hat := congrArg (fun v : Word => v.getLsbD i) hzero
      simp only [BitVec.getLsbD_and, BitVec.ofNat_eq_ofNat, BitVec.getLsbD_zero] at hat ⊢
      cases h : (permBit perm).getLsbD i with
      | false => rw [hother i hi h]
      | true =>
        rw [h, Bool.true_and] at hat
        rw [hat, Bool.and_false, Bool.and_false]

theorem PGNUM_permEntry : PGNUM (permEntry clear perm w) = PGNUM w := by
  have hbit := permBit_and perm
  have haddr : PTE_ADDR (permEntry clear perm w) = PTE_ADDR w := by
    refine BitVec.eq_of_getLsbD_eq fun i hi => ?_
    have hlow := congrArg (fun v : Word => v.getLsbD i) hbit
    unfold permEntry PTE_ADDR
    simp only [BitVec.getLsbD_and] at hlow
    split <;> simp only [BitVec.getLsbD_and, BitVec.getLsbD_or, BitVec.getLsbD_not, hi, decide_true,
      Bool.true_and]
    all_goals
      cases hmask : (0xFFF : Word).getLsbD i
      · rw [hmask, Bool.and_false] at hlow
        simp [← hlow]
      · simp
  rw [← PGNUM_PTE_ADDR, haddr, PGNUM_PTE_ADDR]

theorem present_iff_getLsbD : Present w ↔ w.getLsbD 0 = true := by
  rw [present_iff, BitVec.getLsbD, Nat.testBit_zero, decide_eq_true_iff]

theorem getLsbD_permBit : (permBit perm).getLsbD 0 = true ↔ perm.toList.head? = some 'P' := by
  unfold permBit
  split
  · exact iff_of_true (by decide) (by assumption)
  all_goals
    rename_i hletter
    refine iff_of_false (by decide) fun hP => ?_
  · rw [hletter] at hP
    cases hP
  · rw [hletter] at hP
    cases hP
  · contradiction

theorem permBit_of_toggles {clear perm : String} {w : Word} (h : Toggles clear perm w) :
    permBit perm = PTE_P := by
  unfold permBit
  rw [h.1]
  rfl

/-- The entry is present as before unless setperm changes that very bit. -/
theorem present_permEntry_iff :
    (Present (permEntry clear perm w) ↔ Present w) ↔ ¬Toggles clear perm w := by
  rw [Toggles, ← getLsbD_permBit, present_iff_getLsbD, present_iff_getLsbD, permEntry]
  by_cases hclear : clear.toList.head? = some '0'
  · rw [if_pos hclear, BitVec.getLsbD_and, BitVec.getLsbD_not]
    cases w.getLsbD 0 <;> cases (permBit perm).getLsbD 0 <;> simp [hclear]
  · rw [if_neg hclear, BitVec.getLsbD_or]
    cases w.getLsbD 0 <;> cases (permBit perm).getLsbD 0 <;> simp [hclear]

def frame (M : MemSize) (w : Word) : Option (Page M) := (decode M w).map Prod.fst

theorem frame_eq_iff {w' : Word} (hnum : PGNUM w' = PGNUM w) :
    frame M w' = frame M w ↔ (PGNUM w < M.npages → (Present w' ↔ Present w)) := by
  unfold frame decode
  by_cases hlt : PGNUM w < M.npages
  · by_cases h : Present w <;> by_cases h' : Present w' <;> simp [h, h', hlt, hnum]
  · have hlt' : ¬PGNUM w' < M.npages := hnum ▸ hlt
    by_cases h : Present w <;> by_cases h' : Present w' <;> simp [h, h', hlt, hlt']

theorem eq_PTE_P {w : Word} (hpresent : Present w) (h : (0 ^^^ w) &&& ~~~PTE_P = 0) :
    w = PTE_P := by
  have hlow : ∀ i < 32, PTE_P.getLsbD i = decide (i = 0) := by decide
  refine BitVec.eq_of_getLsbD_eq fun i hi => ?_
  rw [hlow i hi]
  by_cases hzero : i = 0
  · rw [hzero, (present_iff_getLsbD w).mp hpresent]
    rfl
  · have hat := congrArg (fun v : Word => v.getLsbD i) h
    simp only [BitVec.getLsbD_and, BitVec.getLsbD_xor, BitVec.getLsbD_not, hi, decide_true,
      hlow i hi, hzero, decide_false, Bool.not_false, Bool.and_true, BitVec.ofNat_eq_ofNat,
      BitVec.getLsbD_zero, Bool.false_xor] at hat
    rw [hat, decide_eq_false hzero]

theorem frame_zero : frame M 0 = none := congrArg (Option.map Prod.fst) decode_zero

theorem frame_of_present {n : ℕ} (hlt : n < M.npages) (hpresent : Present w) (hnum : PGNUM w = n) :
    frame M w = some ⟨n, hlt⟩ := by
  subst hnum
  rw [frame, decode, if_pos hpresent, dif_pos hlt]
  rfl

theorem present_of_frame {w : Word} (h : frame M w ≠ none) : Present w := by
  by_contra habsent
  exact h (by rw [frame, decode, if_neg habsent]; rfl)

theorem frame_permEntry_iff :
    frame M (permEntry clear perm w) = frame M w ↔ ¬(PGNUM w < M.npages ∧ Toggles clear perm w) := by
  rw [frame_eq_iff w (PGNUM_permEntry clear perm w), present_permEntry_iff, not_and]

end Entry

/-! ### The accounting -/

def dirTargets (s : Phys M) (pgdir : Page M) (i : Fin NPTENTRIES) : Option (Page M) :=
  (dirFormat pgdir).target (s.mem pgdir i)

/-- The pages that the entries of the tables map, for the directory entries that count. -/
def entryTargets (counted : Fin NPTENTRIES → Bool) (s : Phys M) (pgdir : Page M)
    (v : Fin NPTENTRIES × Fin NPTENTRIES) : Option (Page M) :=
  if counted v.1 then frame M ((dirFormat pgdir).leaf s.mem pgdir v.1 v.2) else none

def Accounted (counted : Fin NPTENTRIES → Bool) (s : Phys M) (pgdir : Page M) : Prop :=
  ∀ p, (s.pages p).ref.toNat = count (dirTargets s pgdir) p + count (entryTargets counted s pgdir) p

section Accounting

variable {counted : Fin NPTENTRIES → Bool} {s : Phys M} {pgdir t q : Page M}
  {free : List (Page M)} {i : Fin NPTENTRIES}

theorem dirTargets_store (h : Tabled s pgdir free) (ht : dirTargets s pgdir i = some t)
    (j : Fin NPTENTRIES) (w : Word) : dirTargets (s.setWord t j w) pgdir = dirTargets s pgdir := by
  have hdir : (s.setWord t j w).mem pgdir = s.mem pgdir := Format.store_dir h.footprint_nodup ht
  funext k
  rw [dirTargets, hdir, dirTargets]

theorem entryTargets_store (h : Tabled s pgdir free) (ht : dirTargets s pgdir i = some t)
    (j : Fin NPTENTRIES) (w : Word) :
    entryTargets counted (s.setWord t j w) pgdir =
      update (entryTargets counted s pgdir) (i, j)
        (if counted i then frame M w else none) := by
  funext v
  by_cases hv : v = (i, j)
  · have hleaf : (dirFormat pgdir).leaf (s.setWord t j w).mem pgdir i j = w :=
      Format.leaf_store_self h.footprint_nodup ht
    rw [hv, update_self, entryTargets, hleaf]
  · have hne : ¬(v.1 = i ∧ v.2 = j) := fun heq => hv (Prod.ext heq.1 heq.2)
    have hleaf : (dirFormat pgdir).leaf (s.setWord t j w).mem pgdir v.1 v.2 =
        (dirFormat pgdir).leaf s.mem pgdir v.1 v.2 :=
      Format.leaf_store_ne h.footprint_nodup ht hne
    rw [update_of_ne hv, entryTargets, hleaf, entryTargets]

/-- A store to an entry keeps the accounting exactly when the entry maps the same page as
before. -/
theorem accounted_store_iff (h : Tabled s pgdir free) (hacc : Accounted counted s pgdir)
    (ht : dirTargets s pgdir i = some t) (j : Fin NPTENTRIES) (w : Word) :
    Accounted counted (s.setWord t j w) pgdir ↔
      (counted i = true → frame M w = frame M (s.mem t j)) := by
  have hleaf : (dirFormat pgdir).leaf s.mem pgdir i j = s.mem t j := Format.leaf_some ht
  have hcounts : Accounted counted (s.setWord t j w) pgdir ↔
      ∀ p, count (entryTargets counted (s.setWord t j w) pgdir) p =
        count (entryTargets counted s pgdir) p := by
    refine forall_congr' fun p => ?_
    have hp : (s.pages p).ref.toNat = _ := hacc p
    change (s.pages p).ref.toNat = _ ↔ _
    rw [dirTargets_store h ht, hp, Nat.add_left_cancel_iff]
    exact eq_comm
  rw [hcounts, entryTargets_store h ht, count_update_eq_iff, entryTargets, hleaf]
  cases counted i <;> simp

theorem accounted_addTable (h : Tabled s pgdir (q :: free)) (hacc : Accounted counted s pgdir)
    (habsent : ¬Present (s.mem pgdir i)) : Accounted counted (addTable s pgdir i q) pgdir := by
  have hne : q ≠ pgdir := h.free_ne_dir List.mem_cons_self
  obtain ⟨hgrown, hdir, _⟩ := h.addTable (mem_singleton_self i) habsent
  obtain ⟨_, hleaf⟩ := Format.newTable h.footprint_nodup (target_of_absent habsent)
    (target_dirEntry hne) (h.notMem_footprint List.mem_cons_self)
  have hentries : entryTargets counted (addTable s pgdir i q) pgdir =
      entryTargets counted s pgdir := by
    funext v
    have hv : (dirFormat pgdir).leaf (addTable s pgdir i q).mem pgdir v.1 v.2 =
        (dirFormat pgdir).leaf s.mem pgdir v.1 v.2 := hleaf v.1 v.2
    rw [entryTargets, hv, entryTargets]
  have hdirs : dirTargets (addTable s pgdir i q) pgdir =
      update (dirTargets s pgdir) i (some q) := by
    funext k
    rw [dirTargets, hdir]
    by_cases hk : k = i
    · rw [hk, update_self, update_self, target_dirEntry hne]
    · rw [update_of_ne hk, update_of_ne hk, dirTargets]
  have hnone : dirTargets s pgdir i = none := target_of_absent habsent
  intro p
  have hcount := count_update (dirTargets s pgdir) i (some q) p
  rw [hnone, if_neg (by intro h; contradiction), ← hdirs] at hcount
  rw [hentries]
  by_cases hpq : p = q
  · have hzero : (s.pages p).ref = 0 := h.freeChain.ref p (hpq ▸ List.mem_cons_self)
    have hp := hacc p
    rw [hzero] at hp
    change 0 = _ at hp
    rw [hgrown.ref p (List.mem_singleton.mpr hpq)]
    rw [if_pos (congrArg some hpq.symm)] at hcount
    change 1 = _
    omega
  · rw [hgrown.info p (fun hmem => hpq (List.mem_singleton.mp hmem)), hacc p]
    rw [if_neg (fun heq => hpq (Option.some.inj heq).symm)] at hcount
    omega

end Accounting

/-! ### The entries of the addresses -/

def entryOf (s : Phys M) (pgdir : Page M) (va : Word) : Word :=
  ((tableOf s pgdir (PDX va)).map fun t => s.mem t (PTX va)).getD 0

/-- At most the given bit of the entry of one address changes, the other pages are translated
as before with the same rights, and the counters are right. -/
structure LocalChange (counted : Fin NPTENTRIES → Bool) (pgdir : Page M) (s t : Phys M)
    (addr bit : Word) : Prop where
  entry : (entryOf t pgdir addr ^^^ entryOf s pgdir addr) &&& ~~~bit = 0
  others : ∀ u : Word, u.toNat / 4096 ≠ addr.toNat / 4096 → entryOf t pgdir u = entryOf s pgdir u
  walks : ∀ u : Word, u.toNat / 4096 ≠ addr.toNat / 4096 →
    AddressSpace.translate t pgdir u = AddressSpace.translate s pgdir u
  accounted : Accounted counted t pgdir

section Entries

variable {counted : Fin NPTENTRIES → Bool} {s : Phys M} {pgdir table q : Page M}
  {free : List (Page M)} {addr : Word}

theorem entryOf_of_table {va : Word} (h : tableOf s pgdir (PDX va) = some table) :
    entryOf s pgdir va = s.mem table (PTX va) := by
  rw [entryOf, h]
  rfl

theorem entryOf_of_absent {va : Word} (h : tableOf s pgdir (PDX va) = none) :
    entryOf s pgdir va = 0 := by
  rw [entryOf, h]
  rfl

theorem translate_eq_entryOf (va : Word) : AddressSpace.translate s pgdir va =
    if Present (entryOf s pgdir va) then
      some (PTE_ADDR (entryOf s pgdir va) + PGOFF va, s.mem pgdir (PDX va) &&& entryOf s pgdir va)
    else none := by
  cases h : tableOf s pgdir (PDX va) with
  | none =>
    rw [AddressSpace.translate, h, entryOf_of_absent h, if_neg (by decide)]
    rfl
  | some t => rw [AddressSpace.translate, h, entryOf_of_table h, Option.bind_some]

theorem LocalChange.refl (hacc : Accounted counted s pgdir) (bit : Word) :
    LocalChange counted pgdir s s addr bit := by
  refine ⟨?_, fun _ _ => rfl, fun _ _ => rfl, hacc⟩
  rw [BitVec.xor_self]
  exact BitVec.zero_and

/-- A store that keeps the tables changes the entry of one page, if it is made in the one table
of that page. -/
theorem entryOf_setWord {q : Page M} {w u : Word}
    (htables : tableOf (s.setWord q (PTX addr) w) pgdir (PDX u) = tableOf s pgdir (PDX u))
    (hq : tableOf s pgdir (PDX addr) = some q)
    (hunique : tableOf s pgdir (PDX u) = some q → PDX u = PDX addr) :
    entryOf (s.setWord q (PTX addr) w) pgdir u =
      if u.toNat / 4096 = addr.toNat / 4096 then w else entryOf s pgdir u := by
  split
  · rename_i hpage
    obtain ⟨hPDX, hPTX⟩ := index_eq_iff.mpr hpage
    rw [entryOf_of_table (htables.trans (hPDX ▸ hq)), hPTX, setWord_mem_self, update_self]
  · rename_i hpage
    cases hu : tableOf s pgdir (PDX u) with
    | none => rw [entryOf_of_absent hu, entryOf_of_absent (htables.trans hu)]
    | some r =>
      rw [entryOf_of_table hu, entryOf_of_table (htables.trans hu)]
      by_cases hr : r = q
      · have hindex : PTX u ≠ PTX addr := fun heq =>
          hpage (index_eq_iff.mp ⟨hunique (hr ▸ hu), heq⟩)
        rw [hr, setWord_mem_self, update_of_ne hindex]
      · rw [setWord_mem_ne s hr]

/-- A store to the entry of an address changes no other entry. -/
theorem entryOf_store (h : Tabled s pgdir free) (ht : dirTargets s pgdir (PDX addr) = some table)
    (w u : Word) : entryOf (s.setWord table (PTX addr) w) pgdir u =
      if u.toNat / 4096 = addr.toNat / 4096 then w else entryOf s pgdir u := by
  obtain ⟨htable, hne⟩ := target_eq_some.mp ht
  refine entryOf_setWord ?_ htable fun hu => ?_
  · have hdir : (s.setWord table (PTX addr) w).mem pgdir = s.mem pgdir :=
      Format.store_dir h.footprint_nodup ht
    rw [tableOf, tableOf, hdir]
  · -- the table has one place in the directory
    exact Format.table_inj h.footprint_nodup (target_eq_some.mpr ⟨hu, hne⟩) ht

/-- setperm keeps the accounting unless it toggles the present bit of an entry that counts. -/
theorem accounted_permEntry_iff (h : Tabled s pgdir free) (hacc : Accounted counted s pgdir)
    (ht : dirTargets s pgdir (PDX addr) = some table) (clear perm : String) :
    Accounted counted (s.setWord table (PTX addr)
        (permEntry clear perm (s.mem table (PTX addr)))) pgdir ↔
      ¬(counted (PDX addr) = true ∧ PGNUM (s.mem table (PTX addr)) < M.npages ∧
        Toggles clear perm (s.mem table (PTX addr))) := by
  rw [accounted_store_iff h hacc ht, frame_permEntry_iff, ← not_and]

theorem localChange_store_iff (h : Tabled s pgdir free) (hacc : Accounted counted s pgdir)
    (ht : dirTargets s pgdir (PDX addr) = some table) (clear perm : String) :
    LocalChange counted pgdir s (s.setWord table (PTX addr)
        (permEntry clear perm (s.mem table (PTX addr)))) addr (permBit perm) ↔
      ¬(counted (PDX addr) = true ∧ PGNUM (s.mem table (PTX addr)) < M.npages ∧
        Toggles clear perm (s.mem table (PTX addr))) := by
  rw [← accounted_permEntry_iff h hacc ht]
  constructor
  · exact fun hlocal => hlocal.accounted
  · intro haccounts
    have htable := (target_eq_some.mp ht).1
    have hdir : (s.setWord table (PTX addr) (permEntry clear perm (s.mem table (PTX addr)))).mem
        pgdir = s.mem pgdir := Format.store_dir h.footprint_nodup ht
    refine ⟨?_, fun u hu => ?_, fun u hu => ?_, haccounts⟩
    · rw [entryOf_store h ht, if_pos rfl, entryOf_of_table htable]
      exact permEntry_xor clear perm _
    · rw [entryOf_store h ht, if_neg hu]
    · rw [translate_eq_entryOf, translate_eq_entryOf, entryOf_store h ht, if_neg hu, hdir]

section NewTable

variable (h : Tabled s pgdir (q :: free)) (habsent : ¬Present (s.mem pgdir (PDX addr)))

include h habsent

theorem tabled_addTable : Tabled (addTable s pgdir (PDX addr) q) pgdir free :=
  (h.addTable (mem_singleton_self _) habsent).1.tabled

theorem mem_addTable_dir : (addTable s pgdir (PDX addr) q).mem pgdir =
    update (s.mem pgdir) (PDX addr) (dirEntry q) :=
  (h.addTable (mem_singleton_self _) habsent).2.1

theorem dirTargets_addTable :
    dirTargets (addTable s pgdir (PDX addr) q) pgdir (PDX addr) = some q := by
  rw [dirTargets, mem_addTable_dir h habsent, update_self,
    target_dirEntry (h.free_ne_dir List.mem_cons_self)]

theorem tableOf_addTable_of_ne {i : Fin NPTENTRIES} (hi : i ≠ PDX addr) :
    tableOf (addTable s pgdir (PDX addr) q) pgdir i = tableOf s pgdir i := by
  rw [tableOf, tableOf, mem_addTable_dir h habsent, update_of_ne hi]

/-- Where the directory is not one of its own tables, no entry shows the new table. -/
theorem entryOf_addTable (hself : ∀ i, tableOf s pgdir i ≠ some pgdir) (u : Word) :
    entryOf (addTable s pgdir (PDX addr) q) pgdir u = entryOf s pgdir u := by
  have hne : q ≠ pgdir := h.free_ne_dir List.mem_cons_self
  by_cases hu : PDX u = PDX addr
  · have hnone : tableOf s pgdir (PDX u) = none := by
      rw [hu]
      exact (tableOf_eq_none (h.inRange _)).mpr habsent
    have hsome : tableOf (addTable s pgdir (PDX addr) q) pgdir (PDX u) = some q := by
      rw [hu]
      exact (target_eq_some.mp (dirTargets_addTable h habsent)).1
    rw [entryOf_of_absent hnone, entryOf_of_table hsome, addTable_mem_new s hne]
  · have htables := tableOf_addTable_of_ne h habsent hu
    cases hr : tableOf s pgdir (PDX u) with
    | none => rw [entryOf_of_absent hr, entryOf_of_absent (htables.trans hr)]
    | some r =>
      have hdir : r ≠ pgdir := fun heq => hself (PDX u) (heq ▸ hr)
      have hnew : r ≠ q := by
        rintro rfl
        exact h.notMem_footprint List.mem_cons_self
          (Format.table_mem_footprint (target_eq_some.mpr ⟨hr, hdir⟩))
      rw [entryOf_of_table hr, entryOf_of_table (htables.trans hr), addTable_mem_ne s hdir hnew]

/-- A directory that is its own table shows every new table as a new page. -/
theorem not_localChange_of_self {i : Fin NPTENTRIES} (hself : tableOf s pgdir i = some pgdir)
    (w bit : Word) : ¬LocalChange counted pgdir s
      ((addTable s pgdir (PDX addr) q).setWord q (PTX addr) w) addr bit := by
  intro hlocal
  obtain ⟨u, hdir, htab⟩ := exists_address i (PDX addr)
  have hi : i ≠ PDX addr := by
    rintro rfl
    exact habsent (tableOf_eq_some hself).1
  have hpage : u.toNat / 4096 ≠ addr.toNat / 4096 := by
    intro heq
    exact hi (hdir ▸ (index_eq_iff.mpr heq).1)
  have hafter : entryOf (addTable s pgdir (PDX addr) q) pgdir u = dirEntry q := by
    have hsome : tableOf (addTable s pgdir (PDX addr) q) pgdir (PDX u) = some pgdir := by
      rw [hdir, tableOf_addTable_of_ne h habsent hi, hself]
    rw [entryOf_of_table hsome, htab, mem_addTable_dir h habsent, update_self]
  have hbefore : entryOf s pgdir u = s.mem pgdir (PDX addr) := by
    rw [entryOf_of_table (hdir ▸ hself), htab]
  have hsame := hlocal.others u hpage
  rw [entryOf_store (tabled_addTable h habsent) (dirTargets_addTable h habsent), if_neg hpage,
    hafter, hbefore] at hsame
  exact habsent (hsame ▸ present_dirEntry q)

theorem localChange_alloc_iff (hacc : Accounted counted s pgdir) (clear perm : String) :
    LocalChange counted pgdir s ((addTable s pgdir (PDX addr) q).setWord q (PTX addr)
        (permEntry clear perm ((addTable s pgdir (PDX addr) q).mem q (PTX addr)))) addr
        (permBit perm) ↔
      (∀ i, tableOf s pgdir i ≠ some pgdir) ∧
        ¬(counted (PDX addr) = true ∧ Toggles clear perm 0) := by
  have hne : q ≠ pgdir := h.free_ne_dir List.mem_cons_self
  have hzero : (addTable s pgdir (PDX addr) q).mem q (PTX addr) = 0 := by
    rw [addTable_mem_new s hne]
  have htabled := tabled_addTable h habsent
  have haccounted := accounted_addTable h hacc habsent
  have htarget := dirTargets_addTable h habsent
  have hframe : PGNUM ((addTable s pgdir (PDX addr) q).mem q (PTX addr)) < M.npages := by
    rw [hzero]
    exact M.pos
  have hcounted := accounted_permEntry_iff htabled haccounted htarget clear perm
  have hstore := localChange_store_iff htabled haccounted htarget clear perm
  simp only [hframe, true_and] at hcounted hstore
  rw [hzero] at hcounted hstore ⊢
  constructor
  · intro hlocal
    refine ⟨fun i hself => ?_, hcounted.mp hlocal.accounted⟩
    exact not_localChange_of_self h habsent hself _ _ hlocal
  · rintro ⟨hself, htoggles⟩
    have hlocal := hstore.mpr htoggles
    have hentries := entryOf_addTable h habsent hself
    refine ⟨?_, fun u hu => ?_, fun u hu => ?_, hlocal.accounted⟩
    · rw [← hentries]
      exact hlocal.entry
    · rw [← hentries]
      exact hlocal.others u hu
    · rw [hlocal.walks u hu, translate_eq_entryOf, translate_eq_entryOf, hentries]
      by_cases hdir : PDX u = PDX addr
      · have hnone : tableOf s pgdir (PDX u) = none := by
          rw [hdir]
          exact (tableOf_eq_none (h.inRange _)).mpr habsent
        rw [entryOf_of_absent hnone, if_neg (by decide), if_neg (by decide)]
      · rw [mem_addTable_dir h habsent, update_of_ne hdir]

end NewTable

end Entries

/-! ### A memory of two pages -/

theorem tabled_twoPages : Tabled twoPagesState.phys twoPagesMachine.kernPgdir [⟨1, by decide⟩] := by
  have hzero : ¬Present (0 : Word) := by decide
  refine ⟨⟨.cons .nil, fun p _ => rfl⟩, ?_, fun i hpresent => absurd hpresent hzero⟩
  have hfoot : (dirFormat twoPagesMachine.kernPgdir).footprint twoPagesState.phys.mem
      twoPagesMachine.kernPgdir = {twoPagesMachine.kernPgdir} := Format.footprint_blank fun _ => rfl
  rw [hfoot]
  decide

theorem accounted_twoPages (counted : Fin NPTENTRIES → Bool) :
    Accounted counted twoPagesState.phys twoPagesMachine.kernPgdir := by
  intro p
  have hdir : count (dirTargets twoPagesState.phys twoPagesMachine.kernPgdir) p = 0 := by
    refine count_eq_zero_iff.mpr fun i h => ?_
    have hnone : dirTargets twoPagesState.phys twoPagesMachine.kernPgdir i = none :=
      (dirFormat twoPagesMachine.kernPgdir).target_blank
    rw [hnone] at h
    contradiction
  have hentries : count (entryTargets counted twoPagesState.phys twoPagesMachine.kernPgdir) p = 0 := by
    refine count_eq_zero_iff.mpr fun v h => ?_
    have hleaf := Format.leaf_blank (F := dirFormat twoPagesMachine.kernPgdir)
      (m := twoPagesState.phys.mem) (d := twoPagesMachine.kernPgdir) (fun _ => rfl) v.1 v.2
    rw [entryTargets, hleaf] at h
    split at h <;> contradiction
  rw [hdir, hentries]
  rfl

end KernelLabs.Monitor

import KernelLabs.MonitorPerms

/-!
The command setperm, and what it may be asked for. Where the directory is its own table, as at
UVPT, the entry of an address is an entry of the directory: its present bit is that of a whole
table, and its other bits are rights to all the pages of the table.
-/
namespace KernelLabs.Monitor

open PageWords PhysPages PageDir PageRefinement KernelWords AddressSpace MemoryBytes PanicMonad
  TableOwners ReferenceCount RegionMap Function Option

variable {M : MemSize}

/-! ### The directory's window on itself -/

/-- What may be done to an entry of the directory, through the one window on it. The present bit
may change if the entry names no page of the memory, or if the entry is all that there is. Another
bit may change if no other page that is present through the entry has it. -/
def WindowHarmless (pgdir : Page M) (s : Phys M) (addr : Word) (clear perm : String) : Prop :=
  (∀ k, tableOf s pgdir k = some pgdir → k = PDX addr) ∧
    (Toggles clear perm (s.mem pgdir (PTX addr)) →
      M.npages ≤ PGNUM (s.mem pgdir (PTX addr)) ∨
        PTX addr = PDX addr ∧ ∀ k, s.mem pgdir k = if k = PTX addr then PTE_P else 0) ∧
    (¬Toggles clear perm (s.mem pgdir (PTX addr)) →
      ∀ u : Word, PDX u = PTX addr → u.toNat / 4096 ≠ addr.toNat / 4096 →
        Present (entryOf s pgdir u) → permBit perm &&& entryOf s pgdir u = 0)

section Window

variable {counted : Fin NPTENTRIES → Bool} {s : Phys M} {pgdir p : Page M} {free : List (Page M)}
  {addr w w' : Word} {i : Fin NPTENTRIES}

theorem setWord_self (t : Page M) (j : Fin NPTENTRIES) : s.setWord t j (s.mem t j) = s := by
  rw [Phys.setWord, update_eq_self, update_eq_self]

theorem tableOf_setDir (w : Word) (k : Fin NPTENTRIES) :
    tableOf (s.setWord pgdir i w) pgdir k = if k = i then frame M w else tableOf s pgdir k := by
  rw [tableOf, setWord_mem_self]
  by_cases hk : k = i
  · rw [hk, update_self, if_pos rfl, frame]
  · rw [update_of_ne hk, if_neg hk, tableOf]

theorem leaf_setDir (w : Word) (k j : Fin NPTENTRIES) :
    (dirFormat pgdir).leaf (s.setWord pgdir i w).mem pgdir k j =
      if k = i then ((dirFormat pgdir).target w).elim 0 (s.mem · j)
      else (dirFormat pgdir).leaf s.mem pgdir k j := by
  have htable {t : Page M} (ht : t ≠ pgdir) : (s.setWord pgdir i w).mem t = s.mem t :=
    setWord_mem_ne s ht i w
  by_cases hk : k = i
  · have hdir : (s.setWord pgdir i w).mem pgdir k = w := by
      rw [setWord_mem_self, hk, update_self]
    rw [if_pos hk]
    cases ht : (dirFormat pgdir).target w with
    | none => exact Format.leaf_none (hdir.symm ▸ ht)
    | some t =>
      rw [Format.leaf_some (hdir.symm ▸ ht), htable (target_eq_some.mp ht).2]
      rfl
  · have hdir : (s.setWord pgdir i w).mem pgdir k = s.mem pgdir k := by
      rw [setWord_mem_self, update_of_ne hk]
    rw [if_neg hk]
    cases ht : (dirFormat pgdir).target (s.mem pgdir k) with
    | none => rw [Format.leaf_none ht, Format.leaf_none (hdir.symm ▸ ht)]
    | some t =>
      rw [Format.leaf_some ht, Format.leaf_some (hdir.symm ▸ ht), htable (target_eq_some.mp ht).2]

theorem dirTargets_setDir (w : Word) : dirTargets (s.setWord pgdir i w) pgdir =
    update (dirTargets s pgdir) i ((dirFormat pgdir).target w) := by
  funext k
  rw [dirTargets, setWord_mem_self]
  by_cases hk : k = i
  · rw [hk, update_self, update_self]
  · rw [update_of_ne hk, update_of_ne hk, dirTargets]

/-- An entry of the directory that names the same table as before counts as before. -/
theorem accounted_setDir (hacc : Accounted counted s pgdir)
    (htarget : (dirFormat pgdir).target w = (dirFormat pgdir).target (s.mem pgdir i)) :
    Accounted counted (s.setWord pgdir i w) pgdir := by
  have hdirs : dirTargets (s.setWord pgdir i w) pgdir = dirTargets s pgdir := by
    rw [dirTargets_setDir, htarget]
    exact update_eq_self _ _
  have hentries : entryTargets counted (s.setWord pgdir i w) pgdir = entryTargets counted s pgdir := by
    funext v
    have hleaf : (dirFormat pgdir).leaf (s.setWord pgdir i w).mem pgdir v.1 v.2 =
        (dirFormat pgdir).leaf s.mem pgdir v.1 v.2 := by
      rw [leaf_setDir, htarget, ← leaf_setDir, setWord_self]
    rw [entryTargets, hleaf, entryTargets]
  intro p
  rw [hdirs, hentries]
  exact hacc p

/-- An entry that names a table is counted with all that the table maps. -/
theorem not_accounted_setDir (hnone : (dirFormat pgdir).target w = none)
    (hsome : (dirFormat pgdir).target w' = some p)
    (hacc : Accounted counted (s.setWord pgdir i w) pgdir) :
    ¬Accounted counted (s.setWord pgdir i w') pgdir := by
  intro hacc'
  have hdir := count_update (dirTargets (s.setWord pgdir i w) pgdir) i (some p) p
  have hdirs : update (dirTargets (s.setWord pgdir i w) pgdir) i (some p) =
      dirTargets (s.setWord pgdir i w') pgdir := by
    rw [dirTargets_setDir, dirTargets_setDir, update_idem, hsome]
  have hold : dirTargets (s.setWord pgdir i w) pgdir i = none := by
    rw [dirTargets_setDir, update_self, hnone]
  have hentries : count (entryTargets counted (s.setWord pgdir i w) pgdir) p ≤
      count (entryTargets counted (s.setWord pgdir i w') pgdir) p := by
    refine count_le_count fun v hv => ?_
    rw [entryTargets, leaf_setDir] at hv ⊢
    by_cases hi : v.1 = i
    · rw [if_pos hi, hnone] at hv
      split at hv
      · exact absurd (frame_zero.symm.trans hv) (some_ne_none p).symm
      · cases hv
    · rw [if_neg hi] at hv ⊢
      exact hv
  have hp := hacc p
  have hp' : (s.pages p).ref.toNat = _ := hacc' p
  change (s.pages p).ref.toNat = _ at hp
  rw [hdirs, hold, if_neg (some_ne_none p).symm, if_pos rfl] at hdir
  omega

section Stored

variable {e bit : Word} (he : s.mem pgdir (PTX addr) = e) (hnum : PGNUM w = PGNUM e)

include he

theorem tableOf_entry : tableOf s pgdir (PTX addr) = frame M e := by rw [tableOf, he, frame]

include hnum

/-- Another window on the directory shows what changes in it. -/
theorem window_unique (hchange : w ≠ e)
    (hlocal : LocalChange counted pgdir s (s.setWord pgdir (PTX addr) w) addr bit)
    {k : Fin NPTENTRIES} (hk : tableOf s pgdir k = some pgdir) : k = PDX addr := by
  by_contra hne
  obtain ⟨u, hdir, htab⟩ := exists_address k (PTX addr)
  have hpage : u.toNat / 4096 ≠ addr.toNat / 4096 := fun heq =>
    hne (hdir ▸ (index_eq_iff.mpr heq).1)
  have hbefore : entryOf s pgdir u = e := by rw [entryOf_of_table (hdir ▸ hk), htab, he]
  have hsame := hlocal.others u hpage
  rw [hbefore] at hsame
  by_cases hafter : tableOf (s.setWord pgdir (PTX addr) w) pgdir k = some pgdir
  · rw [entryOf_of_table (hdir ▸ hafter), htab, setWord_mem_self, update_self] at hsame
    exact hchange hsame
  · -- the window was the entry that changed, and it is closed
    rw [tableOf_setDir] at hafter
    split at hafter
    · rename_i hentry
      have hframe : frame M e = some pgdir := by rw [← tableOf_entry he, ← hentry, hk]
      have hpresent : Present e := present_of_frame (by rw [hframe]; nofun)
      have hclosed : tableOf (s.setWord pgdir (PTX addr) w) pgdir (PDX u) = none := by
        rw [tableOf_setDir, hdir, if_pos hentry]
        by_contra hsome
        refine hafter (((frame_eq_iff e hnum).mpr fun _ => ?_).trans hframe)
        exact iff_of_true (present_of_frame hsome) hpresent
      rw [entryOf_of_absent hclosed] at hsame
      rw [← hsame] at hpresent
      exact absurd hpresent (by decide)
    · exact hafter hk

/-- The present bit of an entry that names another page takes a table away or brings one. -/
theorem not_localChange_table (hacc : Accounted counted s pgdir)
    (hflip : ¬(Present w ↔ Present e)) (hlt : PGNUM e < M.npages) (hother : PGNUM e ≠ pgdir.val) :
    ¬LocalChange counted pgdir s (s.setWord pgdir (PTX addr) w) addr bit := by
  intro hlocal
  have hacc' : Accounted counted (s.setWord pgdir (PTX addr) e) pgdir := by
    rwa [← he, setWord_self]
  have htarget {v : Word} (hpresent : Present v) (hv : PGNUM v = PGNUM e) :
      (dirFormat pgdir).target v = some ⟨PGNUM e, hlt⟩ :=
    target_eq_some.mpr
      ⟨frame_of_present v hlt hpresent hv, fun heq => hother (congrArg Fin.val heq)⟩
  by_cases hpresent : Present e
  · have habsent : ¬Present w := fun h => hflip (iff_of_true h hpresent)
    exact not_accounted_setDir (target_of_absent habsent) (htarget hpresent rfl) hlocal.accounted
      hacc'
  · have hset : Present w := by
      by_contra h
      exact hflip (iff_of_false h hpresent)
    exact not_accounted_setDir (target_of_absent hpresent) (htarget hset hnum) hacc'
      hlocal.accounted

variable (hself : tableOf s pgdir (PDX addr) = some pgdir)
  (hunique : ∀ k, tableOf s pgdir k = some pgdir → k = PDX addr)

include hself

/-- A new window on the directory shows the old one. -/
theorem not_localChange_opened (habsent : ¬Present e) (hset : Present w)
    (hown : PGNUM e = pgdir.val) :
    ¬LocalChange counted pgdir s (s.setWord pgdir (PTX addr) w) addr bit := by
  intro hlocal
  have hwindow := (tableOf_eq_some hself).1
  have hne : PTX addr ≠ PDX addr := fun heq => habsent (he ▸ heq ▸ hwindow)
  obtain ⟨u, hdir, htab⟩ := exists_address (PTX addr) (PDX addr)
  have hpage : u.toNat / 4096 ≠ addr.toNat / 4096 := fun heq =>
    hne (hdir ▸ (index_eq_iff.mpr heq).1)
  have hopened : tableOf (s.setWord pgdir (PTX addr) w) pgdir (PDX u) = some pgdir := by
    rw [tableOf_setDir, if_pos hdir]
    exact frame_of_present w pgdir.isLt hset (hnum.trans hown)
  have hbefore : tableOf s pgdir (PDX u) = none := by
    rw [hdir, tableOf_entry he]
    by_contra h
    exact habsent (present_of_frame h)
  have hsame := hlocal.others u hpage
  rw [entryOf_of_table hopened, entryOf_of_absent hbefore, htab, setWord_mem_self,
    update_of_ne hne.symm] at hsame
  rw [hsame] at hwindow
  exact absurd hwindow (by decide)

include hunique

omit hnum in
/-- A window on the directory closes without a trace only if there is nothing to see in it. -/
theorem localChange_closed_iff (hacc : Accounted counted s pgdir) (hpresent : Present e)
    (habsent : ¬Present w) (hown : PGNUM e = pgdir.val) :
    LocalChange counted pgdir s (s.setWord pgdir (PTX addr) w) addr PTE_P ↔
      PTX addr = PDX addr ∧ ∀ k, s.mem pgdir k = if k = PTX addr then PTE_P else 0 := by
  have hframe : frame M e = some pgdir := frame_of_present e pgdir.isLt hpresent hown
  have hindex : PTX addr = PDX addr := hunique _ ((tableOf_entry he).trans hframe)
  have hclosed {u : Word} (hu : PDX u = PTX addr) :
      entryOf (s.setWord pgdir (PTX addr) w) pgdir u = 0 := by
    refine entryOf_of_absent ?_
    rw [tableOf_setDir, if_pos hu]
    by_contra h
    exact habsent (present_of_frame h)
  have hshown {u : Word} (hu : PDX u = PTX addr) : entryOf s pgdir u = s.mem pgdir (PTX u) :=
    entryOf_of_table (by rw [hu, hindex, hself])
  constructor
  · intro hlocal
    refine ⟨hindex, fun k => ?_⟩
    split
    · rename_i hk
      have hentry := hlocal.entry
      rw [hclosed hindex.symm, hshown hindex.symm, he] at hentry
      rw [hk, he]
      exact eq_PTE_P hpresent hentry
    · rename_i hk
      obtain ⟨u, hdir, htab⟩ := exists_address (PTX addr) k
      have hpage : u.toNat / 4096 ≠ addr.toNat / 4096 := fun heq =>
        hk (htab ▸ (index_eq_iff.mpr heq).2)
      have hsame := hlocal.others u hpage
      rw [hclosed hdir, hshown hdir, htab] at hsame
      exact hsame.symm
  · rintro ⟨_, hdir⟩
    have hzero (u : Word) (hu : u.toNat / 4096 ≠ addr.toNat / 4096) : entryOf s pgdir u = 0 ∧
        entryOf (s.setWord pgdir (PTX addr) w) pgdir u = 0 := by
      by_cases hwhere : PDX u = PTX addr
      · refine ⟨?_, hclosed hwhere⟩
        rw [hshown hwhere, hdir, if_neg]
        exact fun heq => hu (index_eq_iff.mp ⟨hwhere.trans hindex, heq⟩)
      · have hnone : tableOf s pgdir (PDX u) = none := by
          rw [tableOf, hdir, if_neg hwhere]
          exact frame_zero
        refine ⟨entryOf_of_absent hnone, entryOf_of_absent ?_⟩
        rw [tableOf_setDir, if_neg hwhere, hnone]
    refine ⟨?_, fun u hu => ?_, fun u hu => ?_, accounted_setDir hacc ?_⟩
    · rw [hclosed hindex.symm, hshown hindex.symm, hdir, if_pos rfl]
      decide
    · rw [(hzero u hu).1, (hzero u hu).2]
    · rw [translate_eq_entryOf, translate_eq_entryOf, (hzero u hu).1, (hzero u hu).2,
        if_neg (by decide), if_neg (by decide)]
    · rw [target_of_absent habsent, he]
      cases htarget : (dirFormat pgdir).target e with
      | none => rfl
      | some t =>
        obtain ⟨hsome, hne⟩ := target_eq_some.mp htarget
        exact absurd (some.inj (hsome.symm.trans hframe)) hne

end Stored

section SameTable

variable {bit : Word} (hunique : ∀ k, tableOf s pgdir k = some pgdir → k = PDX addr)
  (hself : tableOf s pgdir (PDX addr) = some pgdir)
  (hframe : frame M w = frame M (s.mem pgdir (PTX addr)))

include hunique hself hframe

theorem entryOf_setDir (u : Word) : entryOf (s.setWord pgdir (PTX addr) w) pgdir u =
    if u.toNat / 4096 = addr.toNat / 4096 then w else entryOf s pgdir u := by
  refine entryOf_setWord ?_ hself (hunique _)
  rw [tableOf_setDir, hframe]
  exact ite_eq_right_iff.mpr fun heq => heq ▸ rfl

/-- With the same table as before, an entry of the directory is a matter of the rights to the
pages of the table. -/
theorem localChange_setDir_iff (hacc : Accounted counted s pgdir)
    (hbit : (w ^^^ s.mem pgdir (PTX addr)) &&& ~~~bit = 0) :
    LocalChange counted pgdir s (s.setWord pgdir (PTX addr) w) addr bit ↔
      ∀ u : Word, PDX u = PTX addr → u.toNat / 4096 ≠ addr.toNat / 4096 →
        Present (entryOf s pgdir u) →
          w &&& entryOf s pgdir u = s.mem pgdir (PTX addr) &&& entryOf s pgdir u := by
  have hentries := entryOf_setDir hunique hself hframe
  have hwalk (u : Word) (hu : u.toNat / 4096 ≠ addr.toNat / 4096) :
      AddressSpace.translate (s.setWord pgdir (PTX addr) w) pgdir u =
        AddressSpace.translate s pgdir u ↔ (Present (entryOf s pgdir u) →
          (s.setWord pgdir (PTX addr) w).mem pgdir (PDX u) &&& entryOf s pgdir u =
            s.mem pgdir (PDX u) &&& entryOf s pgdir u) := by
    rw [translate_eq_entryOf, translate_eq_entryOf, hentries, if_neg hu]
    split
    · rename_i hpresent
      rw [some.injEq, Prod.mk.injEq, and_iff_right rfl]
      exact ⟨fun heq _ => heq, fun heq => heq hpresent⟩
    · rename_i habsent
      exact iff_of_true rfl fun hpresent => absurd hpresent habsent
  constructor
  · intro hlocal u hdir hu hpresent
    have hrights := (hwalk u hu).mp (hlocal.walks u hu) hpresent
    rwa [hdir, setWord_mem_self, update_self] at hrights
  · intro hrights
    refine ⟨?_, fun u hu => ?_, fun u hu => (hwalk u hu).mpr fun hpresent => ?_, ?_⟩
    · rw [hentries, if_pos rfl, entryOf_of_table hself]
      exact hbit
    · rw [hentries, if_neg hu]
    · by_cases hdir : PDX u = PTX addr
      · rw [hdir, setWord_mem_self, update_self]
        exact hrights u hdir hu hpresent
      · rw [setWord_mem_self, update_of_ne hdir]
    · refine accounted_setDir hacc ?_
      exact congrArg (Option.filter fun t => t ≠ pgdir) hframe

end SameTable

/-- Through its window on itself, setperm may do to the directory what is harmless there. -/
theorem localChange_window_iff (h : Tabled s pgdir free) (hacc : Accounted counted s pgdir)
    (hself : tableOf s pgdir (PDX addr) = some pgdir) (clear perm : String) :
    LocalChange counted pgdir s (s.setWord pgdir (PTX addr)
        (permEntry clear perm (s.mem pgdir (PTX addr)))) addr (permBit perm) ↔
      permEntry clear perm (s.mem pgdir (PTX addr)) = s.mem pgdir (PTX addr) ∨
        WindowHarmless pgdir s addr clear perm := by
  rw [WindowHarmless]
  generalize he : s.mem pgdir (PTX addr) = e
  have hnum := PGNUM_permEntry clear perm e
  have hpresence := present_permEntry_iff clear perm e
  have hframe := @frame_permEntry_iff M clear perm e
  by_cases hchange : permEntry clear perm e = e
  · rw [hchange, ← he, setWord_self]
    exact iff_of_true (LocalChange.refl hacc _) (Or.inl rfl)
  rw [or_iff_right hchange]
  refine (and_iff_right_of_imp fun hlocal k hk => window_unique he hnum hchange hlocal hk).symm.trans
    (and_congr_right fun hunique => ?_)
  have hsame := fun hframe => localChange_setDir_iff hunique hself hframe hacc
    (he.symm ▸ permEntry_xor clear perm e)
  rw [he] at hsame
  by_cases htoggles : Toggles clear perm e
  · have hflip := fun hiff => hpresence.mp hiff htoggles
    rw [forall_prop_of_true htoggles, and_iff_left fun hnot => absurd htoggles hnot]
    rcases Nat.lt_or_ge (PGNUM e) M.npages with hlt | hge
    · rw [or_iff_right (Nat.not_le_of_lt hlt)]
      have hnames : PTX addr = PDX addr → Present e ∧ PGNUM e = pgdir.val := fun heq =>
        he ▸ heq ▸ tableOf_eq_some hself
      by_cases hown : PGNUM e = pgdir.val
      · by_cases hpresent : Present e
        · have habsent : ¬Present (permEntry clear perm e) := fun h =>
            hflip (iff_of_true h hpresent)
          rw [permBit_of_toggles htoggles]
          exact localChange_closed_iff he hself hunique hacc hpresent habsent hown
        · have hset : Present (permEntry clear perm e) := by
            by_contra h
            exact hflip (iff_of_false h hpresent)
          exact iff_of_false (not_localChange_opened he hnum hself hpresent hset hown) fun h =>
            hpresent (hnames h.1).1
      · exact iff_of_false (not_localChange_table he hnum hacc hflip hlt hown) fun h =>
          hown (hnames h.1).2
    · refine iff_of_true ((hsame ?_).mpr fun u hu _ hpresent => ?_) (Or.inl hge)
      · exact hframe.mpr fun h => absurd h.1 (Nat.not_lt_of_le hge)
      · have hnone : tableOf s pgdir (PDX u) = none := by
          rw [hu, tableOf_eq_none (h.inRange _), he]
          exact fun h' => absurd (he ▸ h.inRange _ (he ▸ h')) (Nat.not_lt_of_le hge)
        rw [entryOf_of_absent hnone] at hpresent
        exact absurd hpresent (by decide)
  · rw [forall_prop_of_true htoggles, and_iff_right fun h => absurd h htoggles,
      hsame (hframe.mpr fun h => htoggles h.2)]
    refine forall_congr' fun u => forall_congr' fun _ => forall_congr' fun _ =>
      forall_congr' fun _ => ?_
    rw [permEntry_and_eq_iff, or_iff_right hchange]

end Window

/-! ### The command -/

/-- What setperm may be asked for. With a table of its own the address may get any bit but the
present bit of an entry that counts. Without one, the directory must not be one of its own
tables. Where the directory is the table, the address may get what is harmless for all of the
pages under its entry. -/
def Harmless (counted : Fin NPTENTRIES → Bool) (pgdir : Page M) (s : Phys M) (addr : Word)
    (clear perm : String) : Prop :=
  match tableOf s pgdir (PDX addr) with
  | none => s.freeList = none ∨ ((∀ i, tableOf s pgdir i ≠ some pgdir) ∧
      ¬(counted (PDX addr) = true ∧ Toggles clear perm 0))
  | some table =>
      if table = pgdir then
        permEntry clear perm (s.mem pgdir (PTX addr)) = s.mem pgdir (PTX addr) ∨
          WindowHarmless pgdir s addr clear perm
      else ¬(counted (PDX addr) = true ∧ PGNUM (s.mem table (PTX addr)) < M.npages ∧
        Toggles clear perm (s.mem table (PTX addr)))

section Command

variable {m : Machine M} {s u : Mon M} {a : String} (name clear perm : String) (rest : List String)

theorem run_monSetperm {pte : PtePtr M} (h : (walkCreate m (convert2int a)).run s = .ok pte u) :
    ∃ lines, (monSetperm m (name :: a :: clear :: perm :: rest)).run s =
      .ok 0 ⟨u.phys.setWord pte.1 pte.2 (permEntry clear perm (u.phys.mem pte.1 pte.2)), lines⟩ := by
  have hlength : ¬(name :: a :: clear :: perm :: rest).length = 1 := by
    simp only [List.length_cons]
    omega
  rw [monSetperm, if_neg hlength]
  change ∃ lines, (walkCreate m (convert2int a) >>= fun pte => _ : MonM M ℤ).run s = _
  rw [EStateM.run_bind, h]
  exact ⟨_, rfl⟩

/-- However the command ends, it has made a local change. -/
def SetpermLocal (counted : Fin NPTENTRIES → Bool) (m : Machine M) (s : Mon M)
    (argv : List String) (addr : Word) (perm : String) : Prop :=
  Halts (fun _ t => LocalChange counted m.kernPgdir s.phys t.phys addr (permBit perm))
    (monSetperm m argv) s
    fun _ t => LocalChange counted m.kernPgdir s.phys t.phys addr (permBit perm)

theorem run_monSetperm_error {stop : Stop}
    (h : (walkCreate m (convert2int a)).run s = .error stop u) :
    (monSetperm m (name :: a :: clear :: perm :: rest)).run s = .error stop u := by
  have hlength : ¬(name :: a :: clear :: perm :: rest).length = 1 := by
    simp only [List.length_cons]
    omega
  rw [monSetperm, if_neg hlength]
  change (walkCreate m (convert2int a) >>= fun pte => _ : MonM M ℤ).run s = _
  rw [EStateM.run_bind, h]

section Cases

variable {counted : Fin NPTENTRIES → Bool} {free : List (Page M)} {table : Page M}
  (h : Tabled s.phys m.kernPgdir free) (hacc : Accounted counted s.phys m.kernPgdir)

include h hacc

/-- In the window of the directory on itself an entry of the directory is stored. -/
theorem setpermLocal_of_table_iff
    (htable : tableOf s.phys m.kernPgdir (PDX (convert2int a)) = some table) :
    SetpermLocal counted m s (name :: a :: clear :: perm :: rest) (convert2int a) perm ↔
      Harmless counted m.kernPgdir s.phys (convert2int a) clear perm := by
  obtain ⟨lines, hrun⟩ := run_monSetperm name clear perm rest (run_walkCreate_table htable)
  rw [SetpermLocal, halts_iff_of_ok hrun, Harmless, htable]
  dsimp only
  split
  · rename_i hself
    subst hself
    exact localChange_window_iff h hacc htable clear perm
  · rename_i hne
    exact localChange_store_iff h hacc (target_eq_some.mpr ⟨htable, hne⟩) clear perm

theorem setpermLocal_of_absent_iff
    (hnone : tableOf s.phys m.kernPgdir (PDX (convert2int a)) = none) :
    SetpermLocal counted m s (name :: a :: clear :: perm :: rest) (convert2int a) perm ↔
      Harmless counted m.kernPgdir s.phys (convert2int a) clear perm := by
  have habsent := (tableOf_eq_none (h.inRange _)).mp hnone
  rw [SetpermLocal, Harmless, hnone]
  dsimp only
  cases free with
  | nil =>
    have hfree : s.phys.freeList = none := h.freeChain.chain.of_nil
    have hrun := run_monSetperm_error name clear perm rest (run_walkCreate_full habsent hfree)
    rw [halts_iff_of_error hrun]
    exact iff_of_true (LocalChange.refl hacc _) (Or.inl hfree)
  | cons q free =>
    have hfree : s.phys.freeList = some q := h.freeChain.chain.of_cons.1
    obtain ⟨lines, hrun⟩ := run_monSetperm name clear perm rest (run_walkCreate_alloc habsent hfree)
    have hsome : s.phys.freeList ≠ none := by
      rw [hfree]
      exact some_ne_none q
    rw [halts_iff_of_ok hrun, or_iff_right hsome]
    exact localChange_alloc_iff h habsent hacc clear perm

end Cases

end Command

/-- In a state with the page accounting, setperm changes one bit of one entry and keeps the
accounting exactly when the request is harmless. -/
theorem setperm_local (counted : Fin NPTENTRIES → Bool) (m : Machine M) (s : Mon M)
    (free : List (Page M)) (name a clear perm : String) (rest : List String)
    (h : Tabled s.phys m.kernPgdir free) (hacc : Accounted counted s.phys m.kernPgdir) :
    SetpermLocal counted m s (name :: a :: clear :: perm :: rest) (convert2int a) perm ↔
      Harmless counted m.kernPgdir s.phys (convert2int a) clear perm := by
  cases htable : tableOf s.phys m.kernPgdir (PDX (convert2int a)) with
  | none => exact setpermLocal_of_absent_iff name clear perm rest h hacc htable
  | some table => exact setpermLocal_of_table_iff name clear perm rest h hacc htable

/-- Setting the write bit of an address without a table makes an empty table. -/
theorem setperm_local_twoPages :
    Tabled twoPagesState.phys twoPagesMachine.kernPgdir [⟨1, by decide⟩] ∧
      Accounted (fun _ => true) twoPagesState.phys twoPagesMachine.kernPgdir ∧
      SetpermLocal (fun _ => true) twoPagesMachine twoPagesState ["setperm", "f0100000", "1", "W"]
        0xf0100000 "W" := by
  have htables : ∀ i, tableOf twoPagesState.phys twoPagesMachine.kernPgdir i = none :=
    fun _ => frame_zero
  refine ⟨tabled_twoPages, accounted_twoPages _, ?_⟩
  refine (setperm_local (fun _ => true) twoPagesMachine twoPagesState _ "setperm" "f0100000" "1" "W"
    [] tabled_twoPages (accounted_twoPages _)).mpr (Or.inr ⟨fun i h => ?_, fun h => ?_⟩)
  · exact some_ne_none _ (h.symm.trans (htables i))
  · exact absurd h.2.1 (by decide)

/-- Setting the present bit of an empty entry maps page 0, which nobody counts. -/
theorem setperm_maps_page_zero :
    (∃ t, (monSetperm twoPagesMachine ["setperm", "f0100000", "1", "P"]).run twoPagesState = .ok 0 t ∧
      AddressSpace.translate t.phys twoPagesMachine.kernPgdir 0xf0100000 = some (0, 1) ∧
      (t.phys.pages ⟨0, by decide⟩).ref = 0) ∧
    ¬SetpermLocal (fun _ => true) twoPagesMachine twoPagesState ["setperm", "f0100000", "1", "P"]
      0xf0100000 "P" := by
  refine ⟨⟨_, rfl, by decide, by decide⟩, fun h => ?_⟩
  have hharmless := (setpermLocal_of_absent_iff (a := "f0100000") "setperm" "1" "P" [] tabled_twoPages
    (accounted_twoPages fun _ => true) rfl).mp h
  rcases hharmless with hfree | ⟨_, htoggles⟩
  · contradiction
  · exact htoggles ⟨rfl, by decide, by decide⟩

end KernelLabs.Monitor

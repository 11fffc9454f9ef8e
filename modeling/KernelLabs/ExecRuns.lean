import KernelLabs.ExecStack

/-!
exec is all or nothing, and its stack decodes to its arguments. Whatever the file contains and
wherever kalloc fails, exec returns, unless the strings are longer in total than the new image;
when it returns -1, the process is as it was, the pages that exec has taken are free again, and
the inode and the log are released.
-/
namespace KernelLabs.ExecRuns

open MachineWords PageWords PanicMonad TableOwners UserPages UserTables UserCalls UserRelease
  UserGrow UserSpace UserCopy ExecModel ExecLoad ExecStack List Multiset

variable {L : Layout} {P : Pool L} {R X : Multiset ℕ} {s t u : ExecState} {d : ℕ}
  {argv : List CString} {path : List Char}

/-! ### The inode and the log -/

/-- exec has the inode of the file, locked, and a transaction. -/
structure Held (s t : ExecState) : Prop where
  proc : t.proc = s.proc
  ref : t.ref = s.ref + 1
  locked : t.locked = true
  outstanding : t.outstanding = s.outstanding + 1

structure Released (s t : ExecState) : Prop where
  ref : t.ref = s.ref
  locked : s.locked = false → t.locked = false
  outstanding : t.outstanding = s.outstanding

theorem returns_liftVm {α : Type} {x : VmM α} {Q : α → ExecState → Prop}
    (h : Returns x s.vm fun r vm => Q r { s with vm := vm }) : Returns (liftVm x) s Q := by
  obtain ⟨r, vm, hrun, hQ⟩ := h
  refine ⟨r, { s with vm := vm }, ?_, hQ⟩
  rw [EStateM.run, liftVm, hrun]

theorem ends_liftVm {α : Type} {E : String → Prop} {x : VmM α} {Q : α → ExecState → Prop}
    (h : Ends E x s.vm fun r vm => Q r { s with vm := vm }) : Ends E (liftVm x) s Q := by
  unfold Ends at h ⊢
  rw [EStateM.run, liftVm]
  cases hrun : x.run s.vm <;> rw [hrun] at h
  · exact h
  · exact h

theorem run_iunlockput (h : Held s t) :
    iunlockput.run t = .ok () { t with locked := false, ref := t.ref - 1 } := by
  have hopen : ¬(t.locked = false ∨ t.ref < 1) := by
    rw [h.locked, h.ref]
    rintro (hfalse | hlt)
    · cases hfalse
    · omega
  have hreturns : Returns iunlockput t fun _ u => u = { t with locked := false, ref := t.ref - 1 } := by
    rw [iunlockput, returns_get_bind, if_neg hopen, returns_modify]
  obtain ⟨r, u, hrun, rfl⟩ := hreturns
  exact hrun

theorem Held.released (h : Held s t) : Released s
    { t with locked := false, ref := t.ref - 1, outstanding := t.outstanding - 1 } where
  ref := congrArg (· - 1) h.ref
  locked _ := rfl
  outstanding := congrArg (· - 1) h.outstanding

/-! ### Failure -/

/-- exec has failed: the process is as it was, and the pages are free again. -/
structure Undone (s t : ExecState) : Prop where
  proc : t.proc = s.proc
  freelist : t.vm.freelist.Perm s.vm.freelist
  memory : ∀ f ∈ tableFormat.footprint s.vm.mem s.proc.pgdir, t.vm.mem f = s.vm.mem f

theorem Undone.of_balanced (h : Balanced P s.vm X) (hproc : t.proc = s.proc)
    (ht : Balanced P t.vm X) (hkept : ∀ f ∈ X, t.vm.mem f = s.vm.mem f)
    (hX : tableFormat.footprint s.vm.mem s.proc.pgdir ≤ X) : Undone s t where
  proc := hproc
  freelist := by
    rw [UserCalls.Balanced] at h ht
    exact coe_eq_coe.mp (add_right_cancel (ht.trans h.symm))
  memory f hf := hkept f (mem_of_le hX hf)

def Failed (s : ExecState) (r : ℤ) (t : ExecState) : Prop := r = -1 ∧ Released s t ∧ Undone s t

section Fail

variable (h : Balanced P s.vm X) (hX : tableFormat.footprint s.vm.mem s.proc.pgdir ≤ X)

include h hX

/-- `bad` with the inode, after the directory is freed. -/
theorem returns_bad_held (ht : Held s t) (hbalanced : Balanced P t.vm X)
    (hkept : ∀ f ∈ X, t.vm.mem f = s.vm.mem f) : Returns (bad L none true) t (Failed s) := by
  rw [bad]
  dsimp only
  rw [if_pos rfl]
  refine returns_bind ⟨(), _, run_iunlockput ht, ?_⟩
  beta_reduce
  rw [endOp, returns_modify_bind, returns_pure]
  exact ⟨rfl, ht.released, .of_balanced h ht.proc hbalanced hkept hX⟩

/-- `bad` without the inode, after the directory is freed. -/
theorem returns_bad_released (ht : Released s t) (hproc : t.proc = s.proc)
    (hbalanced : Balanced P t.vm X) (hkept : ∀ f ∈ X, t.vm.mem f = s.vm.mem f) :
    Returns (bad L none false) t (Failed s) := by
  rw [bad]
  dsimp only
  rw [if_neg (by decide), returns_pure]
  exact ⟨rfl, ht, .of_balanced h hproc hbalanced hkept hX⟩

end Fail

theorem returns_bad_some {ip : Bool} {Q : ℤ → ExecState → Prop} (h : Owned P X d t.vm)
    (hrest : ∀ vm, Balanced P vm X → (∀ f ∈ X, vm.mem f = t.vm.mem f) →
      Returns (bad L none ip) { t with vm := vm } Q) : Returns (bad L (some d) ip) t Q := by
  have hbad : bad L (some d) ip = (do liftVm (freevm L d); bad L none ip) := rfl
  rw [hbad]
  exact returns_bind (returns_liftVm (returns_freevm h fun vm hvm hkept => hrest vm hvm hkept))

/-! ### Success -/

structure Replaced (P : Pool L) (R : Multiset ℕ) (argv : List CString) (t : ExecState) : Prop where
  space : Space P R t.proc.pgdir t.vm
  stack : ∃ ptrs, StackImage t.vm.mem t.proc.pgdir t.proc.sz t.proc.esp argv ptrs

/-- The commitment frees the old directory and keeps the new one. -/
theorem returns_commit {sz entry esp : ℕ} {ptrs : List ℕ} (hreleased : Released s t)
    (hproc : t.proc = s.proc) (h : Space P X d t.vm)
    (hX : X = tableFormat.footprint s.vm.mem s.proc.pgdir + R)
    (hkept : ∀ f ∈ X, t.vm.mem f = s.vm.mem f) (hstack : StackImage t.vm.mem d sz esp argv ptrs) :
    Returns (commit L path d sz entry esp) t fun r u =>
      r = 0 ∧ Released s u ∧ Replaced P R argv u := by
  have hold : tableFormat.footprint t.vm.mem s.proc.pgdir =
      tableFormat.footprint s.vm.mem s.proc.pgdir := by
    refine Format.footprint_congr fun f hf => hkept f ?_
    rw [hX]
    exact mem_add.mpr (.inl hf)
  have howned : Owned P (tableFormat.footprint t.vm.mem d + R) s.proc.pgdir t.vm := by
    have hnew := h.owned
    rw [Owned, hX] at hnew
    rwa [Owned, hold, add_left_comm]
  rw [commit, returns_get_bind, hproc, returns_modify_bind]
  refine returns_bind (returns_liftVm (returns_freevm howned fun vm hvm hsame => ?_))
  rw [returns_pure]
  have hfoot : ∀ f ∈ tableFormat.footprint t.vm.mem d, vm.mem f = t.vm.mem f :=
    fun f hf => hsame f (mem_add.mpr (.inl hf))
  have hpte : ∀ a, pteAt vm.mem d a = pteAt t.vm.mem d a := fun a => Format.leaf_congr hfoot _ _
  refine ⟨rfl, ⟨hreleased.ref, hreleased.locked, hreleased.outstanding⟩, ⟨?_, ?_⟩, ptrs, ?_⟩
  · exact hvm.congr rfl (congrArg (· + R) (Format.footprint_congr hfoot))
  · exact fun b hb hkernel => (hpte b).trans (h.kernel b hb hkernel)
  · exact hstack.congr hpte (userByte_of_footprint h hfoot)

/-! ### exec -/

def NewImage (L : Layout) (file : List Byte) (vm : Vm) (size : ℕ) : Prop :=
  ∃ elf d t u, readHeader file = some elf ∧ (setupkvm L).run vm = .ok (some d) t ∧
    (loadSegments L file d elf.phnum elf.phoff 0).run t = .ok (some size) u

def Overlong (L : Layout) (ip : Option (List Byte)) (argv : List CString) (vm : Vm) : Prop :=
  ∃ file size, ip = some file ∧ NewImage L file vm size ∧ TooLong size argv

theorem run_ilock (h : 1 ≤ t.ref) : ilock.run t = .ok () { t with locked := true } := by
  have hreturns : Returns ilock t fun _ u => u = { t with locked := true } := by
    rw [ilock, returns_get_bind, if_neg (by omega), returns_modify]
  obtain ⟨r, u, hrun, rfl⟩ := hreturns
  exact hrun

theorem setupkvm_cases {vm : Vm} (h : Balanced P vm X) : Returns (setupkvm L) vm fun r vm' =>
    (r = none ∧ Balanced P vm' X ∧ ∀ f ∈ X, vm'.mem f = vm.mem f) ∨
      ∃ d, r = some d ∧ Fresh P X d vm vm' :=
  returns_setupkvm h (fun _ ht hkept _ => .inl ⟨rfl, ht, hkept⟩) fun d _ ht => .inr ⟨d, rfl, ht⟩

theorem ends_exec (ip : Option (List Byte)) (path : List Char) (argv : List CString)
    (h : Balanced P s.vm (tableFormat.footprint s.vm.mem s.proc.pgdir + R)) :
    Ends (fun e => e = "null pointer" ∧ Overlong L ip argv s.vm) (exec L ip path argv) s fun r t =>
      Failed s r t ∨ (r = 0 ∧ Released s t ∧ Replaced P R argv t) := by
  obtain ⟨X, hX⟩ : ∃ X, X = tableFormat.footprint s.vm.mem s.proc.pgdir + R := ⟨_, rfl⟩
  rw [← hX] at h
  have hle : tableFormat.footprint s.vm.mem s.proc.pgdir ≤ X := hX ▸ Multiset.le_add_right _ _
  unfold exec
  rw [beginOp, ends_modify_bind]
  cases ip with
  | none =>
    dsimp only
    rw [endOp, ends_modify_bind, ends_pure]
    refine .inl ⟨rfl, ⟨rfl, id, Nat.add_sub_cancel _ _⟩, rfl, .refl _, fun _ _ => rfl⟩
  | some file =>
    dsimp only
    rw [takeRef, ends_modify_bind, ends_bind_iff, ends_iff_of_ok (run_ilock (Nat.le_add_left 1 s.ref))]
    have hheld : ∀ vm, Held s ⟨vm, s.proc, s.ref + 1, true, s.outstanding + 1⟩ :=
      fun _ => ⟨rfl, rfl, rfl, rfl⟩
    cases hheader : readHeader file with
    | none =>
      exact ((returns_bad_held h hle (hheld s.vm) h fun _ _ => rfl).ends).mono fun _ _ => .inl
    | some elf =>
      dsimp only
      obtain ⟨r, vm, hsetup, hcases⟩ := setupkvm_cases h
      rw [ends_bind_iff]
      refine ends_liftVm ((ends_iff_of_ok hsetup).mpr ?_)
      rcases hcases with ⟨rfl, hbalanced, hkept⟩ | ⟨d, rfl, hfresh⟩
      · exact ((returns_bad_held h hle (hheld vm) hbalanced hkept).ends).mono fun _ _ => .inl
      dsimp only
      have hspace : Space P X d vm := ⟨hfresh.owned, hfresh.kernel⟩
      have hsized : Sized vm.mem d 0 :=
        fun b hb huser => iff_of_false (hfresh.empty b hb huser) (Nat.not_lt_zero b)
      obtain ⟨r, vm', hload, hloaded⟩ := returns_loadSegments elf.phnum hspace hsized (by decide)
      rw [ends_bind_iff]
      refine ends_liftVm ((ends_iff_of_ok hload).mpr ?_)
      have hkept : ∀ f ∈ X, vm'.mem f = s.vm.mem f :=
        fun f hf => (hloaded.kept f hf).trans (hfresh.kept f hf)
      cases r with
      | none =>
        refine ((returns_bad_some hloaded.space.owned fun vm hvm hkept' => ?_).ends).mono fun _ _ => .inl
        exact returns_bad_held h hle (hheld vm) hvm fun f hf => (hkept' f hf).trans (hkept f hf)
      | some size =>
        dsimp only
        generalize hbuild : buildStack L d size argv = build
        obtain ⟨hsized', hsize⟩ := hloaded.sized size rfl
        rw [ends_bind_iff, ends_iff_of_ok (run_iunlockput (hheld vm')), endOp, ends_modify_bind,
          ends_bind_iff]
        refine ends_liftVm (((ends_buildStack hbuild hsize hloaded.space hsized').mono_error ?_).mono ?_)
        · rintro e ⟨he, hlong⟩
          exact ⟨he, file, size, rfl, ⟨elf, d, vm, vm', hheader, hsetup, hload⟩, hlong⟩
        rintro r vm'' ⟨hspace'', hkept'', hanswer⟩
        have hreleased : Released s ⟨vm'', s.proc, s.ref, false, s.outstanding⟩ :=
          ⟨rfl, fun _ => rfl, rfl⟩
        have hkeep : ∀ f ∈ X, vm''.mem f = s.vm.mem f :=
          fun f hf => (hkept'' f hf).trans (hkept f hf)
        cases r with
        | none =>
          refine ((returns_bad_some hspace''.owned fun vm hvm hkept' => ?_).ends).mono fun _ _ => .inl
          refine returns_bad_released h hle ⟨rfl, fun _ => rfl, rfl⟩ rfl hvm fun f hf => ?_
          exact (hkept' f hf).trans (hkeep f hf)
        | some pair =>
          obtain ⟨sz, esp⟩ := pair
          obtain ⟨ptrs, hstack⟩ := hanswer
          exact ((returns_commit hreleased rfl hspace'' hX hkeep hstack).ends).mono fun _ _ => .inr

/-- exec is all or nothing. With strings that are shorter in total than the new image it returns,
and it never panics; the only error left is the null pointer of copyout. -/
theorem exec_all_or_nothing {ip : Option (List Byte)} (hlocked : s.locked = false)
    (h : Balanced P s.vm (tableFormat.footprint s.vm.mem s.proc.pgdir + R)) :
    (¬Overlong L ip argv s.vm → Returns (exec L ip path argv) s fun r t =>
      (r = 0 ∨ (r = -1 ∧ Undone s t)) ∧ t.ref = s.ref ∧ t.locked = false ∧
        t.outstanding = s.outstanding) ∧
      ∀ e t, (exec L ip path argv).run s = .error e t → e = "null pointer" := by
  have hends := ends_exec (L := L) ip path argv h
  constructor
  · intro hshort
    refine (hends.returns fun e he => hshort he.2).mono fun r t ht => ?_
    rcases ht with ⟨hr, hreleased, hundone⟩ | ⟨hr, hreleased, -⟩
    · exact ⟨.inr ⟨hr, hundone⟩, hreleased.ref, hreleased.locked hlocked, hreleased.outstanding⟩
    · exact ⟨.inl hr, hreleased.ref, hreleased.locked hlocked, hreleased.outstanding⟩
  · intro e t hrun
    exact (hends.of_error hrun).1

def onePageProc (free : List Frame) : ExecState where
  vm := UserSizes.onePage free
  proc := ⟨1024, 4096, 0, 4096, []⟩
  ref := 0
  locked := false
  outstanding := 0

theorem onePageProc_balanced (n : ℕ) (hn : n ≤ 2048) :
    Balanced (UserSizes.onePagePool n hn) (onePageProc (range' 1027 n)).vm
      (tableFormat.footprint (onePageProc (range' 1027 n)).vm.mem 1024 + 0) :=
  UserSizes.onePage_owned n hn

/-- exec of an empty file. -/
theorem exec_all_or_nothing_onePage :
    (Returns (exec UserMemory.smallKernel (some []) [] []) (onePageProc []) fun r t =>
      (r = 0 ∨ (r = -1 ∧ Undone (onePageProc []) t)) ∧ t.ref = 0 ∧ t.locked = false ∧
        t.outstanding = 0) ∧
      ∀ e t, (exec UserMemory.smallKernel (some []) [] []).run (onePageProc []) = .error e t →
        e = "null pointer" := by
  have hexec := @exec_all_or_nothing _ _ _ (onePageProc []) [] [] (some []) rfl
    (onePageProc_balanced 0 (by decide))
  refine ⟨hexec.1 ?_, hexec.2⟩
  rintro ⟨file, size, hfile, ⟨elf, -, -, -, hheader, -⟩, -⟩
  obtain rfl := Option.some.inj hfile
  have hnone : readHeader [] = none := rfl
  rw [hnone] at hheader
  cases hheader

/-! ### A file without segments -/

section Flat

variable {file : List Byte} {elf : Elfhdr}

/-- exec succeeds for a file without segments, if there are enough pages and the arguments fit
into the page of the stack. -/
theorem returns_exec_flat (h : Balanced P s.vm X)
    (hX : X = tableFormat.footprint s.vm.mem s.proc.pgdir + R)
    (hheader : readHeader file = some elf) (hflat : elf.phnum = 0) (hdeny : s.vm.deny = [])
    (hpages : ¬Short P X (2 * PGSIZE)) (hmany : argv.length ≤ MAXARG)
    (hfits : totalLength argv + 8 * argv.length + 16 ≤ PGSIZE) :
    Returns (exec L (some file) path argv) s fun r _ => r = 0 := by
  have hround : PGROUNDUP 0 = 0 := rfl
  have hheld : ∀ vm, Held s ⟨vm, s.proc, s.ref + 1, true, s.outstanding + 1⟩ :=
    fun _ => ⟨rfl, rfl, rfl, rfl⟩
  unfold exec
  rw [beginOp, returns_modify_bind]
  dsimp only
  rw [takeRef, returns_modify_bind]
  refine returns_bind ⟨(), _, run_ilock (Nat.le_add_left 1 s.ref), ?_⟩
  rw [hheader]
  dsimp only
  refine returns_bind (returns_liftVm (returns_setupkvm h (fun vm _ _ hshort => ?_) fun d vm hfresh => ?_))
  · exact absurd (Short.of_card (hshort hdeny) (Nat.zero_le _)) hpages
  have hspace : Space P X d vm := ⟨hfresh.owned, hfresh.kernel⟩
  have hsized : Sized vm.mem d 0 :=
    fun b hb huser => iff_of_false (hfresh.empty b hb huser) (Nat.not_lt_zero b)
  dsimp only
  rw [hflat, loadSegments]
  refine returns_bind (returns_liftVm ((returns_pure _).mpr ?_))
  refine returns_bind ⟨(), _, run_iunlockput (hheld vm), ?_⟩
  beta_reduce
  rw [endOp, returns_modify_bind]
  generalize hbuild : buildStack L d 0 argv = build
  have hends := ends_buildStack hbuild (by decide) hspace hsized
  have hreturns := hends.returns fun e he => by
    have hlong := he.2
    rw [TooLong, hround] at hlong
    omega
  refine returns_bind (returns_liftVm (hreturns.mono ?_))
  rintro r vm' ⟨hspace', hkept, hanswer⟩
  cases r with
  | none =>
    rw [StackAnswer, hround, Nat.zero_add] at hanswer
    rcases hanswer with hmax | hshort | hargs | hroom
    · exact absurd hmax (by decide)
    · exact absurd (hshort (hfresh.supplied hdeny)) hpages
    · omega
    · omega
  | some pair =>
    obtain ⟨sz, esp⟩ := pair
    obtain ⟨ptrs, hstack⟩ := hanswer
    have hreleased : Released s ⟨vm', s.proc, s.ref, false, s.outstanding⟩ :=
      ⟨rfl, fun _ => rfl, rfl⟩
    refine (returns_commit hreleased rfl hspace' hX (fun f hf => ?_) hstack).mono fun r t ht => ht.1
    exact (hkept f hf).trans (hfresh.kept f hf)

end Flat

/-- When exec returns 0, the stack decodes to the arguments. -/
theorem exec_stack_decodes {ip : Option (List Byte)}
    (h : Balanced P s.vm (tableFormat.footprint s.vm.mem s.proc.pgdir + R))
    (hrun : (exec L ip path argv).run s = .ok 0 t) :
    ∃ ptrs, StackImage t.vm.mem t.proc.pgdir t.proc.sz t.proc.esp argv ptrs := by
  rcases (ends_exec ip path argv h).of_ok hrun with ⟨hr, -⟩ | ⟨-, -, hnew⟩
  · exact absurd hr (by decide)
  · exact hnew.stack

def headerFile : List Byte := [0x7F, 0x45, 0x4C, 0x46] ++ List.replicate 48 0

theorem hi_nonzero : ∀ b ∈ ([104, 105] : List Byte), b ≠ 0 := by decide

theorem hi_fits : ([104, 105] : List Byte).length < 2 ^ 31 := by decide

def hi : CString := ⟨[104, 105], hi_nonzero, hi_fits⟩

theorem exec_stack_decodes_hi :
    ∃ t, (exec UserMemory.smallKernel (some headerFile) [] [hi, hi]).run
      (onePageProc (range' 1027 1500)) = .ok 0 t ∧
      ∃ ptrs, StackImage t.vm.mem t.proc.pgdir t.proc.sz t.proc.esp [hi, hi] ptrs := by
  have hbalanced := onePageProc_balanced 1500 (by decide)
  have hheader : readHeader headerFile = some ⟨ELF_MAGIC, 0, 0, 0⟩ := rfl
  have hpages : ¬Short (UserSizes.onePagePool 1500 (by decide))
      (tableFormat.footprint (onePageProc (range' 1027 1500)).vm.mem 1024 + 0) (2 * PGSIZE) := by
    have hframes : (UserSizes.onePagePool 1500 (by decide)).frames.card = 1503 := length_range'
    have hfoot : tableFormat.footprint (onePageProc (range' 1027 1500)).vm.mem 1024 =
        {1024, 1025, 1026} := UserSizes.onePage_footprint _
    have hparent : ({1024, 1025, 1026} : Multiset ℕ).card = 3 := rfl
    rw [Short, add_zero, hfoot, hframes, hparent, NPTENTRIES, PGSIZE]
    omega
  have hreturns : Returns (exec UserMemory.smallKernel (some headerFile) [] [hi, hi])
      (onePageProc (range' 1027 1500)) fun r _ => r = 0 :=
    returns_exec_flat hbalanced rfl hheader rfl rfl hpages (by decide) (by decide)
  obtain ⟨r, t, hrun, rfl⟩ := hreturns
  exact ⟨t, hrun, exec_stack_decodes hbalanced hrun⟩

end KernelLabs.ExecRuns

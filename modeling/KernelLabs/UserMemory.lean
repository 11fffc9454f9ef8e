import KernelLabs.Runs
import KernelLabs.UserGrow

/-!
User memory over whole runs: any number of page directories, each with the current size
of its process, and calls of setupkvm, allocuvm, deallocuvm, copyuvm and freevm in any
order, with kalloc failing where it likes. No call panics. In every state each page of
the pool is on the free list or belongs to one directory, once, so that the free list
is a permutation of the initial one when no directory is left.
-/
namespace KernelLabs.UserMemory

open MachineWords PageWords PanicMonad Runs TableOwners UserPages UserTables UserCalls UserRelease
  UserGrow Function Multiset Finset

structure Sys where
  vm : Vm
  dirs : Finset ℕ
  size : ℕ → ℕ

inductive Call
  | setupkvm (deny : List Bool)
  | allocuvm (pgdir newsz : ℕ) (deny : List Bool)
  | deallocuvm (pgdir newsz : ℕ)
  | copyuvm (pgdir : ℕ) (deny : List Bool)
  | freevm (pgdir : ℕ)
  deriving DecidableEq, Repr

namespace Sys

def Enabled (s : Sys) : Call → Prop
  | .setupkvm _ => True
  | .allocuvm pgdir newsz _ => pgdir ∈ s.dirs ∧ newsz < 2 ^ 32
  | .deallocuvm pgdir newsz => pgdir ∈ s.dirs ∧ newsz < 2 ^ 32
  | .copyuvm pgdir _ => pgdir ∈ s.dirs
  | .freevm pgdir => pgdir ∈ s.dirs

instance (s : Sys) (c : Call) : Decidable (s.Enabled c) :=
  match c with
  | .setupkvm _ => isTrue trivial
  | .allocuvm pgdir newsz _ => inferInstanceAs (Decidable (pgdir ∈ s.dirs ∧ newsz < 2 ^ 32))
  | .deallocuvm pgdir newsz => inferInstanceAs (Decidable (pgdir ∈ s.dirs ∧ newsz < 2 ^ 32))
  | .copyuvm pgdir _ => inferInstanceAs (Decidable (pgdir ∈ s.dirs))
  | .freevm pgdir => inferInstanceAs (Decidable (pgdir ∈ s.dirs))

/-- A new directory for a process of size `sz`, if the call has made one. -/
def added (s : Sys) (sz : ℕ) : Option Frame → Vm → Sys
  | none, vm => { s with vm := vm }
  | some d, vm => { vm := vm, dirs := insert d s.dirs, size := update s.size d sz }

def resized (s : Sys) (d sz : ℕ) (vm : Vm) : Sys :=
  { s with vm := vm, size := update s.size d sz }

def dropped (s : Sys) (d : ℕ) (vm : Vm) : Sys := { s with vm := vm, dirs := s.dirs.erase d }

variable (L : Layout)

def call (s : Sys) : Call → VmM (Vm → Sys)
  | .setupkvm _ => do return s.added 0 (← setupkvm L)
  | .allocuvm pgdir newsz _ => do
    return s.resized pgdir (grown (s.size pgdir) (← allocuvm L pgdir (s.size pgdir) newsz))
  | .deallocuvm pgdir newsz => do
    return s.resized pgdir (← deallocuvm L pgdir (s.size pgdir) newsz)
  | .copyuvm pgdir _ => do return s.added (s.size pgdir) (← copyuvm L pgdir (s.size pgdir))
  | .freevm pgdir => do
    freevm L pgdir
    return s.dropped pgdir

def answers : Call → List Bool
  | .setupkvm deny => deny
  | .allocuvm _ _ deny => deny
  | .copyuvm _ deny => deny
  | _ => []

/-- A call that panics has no successor. -/
def step (s : Sys) (c : Call) : Option Sys :=
  if s.Enabled c then
    match (s.call L c).run { s.vm with deny := answers c } with
    | .ok next vm => some (next vm)
    | .error _ _ => none
  else none

end Sys

def machine (L : Layout) : Machine Sys Call Unit where
  step := Sys.step L
  emit _ _ := []

def start (vm : Vm) : Sys where
  vm := vm
  dirs := ∅
  size _ := 0

/-- The page is a page table of the directory. -/
def UsedAsTable (m : Mem) (d f : ℕ) : Prop := ∃ i, Present (m d i) ∧ PGNUM (m d i) = f

def MappedUser (m : Mem) (d f : ℕ) : Prop :=
  ∃ va, va < KERNBASE ∧ Present (pteAt m d va) ∧ PGNUM (pteAt m d va) = f

variable {L : Layout} {P : Pool L}

def owners (m : Mem) (dirs : Finset ℕ) : Multiset ℕ := ∑ d ∈ dirs, tableFormat.footprint m d

structure Inv (P : Pool L) (s : Sys) : Prop where
  balanced : Balanced P s.vm (owners s.vm.mem s.dirs)
  sized : ∀ d ∈ s.dirs, Sized s.vm.mem d (s.size d) ∧ s.size d < KERNBASE

section Owners

variable {m m' : Mem} {dirs : Finset ℕ} {d : ℕ}

theorem footprint_le_owners (h : d ∈ dirs) : tableFormat.footprint m d ≤ owners m dirs :=
  Finset.single_le_sum (fun e _ => Multiset.zero_le (tableFormat.footprint m e)) h

theorem owners_congr (h : ∀ f ∈ owners m dirs, m' f = m f) : owners m' dirs = owners m dirs :=
  sum_congr rfl fun _ he =>
    Format.footprint_congr fun f hf => h f (mem_of_le (footprint_le_owners he) hf)

theorem owners_erase (h : d ∈ dirs) :
    tableFormat.footprint m d + owners m (dirs.erase d) = owners m dirs :=
  add_sum_erase dirs (tableFormat.footprint m) h

theorem sized_congr {size : ℕ → ℕ} (h : ∀ f ∈ owners m dirs, m' f = m f)
    (hsized : ∀ e ∈ dirs, Sized m e (size e) ∧ size e < KERNBASE) :
    ∀ e ∈ dirs, Sized m' e (size e) ∧ size e < KERNBASE :=
  fun e he => ⟨(hsized e he).1.congr fun f hf =>
    h f (mem_of_le (footprint_le_owners he) hf), (hsized e he).2⟩

end Owners

section Steps

variable {s : Sys} {t : Vm} {d : ℕ}

theorem Inv.unchanged (h : Inv P s) (ht : Balanced P t (owners s.vm.mem s.dirs))
    (hkept : ∀ f ∈ owners s.vm.mem s.dirs, t.mem f = s.vm.mem f) : Inv P { s with vm := t } where
  balanced := by rwa [owners_congr hkept]
  sized := sized_congr hkept h.sized

theorem Inv.added (h : Inv P s) {sz : ℕ} (hsz : sz < KERNBASE)
    (ht : Owned P (owners s.vm.mem s.dirs) d t)
    (hkept : ∀ f ∈ owners s.vm.mem s.dirs, t.mem f = s.vm.mem f) (hsized : Sized t.mem d sz) :
    Inv P (s.added sz (some d) t) := by
  have hnew : d ∉ s.dirs := by
    intro hd
    refine not_mem_rest ht (Format.dir_mem_footprint _ _) ?_
    exact mem_of_le (footprint_le_owners hd) (Format.dir_mem_footprint _ _)
  constructor
  · refine ht.congr rfl ?_
    rw [← owners_congr hkept]
    exact sum_insert hnew
  · intro e he
    rcases mem_insert.mp he with rfl | hold
    · simp only [Sys.added, update_self]
      exact ⟨hsized, hsz⟩
    · have hne : e ≠ d := by
        rintro rfl
        exact hnew hold
      simp only [Sys.added, update_of_ne hne]
      exact sized_congr hkept h.sized e hold

theorem Inv.resized (h : Inv P s) (hd : d ∈ s.dirs) {sz : ℕ} (hsz : sz < KERNBASE)
    (ht : Owned P (owners s.vm.mem (s.dirs.erase d)) d t)
    (hkept : ∀ f ∈ owners s.vm.mem (s.dirs.erase d), t.mem f = s.vm.mem f)
    (hsized : Sized t.mem d sz) : Inv P (s.resized d sz t) := by
  constructor
  · refine ht.congr rfl ?_
    rw [← owners_congr hkept]
    exact (owners_erase hd).symm
  · intro e he
    by_cases hed : e = d
    · subst hed
      simp only [Sys.resized, update_self]
      exact ⟨hsized, hsz⟩
    · simp only [Sys.resized, update_of_ne hed]
      exact sized_congr hkept (fun e he => h.sized e (Finset.mem_of_mem_erase he)) e
        (mem_erase.mpr ⟨hed, he⟩)

theorem Inv.dropped (h : Inv P s) (ht : Balanced P t (owners s.vm.mem (s.dirs.erase d)))
    (hkept : ∀ f ∈ owners s.vm.mem (s.dirs.erase d), t.mem f = s.vm.mem f) :
    Inv P (s.dropped d t) where
  balanced := by rwa [Sys.dropped, owners_congr hkept]
  sized := sized_congr hkept fun e he => h.sized e (Finset.mem_of_mem_erase he)

theorem returns_call (h : Inv P s) {c : Call} (hen : s.Enabled c) :
    Returns (s.call L c) { s.vm with deny := Sys.answers c } fun next vm => Inv P (next vm) := by
  have hbalanced : Balanced P { s.vm with deny := Sys.answers c } (owners s.vm.mem s.dirs) :=
    h.balanced
  -- the balance seen from one directory, with the others as the rest
  have howned : ∀ d ∈ s.dirs,
      Owned P (owners s.vm.mem (s.dirs.erase d)) d { s.vm with deny := Sys.answers c } := by
    intro d hd
    rw [Owned, owners_erase hd]
    exact hbalanced
  cases c with
  | setupkvm deny =>
    refine returns_bind (returns_setupkvm hbalanced (fun t ht hkept _ => ?_) fun d t ht => ?_)
    · rw [returns_pure]
      exact h.unchanged ht hkept
    · rw [returns_pure]
      exact h.added (by decide) ht.owned ht.kept fun b hb hbuser =>
        iff_of_false (ht.empty b hb hbuser) (Nat.not_lt_zero b)
  | allocuvm pgdir newsz deny =>
    obtain ⟨hd, -⟩ := hen
    obtain ⟨hsized, hlt⟩ := h.sized pgdir hd
    refine returns_bind (returns_allocuvm hlt (howned pgdir hd) hsized fun r t ht _ => ?_)
    rw [returns_pure]
    exact h.resized hd ht.lt ht.owned ht.kept ht.sized
  | deallocuvm pgdir newsz =>
    obtain ⟨hd, -⟩ := hen
    obtain ⟨hsized, hlt⟩ := h.sized pgdir hd
    refine returns_bind (returns_shrink hlt (howned pgdir hd) hsized fun r t ht hkept hsz hr => ?_)
    rw [returns_pure]
    exact h.resized hd hr ht hkept hsz
  | copyuvm pgdir deny =>
    obtain ⟨hsized, hlt⟩ := h.sized pgdir hen
    refine returns_bind (returns_copyuvm hbalanced (hsized.copyable hlt.le)
      (fun f hf => mem_of_le (footprint_le_owners hen) hf)
      (fun t ht hkept _ => ?_) fun d t ht => ?_)
    · rw [returns_pure]
      exact h.unchanged ht hkept
    · rw [returns_pure]
      exact h.added hlt ht.owned ht.kept ht.sized
  | freevm pgdir =>
    refine returns_bind (returns_freevm (howned pgdir hen) fun t ht hkept => ?_)
    rw [returns_pure]
    exact h.dropped ht hkept

theorem Inv.step (h : Inv P s) {c : Call} (hen : s.Enabled c) :
    ∃ u, (machine L).step s c = some u ∧ Inv P u := by
  obtain ⟨next, vm, hrun, hinv⟩ := returns_call h hen
  refine ⟨next vm, ?_, hinv⟩
  simp only [machine, Sys.step, if_pos hen, hrun]

theorem enabled_of_step {u : Sys} {c : Call} (h : (machine L).step s c = some u) : s.Enabled c := by
  by_contra hen
  simp only [machine, Sys.step, if_neg hen] at h
  cases h

end Steps

theorem inv_of_run {vm : Vm} (hframes : (vm.freelist : Multiset ℕ) = P.frames) {log : List Unit}
    {s : Sys} (hrun : (machine L).Run Machine.Free (start vm) log s) : Inv P s := by
  refine Machine.Run.invariant (P := fun _ s => Inv P s) ?_ ?_ hrun
  · constructor
    · rw [UserCalls.Balanced, owners, start, sum_empty, add_zero, hframes]
    · intro d hd
      exact absurd hd (notMem_empty d)
  · intro _ s c u ih _ hstep
    obtain ⟨v, hv, hinv⟩ := ih.step (enabled_of_step hstep)
    rw [hstep] at hv
    obtain rfl := Option.some.inj hv
    exact hinv

theorem Inv.free_not_owned {s : Sys} (h : Inv P s) {f d : ℕ} (hf : f ∈ s.vm.freelist)
    (hd : d ∈ s.dirs) : f ∉ tableFormat.footprint s.vm.mem d :=
  fun hmem => h.balanced.not_mem_of_free hf (mem_of_le (footprint_le_owners hd) hmem)

theorem mappedUser_mem_footprint {m : Mem} {d f : ℕ} (h : MappedUser m d f) :
    f ∈ tableFormat.footprint m d := by
  obtain ⟨va, huser, hpresent, rfl⟩ := h
  exact Format.pages_subset_footprint
    (mem_pages_of_target huser (target_eq_some.mpr ⟨hpresent, rfl⟩))

/-- Conservation of user memory. From any free list of distinct pages that kfree accepts:
in every state of every run no page is on the free list twice, or on it and a directory,
a page table or a page mapped below KERNBASE; without directories the free list is a
permutation of the initial one; and every call on an existing directory returns. -/
theorem user_memory_conserved {vm : Vm} (hnodup : vm.freelist.Nodup)
    (hfreeable : ∀ f ∈ vm.freelist, Freeable L f) {log : List Unit} {s : Sys}
    (hrun : (machine L).Run Machine.Free (start vm) log s) :
    s.vm.freelist.Nodup ∧
    (∀ f ∈ s.vm.freelist, ∀ d ∈ s.dirs,
      f ≠ d ∧ ¬ UsedAsTable s.vm.mem d f ∧ ¬ MappedUser s.vm.mem d f) ∧
    (s.dirs = ∅ → s.vm.freelist.Perm vm.freelist) ∧
    ∀ c, s.Enabled c → ∃ u, (machine L).step s c = some u := by
  have hinv : Inv (L := L) ⟨vm.freelist, coe_nodup.mpr hnodup, hfreeable⟩ s := inv_of_run rfl hrun
  refine ⟨hinv.balanced.freelist_nodup, fun f hf d hd => ?_, fun hdirs => ?_, fun c hen => ?_⟩
  · have hnot := hinv.free_not_owned hf hd
    refine ⟨?_, ?_, fun hmapped => hnot (mappedUser_mem_footprint hmapped)⟩
    · rintro rfl
      exact hnot (Format.dir_mem_footprint _ _)
    · rintro ⟨i, hpresent, hnum⟩
      exact hnot (Format.table_mem_footprint (target_eq_some.mpr ⟨hpresent, hnum⟩))
  · have hbalanced := hinv.balanced
    rw [UserCalls.Balanced, owners, hdirs, sum_empty, add_zero] at hbalanced
    exact coe_eq_coe.mp hbalanced
  · obtain ⟨u, hu, -⟩ := hinv.step hen
    exact ⟨u, hu⟩

def smallKernel : Layout where
  data := 0x80108000
  finish := 0x801154a8
  aligned := rfl
  text := by decide
  data_lt := by decide
  finish_le := by decide

def threePages : Vm where
  mem _ _ := 0
  freelist := [1024, 1025, 1026]
  deny := []

/-- Three free pages: the first setupkvm gets a page for the directory and none for a
page table, and the free list is a permutation of the three pages again; a further
setupkvm returns, whatever it finds, and leaves no page on the list twice. -/
theorem user_memory_conserved_setupkvm_fails :
    ∃ log s u, (machine smallKernel).Run Machine.Free (start threePages) log s ∧
      s.dirs = ∅ ∧ s.vm.freelist.Perm threePages.freelist ∧
      (machine smallKernel).step s (.setupkvm []) = some u ∧ u.vm.freelist.Nodup := by
  have hnodup : threePages.freelist.Nodup := by decide
  have hfreeable : ∀ f ∈ threePages.freelist, Freeable smallKernel f := by decide
  obtain ⟨log, s, hrun, hdirs⟩ := Machine.exists_run_of_exec (machine smallKernel) Machine.Free
    (start threePages) [.setupkvm [false, true]] (fun _ s => s.dirs = ∅)
    (by decide +kernel)
  obtain ⟨-, -, hperm, hreturns⟩ := user_memory_conserved hnodup hfreeable hrun
  obtain ⟨u, hu⟩ := hreturns (.setupkvm []) trivial
  have hnext := Machine.Run.snoc (M := machine smallKernel) _ hrun trivial hu
  exact ⟨log, s, u, hrun, hdirs, hperm hdirs, hu, (user_memory_conserved hnodup hfreeable hnext).1⟩

end KernelLabs.UserMemory

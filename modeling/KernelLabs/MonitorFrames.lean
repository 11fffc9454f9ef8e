import KernelLabs.MonitorRanges

/-!
What the commands that only inspect memory do to it. showmappings and pagesize look for the
entry of an address with a walk that makes a table where there is none, so they change the
directory, the reference count of the new table and the free list, or panic when the list is
empty. The dumps read through the page tables and change nothing.
-/
namespace KernelLabs.Monitor

open PageWords PhysPages PageDir KernelWords AddressSpace MemoryBytes PanicMonad RegionMap Option

variable {M : MemSize}

def outOfMemory : Stop := .panic "page table entry not found - out of memory?"

/-- The counters and links of the pages, the free list and all words of memory are the
same. -/
structure Same (s t : Phys M) : Prop where
  pages : t.pages = s.pages
  freeList : t.freeList = s.freeList
  mem : t.mem = s.mem

theorem Same.refl (s : Phys M) : Same s s := ⟨rfl, rfl, rfl⟩

theorem Same.trans {s t u : Phys M} (h : Same s t) (h' : Same t u) : Same s u :=
  ⟨h'.pages.trans h.pages, h'.freeList.trans h.freeList, h'.mem.trans h.mem⟩

theorem Same.symm {s t : Phys M} (h : Same s t) : Same t s :=
  ⟨h.pages.symm, h.freeList.symm, h.mem.symm⟩

/-- The computation leaves memory as it is and does not panic for want of memory. -/
def Quiet {α : Type} (f : MonM M α) (s : Mon M) : Prop :=
  Halts (fun stop t => Same s.phys t.phys ∧ stop ≠ outOfMemory) f s
    fun _ t => Same s.phys t.phys

def Reader {α : Type} (f : MonM M α) : Prop := ∀ s, Quiet f s

/-! ### Computations that only read -/

section Readers

variable {α β : Type} {f f' : MonM M α} {g : α → MonM M β} {c : Prop} [Decidable c]

theorem reader_bind (hf : Reader f) (hg : ∀ r, Reader (g r)) : Reader (f >>= g) := by
  intro s
  refine halts_bind_iff.mpr ((hf s).mono (fun _ _ h => h) fun r t hst => ?_)
  exact (hg r t).mono (fun _ u h => ⟨hst.trans h.1, h.2⟩) fun _ u h => hst.trans h

theorem reader_ite (hf : Reader f) (hf' : Reader f') : Reader (if c then f else f') := by
  split
  · exact hf
  · exact hf'

theorem reader_pure (a : α) : Reader (pure a : MonM M α) := fun s => Same.refl s.phys

theorem reader_get : Reader (get : MonM M (Mon M)) := fun s => Same.refl s.phys

theorem reader_cprintf (format : String) (args : List Arg) :
    Reader (cprintf format args : MonM M Unit) := fun s => Same.refl s.phys

theorem reader_throw {stop : Stop} (h : stop ≠ outOfMemory) : Reader (throw stop : MonM M α) :=
  fun s => ⟨Same.refl s.phys, h⟩

theorem reader_arg (argv : List String) (i : ℕ) : Reader (arg argv i : MonM M String) := by
  unfold arg
  cases argv[i]? with
  | none => exact reader_throw (by intro h; contradiction)
  | some text => exact reader_pure text

/-- A function of pmap.c that does not change the state, with another text in its panics. -/
theorem reader_pmap {f : PmapM M α} (hf : ∀ p, Halts (fun e t => t = p ∧ .panic e ≠ outOfMemory) f p
    fun _ t => t = p) : Reader (pmap f) := by
  intro s
  have hrun := hf s.phys
  unfold Halts at hrun
  unfold Quiet
  cases hend : f.run s.phys with
  | ok a t =>
    rw [hend] at hrun
    rw [halts_iff_of_ok (run_pmap_ok hend), hrun]
    exact Same.refl _
  | error e t =>
    rw [hend] at hrun
    rw [halts_iff_of_error (run_pmap_error hend), hrun.1]
    exact ⟨Same.refl _, hrun.2⟩

theorem reader_rangeLoop {step stop : Word} {body : Word → MonM M Unit}
    (hbody : ∀ va, Reader (body va)) (n : ℕ) (start : Word) :
    Reader (rangeLoop step stop body n start) := by
  induction n generalizing start with
  | zero => exact reader_throw (by intro h; contradiction)
  | succ n ih =>
    rw [rangeLoop]
    exact reader_ite (reader_bind (hbody start) fun _ => ih (start + step)) (reader_pure _)

theorem invalid_ne_outOfMemory (pa : Word) :
    Stop.panic ("KADDR called with invalid pa " ++ pa.toHex) ≠ outOfMemory := by
  intro h
  have htext := congrArg (fun text : String => text.toList.head?) (Stop.panic.inj h)
  simp at htext

theorem halts_KADDR (pa : Word) (p : Phys M) :
    Halts (fun e t => t = p ∧ .panic e ≠ outOfMemory) (KADDR pa) p fun _ t => t = p := by
  by_cases hlt : PGNUM pa < M.npages
  · rw [halts_iff_of_ok (run_KADDR (p := ⟨PGNUM pa, hlt⟩) rfl p)]
  · rw [KADDR, dif_neg hlt]
    exact ⟨rfl, invalid_ne_outOfMemory pa⟩

theorem reader_physical2virtual (pa : Word) : Reader (pmap (physical2virtual pa) : MonM M Word) := by
  refine reader_pmap fun p => halts_bind_iff.mpr ?_
  exact (halts_KADDR pa p).mono (fun _ _ h => h) fun _ _ h => h

end Readers

section Commands

variable (m : Machine M) (va : Word)

theorem halts_pgdirWalk (p : Phys M) :
    Halts (fun e t => t = p ∧ .panic e ≠ outOfMemory) (pgdirWalk m.kernPgdir va false) p
      fun _ t => t = p := by
  by_cases hpde : Present (p.mem m.kernPgdir (PDX va))
  · rw [pgdirWalk, halts_bind_iff]
    change Halts _ (if _ then _ else _) p _
    rw [if_neg (not_not_intro hpde), walkTable, halts_bind_iff]
    change Halts _ (KADDR _ >>= _) p _
    rw [halts_bind_iff]
    exact (halts_KADDR _ p).mono (fun _ _ h => h) fun _ _ h => h
  · rw [halts_iff_of_ok (run_pgdirWalk_absent hpde)]

theorem reader_virtual2physical : Reader (pmap (virtual2physical m va)) := by
  refine reader_pmap fun p => halts_bind_iff.mpr ?_
  refine (halts_pgdirWalk m va p).mono (fun _ _ h => h) fun r t ht => ?_
  cases r with
  | none => exact ht
  | some pte => exact ht

theorem reader_getperm : Reader (pmap (getperm m va)) := by
  refine reader_pmap fun p => halts_bind_iff.mpr ?_
  refine (halts_pgdirWalk m va p).mono (fun _ _ h => h) fun r t ht => ?_
  cases r with
  | none => exact ht
  | some pte => exact ht

theorem reader_printMapping (pte : PtePtr M) : Reader (printMapping m va pte) :=
  reader_bind reader_get fun _ => reader_ite
    (reader_bind (reader_cprintf _ _) fun _ => reader_bind (reader_virtual2physical m va) fun _ =>
      reader_bind (reader_cprintf _ _) fun _ => reader_bind (reader_getperm m va) fun _ =>
      reader_cprintf _ _)
    (reader_cprintf _ _)

theorem reader_load : Reader (load m va) := by
  refine reader_bind reader_get fun s => ?_
  cases load32 s.phys m.kernPgdir m.io va with
  | ok w => exact reader_pure w
  | error fault => exact reader_throw (by intro h; contradiction)

theorem reader_dumpRange (format : String) (rounds : ℕ) (start stop : Word) :
    Reader (dumpRange m format rounds start stop) := by
  have hline : ∀ va, Reader (dumpLine m format va) := fun va =>
    reader_bind (reader_load m _) fun _ => reader_bind (reader_load m _) fun _ =>
      reader_bind (reader_load m _) fun _ => reader_bind (reader_load m _) fun _ =>
      reader_cprintf _ _
  exact reader_bind (reader_cprintf _ _) fun _ =>
    reader_bind (reader_rangeLoop hline rounds start) fun _ => reader_pure _

theorem reader_message (format : String) : Reader (do cprintf format []; return 0 : MonM M ℤ) :=
  reader_bind (reader_cprintf _ _) fun _ => reader_pure _

theorem reader_dumpv (rounds : ℕ) (argv : List String) : Reader (monDumpv m rounds argv) :=
  reader_ite (reader_message _) (reader_bind (reader_arg argv 1) fun _ =>
    reader_bind (reader_arg argv 2) fun _ => reader_ite (reader_message _)
      (reader_ite (reader_message _) (reader_ite (reader_message _) (reader_dumpRange m _ _ _ _))))

theorem reader_dumpp (rounds : ℕ) (argv : List String) : Reader (monDumpp m rounds argv) :=
  reader_ite (reader_message _) (reader_bind (reader_arg argv 1) fun _ =>
    reader_bind (reader_physical2virtual _) fun _ => reader_bind (reader_arg argv 2) fun _ =>
    reader_bind (reader_physical2virtual _) fun _ => reader_ite (reader_message _)
      (reader_ite (reader_message _) (reader_ite (reader_message _) (reader_dumpRange m _ _ _ _))))

end Commands

/-! ### The walk that makes a table -/

section Walks

variable (m : Machine M)

/-- Every address of the list has a directory entry, up to the first one whose entry names no
page of the memory, where the walk panics. -/
def Tabulated (s : Phys M) : List Word → Prop
  | [] => True
  | va :: rest => Present (s.mem m.kernPgdir (PDX va)) ∧
      (PGNUM (s.mem m.kernPgdir (PDX va)) < M.npages → Tabulated s rest)

/-- A trace that the page q has been taken from the head of the list of p: its link is cleared,
and where it was the last page the list is empty. -/
structure Consumed (p : Phys M) (q : Page M) (t : Phys M) : Prop where
  link : (t.pages q).link = none
  last : (p.pages q).link = none → t.freeList = none

variable {m} {p t : Phys M} {q : Page M}

theorem Consumed.not_same (h : Consumed p q t) (hq : p.freeList = some q) : ¬Same p t := by
  intro hsame
  have hlink : (p.pages q).link = none := by
    rw [← hsame.pages]
    exact h.link
  have hfree : t.freeList = none := h.last hlink
  rw [hsame.freeList, hq] at hfree
  contradiction

theorem consumed_addTable (i : Fin NPTENTRIES) : Consumed p q (addTable p m.kernPgdir i q) where
  link := by simp [addTable, Phys.taken, Phys.setWord, Phys.incref, Phys.setInfo, Phys.zeroPage]
  last hlink := by simpa [addTable, Phys.taken, Phys.setWord, Phys.incref, Phys.setInfo,
    Phys.zeroPage] using hlink

theorem Consumed.addTable (h : Consumed p q t) {r : Page M} (hr : t.freeList = some r)
    (i : Fin NPTENTRIES) : Consumed p q (PageDir.addTable t m.kernPgdir i r) where
  link := by
    have hlink := h.link
    by_cases hqr : q = r <;>
      simp [PageDir.addTable, Phys.taken, Phys.setWord, Phys.incref, Phys.setInfo, Phys.zeroPage,
        hqr, hlink]
  last hlink := by
    rw [h.last hlink] at hr
    contradiction

/-- After the first table has been made, no later walk undoes it. -/
theorem consumed_walkCreate {s : Mon M} (h : Consumed p q s.phys) (va : Word) :
    Halts (fun _ t => Consumed p q t.phys) (walkCreate m va) s
      fun _ t => Consumed p q t.phys := by
  by_cases hpde : Present (s.phys.mem m.kernPgdir (PDX va))
  · by_cases hlt : PGNUM (s.phys.mem m.kernPgdir (PDX va)) < M.npages
    · rw [halts_iff_of_ok (run_walkCreate_table (tableOf_of_present hpde hlt))]
      exact h
    · rw [halts_iff_of_error (run_walkCreate_invalid hpde hlt)]
      exact h
  · cases hfree : s.phys.freeList with
    | none =>
      rw [halts_iff_of_error (run_walkCreate_full hpde hfree)]
      exact h
    | some r =>
      rw [halts_iff_of_ok (run_walkCreate_alloc hpde hfree)]
      exact h.addTable hfree _

/-- What only reads keeps every property of the memory. -/
theorem Reader.consumed {α : Type} {f : MonM M α} (hf : Reader f) {s : Mon M}
    (h : Consumed p q s.phys) :
    Halts (fun _ t => Consumed p q t.phys) f s fun _ t => Consumed p q t.phys := by
  have hkeep : ∀ t : Mon M, Same s.phys t.phys → Consumed p q t.phys := by
    intro t hsame
    exact ⟨by rw [hsame.pages]; exact h.link,
      fun hlink => by rw [hsame.freeList]; exact h.last hlink⟩
  exact (hf s).mono (fun _ t ht => hkeep t ht.1) fun _ t ht => hkeep t ht

theorem consumed_mappings (l : List Word) {s : Mon M} (h : Consumed p q s.phys) :
    Halts (fun _ t => Consumed p q t.phys) (l.forM (showMapping m)) s
      fun _ t => Consumed p q t.phys := by
  induction l generalizing s with
  | nil => exact h
  | cons va rest ih =>
    rw [List.forM_eq_forM, List.forM_cons, halts_bind_iff, showMapping, halts_bind_iff]
    refine (consumed_walkCreate h va).mono (fun _ _ ht => ht) fun pte t ht => ?_
    exact ((reader_printMapping m va pte).consumed ht).mono (fun _ _ hu => hu) fun _ _ hu => ih hu

/-- The lines for a list of addresses are printed without a change exactly when no table is
missing. -/
theorem quiet_mappings_iff (l : List Word) (s : Mon M) :
    Quiet (l.forM (showMapping m)) s ↔ Tabulated m s.phys l := by
  induction l generalizing s with
  | nil => exact iff_of_true (Same.refl s.phys) trivial
  | cons va rest ih =>
    rw [Quiet, List.forM_eq_forM, List.forM_cons, halts_bind_iff, Tabulated]
    by_cases hpde : Present (s.phys.mem m.kernPgdir (PDX va))
    · by_cases hlt : PGNUM (s.phys.mem m.kernPgdir (PDX va)) < M.npages
      · rw [halts_iff_of_ok (run_showMapping_table (tableOf_of_present hpde hlt))]
        refine Iff.trans (ih _) ⟨fun h => ⟨hpde, fun _ => h⟩, fun h => h.2 hlt⟩
      · rw [showMapping, halts_bind_iff, halts_iff_of_error (run_walkCreate_invalid hpde hlt)]
        exact iff_of_true ⟨Same.refl _, invalid_ne_outOfMemory _⟩ ⟨hpde, fun h => absurd h hlt⟩
    · refine iff_of_false (fun h => ?_) fun h => hpde h.1
      rw [showMapping, halts_bind_iff] at h
      cases hfree : s.phys.freeList with
      | none =>
        rw [halts_iff_of_error (run_walkCreate_full hpde hfree)] at h
        exact h.2 rfl
      | some q =>
        -- The page that the walk takes is missing from the list whatever follows.
        rw [halts_iff_of_ok (run_walkCreate_alloc hpde hfree), ← halts_bind_iff] at h
        have hconsumed : Consumed s.phys q (addTable s.phys m.kernPgdir (PDX va) q) :=
          consumed_addTable (PDX va)
        refine h.both (halts_bind_iff.mpr
          (((reader_printMapping m va _).consumed hconsumed).mono (fun _ _ hu => hu)
            fun _ _ hu => consumed_mappings rest hu)) ?_ ?_
        · exact fun _ t hsame ht => ht.not_same hfree hsame.1
        · exact fun _ t hsame ht => ht.not_same hfree hsame

end Walks

/-! ### The commands -/

inductive Inspection
  | showmappings
  | pagesize
  | dumpv
  | dumpp

namespace Inspection

def command : Inspection → Command
  | showmappings => .showmappings
  | pagesize => .pagesize
  | dumpv => .dumpv
  | dumpp => .dumpp

def Safe (m : Machine M) (s : Phys M) (argv : List String) : Inspection → Prop
  | showmappings => ∀ a b, argv[1]? = some a → argv[2]? = some b →
      ∀ n, Tabulated m s (visited pgsize (convert2int b) n (convert2int a))
  | pagesize => ∀ a, argv[1]? = some a → argv.length ≠ 1 →
      Present (s.mem m.kernPgdir (PDX (convert2int a)))
  | dumpv | dumpp => True

end Inspection

section Inspections

variable (m : Machine M) (s : Mon M) (argv : List String)

/-- What follows does not matter when it only reads. -/
theorem quiet_bind_iff {α β : Type} {f : MonM M α} {g : α → MonM M β} (hg : ∀ r, Reader (g r)) :
    Quiet (f >>= g) s ↔ Quiet f s := by
  constructor
  · intro h
    refine (halts_bind_iff.mp h).mono (fun _ _ ht => ht) fun r t ht => ?_
    exact ht.both (hg r t) (fun _ u hsu htu => hsu.1.trans htu.1.symm)
      fun _ u hsu htu => hsu.trans htu.symm
  · intro h
    refine halts_bind_iff.mpr (h.mono (fun _ _ ht => ht) fun r t hst => ?_)
    exact (hg r t).mono (fun _ u hu => ⟨hst.trans hu.1, hu.2⟩) fun _ u hu => hst.trans hu

theorem quiet_cprintf_bind {α : Type} (format : String) (args : List Arg)
    (g : Unit → MonM M α) : Quiet (cprintf format args >>= g) s ↔
      Quiet (g ()) { s with console := (format, args) :: s.console } := Iff.rfl

theorem quiet_walkCreate_iff (va : Word) :
    Quiet (walkCreate m va) s ↔ Present (s.phys.mem m.kernPgdir (PDX va)) := by
  have hline : Quiet (showMapping m va) s ↔ Quiet (walkCreate m va) s :=
    quiet_bind_iff s fun pte => reader_printMapping m va pte
  have hlist : Quiet ([va].forM (showMapping m)) s ↔ Quiet (showMapping m va) s :=
    quiet_bind_iff s fun _ => reader_pure ()
  rw [← hline, ← hlist, quiet_mappings_iff]
  exact ⟨fun h => h.1, fun h => ⟨h, fun _ => trivial⟩⟩

theorem arg_eq {i : ℕ} {text : String} (h : argv[i]? = some text) :
    (arg argv i : MonM M String) = pure text := by
  rw [arg, h]

/-- An argument that is missing stops the command before it does anything. -/
theorem reader_of_missing {α : Type} {i : ℕ} (h : argv[i]? = none) (g : String → MonM M α) :
    Reader (arg argv i >>= g) := by
  have hstop : (arg argv i >>= g) = throw (.badArgument i) := by
    rw [arg, h]
    rfl
  rw [hstop]
  exact reader_throw (by intro h; contradiction)

theorem quiet_rangeLoop_iff (stop : Word) (n : ℕ) (start : Word) :
    Quiet (rangeLoop pgsize stop (showMapping m) n start) s ↔
      Tabulated m s.phys (visited pgsize stop n start) := by
  rw [rangeLoop_eq, quiet_bind_iff, quiet_mappings_iff]
  exact fun _ => reader_ite (reader_pure ()) (reader_throw (by intro h; contradiction))

theorem quiet_showmappings_iff :
    (∀ rounds, Quiet (monShowmappings m rounds argv) s) ↔
      Inspection.Safe m s.phys argv .showmappings := by
  by_cases hlen : argv.length = 1
  · refine iff_of_true (fun rounds => ?_) fun a b ha => ?_
    · rw [monShowmappings, if_pos hlen]
      exact reader_message _ s
    · rw [List.getElem?_eq_none (by omega)] at ha
      contradiction
  simp only [monShowmappings, if_neg hlen, Inspection.Safe]
  cases ha : argv[1]? with
  | none => exact iff_of_true (fun _ => reader_of_missing argv ha _ s) (by intro _ _ h; contradiction)
  | some a =>
    cases hb : argv[2]? with
    | none =>
      simp only [arg_eq argv ha, pure_bind]
      exact iff_of_true (fun _ => reader_of_missing argv hb _ s) (by intro _ _ _ h; contradiction)
    | some b =>
      simp only [arg_eq argv ha, arg_eq argv hb, pure_bind]
      have hround : ∀ rounds, Quiet (cprintf "start address: %x, end address: %x\n"
            [.x (convert2int a), .x (convert2int b)] >>= fun _ =>
              rangeLoop pgsize (convert2int b) (showMapping m) rounds (convert2int a) >>=
                fun _ => pure (0 : ℤ)) s ↔
          Tabulated m s.phys (visited pgsize (convert2int b) rounds (convert2int a)) := by
        intro rounds
        rw [quiet_cprintf_bind, quiet_bind_iff, quiet_rangeLoop_iff]
        exact fun _ => reader_pure _
      constructor
      · intro h a' b' ha' hb' n
        obtain rfl := some.inj ha'
        obtain rfl := some.inj hb'
        exact (hround n).mp (h n)
      · intro h rounds
        exact (hround rounds).mpr (h a b rfl rfl rounds)

theorem quiet_pagesize_iff :
    Quiet (monPagesize m argv) s ↔ Inspection.Safe m s.phys argv .pagesize := by
  by_cases hlen : argv.length = 1
  · refine iff_of_true ?_ fun a ha => absurd hlen
    rw [monPagesize, if_pos hlen]
    exact reader_message _ s
  simp only [monPagesize, if_neg hlen, Inspection.Safe]
  cases ha : argv[1]? with
  | none => exact iff_of_true (reader_of_missing argv ha _ s) (by intro _ h; contradiction)
  | some a =>
    simp only [arg_eq argv ha, pure_bind]
    rw [quiet_bind_iff, quiet_walkCreate_iff]
    · constructor
      · intro h a' ha' _
        obtain rfl := some.inj ha'
        exact h
      · exact fun h => h a rfl hlen
    · exact fun _ => reader_bind reader_get fun _ =>
        reader_ite (reader_message _) (reader_message _)

end Inspections

/-- The four commands leave the directory, the tables, the reference counts and the free list
as they are, and do not run out of memory, if and only if the directory has an entry for every
address that showmappings and pagesize meet. -/
theorem inspection_quiet_iff (m : Machine M) (cmd : Inspection) (argv : List String) (s : Mon M) :
    (∀ rounds, Quiet (cmd.command.func m rounds argv) s) ↔ cmd.Safe m s.phys argv := by
  cases cmd with
  | showmappings => exact quiet_showmappings_iff m s argv
  | pagesize =>
    exact Iff.trans ⟨fun h => h 0, fun h _ => h⟩ (quiet_pagesize_iff m s argv)
  | dumpv => exact iff_of_true (fun rounds => reader_dumpv m rounds argv s) trivial
  | dumpp => exact iff_of_true (fun rounds => reader_dumpp m rounds argv s) trivial

/-- Two pages, of which the second is free, and a directory without entries. -/
abbrev twoPages : MemSize := ⟨2, Nat.two_pos, Nat.le_of_ble_eq_true rfl⟩

def twoPagesMachine : Machine twoPages := ⟨⟨0, by decide⟩, fun _ => 0, 0, 0, 0, 0, 0⟩

def twoPagesState : Mon twoPages :=
  ⟨⟨fun _ => ⟨none, 0⟩, some ⟨1, by decide⟩, fun _ _ => 0, []⟩, []⟩

/-- For a user address without a table, pagesize takes the free page for one, and without a free
page it panics. -/
theorem pagesize_takes_table :
    (∃ t, (monPagesize twoPagesMachine ["pagesize", "00800000"]).run twoPagesState = .ok 0 t ∧
      t.phys.freeList = none ∧ (t.phys.pages ⟨1, by decide⟩).ref = 1 ∧
      t.phys.mem ⟨0, by decide⟩ (PDX 0x800000) = 0x1007) ∧
    (∃ t, (monPagesize onePageMachine ["pagesize", "00800000"]).run onePageState =
      .error outOfMemory t) ∧
    ¬∀ rounds, Quiet (Inspection.pagesize.command.func twoPagesMachine rounds
      ["pagesize", "00800000"]) twoPagesState := by
  have hpde : ¬Present (twoPagesState.phys.mem twoPagesMachine.kernPgdir
      (PDX (convert2int "00800000"))) := by decide
  refine ⟨⟨_, rfl, rfl, rfl, by decide⟩, ⟨_, rfl⟩, fun h => ?_⟩
  exact hpde ((quiet_pagesize_iff _ _ _).mp (h 0) "00800000" rfl (by decide))

end KernelLabs.Monitor

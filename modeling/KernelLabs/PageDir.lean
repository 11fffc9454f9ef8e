import KernelLabs.PhysPages

/-!
The two-level page tables of pmap.c. A `pte_t *` is a page with an index of one of
its words. The functions are followed by what they do to a state in which the page
tables are separate: each table belongs to one directory entry and is neither the
directory nor a page on the free list. There every walk ends without a panic, and
each function's run is a short sequence of stores and counter updates.
-/
namespace KernelLabs.PageDir

open LinkedChain PageWords PhysPages Option EStateM

variable {M : MemSize}

abbrev PtePtr (M : MemSize) := Page M × Fin NPTENTRIES

def E_NO_MEM : ℤ := 4

def walkTable (pgdir : Page M) (va : Word) : PmapM M (Option (PtePtr M)) := do
  let table ← KADDR (PTE_ADDR ((← get).mem pgdir (PDX va)))
  return some (table, PTX va)

def pgdirWalk (pgdir : Page M) (va : Word) (create : Bool) : PmapM M (Option (PtePtr M)) := do
  if ¬ Present ((← get).mem pgdir (PDX va)) then
    if !create then
      return none
    else
      match ← pageAlloc ALLOC_ZERO with
      | none => return none
      | some newpage =>
        modify fun s => s.incref newpage
        modify fun s =>
          s.setWord pgdir (PDX va) (page2pa newpage ||| PTE_P ||| PTE_W ||| PTE_U)
        walkTable pgdir va
  else walkTable pgdir va

def pageLookup (pgdir : Page M) (va : Word) : PmapM M (Option (Page M × PtePtr M)) := do
  match ← pgdirWalk pgdir va false with
  | none => return none
  | some mapped =>
    let pte := (← get).mem mapped.1 mapped.2
    if ¬ Present pte then
      return none
    else
      let page ← pa2page (PTE_ADDR pte)
      return some (page, mapped)

/-- page_remove. The entry of the second walk is dereferenced before it is tested, so
a null entry is a fault. Nothing here models the TLB. -/
def pageRemove (pgdir : Page M) (va : Word) : PmapM M Unit := do
  match ← pageLookup pgdir va with
  | none => return
  | some (pageToRemove, storeEntry) =>
    match ← pgdirWalk pgdir va false with
    | none => throw "page fault"
    | some entry =>
      let page ← pa2page (PTE_ADDR ((← get).mem entry.1 entry.2))
      if page ≠ pageToRemove then
        throw "assertion failed: pa2page(PTE_ADDR(*pgtable_entry)) == page_to_remove"
      else if ¬ Present ((← get).mem entry.1 entry.2) then
        return
      else
        modify fun s => s.setWord storeEntry.1 storeEntry.2 0
        pageDecref pageToRemove

def pageInsert (pgdir pp : Page M) (va : Word) (perm : Word) : PmapM M ℤ := do
  match ← pgdirWalk pgdir va true with
  | none => return -E_NO_MEM
  | some entry =>
    if Present ((← get).mem entry.1 entry.2) then
      modify fun s => s.incref pp
      pageRemove pgdir va
      modify fun s => s.setWord entry.1 entry.2 (page2pa pp ||| perm ||| PTE_P)
      return 0
    else
      modify fun s => s.setWord entry.1 entry.2 (page2pa pp ||| perm ||| PTE_P)
      modify fun s => s.incref pp
      return 0

def decode (M : MemSize) (w : Word) : Option (Page M × BitVec 12) :=
  if Present w then
    if h : PGNUM w < M.npages then some (⟨PGNUM w, h⟩, flags w) else none
  else none

def tableOf (s : Phys M) (pgdir : Page M) (i : Fin NPTENTRIES) : Option (Page M) :=
  (decode M (s.mem pgdir i)).map Prod.fst

/-- The address space below UTOP: where the two-level walk of a virtual page leads. -/
def absMap (s : Phys M) (pgdir : Page M) (v : Vpn) : Option (Page M × BitVec 12) :=
  (tableOf s pgdir v.dir).bind fun t => decode M (s.mem t v.tab)

def InRange (M : MemSize) (w : Word) : Prop := Present w → PGNUM w < M.npages

/-- The page tables below UTOP, the directory and the free pages are pairwise distinct,
and the entries name pages of the memory. -/
structure Separated (s : Phys M) (pgdir : Page M) : Prop where
  dirInRange : ∀ v : Vpn, InRange M (s.mem pgdir v.dir)
  inRange : ∀ (v : Vpn) t, tableOf s pgdir v.dir = some t → InRange M (s.mem t v.tab)
  table_ne : ∀ v : Vpn, tableOf s pgdir v.dir ≠ some pgdir
  table_inj : ∀ (v w : Vpn) t, tableOf s pgdir v.dir = some t → tableOf s pgdir w.dir = some t →
    v.dir = w.dir
  free_ne_table : ∀ p, s.Free p → ∀ v : Vpn, tableOf s pgdir v.dir ≠ some p
  free_ne_dir : ¬ s.Free pgdir

theorem decode_of_not_present {w : Word} (h : ¬ Present w) : decode M w = none := if_neg h

@[simp] theorem decode_zero : decode M 0#32 = none := decode_of_not_present (by decide)

theorem decode_eq_none {w : Word} (hrange : InRange M w) : decode M w = none ↔ ¬ Present w := by
  refine ⟨fun h hp => ?_, decode_of_not_present⟩
  rw [decode, if_pos hp, dif_pos (hrange hp)] at h
  cases h

variable {bits : BitVec 12}

theorem decode_eq_some {w : Word} {p : Page M}
    (h : decode M w = some (p, bits)) : Present w ∧ PGNUM w = p.val := by
  unfold decode at h
  split at h
  · rename_i hp
    split at h
    · simp only [some.injEq, Prod.mk.injEq] at h
      exact ⟨hp, congrArg Fin.val h.1⟩
    · cases h
  · cases h

/-- Storing a page number with its flags is read back by decode. -/
theorem decode_entry (p : Page M) {bits : Word} (h : bits.toNat < 2 ^ 12) (hp : Present bits) :
    decode M (page2pa p ||| bits) = some (p, flags bits) := by
  have hnum := PGNUM_entry p h
  rw [decode, if_pos ((present_entry p h).mpr hp), dif_pos (hnum ▸ p.isLt), flags_entry p h]
  exact congrArg (fun q => some (q, flags bits)) (Fin.ext hnum)

variable {s : Phys M} {pgdir : Page M}

theorem tableOf_eq_none {i : Fin NPTENTRIES} (hrange : InRange M (s.mem pgdir i)) :
    tableOf s pgdir i = none ↔ ¬ Present (s.mem pgdir i) := by
  rw [tableOf, map_eq_none_iff, decode_eq_none hrange]

theorem tableOf_eq_some {i : Fin NPTENTRIES} {t : Page M} (h : tableOf s pgdir i = some t) :
    Present (s.mem pgdir i) ∧ PGNUM (s.mem pgdir i) = t.val := by
  obtain ⟨⟨p, bits⟩, hdecode, rfl⟩ := map_eq_some_iff.mp h
  exact decode_eq_some hdecode

namespace Separated

variable {s : Phys M} {pgdir : Page M} (hs : Separated s pgdir)

include hs

theorem absent {v : Vpn} (h : tableOf s pgdir v.dir = none) : ¬ Present (s.mem pgdir v.dir) :=
  (tableOf_eq_none (hs.dirInRange v)).mp h

theorem head_ne_dir {q : Page M} (h : s.freeList = some q) : q ≠ pgdir := by
  rintro rfl
  refine hs.free_ne_dir ?_
  rw [Phys.Free, h]
  exact OnList.here q

theorem head_ne_table {q : Page M} (h : s.freeList = some q) (v : Vpn) :
    tableOf s pgdir v.dir ≠ some q := by
  refine hs.free_ne_table q ?_ v
  rw [Phys.Free, h]
  exact OnList.here q

end Separated

variable {va : Word}

theorem run_walkTable {pgdir t : Page M} (h : PGNUM (s.mem pgdir (PDX va)) = t.val) :
    (walkTable pgdir va).run s = .ok (some (t, PTX va)) s := by
  have hnum : PGNUM (PTE_ADDR (s.mem pgdir (PDX va))) = t.val := by rw [PGNUM_PTE_ADDR, h]
  simp only [walkTable, run_bind, run_get, run_KADDR hnum, run_pure]

theorem run_pgdirWalk_table {pgdir t : Page M} (h : tableOf s pgdir (PDX va) = some t)
    (create : Bool) : (pgdirWalk pgdir va create).run s = .ok (some (t, PTX va)) s := by
  obtain ⟨hp, hnum⟩ := tableOf_eq_some h
  simp only [pgdirWalk, run_bind, run_get, if_neg (not_not_intro hp), run_walkTable hnum]

theorem run_pgdirWalk_absent (h : ¬ Present (s.mem pgdir (PDX va))) :
    (pgdirWalk pgdir va false).run s = .ok none s := by
  simp only [pgdirWalk, run_bind, run_get, if_pos h]
  rfl

theorem run_pgdirWalk_full (h : ¬ Present (s.mem pgdir (PDX va))) (hfull : s.freeList = none) :
    (pgdirWalk pgdir va true).run s = .ok none s := by
  simp only [pgdirWalk, run_bind, run_get, if_pos h, Bool.not_true,
    Bool.false_eq_true, if_false, run_pageAlloc_none hfull]
  rfl

/-- The bits of a directory entry that pgdir_walk makes. -/
theorem dirBits_eq (q : Page M) :
    page2pa q ||| PTE_P ||| PTE_W ||| PTE_U = page2pa q ||| (PTE_P ||| PTE_W ||| PTE_U) := by
  rw [BitVec.or_assoc, BitVec.or_assoc, BitVec.or_assoc]

theorem decode_dirEntry (q : Page M) :
    decode M (page2pa q ||| PTE_P ||| PTE_W ||| PTE_U) = some (q, 7) := by
  rw [dirBits_eq, decode_entry q (by decide) (by decide)]
  rfl

/-- The page `q`, taken from the head of the free list, becomes the table of entry `i`. -/
def addTable (s : Phys M) (pgdir : Page M) (i : Fin NPTENTRIES) (q : Page M) : Phys M :=
  (((s.taken q).zeroPage q).incref q).setWord pgdir i (page2pa q ||| PTE_P ||| PTE_W ||| PTE_U)

theorem run_pgdirWalk_alloc {pgdir q : Page M}
    (h : ¬ Present (s.mem pgdir (PDX va))) (hfree : s.freeList = some q) :
    (pgdirWalk pgdir va true).run s =
      .ok (some (q, PTX va)) (addTable s pgdir (PDX va) q) := by
  have hnum : PGNUM ((addTable s pgdir (PDX va) q).mem pgdir (PDX va)) = q.val := by
    simp only [addTable, Phys.setWord, Function.update_self]
    exact (decode_eq_some (decode_dirEntry q)).2
  simp only [pgdirWalk, run_bind, run_get, if_pos h, Bool.not_true,
    Bool.false_eq_true, if_false, run_pageAlloc_some hfree, ALLOC_ZERO, one_ne_zero,
    run_modify]
  exact run_walkTable hnum

theorem absMap_of_table {pgdir t : Page M} {v : Vpn} (h : tableOf s pgdir v.dir = some t) :
    absMap s pgdir v = decode M (s.mem t v.tab) := by
  rw [absMap, h]
  rfl

theorem absMap_of_absent {v : Vpn} (h : tableOf s pgdir v.dir = none) :
    absMap s pgdir v = none := by
  rw [absMap, h]
  rfl

theorem run_pageLookup_none (hs : Separated s pgdir) (hva : va.toNat < UTOP)
    (h : absMap s pgdir (Vpn.ofAddr va hva) = none) : (pageLookup pgdir va).run s = .ok none s := by
  have hdir := Vpn.dir_ofAddr va hva
  have htab := Vpn.tab_ofAddr va hva
  cases ht : tableOf s pgdir (PDX va) with
  | none =>
    have habsent : ¬ Present (s.mem pgdir (PDX va)) :=
      (tableOf_eq_none (hdir ▸ hs.dirInRange _)).mp ht
    simp only [pageLookup, run_bind, run_pgdirWalk_absent habsent]
    rfl
  | some t =>
    rw [← hdir] at ht
    rw [absMap_of_table ht, decode_eq_none (hs.inRange _ t ht), htab] at h
    rw [hdir] at ht
    simp only [pageLookup, run_bind, run_pgdirWalk_table ht, run_get, if_pos h]
    rfl

theorem run_pageLookup_some {pgdir t p : Page M}
    (ht : tableOf s pgdir (PDX va) = some t) (h : decode M (s.mem t (PTX va)) = some (p, bits)) :
    (pageLookup pgdir va).run s = .ok (some (p, (t, PTX va))) s := by
  obtain ⟨hp, hnum⟩ := decode_eq_some h
  have hnum' : PGNUM (PTE_ADDR (s.mem t (PTX va))) = p.val := by rw [PGNUM_PTE_ADDR, hnum]
  simp only [pageLookup, run_bind, run_pgdirWalk_table ht, run_get,
    if_neg (not_not_intro hp), run_pa2page hnum', run_pure]

theorem run_pageRemove_none (hs : Separated s pgdir) (hva : va.toNat < UTOP)
    (h : absMap s pgdir (Vpn.ofAddr va hva) = none) : (pageRemove pgdir va).run s = .ok () s := by
  simp only [pageRemove, run_bind, run_pageLookup_none hs hva h]
  rfl

/-- page_remove of a mapped address clears the entry and gives up one reference. -/
theorem run_pageRemove_some {pgdir t p : Page M}
    (ht : tableOf s pgdir (PDX va) = some t) (h : decode M (s.mem t (PTX va)) = some (p, bits)) :
    (pageRemove pgdir va).run s = (pageDecref p).run (s.setWord t (PTX va) 0) := by
  obtain ⟨hp, hnum⟩ := decode_eq_some h
  have hnum' : PGNUM (PTE_ADDR (s.mem t (PTX va))) = p.val := by rw [PGNUM_PTE_ADDR, hnum]
  simp only [pageRemove, run_bind, run_pageLookup_some ht h, run_pgdirWalk_table ht,
    run_get, run_pa2page hnum', ne_eq, not_true, if_false, not_not_intro hp,
    run_modify]

def pteOf (pp : Page M) (perm : Word) : Word := page2pa pp ||| perm ||| PTE_P

theorem run_pageInsert_full (h : ¬ Present (s.mem pgdir (PDX va))) (hfull : s.freeList = none)
    (pp : Page M) (perm : Word) : (pageInsert pgdir pp va perm).run s = .ok (-E_NO_MEM) s := by
  simp only [pageInsert, run_bind, run_pgdirWalk_full h hfull]
  rfl

/-- page_insert into an empty entry of an existing table. -/
theorem run_pageInsert_fresh {pgdir t : Page M} (ht : tableOf s pgdir (PDX va) = some t)
    (h : ¬ Present (s.mem t (PTX va))) (pp : Page M) (perm : Word) :
    (pageInsert pgdir pp va perm).run s =
      .ok 0 ((s.incref pp).setWord t (PTX va) (pteOf pp perm)) := by
  simp only [pageInsert, run_bind, run_pgdirWalk_table ht, run_get, if_neg h, run_modify]
  rfl

theorem run_pageInsert_alloc {pgdir q : Page M} (h : ¬ Present (s.mem pgdir (PDX va)))
    (hfree : s.freeList = some q) (hne : q ≠ pgdir) (pp : Page M) (perm : Word) :
    (pageInsert pgdir pp va perm).run s =
      .ok 0 (((addTable s pgdir (PDX va) q).incref pp).setWord q (PTX va) (pteOf pp perm)) := by
  have hempty : ¬ Present ((addTable s pgdir (PDX va) q).mem q (PTX va)) := by
    simp [addTable, Phys.setWord, Phys.zeroPage, Phys.incref, Phys.setInfo,
      Function.update_of_ne hne, Present]
  simp only [pageInsert, run_bind, run_pgdirWalk_alloc h hfree, run_get, if_neg hempty, run_modify]
  rfl

/-- page_insert over a mapping: the new reference is counted before the old is given up. -/
theorem run_pageInsert_replace {pgdir t q : Page M} (ht : tableOf s pgdir (PDX va) = some t)
    (h : decode M (s.mem t (PTX va)) = some (q, bits)) (pp : Page M) (perm : Word) :
    (pageInsert pgdir pp va perm).run s =
      match (pageDecref q).run ((s.incref pp).setWord t (PTX va) 0) with
      | .ok _ u => .ok 0 (u.setWord t (PTX va) (pteOf pp perm))
      | .error e u => .error e u := by
  obtain ⟨hp, _⟩ := decode_eq_some h
  have hremove : (pageRemove pgdir va).run (s.incref pp) =
      (pageDecref q).run ((s.incref pp).setWord t (PTX va) 0) := run_pageRemove_some ht h
  simp only [pageInsert, run_bind, run_pgdirWalk_table ht, run_get, if_pos hp, run_modify, hremove]
  cases (pageDecref q).run ((s.incref pp).setWord t (PTX va) 0) <;> rfl

end KernelLabs.PageDir

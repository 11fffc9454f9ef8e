import KernelLabs.LinkedChain
import KernelLabs.PageWords

/-!
Physical pages of the JOS kernel: the array of PageInfo structures, the free list
that runs through their links, and the words of memory. Functions run in a state
monad whose errors are panics. A `struct PageInfo *` is the number of its page.
page_alloc and page_free write to a trace, which no function reads, so that the
pages obtained and not given back since can be told at any time.
-/
namespace KernelLabs.PhysPages

open LinkedChain PageWords Function EStateM

variable {M : MemSize}

structure PageInfo (M : MemSize) where
  link : Option (Page M)
  ref : BitVec 16
  deriving DecidableEq

inductive Event (M : MemSize)
  | allocated (p : Page M)
  | freed (p : Page M)
  deriving DecidableEq

structure Phys (M : MemSize) where
  pages : Page M → PageInfo M
  freeList : Option (Page M)
  mem : Page M → Fin NPTENTRIES → Word
  trace : List (Event M)

abbrev PmapM (M : MemSize) := EStateM String (Phys M)

def ownedIn : List (Event M) → Page M → Prop
  | [], _ => False
  | .allocated q :: rest, p => q = p ∨ ownedIn rest p
  | .freed q :: rest, p => q ≠ p ∧ ownedIn rest p

instance (trace : List (Event M)) (p : Page M) : Decidable (ownedIn trace p) := by
  induction trace with
  | nil => exact inferInstanceAs (Decidable False)
  | cons e rest ih =>
    cases e with
    | allocated q => exact inferInstanceAs (Decidable (q = p ∨ ownedIn rest p))
    | freed q => exact inferInstanceAs (Decidable (q ≠ p ∧ ownedIn rest p))

namespace Phys

/-- A page obtained from page_alloc and not freed since. -/
def Owned (s : Phys M) (p : Page M) : Prop := ownedIn s.trace p

instance (s : Phys M) (p : Page M) : Decidable (s.Owned p) := by
  unfold Owned
  infer_instance

def links (s : Phys M) (p : Page M) : Option (Page M) := (s.pages p).link

def Free (s : Phys M) (p : Page M) : Prop := OnList s.links s.freeList p

def setInfo (s : Phys M) (p : Page M) (info : PageInfo M) : Phys M :=
  { s with pages := update s.pages p info }

def incref (s : Phys M) (p : Page M) : Phys M :=
  s.setInfo p { s.pages p with ref := (s.pages p).ref + 1 }

def decref (s : Phys M) (p : Page M) : Phys M :=
  s.setInfo p { s.pages p with ref := (s.pages p).ref - 1 }

def setWord (s : Phys M) (t : Page M) (j : Fin NPTENTRIES) (w : Word) : Phys M :=
  { s with mem := update s.mem t (update (s.mem t) j w) }

def zeroPage (s : Phys M) (t : Page M) : Phys M :=
  { s with mem := update s.mem t fun _ => 0 }

def taken (s : Phys M) (q : Page M) : Phys M :=
  { s with
    pages := update s.pages q ⟨none, 0⟩
    freeList := (s.pages q).link
    trace := .allocated q :: s.trace }

def returned (s : Phys M) (p : Page M) : Phys M :=
  { s with
    pages := update s.pages p { s.pages p with link := s.freeList }
    freeList := some p
    trace := .freed p :: s.trace }

variable (s : Phys M)

theorem setInfo_self (p : Page M) (info : PageInfo M) :
    (s.setInfo p info).pages p = info := update_self _ _ _

theorem setInfo_ne {p q : Page M} (hq : q ≠ p) (info : PageInfo M) :
    (s.setInfo p info).pages q = s.pages q := update_of_ne hq _ _

/-- A write to a counter leaves the free list as it is. -/
theorem setRef_links (p : Page M) (x : BitVec 16) :
    (s.setInfo p { s.pages p with ref := x }).links = s.links := by
  funext q
  by_cases hqp : q = p
  · subst hqp
    simp [links, setInfo]
  · simp [links, setInfo, hqp]

theorem incref_link (p q : Page M) :
    ((s.incref p).pages q).link = (s.pages q).link := congrFun (setRef_links s p _) q

theorem decref_link (p q : Page M) :
    ((s.decref p).pages q).link = (s.pages q).link := congrFun (setRef_links s p _) q

theorem returned_links (p : Page M) : (s.returned p).links = update s.links p s.freeList := by
  funext q
  by_cases hqp : q = p
  · subst hqp
    simp [links, returned]
  · simp [links, returned, hqp]

theorem taken_links (p : Page M) : (s.taken p).links = update s.links p none := by
  funext q
  by_cases hqp : q = p
  · subst hqp
    simp [links, taken]
  · simp [links, taken, hqp]

end Phys

def KADDR (pa : Word) : PmapM M (Page M) :=
  if h : PGNUM pa < M.npages then return ⟨PGNUM pa, h⟩
  else throw ("KADDR called with invalid pa " ++ pa.toHex)

def pa2page (pa : Word) : PmapM M (Page M) :=
  if h : PGNUM pa < M.npages then return ⟨PGNUM pa, h⟩
  else throw "pa2page called with invalid pa"

def ALLOC_ZERO : ℤ := 1

/-- page_alloc, which clears the page for every nonzero argument, since it joins the
flags by the logical and. -/
def pageAlloc (allocFlags : ℤ) : PmapM M (Option (Page M)) := do
  match (← get).freeList with
  | none => return none
  | some allocpg =>
    modify fun s => { s with freeList := (s.pages allocpg).link }
    if allocFlags ≠ 0 ∧ ALLOC_ZERO ≠ 0 then
      let kva ← KADDR (page2pa allocpg)
      modify fun s => s.zeroPage kva
    modify fun s => s.setInfo allocpg { s.pages allocpg with ref := 0 }
    modify fun s => s.setInfo allocpg { s.pages allocpg with link := none }
    modify fun s => { s with trace := .allocated allocpg :: s.trace }
    return some allocpg

def pageFree (pp : Page M) : PmapM M Unit := do
  if ((← get).pages pp).ref ≠ 0 then
    throw "Reference pointers are non-zero"
  if ((← get).pages pp).link.isSome then
    throw "Points to some other page through pp_link"
  modify fun s => s.setInfo pp { s.pages pp with link := s.freeList }
  modify fun s => { s with freeList := some pp, trace := .freed pp :: s.trace }

def pageDecref (pp : Page M) : PmapM M Unit := do
  modify fun s => s.decref pp
  if ((← get).pages pp).ref = 0 then
    pageFree pp

variable {p : Page M}

theorem run_KADDR {pa : Word} (h : PGNUM pa = p.val) (s : Phys M) : (KADDR pa).run s = .ok p s := by
  have hlt : PGNUM pa < M.npages := h ▸ p.isLt
  rw [KADDR, dif_pos hlt]
  exact congrArg (EStateM.Result.ok · s) (Fin.ext h)

theorem run_pa2page {pa : Word} (h : PGNUM pa = p.val) (s : Phys M) :
    (pa2page pa).run s = .ok p s := by
  have hlt : PGNUM pa < M.npages := h ▸ p.isLt
  rw [pa2page, dif_pos hlt]
  exact congrArg (EStateM.Result.ok · s) (Fin.ext h)

theorem PGNUM_page2pa (p : Page M) : PGNUM (page2pa p) = p.val := by
  rw [PGNUM_eq, page2pa_toNat]
  omega

variable {s : Phys M}

theorem run_pageAlloc_none (h : s.freeList = none) (allocFlags : ℤ) :
    (pageAlloc allocFlags).run s = .ok none s := by
  simp [pageAlloc, h]

theorem run_pageAlloc_some {q : Page M} (h : s.freeList = some q) (allocFlags : ℤ) :
    (pageAlloc allocFlags).run s =
      .ok (some q) (if allocFlags = 0 then s.taken q else (s.taken q).zeroPage q) := by
  by_cases hzero : allocFlags = 0
  · simp [-bind_pure_comp, pageAlloc, h, hzero, Phys.taken, Phys.setInfo]
  · simp [-bind_pure_comp, pageAlloc, h, hzero, ALLOC_ZERO, run_KADDR (PGNUM_page2pa q),
      Phys.taken, Phys.setInfo, Phys.zeroPage]

theorem run_pageFree (href : (s.pages p).ref = 0)
    (hlink : (s.pages p).link = none) : (pageFree p).run s = .ok () (s.returned p) := by
  simp [pageFree, href, hlink, Phys.returned, Phys.setInfo]

theorem run_pageFree_referenced (href : (s.pages p).ref ≠ 0) :
    (pageFree p).run s = .error "Reference pointers are non-zero" s := by
  simp only [pageFree, run_bind, run_get, if_pos href, run_throw]

/-- page_free refuses a page that has a successor on the free list. -/
theorem run_pageFree_linked (href : (s.pages p).ref = 0) (hlink : (s.pages p).link ≠ none) :
    (pageFree p).run s = .error "Points to some other page through pp_link" s := by
  have hsome : (s.pages p).link.isSome = true := Option.isSome_iff_ne_none.mpr hlink
  simp only [pageFree, run_bind, run_get, if_neg (not_not_intro href), hsome, if_true, run_throw]

theorem run_pageDecref (s : Phys M) (p : Page M) :
    (pageDecref p).run s =
      if ((s.decref p).pages p).ref = 0 then (pageFree p).run (s.decref p)
      else .ok () (s.decref p) := by
  simp only [pageDecref, run_bind, run_modify, run_get]
  split <;> rfl

end KernelLabs.PhysPages

import KernelLabs.PanicMonad
import KernelLabs.PhysPages
import KernelLabs.TailPointers
import Mathlib.Data.Fintype.Card

/-!
The first part of check_page_free_list with only_low_memory (kern/pmap.c), which moves the pages
below the limit to the front of the free list. It takes the list apart through two pointers to
links, while it follows the links that it overwrites: the link of a page is written only after
the page has been visited. The variables pp1 and pp2 begin with any values.
-/
namespace KernelLabs.FreeListOrder

open LinkedChain PageWords PanicMonad PhysPages TailPointers List

variable {M : MemSize}

/-- The pages that entry_pgdir maps: PDX(page2pa(pp)) < pdx_limit. -/
def isLow (pp : Page M) : Bool := decide ((PDX (page2pa pp)).val < 1)

/-- A store through one of the pointers, as far as it is to a page's link. -/
def setLink (s : Phys M) (tp : Queue (Page M)) (x : Option (Page M)) : Phys M :=
  match tp.tail with
  | none => s
  | some p => s.setInfo p { s.pages p with link := x }

/-- The variables pp1 and pp2 with the pointers tp[0] and tp[1]. -/
structure Rewiring (M : MemSize) where
  phys : Phys M
  low : Queue (Page M)
  high : Queue (Page M)

/-- One turn of the loop: *tp[pagetype] = pp; tp[pagetype] = &pp->pp_link; -/
def visit (s : Rewiring M) (pp : Page M) : Rewiring M :=
  if isLow pp then ⟨setLink s.phys s.low (some pp), s.low.push pp, s.high⟩
  else ⟨setLink s.phys s.high (some pp), s.low, s.high.push pp⟩

def sweep : ℕ → Option (Page M) → Rewiring M → Option (Rewiring M)
  | _, none, s => some s
  | 0, some _, _ => none
  | n + 1, some pp, s =>
    let s := visit s pp
    sweep n (s.phys.links pp) s

def moveLowFirst (pp1 pp2 : Option (Page M)) : PmapM M Unit := do
  let s ← get
  if s.freeList = none then throw "'page_free_list' is a null pointer!"
  else
    match sweep M.npages s.freeList ⟨s, ⟨pp1, none⟩, ⟨pp2, none⟩⟩ with
    | none => throw "check_page_free_list: turns"
    | some r =>
      let phys := setLink r.phys r.high none
      let pp2 := (r.high.put none).first
      let phys := setLink phys r.low pp2
      set { phys with freeList := (r.low.put pp2).first }

variable {tp : Queue (Page M)}

section Links

variable {s t : Phys M} {l : List (Page M)}

theorem links_setLink (s : Phys M) (tp : Queue (Page M)) (x : Option (Page M)) :
    (setLink s tp x).links = tp.links s.links x := by
  unfold setLink Queue.links
  cases tp.tail with
  | none => rfl
  | some p =>
    dsimp only
    funext q
    by_cases hq : q = p
    · rw [hq, Function.update_self, Phys.links, Phys.setInfo_self]
    · rw [Function.update_of_ne hq, Phys.links, Phys.setInfo_ne s hq, Phys.links]

/-- Nothing but the links of some pages has changed. -/
structure Relinked (s t : Phys M) (l : List (Page M)) : Prop where
  ref : ∀ p, (t.pages p).ref = (s.pages p).ref
  other : ∀ p, p ∉ l → t.pages p = s.pages p
  mem : t.mem = s.mem

theorem Relinked.store (h : Relinked s t l) (htail : ∀ p, tp.tail = some p → p ∈ l)
    (x : Option (Page M)) : Relinked s (setLink t tp x) l := by
  unfold setLink
  cases hp : tp.tail with
  | none => exact h
  | some p =>
    dsimp only
    refine ⟨fun q => ?_, fun q hq => ?_, h.mem⟩
    · by_cases hqp : q = p
      · rw [hqp, Phys.setInfo_self]
        exact h.ref p
      · rw [Phys.setInfo_ne t hqp]
        exact h.ref q
    · have hqp : q ≠ p := by
        rintro rfl
        exact hq (htail q hp)
      rw [Phys.setInfo_ne t hqp]
      exact h.other q hq

end Links

/-- The pages seen so far are in the two lists, in their order, and the rest of the list is as
it was. -/
structure Split (s₀ : Phys M) (s : Rewiring M) (seen : List (Page M)) (pp : Option (Page M))
    (rest : List (Page M)) : Prop where
  low : s.low.Holds s.phys.links (seen.filter isLow)
  high : s.high.Holds s.phys.links (seen.filter fun p => !isLow p)
  ahead : Chain s.phys.links pp rest
  nodup : (seen ++ rest).Nodup
  relinked : Relinked s₀ s.phys seen

section Sweep

variable {s₀ : Phys M} {s : Rewiring M} {seen rest : List (Page M)} {pp : Page M}

theorem Relinked.push {t : Phys M} (h : Relinked s₀ t seen)
    {p : Page M → Bool} (htp : tp.Holds t.links (seen.filter p)) (pp : Page M) :
    Relinked s₀ (setLink t tp (some pp)) (seen ++ [pp]) := by
  refine Relinked.store ⟨h.ref, fun q hq => h.other q ?_, h.mem⟩ (fun q hq => ?_) _
  · exact fun hseen => hq (mem_append_left _ hseen)
  · have hmem := mem_of_getLast? (htp.tail.symm.trans hq)
    exact mem_append_left _ (mem_of_mem_filter hmem)

/-- What a store through a pointer to the link of a page that was seen leaves as it was. -/
theorem Split.keeps (h : Split s₀ s seen (some pp) (pp :: rest))
    {p : Page M → Bool} (htp : tp.Holds s.phys.links (seen.filter p)) :
    (setLink s.phys tp (some pp)).links pp = s.phys.links pp ∧
      Chain (setLink s.phys tp (some pp)).links (s.phys.links pp) rest := by
  have hunseen (q : Page M) (hq : q ∈ pp :: rest) : q ∉ seen.filter p := fun hmem =>
    (nodup_append.mp h.nodup).2.2 q (mem_of_mem_filter hmem) q hq rfl
  rw [links_setLink]
  refine ⟨htp.links_eq (hunseen pp mem_cons_self) _, h.ahead.of_cons.2.congr fun q hq => ?_⟩
  exact htp.links_eq (hunseen q (mem_cons_of_mem pp hq)) _

theorem Split.step (h : Split s₀ s seen (some pp) (pp :: rest)) :
    Split s₀ (visit s pp) (seen ++ [pp]) ((visit s pp).phys.links pp) rest := by
  have hnodup : (seen ++ [pp] ++ rest).Nodup := by
    rw [← append_cons]
    exact h.nodup
  have hpp (p : Page M → Bool) : pp ∉ seen.filter p := fun hmem =>
    (nodup_append.mp h.nodup).2.2 pp (mem_of_mem_filter hmem) pp mem_cons_self rfl
  unfold visit
  cases hlow : isLow pp with
  | true =>
    obtain ⟨hlink, hrest⟩ := h.keeps h.low
    rw [if_pos rfl]
    refine ⟨?_, ?_, by rw [hlink]; exact hrest, hnodup, h.relinked.push h.low pp⟩
    · rw [filter_append, filter_cons_of_pos hlow, filter_nil, links_setLink]
      exact h.low.push (hpp _)
    · rw [filter_append, filter_cons_of_neg (by rw [hlow]; decide), filter_nil,
        append_nil, links_setLink]
      refine h.high.congr fun q hq => h.low.links_eq (fun hmem => ?_) _
      rw [mem_filter] at hq hmem
      rw [hmem.2] at hq
      cases hq.2
  | false =>
    obtain ⟨hlink, hrest⟩ := h.keeps h.high
    rw [if_neg (by decide)]
    refine ⟨?_, ?_, by rw [hlink]; exact hrest, hnodup, h.relinked.push h.high pp⟩
    · rw [filter_append, filter_cons_of_neg (by rw [hlow]; decide), filter_nil,
        append_nil, links_setLink]
      refine h.low.congr fun q hq => h.high.links_eq (fun hmem => ?_) _
      rw [mem_filter] at hq hmem
      rw [hq.2] at hmem
      cases hmem.2
    · rw [filter_append, filter_cons_of_pos (by rw [hlow]; rfl), filter_nil,
        links_setLink]
      exact h.high.push (hpp _)

theorem Split.run {head : Option (Page M)} {n : ℕ} (h : Split s₀ s seen head rest)
    (hn : rest.length ≤ n) : ∃ r, sweep n head s = some r ∧ Split s₀ r (seen ++ rest) none [] := by
  induction rest generalizing n s seen head with
  | nil =>
    obtain rfl := h.ahead.of_nil
    refine ⟨s, by cases n <;> rfl, ?_⟩
    rw [append_nil]
    exact h
  | cons pp rest ih =>
    obtain ⟨rfl, _⟩ := h.ahead.of_cons
    obtain ⟨n, rfl⟩ : ∃ m, n = m + 1 := Nat.exists_eq_succ_of_ne_zero (by
      rw [length_cons] at hn
      omega)
    rw [append_cons, sweep]
    exact ih h.step (Nat.le_of_lt_succ hn)

end Sweep

/-- The first part of the function, on a list that is not empty. -/
theorem returns_moveLowFirst {s : Phys M} {l : List (Page M)} (h : Chain s.links s.freeList l)
    (hl : l ≠ []) (pp1 pp2 : Option (Page M)) :
    Returns (moveLowFirst pp1 pp2) s fun _ t =>
      Chain t.links t.freeList (l.filter isLow ++ l.filter fun p => !isLow p) ∧
      (l.filter isLow ++ l.filter fun p => !isLow p).Perm l ∧
      (l.filter isLow ++ l.filter fun p => !isLow p).Nodup ∧ Relinked s t l := by
  have hhead : s.freeList ≠ none := by
    intro hnone
    rw [hnone] at h
    cases h
    exact hl rfl
  have hlength : l.length ≤ M.npages := by
    have hle := h.nodup.length_le_card
    rw [Fintype.card_fin] at hle
    exact hle
  have hstart : Split s ⟨s, ⟨pp1, none⟩, ⟨pp2, none⟩⟩ [] s.freeList l :=
    ⟨Queue.holds_empty _ _, Queue.holds_empty _ _, h, h.nodup, fun _ => rfl, fun _ _ => rfl, rfl⟩
  obtain ⟨r, hsweep, hsplit⟩ := hstart.run hlength
  rw [nil_append] at hsplit
  unfold moveLowFirst
  rw [returns_get_bind, if_neg hhead, hsweep]
  rw [returns_set]
  -- the pages above the limit end their list, and the others are linked to them
  have hhigh : Chain (setLink r.phys r.high none).links (r.high.put none).first
      (l.filter fun p => !isLow p) := by
    rw [links_setLink]
    exact hsplit.high.chain
  have hdisj (p : Page M) (hp : p ∈ l.filter isLow) : p ∉ l.filter fun p => !isLow p := by
    intro hp'
    rw [mem_filter] at hp hp'
    rw [hp.2] at hp'
    cases hp'.2
  have hlow : r.low.Holds (setLink r.phys r.high none).links (l.filter isLow) := by
    refine hsplit.low.congr fun p hp => ?_
    rw [links_setLink]
    exact hsplit.high.links_eq (hdisj p hp) _
  have hchain := hlow.close hhigh hdisj
  rw [← links_setLink] at hchain
  have hkept (tp : Queue (Page M)) {f : Page M → Bool} {next : Page M → Option (Page M)}
      (htp : tp.Holds next (l.filter f)) (p : Page M) (hp : tp.tail = some p) : p ∈ l :=
    mem_of_mem_filter (mem_of_getLast? (htp.tail.symm.trans hp))
  have hrelinked := (hsplit.relinked.store (hkept r.high hsplit.high) none).store
    (hkept r.low hlow) (r.high.put none).first
  exact ⟨hchain, filter_append_perm isLow l, hchain.nodup,
    ⟨hrelinked.ref, hrelinked.other, hrelinked.mem⟩⟩

/-- The free list is reordered: for every free list, however long, and whatever is in pp1 and
pp2, the rewiring leaves the pages below the limit in their old order followed by the others in
their old order, and changes nothing but the links of these pages. An empty free list is a
panic before it. -/
theorem free_list_reordered {s : Phys M} {l : List (Page M)} (h : Chain s.links s.freeList l)
    (pp1 pp2 : Option (Page M)) :
    (l = [] → (moveLowFirst pp1 pp2).run s = .error "'page_free_list' is a null pointer!" s) ∧
    (l ≠ [] → Returns (moveLowFirst pp1 pp2) s fun _ t =>
      Chain t.links t.freeList (l.filter isLow ++ l.filter fun p => !isLow p) ∧
      (l.filter isLow ++ l.filter fun p => !isLow p).Perm l ∧
      (l.filter isLow ++ l.filter fun p => !isLow p).Nodup ∧ Relinked s t l) := by
  refine ⟨fun hl => ?_, fun hl => returns_moveLowFirst h hl pp1 pp2⟩
  subst hl
  unfold moveLowFirst
  rw [EStateM.run_bind]
  change (ite (s.freeList = none) _ _ : PmapM M Unit).run s = _
  rw [if_pos h.of_nil]
  rfl

abbrev fourMegabytes : MemSize := ⟨1025, by decide, by decide⟩

def threeFree : Phys fourMegabytes where
  pages p := ⟨if p.val = 1024 then some ⟨1, by decide⟩
    else if p.val = 1 then some ⟨2, by decide⟩ else none, 0⟩
  freeList := some ⟨1024, by decide⟩
  mem _ _ := 0
  trace := []

/-- Page 1024 is moved behind the other two. -/
theorem free_list_reordered_three :
    ∃ t, (moveLowFirst (some ⟨7, by decide⟩) none).run threeFree = .ok () t ∧
      Chain t.links t.freeList [⟨1, by decide⟩, ⟨2, by decide⟩, ⟨1024, by decide⟩] := by
  have hchain : Chain threeFree.links threeFree.freeList
      [⟨1024, by decide⟩, ⟨1, by decide⟩, ⟨2, by decide⟩] :=
    Chain.cons (Chain.cons (Chain.cons Chain.nil))
  obtain ⟨_, t, hrun, hsplit, _⟩ :=
    (free_list_reordered hchain (some ⟨7, by decide⟩) none).2 (cons_ne_nil _ _)
  exact ⟨t, hrun, hsplit⟩

end KernelLabs.FreeListOrder

import KernelLabs.PageArray

/-!
The free list that page_init leaves on a machine of at most 256 MB. The loop runs over the
pages from page 1 upwards and links each usable page in front, so the list holds the usable
pages with the last one first. For a page in use the loop writes to page zero and leaves the
page's own structure as it was. It is the loop over the array of its pages.
-/
namespace KernelLabs.PageInit

open LinkedChain PageWords PhysPages List

variable {M : MemSize}

/-- One turn of the loop of page_init. For a page in use it writes to page zero. -/
def initPage (nextfreepg : ℕ) (s : Phys M) (i : Page M) : Phys M :=
  if IOPHYSMEM / PGSIZE ≤ i.val ∧ i.val ≤ EXTPHYSMEM / PGSIZE then
    s.setInfo ⟨0, M.pos⟩ ⟨none, 1⟩
  else if EXTPHYSMEM / PGSIZE < i.val ∧ i.val ≤ nextfreepg then
    s.setInfo ⟨0, M.pos⟩ ⟨none, 1⟩
  else { s.setInfo i ⟨s.freeList, 0⟩ with freeList := some i }

def pageInit (nextfreepg : ℕ) (s : Phys M) : Phys M :=
  (finRange M.npages).tail.foldl (initPage nextfreepg)
    (Phys.setInfo { s with freeList := none } ⟨0, M.pos⟩ ⟨none, 1⟩)

def Usable (nextfreepg : ℕ) (i : Page M) : Prop :=
  ¬ (IOPHYSMEM / PGSIZE ≤ i.val ∧ i.val ≤ EXTPHYSMEM / PGSIZE) ∧
    ¬ (EXTPHYSMEM / PGSIZE < i.val ∧ i.val ≤ nextfreepg)

instance (nextfreepg : ℕ) (i : Page M) : Decidable (Usable nextfreepg i) := by
  unfold Usable
  infer_instance

/-- The free list is the chain `l` and its pages have no references. -/
structure FreeChain (s : Phys M) (l : List (Page M)) : Prop where
  chain : Chain s.links s.freeList l
  ref : ∀ p ∈ l, (s.pages p).ref = 0

def initialFree (M : MemSize) (nextfreepg : ℕ) : List (Page M) :=
  ((finRange M.npages).tail.filter fun i => Usable nextfreepg i).reverse

/-! ### The array of the pages -/

def infoOf (x : PageInfo M) : PageArray.Info := ⟨x.link.map Fin.val, x.ref⟩

theorem infoOf_injective : Function.Injective (infoOf : PageInfo M → PageArray.Info) := by
  rintro ⟨link, ref⟩ ⟨link', ref'⟩ h
  obtain ⟨hlink, href⟩ := PageArray.Info.mk.inj h
  exact congrArg₂ PageInfo.mk (Option.map_injective Fin.val_injective hlink) href

def ofPhys (s : Phys M) : PageArray.Pages where
  info i := if h : i < M.npages then infoOf (s.pages ⟨i, h⟩) else ⟨none, 0⟩
  freeList := s.freeList.map Fin.val

theorem ofPhys_info (s : Phys M) (p : Page M) : (ofPhys s).info p.val = infoOf (s.pages p) :=
  dif_pos p.isLt

theorem ofPhys_setInfo (s : Phys M) (p : Page M) (x : PageInfo M) :
    ofPhys (s.setInfo p x) = (ofPhys s).setInfo p.val (infoOf x) := by
  refine congrArg (PageArray.Pages.mk · (s.freeList.map Fin.val)) (funext fun i => ?_)
  by_cases hip : i = p.val
  · rw [hip, Function.update_self]
    exact (ofPhys_info _ p).trans (congrArg infoOf (s.setInfo_self p x))
  · rw [Function.update_of_ne hip]
    refine dite_congr rfl (fun hi => ?_) fun _ => rfl
    rw [s.setInfo_ne fun heq => hip (congrArg Fin.val heq)]

theorem ofPhys_initPage (nextfreepg : ℕ) (s : Phys M) (i : Page M) :
    ofPhys (initPage nextfreepg s i) = PageArray.initPage nextfreepg (ofPhys s) i.val := by
  unfold initPage PageArray.initPage
  split
  · exact ofPhys_setInfo s _ _
  · split
    · exact ofPhys_setInfo s _ _
    · have hset := ofPhys_setInfo s i ⟨s.freeList, 0⟩
      exact congrArg (fun a : PageArray.Pages => PageArray.Pages.mk a.info (some i.val)) hset

theorem map_val_tail : (finRange M.npages).tail.map Fin.val = range' 1 (M.npages - 1) := by
  rw [map_tail, map_coe_finRange_eq_range, range_eq_range', tail_range']

/-- The loop over the pages of a machine is the loop over the array. -/
theorem ofPhys_pageInit (nextfreepg : ℕ) (s : Phys M) :
    ofPhys (pageInit nextfreepg s) = PageArray.pageInit M.npages nextfreepg (ofPhys s) := by
  rw [pageInit, PageArray.pageInit, ← map_val_tail, foldl_map]
  have hstart := ofPhys_setInfo { s with freeList := none } ⟨0, M.pos⟩ ⟨none, 1⟩
  refine Eq.trans ?_ (congrArg (fun a => foldl _ a _) hstart)
  exact (foldl_hom ofPhys fun t i => (ofPhys_initPage nextfreepg t i).symm).symm

theorem map_val_initialFree (nextfreepg : ℕ) :
    (initialFree M nextfreepg).map Fin.val = PageArray.freePages M.npages nextfreepg := by
  rw [initialFree, PageArray.freePages, ← map_val_tail, map_reverse, filter_map]
  rfl

/-! ### The free list and the other pages -/

theorem freeChain_pageInit (nextfreepg : ℕ) (s : Phys M) :
    FreeChain (pageInit nextfreepg s) (initialFree M nextfreepg) := by
  have harray := ofPhys_pageInit nextfreepg s
  constructor
  · have hchain := PageArray.chain_pageInit M.npages nextfreepg (ofPhys s)
    rw [← harray, ← map_val_initialFree] at hchain
    exact Chain.of_map Fin.val_injective (fun p => congrArg PageArray.Info.link (ofPhys_info _ p))
      hchain
  · intro p hp
    have href := PageArray.ref_pageInit M.npages nextfreepg (ofPhys s) (i := p.val) <| by
      rw [← map_val_initialFree]
      exact mem_map_of_mem hp
    rwa [← harray, ofPhys_info] at href

theorem zero_notMem_initialFree (nextfreepg : ℕ) : ⟨0, M.pos⟩ ∉ initialFree M nextfreepg := by
  intro h
  have hzero := mem_map_of_mem (f := Fin.val) h
  rw [map_val_initialFree, PageArray.mem_freePages] at hzero
  exact absurd hzero.1.1 (Nat.not_succ_le_zero 0)

/-- A page that is not put on the free list keeps its structure, except for page zero. -/
theorem pageInit_pages (nextfreepg : ℕ) (s : Phys M) {p : Page M}
    (hp : p ∉ initialFree M nextfreepg) :
    (pageInit nextfreepg s).pages p = if p = ⟨0, M.pos⟩ then ⟨none, 1⟩ else s.pages p := by
  have hfree : ¬ (PageArray.pageInit M.npages nextfreepg (ofPhys s)).Free p.val := by
    rwa [PageArray.free_pageInit_iff, ← PageArray.mem_freePages, ← map_val_initialFree,
      mem_map_of_injective Fin.val_injective]
  have hinfo := PageArray.info_pageInit M.npages nextfreepg (ofPhys s) hfree
  rw [← ofPhys_pageInit, ofPhys_info, ofPhys_info] at hinfo
  refine infoOf_injective (hinfo.trans ?_)
  by_cases hzero : p = ⟨0, M.pos⟩
  · rw [if_pos hzero, if_pos (congrArg Fin.val hzero)]
    rfl
  · rw [if_neg hzero, if_neg fun hval => hzero (Fin.ext hval)]

/-- The loop touches neither the memory nor the trace. -/
theorem pageInit_keeps (nextfreepg : ℕ) (s : Phys M) :
    (pageInit nextfreepg s).mem = s.mem ∧ (pageInit nextfreepg s).trace = s.trace := by
  have hloop : ∀ (is : List (Page M)) (t : Phys M),
      (is.foldl (initPage nextfreepg) t).mem = t.mem ∧
        (is.foldl (initPage nextfreepg) t).trace = t.trace := by
    intro is
    induction is with
    | nil => exact fun t => ⟨rfl, rfl⟩
    | cons i is ih =>
      intro t
      have hturn : (initPage nextfreepg t i).mem = t.mem ∧
          (initPage nextfreepg t i).trace = t.trace := by
        unfold initPage
        split
        · exact ⟨rfl, rfl⟩
        · split <;> exact ⟨rfl, rfl⟩
      rw [foldl_cons, ← hturn.1, ← hturn.2]
      exact ih _
  exact hloop _ _

end KernelLabs.PageInit

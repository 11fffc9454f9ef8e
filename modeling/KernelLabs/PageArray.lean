import KernelLabs.KernelWords
import KernelLabs.PhysPages

/-!
page_init on an array of pages of any size. The comment in page_init says which pages are
free: those of the base memory except page zero, and those behind the memory that
boot_alloc gave out. The loop does not look at npages_basemem, it takes the first page
behind that memory for a page in use, and it marks page zero where it means to mark the
page at hand. The result is the documented one only where none of this shows.
-/
namespace KernelLabs

namespace PageInit

def IOPHYSMEM : ℕ := 0x0A0000

def EXTPHYSMEM : ℕ := 0x100000

end PageInit

namespace PageArray

open LinkedChain PageWords PhysPages KernelWords PageInit Function List

structure Info where
  link : Option ℕ
  ref : BitVec 16
  deriving DecidableEq

/-- The array `pages` and the list that runs through it. -/
structure Pages where
  info : ℕ → Info
  freeList : Option ℕ

namespace Pages

def setInfo (a : Pages) (i : ℕ) (x : Info) : Pages := { a with info := update a.info i x }

def links (a : Pages) (i : ℕ) : Option ℕ := (a.info i).link

def Free (a : Pages) (i : ℕ) : Prop := OnList a.links a.freeList i

theorem setInfo_self (a : Pages) (i : ℕ) (x : Info) : (a.setInfo i x).info i = x :=
  update_self _ _ _

theorem setInfo_ne (a : Pages) {i j : ℕ} (h : j ≠ i) (x : Info) : (a.setInfo i x).info j = a.info j :=
  update_of_ne h _ _

end Pages

def initPage (nextfreepg : ℕ) (a : Pages) (i : ℕ) : Pages :=
  if IOPHYSMEM / PGSIZE ≤ i ∧ i ≤ EXTPHYSMEM / PGSIZE then
    a.setInfo 0 ⟨none, 1⟩
  else if EXTPHYSMEM / PGSIZE < i ∧ i ≤ nextfreepg then
    a.setInfo 0 ⟨none, 1⟩
  else { a.setInfo i ⟨a.freeList, 0⟩ with freeList := some i }

def pageInit (npages nextfreepg : ℕ) (a : Pages) : Pages :=
  (range' 1 (npages - 1)).foldl (initPage nextfreepg)
    (Pages.setInfo { a with freeList := none } 0 ⟨none, 1⟩)

def Taken (nextfreepg : ℕ) (i : ℕ) : Prop :=
  ¬ (IOPHYSMEM / PGSIZE ≤ i ∧ i ≤ EXTPHYSMEM / PGSIZE) ∧ ¬ (EXTPHYSMEM / PGSIZE < i ∧ i ≤ nextfreepg)

instance (nextfreepg i : ℕ) : Decidable (Taken nextfreepg i) :=
  inferInstanceAs (Decidable (_ ∧ _))

section Loop

variable {nextfreepg i j : ℕ} {a : Pages}

theorem initPage_taken (h : Taken nextfreepg i) :
    initPage nextfreepg a i = { a.setInfo i ⟨a.freeList, 0⟩ with freeList := some i } := by
  rw [initPage, if_neg h.1, if_neg h.2]

theorem initPage_used (h : ¬ Taken nextfreepg i) :
    initPage nextfreepg a i = a.setInfo 0 ⟨none, 1⟩ := by
  unfold initPage
  split
  · rfl
  · rename_i hhole
    exact if_pos (by_contra fun hused => h ⟨hhole, hused⟩)

theorem initPage_links_taken (a : Pages) (h : Taken nextfreepg i) :
    (initPage nextfreepg a i).links = update a.links i a.freeList ∧
      (initPage nextfreepg a i).freeList = some i := by
  rw [initPage_taken h]
  refine ⟨?_, rfl⟩
  funext j
  by_cases hji : j = i
  · subst hji
    simp [Pages.links, Pages.setInfo]
  · simp [Pages.links, Pages.setInfo, hji]

theorem initPage_links_used (a : Pages) (h : ¬ Taken nextfreepg i) :
    (∀ j, j ≠ 0 → (initPage nextfreepg a i).links j = a.links j) ∧
      (initPage nextfreepg a i).freeList = a.freeList := by
  rw [initPage_used h]
  exact ⟨fun j hj => congrArg Info.link (a.setInfo_ne hj _), rfl⟩

/-- What the loop leaves in the structure of a page that it does not put on the list. -/
theorem foldl_initPage_info (is : List ℕ) (hj : ∀ i ∈ is, Taken nextfreepg i → i ≠ j)
    (hzero : j = 0 → a.info j = ⟨none, 1⟩) :
    (is.foldl (initPage nextfreepg) a).info j = a.info j := by
  induction is generalizing a with
  | nil => rfl
  | cons i is ih =>
    have hturn : (initPage nextfreepg a i).info j = a.info j := by
      by_cases hi : Taken nextfreepg i
      · rw [initPage_taken hi]
        exact a.setInfo_ne (hj i mem_cons_self hi).symm _
      · rw [initPage_used hi]
        by_cases hj0 : j = 0
        · rw [hzero hj0, hj0, a.setInfo_self]
        · exact a.setInfo_ne hj0 _
    rw [foldl_cons, ih (fun k hk => hj k (mem_cons_of_mem i hk)), hturn]
    rw [hturn]
    exact hzero

/-- A page that the loop put on the free list has no references. -/
theorem foldl_initPage_ref (hj : j ≠ 0) (is : List ℕ)
    (h : (a.info j).ref = 0 ∨ j ∈ is ∧ Taken nextfreepg j) :
    ((is.foldl (initPage nextfreepg) a).info j).ref = 0 := by
  induction is generalizing a with
  | nil => exact h.resolve_right fun hin => absurd hin.1 not_mem_nil
  | cons i is ih =>
    refine ih ?_
    by_cases hi : Taken nextfreepg i
    · rw [initPage_taken hi]
      by_cases hji : j = i
      · subst hji
        exact .inl (congrArg Info.ref (a.setInfo_self j _))
      · refine h.imp (fun href => ?_) fun hin => ⟨(mem_cons.mp hin.1).resolve_left hji, hin.2⟩
        exact (congrArg Info.ref (a.setInfo_ne hji _)).trans href
    · rw [initPage_used hi, a.setInfo_ne hj]
      refine h.imp_right fun hin => ⟨(mem_cons.mp hin.1).resolve_left ?_, hin.2⟩
      rintro rfl
      exact hi hin.2

end Loop

section Result

variable (npages nextfreepg : ℕ) (a : Pages)

def freePages : List ℕ := ((range' 1 (npages - 1)).filter fun i => Taken nextfreepg i).reverse

theorem mem_freePages {i : ℕ} :
    i ∈ freePages npages nextfreepg ↔ (1 ≤ i ∧ i < npages) ∧ Taken nextfreepg i := by
  rw [freePages, mem_reverse, mem_filter, mem_range'_1, decide_eq_true_iff]
  refine and_congr_left fun _ => ?_
  omega

theorem chain_pageInit :
    Chain (pageInit npages nextfreepg a).links (pageInit npages nextfreepg a).freeList
      (freePages npages nextfreepg) := by
  have hzero : 0 ∉ range' 1 (npages - 1) := by
    rw [mem_range'_1]
    omega
  have hchain := Chain.foldl_push Pages.links Pages.freeList (initPage nextfreepg)
    (fun a _ h => initPage_links_taken a h) (fun a _ h => initPage_links_used a h)
    (range' 1 (npages - 1)) (s := Pages.setInfo { a with freeList := none } 0 ⟨none, 1⟩)
    Chain.nil ⟨hzero, not_mem_nil⟩ nodup_range' fun _ _ => not_mem_nil
  rwa [append_nil] at hchain

theorem free_pageInit_iff (i : ℕ) :
    (pageInit npages nextfreepg a).Free i ↔ (1 ≤ i ∧ i < npages) ∧ Taken nextfreepg i := by
  rw [← mem_freePages]
  exact ((chain_pageInit npages nextfreepg a).mem_iff i).symm

/-- Except for page zero, a page that is not on the list has its structure from before. -/
theorem info_pageInit {i : ℕ} (hi : ¬ (pageInit npages nextfreepg a).Free i) :
    (pageInit npages nextfreepg a).info i = if i = 0 then ⟨none, 1⟩ else a.info i := by
  rw [free_pageInit_iff] at hi
  rw [pageInit, foldl_initPage_info]
  · split
    · rename_i h0
      rw [h0, Pages.setInfo_self]
    · rename_i h0
      exact Pages.setInfo_ne _ h0 _
  · rintro k hk htaken rfl
    rw [mem_range'_1] at hk
    exact hi ⟨by omega, htaken⟩
  · rintro rfl
    rw [Pages.setInfo_self]

theorem ref_pageInit {i : ℕ} (hi : i ∈ freePages npages nextfreepg) :
    ((pageInit npages nextfreepg a).info i).ref = 0 := by
  rw [freePages, mem_reverse, mem_filter, decide_eq_true_iff] at hi
  refine foldl_initPage_ref ?_ _ (.inr hi)
  rintro rfl
  exact absurd (mem_range'_1.mp hi.1).1 (by decide)

end Result

/-- The first page that boot_alloc did not give out, from the result of boot_alloc(0). -/
def nextfreepg (r : Word) : ℕ := ((r - KERNBASE) / pgsize).toNat

/-- The free list that the comment in page_init describes, and the mark of every other
page. -/
structure Documented (npages npagesBasemem next : ℕ) (a : Pages) : Prop where
  free_iff : ∀ i < npages, a.Free i ↔ 1 ≤ i ∧ i < npagesBasemem ∨ next ≤ i
  once : ∃ l, Chain a.links a.freeList l ∧ l.Nodup
  marked : ∀ i < npages, ¬ a.Free i → (a.info i).ref ≠ 0

theorem le_nextfreepg {r : Word} (hr : KERNBASE + BitVec.ofNat 32 EXTPHYSMEM ≤ r) :
    EXTPHYSMEM / PGSIZE ≤ nextfreepg r := by
  have hlow : 0xF0100000 ≤ r.toNat := hr
  have hkern : KERNBASE ≤ r := by
    rw [BitVec.le_def, KERNBASE_toNat]
    omega
  rw [nextfreepg, BitVec.toNat_udiv, sub_KERNBASE_toNat hkern]
  change 256 ≤ (r.toNat - 0xF0000000) / 4096
  omega

/-- page_init does what its comment says exactly when the memory ends before the page that
boot_alloc(0) returns, the base memory has no pages below the hole for devices that it
lacks, and the array was marked before for every page from the hole on. -/
theorem page_init_documented_iff {npages npagesBasemem : ℕ} {r : Word}
    (hbase : npagesBasemem ≤ IOPHYSMEM / PGSIZE)
    (hr : KERNBASE + BitVec.ofNat 32 EXTPHYSMEM ≤ r) (a : Pages) :
    Documented npages npagesBasemem (nextfreepg r) (pageInit npages (nextfreepg r) a) ↔
      npages ≤ nextfreepg r ∧
        (npagesBasemem = IOPHYSMEM / PGSIZE ∨ npages ≤ max 1 npagesBasemem) ∧
        ∀ i, IOPHYSMEM / PGSIZE ≤ i → i < npages → (a.info i).ref ≠ 0 := by
  have hnext : 256 ≤ nextfreepg r := le_nextfreepg hr
  have hbase : npagesBasemem ≤ 160 := hbase
  have hfree : ∀ i, (pageInit npages (nextfreepg r) a).Free i ↔
      (1 ≤ i ∧ i < npages) ∧ ¬ (160 ≤ i ∧ i ≤ 256) ∧ ¬ (256 < i ∧ i ≤ nextfreepg r) :=
    free_pageInit_iff npages (nextfreepg r) a
  change _ ↔ _ ∧ (npagesBasemem = 160 ∨ _) ∧ ∀ i, 160 ≤ i → _
  constructor
  · intro h
    have hlast : npages ≤ nextfreepg r := by
      by_contra hlt
      have hlisted := (h.free_iff (nextfreepg r) (by omega)).mpr (.inr le_rfl)
      rw [hfree] at hlisted
      omega
    refine ⟨hlast, ?_, fun i hlow hlt => ?_⟩
    · by_contra hshort
      have hlisted := (hfree (max 1 npagesBasemem)).mpr (by omega)
      have := (h.free_iff _ (by omega)).mp hlisted
      omega
    · have hnot : ¬ (pageInit npages (nextfreepg r) a).Free i := by
        rw [hfree]
        omega
      have hmark := h.marked i hlt hnot
      rwa [info_pageInit _ _ _ hnot, if_neg (by omega)] at hmark
  · rintro ⟨hlast, hlow, hmarks⟩
    refine ⟨fun i hi => ?_, ?_, fun i hi hnot => ?_⟩
    · rw [hfree]
      omega
    · have hchain := chain_pageInit npages (nextfreepg r) a
      exact ⟨_, hchain, hchain.nodup⟩
    · rw [info_pageInit _ _ _ hnot]
      split
      · exact fun hone => absurd hone (by decide)
      · refine hmarks i ?_ hi
        rw [hfree] at hnot
        omega

def clear : Pages := ⟨fun _ => ⟨none, 0⟩, none⟩

/-- A machine with nothing but 640 KB of base memory. -/
theorem page_init_documented_base : Documented 160 160 257 (pageInit 160 257 clear) :=
  (page_init_documented_iff (r := 0xF0101000) (by decide) (by decide) clear).mpr
    ⟨by decide, .inl rfl, fun i hlow hlt => absurd hlt (not_lt.mpr hlow)⟩

/-- With 2 MB of memory, of which 512 KB are base memory, and boot_alloc(0) at the end of
a kernel with one page: the first free page behind the kernel is not on the list, a page
of the base memory's gap is, and a page of the kernel is not marked. -/
theorem page_init_differs :
    ¬ (pageInit 512 257 clear).Free 257 ∧ (pageInit 512 257 clear).Free 130 ∧
      ¬ (pageInit 512 257 clear).Free 256 ∧ ((pageInit 512 257 clear).info 256).ref = 0 ∧
      ¬ Documented 512 128 (nextfreepg 0xF0101000) (pageInit 512 (nextfreepg 0xF0101000) clear) := by
  have hkernel : ¬ (pageInit 512 257 clear).Free 256 := by
    rw [free_pageInit_iff]
    decide
  have hnext : ¬ (pageInit 512 257 clear).Free 257 := by
    rw [free_pageInit_iff]
    decide
  refine ⟨hnext, ?_, hkernel, ?_, fun h => ?_⟩
  · rw [free_pageInit_iff]
    decide
  · rw [info_pageInit _ _ _ hkernel]
    rfl
  · exact hnext ((h.free_iff 257 (by decide)).mpr (.inr (by decide)))

end PageArray

end KernelLabs

import KernelLabs.PageCalls
import KernelLabs.PageInit
import KernelLabs.Runs

/-!
The runs of the page allocator and the page tables from page_init on. The callers
keep the rules that the comments in pmap.c set: page_free gets a page that was
obtained and has no references, page_insert gets a page that was obtained and is no
table, with permissions in the low twelve bits. Every state of such a run keeps the
accounts, as long as no page is mapped so often that its 16-bit counter wraps.
-/
namespace KernelLabs.PageAccounting

open Runs LinkedChain PageWords PhysPages PageInit PageDir PageRefinement PageTables PageAccounts
  PageCalls

variable {M : MemSize}

/-- The memory when page_init is called: the page directory lies in the memory that
boot_alloc gave out behind the kernel and maps nothing below UTOP, and no page was
obtained yet. -/
structure Boot (M : MemSize) where
  state : Phys M
  pgdir : Page M
  nextfreepg : ℕ
  dir_used : EXTPHYSMEM / PGSIZE < pgdir.val ∧ pgdir.val ≤ nextfreepg
  dir_empty : ∀ v : Vpn, ¬ Present (state.mem pgdir v.dir)
  none_owned : state.trace = []

def Boot.start (b : Boot M) : Phys M := pageInit b.nextfreepg b.state

inductive Call (M : MemSize)
  | pageAlloc (allocFlags : ℤ)
  | pageFree (pp : Page M)
  | pageInsert (pp : Page M) (va perm : Word)
  | pageRemove (va : Word)
  | pgdirWalk (va : Word) (create : Bool)

/-- What the comments in pmap.c ask of the caller. -/
def Call.Enabled (pgdir : Page M) (s : Phys M) : Call M → Prop
  | .pageAlloc _ => True
  | .pageFree pp => s.Owned pp ∧ (s.pages pp).ref = 0
  | .pageInsert pp va perm =>
      s.Owned pp ∧ ¬ IsTable s pgdir pp ∧ va.toNat < UTOP ∧ perm.toNat < 4096
  | .pageRemove va => va.toNat < UTOP
  | .pgdirWalk va _ => va.toNat < UTOP

instance (pgdir : Page M) (s : Phys M) (c : Call M) : Decidable (c.Enabled pgdir s) := by
  cases c <;> unfold Call.Enabled <;> infer_instance

def after {α : Type} : EStateM.Result String (Phys M) α → Option (Phys M)
  | .ok _ t => some t
  | .error _ _ => none

def Call.next (pgdir : Page M) (s : Phys M) : Call M → Option (Phys M)
  | .pageAlloc allocFlags => after ((PhysPages.pageAlloc allocFlags).run s)
  | .pageFree pp => after ((PhysPages.pageFree pp).run s)
  | .pageInsert pp va perm => after ((PageDir.pageInsert pgdir pp va perm).run s)
  | .pageRemove va => after ((PageDir.pageRemove pgdir va).run s)
  | .pgdirWalk va create => after ((PageDir.pgdirWalk pgdir va create).run s)

def machine (pgdir : Page M) : Machine (Phys M) (Call M) (Call M) where
  step s c := if c.Enabled pgdir s then c.next pgdir s else none
  emit _ c := [c]

theorem machine_step {pgdir : Page M} {s t : Phys M} {c : Call M} :
    (machine pgdir).step s c = some t ↔ c.Enabled pgdir s ∧ c.next pgdir s = some t :=
  Option.ite_none_right_eq_some

/-- The call leaves no page mapped at 65536 or more addresses. -/
def StaysSparse (pgdir : Page M) (s : Phys M) (c : Call M) : Prop :=
  ∀ t, c.next pgdir s = some t → Sparse t pgdir

theorem Boot.tableOf_eq_none (b : Boot M) (v : Vpn) : tableOf b.start b.pgdir v.dir = none := by
  have hmem := (pageInit_keeps b.nextfreepg b.state).1
  rw [Boot.start, tableOf, hmem, decode_of_not_present (b.dir_empty v)]
  rfl

theorem Boot.not_owned (b : Boot M) (p : Page M) : ¬ b.start.Owned p := by
  rw [Boot.start, Phys.Owned, (pageInit_keeps b.nextfreepg b.state).2, b.none_owned]
  exact id

theorem Boot.accounts (b : Boot M) : Accounts b.start b.pgdir (initialFree M b.nextfreepg) 0 := by
  have hfree := freeChain_pageInit b.nextfreepg b.state
  have htable : ∀ (v : Vpn) t, tableOf b.start b.pgdir v.dir ≠ some t := fun v t ht => by
    rw [b.tableOf_eq_none v] at ht
    cases ht
  have htarget : ∀ v p, target b.start b.pgdir v ≠ some p := fun v p hp => by
    rw [(unmapped_of_no_tables b.tableOf_eq_none).1 v] at hp
    cases hp
  refine
    { tables := ⟨fun v hp => ?_, fun v t ht => absurd ht (htable v t), fun v => htable v _,
        fun v _ t ht => absurd ht (htable v t), fun v p hp => absurd hp (htarget v p)⟩
      chain := hfree.chain
      free_ref := hfree.ref
      dir_not_free := fun hmem => ?_
      dir_not_owned := b.not_owned _
      owned_not_free := fun p hp => absurd hp (b.not_owned p)
      owned_link := fun p hp => absurd hp (b.not_owned p)
      table_owned := fun p ⟨v, hv⟩ => absurd hv (htable v p)
      mapped_owned := fun v p hp => absurd hp (htarget v p)
      owned_ref := fun p hp => absurd hp (b.not_owned p) }
  · rw [Boot.start, (pageInit_keeps b.nextfreepg b.state).1] at hp
    exact absurd hp (b.dir_empty v)
  · have husable : Usable b.nextfreepg b.pgdir := by
      rw [initialFree, List.mem_reverse, List.mem_filter] at hmem
      exact of_decide_eq_true hmem.2
    exact husable.2 b.dir_used

theorem Boot.sparse (b : Boot M) : Sparse b.start b.pgdir := fun p => by
  have hzero := (unmapped_of_no_tables b.tableOf_eq_none).2.2 p
  omega

/-- The first page_alloc after page_init returns the head of the free list. -/
theorem Boot.exists_alloc (b : Boot M) {q : Page M} {l : List (Page M)}
    (hq : initialFree M b.nextfreepg = q :: l) :
    ∃ s, (machine b.pgdir).Run (StaysSparse b.pgdir) b.start [.pageAlloc 0] s ∧
      Accounts s b.pgdir l 0 ∧ s.Owned q ∧ ∀ v : Vpn, tableOf s b.pgdir v.dir = none := by
  have h := b.accounts
  rw [hq] at h
  obtain ⟨hfree, ht⟩ := h.taken rfl
  have hnext : (Call.pageAlloc 0).next b.pgdir b.start = some (b.start.taken q) :=
    congrArg after (run_pageAlloc_some hfree 0)
  have hguard : StaysSparse b.pgdir b.start (.pageAlloc 0) := fun t hstep => by
    rw [hnext] at hstep
    cases hstep
    exact b.sparse
  exact ⟨_, Machine.Run.snoc (Call.pageAlloc 0) Machine.Run.nil hguard (machine_step.mpr ⟨trivial, hnext⟩),
    ht, Or.inl rfl, b.tableOf_eq_none⟩

theorem accounts_next {s : Phys M} {pgdir : Page M} {l : List (Page M)}
    (h : Accounts s pgdir l 0) (hs : Sparse s pgdir) {c : Call M} (hc : c.Enabled pgdir s) :
    ∃ t l', c.next pgdir s = some t ∧ Accounts t pgdir l' 0 ∧ Conserves s t l l' := by
  cases c with
  | pageAlloc allocFlags =>
    obtain ⟨r, t, l', hrun, ht⟩ := accounts_alloc h allocFlags
    exact ⟨t, l', congrArg after hrun, ht⟩
  | pageFree pp =>
    obtain ⟨t, hrun, ht⟩ := accounts_free h hs hc.1 hc.2
    exact ⟨t, pp :: l, congrArg after hrun, ht⟩
  | pageInsert pp va perm =>
    obtain ⟨hpp, htable, hva, hperm⟩ := hc
    obtain ⟨r, t, l', hrun, ht⟩ := accounts_insert h hs hva hpp htable hperm
    exact ⟨t, l', congrArg after hrun, ht⟩
  | pageRemove va =>
    obtain ⟨t, l', hrun, ht, -, hconserves⟩ := accounts_remove h hc hs
    exact ⟨t, l', congrArg after hrun, ht, hconserves⟩
  | pgdirWalk va create =>
    obtain ⟨r, t, l', hrun, ht⟩ := accounts_walk h hc create
    exact ⟨t, l', congrArg after hrun, ht⟩

theorem accounts_of_run (b : Boot M) {log : List (Call M)} {s : Phys M}
    (hrun : (machine b.pgdir).Run (StaysSparse b.pgdir) b.start log s) :
    (∃ l, Accounts s b.pgdir l 0 ∧ Conserves b.start s (initialFree M b.nextfreepg) l) ∧
      Sparse s b.pgdir := by
  refine Machine.Run.invariant
    (P := fun _ s => (∃ l, Accounts s b.pgdir l 0 ∧
      Conserves b.start s (initialFree M b.nextfreepg) l) ∧ Sparse s b.pgdir)
    ⟨⟨_, b.accounts, Conserves.refl _ _⟩, b.sparse⟩ ?_ hrun
  rintro log s c t ⟨⟨l, h, hconserves⟩, hs⟩ hguard hstep
  obtain ⟨hc, hnext⟩ := machine_step.mp hstep
  obtain ⟨t', l', hnext', ht, hkept⟩ := accounts_next h hs hc
  rw [hnext] at hnext'
  obtain rfl := Option.some.inj hnext'
  exact ⟨⟨l', ht, hconserves.trans hkept⟩, hguard t hnext⟩

/-- In every state of a run the free list ends and repeats no page, the counter of
every page that was obtained and not freed is the number of entries that map it, plus
one for a page table, and a page on the free list is not mapped, is no page table and
has no references. And every call that the rules admit returns. -/
theorem page_accounting (b : Boot M) {log : List (Call M)} {s : Phys M}
    (hrun : (machine b.pgdir).Run (StaysSparse b.pgdir) b.start log s) :
    (∃ l, Chain s.links s.freeList l ∧ l.Nodup) ∧
    (∀ p, s.Owned p → (s.pages p).ref.toNat =
      mappings s b.pgdir p + if IsTable s b.pgdir p then 1 else 0) ∧
    (∀ p, s.Free p → (∀ v, target s b.pgdir v ≠ some p) ∧ ¬ IsTable s b.pgdir p ∧
      (s.pages p).ref = 0) ∧
    ∀ c : Call M, c.Enabled b.pgdir s → (c.next b.pgdir s).isSome := by
  obtain ⟨⟨l, h, -⟩, hs⟩ := accounts_of_run b hrun
  refine ⟨⟨l, h.chain, h.chain.nodup⟩, fun p hp => h.ref_eq hs hp, fun p hp => ?_, fun c hc => ?_⟩
  · have hmem := (h.mem_iff_free p).mpr hp
    have hnew : ¬ s.Owned p := fun howned => h.owned_not_free p howned hmem
    exact ⟨h.not_mapped hnew, h.not_isTable hnew, h.free_ref p hmem⟩
  · obtain ⟨t, -, hnext, -⟩ := accounts_next h hs hc
    rw [hnext]
    rfl

/-- A machine with 259 pages, of which the kernel uses pages 256 and 257. -/
abbrev smallMem : MemSize := ⟨259, by decide, by decide⟩

def smallBoot : Boot smallMem where
  state := ⟨fun _ => ⟨none, 0⟩, none, fun _ _ => 0, []⟩
  pgdir := 257
  nextfreepg := 257
  dir_used := by decide
  dir_empty := fun _ => show ¬ Present 0 by decide
  none_owned := rfl

theorem initialFree_smallBoot :
    initialFree smallMem smallBoot.nextfreepg = 258 :: (initialFree smallMem 257).tail := by
  decide +kernel

theorem initialFree_smallBoot_tail :
    (initialFree smallMem 257).tail = 159 :: (initialFree smallMem 257).tail.tail := by
  decide +kernel

/-- Page 258 is obtained and mapped at address zero. -/
theorem page_accounting_smallBoot : ∃ log s,
    (machine smallBoot.pgdir).Run (StaysSparse smallBoot.pgdir) smallBoot.start log s ∧
      s.Owned 258 ∧ mappings s smallBoot.pgdir 258 = 1 ∧ (s.pages 258).ref.toNat = 1 := by
  obtain ⟨s, hrun, h, howned, htable⟩ := smallBoot.exists_alloc initialFree_smallBoot
  obtain ⟨htarget, hnot, hzero⟩ := unmapped_of_no_tables htable
  rw [initialFree_smallBoot_tail] at h
  have hva : (0 : Word).toNat < UTOP := by decide
  have hperm : (6 : Word).toNat < 2 ^ 12 := by decide
  obtain ⟨t, hinsert, ht, -⟩ := accounts_insert_absent h hva howned (hnot 258) hperm (htable _)
  have hupdate := mappings_update (target_insert h hva hperm hinsert)
  have hnext : (Call.pageInsert 258 0 6).next smallBoot.pgdir s = some t := congrArg after hinsert
  have hguard : StaysSparse smallBoot.pgdir s (.pageInsert 258 0 6) := fun t' hstep p => by
    rw [hnext] at hstep
    cases hstep
    have hp := hupdate p
    rw [hzero p] at hp
    split at hp <;> split at hp <;> omega
  have hrun' := Machine.Run.snoc (Call.pageInsert 258 0 6) hrun hguard
    (machine_step.mpr ⟨⟨howned, hnot 258, hva, hperm⟩, hnext⟩)
  have hone : mappings t smallBoot.pgdir 258 = 1 := by
    simpa [htarget, hzero] using hupdate 258
  have htarget' : target t smallBoot.pgdir (Vpn.ofAddr 0 hva) = some 258 := by
    rw [target_insert h hva hperm hinsert, Function.update_self]
  have hresult := (page_accounting smallBoot hrun').2.1 258 (ht.mapped_owned _ _ htarget')
  rw [if_neg (ht.tables.not_table _ _ htarget'), hone] at hresult
  exact ⟨_, t, hrun', ht.mapped_owned _ _ htarget', hone, hresult⟩

end KernelLabs.PageAccounting

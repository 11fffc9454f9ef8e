import KernelLabs.KernelWords
import KernelLabs.Runs

/-!
boot_alloc, which hands out the memory behind the kernel before there is a page
allocator. Its static variable is the address of the next free page, and zero before the
first call. The request is added to that address in 32 bits, so a request that carries the
sum past the end of the address space passes the test of the limit. As long as no sum is
carried past it, the regions that were handed out lie between `end` and the limit, one
after the other, and the next free page is the first one behind all of them.
-/
namespace KernelLabs.BootAlloc

open Runs PageWords KernelWords BitVec

def ROUNDDOWN (a n : Word) : Word := a - a % n

def ROUNDUP (a n : Word) : Word := ROUNDDOWN (a + n - 1) n

/-- The address up to which entry_pgdir maps the memory, KERNBASE and 4 MB. -/
def bootLimit : Word := 0xF0400000

def nextPage (endAddr nextfree : Word) : Word :=
  if nextfree = 0 then ROUNDUP endAddr pgsize else nextfree

/-- boot_alloc with the linker's symbol `end` and the value of the static variable. It
returns the address and the new value. -/
def bootAlloc (endAddr nextfree n : Word) : Except String (Word × Word) := do
  let nextfree := nextPage endAddr nextfree
  if n = 0 then
    return (nextfree, nextfree)
  else if bootLimit ≤ nextfree then
    throw "boot_alloc: out of memory"
  else if bootLimit < nextfree + n then
    throw "boot_alloc: out of memory"
  else
    return (nextfree, ROUNDUP (nextfree + n) pgsize)

theorem ROUNDUP_toNat {a : Word} (h : a.toNat + 4095 < 2 ^ 32) :
    (ROUNDUP a pgsize).toNat = (a.toNat + 4095) / 4096 * 4096 := by
  have hsum : (a + pgsize - 1).toNat = a.toNat + 4095 := by
    rw [toNat_sub, toNat_add]
    change (2 ^ 32 - 1 + (a.toNat + 4096) % 2 ^ 32) % 2 ^ 32 = _
    omega
  have hmod : ((a + pgsize - 1) % pgsize).toNat = (a.toNat + 4095) % 4096 := by
    rw [toNat_umod, hsum]
    rfl
  rw [ROUNDUP, ROUNDDOWN, toNat_sub, hmod, hsum]
  omega

section Calls

variable {endAddr nextfree n : Word}

theorem bootAlloc_zero : bootAlloc endAddr nextfree 0 =
    .ok (nextPage endAddr nextfree, nextPage endAddr nextfree) := rfl

theorem bootAlloc_exhausted (hn : n ≠ 0) (h : bootLimit ≤ nextPage endAddr nextfree) :
    bootAlloc endAddr nextfree n = .error "boot_alloc: out of memory" := by
  simp only [bootAlloc, if_neg hn, if_pos h]
  rfl

theorem bootAlloc_over (hn : n ≠ 0) (h : bootLimit < nextPage endAddr nextfree + n) :
    bootAlloc endAddr nextfree n = .error "boot_alloc: out of memory" := by
  simp only [bootAlloc, if_neg hn, if_pos h]
  split <;> rfl

theorem bootAlloc_ok (hn : n ≠ 0) (h : ¬ bootLimit ≤ nextPage endAddr nextfree)
    (hsum : ¬ bootLimit < nextPage endAddr nextfree + n) :
    bootAlloc endAddr nextfree n =
      .ok (nextPage endAddr nextfree, ROUNDUP (nextPage endAddr nextfree + n) pgsize) := by
  simp only [bootAlloc, if_neg hn, if_neg h, if_neg hsum]
  rfl

end Calls

def machine (endAddr : Word) : Machine Word Word (Word × Word) where
  step nextfree n :=
    match bootAlloc endAddr nextfree n with
    | .ok (_, nextfree) => some nextfree
    | .error _ => none
  emit nextfree n :=
    match bootAlloc endAddr nextfree n with
    | .ok (r, _) => [(n, r)]
    | .error _ => []

def NoWrap (endAddr nextfree n : Word) : Prop :=
  (nextPage endAddr nextfree).toNat + n.toNat < 2 ^ 32

instance (endAddr nextfree n : Word) : Decidable (NoWrap endAddr nextfree n) :=
  inferInstanceAs (Decidable (_ < _))

def Behind (endAddr : Word) (log : List (Word × Word)) (a : ℕ) : Prop :=
  endAddr.toNat ≤ a ∧ ∀ c ∈ log, c.1 ≠ 0 → c.2.toNat + c.1.toNat ≤ a

/-- What is asked of a call after those in the log: a request for memory panics or gets a
region at the start of a page, between `end` and the limit and disjoint from the others; a
request for nothing gets the first page behind all regions and changes nothing. -/
def CallOk (endAddr : Word) (log : List (Word × Word)) (nextfree n : Word) : Prop :=
  match bootAlloc endAddr nextfree n with
  | .error _ => n ≠ 0
  | .ok (r, nextfree') =>
    Aligned r ∧
      if n = 0 then
        Behind endAddr log r.toNat ∧ (∀ a, a % 4096 = 0 → Behind endAddr log a → r.toNat ≤ a) ∧
          ∀ m, bootAlloc endAddr nextfree' m = bootAlloc endAddr nextfree m
      else
        endAddr.toNat ≤ r.toNat ∧ r.toNat + n.toNat ≤ bootLimit.toNat ∧
          ∀ c ∈ log, c.1 ≠ 0 → c.2.toNat + c.1.toNat ≤ r.toNat ∨ r.toNat + n.toNat ≤ c.2.toNat

structure Next (endAddr : Word) (log : List (Word × Word)) (nextfree : Word) : Prop where
  aligned : Aligned (nextPage endAddr nextfree)
  limit : (nextPage endAddr nextfree).toNat ≤ bootLimit.toNat
  behind : Behind endAddr log (nextPage endAddr nextfree).toNat
  first : ∀ a, a % 4096 = 0 → Behind endAddr log a → (nextPage endAddr nextfree).toNat ≤ a

section Runs

variable {endAddr nextfree n : Word} {log : List (Word × Word)}

theorem behind_cons {c : Word × Word} {a : ℕ} :
    Behind endAddr (c :: log) a ↔
      (c.1 ≠ 0 → c.2.toNat + c.1.toNat ≤ a) ∧ Behind endAddr log a := by
  simp only [Behind, List.forall_mem_cons]
  tauto

theorem nextPage_of_ne_zero (h : nextfree ≠ 0) : nextPage endAddr nextfree = nextfree := if_neg h

/-- Before the first call the next free page is the first one behind the kernel. -/
theorem Next.start (hhigh : endAddr < bootLimit) : Next endAddr [] 0 := by
  have hhigh : endAddr.toNat < 0xF0400000 := hhigh
  have hnext : (nextPage endAddr 0).toNat = (endAddr.toNat + 4095) / 4096 * 4096 :=
    ROUNDUP_toNat (by omega)
  refine ⟨?_, ?_, ⟨?_, ?_⟩, ?_⟩
  · rw [aligned_iff, hnext]
    omega
  · rw [hnext]
    change _ ≤ 0xF0400000
    omega
  · rw [hnext]
    omega
  · exact fun c hc => absurd hc List.not_mem_nil
  · intro a ha hbehind
    have := hbehind.1
    rw [hnext]
    omega

section Step

variable (hlow : KERNBASE ≤ endAddr) (h : Next endAddr log nextfree)

include hlow h

/-- The address of the next free page is not taken for a variable that was never set. -/
theorem Next.nextPage_nextPage :
    nextPage endAddr (nextPage endAddr nextfree) = nextPage endAddr nextfree := by
  refine nextPage_of_ne_zero fun hzero => ?_
  have hle := h.behind.1
  have hlow : 0xF0000000 ≤ endAddr.toNat := hlow
  rw [hzero] at hle
  change _ ≤ 0 at hle
  omega

theorem Next.zero : Next endAddr ((0, nextPage endAddr nextfree) :: log) (nextPage endAddr nextfree) := by
  have hbehind : ∀ a, Behind endAddr ((0, nextPage endAddr nextfree) :: log) a ↔ Behind endAddr log a :=
    fun a => behind_cons.trans (and_iff_right fun hne => absurd rfl hne)
  refine ⟨?_, ?_, ?_, fun a ha hb => ?_⟩ <;> rw [h.nextPage_nextPage hlow]
  · exact h.aligned
  · exact h.limit
  · exact (hbehind _).mpr h.behind
  · exact h.first a ha ((hbehind a).mp hb)

theorem Next.alloc (hlimit : (nextPage endAddr nextfree).toNat + n.toNat ≤ bootLimit.toNat)
    (hn : n ≠ 0) : Next endAddr ((n, nextPage endAddr nextfree) :: log)
      (ROUNDUP (nextPage endAddr nextfree + n) pgsize) := by
  have hlimit : (nextPage endAddr nextfree).toNat + n.toNat ≤ 0xF0400000 := hlimit
  have hlow : 0xF0000000 ≤ endAddr.toNat := hlow
  have hend := h.behind.1
  have hpage := aligned_iff.mp h.aligned
  have hsum : (nextPage endAddr nextfree + n).toNat = (nextPage endAddr nextfree).toNat + n.toNat := by
    rw [toNat_add]
    omega
  have hround : (ROUNDUP (nextPage endAddr nextfree + n) pgsize).toNat =
      ((nextPage endAddr nextfree).toNat + n.toNat + 4095) / 4096 * 4096 := by
    rw [ROUNDUP_toNat (by omega), hsum]
  have hne : ROUNDUP (nextPage endAddr nextfree + n) pgsize ≠ 0 := by
    intro hzero
    rw [hzero] at hround
    change 0 = _ at hround
    omega
  refine ⟨?_, ?_, behind_cons.mpr ⟨fun _ => ?_, ?_, fun c hc hc' => ?_⟩, fun a ha hb => ?_⟩ <;>
    rw [nextPage_of_ne_zero hne]
  · rw [aligned_iff, hround]
    omega
  · rw [hround]
    change _ ≤ 0xF0400000
    omega
  · rw [hround]
    change (nextPage endAddr nextfree).toNat + n.toNat ≤ _
    omega
  · omega
  · have := h.behind.2 c hc hc'
    omega
  · have := (behind_cons.mp hb).1 hn
    change (nextPage endAddr nextfree).toNat + n.toNat ≤ a at this
    omega

end Step

/-- The sum of the test as long as it is not carried past the end of the address space. -/
theorem not_over_iff (hwrap : NoWrap endAddr nextfree n) :
    ¬ bootLimit < nextPage endAddr nextfree + n ↔
      (nextPage endAddr nextfree).toNat + n.toNat ≤ bootLimit.toNat := by
  have hsum : (nextPage endAddr nextfree + n).toNat = (nextPage endAddr nextfree).toNat + n.toNat := by
    rw [toNat_add]
    exact Nat.mod_eq_of_lt hwrap
  rw [BitVec.not_lt, le_def, hsum]

theorem next_of_run (hlow : KERNBASE ≤ endAddr) (hhigh : endAddr < bootLimit)
    (hrun : (machine endAddr).Run (NoWrap endAddr) 0 log nextfree) : Next endAddr log nextfree := by
  refine Machine.Run.invariant (P := Next endAddr) (Next.start hhigh) ?_ hrun
  intro log s n t h hwrap hstep
  by_cases hn : n = 0
  · subst hn
    cases hstep
    exact h.zero hlow
  · by_cases hfull : bootLimit ≤ nextPage endAddr s
    · simp only [machine, bootAlloc_exhausted hn hfull] at hstep
      cases hstep
    · by_cases hover : bootLimit < nextPage endAddr s + n
      · simp only [machine, bootAlloc_over hn hover] at hstep
        cases hstep
      · simp only [machine, bootAlloc_ok hn hfull hover] at hstep ⊢
        obtain rfl := Option.some.inj hstep
        exact h.alloc hlow ((not_over_iff hwrap).mp hover) hn

/-- In every run whose earlier calls did not carry the sum past the end of the address
space, a call keeps its promise unless it does so itself while there is memory left. -/
theorem boot_alloc_disjoint (hlow : KERNBASE ≤ endAddr) (hhigh : endAddr < bootLimit)
    (hrun : (machine endAddr).Run (NoWrap endAddr) 0 log nextfree) (n : Word) :
    CallOk endAddr log nextfree n ↔
      bootLimit ≤ nextPage endAddr nextfree ∨ NoWrap endAddr nextfree n := by
  have h := next_of_run hlow hhigh hrun
  have hfirst : bootLimit.toNat = 0xF0400000 := rfl
  by_cases hn : n = 0
  · subst hn
    have hwrap : NoWrap endAddr nextfree 0 := (nextPage endAddr nextfree).isLt
    refine iff_of_true ?_ (.inr hwrap)
    simp only [CallOk, bootAlloc_zero, if_true]
    refine ⟨h.aligned, h.behind, h.first, fun m => ?_⟩
    simp only [bootAlloc, h.nextPage_nextPage hlow]
  · by_cases hfull : bootLimit ≤ nextPage endAddr nextfree
    · simp only [CallOk, bootAlloc_exhausted hn hfull]
      exact iff_of_true hn (.inl hfull)
    · have hroom : (nextPage endAddr nextfree).toNat < bootLimit.toNat := BitVec.not_le.mp hfull
      by_cases hwrap : NoWrap endAddr nextfree n
      · refine iff_of_true ?_ (.inr hwrap)
        by_cases hover : bootLimit < nextPage endAddr nextfree + n
        · simp only [CallOk, bootAlloc_over hn hover]
          exact hn
        · simp only [CallOk, bootAlloc_ok hn hfull hover, if_neg hn]
          refine ⟨h.aligned, h.behind.1, (not_over_iff hwrap).mp hover, fun c hc hc' => ?_⟩
          exact .inl (h.behind.2 c hc hc')
      · -- the sum wraps to an address below the next free page and passes the test
        refine iff_of_false (fun hok => ?_) (not_or.mpr ⟨hfull, hwrap⟩)
        have hpast := not_lt.mp hwrap
        have hlt := n.isLt
        have hsum : (nextPage endAddr nextfree + n).toNat =
            (nextPage endAddr nextfree).toNat + n.toNat - 2 ^ 32 := by
          rw [toNat_add]
          omega
        have hover : ¬ bootLimit < nextPage endAddr nextfree + n := by
          rw [BitVec.not_lt, le_def, hsum]
          omega
        simp only [CallOk, bootAlloc_ok hn hfull hover, if_neg hn] at hok
        have := hok.2.2.1
        omega

/-- The calls of mem_init on a machine with 64 MB, and a third one. -/
theorem boot_alloc_disjoint_mem_init : ∃ log nextfree,
    (machine 0xF0114000).Run (NoWrap 0xF0114000) 0 log nextfree ∧
      log = [(0x20000, 0xF0115000), (0x1000, 0xF0114000)] ∧
      CallOk 0xF0114000 log nextfree 0x5000 := by
  obtain ⟨log, nextfree, hrun, hlog, hnext⟩ := Machine.exists_run_of_exec (machine 0xF0114000)
    (NoWrap 0xF0114000) 0 [0x1000, 0x20000]
    (fun log nextfree => log = [(0x20000, 0xF0115000), (0x1000, 0xF0114000)] ∧
      nextfree = 0xF0135000) (by decide +kernel)
  refine ⟨log, nextfree, hrun, hlog, ?_⟩
  refine (boot_alloc_disjoint (by decide) (by decide) hrun 0x5000).mpr (.inr ?_)
  rw [hnext]
  decide

/-- A request for 256 MB behind a kernel that ends at 0xF0114000 is granted at that address. -/
theorem boot_alloc_wraps :
    bootAlloc 0xF0114000 0 0x10000000 = .ok (0xF0114000, 0x114000) ∧
      ¬ CallOk 0xF0114000 [] 0 0x10000000 := by
  refine ⟨by decide, fun hok => ?_⟩
  have hbound : (0xF0114000 : Word).toNat + (0x10000000 : Word).toNat ≤ bootLimit.toNat := hok.2.2.1
  exact absurd hbound (by decide)

end Runs

end KernelLabs.BootAlloc

import KernelLabs.MemoryBytes
import KernelLabs.UserSpace

/-!
copyout, which writes to the pages of a directory that need not be the current one. It goes
from page to page; uva2ka finds the page of the kernel's memory and refuses pages that are not
present or not for the user, but it reads the entry without a test whether there is a table. A
read through the null pointer, which C leaves undefined, is an error of the model.

Bytes are those of the words of a page in little-endian order.
-/
namespace KernelLabs.UserCopy

open MachineWords PageWords MemoryBytes PanicMonad TableOwners UserPages UserTables UserCalls
  UserRelease UserGrow UserSpace Function List

def pageByte (page : Fin NPTENTRIES → Word) (k : ℕ) : BitVec 8 :=
  wordByte (page ⟨k / 4 % NPTENTRIES, Nat.mod_lt _ (by decide)⟩) (k % 4)

def poke (page : Fin NPTENTRIES → Word) (off : ℕ) (bytes : List (BitVec 8)) :
    Fin NPTENTRIES → Word := fun j =>
  ofBytes fun r =>
    if off ≤ 4 * j.val + r ∧ 4 * j.val + r < off + bytes.length then
      bytes.getD (4 * j.val + r - off) 0
    else wordByte (page j) r

def uva2ka (pgdir : Frame) (uva : ℕ) : VmM (Option Frame) := do
  match ← walkpgdir pgdir uva false with
  | none => throw "null pointer"
  | some (table, j) =>
    let pte := (← get).mem table j
    if pte &&& PTE_P = 0 then
      return none
    else if pte &&& PTE_U = 0 then
      return none
    else
      return some (PGNUM (PTE_ADDR pte))

/-- The loop of copyout; every turn copies at least one byte. -/
def copyoutFrom (pgdir : Frame) : ℕ → ℕ → List (BitVec 8) → VmM ℤ
  | 0, _, _ => throw "copyout does not end"
  | turns + 1, va, buf => do
    if 0 < buf.length then
      let va0 := PGROUNDDOWN va
      match ← uva2ka pgdir va0 with
      | none => return -1
      | some pa0 =>
        let n := min (PGSIZE - (va - va0)) buf.length
        modify fun s => s.setPage pa0 (poke (s.mem pa0) (va - va0) (buf.take n))
        copyoutFrom pgdir turns (uint32 (va0 + PGSIZE)) (buf.drop n)
    else
      return 0

def copyout (pgdir : Frame) (va : ℕ) (p : List (BitVec 8)) : VmM ℤ :=
  copyoutFrom pgdir (p.length + 1) va p

/-! ### Bytes of a page -/

theorem pageByte_poke (page : Fin NPTENTRIES → Word) (off : ℕ) (bytes : List (BitVec 8)) {k : ℕ}
    (hk : k < PGSIZE) : pageByte (poke page off bytes) k =
      if off ≤ k ∧ k < off + bytes.length then bytes.getD (k - off) 0 else pageByte page k := by
  have hindex : 4 * (k / 4 % NPTENTRIES) + k % 4 = k := by
    simp only [PGSIZE, NPTENTRIES] at *
    omega
  rw [pageByte, poke, wordByte_ofBytes _ (Nat.mod_lt _ (by decide))]
  simp only [hindex]
  rfl

/-! ### The walk -/

/-- uva2ka does not change the state, and fails where there is no table. -/
theorem run_uva2ka (s : Vm) (d a : ℕ) : (uva2ka d a).run s =
    if HasTable s.mem d a then
      .ok (if Accessible s.mem d a then some (PGNUM (pteAt s.mem d a)) else none) s
    else .error "null pointer" s := by
  by_cases htable : HasTable s.mem d a
  · have hdir : target (s.mem d (pdx a)) = some (PGNUM (s.mem d (pdx a))) :=
      target_eq_some.mpr ⟨htable, rfl⟩
    have hpte : pteAt s.mem d a = s.mem (PGNUM (s.mem d (pdx a))) (ptx a) :=
      Format.leaf_some (F := tableFormat) hdir
    have hreturns : Returns (uva2ka d a) s fun r t =>
        r = (if Accessible s.mem d a then some (PGNUM (pteAt s.mem d a)) else none) ∧ t = s := by
      rw [uva2ka]
      refine returns_bind (returns_walkpgdir_present hdir ?_)
      simp only [returns_get_bind]
      rw [← hpte]
      by_cases hp : pteAt s.mem d a &&& PTE_P = 0
      · rw [if_pos hp, returns_pure, if_neg (fun hacc => hacc.1 hp)]
        exact ⟨rfl, rfl⟩
      · rw [if_neg hp]
        by_cases hu : pteAt s.mem d a &&& PTE_U = 0
        · rw [if_pos hu, returns_pure, if_neg (fun hacc => hacc.2 hu)]
          exact ⟨rfl, rfl⟩
        · rw [if_neg hu, returns_pure, if_pos ⟨hp, hu⟩, PGNUM_PTE_ADDR]
          exact ⟨rfl, rfl⟩
    obtain ⟨r, t, hrun, rfl, rfl⟩ := hreturns
    rw [hrun, if_pos htable]
  · have hnone : target (s.mem d (pdx a)) = none := target_eq_none.mpr htable
    have hends : Halts (fun e t => e = "null pointer" ∧ t = s) (uva2ka d a) s fun _ _ => False := by
      rw [uva2ka, halts_bind_iff]
      obtain ⟨r, t, hrun, rfl, rfl⟩ := returns_walkpgdir_absent
        (Q := fun r t => r = none ∧ t = s) hnone ⟨rfl, rfl⟩
      rw [halts_iff_of_ok hrun]
      exact ⟨rfl, rfl⟩
    rw [if_neg htable]
    unfold Halts at hends
    cases hrun : (uva2ka d a).run s with
    | ok r t =>
      rw [hrun] at hends
      exact hends.elim
    | error e t =>
      rw [hrun] at hends
      obtain ⟨rfl, rfl⟩ := hends
      rfl

/-! ### What copyout may change -/

variable {L : Layout} {P : Pool L} {R : Multiset ℕ} {s t u : Vm} {d va : ℕ}
  {buf : List (BitVec 8)}

/-- Only pages for the user have been written. -/
structure Wrote (P : Pool L) (R : Multiset ℕ) (d : ℕ) (s t : Vm) : Prop where
  owned : Owned P R d t
  freelist : t.freelist = s.freelist
  deny : t.deny = s.deny
  dir : t.mem d = s.mem d
  same : ∀ a, pteAt t.mem d a = pteAt s.mem d a
  only : ∀ f, (∀ a, a < 2 ^ 32 → Accessible s.mem d a → target (pteAt s.mem d a) ≠ some f) →
    t.mem f = s.mem f

theorem Wrote.refl (h : Owned P R d s) : Wrote P R d s s :=
  ⟨h, rfl, rfl, rfl, fun _ => rfl, fun _ _ => rfl⟩

theorem Wrote.accessible (h : Wrote P R d s t) (a : ℕ) :
    Accessible t.mem d a ↔ Accessible s.mem d a := by
  rw [Accessible, Accessible, h.same]

theorem Wrote.hasTable (h : Wrote P R d s t) (a : ℕ) : HasTable t.mem d a ↔ HasTable s.mem d a := by
  rw [HasTable, HasTable, h.dir]

theorem Wrote.trans (hst : Wrote P R d s t) (htu : Wrote P R d t u) : Wrote P R d s u where
  owned := htu.owned
  freelist := htu.freelist.trans hst.freelist
  deny := htu.deny.trans hst.deny
  dir := htu.dir.trans hst.dir
  same a := (htu.same a).trans (hst.same a)
  only f hf := by
    rw [htu.only f ?_, hst.only f hf]
    intro a ha hacc
    rw [hst.same]
    exact hf a ha ((hst.accessible a).mp hacc)

theorem Wrote.space (h : Space P R d s) (hwrote : Wrote P R d s t) : Space P R d t where
  owned := hwrote.owned
  kernel b hb hkernel := (hwrote.same b).trans (h.kernel b hb hkernel)

theorem Wrote.kept (h : Space P R d s) (hwrote : Wrote P R d s t) {f : ℕ} (hf : f ∈ R) :
    t.mem f = s.mem f := by
  refine hwrote.only f ?_
  intro a ha hacc hframe
  exact not_mem_rest h.owned (Format.pages_subset_footprint (h.mem_pages ha hacc hframe)) hf

theorem wrote_setPage (h : Space P R d s) {a f : ℕ} (ha : a < 2 ^ 32) (hacc : Accessible s.mem d a)
    (hf : target (pteAt s.mem d a) = some f) (words : Fin NPTENTRIES → Word) :
    Wrote P R d s (s.setPage f words) := by
  have hpage := h.mem_pages ha hacc hf
  obtain ⟨hdir, htables⟩ := Format.update_page (footprint_nodup h.owned) hpage words
  refine ⟨h.owned.congr rfl ?_, rfl, rfl, hdir, ?_, ?_⟩
  · exact congrArg (· + R) (Format.footprint_congr_tables hdir htables)
  · intro b
    exact Format.leaf_congr_tables hdir htables _ _
  · intro g hg
    refine update_of_ne ?_ _ _
    rintro rfl
    exact hg a ha hacc hf

/-- The bytes of `buf` are at the addresses from `va` on, and no other byte has changed. -/
structure Written (d va : ℕ) (buf : List (BitVec 8)) (s t : Vm) : Prop where
  new : ∀ i f, i < buf.length → target (pteAt s.mem d (uint32 (va + i))) = some f →
    buf[i]? = some (pageByte (t.mem f) ((va + i) % PGSIZE))
  old : ∀ f k, k < PGSIZE →
    (∀ i, i < buf.length → target (pteAt s.mem d (uint32 (va + i))) = some f →
      (va + i) % PGSIZE ≠ k) → pageByte (t.mem f) k = pageByte (s.mem f) k

def Fault (d va : ℕ) (buf : List (BitVec 8)) (s : Vm) : Prop :=
  ∃ i < buf.length, (∀ j < i, Accessible s.mem d (uint32 (va + j))) ∧
    ¬HasTable s.mem d (uint32 (va + i))

/-- The first page that is refused. -/
def Refused (d va : ℕ) (buf : List (BitVec 8)) (s : Vm) : Prop :=
  ∃ i < buf.length, (∀ j < i, Accessible s.mem d (uint32 (va + j))) ∧
    HasTable s.mem d (uint32 (va + i)) ∧ ¬Accessible s.mem d (uint32 (va + i))

structure Done (P : Pool L) (R : Multiset ℕ) (d va : ℕ) (buf : List (BitVec 8)) (s : Vm) (r : ℤ)
    (t : Vm) : Prop where
  wrote : Wrote P R d s t
  result : (r = 0 ∧ (∀ i < buf.length, Accessible s.mem d (uint32 (va + i))) ∧ Written d va buf s t) ∨
    (r = -1 ∧ Refused d va buf s)

/-! ### One turn -/

section Turn

variable {n i : ℕ}

theorem addr_chunk (hva : va < 2 ^ 32) (hi : i < PGSIZE - va % PGSIZE) :
    uint32 (va + i) = va + i ∧ (va + i) / PGSIZE = va / PGSIZE ∧
      (va + i) % PGSIZE = va % PGSIZE + i := by
  simp only [uint32, PGSIZE] at *
  omega

theorem addr_rest (va i : ℕ) :
    uint32 (uint32 (PGROUNDDOWN va + PGSIZE) + i) = uint32 (va + (PGSIZE - va % PGSIZE + i)) ∧
      (uint32 (PGROUNDDOWN va + PGSIZE) + i) % PGSIZE =
        (va + (PGSIZE - va % PGSIZE + i)) % PGSIZE := by
  simp only [uint32, PGROUNDDOWN, PGSIZE] at *
  omega

theorem accessible_chunk (hva : va < 2 ^ 32) (hi : i < PGSIZE - va % PGSIZE) :
    Accessible s.mem d (uint32 (va + i)) ↔ Accessible s.mem d va := by
  obtain ⟨haddr, hpage, -⟩ := addr_chunk hva hi
  rw [Accessible, Accessible, haddr, pteAt_page hpage]

theorem lt_drop (hn : n = min (PGSIZE - va % PGSIZE) buf.length) (hi : i < (buf.drop n).length) :
    n = PGSIZE - va % PGSIZE ∧ n + i < buf.length := by
  rw [length_drop] at hi
  omega

theorem Written.turn {f : ℕ} (h : Space P R d s) (hva : va < 2 ^ 32) (hlen : buf.length ≤ 2 ^ 32)
    (hn : n = min (PGSIZE - va % PGSIZE) buf.length) (hacc : Accessible s.mem d va)
    (hf : target (pteAt s.mem d va) = some f)
    (haccRest : ∀ i < (buf.drop n).length,
      Accessible s.mem d (uint32 (uint32 (PGROUNDDOWN va + PGSIZE) + i)))
    (hwrote : Wrote P R d s (s.setPage f (poke (s.mem f) (va % PGSIZE) (buf.take n))))
    (hrest : Written d (uint32 (PGROUNDDOWN va + PGSIZE)) (buf.drop n)
      (s.setPage f (poke (s.mem f) (va % PGSIZE) (buf.take n))) t) : Written d va buf s t := by
  have hpage : (s.setPage f (poke (s.mem f) (va % PGSIZE) (buf.take n))).mem f =
      poke (s.mem f) (va % PGSIZE) (buf.take n) := update_self _ _ _
  have htake : (buf.take n).length = n := by
    rw [length_take]
    omega
  have hoff : va % PGSIZE < PGSIZE := Nat.mod_lt _ (by decide)
  refine ⟨?_, ?_⟩
  · intro i g hi hg
    by_cases hchunk : i < n
    · obtain ⟨haddr, hsame, hmod⟩ := addr_chunk (i := i) hva (by omega)
      rw [haddr, pteAt_page hsame, hf] at hg
      obtain rfl := Option.some.inj hg
      have hk : va % PGSIZE + i < PGSIZE := by omega
      rw [hmod, hrest.old f _ hk ?_, hpage, pageByte_poke _ _ _ hk, htake, if_pos (by omega),
        Nat.add_sub_cancel_left, getD_eq_getElem?_getD, getElem?_take_of_lt hchunk,
        getElem?_eq_getElem hi]
      · rfl
      · intro j hj hframe heq
        obtain ⟨hn', hj'⟩ := lt_drop hn hj
        rw [hwrote.same] at hframe
        have hrestAddr := haccRest j hj
        obtain ⟨hnext, hnextMod⟩ := addr_rest va j
        rw [hnext] at hframe hrestAddr
        rw [hnextMod] at heq
        have heqAddr := h.address_inj (a := va + i) (b := uint32 (va + (PGSIZE - va % PGSIZE + j)))
          (by simp only [uint32] at haddr; omega) (Nat.mod_lt _ (by decide))
          (by rw [← haddr]; exact (accessible_chunk hva (by omega)).mpr hacc) hrestAddr
          (by rw [pteAt_page hsame, hf]) hframe (by
            simp only [uint32, PGSIZE] at *
            omega)
        simp only [uint32, PGSIZE] at *
        omega
    · obtain ⟨j, rfl⟩ : ∃ j, i = n + j := ⟨i - n, by omega⟩
      have hj : j < (buf.drop n).length := by
        rw [length_drop]
        omega
      obtain ⟨hn', -⟩ := lt_drop hn hj
      obtain ⟨hnext, hnextMod⟩ := addr_rest va j
      rw [hn', ← hnext] at hg
      have hnew := hrest.new j g hj (by rwa [hwrote.same])
      rw [getElem?_drop, hnextMod] at hnew
      rw [hnew, hn']
  · intro g k hk hnot
    have hrestOld := hrest.old g k hk (by
      intro j hj hframe
      obtain ⟨hn', hj'⟩ := lt_drop hn hj
      obtain ⟨hnext, hnextMod⟩ := addr_rest va j
      rw [hwrote.same, hnext, ← hn'] at hframe
      rw [hnextMod, ← hn']
      exact hnot (n + j) hj' hframe)
    rw [hrestOld]
    by_cases hgf : g = f
    · subst hgf
      rw [hpage, pageByte_poke _ _ _ hk, htake, if_neg]
      rintro ⟨hlo, hhi⟩
      obtain ⟨haddr, hsame, hmod⟩ := addr_chunk (i := k - va % PGSIZE) hva (by omega)
      refine hnot (k - va % PGSIZE) (by omega) ?_ (by omega)
      rw [haddr, pteAt_page hsame, hf]
    · exact congrArg (fun page => pageByte page k) (update_of_ne hgf _ _)

/-- An address that is reached after the first turn. -/
theorem reach_turn (hva : va < 2 ^ 32) (hn : n = min (PGSIZE - va % PGSIZE) buf.length)
    (hacc : Accessible s.mem d va) (hi : i < (buf.drop n).length)
    (hbefore : ∀ j < i, Accessible s.mem d (uint32 (uint32 (PGROUNDDOWN va + PGSIZE) + j))) :
    ∀ j < n + i, Accessible s.mem d (uint32 (va + j)) := by
  obtain ⟨hn', -⟩ := lt_drop hn hi
  intro j hj
  by_cases hchunk : j < n
  · exact (accessible_chunk hva (by omega)).mpr hacc
  · obtain ⟨k, rfl⟩ : ∃ k, j = n + k := ⟨j - n, by omega⟩
    have hk := hbefore k (by omega)
    rwa [(addr_rest va k).1, ← hn'] at hk

theorem halts_copyoutFrom (turns : ℕ) (hturns : buf.length < turns) (hva : va < 2 ^ 32)
    (hlen : buf.length ≤ 2 ^ 32) (h : Space P R d s) :
    Halts (fun e _ => e = "null pointer" ∧ Fault d va buf s) (copyoutFrom d turns va buf) s
      (Done P R d va buf s) := by
  induction turns generalizing va buf s with
  | zero => omega
  | succ turns ih =>
    rw [copyoutFrom]
    by_cases hpos : 0 < buf.length
    swap
    · rw [if_neg hpos, halts_pure]
      refine ⟨.refl h.owned, .inl ⟨rfl, fun i hi => by omega, fun i f hi => by omega, ?_⟩⟩
      intro f k _ _
      rfl
    have hzero : uint32 (va + 0) = va := Nat.mod_eq_of_lt hva
    have hround : va - PGROUNDDOWN va = va % PGSIZE := by
      simp only [PGROUNDDOWN, PGSIZE]
      omega
    have hacc0 : Accessible s.mem d (PGROUNDDOWN va) ↔ Accessible s.mem d va := by
      rw [Accessible, Accessible, pteAt_roundDown]
    rw [if_pos hpos]
    dsimp only
    rw [hround, halts_bind_iff]
    by_cases htable : HasTable s.mem d (PGROUNDDOWN va)
    swap
    · rw [halts_iff_of_error (by rw [run_uva2ka, if_neg htable])]
      refine ⟨rfl, 0, hpos, fun j hj => absurd hj (Nat.not_lt_zero j), ?_⟩
      rwa [hzero, ← hasTable_page (roundDown_div va)]
    rw [halts_iff_of_ok (by rw [run_uva2ka, if_pos htable])]
    by_cases hacc : Accessible s.mem d va
    swap
    · rw [if_neg (fun hacc' => hacc (hacc0.mp hacc')), halts_pure]
      refine ⟨.refl h.owned, .inr ⟨rfl, 0, hpos, fun j hj => absurd hj (Nat.not_lt_zero j), ?_⟩⟩
      rw [hzero]
      exact ⟨(hasTable_page (roundDown_div va)).mp htable, hacc⟩
    rw [if_pos (hacc0.mpr hacc), pteAt_roundDown]
    have hf : target (pteAt s.mem d va) = some (PGNUM (pteAt s.mem d va)) :=
      target_eq_some.mpr ⟨hacc.1, rfl⟩
    generalize PGNUM (pteAt s.mem d va) = f at hf ⊢
    obtain ⟨n, hn⟩ : ∃ n, n = min (PGSIZE - va % PGSIZE) buf.length := ⟨_, rfl⟩
    have hoff : va % PGSIZE < PGSIZE := Nat.mod_lt _ (by decide)
    rw [← hn]
    have hwrote := wrote_setPage h hva hacc hf (poke (s.mem f) (va % PGSIZE) (buf.take n))
    have hdrop : (buf.drop n).length < turns ∧ (buf.drop n).length ≤ 2 ^ 32 := by
      rw [length_drop]
      omega
    have hnext : uint32 (PGROUNDDOWN va + PGSIZE) < 2 ^ 32 := Nat.mod_lt _ (by decide)
    refine (ih hdrop.1 hnext hdrop.2 (Wrote.space h hwrote)).mono ?_ ?_
    · rintro e t ⟨rfl, i, hi, hbefore, hnone⟩
      obtain ⟨hn', hi'⟩ := lt_drop hn hi
      refine ⟨rfl, n + i, hi', ?_, ?_⟩
      · exact reach_turn hva hn hacc hi fun j hj => (hwrote.accessible _).mp (hbefore j hj)
      · rwa [hwrote.hasTable, (addr_rest va i).1, ← hn'] at hnone
    · rintro r t ⟨hwrote', hresult⟩
      refine ⟨hwrote.trans hwrote', ?_⟩
      rcases hresult with ⟨rfl, hall, hwritten⟩ | ⟨rfl, i, hi, hbefore, hyes, hno⟩
      · have haccRest : ∀ i < (buf.drop n).length,
            Accessible s.mem d (uint32 (uint32 (PGROUNDDOWN va + PGSIZE) + i)) :=
          fun i hi => (hwrote.accessible _).mp (hall i hi)
        refine .inl ⟨rfl, ?_, .turn h hva hlen hn hacc hf haccRest hwrote hwritten⟩
        intro i hi
        by_cases hchunk : i < n
        · exact (accessible_chunk hva (by omega)).mpr hacc
        · have hdrop : i - n < (buf.drop n).length := by
            rw [length_drop]
            omega
          obtain ⟨hn', -⟩ := lt_drop hn hdrop
          have hacc' := haccRest (i - n) hdrop
          rwa [(addr_rest va _).1, ← hn', Nat.add_sub_cancel' (by omega)] at hacc'
      · obtain ⟨hn', hi'⟩ := lt_drop hn hi
        refine .inr ⟨rfl, n + i, hi', ?_, ?_⟩
        · exact reach_turn hva hn hacc hi fun j hj => (hwrote.accessible _).mp (hbefore j hj)
        · rw [hwrote.hasTable, (addr_rest va i).1, ← hn'] at hyes
          rw [hwrote.accessible, (addr_rest va i).1, ← hn'] at hno
          exact ⟨hyes, hno⟩

end Turn

theorem halts_copyout (hva : va < 2 ^ 32) (hlen : buf.length ≤ 2 ^ 32) (h : Space P R d s) :
    Halts (fun e _ => e = "null pointer" ∧ Fault d va buf s) (copyout d va buf) s
      (Done P R d va buf s) :=
  halts_copyoutFrom _ (Nat.lt_succ_self _) hva hlen h

theorem ends_copyout (hva : va < 2 ^ 32) (hlen : buf.length ≤ 2 ^ 32) (h : Space P R d s) :
    Ends (fun e => e = "null pointer" ∧ Fault d va buf s) (copyout d va buf) s
      (Done P R d va buf s) :=
  (halts_copyout hva hlen h).ends fun _ _ hfault => hfault

/-- What copyout should do: 0 and exactly the bytes, if all addresses are for the user; otherwise
-1, and only pages for the user are written. -/
def Safe (d va : ℕ) (buf : List (BitVec 8)) (s : Vm) (r : ℤ) (t : Vm) : Prop :=
  (r = 0 ∧ (∀ i < buf.length, Accessible s.mem d (uint32 (va + i))) ∧ Written d va buf s t) ∨
    (r = -1 ∧ (¬∀ i < buf.length, Accessible s.mem d (uint32 (va + i))) ∧
      ∀ f, (∀ a, a < 2 ^ 32 → Accessible s.mem d a → target (pteAt s.mem d a) ≠ some f) →
        t.mem f = s.mem f)

theorem Done.safe {r : ℤ} (h : Done P R d va buf s r t) : Safe d va buf s r t := by
  rcases h.result with hzero | ⟨hr, i, hi, -, -, hno⟩
  · exact .inl hzero
  · exact .inr ⟨hr, fun hall => hno (hall i hi), h.wrote.only⟩

theorem Done.hasTable {r : ℤ} (h : Done P R d va buf s r t) {i : ℕ} (hi : i < buf.length)
    (hbefore : ∀ j < i, Accessible s.mem d (uint32 (va + j))) :
    HasTable s.mem d (uint32 (va + i)) := by
  rcases h.result with ⟨-, hall, -⟩ | ⟨-, k, hk, hbefore', hyes, hno⟩
  · exact hasTable_of_present (hall i hi).1
  · rcases lt_trichotomy i k with hlt | rfl | hgt
    · exact hasTable_of_present (hbefore' i hlt).1
    · exact hyes
    · exact absurd (hbefore k hgt) hno

/-- In the directories of processes copyout does what it should exactly if no address without a
table follows addresses that are all for the user. -/
theorem copyout_safe_iff {sz : ℕ} (hbuilt : Built P R d sz s) (hva : va < 2 ^ 32)
    (hlen : buf.length < 2 ^ 32) :
    Returns (copyout d va buf) s (Safe d va buf s) ↔
      ∀ i < buf.length, (∀ j < i, Accessible s.mem d (uint32 (va + j))) →
        HasTable s.mem d (uint32 (va + i)) := by
  have hspace := hbuilt.space.1
  constructor
  · rintro ⟨r, t, hrun, -⟩ i hi hbefore
    have hdone := (halts_iff_of_ok hrun).mp (halts_copyout hva hlen.le hspace)
    exact hdone.hasTable hi hbefore
  · intro htables
    refine ((ends_copyout hva hlen.le hspace).returns ?_).mono fun _ _ hdone => hdone.safe
    rintro - ⟨-, i, hi, hbefore, hnone⟩
    exact hnone (htables i hi hbefore)

/-! ### A directory without user pages -/

def freePages (n : ℕ) : Vm where
  mem _ _ := 0
  freelist := range' 1024 (3 + n)
  deny := []

theorem exists_built : ∃ d s, Built (UserSizes.onePagePool 1500 (by decide)) 0 d 0 s ∧
    ¬HasTable s.mem d 0 := by
  have hbalanced : Balanced (UserSizes.onePagePool 1500 (by decide)) (freePages 1500) 0 :=
    add_zero _
  have hreturns : Returns (UserPages.setupkvm UserMemory.smallKernel) (freePages 1500) fun r t =>
      ∃ d, r = some d ∧ t.mem d (pdx 0) = 0 := by
    refine returns_setupkvm hbalanced (fun t _ _ hshort => ?_) fun d t ht => ?_
    · have hcard := hshort rfl
      have hframes : (UserSizes.onePagePool 1500 (by decide)).frames.card = 1503 := length_range'
      rw [Short, hframes, Multiset.card_zero, NPTENTRIES, PGSIZE] at hcard
      omega
    · exact ⟨d, rfl, ht.entries _ rfl⟩
  obtain ⟨r, t, hrun, d, rfl, hzero⟩ := hreturns
  refine ⟨d, t, .setupkvm hbalanced hrun, ?_⟩
  rw [HasTable, hzero]
  decide

theorem copyout_safe_noPages : ∃ d s, Built (UserSizes.onePagePool 1500 (by decide)) 0 d 0 s ∧
    (Returns (copyout d 0xFE000000 [1]) s (Safe d 0xFE000000 [1] s) ↔
      ∀ i < [(1 : BitVec 8)].length, (∀ j < i, Accessible s.mem d (uint32 (0xFE000000 + j))) →
        HasTable s.mem d (uint32 (0xFE000000 + i))) := by
  obtain ⟨d, s, hbuilt, -⟩ := exists_built
  exact ⟨d, s, hbuilt, copyout_safe_iff hbuilt (by decide) (by decide)⟩

/-- One byte to address 0 of a directory without user pages. -/
theorem copyout_reads_null : ∃ d s, Built (UserSizes.onePagePool 1500 (by decide)) 0 d 0 s ∧
    ∃ t, (copyout d 0 [1]).run s = .error "null pointer" t := by
  obtain ⟨d, s, hbuilt, hnone⟩ := exists_built
  refine ⟨d, s, hbuilt, ?_⟩
  have hhalts : Halts (fun e _ => e = "null pointer" ∧ Fault d 0 [1] s) (copyout d 0 [1]) s
      (Done _ 0 d 0 [1] s) := halts_copyout (by decide) (by decide) hbuilt.space.1
  unfold Halts at hhalts
  cases hrun : (copyout d 0 [1]).run s with
  | ok r t =>
    rw [hrun] at hhalts
    have htable := hhalts.hasTable (i := 0) (by decide) fun j hj => absurd hj (Nat.not_lt_zero j)
    exact absurd htable hnone
  | error e t =>
    rw [hrun] at hhalts
    obtain ⟨rfl, -⟩ := hhalts
    exact ⟨t, rfl⟩

end KernelLabs.UserCopy

import KernelLabs.WhileLoop
import KernelLabs.PageWords

/-!
The binary search of kern/kdebug.c over a table of debugging symbols, the same in lab1 and
in lab3. Only the entries of one type take part, so a probe backs up to the entry of that
type before the middle, and an exact match continues with the address that follows. An index
fits an int, and so does the sum of two, since a table entry takes twelve bytes.
-/
namespace KernelLabs.StabSearch

open PageWords WhileLoop

structure Stab where
  nStrx : Word
  nType : BitVec 8
  nDesc : BitVec 16
  nValue : Word

def stabsOf (entries : List Stab) (i : ℤ) : Stab :=
  if i < 0 then ⟨0, 0, 0, 0⟩ else entries.getD i.toNat ⟨0, 0, 0, 0⟩

def ofType (stabs : ℤ → Stab) (type i : ℤ) : Bool :=
  ((stabs i).nType.toNat : ℤ) == type

def value (stabs : ℤ → Stab) (i : ℤ) : ℕ := (stabs i).nValue.toNat

structure Search where
  l : ℤ
  r : ℤ
  regionLeft : ℤ
  regionRight : ℤ
  anyMatches : Bool
  addr : Word

def round (stabs : ℤ → Stab) (type : ℤ) (s : Search) : Search :=
  let trueM := (s.l + s.r).tdiv 2
  let m := walkDown (ofType stabs type) s.l trueM
  if m < s.l then
    { s with l := trueM + 1 }
  else if (stabs m).nValue < s.addr then
    { s with anyMatches := true, regionLeft := m, l := trueM + 1 }
  else if (stabs m).nValue > s.addr then
    { s with anyMatches := true, regionRight := m - 1, r := m - 1 }
  else
    { s with anyMatches := true, regionLeft := m, l := m, addr := s.addr + 1 }

/-- What follows the loop: without a match the region is made empty, otherwise its left end
is moved to the last entry of the type. -/
def finish (stabs : ℤ → Stab) (type : ℤ) (s : Search) : ℤ × ℤ :=
  if s.anyMatches then
    (walkDown (ofType stabs type) (s.regionLeft + 1) s.regionRight, s.regionRight)
  else
    (s.regionLeft, s.regionLeft - 1)

def search (stabs : ℤ → Stab) (type : ℤ) (n : ℕ) (s : Search) : Search :=
  whileLoop (fun s => decide (s.l ≤ s.r)) (round stabs type) n s

def start (L R : ℤ) (addr : Word) : Search := ⟨L, R, L, R, false, addr⟩

def stabBinsearch (stabs : ℤ → Stab) (L R type : ℤ) (addr : Word) : ℤ × ℤ :=
  finish stabs type (search stabs type (2 * (R + 1 - L).toNat + 2) (start L R addr))

section Regions

variable (stabs : ℤ → Stab) (type : ℤ) (addr : Word) (L R : ℤ)

def Increasing : Prop :=
  ∀ i j, L ≤ i → i < j → j ≤ R → ofType stabs type i = true → ofType stabs type j = true →
    value stabs i < value stabs j

/-- The entry at `left` is the last one of the type that is not after `addr`. -/
structure Floor (left : ℤ) : Prop where
  low : L ≤ left
  high : left ≤ R
  here : ofType stabs type left = true
  value_le : value stabs left ≤ addr.toNat
  last : ∀ j, left < j → j ≤ R → ofType stabs type j = true → addr.toNat < value stabs j

/-- The index `right` is just before the entry of the type that follows `left`, or the end of
the range. -/
def EndsAt (left right : ℤ) : Prop :=
  (right = R ∧ ∀ j, left < j → j ≤ R → ofType stabs type j = false) ∨
    ∃ n, left < n ∧ n ≤ R ∧ ofType stabs type n = true ∧
      (∀ j, left < j → j < n → ofType stabs type j = false) ∧ right = n - 1

structure Found (left right : ℤ) : Prop extends Floor stabs type addr L R left where
  next : EndsAt stabs type R left right

/-- Some entry of the type is not after `addr`. -/
def Reached : Prop :=
  ∃ k, L ≤ k ∧ k ≤ R ∧ ofType stabs type k = true ∧ value stabs k ≤ addr.toNat

/-- What the comment above stab_binsearch promises of the region. -/
structure Brackets (region : ℤ × ℤ) : Prop where
  found : Reached stabs type addr L R → Found stabs type addr L R region.1 region.2
  missing : ¬Reached stabs type addr L R → region.2 < region.1

/-- A region that is not empty and does not start at the entry to find. -/
structure Missed (region : ℤ × ℤ) : Prop where
  le : region.1 ≤ region.2
  low : ofType stabs type L = false → L ≤ region.1
  high : region.2 ≤ R
  ne : ∀ i, Floor stabs type addr L R i → region.1 ≠ i

/-- The entry for `addr` or for the address after it that the halving of `[l, r]` meets
first. -/
def firstProbe (stabs : ℤ → Stab) (type : ℤ) (addr : Word) : ℕ → ℤ → ℤ → Option ℤ
  | 0, _, _ => none
  | n + 1, l, r =>
    if l ≤ r then
      let trueM := (l + r).tdiv 2
      let m := walkDown (ofType stabs type) l trueM
      if m < l ∨ value stabs m < addr.toNat then firstProbe stabs type addr n (trueM + 1) r
      else if value stabs m ≤ addr.toNat + 1 then some m
      else firstProbe stabs type addr n l (m - 1)
    else none

/-- Two entries of the type lie at `addr` and at the address after it, and the halving of
the range meets the first of them first. -/
structure Twins (i j : ℤ) : Prop where
  low : L ≤ i
  lt : i < j
  high : j ≤ R
  fst : ofType stabs type i = true
  snd : ofType stabs type j = true
  fst_value : value stabs i = addr.toNat
  snd_value : value stabs j = addr.toNat + 1
  first : firstProbe stabs type addr (R + 1 - L).toNat L R = some i

/-- There is an entry to find unless there is none at all, and no two entries are twins, but
for adjacent ones at the end of the address space. -/
structure Separated : Prop where
  reached : (∃ k, L ≤ k ∧ k ≤ R ∧ ofType stabs type k = true) → Reached stabs type addr L R
  apart : ∀ i j, Twins stabs type addr L R i j → addr.toNat + 2 = 2 ^ 32 ∧ j = i + 1

/-- The entries are separated, and the last address of the address space is not searched for
when there is an entry at it. -/
structure Settled : Prop extends Separated stabs type addr L R where
  top : addr.toNat = 2 ^ 32 - 1 → ∀ k, L ≤ k → k ≤ R → ofType stabs type k = true →
    value stabs k ≠ addr.toNat

end Regions

variable {stabs : ℤ → Stab} {type L R : ℤ} {addr : Word} {s s' : Search}

theorem Missed.not_brackets {region : ℤ × ℤ} (h : Missed stabs type addr L R region) :
    ¬Brackets stabs type addr L R region := by
  intro hbrackets
  by_cases hreached : Reached stabs type addr L R
  · exact h.ne _ (hbrackets.found hreached).toFloor rfl
  · have hlt := hbrackets.missing hreached
    have hle := h.le
    omega

/-! ### One round -/

inductive Halved (stabs : ℤ → Stab) (type : ℤ) (s : Search) (t : ℤ) : Search → Prop
  | skip (hnone : ∀ j, s.l ≤ j → j ≤ t → ofType stabs type j = false) :
      Halved stabs type s t { s with l := t + 1 }
  | below (m : ℤ) (hl : s.l ≤ m) (ht : m ≤ t) (htype : ofType stabs type m = true)
      (hgap : ∀ j, m < j → j ≤ t → ofType stabs type j = false)
      (hvalue : value stabs m < s.addr.toNat) :
      Halved stabs type s t { s with anyMatches := true, regionLeft := m, l := t + 1 }
  | above (m : ℤ) (hl : s.l ≤ m) (ht : m ≤ t) (htype : ofType stabs type m = true)
      (hgap : ∀ j, m < j → j ≤ t → ofType stabs type j = false)
      (hvalue : s.addr.toNat < value stabs m) :
      Halved stabs type s t { s with anyMatches := true, regionRight := m - 1, r := m - 1 }
  | hit (m : ℤ) (hl : s.l ≤ m) (ht : m ≤ t) (htype : ofType stabs type m = true)
      (hgap : ∀ j, m < j → j ≤ t → ofType stabs type j = false)
      (hvalue : value stabs m = s.addr.toNat) :
      Halved stabs type s t
        { s with anyMatches := true, regionLeft := m, l := m, addr := s.addr + 1 }

theorem middle_mem {l r : ℤ} (h : l ≤ r) : l ≤ (l + r).tdiv 2 ∧ (l + r).tdiv 2 ≤ r := by
  -- the quotient is rounded towards zero, which leaves it between the two ends
  rw [Int.tdiv_eq_ediv]
  by_cases hsum : 0 ≤ l + r ∨ 2 ∣ l + r
  · rw [if_pos hsum]
    omega
  · rw [if_neg hsum, show Int.sign 2 = 1 from rfl]
    omega

theorem round_halved (stabs : ℤ → Stab) (type : ℤ) (h : s.l ≤ s.r) :
    Halved stabs type s ((s.l + s.r).tdiv 2) (round stabs type s) := by
  have hstops := walkDown_stops (ofType stabs type) s.l ((s.l + s.r).tdiv 2)
  have hmiddle := middle_mem h
  unfold round
  dsimp only
  generalize walkDown (ofType stabs type) s.l ((s.l + s.r).tdiv 2) = m at hstops ⊢
  by_cases hlow : m < s.l
  · rw [if_pos hlow]
    apply Halved.skip
    intro j hj hjt
    exact hstops.passed j (by omega) hjt
  have hl : s.l ≤ m := by omega
  rw [if_neg hlow]
  by_cases hbelow : (stabs m).nValue < s.addr
  · rw [if_pos hbelow]
    exact Halved.below m hl hstops.le (hstops.stop hl) hstops.passed (BitVec.lt_def.mp hbelow)
  rw [if_neg hbelow]
  by_cases habove : (stabs m).nValue > s.addr
  · rw [if_pos habove]
    exact Halved.above m hl hstops.le (hstops.stop hl) hstops.passed (BitVec.lt_def.mp habove)
  rw [if_neg habove]
  have hvalue : value stabs m = s.addr.toNat := by
    rw [gt_iff_lt, BitVec.lt_def] at habove
    rw [BitVec.lt_def] at hbelow
    unfold value
    omega
  exact Halved.hit m hl hstops.le (hstops.stop hl) hstops.passed hvalue

/-- Twice the length of the range, and one more when the next round can be an exact match
that leaves the range as it is. -/
def weight (stabs : ℤ → Stab) (type : ℤ) (s : Search) : ℕ :=
  2 * (s.r + 1 - s.l).toNat +
    if ofType stabs type s.l = true ∧ value stabs s.l = s.addr.toNat then 1 else 0

theorem weight_le (stabs : ℤ → Stab) (type : ℤ) (s : Search) :
    weight stabs type s ≤ 2 * (s.r + 1 - s.l).toNat + 1 := by
  unfold weight
  split <;> omega

theorem le_weight (stabs : ℤ → Stab) (type : ℤ) (s : Search) :
    2 * (s.r + 1 - s.l).toNat ≤ weight stabs type s :=
  Nat.le_add_right _ _

theorem toNat_succ_ne (a : Word) : (a + 1).toNat ≠ a.toNat := by
  intro h
  have hself : a + 1 = a := BitVec.eq_of_toNat_eq h
  simp at hself

theorem Halved.weight_lt {t : ℤ} (hl : s.l ≤ t) (hr : t ≤ s.r)
    (h : Halved stabs type s t s') : weight stabs type s' < weight stabs type s := by
  have hle := le_weight stabs type s
  cases h with
  | skip hnone =>
    have hle' := weight_le stabs type { s with l := t + 1 }
    dsimp only at hle'
    omega
  | below m hlm ht htype hgap hvalue =>
    have hle' := weight_le stabs type
      { s with anyMatches := true, regionLeft := m, l := t + 1 }
    dsimp only at hle'
    omega
  | above m hlm ht htype hgap hvalue =>
    unfold weight
    dsimp only
    omega
  | hit m hlm ht htype hgap hvalue =>
    unfold weight
    dsimp only
    rw [if_neg (fun hm => toNat_succ_ne s.addr (hm.2.symm.trans hvalue))]
    by_cases hm : s.l = m
    · rw [hm, if_pos ⟨htype, hvalue⟩]
      omega
    · omega

/-- What every round keeps holds when the loop of stab_binsearch has come to its end. -/
theorem stabBinsearch_of_rounds (I : Search → Prop)
    (hround : ∀ s s', I s → s.l ≤ s.r → Halved stabs type s ((s.l + s.r).tdiv 2) s' → I s')
    (hstart : I (start L R addr)) :
    ∃ e, I e ∧ e.r < e.l ∧ stabBinsearch stabs L R type addr = finish stabs type e := by
  have hspec := whileLoop_spec (fun s => decide (s.l ≤ s.r)) (round stabs type) I
    (weight stabs type) ?_ (2 * (R + 1 - L).toNat + 2) (start L R addr) hstart ?_
  · obtain ⟨hI, hend⟩ := hspec
    exact ⟨_, hI, not_le.mp (of_decide_eq_false hend), rfl⟩
  · intro s hs htest
    have hle : s.l ≤ s.r := of_decide_eq_true htest
    have hhalved := round_halved stabs type hle
    obtain ⟨hl, hr⟩ := middle_mem hle
    exact ⟨hround s _ hs hle hhalved, hhalved.weight_lt hl hr⟩
  · exact Nat.lt_succ_of_le (weight_le stabs type (start L R addr))

/-! ### The halving before the first of two neighbouring addresses -/

section Probe

variable {n : ℕ} {l r m : ℤ}

theorem firstProbe_none (h : r < l) : firstProbe stabs type addr n l r = none := by
  cases n with
  | zero => rfl
  | succ n => exact if_neg (not_le.mpr h)

theorem firstProbe_skip (h : l ≤ r)
    (hnone : ∀ j, l ≤ j → j ≤ (l + r).tdiv 2 → ofType stabs type j = false) :
    firstProbe stabs type addr (n + 1) l r =
      firstProbe stabs type addr n ((l + r).tdiv 2 + 1) r := by
  rw [firstProbe, if_pos h]
  exact if_pos (Or.inl (walkDown_lt hnone))

theorem firstProbe_at (h : l ≤ r) (hl : l ≤ m) (ht : m ≤ (l + r).tdiv 2)
    (htype : ofType stabs type m = true)
    (hgap : ∀ j, m < j → j ≤ (l + r).tdiv 2 → ofType stabs type j = false) :
    firstProbe stabs type addr (n + 1) l r =
      if value stabs m < addr.toNat then
        firstProbe stabs type addr n ((l + r).tdiv 2 + 1) r
      else if value stabs m ≤ addr.toNat + 1 then some m
      else firstProbe stabs type addr n l (m - 1) := by
  rw [firstProbe, if_pos h]
  dsimp only
  rw [walkDown_eq hl ht htype hgap]
  simp only [not_lt.mpr hl, false_or]

end Probe

/-! ### The search up to a second exact match -/

/-- The entries before `l` are not after `addr`, the last of them is at the left end, and the
entry just after `r` is after `addr`. -/
structure Bracketed (stabs : ℤ → Stab) (type : ℤ) (addr : Word) (L R : ℤ) (s : Search) :
    Prop where
  low : L ≤ s.l
  high : s.r ≤ R
  right : s.regionRight = s.r
  left : (s.regionLeft = L ∧ ∀ j, L ≤ j → j < s.l → ofType stabs type j = false) ∨
    (L ≤ s.regionLeft ∧ s.regionLeft ≤ s.l ∧ s.regionLeft ≤ s.r ∧
      ofType stabs type s.regionLeft = true ∧ value stabs s.regionLeft ≤ addr.toNat ∧
      ∀ j, s.regionLeft < j → j < s.l → ofType stabs type j = false)
  next : s.r = R ∨
    (L ≤ s.r + 1 ∧ s.r + 1 ≤ R ∧ ofType stabs type (s.r + 1) = true ∧
      addr.toNat < value stabs (s.r + 1))
  unmatched : s.anyMatches = false →
    s.regionLeft = L ∧ s.r = R ∧ ∀ j, L ≤ j → j < s.l → ofType stabs type j = false
  matched : s.anyMatches = true → ∃ k, L ≤ k ∧ k ≤ R ∧ ofType stabs type k = true

theorem bracketed_start : Bracketed stabs type addr L R (start L R addr) := by
  refine ⟨le_refl L, le_refl R, rfl, Or.inl ⟨rfl, ?_⟩, Or.inl rfl, ?_, ?_⟩
  · intro j hj hjl
    change j < L at hjl
    omega
  · intro _
    refine ⟨rfl, rfl, ?_⟩
    intro j hj hjl
    change j < L at hjl
    omega
  · intro h
    change false = true at h
    contradiction

/-- A round keeps the region, but for an exact match of a key that is after `addr`. -/
theorem Bracketed.halved {t : ℤ} (h : Bracketed stabs type addr L R s)
    (hl : s.l ≤ t) (hr : t ≤ s.r)
    (hkey : addr.toNat ≤ s.addr.toNat ∧ s.addr.toNat ≤ addr.toNat + 1)
    (hhit : ∀ m, s.l ≤ m → m ≤ s.r → ofType stabs type m = true →
      value stabs m = s.addr.toNat → value stabs m ≤ addr.toNat)
    (hs : Halved stabs type s t s') : Bracketed stabs type addr L R s' := by
  obtain ⟨hlow, hhigh, hright, hleft, hnext, hunmatched, hmatched⟩ := h
  cases hs with
  | skip hnone =>
    have hskip : ∀ j, (j < s.l → ofType stabs type j = false) → j < t + 1 →
        ofType stabs type j = false := by
      intro j hnot hjt
      by_cases hjs : j < s.l
      · exact hnot hjs
      · exact hnone j (by omega) (by omega)
    refine ⟨by dsimp only; omega, hhigh, hright, ?_, hnext, fun hany => ?_, hmatched⟩
    · rcases hleft with ⟨hL, hnot⟩ | ⟨hL, hle, hler, htype, hvalue, hnot⟩
      · exact Or.inl ⟨hL, fun j hj => hskip j (hnot j hj)⟩
      · exact Or.inr ⟨hL, by dsimp only; omega, hler, htype, hvalue,
          fun j hj => hskip j (hnot j hj)⟩
    · obtain ⟨hL, hR, hnot⟩ := hunmatched hany
      exact ⟨hL, hR, fun j hj => hskip j (hnot j hj)⟩
  | below m hlm ht htype hgap hvalue =>
    refine ⟨by dsimp only; omega, hhigh, hright, Or.inr ?_, hnext, by simp, ?_⟩
    · refine ⟨by dsimp only; omega, by dsimp only; omega, by dsimp only; omega, htype,
        by dsimp only; omega, fun j hj hjl => ?_⟩
      dsimp only at hj hjl
      exact hgap j hj (by omega)
    · exact fun _ => ⟨m, by omega, by omega, htype⟩
  | above m hlm ht htype hgap hvalue =>
    refine ⟨hlow, by dsimp only; omega, rfl, ?_, Or.inr ?_, by simp, ?_⟩
    · rcases hleft with ⟨hL, hnot⟩ | ⟨hL, hle, hler, htype', hvalue', hnot⟩
      · exact Or.inl ⟨hL, hnot⟩
      · refine Or.inr ⟨hL, hle, ?_, htype', hvalue', hnot⟩
        -- the entry at the left end has a smaller value, so it is another one
        have hne : s.regionLeft ≠ m := by
          intro heq
          rw [heq] at hvalue'
          omega
        dsimp only
        omega
    · dsimp only
      rw [sub_add_cancel]
      exact ⟨by omega, by omega, htype, by omega⟩
    · exact fun _ => ⟨m, by omega, by omega, htype⟩
  | hit m hlm ht htype hgap hvalue =>
    refine ⟨by dsimp only; omega, hhigh, hright, Or.inr ?_, hnext, by simp, ?_⟩
    · refine ⟨by dsimp only; omega, le_refl m, by dsimp only; omega, htype,
        hhit m hlm (by omega) htype hvalue, fun j hj hjl => ?_⟩
      dsimp only at hj hjl
      omega
    · exact fun _ => ⟨m, by omega, by omega, htype⟩

/-- After an entry that is after `addr` all entries of the type are. -/
theorem Increasing.after {k j : ℤ} (hinc : Increasing stabs type L R) (hk : L ≤ k) (hj : j ≤ R)
    (hkj : k ≤ j) (hktype : ofType stabs type k = true) (hjtype : ofType stabs type j = true)
    (hvalue : addr.toNat < value stabs k) : addr.toNat < value stabs j := by
  by_cases heq : k = j
  · rw [← heq]
    exact hvalue
  · have hlt := hinc k j hk (by omega) hj hktype hjtype
    omega

variable (h : Bracketed stabs type addr L R s)

include h

theorem Bracketed.not_reached (hend : s.r < s.l) (hinc : Increasing stabs type L R)
    (hnot : ∀ j, L ≤ j → j < s.l → ofType stabs type j = false) : ¬Reached stabs type addr L R := by
  rintro ⟨j, hj, hjR, hjtype, hjvalue⟩
  have hjr : s.r < j := by
    by_contra hjr
    rw [hnot j hj (by omega)] at hjtype
    contradiction
  rcases h.next with hR | ⟨hlow, hR, hntype, hnvalue⟩
  · omega
  · have hafter := hinc.after hlow hjR (by omega) hntype hjtype hnvalue
    omega

/-- The last entry that is not after `addr` lies at the left end, and the loop has ended. -/
theorem Bracketed.found (hend : s.r < s.l) (hinc : Increasing stabs type L R)
    (hany : s.anyMatches = true) (hle : s.regionLeft ≤ s.r) (hL : L ≤ s.regionLeft)
    (htype : ofType stabs type s.regionLeft = true) (hvalue : value stabs s.regionLeft ≤ addr.toNat)
    (hnot : ∀ j, s.regionLeft < j → j < s.l → ofType stabs type j = false) :
    Found stabs type addr L R (finish stabs type s).1 (finish stabs type s).2 := by
  have hwalk : walkDown (ofType stabs type) (s.regionLeft + 1) s.r = s.regionLeft := by
    have hstops := walkDown_stops (ofType stabs type) (s.regionLeft + 1) s.r
    have hlow := hstops.low (by omega)
    have hhigh : walkDown (ofType stabs type) (s.regionLeft + 1) s.r < s.regionLeft + 1 :=
      walkDown_lt (fun j hj hjr => hnot j (by omega) (by omega))
    omega
  have hfinish : finish stabs type s = (s.regionLeft, s.r) := by
    rw [finish, if_pos hany, h.right, hwalk]
  rw [hfinish]
  have hhigh := h.high
  refine ⟨⟨hL, by omega, htype, hvalue, ?_⟩, ?_⟩
  · intro j hj hjR hjtype
    by_cases hjr : j ≤ s.r
    · rw [hnot j hj (by omega)] at hjtype
      contradiction
    · rcases h.next with hR | ⟨hlow, hR, hntype, hnvalue⟩
      · omega
      · exact hinc.after hlow hjR (by omega) hntype hjtype hnvalue
  · rcases h.next with hR | ⟨hlow, hR, hntype, hnvalue⟩
    · exact Or.inl ⟨hR, fun j hj hjR => hnot j hj (by omega)⟩
    · refine Or.inr ⟨s.r + 1, by omega, hR, hntype, ?_, (add_sub_cancel_right s.r 1).symm⟩
      intro j hj hjn
      exact hnot j hj (by omega)

/-- At the end of the loop the region is right when some entry was to be found, or when there
is no entry of the type. -/
theorem Bracketed.brackets (hend : s.r < s.l)
    (hinc : Increasing stabs type L R)
    (hreached : (∃ k, L ≤ k ∧ k ≤ R ∧ ofType stabs type k = true) → Reached stabs type addr L R) :
    Brackets stabs type addr L R (finish stabs type s) := by
  cases hany : s.anyMatches with
  | false =>
    obtain ⟨hL, hR, hnot⟩ := h.unmatched hany
    refine ⟨?_, fun _ => ?_⟩
    · rintro ⟨k, hk, hkR, hktype, _⟩
      rw [hnot k hk (by omega)] at hktype
      contradiction
    · rw [finish, hany]
      change s.regionLeft - 1 < s.regionLeft
      omega
  | true =>
    rcases h.left with ⟨hL, hnot⟩ | ⟨hL, _, hler, htype, hvalue, hnot⟩
    · exact (h.not_reached hend hinc hnot (hreached (h.matched hany))).elim
    · have hhigh := h.high
      refine ⟨fun _ => h.found hend hinc hany hler hL htype hvalue hnot, fun hmissing => ?_⟩
      exact (hmissing ⟨s.regionLeft, hL, by omega, htype, hvalue⟩).elim

/-- When all entries of the type are after `addr` the region ends just before the first of
them, and it is not empty. -/
theorem Bracketed.missed (hend : s.r < s.l)
    (hexists : ∃ k, L ≤ k ∧ k ≤ R ∧ ofType stabs type k = true)
    (hmissing : ¬Reached stabs type addr L R) :
    Missed stabs type addr L R (finish stabs type s) := by
  cases hany : s.anyMatches with
  | false =>
    obtain ⟨hL, hR, hnot⟩ := h.unmatched hany
    obtain ⟨k, hk, hkR, hktype⟩ := hexists
    rw [hnot k hk (by omega)] at hktype
    contradiction
  | true =>
    have hhigh := h.high
    have hright := h.right
    have hstops := walkDown_stops (ofType stabs type) (s.regionLeft + 1) s.regionRight
    rw [finish, if_pos hany]
    rcases h.left with ⟨hL, hnot⟩ | ⟨hL, _, hler, htype, hvalue, hnot⟩
    · refine ⟨hstops.le, ?_, by dsimp only; omega, ?_⟩
      · intro hfirst
        -- the entry after the range is not the first of it
        have hlow : L ≤ s.r := by
          rcases h.next with hR | ⟨hlow, _, hntype, _⟩
          · obtain ⟨k, hk, hkR, _⟩ := hexists
            omega
          · by_contra hlt
            have heq : s.r + 1 = L := by omega
            rw [heq, hfirst] at hntype
            contradiction
        have hle := hstops.low (by omega)
        dsimp only
        omega
      · intro i hfloor
        exact (hmissing ⟨i, hfloor.low, hfloor.high, hfloor.here, hfloor.value_le⟩).elim
    · exact (hmissing ⟨s.regionLeft, hL, by omega, htype, hvalue⟩).elim

end KernelLabs.StabSearch

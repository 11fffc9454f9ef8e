import KernelLabs.StabSearch
import Mathlib.Tactic.IntervalCases

/-!
The region that the search returns, over entries in strictly increasing order. An exact match
raises the key by one and the search goes on. When the entry of the raised key is still in
the range it becomes a second exact match, and the left end moves on to it. Until then the
region stays right.
-/
namespace KernelLabs.StabSearch

open PageWords WhileLoop Option

variable {stabs : ℤ → Stab} {type L R i j : ℤ} {addr : Word} {s s' : Search}

namespace Increasing

theorem lt_of_value (hinc : Increasing stabs type L R) (hj : L ≤ j) (hi : i ≤ R)
    (hitype : ofType stabs type i = true) (hjtype : ofType stabs type j = true)
    (hvalue : value stabs i < value stabs j) : i < j := by
  by_contra hle
  by_cases heq : i = j
  · rw [heq] at hvalue
    omega
  · have hlt := hinc j i hj (by omega) hi hjtype hitype
    omega

theorem eq_of_value (hinc : Increasing stabs type L R) (hi : L ≤ i) (hiR : i ≤ R)
    (hj : L ≤ j) (hjR : j ≤ R) (hitype : ofType stabs type i = true)
    (hjtype : ofType stabs type j = true) (hvalue : value stabs i = value stabs j) : i = j := by
  rcases lt_trichotomy i j with hlt | heq | hlt
  · have hless := hinc i j hi hlt hjR hitype hjtype
    omega
  · exact heq
  · have hless := hinc j i hj hlt hiR hjtype hitype
    omega

end Increasing

/-! ### The phases of the loop -/

/-- An entry of the type is after a stretch without one. -/
theorem lt_of_gap {P : ℤ → Prop} {t : ℤ}
    (hgap : ∀ k, P k → k ≤ t → ofType stabs type k = false) (hj : P j)
    (hjtype : ofType stabs type j = true) : t < j := by
  by_contra hle
  rw [hgap j hj (by omega)] at hjtype
  contradiction

section Phases

variable (stabs : ℤ → Stab) (type : ℤ) (addr : Word) (L R : ℤ)

/-- No exact match yet: the halving goes as it does for the first probe. -/
structure Seeking (s : Search) : Prop where
  inv : Bracketed stabs type addr L R s
  key : s.addr = addr
  probe : ∃ n, (s.r + 1 - s.l).toNat ≤ n ∧ firstProbe stabs type addr n s.l s.r =
    firstProbe stabs type addr (R + 1 - L).toNat L R
  kept : ∀ j, L ≤ j → j ≤ R → ofType stabs type j = true →
    addr.toNat ≤ value stabs j → value stabs j ≤ addr.toNat + 1 → s.l ≤ j ∧ j ≤ s.r

/-- The range has no entry that a raised key could match. -/
structure Cleared (s : Search) : Prop where
  inv : Bracketed stabs type addr L R s
  below : addr.toNat < 2 ^ 32 - 1
  key : s.addr.toNat = addr.toNat ∨ s.addr.toNat = addr.toNat + 1
  apart : ∀ i j, ¬Twins stabs type addr L R i j
  clear : ∀ j, s.l ≤ j → j ≤ s.r → ofType stabs type j = true →
    value stabs j ≠ addr.toNat + 1

/-- The first of two twins was matched and the second is still in the range. -/
structure Doubled (i j : ℤ) (s : Search) : Prop where
  twins : Twins stabs type addr L R i j
  key : s.addr.toNat = addr.toNat + 1
  any : s.anyMatches = true
  right : s.regionRight = s.r
  low : L ≤ s.l
  high : s.r ≤ R
  le : s.l ≤ j
  ge : j ≤ s.r

/-- The second twin was matched, and the key is after it. -/
structure Passed (i j : ℤ) (s : Search) : Prop where
  twins : Twins stabs type addr L R i j
  below : addr.toNat + 2 < 2 ^ 32
  any : s.anyMatches = true
  left : j ≤ s.regionLeft
  low : j ≤ s.l
  ge : j ≤ s.r
  high : s.r ≤ R
  right : s.regionRight = s.r
  key : s.l = j → value stabs j < s.addr.toNat

/-- The entry at the last address was matched, and the key has wrapped to zero. -/
structure Wrapped (j : ℤ) (s : Search) : Prop where
  mem : L ≤ j
  le : j ≤ R
  here : ofType stabs type j = true
  last : value stabs j = 2 ^ 32 - 1
  any : s.anyMatches = true
  left : s.regionLeft = j
  low : s.l = j
  key : s.addr.toNat = 0
  right : s.regionRight = s.r
  high : s.r ≤ R
  range : j ≤ s.r ∨ s.r = j - 1

inductive Phase (s : Search) : Prop
  | seeking (h : Seeking stabs type addr L R s)
  | cleared (h : Cleared stabs type addr L R s)
  | doubled (i j : ℤ) (h : Doubled stabs type addr L R i j s)
  | passed (i j : ℤ) (h : Passed stabs type addr L R i j s)
  | wrapped (i j : ℤ) (htwins : Twins stabs type addr L R i j)
      (h : Wrapped stabs type L R j s)
  | top (j : ℤ) (htop : addr.toNat = 2 ^ 32 - 1) (h : Wrapped stabs type L R j s)

end Phases

theorem seeking_start : Seeking stabs type addr L R (start L R addr) :=
  ⟨bracketed_start, rfl, ⟨_, le_refl _, rfl⟩, fun _ hL hR _ _ _ => ⟨hL, hR⟩⟩

section Halving

variable (hinc : Increasing stabs type L R) (hle : s.l ≤ s.r)
  (hs : Halved stabs type s ((s.l + s.r).tdiv 2) s')

include hle hs

theorem Cleared.halved (h : Cleared stabs type addr L R s) : Cleared stabs type addr L R s' := by
  obtain ⟨hl, hr⟩ := middle_mem hle
  have hkey := h.key
  have hbelow := h.below
  have hmatch : ∀ m, s.l ≤ m → m ≤ s.r → ofType stabs type m = true →
      value stabs m = s.addr.toNat → value stabs m ≤ addr.toNat := by
    intro m hlm hmr htype hvalue
    have hclear := h.clear m hlm hmr htype
    omega
  have hinv : Bracketed stabs type addr L R s' := h.inv.halved hl hr (by omega) hmatch hs
  cases hs with
  | skip hnone =>
    refine ⟨hinv, hbelow, hkey, h.apart, fun j hjl hjr => h.clear j ?_ hjr⟩
    dsimp only at hjl
    omega
  | below m hlm ht htype hgap hvalue =>
    refine ⟨hinv, hbelow, hkey, h.apart, fun j hjl hjr => h.clear j ?_ hjr⟩
    dsimp only at hjl
    omega
  | above m hlm ht htype hgap hvalue =>
    refine ⟨hinv, hbelow, hkey, h.apart, fun j hjl hjr => h.clear j hjl ?_⟩
    dsimp only at hjr
    omega
  | hit m hlm ht htype hgap hvalue =>
    have hm := hmatch m hlm (by omega) htype hvalue
    have hsucc : (s.addr + 1).toNat = addr.toNat + 1 := by
      rw [BitVec.toNat_add_of_lt (by simp; omega)]
      simp
      omega
    refine ⟨hinv, hbelow, Or.inr hsucc, h.apart, fun j hjl hjr => h.clear j ?_ hjr⟩
    dsimp only at hjl
    omega

theorem Passed.halved (h : Passed stabs type addr L R i j s) :
    Passed stabs type addr L R i j s' := by
  obtain ⟨hl, hr⟩ := middle_mem hle
  obtain ⟨htwins, hbelow, hany, hleft, hlow, hge, hhigh, hright, hkey⟩ := h
  cases hs with
  | skip hnone =>
    refine ⟨htwins, hbelow, hany, hleft, by dsimp only; omega, hge, hhigh, hright, ?_⟩
    intro heq
    dsimp only at heq
    omega
  | below m hlm ht htype hgap hvalue =>
    refine ⟨htwins, hbelow, rfl, by dsimp only; omega, by dsimp only; omega, hge, hhigh, hright, ?_⟩
    intro heq
    dsimp only at heq
    omega
  | above m hlm ht htype hgap hvalue =>
    have hne : m ≠ j := by
      intro heq
      have hless := hkey (by omega)
      rw [heq] at hvalue
      omega
    exact ⟨htwins, hbelow, rfl, hleft, hlow, by dsimp only; omega, by dsimp only; omega, rfl, hkey⟩
  | hit m hlm ht htype hgap hvalue =>
    have hne : m ≠ j := by
      intro heq
      have hless := hkey (by omega)
      rw [heq] at hvalue
      omega
    refine ⟨htwins, hbelow, rfl, by dsimp only; omega, by dsimp only; omega, hge, hhigh, hright, ?_⟩
    intro heq
    exact (hne heq).elim

include hinc

theorem Seeking.halved (h : Seeking stabs type addr L R s) : Phase stabs type addr L R s' := by
  obtain ⟨hl, hr⟩ := middle_mem hle
  have hkey : s.addr.toNat = addr.toNat := congrArg BitVec.toNat h.key
  have hinv : Bracketed stabs type addr L R s' :=
    h.inv.halved hl hr (by omega) (fun m _ _ _ hvalue => by omega) hs
  have hlow := h.inv.low
  have hhigh := h.inv.high
  obtain ⟨n, hn, hfirst⟩ := h.probe
  obtain ⟨n, rfl⟩ : ∃ n', n = n' + 1 := ⟨n - 1, by omega⟩
  cases hs with
  | skip hnone =>
    rw [firstProbe_skip hle hnone] at hfirst
    refine Phase.seeking ⟨hinv, h.key, ⟨n, by dsimp only; omega, hfirst⟩, ?_⟩
    intro j hj hjR hjtype hjlow hjhigh
    obtain ⟨hjl, hjr⟩ := h.kept j hj hjR hjtype hjlow hjhigh
    exact ⟨lt_of_gap hnone hjl hjtype, hjr⟩
  | below m hlm ht htype hgap hvalue =>
    rw [firstProbe_at hle hlm ht htype hgap, if_pos (by omega)] at hfirst
    refine Phase.seeking ⟨hinv, h.key, ⟨n, by dsimp only; omega, hfirst⟩, ?_⟩
    intro j hj hjR hjtype hjlow hjhigh
    have hmj : m < j := hinc.lt_of_value hj (by omega) htype hjtype (by omega)
    exact ⟨lt_of_gap hgap hmj hjtype, (h.kept j hj hjR hjtype hjlow hjhigh).2⟩
  | above m hlm ht htype hgap hvalue =>
    rw [firstProbe_at hle hlm ht htype hgap, if_neg (by omega)] at hfirst
    by_cases hnext : value stabs m ≤ addr.toNat + 1
    · -- the second of two twins was met first and leaves the range
      rw [if_pos hnext] at hfirst
      have hmax := (stabs m).nValue.isLt
      have hbelow : addr.toNat < 2 ^ 32 - 1 := by
        unfold value at hvalue
        omega
      refine Phase.cleared ⟨hinv, hbelow, Or.inl hkey, ?_, ?_⟩
      · intro i j htwins
        have him : m = i := some.inj (hfirst.trans htwins.first)
        have hival := htwins.fst_value
        rw [← him] at hival
        omega
      · intro j hjl hjr hjtype hjvalue
        dsimp only at hjl hjr
        have hlt := hinc j m (by omega) (by omega) (by omega) hjtype htype
        omega
    · rw [if_neg hnext] at hfirst
      refine Phase.seeking ⟨hinv, h.key, ⟨n, by dsimp only; omega, hfirst⟩, ?_⟩
      intro j hj hjR hjtype hjlow hjhigh
      refine ⟨(h.kept j hj hjR hjtype hjlow hjhigh).1, ?_⟩
      have hjm : j < m := hinc.lt_of_value (by omega) hjR hjtype htype (by omega)
      dsimp only
      omega
  | hit m hlm ht htype hgap hvalue =>
    rw [firstProbe_at hle hlm ht htype hgap, if_neg (by omega), if_pos (by omega)] at hfirst
    have hlt := addr.isLt
    by_cases htop : addr.toNat = 2 ^ 32 - 1
    · have hzero : (s.addr + 1).toNat = 0 := by
        rw [BitVec.toNat_add, hkey, htop]
        rfl
      exact Phase.top m htop ⟨by omega, by omega, htype, by omega, rfl, rfl, rfl, hzero,
        h.inv.right, hhigh, Or.inl (by dsimp only; omega)⟩
    have hsucc : (s.addr + 1).toNat = addr.toNat + 1 := by
      rw [BitVec.toNat_add_of_lt (by simp; omega), hkey]
      rfl
    by_cases htwins : ∃ j, Twins stabs type addr L R m j
    · obtain ⟨j, htwins⟩ := htwins
      have hmj := htwins.lt
      have hjvalue := htwins.snd_value
      obtain ⟨hjl, hjr⟩ := h.kept j (by omega) htwins.high htwins.snd (by omega) (by omega)
      exact Phase.doubled m j
        ⟨htwins, hsucc, rfl, h.inv.right, by dsimp only; omega, hhigh, hmj.le, hjr⟩
    · refine Phase.cleared ⟨hinv, by omega, Or.inr hsucc, ?_, ?_⟩
      · intro i j hij
        have him : m = i := some.inj (hfirst.trans hij.first)
        rw [← him] at hij
        exact htwins ⟨j, hij⟩
      · intro j hjl hjr hjtype hjvalue
        dsimp only at hjl hjr
        have hne : m ≠ j := by
          intro heq
          rw [heq] at hvalue
          omega
        exact htwins ⟨j, by omega, by omega, by omega, htype, hjtype, by omega, hjvalue,
          hfirst.symm⟩

theorem Doubled.halved (h : Doubled stabs type addr L R i j s) : Phase stabs type addr L R s' := by
  obtain ⟨hl, hr⟩ := middle_mem hle
  obtain ⟨htwins, hkey, hany, hright, hlow, hhigh, hjl, hjr⟩ := h
  have hjvalue := htwins.snd_value
  cases hs with
  | skip hnone =>
    exact Phase.doubled i j ⟨htwins, hkey, hany, hright, by dsimp only; omega, hhigh,
      lt_of_gap hnone hjl htwins.snd, hjr⟩
  | below m hlm ht htype hgap hvalue =>
    have hmj : m < j := hinc.lt_of_value (by omega) (by omega) htype htwins.snd (by omega)
    exact Phase.doubled i j ⟨htwins, hkey, rfl, hright, by dsimp only; omega, hhigh,
      lt_of_gap hgap hmj htwins.snd, hjr⟩
  | above m hlm ht htype hgap hvalue =>
    have hjm : j < m := hinc.lt_of_value (by omega) htwins.high htwins.snd htype (by omega)
    exact Phase.doubled i j ⟨htwins, hkey, rfl, rfl, hlow, by dsimp only; omega, hjl,
      by dsimp only; omega⟩
  | hit m hlm ht htype hgap hvalue =>
    have hmj : m = j := hinc.eq_of_value (by omega) (by omega) (by omega) htwins.high htype
      htwins.snd (by omega)
    rw [hmj]
    by_cases hwrap : addr.toNat + 2 < 2 ^ 32
    · have hsucc : (s.addr + 1).toNat = addr.toNat + 2 := by
        rw [BitVec.toNat_add_of_lt (by simp; omega), hkey]
        rfl
      refine Phase.passed i j ⟨htwins, hwrap, rfl, le_refl j, le_refl j, hjr, hhigh, hright, ?_⟩
      intro _
      dsimp only
      omega
    · have hlt := s.addr.isLt
      have hzero : (s.addr + 1).toNat = 0 := by
        rw [BitVec.toNat_add]
        simp
        omega
      exact Phase.wrapped i j htwins ⟨by omega, htwins.high, htwins.snd, by omega, rfl, rfl, rfl,
        hzero, hright, hhigh, Or.inl hjr⟩

/-- With the key at zero every entry is after it, so the matched one bounds the range. -/
theorem Wrapped.halved (h : Wrapped stabs type L R j s) : Wrapped stabs type L R j s' := by
  obtain ⟨hl, hr⟩ := middle_mem hle
  obtain ⟨hmem, hjR, hhere, hlast, hany, hleft, hlow, hkey, hright, hhigh, hrange⟩ := h
  -- no entry follows the one at the last address
  have honly : ∀ m, s.l ≤ m → m ≤ s.r → ofType stabs type m = true → m = j := by
    intro m hlm hmr htype
    by_contra hne
    have hlt := hinc j m hmem (by omega) (by omega) hhere htype
    have hmax := (stabs m).nValue.isLt
    unfold value at hlt hlast
    omega
  cases hs with
  | skip hnone =>
    rw [hnone j (by omega) (by omega)] at hhere
    contradiction
  | below m hlm ht htype hgap hvalue => omega
  | above m hlm ht htype hgap hvalue =>
    have hmj := honly m hlm (by omega) htype
    exact ⟨hmem, hjR, hhere, hlast, rfl, hleft, hlow, hkey, rfl, by dsimp only; omega,
      Or.inr (by dsimp only; omega)⟩
  | hit m hlm ht htype hgap hvalue =>
    have hmj := honly m hlm (by omega) htype
    rw [hmj] at hvalue
    omega

theorem Phase.halved (h : Phase stabs type addr L R s) : Phase stabs type addr L R s' := by
  cases h with
  | seeking h => exact h.halved hinc hle hs
  | cleared h => exact Phase.cleared (h.halved hle hs)
  | doubled i j h => exact h.halved hinc hle hs
  | passed i j h => exact Phase.passed i j (h.halved hle hs)
  | wrapped i j htwins h => exact Phase.wrapped i j htwins (h.halved hinc hle hs)
  | top j htop h => exact Phase.top j htop (h.halved hinc hle hs)

end Halving

/-! ### The region at the end -/

theorem Floor.unique {left left' : ℤ} (h : Floor stabs type addr L R left)
    (h' : Floor stabs type addr L R left') : left = left' := by
  have hvalue := h.value_le
  have hvalue' := h'.value_le
  rcases lt_trichotomy left left' with hlt | heq | hlt
  · have hlast := h.last left' hlt h'.high h'.here
    omega
  · exact heq
  · have hlast := h'.last left hlt h.high h.here
    omega

theorem EndsAt.unique {left right right' : ℤ} (h : EndsAt stabs type R left right)
    (h' : EndsAt stabs type R left right') : right = right' := by
  rcases h with ⟨hR, hnone⟩ | ⟨n, hn, hnR, hntype, hgap, hright⟩ <;>
    rcases h' with ⟨hR', hnone'⟩ | ⟨n', hn', hnR', hntype', hgap', hright'⟩
  · omega
  · rw [hnone n' hn' hnR'] at hntype'
    contradiction
  · rw [hnone' n hn hnR] at hntype
    contradiction
  · rcases lt_trichotomy n n' with hlt | heq | hlt
    · rw [hgap' n hn hlt] at hntype
      contradiction
    · omega
    · rw [hgap n' hn' hlt] at hntype'
      contradiction

/-- The promised region of an address that an entry contains is the region of that entry. -/
theorem Brackets.eq_of_found {region : ℤ × ℤ} (h : Brackets stabs type addr L R region)
    (hfound : Found stabs type addr L R i j) : region = (i, j) := by
  have hregion := h.found ⟨i, hfound.low, hfound.high, hfound.here, hfound.value_le⟩
  have hi := hregion.toFloor.unique hfound.toFloor
  have hnext := hregion.next
  rw [hi] at hnext
  exact Prod.ext hi (hnext.unique hfound.next)

theorem Twins.reached (h : Twins stabs type addr L R i j) : Reached stabs type addr L R :=
  ⟨i, h.low, h.lt.le.trans h.high, h.fst, h.fst_value.le⟩

/-- An entry at the address itself is the one to find. -/
theorem Floor.eq_of_value {left : ℤ} (hfound : Floor stabs type addr L R left)
    (hinc : Increasing stabs type L R) (hi : L ≤ i) (hiR : i ≤ R)
    (hitype : ofType stabs type i = true) (hivalue : value stabs i = addr.toNat) : left = i := by
  have hvalue := hfound.value_le
  rcases lt_trichotomy left i with hlt | heq | hlt
  · have hlast := hfound.last i hlt hiR hitype
    omega
  · exact heq
  · have hless := hinc i left hi hlt hfound.high hitype hfound.here
    omega

theorem Twins.eq_left {left : ℤ} (h : Twins stabs type addr L R i j)
    (hinc : Increasing stabs type L R) (hfound : Floor stabs type addr L R left) : left = i :=
  hfound.eq_of_value hinc h.low (h.lt.le.trans h.high) h.fst h.fst_value

theorem Twins.unique {i' j' : ℤ} (h : Twins stabs type addr L R i j)
    (hinc : Increasing stabs type L R) (h' : Twins stabs type addr L R i' j') :
    i = i' ∧ j = j' := by
  have hi : i = i' := some.inj (h.first.symm.trans h'.first)
  have hj := h.low.trans h.lt.le
  have hj' := h'.low.trans h'.lt.le
  exact ⟨hi, hinc.eq_of_value hj h.high hj' h'.high h.snd h'.snd
    (h.snd_value.trans h'.snd_value.symm)⟩

/-- What the search returns: the promised region of settled entries, and otherwise a region
that is not empty and starts elsewhere. -/
def Outcome (stabs : ℤ → Stab) (type : ℤ) (addr : Word) (L R : ℤ) (region : ℤ × ℤ) : Prop :=
  (Settled stabs type addr L R ∧ Brackets stabs type addr L R region) ∨
    (¬Settled stabs type addr L R ∧ Missed stabs type addr L R region)

/-- Without twins, and without an entry at the last address, the outcome depends on whether
there is an entry to find. -/
theorem Bracketed.outcome (h : Bracketed stabs type addr L R s) (hend : s.r < s.l)
    (hinc : Increasing stabs type L R) (hapart : ∀ i j, ¬Twins stabs type addr L R i j)
    (htop : addr.toNat = 2 ^ 32 - 1 → ∀ k, L ≤ k → k ≤ R → ofType stabs type k = true →
      value stabs k ≠ addr.toNat) :
    Outcome stabs type addr L R (finish stabs type s) := by
  by_cases hreached : (∃ k, L ≤ k ∧ k ≤ R ∧ ofType stabs type k = true) →
      Reached stabs type addr L R
  · have hseparated : Separated stabs type addr L R :=
      ⟨hreached, fun i j htwins => (hapart i j htwins).elim⟩
    exact Or.inl ⟨⟨hseparated, htop⟩, h.brackets hend hinc hreached⟩
  · obtain ⟨hexists, hmissing⟩ := Classical.not_imp.mp hreached
    exact Or.inr ⟨fun hsettled => hreached hsettled.reached, h.missed hend hexists hmissing⟩

theorem Seeking.outcome (h : Seeking stabs type addr L R s) (hend : s.r < s.l)
    (hinc : Increasing stabs type L R) : Outcome stabs type addr L R (finish stabs type s) := by
  refine h.inv.outcome hend hinc ?_ ?_
  · intro i j htwins
    obtain ⟨n, _, hfirst⟩ := h.probe
    rw [firstProbe_none hend, htwins.first] at hfirst
    contradiction
  · intro _ k hk hkR hktype hkvalue
    obtain ⟨hkl, hkr⟩ := h.kept k hk hkR hktype hkvalue.ge (by omega)
    omega

theorem Passed.outcome (h : Passed stabs type addr L R i j s) (hinc : Increasing stabs type L R) :
    Outcome stabs type addr L R (finish stabs type s) := by
  obtain ⟨htwins, hbelow, hany, hleft, _, hge, hhigh, hright, _⟩ := h
  have hstops := walkDown_stops (ofType stabs type) (s.regionLeft + 1) s.regionRight
  have hLi := htwins.low
  have hij := htwins.lt
  have hwalk : j ≤ walkDown (ofType stabs type) (s.regionLeft + 1) s.regionRight := by
    by_cases hside : s.regionLeft ≤ s.regionRight
    · have hle := hstops.low (by omega)
      omega
    · rw [walkDown_below (by omega)]
      omega
  refine Or.inr ⟨fun hsettled => ?_, ?_⟩
  · have hlast := (hsettled.apart i j htwins).1
    omega
  · rw [finish, if_pos hany]
    refine ⟨hstops.le, fun _ => by dsimp only; omega, by dsimp only; omega, ?_⟩
    intro i' hfound heq
    have hi := htwins.eq_left hinc hfound
    dsimp only at heq
    omega

section

variable (h : Wrapped stabs type L R j s)

include h

theorem Wrapped.finish_eq (hend : s.r < s.l) : finish stabs type s = (j - 1, j - 1) := by
  obtain ⟨_, _, _, _, hany, hleft, hlow, _, hright, _, hrange⟩ := h
  have hr : s.regionRight = j - 1 := by omega
  rw [finish, if_pos hany, hleft, hr, walkDown_below (by omega)]

theorem Wrapped.missed (hend : s.r < s.l) (hne : ∀ i, Floor stabs type addr L R i → j - 1 ≠ i) :
    Missed stabs type addr L R (finish stabs type s) := by
  rw [h.finish_eq hend]
  have hmem := h.mem
  have hhigh := h.high
  have hlow := h.low
  have hrange := h.range
  refine ⟨le_refl _, fun hfirst => ?_, by dsimp only; omega, hne⟩
  have hjL : j ≠ L := by
    intro heq
    have hhere := h.here
    rw [heq, hfirst] at hhere
    contradiction
  dsimp only
  omega

theorem Wrapped.outcome_of_twins (hend : s.r < s.l)
    (hinc : Increasing stabs type L R) (htwins : Twins stabs type addr L R i j) :
    Outcome stabs type addr L R (finish stabs type s) := by
  have hlast := h.last
  have hsnd := htwins.snd_value
  by_cases hadjacent : j = i + 1
  · have hsettled : Settled stabs type addr L R := by
      refine ⟨⟨fun _ => htwins.reached, ?_⟩, fun htop => by omega⟩
      intro i' j' htwins'
      obtain ⟨hi, hj⟩ := htwins.unique hinc htwins'
      exact ⟨by omega, by omega⟩
    refine Or.inl ⟨hsettled, fun _ => ?_, fun hnot => (hnot htwins.reached).elim⟩
    rw [h.finish_eq hend, hadjacent, add_sub_cancel_right]
    obtain ⟨hLi, hij, hjR, hitype, hjtype, hivalue, hjvalue, _⟩ := htwins
    refine ⟨⟨hLi, by dsimp only; omega, hitype, hivalue.le, ?_⟩,
      Or.inr ⟨j, hij, hjR, hjtype, ?_, by dsimp only; omega⟩⟩
    · intro k hk hkR hktype
      have hless := hinc i k hLi hk hkR hitype hktype
      omega
    · intro k hk hkj
      dsimp only at hk
      omega
  · refine Or.inr ⟨fun hsettled => hadjacent (hsettled.apart i j htwins).2, ?_⟩
    refine h.missed hend ?_
    intro i' hfound heq
    have hi := htwins.eq_left hinc hfound
    omega

theorem Wrapped.outcome_of_top (hend : s.r < s.l) (hinc : Increasing stabs type L R)
    (htop : addr.toNat = 2 ^ 32 - 1) : Outcome stabs type addr L R (finish stabs type s) := by
  have hlast := h.last
  have hvalue : value stabs j = addr.toNat := by omega
  refine Or.inr ⟨fun hsettled => hsettled.top htop j h.mem h.le h.here hvalue, ?_⟩
  refine h.missed hend ?_
  intro i hfound heq
  have hi := hfound.eq_of_value hinc h.mem h.le h.here hvalue
  omega

end

theorem stabBinsearch_outcome (stabs : ℤ → Stab) (type L R : ℤ) (addr : Word)
    (hinc : Increasing stabs type L R) :
    Outcome stabs type addr L R (stabBinsearch stabs L R type addr) := by
  obtain ⟨e, hphase, hend, heq⟩ := stabBinsearch_of_rounds (Phase stabs type addr L R)
    (fun s s' h hle hs => h.halved hinc hle hs) (Phase.seeking seeking_start)
  rw [heq]
  cases hphase with
  | seeking h => exact h.outcome hend hinc
  | cleared h =>
    have hbelow := h.below
    exact h.inv.outcome hend hinc h.apart (fun htop => by omega)
  | doubled i j h =>
    have hjl := h.le
    have hjr := h.ge
    omega
  | passed i j h => exact h.outcome hinc
  | wrapped i j htwins h => exact h.outcome_of_twins hend hinc htwins
  | top j htop h => exact h.outcome_of_top hend hinc htop

theorem brackets_of_settled (hinc : Increasing stabs type L R)
    (hsettled : Settled stabs type addr L R) :
    Brackets stabs type addr L R (stabBinsearch stabs L R type addr) := by
  rcases stabBinsearch_outcome stabs type L R addr hinc with ⟨_, hbrackets⟩ | ⟨hnot, _⟩
  · exact hbrackets
  · exact (hnot hsettled).elim

/-- Over increasing entries the search returns the region that its comment promises exactly
when the entries are separated: with all entries after `addr` it returns a region that is
not empty, and with an entry at `addr` and one at the next address, met in this order, it
returns the region of a later one. -/
theorem stabBinsearch_brackets_iff (stabs : ℤ → Stab) (type L R : ℤ) (addr : Word)
    (haddr : addr.toNat < 2 ^ 32 - 1) (hinc : Increasing stabs type L R) :
    Brackets stabs type addr L R (stabBinsearch stabs L R type addr) ↔
      Separated stabs type addr L R := by
  rcases stabBinsearch_outcome stabs type L R addr hinc with
    ⟨hsettled, hbrackets⟩ | ⟨hnot, hmissed⟩
  · exact iff_of_true hbrackets hsettled.toSeparated
  · refine iff_of_false hmissed.not_brackets ?_
    intro hseparated
    exact hnot ⟨hseparated, fun htop => by omega⟩

def filesTable : List Stab :=
  [⟨1, 0x64, 0, 0xf0100000⟩, ⟨0, 0x44, 7, 0xf0100008⟩, ⟨9, 0x64, 0, 0xf0100040⟩]

theorem filesTable_increasing : Increasing (stabsOf filesTable) 0x64 0 2 := by
  intro i j hi hij hj hitype hjtype
  have hjlow : 0 < j := by omega
  interval_cases j <;> interval_cases i <;> revert hitype hjtype <;> decide

theorem stabBinsearch_brackets_filesTable :
    stabBinsearch (stabsOf filesTable) 0 2 0x64 0xf0100010 = (0, 1) ∧
      (Brackets (stabsOf filesTable) 0x64 0xf0100010 0 2
          (stabBinsearch (stabsOf filesTable) 0 2 0x64 0xf0100010) ↔
        Separated (stabsOf filesTable) 0x64 0xf0100010 0 2) :=
  ⟨by decide, stabBinsearch_brackets_iff _ _ _ _ _ (by decide) filesTable_increasing⟩

/-- Before the first file the returned region is not empty, and for a function that starts
right before another one it is the region of the other. -/
theorem stabBinsearch_misses :
    (Increasing (stabsOf filesTable) 0x64 0 2 ∧
      ¬Brackets (stabsOf filesTable) 0x64 0xf00fffff 0 2
        (stabBinsearch (stabsOf filesTable) 0 2 0x64 0xf00fffff)) ∧
    ∃ pair : List Stab, Increasing (stabsOf pair) 0x24 0 1 ∧
      Reached (stabsOf pair) 0x24 0xf0100000 0 1 ∧
      stabBinsearch (stabsOf pair) 0 1 0x24 0xf0100000 = (1, 1) ∧
      ¬Brackets (stabsOf pair) 0x24 0xf0100000 0 1
        (stabBinsearch (stabsOf pair) 0 1 0x24 0xf0100000) := by
  refine ⟨⟨filesTable_increasing, ?_⟩,
    [⟨1, 0x24, 0, 0xf0100000⟩, ⟨5, 0x24, 0, 0xf0100001⟩], ?_, ?_, by decide, ?_⟩
  · intro h
    have hunreached : ¬Reached (stabsOf filesTable) 0x64 0xf00fffff 0 2 := by
      rintro ⟨k, hk, hk2, htype, hvalue⟩
      interval_cases k <;> revert htype hvalue <;> decide
    exact absurd (h.missing hunreached) (by decide)
  · intro i j hi hij hj hitype hjtype
    obtain rfl : i = 0 := by omega
    obtain rfl : j = 1 := by omega
    decide
  · exact ⟨0, by decide, by decide, by decide, by decide⟩
  · intro h
    have hvalue := (h.found ⟨0, by decide, by decide, by decide, by decide⟩).value_le
    exact absurd hvalue (by decide)

end KernelLabs.StabSearch

import KernelLabs.MachineWords
import KernelLabs.StabSearch

/-!
The entries that stab_binsearch reads. Here every read of the table goes through a window of it,
and a read elsewhere is a fault, as is a loop that does not come to its end. The entries need
not be in any order. The sum of two indices is taken as an int; it does not overflow, since a
table of entries of twelve bytes lies in the address space.
-/
namespace KernelLabs.StabBounds

open MachineWords PageWords StabSearch WhileLoop Option

structure StabTable where
  entries : List Stab
  fits : 12 * entries.length ≤ 2 ^ 32

/-- The entries of a table with indices in [L, R]. -/
def StabTable.window (t : StabTable) (L R i : ℤ) : Option Stab :=
  if L ≤ i ∧ i ≤ R then t.entries[i.toNat]? else none

section Reads

variable (read : ℤ → Option Stab) (type : ℤ)

def typeAt (i : ℤ) : Option Bool := (read i).map fun stab => (stab.nType.toNat : ℤ) == type

def roundIn (s : Search) : Option Search := do
  let trueM := (int32 (s.l + s.r)).tdiv 2
  let m ← walkDownIn (typeAt read type) s.l trueM
  if m < s.l then
    return { s with l := trueM + 1 }
  else
    let stab ← read m
    if stab.nValue < s.addr then
      return { s with anyMatches := true, regionLeft := m, l := trueM + 1 }
    else if stab.nValue > s.addr then
      return { s with anyMatches := true, regionRight := m - 1, r := m - 1 }
    else
      return { s with anyMatches := true, regionLeft := m, l := m, addr := s.addr + 1 }

def finishIn (s : Search) : Option (ℤ × ℤ) := do
  if s.anyMatches then
    return (← walkDownIn (typeAt read type) (s.regionLeft + 1) s.regionRight, s.regionRight)
  else
    return (s.regionLeft, s.regionLeft - 1)

/-- stab_binsearch on a table that can be read where `read` gives an entry. -/
def stabBinsearchIn (L R : ℤ) (addr : Word) : Option (ℤ × ℤ) := do
  let s ← whileIn (fun s => some (decide (s.l ≤ s.r))) (roundIn read type)
    (2 * (R + 1 - L).toNat + 2) (start L R addr)
  finishIn read type s

end Reads

/-- The bounds of the search stay within the range that it began with. -/
structure Within (L R : ℤ) (s : Search) : Prop where
  low : L ≤ s.l
  high : s.r ≤ R
  left : L ≤ s.regionLeft
  right : s.regionRight ≤ R

section Bounds

variable {t : StabTable} {L R type : ℤ} {addr : Word} {s s' : Search}

theorem window_eq (hL : 0 ≤ L) (hR : R < t.entries.length) {i : ℤ} (hi : L ≤ i ∧ i ≤ R) :
    t.window L R i = some (stabsOf t.entries i) := by
  have hlt : i.toNat < t.entries.length := by omega
  rw [StabTable.window, if_pos hi, stabsOf, if_neg (by omega), List.getD_eq_getElem?_getD,
    List.getElem?_eq_getElem hlt, getD_some]

theorem typeAt_window (hL : 0 ≤ L) (hR : R < t.entries.length) {i : ℤ} (hi : L ≤ i ∧ i ≤ R) :
    typeAt (t.window L R) type i = some (ofType (stabsOf t.entries) type i) := by
  rw [typeAt, window_eq hL hR hi]
  rfl

theorem within_start : Within L R (start L R addr) :=
  ⟨le_refl L, le_refl R, le_refl L, le_refl R⟩

theorem Within.halved {stabs : ℤ → Stab} {m : ℤ} (h : Within L R s) (hl : s.l ≤ m) (hr : m ≤ s.r)
    (hs : Halved stabs type s m s') : Within L R s' := by
  obtain ⟨hlow, hhigh, hleft, hright⟩ := h
  cases hs with
  | skip => exact ⟨by dsimp only; omega, hhigh, hleft, hright⟩
  | below => exact ⟨by dsimp only; omega, hhigh, by dsimp only; omega, hright⟩
  | above => exact ⟨hlow, by dsimp only; omega, hleft, by dsimp only; omega⟩
  | hit => exact ⟨by dsimp only; omega, hhigh, by dsimp only; omega, hright⟩

/-- A round reads entries between its two bounds only, and the sum of these does not
overflow. -/
theorem Within.roundIn_eq (h : Within L R s) (hL : 0 ≤ L) (hR : R < t.entries.length)
    (hle : s.l ≤ s.r) :
    roundIn (t.window L R) type s = some (round (stabsOf t.entries) type s) := by
  obtain ⟨hlow, hhigh, _, _⟩ := h
  have hfits := t.fits
  have hsum : int32 (s.l + s.r) = s.l + s.r := int32_eq_self (by omega) (by omega)
  obtain ⟨hl, hr⟩ := middle_mem hle
  have hwalk : walkDownIn (typeAt (t.window L R) type) s.l ((s.l + s.r).tdiv 2) =
      some (walkDown (ofType (stabsOf t.entries) type) s.l ((s.l + s.r).tdiv 2)) :=
    walkDownIn_eq fun i hi him => typeAt_window hL hR ⟨by omega, by omega⟩
  have hstops := walkDown_stops (ofType (stabsOf t.entries) type) s.l ((s.l + s.r).tdiv 2)
  unfold roundIn StabSearch.round
  rw [hsum]
  dsimp only
  rw [hwalk, bind_eq_bind, bind_some]
  generalize walkDown (ofType (stabsOf t.entries) type) s.l ((s.l + s.r).tdiv 2) = m at hstops ⊢
  by_cases hm : m < s.l
  · rw [if_pos hm, if_pos hm]
    rfl
  · have hmt := hstops.le
    rw [if_neg hm, if_neg hm, window_eq hL hR ⟨by omega, by omega⟩, bind_eq_bind, bind_some]
    split
    · rfl
    · split <;> rfl

theorem Within.finishIn_eq (h : Within L R s) (hL : 0 ≤ L) (hR : R < t.entries.length) :
    finishIn (t.window L R) type s = some (finish (stabsOf t.entries) type s) := by
  obtain ⟨_, _, hleft, hright⟩ := h
  have hwalk : walkDownIn (typeAt (t.window L R) type) (s.regionLeft + 1) s.regionRight =
      some (walkDown (ofType (stabsOf t.entries) type) (s.regionLeft + 1) s.regionRight) :=
    walkDownIn_eq fun i hi him => typeAt_window hL hR ⟨by omega, by omega⟩
  rw [finishIn, finish, hwalk]
  cases s.anyMatches <;> rfl

end Bounds

/-- stab_binsearch is total. For every table, in any order, every range within it, every type
and every address, the search comes to its end and reads only entries of the range. -/
theorem stab_binsearch_total (t : StabTable) {L R : ℤ} (hL : 0 ≤ L) (hR : R < t.entries.length)
    (type : ℤ) (addr : Word) :
    stabBinsearchIn (t.window L R) type L R addr =
      some (stabBinsearch (stabsOf t.entries) L R type addr) := by
  have hround (s : Search) (h : Within L R s) (htest : decide (s.l ≤ s.r) = true) :
      Within L R (round (stabsOf t.entries) type s) ∧
        weight (stabsOf t.entries) type (round (stabsOf t.entries) type s) <
          weight (stabsOf t.entries) type s := by
    have hle : s.l ≤ s.r := of_decide_eq_true htest
    obtain ⟨hl, hr⟩ := middle_mem hle
    have hhalved := round_halved (stabsOf t.entries) type hle
    exact ⟨h.halved hl hr hhalved, hhalved.weight_lt hl hr⟩
  have hweight := Nat.lt_succ_of_le (weight_le (stabsOf t.entries) type (start L R addr))
  have hloop := whileIn_eq (Within L R) (weight (stabsOf t.entries) type) (fun _ _ => rfl)
    (fun s h htest => h.roundIn_eq hL hR (of_decide_eq_true htest)) hround
    (2 * (R + 1 - L).toNat + 2) (start L R addr) within_start hweight
  have hend := (whileLoop_spec _ _ (Within L R) (weight (stabsOf t.entries) type) hround
    (2 * (R + 1 - L).toNat + 2) (start L R addr) within_start hweight).1
  rw [stabBinsearchIn, hloop]
  exact hend.finishIn_eq hL hR

def unsorted : List Stab := [⟨0, 100, 0, 0xffffffff⟩, ⟨0, 100, 0, 5⟩]

theorem unsorted_fits : 12 * unsorted.length ≤ 2 ^ 32 := by decide

/-- The last address of the address space, after which the key is 0. -/
theorem stab_binsearch_total_unsorted :
    stabBinsearchIn (StabTable.window ⟨unsorted, unsorted_fits⟩ 0 1) 100 0 1 0xffffffff =
      some (stabBinsearch (stabsOf unsorted) 0 1 100 0xffffffff) :=
  stab_binsearch_total ⟨unsorted, unsorted_fits⟩ (by decide) (by decide) 100 0xffffffff

end KernelLabs.StabBounds

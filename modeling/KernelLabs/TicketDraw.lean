import Mathlib

/-!
A draw among weighted entries. The entries hold consecutive blocks of numbered
tickets, and a scan that adds up the weights stops at the block that contains the
chosen number. Over a list without repetitions each entry is hit by exactly as
many numbers as its weight.
-/
namespace KernelLabs.TicketDraw

variable {α : Type*}

def total (weight : α → ℤ) (entries : List α) : ℤ := (entries.map weight).sum

/-- The scan: the first entry at which the running sum reaches the chosen number. -/
def draw (weight : α → ℤ) (chosen : ℤ) : List α → ℤ → Option α
  | [], _ => none
  | a :: rest, counter =>
    if counter + weight a < chosen then draw weight chosen rest (counter + weight a) else some a

@[simp] theorem total_nil (weight : α → ℤ) : total weight [] = 0 := rfl

@[simp] theorem total_cons (weight : α → ℤ) (a : α) (rest : List α) :
    total weight (a :: rest) = weight a + total weight rest := by
  simp [total]

variable {weight : α → ℤ} {entries : List α}

theorem total_nonneg (h : ∀ a ∈ entries, 0 ≤ weight a) : 0 ≤ total weight entries := by
  refine List.sum_nonneg fun x hx => ?_
  obtain ⟨a, ha, rfl⟩ := List.mem_map.mp hx
  exact h a ha

theorem draw_mem {chosen : ℤ} {counter : ℤ} {a : α}
    (h : draw weight chosen entries counter = some a) : a ∈ entries := by
  induction entries generalizing counter with
  | nil => simp [draw] at h
  | cons b rest ih =>
    simp only [draw] at h
    split at h
    · exact List.mem_cons_of_mem _ (ih h)
    · exact Option.some.inj h ▸ List.mem_cons_self

/-- A number up to the total stops the scan somewhere. -/
theorem exists_draw {chosen : ℤ} {counter : ℤ}
    (hlow : counter < chosen) (hhigh : chosen ≤ counter + total weight entries) :
    ∃ a, draw weight chosen entries counter = some a := by
  induction entries generalizing counter with
  | nil =>
    rw [total_nil] at hhigh
    omega
  | cons b rest ih =>
    simp only [draw]
    split
    · rename_i hlt
      rw [total_cons] at hhigh
      exact ih hlt (by omega)
    · exact ⟨b, rfl⟩

/-- The numbers, above the counter and up to the total, that hit `a`. -/
noncomputable def hits [DecidableEq α] (weight : α → ℤ) (entries : List α) (counter : ℤ)
    (a : α) : Finset ℤ :=
  (Finset.Ioc counter (counter + total weight entries)).filter fun chosen =>
    draw weight chosen entries counter = some a

/-- The first entry is hit by its own block. -/
theorem hits_cons_self [DecidableEq α] {a : α} {rest : List α}
    (ha : a ∉ rest) (hrest : ∀ b ∈ rest, 0 ≤ weight b) (counter : ℤ) :
    hits weight (a :: rest) counter a = Finset.Ioc counter (counter + weight a) := by
  have htotal := total_nonneg hrest
  ext chosen
  simp only [hits, Finset.mem_filter, Finset.mem_Ioc, total_cons, draw]
  constructor
  · rintro ⟨⟨hlow, _⟩, hdraw⟩
    split at hdraw
    · exact absurd (draw_mem hdraw) ha
    · exact ⟨hlow, by omega⟩
  · rintro ⟨hlow, hhigh⟩
    exact ⟨⟨hlow, by omega⟩, by rw [if_neg (by omega)]⟩

/-- A later entry is hit by the numbers that hit it behind the first block. -/
theorem hits_cons_of_ne [DecidableEq α] {a b : α} (hne : b ≠ a)
    (hb : 0 ≤ weight b) (rest : List α) (counter : ℤ) :
    hits weight (b :: rest) counter a = hits weight rest (counter + weight b) a := by
  ext chosen
  simp only [hits, Finset.mem_filter, Finset.mem_Ioc, total_cons, draw]
  by_cases hlt : counter + weight b < chosen
  · rw [if_pos hlt]
    constructor
    · rintro ⟨⟨_, hhigh⟩, hdraw⟩
      exact ⟨⟨hlt, by omega⟩, hdraw⟩
    · rintro ⟨⟨_, hhigh⟩, hdraw⟩
      exact ⟨⟨by omega, by omega⟩, hdraw⟩
  · rw [if_neg hlt]
    constructor
    · rintro ⟨_, hdraw⟩
      exact absurd (Option.some.inj hdraw) hne
    · rintro ⟨⟨hlow, _⟩, _⟩
      exact absurd hlow hlt

/-- Every entry is hit by as many numbers as its weight. -/
theorem card_hits [DecidableEq α] (hnodup : entries.Nodup)
    (hweight : ∀ a ∈ entries, 0 ≤ weight a) {a : α} (ha : a ∈ entries) (counter : ℤ) :
    ((hits weight entries counter a).card : ℤ) = weight a := by
  induction entries generalizing counter with
  | nil => simp at ha
  | cons b rest ih =>
    obtain ⟨hb, hrest⟩ := List.nodup_cons.mp hnodup
    have hwrest : ∀ c ∈ rest, 0 ≤ weight c := fun c hc => hweight c (List.mem_cons_of_mem _ hc)
    have hwb : 0 ≤ weight b := hweight b List.mem_cons_self
    by_cases hba : b = a
    · subst hba
      rw [hits_cons_self hb hwrest, Int.card_Ioc]
      omega
    · rw [hits_cons_of_ne hba hwb]
      refine ih hrest hwrest ?_ _
      exact (List.mem_cons.mp ha).resolve_left fun h => hba h.symm

end KernelLabs.TicketDraw

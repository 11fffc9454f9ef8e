import Mathlib.Data.List.Infix
import Mathlib.Logic.Function.Basic

/-!
Singly linked lists through a function that gives every element its successor, as
a free list does through the links of its members. A head has at most one finite
chain, and a chain that ends has no repetition: the successor of an element that
came back would be fixed by its first visit.
-/
namespace KernelLabs.LinkedChain

open Function List

variable {α : Type*}

/-- Following `next` from `head` to the end reads the list. -/
inductive Chain (next : α → Option α) : Option α → List α → Prop
  | nil : Chain next none []
  | cons {a : α} {l : List α} (hrest : Chain next (next a) l) : Chain next (some a) (a :: l)

/-- An element is met when `next` is followed from `head`, whether or not the walk ends. -/
inductive OnList (next : α → Option α) : Option α → α → Prop
  | here (a : α) : OnList next (some a) a
  | there {a b : α} (hrest : OnList next (next b) a) : OnList next (some b) a

namespace Chain

variable {next : α → Option α} {head : Option α} {l : List α}

theorem unique (h : Chain next head l) {l' : List α} (h' : Chain next head l') : l = l' := by
  induction h generalizing l' with
  | nil =>
    cases h'
    rfl
  | cons _ ih =>
    cases h' with
    | cons hrest' => rw [ih hrest']

theorem of_nil (h : Chain next head []) : head = none := by
  cases h
  rfl

theorem of_cons {a : α} (h : Chain next head (a :: l)) : head = some a ∧ Chain next (next a) l := by
  cases h with
  | cons hrest => exact ⟨rfl, hrest⟩

section

variable (h : Chain next head l)

include h

theorem mem_iff (a : α) : a ∈ l ↔ OnList next head a := by
  induction h with
  | nil =>
    refine ⟨fun ha => absurd ha not_mem_nil, fun ha => ?_⟩
    cases ha
  | cons hrest ih =>
    rename_i b l
    constructor
    · intro ha
      rcases mem_cons.mp ha with rfl | ha
      · exact OnList.here a
      · exact OnList.there (ih.mp ha)
    · intro ha
      cases ha with
      | here => exact mem_cons_self
      | there hrest => exact mem_cons_of_mem _ (ih.mpr hrest)

/-- The rest of the chain from one of its members on. -/
theorem exists_suffix {a : α} (ha : a ∈ l) :
    ∃ rest, Chain next (some a) (a :: rest) ∧ a :: rest <:+ l := by
  induction h with
  | nil => exact absurd ha not_mem_nil
  | cons hrest ih =>
    rename_i b l
    by_cases hab : a = b
    · subst hab
      exact ⟨l, Chain.cons hrest, suffix_rfl⟩
    · obtain ⟨rest, hchain, hsuffix⟩ := ih ((mem_cons.mp ha).resolve_left hab)
      exact ⟨rest, hchain, hsuffix.trans (suffix_cons b l)⟩

theorem nodup : l.Nodup := by
  induction h with
  | nil => exact nodup_nil
  | cons hrest ih =>
    rename_i a l
    refine nodup_cons.mpr ⟨fun ha => ?_, ih⟩
    obtain ⟨rest, hchain, hsuffix⟩ := hrest.exists_suffix ha
    have heq := hchain.unique (Chain.cons hrest)
    have hlen := hsuffix.length_le
    rw [heq, length_cons] at hlen
    omega

/-- Only the links of the members count. -/
theorem congr {next' : α → Option α} (heq : ∀ a ∈ l, next' a = next a) : Chain next' head l := by
  induction h with
  | nil => exact Chain.nil
  | cons hrest ih =>
    rename_i a l
    refine Chain.cons ?_
    rw [heq a mem_cons_self]
    exact ih fun b hb => heq b (mem_cons_of_mem _ hb)

/-- Linking a new element in front. -/
theorem push [DecidableEq α] {a : α} (ha : a ∉ l) :
    Chain (update next a head) (some a) (a :: l) := by
  refine Chain.cons ?_
  rw [update_self]
  refine h.congr fun b hb => ?_
  have hba : b ≠ a := fun hba => ha (hba ▸ hb)
  exact update_of_ne hba _ _

end

/-- The rest of a chain does not depend on the link of its first element. -/
theorem pop [DecidableEq α] {a : α} (h : Chain next head (a :: l)) (x : Option α) :
    Chain (update next a x) (next a) l := by
  refine h.of_cons.2.congr fun b hb => ?_
  have hba : b ≠ a := fun hba => (nodup_cons.mp h.nodup).1 (hba ▸ hb)
  exact update_of_ne hba _ _

/-- Another list behind the last element. -/
theorem append (h : Chain next head l) {a : α} (ha : l.getLast? = some a)
    {next' : α → Option α} (heq : ∀ b ∈ l, b ≠ a → next' b = next b) {rest : List α}
    (hrest : Chain next' (next' a) rest) : Chain next' head (l ++ rest) := by
  induction h with
  | nil => cases ha
  | cons hl ih =>
    rename_i b l
    refine Chain.cons ?_
    cases l with
    | nil =>
      obtain rfl : b = a := Option.some.inj ha
      exact hrest
    | cons c l =>
      have hmem : a ∈ c :: l := mem_of_getLast? ha
      have hba : b ≠ a := by
        rintro rfl
        exact (nodup_cons.mp (Chain.cons hl).nodup).1 hmem
      rw [heq b mem_cons_self hba]
      exact ih ha fun d hd hda => heq d (mem_cons_of_mem b hd) hda

/-- A list that is linked as the images of its elements are. -/
theorem of_map {β : Type*} {f : α → β} (hf : Injective f) {next' : β → Option β}
    (hnext : ∀ a, next' (f a) = (next a).map f) (h : Chain next' (head.map f) (l.map f)) :
    Chain next head l := by
  induction l generalizing head with
  | nil =>
    rw [Option.map_eq_none_iff.mp h.of_nil]
    exact nil
  | cons a l ih =>
    obtain ⟨hhead, hrest⟩ := of_cons h
    obtain ⟨b, rfl, hb⟩ := Option.map_eq_some_iff.mp hhead
    obtain rfl := hf hb
    rw [hnext] at hrest
    exact cons (ih hrest)

/-- A loop that links some elements in front and otherwise changes at most the link of one
element `z`, which is not among them. -/
theorem foldl_push [DecidableEq α] {σ : Type*} (links : σ → α → Option α) (first : σ → Option α)
    (step : σ → α → σ) {p : α → Prop} [DecidablePred p] {z : α}
    (hpush : ∀ s a, p a → links (step s a) = update (links s) a (first s) ∧
      first (step s a) = some a)
    (hskip : ∀ s a, ¬ p a → (∀ b, b ≠ z → links (step s a) b = links s b) ∧
      first (step s a) = first s)
    (is : List α) {s : σ} {l : List α} (h : Chain (links s) (first s) l) (hz : z ∉ is ∧ z ∉ l)
    (hnodup : is.Nodup) (hdisj : ∀ a ∈ is, a ∉ l) :
    Chain (links (is.foldl step s)) (first (is.foldl step s)) ((is.filter p).reverse ++ l) := by
  induction is generalizing s l with
  | nil => exact h
  | cons a is ih =>
    obtain ⟨ha, hnodup⟩ := nodup_cons.mp hnodup
    have hza : z ≠ a ∧ z ∉ is := by simpa using hz.1
    have hrest : ∀ b ∈ is, b ∉ l := fun b hb => hdisj b (mem_cons_of_mem _ hb)
    rw [foldl_cons]
    by_cases hp : p a
    · obtain ⟨hlinks, hfirst⟩ := hpush s a hp
      have hnext : Chain (links (step s a)) (first (step s a)) (a :: l) := by
        rw [hlinks, hfirst]
        exact h.push (hdisj a mem_cons_self)
      rw [filter_cons_of_pos (by simpa using hp), reverse_cons, append_assoc]
      refine ih hnext ⟨hza.2, ?_⟩ hnodup fun b hb => ?_
      · simpa using ⟨hza.1, hz.2⟩
      · have hba : b ≠ a := fun heq => ha (heq ▸ hb)
        simpa using ⟨hba, hrest b hb⟩
    · obtain ⟨hlinks, hfirst⟩ := hskip s a hp
      have hnext : Chain (links (step s a)) (first (step s a)) l := by
        rw [hfirst]
        exact h.congr fun b hb => hlinks b fun heq => hz.2 (heq ▸ hb)
      rw [filter_cons_of_neg (by simpa using hp)]
      exact ih hnext ⟨hza.2, hz.2⟩ hnodup hrest

end Chain

end KernelLabs.LinkedChain

import KernelLabs.RingBuffer
import Mathlib.Data.List.Induction

/-!
The console input buffer of JOS (kern/console.c). cons_intr stores characters without a look at
the read position, and the two positions go back to zero at the end of the buffer, so they are
counters of nine bits. With up to 511 characters waiting the buffer is a queue; the 512th
brings the write position to the read position, and the buffer counts as empty.
-/
namespace KernelLabs.ConsoleRing

open RingBuffer List

abbrev CONSBUFSIZE : ℕ := 512

instance : NeZero CONSBUFSIZE := ⟨by decide⟩

theorem wrapped_lt (pos : Fin CONSBUFSIZE) :
    (if pos.val + 1 = CONSBUFSIZE then 0 else pos.val + 1) < CONSBUFSIZE := by
  have := pos.isLt
  split <;> omega

def advance (pos : Fin CONSBUFSIZE) : Fin CONSBUFSIZE :=
  ⟨if pos.val + 1 = CONSBUFSIZE then 0 else pos.val + 1, wrapped_lt pos⟩

/-- The struct cons. Outside its functions the positions are below CONSBUFSIZE. -/
structure Cons where
  buf : Fin CONSBUFSIZE → UInt8
  rpos : Fin CONSBUFSIZE
  wpos : Fin CONSBUFSIZE

def Cons.store (s : Cons) (c : UInt8) : Cons :=
  if c = 0 then s
  else { s with buf := Function.update s.buf s.wpos c, wpos := advance s.wpos }

/-- cons_intr, with the characters that the device's routine delivers before its -1. -/
def consIntr (s : Cons) (chars : List UInt8) : Cons := chars.foldl Cons.store s

def Cons.take (s : Cons) : UInt8 × Cons :=
  if s.rpos ≠ s.wpos then (s.buf s.rpos, { s with rpos := advance s.rpos }) else (0, s)

/-- cons_getc, with the characters that the polls of the serial port and of the keyboard find. -/
def consGetc (s : Cons) (serial kbd : List UInt8) : UInt8 × Cons :=
  (consIntr (consIntr s serial) kbd).take

/-- A character that cons_intr stores, or the end of cons_getc. The stores of a call of
cons_intr, from an interrupt or from a poll, are single events. -/
inductive Event
  | arrive (c : UInt8)
  | getc
  deriving DecidableEq, Repr

/-- The buffer with the characters that were stored and those that were returned. -/
structure History where
  cons : Cons
  stored : List UInt8
  returned : List UInt8

def History.step (h : History) : Event → History
  | .arrive c =>
    { h with cons := h.cons.store c, stored := if c = 0 then h.stored else h.stored ++ [c] }
  | .getc =>
    { h with
      cons := h.cons.take.2
      returned := if h.cons.take.1 = 0 then h.returned else h.returned ++ [h.cons.take.1] }

def boot : Cons := ⟨fun _ => 0, ⟨0, Nat.zero_lt_succ 511⟩, ⟨0, Nat.zero_lt_succ 511⟩⟩

def history (events : List Event) : History := events.foldl History.step ⟨boot, [], []⟩

/-- What the next calls of cons_getc return when nothing arrives, up to `fuel` of them. -/
def drain : ℕ → Cons → List UInt8
  | 0, _ => []
  | fuel + 1, s => if s.take.1 = 0 then [] else s.take.1 :: drain fuel s.take.2

def remaining (s : Cons) : List UInt8 := drain CONSBUFSIZE s

/-- The buffer the comment asks for: it holds up to CONSBUFSIZE - 1 characters and loses one
for each that arrives beyond. -/
structure Tally where
  pending : ℕ
  excess : ℕ

def Tally.step (t : Tally) : Event → Tally
  | .arrive c =>
    if c = 0 then t
    else if t.pending = CONSBUFSIZE - 1 then { t with excess := t.excess + 1 }
    else { t with pending := t.pending + 1 }
  | .getc => { t with pending := t.pending - 1 }

def tally (events : List Event) : Tally := events.foldl Tally.step ⟨0, 0⟩

/-- Nothing but the excess is lost: what was returned, with what can still be returned, is in
the order of arrival and misses no more characters than the excess; when cons_getc finds
nothing, every other character has been returned. -/
structure Kept (events : List Event) : Prop where
  ordered : ((history events).returned ++ remaining (history events).cons).Sublist
    (history events).stored
  dropped : (history events).stored.length ≤ (history events).returned.length +
    (remaining (history events).cons).length + (tally events).excess
  empty : (history events).cons.take.1 = 0 →
    (history events).stored.length ≤ (history events).returned.length + (tally events).excess

section Events

/-- A call of cons_intr is the sequence of its stores. -/
theorem foldl_arrive (chars : List UInt8) (h : History) :
    ((chars.map Event.arrive).foldl History.step h).cons = consIntr h.cons chars := by
  induction chars generalizing h with
  | nil => rfl
  | cons c rest ih => exact ih (h.step (.arrive c))

/-- A call of cons_getc is the stores of its polls and the event at its end. -/
theorem foldl_getc (serial kbd : List UInt8) (h : History) :
    ((serial.map Event.arrive ++ kbd.map Event.arrive ++ [Event.getc]).foldl History.step h).cons =
      (consGetc h.cons serial kbd).2 := by
  simp only [foldl_append, foldl_cons, foldl_nil, History.step, foldl_arrive, consGetc]

theorem history_concat (events : List Event) (e : Event) :
    history (events ++ [e]) = (history events).step e := by
  rw [history, foldl_append, history]
  rfl

theorem tally_concat (events : List Event) (e : Event) :
    tally (events ++ [e]) = (tally events).step e := by
  rw [tally, foldl_append, tally]
  rfl

theorem excess_le_step (t : Tally) (e : Event) : t.excess ≤ (t.step e).excess := by
  cases e with
  | arrive c =>
    rw [Tally.step]
    split
    · exact le_rfl
    · split
      · exact Nat.le_succ _
      · exact le_rfl
  | getc => exact le_rfl

theorem excess_mono {before events : List Event} (h : before <+: events) :
    (tally before).excess ≤ (tally events).excess := by
  obtain ⟨rest, rfl⟩ := h
  induction rest using reverseRecOn with
  | nil => rw [append_nil]
  | append_singleton rest e ih =>
    rw [← append_assoc, tally_concat]
    exact ih.trans (excess_le_step _ e)

end Events

section Positions

def counter (pos : Fin CONSBUFSIZE) : BitVec 9 := BitVec.ofNat 9 pos

theorem toNat_counter (pos : Fin CONSBUFSIZE) : (counter pos).toNat = pos := by
  rw [counter, BitVec.toNat_ofNat, Nat.mod_eq_of_lt pos.isLt]

theorem slot_counter (pos : Fin CONSBUFSIZE) : slot CONSBUFSIZE (counter pos) = pos := by
  apply Fin.ext
  show (counter pos).toNat % CONSBUFSIZE = pos
  rw [toNat_counter, Nat.mod_eq_of_lt pos.isLt]

theorem counter_advance (pos : Fin CONSBUFSIZE) : counter (advance pos) = counter pos + 1 := by
  apply BitVec.eq_of_toNat_eq
  rw [BitVec.toNat_add, toNat_counter, toNat_counter]
  have hlt := pos.isLt
  simp only [advance, CONSBUFSIZE, show (1 : BitVec 9).toNat = 1 from rfl] at hlt ⊢
  split
  · rename_i hend
    rw [hend]
  · rw [Nat.mod_eq_of_lt (by omega)]

theorem counter_inj {a b : Fin CONSBUFSIZE} : counter a = counter b ↔ a = b := by
  constructor
  · intro h
    apply Fin.ext
    rw [← toNat_counter a, ← toNat_counter b, h]
  · intro h
    rw [h]

/-- The characters wait in the buffer, and there is room for another. -/
structure Waiting (s : Cons) (pending : List UInt8) : Prop where
  holds : Holds s.buf (counter s.rpos) (counter s.wpos) pending
  room : pending.length < CONSBUFSIZE
  nonzero : 0 ∉ pending

namespace Waiting

variable {s : Cons} {pending : List UInt8} {c : UInt8}

theorem nil (buf : Fin CONSBUFSIZE → UInt8) (pos : Fin CONSBUFSIZE) : Waiting ⟨buf, pos, pos⟩ [] where
  holds := Holds.nil _ _
  room := Nat.zero_lt_succ _
  nonzero := by simp

/-- The test of cons_getc: with less than a whole buffer waiting the positions agree only
when nothing waits. -/
theorem empty_iff (h : Waiting s pending) : s.rpos = s.wpos ↔ pending = [] := by
  have hroom := h.room
  rw [← counter_inj, h.holds.behind, ← length_eq_zero_iff]
  constructor
  · intro heq
    have hzero : counter s.rpos + BitVec.ofNat 9 0 =
        counter s.rpos + BitVec.ofNat 9 pending.length := by
      rw [← heq]
      simp
    exact ((add_ofNat_inj _ (by decide) hroom).mp hzero).symm
  · intro hlength
    rw [hlength]
    simp

theorem store_holds (h : Waiting s pending) (hc : c ≠ 0) :
    Holds (s.store c).buf (counter (s.store c).rpos) (counter (s.store c).wpos)
      (pending ++ [c]) := by
  have hpush := h.holds.push (by decide) h.room c
  rw [slot_counter] at hpush
  rw [Cons.store, if_neg hc]
  simp only [counter_advance]
  exact hpush

theorem store (h : Waiting s pending) (hc : c ≠ 0) (hlt : pending.length < CONSBUFSIZE - 1) :
    Waiting (s.store c) (pending ++ [c]) where
  holds := h.store_holds hc
  room := by
    rw [length_append, length_singleton]
    omega
  nonzero := by
    rw [mem_append, mem_singleton, not_or]
    exact ⟨h.nonzero, hc.symm⟩

theorem store_full (h : Waiting s pending) (hc : c ≠ 0) (hfull : pending.length = CONSBUFSIZE - 1) :
    Waiting (s.store c) [] := by
  have hbehind := (h.store_holds hc).behind
  rw [length_append, length_singleton, hfull] at hbehind
  have heq : (s.store c).rpos = (s.store c).wpos := by
    rw [← counter_inj, hbehind]
    simp
  have hnil := nil (s.store c).buf (s.store c).wpos
  nth_rewrite 1 [← heq] at hnil
  exact hnil

theorem take_nil (h : Waiting s []) : s.take = (0, s) := by
  rw [Cons.take, if_neg (not_not_intro (h.empty_iff.mpr rfl))]

theorem take_cons {rest : List UInt8} (h : Waiting s (c :: rest)) :
    s.take.1 = c ∧ Waiting s.take.2 rest := by
  have hne : s.rpos ≠ s.wpos := fun heq => by simpa using h.empty_iff.mp heq
  obtain ⟨hfront, hrest⟩ := h.holds.pop
  rw [slot_counter] at hfront
  rw [Cons.take, if_pos hne]
  refine ⟨hfront, ?_, ?_, ?_⟩
  · rw [← counter_advance] at hrest
    exact hrest
  · have := h.room
    rw [length_cons] at this
    omega
  · exact fun hmem => h.nonzero (mem_cons_of_mem _ hmem)

theorem drain_eq (h : Waiting s pending) {fuel : ℕ} (hfuel : pending.length ≤ fuel) :
    drain fuel s = pending := by
  induction fuel generalizing s pending with
  | zero =>
    rw [length_eq_zero_iff.mp (Nat.le_zero.mp hfuel)]
    rfl
  | succ fuel ih =>
    cases pending with
    | nil => rw [drain, h.take_nil, if_pos rfl]
    | cons c rest =>
      obtain ⟨hfirst, hrest⟩ := h.take_cons
      have hc : c ≠ 0 := fun hzero => h.nonzero (hzero ▸ mem_cons_self)
      rw [drain, hfirst, if_neg hc, ih hrest (by simpa using hfuel)]

theorem remaining_eq (h : Waiting s pending) : remaining s = pending :=
  h.drain_eq h.room.le

end Waiting

end Positions

/-- Without excess the buffer is a queue of the characters that were not returned. -/
structure Queued (events : List Event) (pending : List UInt8) : Prop where
  waiting : Waiting (history events).cons pending
  stored : (history events).stored = (history events).returned ++ pending
  count : (tally events).pending = pending.length

theorem queued_nil : Queued [] [] where
  waiting := Waiting.nil _ _
  stored := rfl
  count := rfl

variable {events : List Event} {pending : List UInt8}

theorem Queued.kept (h : Queued events pending) : Kept events where
  ordered := by
    simp only [h.waiting.remaining_eq, h.stored, List.Sublist.refl]
  dropped := by
    rw [h.waiting.remaining_eq, h.stored, length_append]
    omega
  empty := by
    intro hzero
    cases pending with
    | nil =>
      rw [h.stored, append_nil]
      omega
    | cons c rest =>
      rw [h.waiting.take_cons.1] at hzero
      exact absurd (hzero ▸ mem_cons_self) h.waiting.nonzero

theorem Queued.step (h : Queued events pending)
    (e : Event) (hexcess : (tally (events ++ [e])).excess = (tally events).excess) :
    ∃ pending', Queued (events ++ [e]) pending' := by
  cases e with
  | arrive c =>
    by_cases hc : c = 0
    · refine ⟨pending, ?_, ?_, ?_⟩
      · rw [history_concat, History.step, Cons.store, if_pos hc]
        exact h.waiting
      · rw [history_concat, History.step, if_pos hc]
        exact h.stored
      · rw [tally_concat, Tally.step, if_pos hc]
        exact h.count
    · by_cases hfull : (tally events).pending = CONSBUFSIZE - 1
      · rw [tally_concat, Tally.step, if_neg hc, if_pos hfull] at hexcess
        exact absurd hexcess (Nat.succ_ne_self _)
      · have hroom := h.waiting.room
        rw [h.count] at hfull
        refine ⟨pending ++ [c], ?_, ?_, ?_⟩
        · rw [history_concat]
          exact h.waiting.store hc (by omega)
        · rw [history_concat, History.step, if_neg hc]
          simp only [h.stored, append_assoc]
        · rw [tally_concat, Tally.step, if_neg hc, if_neg (by rw [h.count]; exact hfull)]
          simp only [h.count, length_append, length_singleton]
  | getc =>
    cases pending with
    | nil =>
      refine ⟨[], ?_, ?_, ?_⟩
      · rw [history_concat, History.step, h.waiting.take_nil]
        exact h.waiting
      · rw [history_concat, History.step, h.waiting.take_nil, if_pos rfl]
        exact h.stored
      · rw [tally_concat, Tally.step]
        simp only [h.count, length_nil]
    | cons c rest =>
      obtain ⟨hfirst, hrest⟩ := h.waiting.take_cons
      have hc : c ≠ 0 := fun hzero => h.waiting.nonzero (hzero ▸ mem_cons_self)
      refine ⟨rest, ?_, ?_, ?_⟩
      · rw [history_concat]
        exact hrest
      · rw [history_concat, History.step, hfirst, if_neg hc]
        simp only [h.stored, append_assoc, singleton_append]
      · rw [tally_concat, Tally.step]
        simp only [h.count, length_cons, Nat.add_sub_cancel]

theorem exists_queued (hexcess : (tally events).excess = 0) : ∃ pending, Queued events pending := by
  induction events using reverseRecOn with
  | nil => exact ⟨[], queued_nil⟩
  | append_singleton events e ih =>
    have hle := excess_mono (prefix_append events [e])
    have hbefore : (tally events).excess = 0 := by omega
    obtain ⟨pending, hqueued⟩ := ih hbefore
    exact hqueued.step e (by omega)

/-- The first character beyond the 511 that wait: all of them are lost with it. -/
theorem Queued.not_kept (h : Queued events pending) (hnone : (tally events).excess = 0) {e : Event}
    (hexcess : (tally (events ++ [e])).excess ≠ 0) : ¬ Kept (events ++ [e]) := by
  cases e with
  | getc =>
    rw [tally_concat, Tally.step] at hexcess
    exact absurd hnone hexcess
  | arrive c =>
    rw [tally_concat, Tally.step] at hexcess
    by_cases hc : c = 0
    · rw [if_pos hc] at hexcess
      exact absurd hnone hexcess
    by_cases hfull : (tally events).pending = CONSBUFSIZE - 1
    swap
    · rw [if_neg hc, if_neg hfull] at hexcess
      exact absurd hnone hexcess
    intro hkept
    have hwaiting := h.waiting.store_full hc (h.count ▸ hfull)
    have hdropped := hkept.dropped
    have hremaining : (remaining ((history events).cons.store c)).length = 0 := by
      rw [hwaiting.remaining_eq]
      rfl
    have hcount := h.count
    rw [hfull, show CONSBUFSIZE - 1 = 511 from rfl] at hcount
    rw [tally_concat, history_concat] at hdropped
    simp only [Tally.step, History.step, if_neg hc, if_pos hfull, length_append, h.stored,
      length_singleton, hremaining, hnone] at hdropped
    omega

/-- Over every interleaving of stores and calls of cons_getc: nothing but the excess over
CONSBUFSIZE - 1 is ever lost if and only if there is no excess at all. -/
theorem characters_kept_iff (events : List Event) :
    (∀ before, before <+: events → Kept before) ↔ (tally events).excess = 0 := by
  constructor
  · induction events using reverseRecOn with
    | nil => exact fun _ => rfl
    | append_singleton events e ih =>
      intro hkept
      have hbefore : (tally events).excess = 0 :=
        ih fun before hfront => hkept before (hfront.trans (prefix_append events [e]))
      obtain ⟨pending, hqueued⟩ := exists_queued hbefore
      by_contra hexcess
      exact hqueued.not_kept hbefore hexcess (hkept _ (prefix_refl _))
  · intro hexcess before hfront
    have hle := excess_mono hfront
    obtain ⟨pending, hqueued⟩ := exists_queued (show (tally before).excess = 0 by omega)
    exact hqueued.kept

/-- One character stored and returned. -/
theorem characters_kept_one :
    Kept [.arrive 97, .getc] ∧ (history [.arrive 97, .getc]).returned = [97] :=
  ⟨(characters_kept_iff [.arrive 97, .getc]).mpr (by decide) _ (prefix_refl _), by decide⟩

/-- 512 characters arrive before the first call of cons_getc, which returns 0: all of them
are lost, where the excess is one. -/
theorem full_buffer_lost :
    (history (replicate CONSBUFSIZE (.arrive 97))).cons.take.1 = 0 ∧
      (tally (replicate CONSBUFSIZE (.arrive 97))).excess = 1 ∧
      ¬ ∀ events, Kept events := by
  have hexcess : (tally (replicate CONSBUFSIZE (.arrive 97))).excess = 1 := by
    decide +kernel
  refine ⟨by decide +kernel, hexcess, fun hkept => ?_⟩
  have hbefore : (tally (replicate 511 (.arrive 97))).excess = 0 := by
    decide +kernel
  obtain ⟨pending, hqueued⟩ := exists_queued hbefore
  refine hqueued.not_kept hbefore (e := .arrive 97) ?_ (hkept _)
  rw [← replicate_succ', hexcess]
  exact one_ne_zero

end KernelLabs.ConsoleRing

import KernelLabs.DrawRange

/-!
The tickets that can win. rand keeps the timestamp modulo 100, so it returns at most a hundred
different numbers from 0 to 4929, and the draw takes the remainder of one of them by the total.
Every ticket of a total wins at some date only if these remainders meet every residue, which
is so for the totals of a finite list. Above them some ticket never wins, and a process that
holds no other ticket is never dispatched.
-/
namespace KernelLabs.Lottery

open MachineWords ProcTable ProcLife Runs TicketDraw List Finset

/-- What rand returns for a timestamp that leaves the remainder `seed` by 100. -/
def randValue (seed : ℕ) : ℕ := (1593 * seed + 1042) % 4930

/-- Every residue by `T` is the remainder of a value of rand. -/
def covers (T : ℕ) : Bool :=
  (List.range T).all fun v => (List.range 100).any fun seed => randValue seed % T == v

def winningTotals : List ℤ :=
  [1, 2, 3, 4, 5, 6, 7, 8, 9, 10, 11, 12, 13, 14, 15, 16, 17, 18, 19, 20, 21, 22, 23, 24, 25, 26,
    27, 28, 29, 30, 31, 32, 33, 34, 36, 37, 40, 41, 42, 44, 45, 46, 47, 48, 49, 50, 51, 52, 53, 54,
    58, 64, 65, 80, 81, 85, 89]

def CanWin (T t : ℤ) : Prop := ∃ r, InRange r ∧ chosenTicket r T = t

def CanRun (k : Kernel) (p : Slot) : Prop :=
  ∃ r, InRange r ∧ Kernel.Dispatched k (lotterysched k k r) p

theorem covers_iff {T : ℕ} : covers T = true ↔ ∀ v < T, ∃ seed < 100, randValue seed % T = v := by
  simp [covers]

section Draws

variable {T t : ℤ}

theorem rand_eq_randValue {r : RtcDate} {seed : ℕ} (hseed : seed < 100)
    (hstamp : (int32 (timestamp r)).tmod 100 = seed) : rand r = randValue seed := by
  rw [rand, ← timestamp, hstamp, int32_eq_self (by omega) (by omega),
    Int.tmod_eq_emod_of_nonneg (by omega), randValue]
  omega

/-- A minute and a half of the first of January 2000 has every remainder by 100. -/
theorem exists_date {seed : ℕ} (hseed : seed < 100) : ∃ r, InRange r ∧ rand r = randValue seed := by
  have hsecond : seed % 60 < 60 := Nat.mod_lt _ (by decide)
  have hminute : seed / 60 < 60 := by omega
  refine ⟨⟨seed % 60, seed / 60, 0, 1, 1, 2000⟩, ⟨hsecond, hminute, Nat.zero_lt_succ _,
    ⟨le_rfl, Nat.le_add_left 1 30⟩, ⟨le_rfl, Nat.le_add_left 1 11⟩,
    ⟨le_rfl, Nat.le_add_right 2000 99⟩⟩, ?_⟩
  apply rand_eq_randValue hseed
  have hdate : timestamp ⟨seed % 60, seed / 60, 0, 1, 1, 2000⟩ = seed + 946080000 := by
    simp only [timestamp]
    omega
  rw [hdate, int32_eq_self (by omega) (by omega), Int.tmod_eq_emod_of_nonneg (by omega)]
  omega

/-- A draw that is not below the first ticket comes from a value of rand that is not
negative: a negative one can only give the first ticket, which the value 0 gives as well. -/
theorem chosenTicket_eq {r : RtcDate} (hT : 1 ≤ T) (hfit : T ≤ INT_MAX) (ht : 1 ≤ chosenTicket r T) :
    ∃ seed < 100, chosenTicket r T = (randValue seed : ℤ) % T + 1 := by
  have hlow := Int.lt_tmod_of_pos (rand r) (show 0 < T by omega)
  have hhigh := Int.tmod_lt_of_pos (rand r) (show 0 < T by omega)
  rw [INT_MAX] at hfit
  rw [chosenTicket, int32_eq_self (by omega) (by omega)] at ht ⊢
  by_cases hneg : rand r < 0
  · have hle := tmod_nonpos (b := T) hneg.le
    refine ⟨86, by decide, ?_⟩
    rw [show randValue 86 = 0 by decide, Int.natCast_zero, Int.zero_emod]
    omega
  · rw [not_lt] at hneg
    have hseed := rand_nonneg_iff.mp hneg
    have hhundred := Int.tmod_lt_of_pos (int32 (timestamp r)) (show (0 : ℤ) < 100 by decide)
    obtain ⟨seed, hcast⟩ := Int.eq_ofNat_of_zero_le hseed
    refine ⟨seed, by omega, ?_⟩
    rw [rand_eq_randValue (by omega) hcast, Int.tmod_eq_emod_of_nonneg (by omega)]

/-- The tickets that can win are the remainders of the values of rand. -/
theorem canWin_iff (hT : 1 ≤ T) (hfit : T ≤ INT_MAX) (ht : 1 ≤ t) :
    CanWin T t ↔ ∃ seed < 100, t = (randValue seed : ℤ) % T + 1 := by
  constructor
  · intro h
    obtain ⟨r, _, rfl⟩ := h
    exact chosenTicket_eq hT hfit ht
  · intro h
    obtain ⟨seed, hseed, rfl⟩ := h
    obtain ⟨r, hrange, hrand⟩ := exists_date hseed
    refine ⟨r, hrange, ?_⟩
    have hlow := Int.emod_nonneg (randValue seed : ℤ) (show T ≠ 0 by omega)
    have hhigh := Int.emod_lt_of_pos (randValue seed : ℤ) (show 0 < T by omega)
    rw [INT_MAX] at hfit
    rw [chosenTicket, hrand, Int.tmod_eq_emod_of_nonneg (by omega),
      int32_eq_self (by omega) (by omega)]

theorem all_canWin_iff_covers {T : ℕ} (hT : 1 ≤ T) (hfit : (T : ℤ) ≤ INT_MAX) :
    (∀ t : ℤ, 1 ≤ t → t ≤ T → CanWin T t) ↔ covers T = true := by
  rw [covers_iff]
  constructor
  · intro h v hv
    obtain ⟨seed, hseed, heq⟩ :=
      (canWin_iff (by omega) hfit (by omega)).mp (h (v + 1) (by omega) (by omega))
    exact ⟨seed, hseed, by omega⟩
  · intro h t hlow hhigh
    obtain ⟨v, hv⟩ := Int.eq_ofNat_of_zero_le (show 0 ≤ t - 1 by omega)
    obtain ⟨seed, hseed, heq⟩ := h v (by omega)
    refine (canWin_iff (by omega) hfit hlow).mpr ⟨seed, hseed, ?_⟩
    omega

/-- A hundred values cannot meet more than a hundred residues. -/
theorem le_of_covers {T : ℕ} (h : covers T = true) : T ≤ 100 := by
  rw [covers_iff] at h
  have hsub : Finset.range T ⊆ (Finset.range 100).image fun seed => randValue seed % T := by
    intro v hv
    obtain ⟨seed, hseed, heq⟩ := h v (Finset.mem_range.mp hv)
    exact mem_image.mpr ⟨seed, Finset.mem_range.mpr hseed, heq⟩
  have hcard := (card_le_card hsub).trans card_image_le
  rwa [card_range, card_range] at hcard

theorem covers_iff_mem_of_le :
    ∀ T ∈ List.range 101, 1 ≤ T → (covers T = true ↔ (T : ℤ) ∈ winningTotals) := by
  decide +kernel

theorem le_of_mem_winningTotals : ∀ T ∈ winningTotals, 1 ≤ T ∧ T ≤ 89 := by
  decide

/-- Every ticket of a total can win if and only if the total is in the list. -/
theorem all_canWin_iff (hT : 1 ≤ T) (hfit : T ≤ INT_MAX) :
    (∀ t, 1 ≤ t → t ≤ T → CanWin T t) ↔ T ∈ winningTotals := by
  obtain ⟨n, rfl⟩ := Int.eq_ofNat_of_zero_le (show 0 ≤ T by omega)
  rw [all_canWin_iff_covers (by omega) hfit]
  by_cases hsmall : n ≤ 100
  · exact covers_iff_mem_of_le n (List.mem_range.mpr (by omega)) (by omega)
  · refine iff_of_false (fun h => hsmall (le_of_covers h)) fun h => ?_
    have := (le_of_mem_winningTotals _ h).2
    omega

end Draws

variable {k : Kernel}

theorem scanTickets_mem {chosen counter : ℤ} {l : List Slot} {p : Slot}
    (h : scanTickets k chosen l counter = some p) : p ∈ l := by
  induction l generalizing counter with
  | nil => simp [scanTickets] at h
  | cons q rest ih =>
    rw [scanTickets] at h
    split at h
    · exact List.mem_cons_of_mem _ (ih h)
    · split at h
      · exact List.mem_cons_of_mem _ (ih h)
      · exact Option.some.inj h ▸ List.mem_cons_self

/-- The process at which the running sum passes the largest int: the counter is negative
there, so no draw stops at it. -/
theorem exists_never_drawn {l : List Slot} (hnodup : l.Nodup)
    (hok : ∀ p ∈ runnables k l, 1 ≤ tickets k p ∧ tickets k p ≤ INT_MAX) {counter : ℤ}
    (hlow : 0 ≤ counter) (hhigh : counter ≤ INT_MAX)
    (hpast : INT_MAX < counter + total (tickets k) (runnables k l)) :
    ∃ p ∈ runnables k l, ∀ chosen, (0 < counter → counter < chosen) →
      scanTickets k chosen l counter ≠ some p := by
  induction l generalizing counter with
  | nil =>
    simp only [runnables, filter_nil, total_nil] at hpast
    omega
  | cons q rest ih =>
    obtain ⟨hq, hrest⟩ := nodup_cons.mp hnodup
    by_cases hrun : Runnable k q
    · rw [runnables_cons_pos hrun] at hok hpast ⊢
      rw [total_cons] at hpast
      obtain ⟨hone, hmax⟩ := hok q List.mem_cons_self
      have htail : ∀ p ∈ runnables k rest, 1 ≤ tickets k p ∧ tickets k p ≤ INT_MAX :=
        fun p hp => hok p (List.mem_cons_of_mem _ hp)
      by_cases hfit : counter + tickets k q ≤ INT_MAX
      · obtain ⟨p, hp, hnever⟩ := ih hrest htail (show 0 ≤ counter + tickets k q by omega) hfit
          (by omega)
        refine ⟨p, List.mem_cons_of_mem _ hp, fun chosen _ => ?_⟩
        have hne : q ≠ p := fun heq => hq (heq ▸ (mem_runnables.mp hp).1)
        have hsum : int32 (counter + tickets k q) = counter + tickets k q := by
          rw [INT_MAX] at hfit
          exact int32_eq_self (by omega) (by omega)
        rw [scanTickets, if_neg (not_not_intro hrun), hsum]
        split
        · rename_i hlt
          exact hnever chosen fun _ => hlt
        · simpa using hne
      · refine ⟨q, List.mem_cons_self, fun chosen hchosen => ?_⟩
        have hneg : int32 (counter + tickets k q) < chosen := by
          have hlt := hchosen (by omega)
          rw [INT_MAX] at hfit hmax hhigh
          rw [int32_eq_emod]
          split <;> omega
        rw [scanTickets, if_neg (not_not_intro hrun), if_pos hneg]
        intro hscan
        exact hq (scanTickets_mem hscan)
    · rw [runnables_cons_neg hrun] at hok hpast ⊢
      obtain ⟨p, hp, hnever⟩ := ih hrest hok hlow hhigh hpast
      refine ⟨p, hp, fun chosen hchosen => ?_⟩
      rw [scanTickets, if_pos hrun]
      exact hnever chosen hchosen

/-- lotterysched dispatches a process at the dates that draw one of its tickets. -/
theorem dispatched_lotterysched (hpos : 0 < runnableTickets k) (r : RtcDate)
    (p : Slot) : Kernel.Dispatched k (lotterysched k k r) p ↔
      drawTicket k (chosenTicket r (runnableTickets k)) = some p := by
  rw [lotterysched, if_pos hpos, dispatched_dispatchHolder]

theorem runnableTickets_eq_ticketSum {s : Sys} (h : TicketsOk s)
    (hfit : ticketSum s.kern ≤ INT_MAX) : runnableTickets s.kern = ticketSum s.kern := by
  have hnonneg : 0 ≤ ticketSum s.kern := by
    apply total_nonneg
    intro p hp
    have := (h.runnable (mem_runnables_finRange.mp hp)).1
    omega
  rw [INT_MAX] at hfit
  rw [runnableTickets_eq, int32_eq_self (by omega) (by omega)]

/-- Some ticket up to the sum is held by a RUNNABLE process. -/
theorem exists_ticket {s : Sys} (h : TicketsOk s) (hfit : ticketSum s.kern ≤ INT_MAX) {p : Slot}
    (hp : Runnable s.kern p) :
    ∃ t, 1 ≤ t ∧ t ≤ ticketSum s.kern ∧ drawTicket s.kern t = some p := by
  have hnodup : (runnables s.kern (finRange NPROC)).Nodup := (nodup_finRange NPROC).filter _
  have hweight : ∀ q ∈ runnables s.kern (finRange NPROC), 0 ≤ tickets s.kern q := by
    intro q hq
    have := (h.runnable (mem_runnables_finRange.mp hq)).1
    omega
  have hcard := card_hits hnodup hweight (mem_runnables_finRange.mpr hp) 0
  have hone := (h.runnable hp).1
  have hsome : 0 < (hits (tickets s.kern) (runnables s.kern (finRange NPROC)) 0 p).card := by
    omega
  obtain ⟨t, ht⟩ := card_pos.mp hsome
  rw [hits, Finset.mem_filter, mem_Ioc, zero_add] at ht
  obtain ⟨⟨hlow, hhigh⟩, hdraw⟩ := ht
  exact ⟨t, hlow, hhigh, by rw [drawTicket_eq_draw h hfit, hdraw]⟩

/-- A round that can be won with every ticket, and whose tickets reach every RUNNABLE process:
over a reachable table with a positive total this is so if and only if the sum of the RUNNABLE
processes' tickets is in the list. -/
theorem every_ticket_can_win_iff {log : List Entry} {s : Sys}
    (hrun : machine.Run Machine.Free start log s) (hpos : 1 ≤ runnableTickets s.kern) :
    ((∀ t, 1 ≤ t → t ≤ runnableTickets s.kern → CanWin (runnableTickets s.kern) t) ∧
        ∀ p, Runnable s.kern p → CanRun s.kern p) ↔
      ticketSum s.kern ∈ winningTotals := by
  have hok := ticketsOk_of_run hrun
  have hstored : runnableTickets s.kern ≤ INT_MAX := by
    have := (int32_bounds (ticketSum s.kern)).2
    rw [runnableTickets_eq, INT_MAX]
    omega
  rw [all_canWin_iff hpos hstored]
  constructor
  · intro h
    obtain ⟨hmem, hall⟩ := h
    by_cases hfit : ticketSum s.kern ≤ INT_MAX
    · rwa [runnableTickets_eq_ticketSum hok hfit] at hmem
    · -- past the largest int one process is never dispatched
      obtain ⟨p, hp, hnever⟩ := exists_never_drawn (nodup_finRange NPROC)
        (fun q hq => hok.runnable (mem_runnables_finRange.mp hq)) le_rfl (by decide)
        (show INT_MAX < 0 + ticketSum s.kern by omega)
      obtain ⟨r, _, hdispatched⟩ := hall p (mem_runnables_finRange.mp hp)
      rw [dispatched_lotterysched (by omega)] at hdispatched
      exact absurd hdispatched (hnever _ fun h => absurd h (lt_irrefl 0))
  · intro hmem
    have hfit : ticketSum s.kern ≤ INT_MAX := by
      have := (le_of_mem_winningTotals _ hmem).2
      rw [INT_MAX]
      omega
    have hsum := runnableTickets_eq_ticketSum hok hfit
    rw [← hsum] at hmem
    refine ⟨hmem, fun p hp => ?_⟩
    obtain ⟨t, hlow, hhigh, hdraw⟩ := exists_ticket hok hfit hp
    rw [← hsum] at hhigh
    obtain ⟨r, hrange, hchosen⟩ := (all_canWin_iff hpos hstored).mpr hmem t hlow hhigh
    refine ⟨r, hrange, ?_⟩
    rw [dispatched_lotterysched (by omega), hchosen]
    exact hdraw

/-- Init and its child with three tickets each. -/
theorem every_ticket_can_win_two_processes :
    ∃ log s, machine.Run Machine.Free start log s ∧ runnableTickets s.kern = 6 ∧
      (∀ t, 1 ≤ t → t ≤ runnableTickets s.kern → CanWin (runnableTickets s.kern) t) ∧
      ∀ p, Runnable s.kern p → CanRun s.kern p := by
  obtain ⟨log, s, hrun, htotal, hsum⟩ := Machine.exists_run_of_exec machine Machine.Free start
    [.dispatch 0, .settickets 0 3, .forkAlloc 0, .forkCopy 0, .forkDone 0, .yield 0]
    (fun _ s => runnableTickets s.kern = 6 ∧ ticketSum s.kern = 6) (by decide +kernel)
  refine ⟨log, s, hrun, htotal, ?_⟩
  exact (every_ticket_can_win_iff hrun (by omega)).mpr (by rw [hsum]; decide)

/-- The process of the first slot holds the tickets up to its own number of them. -/
theorem drawTicket_first (hrun : Runnable k 0) {chosen : ℤ}
    (hchosen : chosen ≤ int32 (tickets k 0)) : drawTicket k chosen = some 0 := by
  rw [drawTicket, finRange_succ, scanTickets, if_neg (not_not_intro hrun), zero_add,
    if_neg (by omega)]

/-- Init sets its tickets to 5000 and forks: rand is below 4930, so the tickets of the child,
from 5001 on, never win. -/
theorem child_never_dispatched :
    ¬ ∀ log s, machine.Run Machine.Free start log s → 1 ≤ runnableTickets s.kern →
      (∀ t, 1 ≤ t → t ≤ runnableTickets s.kern → CanWin (runnableTickets s.kern) t) ∧
        ∀ p, Runnable s.kern p → CanRun s.kern p := by
  obtain ⟨log, s, hrun, htotal, hinit, hchild, htickets⟩ :=
    Machine.exists_run_of_exec machine Machine.Free start
      [.dispatch 0, .settickets 0 5000, .forkAlloc 0, .forkCopy 0, .forkDone 0, .yield 0]
      (fun _ s => runnableTickets s.kern = 10000 ∧ Runnable s.kern 0 ∧ Runnable s.kern 1 ∧
        tickets s.kern 0 = 5000) (by decide +kernel)
  intro hclaim
  obtain ⟨r, _, hdispatched⟩ := (hclaim log s hrun (by omega)).2 1 hchild
  rw [dispatched_lotterysched (by omega), htotal] at hdispatched
  have hbelow : chosenTicket r 10000 ≤ 5000 := by
    by_cases hone : 1 ≤ chosenTicket r 10000
    · obtain ⟨seed, _, heq⟩ := chosenTicket_eq (by decide) (by decide) hone
      have : randValue seed < 4930 := Nat.mod_lt _ (by decide)
      omega
    · omega
  rw [drawTicket_first hinit (by rw [htickets]; exact hbelow)] at hdispatched
  exact absurd hdispatched (by decide)

end KernelLabs.Lottery

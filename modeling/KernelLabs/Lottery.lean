import KernelLabs.ProcMoves
import KernelLabs.TicketDraw

/-!
The lottery scheduler of proc.c. A round adds up the tickets of the RUNNABLE
processes, draws a number from the date and scans the table a second time for
the process that holds it. The sums are 32-bit ints, and settickets accepts every
positive int, so the round is a fair draw as long as the total fits an int and
makes no progress once the stored total is not positive.
-/
namespace KernelLabs.Lottery

open MachineWords ProcTable ProcLife Runs TicketDraw List Option

structure RtcDate where
  second : ℕ
  minute : ℕ
  hour : ℕ
  day : ℕ
  month : ℕ
  year : ℕ

def rand (r : RtcDate) : ℤ :=
  let timestamp := int32 (r.second + 60 * r.minute + 3600 * r.hour + 86400 * (r.day - 1) +
    2592000 * (r.month - 1) + 31536000 * (r.year - 1970))
  let seed := timestamp.tmod 100
  let seed := int32 (1593 * seed + 1042)
  seed.tmod 4930

def Runnable (k : Kernel) (p : Slot) : Prop := (k.proc p).state = .runnable

instance (k : Kernel) (p : Slot) : Decidable (Runnable k p) := by
  unfold Runnable
  infer_instance

def tickets (k : Kernel) (p : Slot) : ℤ := (k.proc p).numTickets

def addTickets (k : Kernel) (sum : ℤ) (p : Slot) : ℤ :=
  if Runnable k p then int32 (sum + tickets k p) else sum

def runnableTickets (k : Kernel) : ℤ := (finRange NPROC).foldl (addTickets k) 0

def scanTickets (k : Kernel) (chosen : ℤ) : List Slot → ℤ → Option Slot
  | [], _ => none
  | p :: rest, counter =>
    if ¬ Runnable k p then scanTickets k chosen rest counter
    else if int32 (counter + tickets k p) < chosen then
      scanTickets k chosen rest (int32 (counter + tickets k p))
    else some p

def drawTicket (k : Kernel) (chosen : ℤ) : Option Slot :=
  scanTickets k chosen (finRange NPROC) 0

def lotteryDispatch (k : Kernel) (p : Slot) : Kernel :=
  k.modify p fun q =>
    { q with numScheduled := int32 (q.numScheduled + 1), state := .running }

def chosenTicket (r : RtcDate) (runnable : ℤ) : ℤ := int32 ((rand r).tmod runnable + 1)

def dispatchHolder (k : Kernel) (chosen : ℤ) : Kernel :=
  match drawTicket k chosen with
  | some p => lotteryDispatch k p
  | none => k

/-- One iteration of lotterysched, up to the switch to the chosen process. The
table is `k` during the first scan and `k'` during the second. -/
def lotterysched (k k' : Kernel) (r : RtcDate) : Kernel :=
  if 0 < runnableTickets k then dispatchHolder k' (chosenTicket r (runnableTickets k)) else k'

def runnables (k : Kernel) (l : List Slot) : List Slot := l.filter fun p => Runnable k p

def ticketSum (k : Kernel) : ℤ := total (tickets k) (runnables k (finRange NPROC))

variable {k : Kernel} {l : List Slot} {p : Slot}

theorem mem_runnables : p ∈ runnables k l ↔ p ∈ l ∧ Runnable k p := by
  simp [runnables]

theorem mem_runnables_finRange : p ∈ runnables k (finRange NPROC) ↔ Runnable k p := by
  simp [mem_runnables, mem_finRange]

theorem runnables_cons_pos (h : Runnable k p) (rest : List Slot) :
    runnables k (p :: rest) = p :: runnables k rest := by
  simp [runnables, h]

theorem runnables_cons_neg (h : ¬ Runnable k p) (rest : List Slot) :
    runnables k (p :: rest) = runnables k rest := by
  simp [runnables, h]

/-- The first scan computes the sum, reduced once. -/
theorem foldl_addTickets (k : Kernel) (l : List Slot) (sum : ℤ) :
    l.foldl (addTickets k) (int32 sum) = int32 (sum + total (tickets k) (runnables k l)) := by
  induction l generalizing sum with
  | nil => simp [runnables]
  | cons p rest ih =>
    rw [foldl_cons]
    by_cases hp : Runnable k p
    · rw [runnables_cons_pos hp, total_cons, ← add_assoc, ← ih]
      simp only [addTickets, if_pos hp, int32_add_left]
    · rw [runnables_cons_neg hp, ← ih]
      simp only [addTickets, if_neg hp]

theorem runnableTickets_eq (k : Kernel) : runnableTickets k = int32 (ticketSum k) := by
  have h := foldl_addTickets k (finRange NPROC) 0
  rw [zero_add] at h
  exact h

/-- As long as the running sums fit an int, the second scan is the exact draw. -/
theorem scanTickets_eq_draw
    (hpos : ∀ p ∈ runnables k l, 0 ≤ tickets k p) {counter : ℤ} (hcounter : 0 ≤ counter)
    (hfit : counter + total (tickets k) (runnables k l) ≤ INT_MAX) (chosen : ℤ) :
    scanTickets k chosen l counter = draw (tickets k) chosen (runnables k l) counter := by
  induction l generalizing counter with
  | nil => rfl
  | cons p rest ih =>
    rw [scanTickets]
    by_cases hp : Runnable k p
    · rw [runnables_cons_pos hp] at hpos hfit ⊢
      have hrest : ∀ q ∈ runnables k rest, 0 ≤ tickets k q :=
        fun q hq => hpos q (List.mem_cons_of_mem _ hq)
      have htickets : 0 ≤ tickets k p := hpos p List.mem_cons_self
      have htotal := total_nonneg hrest
      rw [total_cons] at hfit
      have hsum : int32 (counter + tickets k p) = counter + tickets k p := by
        rw [INT_MAX] at hfit
        exact int32_eq_self (by omega) (by omega)
      rw [if_neg (not_not_intro hp), hsum, draw, ih hrest (by omega) (by omega)]
    · rw [runnables_cons_neg hp] at hpos hfit ⊢
      rw [if_pos hp, ih hpos hcounter hfit]

theorem scanTickets_runnable {chosen counter : ℤ}
    (h : scanTickets k chosen l counter = some p) : Runnable k p := by
  induction l generalizing counter with
  | nil => simp [scanTickets] at h
  | cons q rest ih =>
    rw [scanTickets] at h
    split at h
    · exact ih h
    · rename_i hq
      split at h
      · exact ih h
      · exact some.inj h ▸ not_not.mp hq

/-- A scan that finds nothing ends with a counter below the chosen ticket. -/
theorem scanTickets_none {chosen counter : ℤ} (hstored : int32 counter = counter)
    (hlt : counter < chosen) (h : scanTickets k chosen l counter = none) :
    int32 (counter + total (tickets k) (runnables k l)) < chosen := by
  induction l generalizing counter with
  | nil => simpa [runnables, hstored] using hlt
  | cons p rest ih =>
    rw [scanTickets] at h
    by_cases hp : Runnable k p
    · rw [if_neg (not_not_intro hp)] at h
      split at h
      · rename_i hnext
        have hidem : int32 (int32 (counter + tickets k p)) = int32 (counter + tickets k p) := by
          simpa using int32_add_left (counter + tickets k p) 0
        have := ih hidem hnext h
        rw [int32_add_left] at this
        rw [runnables_cons_pos hp, total_cons]
        rwa [← add_assoc]
      · simp at h
    · rw [if_pos hp] at h
      rw [runnables_cons_neg hp]
      exact ih hstored hlt h

/-- A chosen number below one is held by the first RUNNABLE process. -/
theorem scanTickets_of_nonpos {chosen : ℤ} (hchosen : chosen ≤ 0)
    (htickets : ∀ p ∈ runnables k l, 0 ≤ int32 (tickets k p))
    (hsome : runnables k l ≠ []) : scanTickets k chosen l 0 ≠ none := by
  induction l with
  | nil => simp [runnables] at hsome
  | cons p rest ih =>
    rw [scanTickets]
    by_cases hp : Runnable k p
    · rw [runnables_cons_pos hp] at htickets
      have := htickets p List.mem_cons_self
      rw [if_neg (not_not_intro hp), zero_add, if_neg (by omega)]
      simp
    · rw [runnables_cons_neg hp] at htickets hsome
      rw [if_pos hp]
      exact ih htickets hsome

theorem drawTicket_runnable {chosen : ℤ}
    (h : drawTicket k chosen = some p) : Runnable k p := scanTickets_runnable h

/-- The second loop dispatches the process that the scan finds and no other. -/
theorem dispatched_dispatchHolder (k : Kernel) (chosen : ℤ) (p : Slot) :
    Kernel.Dispatched k (dispatchHolder k chosen) p ↔ drawTicket k chosen = some p := by
  unfold dispatchHolder
  cases hdraw : drawTicket k chosen with
  | none => simp [Kernel.Dispatched]
  | some q =>
    have hq : (k.proc q).state = .runnable := drawTicket_runnable hdraw
    simp only [some.injEq]
    constructor
    · rintro ⟨hnot, hrunning⟩
      by_contra hne
      rw [lotteryDispatch, Kernel.modify_proc_ne _ _ (Ne.symm hne)] at hrunning
      exact hnot hrunning
    · rintro rfl
      refine ⟨by rw [hq]; decide, ?_⟩
      rw [lotteryDispatch, Kernel.modify_proc_self]

/-- The chosen ticket never exceeds the total; it is not positive when rand is negative. -/
theorem chosenTicket_le (r : RtcDate) {runnable : ℤ} (hpos : 0 < runnable)
    (hfit : runnable ≤ INT_MAX) : chosenTicket r runnable ≤ runnable := by
  have hlow := Int.lt_tmod_of_pos (rand r) hpos
  have hhigh := Int.tmod_lt_of_pos (rand r) hpos
  rw [INT_MAX] at hfit
  rw [chosenTicket, int32_eq_self (by omega) (by omega)]
  omega

/-- Every claimed slot holds at least one ticket, and no more than an int can count. -/
def TicketsOk (s : Sys) : Prop :=
  ∀ p, s.Claimed p → 1 ≤ tickets s.kern p ∧ tickets s.kern p ≤ INT_MAX

theorem start_ticketsOk : TicketsOk start := by
  rintro p (hstate | ⟨c, hc⟩)
  · simp only [start, boot_proc] at hstate
    simp only [tickets, start, boot_proc]
    split at hstate
    · rename_i hp
      rw [if_pos hp]
      decide
    · exact absurd rfl hstate
  · simp [start, ForkPc.child] at hc

variable {s : Sys}

/-- What a step that writes the tickets of a slot leaves there: one ticket for a new
process, the parent's tickets for its copy, the argument of settickets. -/
theorem TicketsOk.writes (h : TicketsOk s) {a : Act} (hen : s.Enabled a)
    (hclaimed : s.Claimed p ∨ ∃ c, a = .forkAlloc c ∧ s.kern.freeSlot = some p)
    (hwrites : s.Writes p a) :
    1 ≤ tickets (s.next a).kern p ∧ tickets (s.next a).kern p ≤ INT_MAX := by
  match a, hwrites with
  | .forkAlloc c, ⟨k, halloc⟩ =>
    obtain ⟨_, rfl⟩ := Kernel.allocproc_eq_some halloc
    simp only [Sys.next, halloc, tickets, Kernel.modify_proc_self]
    decide
  | .forkCopy c, hc =>
    simp only [Sys.next, show s.fork c = .allocated p from hc, tickets, Kernel.forkCopy,
      Kernel.modify_proc_self]
    exact h c hen.1.claimed
  | .setpriority c pid priority, _ =>
    obtain hclaimed | ⟨_, hact, _⟩ := hclaimed
    · have hkeep : tickets (s.kern.setpriority pid priority).2 p = tickets s.kern p := by
        rcases s.kern.setpriority_cases pid priority with hk | ⟨i, _, _, _, hk⟩
        · rw [hk]
        · rw [hk]
          exact s.kern.modify_keeps Proc.numTickets rfl p
      simp only [Sys.next, hkeep]
      exact h p hclaimed
    · cases hact
  | .settickets c number, ⟨hpc, hnumber⟩ =>
    have hint : number ≤ INT_MAX := by
      have := (int32_bounds number).2
      rw [hen.2] at this
      rw [INT_MAX]
      omega
    subst hpc
    simp only [Sys.next, Kernel.settickets, if_neg (not_lt.mpr hnumber), tickets,
      Kernel.modify_proc_self]
    exact ⟨hnumber, hint⟩

theorem ticketsOk_step {s t : Sys} {a : Act} (h : TicketsOk s) (hstep : s.step a = some t) :
    TicketsOk t := by
  obtain ⟨hen, rfl⟩ := Sys.step_eq_some hstep
  intro p hp
  have hclaimed := ProcMoves.claimed_of_next hen hp
  by_cases hwrites : s.Writes p a
  · exact h.writes hen hclaimed hwrites
  · rcases hclaimed with hclaimed | ⟨c, rfl, hfree⟩
    · have hkeep : tickets (s.next a).kern p = tickets s.kern p :=
        (s.effect a).keeps (π := Proc.numTickets) (fun _ _ _ _ _ _ _ => rfl) hwrites
      rw [hkeep]
      exact h p hclaimed
    · exact absurd (by simp [Sys.Writes, Kernel.allocproc, hfree]) hwrites

theorem ticketsOk_of_run {log : List Entry}
    (hrun : machine.Run Machine.Free start log s) : TicketsOk s :=
  Machine.Run.invariant (P := fun _ s => TicketsOk s) start_ticketsOk
    (fun _ _ _ _ ih _ hstep => ticketsOk_step ih hstep) hrun

theorem TicketsOk.runnable (h : TicketsOk s) (hp : Runnable s.kern p) :
    1 ≤ tickets s.kern p ∧ tickets s.kern p ≤ INT_MAX := by
  refine h p (Or.inl ?_)
  rw [show (s.kern.proc p).state = .runnable from hp]
  decide

/-- The scan of a reachable table whose total fits an int is the exact draw. -/
theorem drawTicket_eq_draw (h : TicketsOk s) (hfit : ticketSum s.kern ≤ INT_MAX) (chosen : ℤ) :
    drawTicket s.kern chosen =
      draw (tickets s.kern) chosen (runnables s.kern (finRange NPROC)) 0 := by
  refine scanTickets_eq_draw (fun p hp => ?_) le_rfl (by rwa [zero_add]) chosen
  have := (h.runnable (mem_runnables_finRange.mp hp)).1
  omega

/-- A lottery round over a reachable table whose RUNNABLE processes hold `T` tickets
in all, `T` being an int: the first scan finds `T`, each ticket from 1 to `T` has
one process dispatched, which is RUNNABLE, and a process is dispatched for as many
tickets as it holds. -/
theorem lottery_draw {log : List Entry} {s : Sys} (hrun : machine.Run Machine.Free start log s)
    (hpos : 0 < ticketSum s.kern) (hfit : ticketSum s.kern ≤ INT_MAX) :
    runnableTickets s.kern = ticketSum s.kern ∧
    (∀ chosen, 1 ≤ chosen → chosen ≤ ticketSum s.kern →
      ∃ p, Runnable s.kern p ∧
        ∀ q, Kernel.Dispatched s.kern (dispatchHolder s.kern chosen) q ↔ q = p) ∧
    ∀ p, Runnable s.kern p →
      ((((Finset.Icc 1 (ticketSum s.kern)).filter fun chosen =>
        Kernel.Dispatched s.kern (dispatchHolder s.kern chosen) p).card : ℕ) : ℤ) =
          (s.kern.proc p).numTickets := by
  have hok := ticketsOk_of_run hrun
  refine ⟨?_, fun chosen hlow hhigh => ?_, fun p hp => ?_⟩
  · rw [runnableTickets_eq]
    rw [INT_MAX] at hfit
    exact int32_eq_self (by omega) (by omega)
  · have hsome : ∃ p, drawTicket s.kern chosen = some p := by
      rw [drawTicket_eq_draw hok hfit]
      exact exists_draw (by omega) (by rwa [zero_add])
    obtain ⟨p, hdraw⟩ := hsome
    refine ⟨p, drawTicket_runnable hdraw, fun q => ?_⟩
    rw [dispatched_dispatchHolder, hdraw, some.injEq]
    exact eq_comm
  · have hnodup : (runnables s.kern (finRange NPROC)).Nodup :=
      (nodup_finRange NPROC).filter _
    have hweight : ∀ q ∈ runnables s.kern (finRange NPROC), 0 ≤ tickets s.kern q := by
      intro q hq
      have := (hok.runnable (mem_runnables_finRange.mp hq)).1
      omega
    have hcard := card_hits hnodup hweight (mem_runnables_finRange.mpr hp) 0
    rw [← show tickets s.kern p = (s.kern.proc p).numTickets from rfl, ← hcard]
    congr 2
    ext chosen
    simp only [hits, Finset.mem_filter, Finset.mem_Icc, Finset.mem_Ioc, zero_add,
      dispatched_dispatchHolder, drawTicket_eq_draw hok hfit]
    exact and_congr_left fun _ => and_congr_left fun _ => Iff.rfl

/-- Init sets its tickets to three and forks, so that two processes share six tickets. -/
theorem lottery_draw_two_processes :
    ∃ log s, machine.Run Machine.Free start log s ∧ ticketSum s.kern = 6 ∧
      ((((Finset.Icc 1 (ticketSum s.kern)).filter fun chosen =>
        Kernel.Dispatched s.kern (dispatchHolder s.kern chosen) 1).card : ℕ) : ℤ) = 3 := by
  obtain ⟨log, s, hrun, hsum, hp, htickets⟩ := Machine.exists_run_of_exec machine Machine.Free start
    [.dispatch 0, .settickets 0 3, .forkAlloc 0, .forkCopy 0, .forkDone 0, .yield 0]
    (fun _ s => ticketSum s.kern = 6 ∧ Runnable s.kern 1 ∧
      (s.kern.proc 1).numTickets = 3) (by decide +kernel)
  refine ⟨log, s, hrun, hsum, ?_⟩
  rw [(lottery_draw hrun (by omega) (by rw [hsum]; decide)).2.2 1 hp, htickets]

/-- A positive stored total always leads to a dispatch, whatever the date: the
scan's counter ends at that same total, which the chosen ticket does not exceed. -/
theorem exists_drawTicket (h : TicketsOk s) (hsome : ∃ p, Runnable s.kern p)
    (hpos : 0 < runnableTickets s.kern) (r : RtcDate) :
    ∃ p, drawTicket s.kern (chosenTicket r (runnableTickets s.kern)) = some p := by
  refine ne_none_iff_exists'.mp fun hnone => ?_
  have hfit : runnableTickets s.kern ≤ INT_MAX := by
    have := (int32_bounds (ticketSum s.kern)).2
    rw [runnableTickets_eq, INT_MAX]
    omega
  by_cases hchosen : chosenTicket r (runnableTickets s.kern) ≤ 0
  · refine scanTickets_of_nonpos hchosen (fun p hp => ?_) ?_ hnone
    · obtain ⟨hlow, hhigh⟩ := h.runnable (mem_runnables_finRange.mp hp)
      rw [INT_MAX] at hhigh
      rw [int32_eq_self (by omega) (by omega)]
      omega
    · obtain ⟨p, hp⟩ := hsome
      exact ne_nil_of_mem (mem_runnables_finRange.mpr hp)
  · have hend := scanTickets_none (by decide) (by omega) hnone
    rw [zero_add] at hend
    have hle := chosenTicket_le r hpos hfit
    rw [runnableTickets_eq] at hle hend
    exact absurd hend (not_lt.mpr hle)

/-- A round over a reachable table with a RUNNABLE process dispatches one, at every
date, exactly when the sum of the RUNNABLE processes' tickets, reduced to 32 bits,
is a positive int. -/
theorem lottery_progress_iff {log : List Entry} {s : Sys}
    (hrun : machine.Run Machine.Free start log s) (hsome : ∃ p, Runnable s.kern p) :
    (0 < runnableTickets s.kern ∧ ∀ r, ∃ p, Runnable s.kern p ∧
      Kernel.Dispatched s.kern (lotterysched s.kern s.kern r) p) ↔
      1 ≤ ticketSum s.kern % 2 ^ 32 ∧ ticketSum s.kern % 2 ^ 32 ≤ INT_MAX := by
  rw [← int32_pos_iff, ← runnableTickets_eq]
  refine ⟨And.left, fun hpos => ⟨hpos, fun r => ?_⟩⟩
  obtain ⟨p, hp⟩ := exists_drawTicket (ticketsOk_of_run hrun) hsome hpos r
  refine ⟨p, drawTicket_runnable hp, ?_⟩
  rw [lotterysched, if_pos hpos]
  exact (dispatched_dispatchHolder _ _ p).mpr hp

/-- The table after boot, where init holds the only ticket. -/
theorem lottery_progress_iff_boot :
    ticketSum boot = 1 ∧
      ∀ r, ∃ p, Runnable boot p ∧ Kernel.Dispatched boot (lotterysched boot boot r) p :=
  ⟨by decide +kernel,
    ((lottery_progress_iff Machine.Run.nil ⟨0, by decide⟩).mpr (by decide +kernel)).2⟩

/-- Two RUNNABLE processes with 2^30 tickets each: the stored total is negative and
no round dispatches anything. -/
theorem lottery_stalls_on_wrapped_total :
    ¬ ∀ log s, machine.Run Machine.Free start log s → (∃ p, Runnable s.kern p) →
      ∀ r, ∃ p, Runnable s.kern p ∧ Kernel.Dispatched s.kern (lotterysched s.kern s.kern r) p := by
  obtain ⟨log, s, hrun, hp, hsum⟩ := Machine.exists_run_of_exec machine Machine.Free start
    [.dispatch 0, .settickets 0 (2 ^ 30), .forkAlloc 0, .forkCopy 0, .forkDone 0, .yield 0]
    (fun _ s => Runnable s.kern 1 ∧ runnableTickets s.kern < 0) (by decide +kernel)
  intro hclaim
  obtain ⟨p, _, hnot, hrunning⟩ := hclaim log s hrun ⟨1, hp⟩ ⟨0, 0, 0, 1, 1, 2000⟩
  rw [lotterysched, if_neg (by omega)] at hrunning
  exact hnot hrunning

end KernelLabs.Lottery

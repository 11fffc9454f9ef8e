import KernelLabs.ReferenceCount
import KernelLabs.Runs
import Mathlib.Algebra.Order.BigOperators.Group.Finset

/-!
The file system log of log.c as the operations see it: begin_op reserves space,
log_write adds a block to the header in memory, and the end_op that leaves no
operation outstanding commits and empties the header. The processes run in any
interleaving. log_write makes its two checks before it takes log.lock, so the check
and the change of the header are separate steps; begin_op that has to sleep makes no
step; commit is one step here, in which the header is emptied, since no operation is
admitted while it runs.

The log has the size that mkfs gives it, which is LOGSIZE blocks with the header
block among them.
-/
namespace KernelLabs.LogOps

open Runs ReferenceCount List Option Finset

abbrev MAXOPBLOCKS : ℕ := 10

abbrev LOGSIZE : ℕ := MAXOPBLOCKS * 3

/-- log.size, which is sb.nlog as mkfs writes it. -/
abbrev nlog : ℕ := LOGSIZE

abbrev BlockNo := ℕ

/-- The entries of log.lh.block after log_write's loop: the first entry with this
block is written again, and the block goes behind the last entry if there is none. -/
def absorb : List BlockNo → BlockNo → List BlockNo
  | [], b => [b]
  | x :: rest, b => if x = b then b :: rest else x :: absorb rest b

theorem absorb_eq (blocks : List BlockNo) (b : BlockNo) :
    absorb blocks b = if b ∈ blocks then blocks else blocks ++ [b] := by
  induction blocks with
  | nil => rfl
  | cons x rest ih =>
    by_cases hx : x = b
    · subst hx
      simp [absorb]
    · have hbx : b ≠ x := Ne.symm hx
      by_cases hb : b ∈ rest
      · simp [absorb, hx, ih, hb]
      · simp [absorb, hx, ih, hb, hbx]

theorem nodup_absorb {blocks : List BlockNo} (h : blocks.Nodup) (b : BlockNo) :
    (absorb blocks b).Nodup := by
  rw [absorb_eq]
  split
  · exact h
  · rename_i hb
    rw [nodup_append]
    refine ⟨h, nodup_singleton b, ?_⟩
    intro x hx y hy heq
    rw [List.mem_singleton] at hy
    subst hy heq
    exact hb hx

theorem mem_absorb {blocks : List BlockNo} {b x : BlockNo} :
    x ∈ absorb blocks b ↔ x ∈ blocks ∨ x = b := by
  rw [absorb_eq]
  split
  · rename_i hb
    constructor
    · exact Or.inl
    · rintro (hx | rfl)
      · exact hx
      · exact hb
  · simp

/-- Where a process stands. Inside an operation it has logged some distinct blocks;
in log_write it has passed the checks for a block; after the last end_op it is in
commit, and then about to clear log.committing. -/
inductive Pc
  | idle
  | op (logged : List BlockNo)
  | append (logged : List BlockNo) (b : BlockNo)
  | commit
  | finish
  deriving DecidableEq, Repr

/-- struct log, with the header's entries, and the panic that has been reached. -/
structure Sys (np : ℕ) where
  outstanding : ℤ
  committing : Bool
  lh : List BlockNo
  pc : Fin np → Pc
  panic : Option String

variable {np : ℕ}

def Sys.goto (s : Sys np) (c : Fin np) (x : Pc) : Sys np :=
  { s with pc := Function.update s.pc c x }

inductive Act (np : ℕ)
  | beginOp (c : Fin np)
  | logWrite (c : Fin np) (b : BlockNo)
  | append (c : Fin np)
  | endOp (c : Fin np)
  | commit (c : Fin np)
  | finish (c : Fin np)
  deriving DecidableEq, Repr

def Admits (s : Sys np) : Prop :=
  s.committing = false ∧ ¬ (s.lh.length : ℤ) + (s.outstanding + 1) * MAXOPBLOCKS > LOGSIZE

instance (s : Sys np) : Decidable (Admits s) := by
  unfold Admits
  infer_instance

def beginOp (s : Sys np) (c : Fin np) : Option (Sys np) :=
  if Admits s then some ({ s with outstanding := s.outstanding + 1 }.goto c (.op [])) else none

def logWriteCheck (s : Sys np) (c : Fin np) (logged : List BlockNo) (b : BlockNo) : Sys np :=
  if s.lh.length ≥ LOGSIZE ∨ (s.lh.length : ℤ) ≥ nlog - 1 then
    { s with panic := some "too big a transaction" }
  else if s.outstanding < 1 then { s with panic := some "log_write outside of trans" }
  else s.goto c (.append logged b)

def logWriteAppend (s : Sys np) (c : Fin np) (logged : List BlockNo) (b : BlockNo) : Sys np :=
  { s with lh := absorb s.lh b }.goto c (.op (logged.insert b))

def endOp (s : Sys np) (c : Fin np) : Sys np :=
  let s := { s with outstanding := s.outstanding - 1 }
  if s.committing then { s with panic := some "log.committing" }
  else if s.outstanding = 0 then { s with committing := true }.goto c .commit
  else s.goto c .idle

def Sys.act (s : Sys np) : Act np → Option (Sys np)
  | .beginOp c => if s.pc c = .idle then LogOps.beginOp s c else none
  | .logWrite c b =>
    match s.pc c with
    | .op logged => some (logWriteCheck s c logged b)
    | _ => none
  | .append c =>
    match s.pc c with
    | .append logged b => some (logWriteAppend s c logged b)
    | _ => none
  | .endOp c =>
    match s.pc c with
    | .op _ => some (LogOps.endOp s c)
    | _ => none
  | .commit c => if s.pc c = .commit then some ({ s with lh := [] }.goto c .finish) else none
  | .finish c =>
    if s.pc c = .finish then some ({ s with committing := false }.goto c .idle) else none

/-- Nothing moves once a panic has been reached. -/
def machine (np : ℕ) : Machine (Sys np) (Act np) Empty where
  step s a := if s.panic = none then s.act a else none
  emit _ _ := []

def start (np : ℕ) : Sys np where
  outstanding := 0
  committing := false
  lh := []
  pc := fun _ => .idle
  panic := none

def Pc.logged : Pc → List BlockNo
  | .op logged => logged
  | .append logged _ => logged
  | _ => []

def AtMost (m : ℕ) (s : Sys np) : Act np → Prop
  | .logWrite c b => ((s.pc c).logged.insert b).length ≤ m
  | _ => True

instance (m : ℕ) (s : Sys np) (a : Act np) : Decidable (AtMost m s a) :=
  match a with
  | .logWrite c b => inferInstanceAs (Decidable (((s.pc c).logged.insert b).length ≤ m))
  | .beginOp _ => isTrue trivial
  | .append _ => isTrue trivial
  | .endOp _ => isTrue trivial
  | .commit _ => isTrue trivial
  | .finish _ => isTrue trivial

def Safe (s : Sys np) : Prop := s.panic = none ∧ s.lh.Nodup

def Pc.opens : Pc → ℕ
  | .op _ => 1
  | .append _ _ => 1
  | _ => 0

/-- The blocks that the operation may still add when it logs at most `m`. -/
def Pc.allowance (m : ℕ) : Pc → ℕ
  | .op logged => m - logged.length
  | .append logged _ => m - logged.length
  | _ => 0

section Allowance

variable (m : ℕ) (logged : List BlockNo) (b : BlockNo)

theorem allowance_op : (Pc.op logged).allowance m = m - logged.length := rfl

theorem allowance_append : (Pc.append logged b).allowance m = m - logged.length := rfl

theorem allowance_idle : Pc.idle.allowance m = 0 := rfl

theorem allowance_commit : Pc.commit.allowance m = 0 := rfl

theorem allowance_finish : Pc.finish.allowance m = 0 := rfl

end Allowance

/-- The process is in the part of end_op that follows the last operation. -/
def Pc.Commits : Pc → Prop
  | .commit => True
  | .finish => True
  | _ => False

/-- What holds in every state when an operation logs at most MAXOPBLOCKS - 1 blocks:
the header and what the operations may still add leave two blocks of LOGSIZE. -/
structure Inv (s : Sys np) : Prop where
  calm : s.panic = none
  nodup : s.lh.Nodup
  counted : s.outstanding = ∑ c, (s.pc c).opens
  reserved : s.lh.length + ∑ c, (s.pc c).allowance (MAXOPBLOCKS - 1) + 2 ≤ LOGSIZE
  logged_mem : ∀ c, ∀ b ∈ (s.pc c).logged, b ∈ s.lh
  bounded : ∀ c logged b, s.pc c = .append logged b →
    (logged.insert b).length ≤ MAXOPBLOCKS - 1
  commit_unique : ∀ c d, (s.pc c).Commits → (s.pc d).Commits → c = d
  commit_flag : ∀ c, (s.pc c).Commits → s.committing = true ∧ s.outstanding = 0
  flag_commit : s.committing = true → ∃ c, (s.pc c).Commits
  finished : ∀ c, s.pc c = .finish → s.lh = []
  settled : s.outstanding = 0 → s.committing = false → s.lh = []

section Counting

variable {s : Sys np} {c : Fin np}

@[simp] theorem goto_pc_self (x : Pc) : (s.goto c x).pc c = x := by
  simp [Sys.goto]

theorem goto_pc_ne (x : Pc) {d : Fin np} (hd : d ≠ c) : (s.goto c x).pc d = s.pc d := by
  simp [Sys.goto, hd]

theorem sum_goto (g : Pc → ℕ) (x : Pc) :
    ∑ d, g ((s.goto c x).pc d) + g (s.pc c) = ∑ d, g (s.pc d) + g x :=
  sum_update g s.pc c x

theorem opens_le (c : Fin np) : (s.pc c).opens ≤ ∑ d, (s.pc d).opens :=
  Finset.single_le_sum (f := fun d => (s.pc d).opens) (fun _ _ => Nat.zero_le _)
    (mem_univ c)

theorem allowance_le (m : ℕ) (x : Pc) : x.allowance m ≤ m * x.opens := by
  cases x <;> simp [Pc.allowance, Pc.opens]

theorem sum_allowance_le (s : Sys np) (m : ℕ) :
    ∑ d, (s.pc d).allowance m ≤ m * ∑ d, (s.pc d).opens := by
  rw [mul_sum]
  exact Finset.sum_le_sum fun d _ => allowance_le m (s.pc d)

/-- While no operation is outstanding no process has logged anything. -/
theorem Inv.logged_nil (h : Inv s) (hzero : s.outstanding = 0) (d : Fin np) :
    (s.pc d).logged = [] := by
  have hle := opens_le (s := s) d
  have hcount := h.counted
  have hopens : (s.pc d).opens = 0 := by omega
  cases hpc : s.pc d with
  | op logged => simp [hpc, Pc.opens] at hopens
  | append logged b => simp [hpc, Pc.opens] at hopens
  | idle => rfl
  | commit => rfl
  | finish => rfl

theorem Inv.outstanding_pos (h : Inv s) (hopen : (s.pc c).opens = 1) : 1 ≤ s.outstanding := by
  have hle := opens_le (s := s) c
  have hcount := h.counted
  omega

/-- While an operation is outstanding no process is committing. -/
theorem Inv.no_commit (h : Inv s) (hpos : 1 ≤ s.outstanding) (d : Fin np) : ¬ (s.pc d).Commits := by
  intro hd
  have := (h.commit_flag d hd).2
  omega

theorem Inv.not_committing (h : Inv s) (hpos : 1 ≤ s.outstanding) : s.committing = false := by
  cases hflag : s.committing with
  | false => rfl
  | true =>
    obtain ⟨d, hd⟩ := h.flag_commit hflag
    exact absurd hd (h.no_commit hpos d)

end Counting

section Steps

variable {s : Sys np} {c : Fin np}

theorem sizes : MAXOPBLOCKS = 10 ∧ LOGSIZE = 30 := ⟨rfl, rfl⟩

/-- One process moves while no other is committing. What is left to show concerns the
new place of that process and the new values of the log. -/
theorem Inv.goto (h : Inv s) {out : ℤ} {committing : Bool} {lh : List BlockNo} {x : Pc}
    (hothers : ∀ d, d ≠ c → ¬ (s.pc d).Commits) (hnodup : lh.Nodup)
    (hcount : out + (s.pc c).opens = s.outstanding + x.opens)
    (hreserved : lh.length + ∑ d, (s.pc d).allowance (MAXOPBLOCKS - 1) +
      x.allowance (MAXOPBLOCKS - 1) + 2 ≤ LOGSIZE + (s.pc c).allowance (MAXOPBLOCKS - 1))
    (hlogged : ∀ b ∈ x.logged, b ∈ lh) (hkept : ∀ d, d ≠ c → ∀ b ∈ (s.pc d).logged, b ∈ lh)
    (hbounded : ∀ logged b, x = .append logged b → (logged.insert b).length ≤ MAXOPBLOCKS - 1)
    (hcommit : x.Commits ↔ committing = true) (hidle : committing = true → out = 0)
    (hfinish : x = .finish → lh = []) (hsettled : out = 0 → committing = false → lh = []) :
    Inv ({ s with outstanding := out, committing := committing, lh := lh }.goto c x) := by
  have hopens := sum_goto (s := s) (c := c) Pc.opens x
  have hallow := sum_goto (s := s) (c := c) (Pc.allowance (MAXOPBLOCKS - 1)) x
  have hcounted := h.counted
  have hcases : ∀ {P : Pc → Prop} (d : Fin np), P ((s.goto c x).pc d) →
      d = c ∧ P x ∨ d ≠ c ∧ P (s.pc d) := by
    intro P d hd
    by_cases hdc : d = c
    · subst hdc
      exact .inl ⟨rfl, by simpa using hd⟩
    · rw [goto_pc_ne _ hdc] at hd
      exact .inr ⟨hdc, hd⟩
  have hwho : ∀ d, ((s.goto c x).pc d).Commits → d = c ∧ x.Commits := by
    intro d hd
    rcases hcases d hd with hself | ⟨hdc, hd⟩
    · exact hself
    · exact absurd hd (hothers d hdc)
  refine {
    calm := h.calm
    nodup := hnodup
    counted := ?_
    reserved := ?_
    logged_mem := ?_
    bounded := ?_
    commit_unique := fun d e hd he => (hwho d hd).1.trans (hwho e he).1.symm
    commit_flag := fun d hd => ⟨hcommit.mp (hwho d hd).2, hidle (hcommit.mp (hwho d hd).2)⟩
    flag_commit := fun hflag => ⟨c, by simpa using hcommit.mpr hflag⟩
    finished := ?_
    settled := hsettled }
  · change out = ∑ d, ((s.goto c x).pc d).opens
    omega
  · change lh.length + ∑ d, ((s.goto c x).pc d).allowance (MAXOPBLOCKS - 1) + 2 ≤ LOGSIZE
    omega
  · intro d b hb
    rcases hcases (P := fun y => b ∈ y.logged) d hb with ⟨-, hb⟩ | ⟨hdc, hb⟩
    · exact hlogged b hb
    · exact hkept d hdc b hb
  · intro d logged b hd
    rcases hcases (P := fun y => y = .append logged b) d hd with ⟨-, hx⟩ | ⟨-, hd⟩
    · exact hbounded logged b hx
    · exact h.bounded d logged b hd
  · intro d hd
    rcases hcases (P := fun y => y = .finish) d hd with ⟨-, hx⟩ | ⟨hdc, hd⟩
    · exact hfinish hx
    · exact absurd (by rw [hd]; trivial) (hothers d hdc)

theorem inv_beginOp (h : Inv s) (hpc : s.pc c = .idle) (hadmits : Admits s) :
    Inv ({ s with outstanding := s.outstanding + 1 }.goto c (.op [])) := by
  obtain ⟨hflag, hfull⟩ := hadmits
  obtain ⟨hten, hlog⟩ := sizes
  rw [hten, hlog] at hfull
  have hnone : ∀ d, ¬ (s.pc d).Commits := by
    intro d hd
    have hset := (h.commit_flag d hd).1
    simp [hflag] at hset
  have hcounted := h.counted
  have hle := sum_allowance_le s (MAXOPBLOCKS - 1)
  have hcost : (MAXOPBLOCKS - 1) * ∑ d, (s.pc d).opens = 9 * ∑ d, (s.pc d).opens := rfl
  have hclear : s.outstanding = 0 → s.lh.length = 0 := by
    intro hzero
    rw [h.settled hzero hflag, length_nil]
  have hreserved : s.lh.length + ∑ d, (s.pc d).allowance (MAXOPBLOCKS - 1) +
      (MAXOPBLOCKS - 1) + 2 ≤ LOGSIZE := by
    -- with no operation outstanding the header is empty; otherwise each of the
    -- operations, which the test counted in full, needs one block less
    by_cases hzero : s.outstanding = 0
    · have := hclear hzero
      omega
    · omega
  refine h.goto (fun d _ => hnone d) h.nodup (by simp [hpc, Pc.opens]) ?_ (by simp [Pc.logged])
    (fun d _ => h.logged_mem d) (by simp) (by simp [Pc.Commits, hflag]) (by simp [hflag])
    (by simp) (fun hzero => by omega)
  rw [hpc]
  exact hreserved

variable {logged : List BlockNo}

theorem inv_logWriteCheck (h : Inv s) (hpc : s.pc c = .op logged) {b : BlockNo}
    (hbound : (logged.insert b).length ≤ MAXOPBLOCKS - 1) : Inv (logWriteCheck s c logged b) := by
  have hpos := h.outstanding_pos (c := c) (by rw [hpc]; rfl)
  have hreserved := h.reserved
  have hroom : ¬ (s.lh.length ≥ LOGSIZE ∨ (s.lh.length : ℤ) ≥ nlog - 1) := by
    rw [nlog]
    omega
  have hinside : ¬ s.outstanding < 1 := by omega
  rw [show logWriteCheck s c logged b = s.goto c (.append logged b) from
    (if_neg hroom).trans (if_neg hinside)]
  have hflag := h.not_committing hpos
  refine h.goto (fun d _ => h.no_commit hpos d) h.nodup (by rw [hpc]; rfl) ?_ ?_
    (fun d _ => h.logged_mem d) ?_ (by simp [Pc.Commits, hflag]) (by simp [hflag]) (by simp)
    h.settled
  · rw [hpc]
    rw [allowance_append, allowance_op]
    omega
  · intro x hx
    exact h.logged_mem c x (by rw [hpc]; exact hx)
  · rintro _ _ ⟨rfl, rfl⟩
    exact hbound

theorem inv_logWriteAppend (h : Inv s) {b : BlockNo}
    (hpc : s.pc c = .append logged b) : Inv (logWriteAppend s c logged b) := by
  have hpos := h.outstanding_pos (c := c) (by rw [hpc]; rfl)
  have hreserved := h.reserved
  have hbound := h.bounded c logged b hpc
  have hsub : ∀ x ∈ logged, x ∈ s.lh := by
    intro x hx
    exact h.logged_mem c x (by rw [hpc]; exact hx)
  have hflag := h.not_committing hpos
  -- a block that is new to the header is new to the operation
  have hlength : (absorb s.lh b).length + (MAXOPBLOCKS - 1 - (logged.insert b).length) ≤
      s.lh.length + (MAXOPBLOCKS - 1 - logged.length) := by
    rw [absorb_eq]
    by_cases hb : b ∈ s.lh
    · rw [if_pos hb]
      have hgrow : logged.length ≤ (logged.insert b).length := length_le_length_insert
      omega
    · rw [if_neg hb]
      have hnew : b ∉ logged := fun hmem => hb (hsub b hmem)
      rw [insert_of_not_mem hnew, length_cons] at hbound ⊢
      rw [length_append, length_singleton]
      omega
  refine h.goto (fun d _ => h.no_commit hpos d) (nodup_absorb h.nodup b) (by rw [hpc]; rfl) ?_ ?_
    ?_ (by simp) (by simp [Pc.Commits, hflag]) (by simp [hflag]) (by simp) (fun hzero => by omega)
  · rw [hpc]
    rw [allowance_append, allowance_op]
    omega
  · intro x hx
    rw [mem_absorb]
    rcases mem_insert_iff.mp hx with rfl | hx
    · exact .inr rfl
    · exact .inl (hsub x hx)
  · intro d _ x hx
    exact mem_absorb.mpr (.inl (h.logged_mem d x hx))

theorem inv_endOp (h : Inv s) (hpc : s.pc c = .op logged) : Inv (endOp s c) := by
  have hpos := h.outstanding_pos (c := c) (by rw [hpc]; rfl)
  have hflag := h.not_committing hpos
  have hreserved := h.reserved
  unfold endOp
  simp only [hflag, Bool.false_eq_true, if_false]
  split
  · rename_i hlast
    refine h.goto (fun d _ => h.no_commit hpos d) h.nodup (by simp [hpc, Pc.opens]) ?_
      (by simp [Pc.logged]) (fun d _ => h.logged_mem d) (by simp) (by simp [Pc.Commits])
      (fun _ => hlast) (by simp) (by simp)
    rw [hpc]
    rw [allowance_op, allowance_commit]
    omega
  · rename_i hmore
    refine h.goto (fun d _ => h.no_commit hpos d) h.nodup (by simp [hpc, Pc.opens]) ?_
      (by simp [Pc.logged]) (fun d _ => h.logged_mem d) (by simp) (by simp [Pc.Commits])
      (by simp) (by simp) (fun hzero => absurd hzero hmore)
    rw [hpc]
    rw [allowance_op, allowance_idle]
    omega

theorem inv_commit (h : Inv s) (hpc : s.pc c = .commit) :
    Inv ({ s with lh := [] }.goto c .finish) := by
  have hcommits : (s.pc c).Commits := by
    rw [hpc]
    trivial
  obtain ⟨hflag, hzero⟩ := h.commit_flag c hcommits
  have hreserved := h.reserved
  refine h.goto (fun d hdc hd => hdc (h.commit_unique d c hd hcommits)) nodup_nil
    (by rw [hpc]; rfl) ?_ (by simp [Pc.logged]) ?_ (by simp) (by simp [Pc.Commits, hflag])
    (fun _ => hzero) (fun _ => rfl) (fun _ _ => rfl)
  · rw [hpc]
    rw [allowance_commit, allowance_finish, length_nil]
    omega
  · intro d _ b hb
    rw [h.logged_nil hzero d] at hb
    exact absurd hb not_mem_nil

theorem inv_finish (h : Inv s) (hpc : s.pc c = .finish) :
    Inv ({ s with committing := false }.goto c .idle) := by
  have hcommits : (s.pc c).Commits := by
    rw [hpc]
    trivial
  have hreserved := h.reserved
  refine h.goto (fun d hdc hd => hdc (h.commit_unique d c hd hcommits)) h.nodup
    (by rw [hpc]; rfl) ?_ (by simp [Pc.logged]) (fun d _ => h.logged_mem d) (by simp)
    (by simp [Pc.Commits]) (by simp) (by simp) (fun _ _ => h.finished c hpc)
  rw [hpc]
  rw [allowance_finish, allowance_idle]
  omega

theorem inv_act (h : Inv s) {a : Act np} {t : Sys np} (hguard : AtMost (MAXOPBLOCKS - 1) s a)
    (hact : s.act a = some t) : Inv t := by
  unfold Sys.act at hact
  cases a with
  | beginOp c =>
    simp only [beginOp] at hact
    split at hact
    · rename_i hpc
      split at hact
      · rename_i hadmits
        obtain rfl := some.inj hact
        exact inv_beginOp h hpc hadmits
      · cases hact
    · cases hact
  | logWrite c b =>
    cases hpc : s.pc c with
    | op logged =>
      simp only [hpc] at hact
      have hbound : ((s.pc c).logged.insert b).length ≤ MAXOPBLOCKS - 1 := hguard
      rw [hpc] at hbound
      obtain rfl := some.inj hact
      exact inv_logWriteCheck h hpc hbound
    | idle => simp [hpc] at hact
    | append logged b => simp [hpc] at hact
    | commit => simp [hpc] at hact
    | finish => simp [hpc] at hact
  | append c =>
    cases hpc : s.pc c with
    | append logged b =>
      simp only [hpc] at hact
      obtain rfl := some.inj hact
      exact inv_logWriteAppend h hpc
    | idle => simp [hpc] at hact
    | op logged => simp [hpc] at hact
    | commit => simp [hpc] at hact
    | finish => simp [hpc] at hact
  | endOp c =>
    cases hpc : s.pc c with
    | op logged =>
      simp only [hpc] at hact
      obtain rfl := some.inj hact
      exact inv_endOp h hpc
    | idle => simp [hpc] at hact
    | append logged b => simp [hpc] at hact
    | commit => simp [hpc] at hact
    | finish => simp [hpc] at hact
  | commit c =>
    simp only at hact
    split at hact
    · rename_i hpc
      obtain rfl := some.inj hact
      exact inv_commit h hpc
    · cases hact
  | finish c =>
    simp only at hact
    split at hact
    · rename_i hpc
      obtain rfl := some.inj hact
      exact inv_finish h hpc
    · cases hact

end Steps

theorem inv_start (np : ℕ) : Inv (start np) where
  calm := rfl
  nodup := nodup_nil
  counted := by simp [start, Pc.opens]
  reserved := by
    simp only [start, Pc.allowance, length_nil, sum_const_zero]
    decide
  logged_mem := by simp [start, Pc.logged]
  bounded := by simp [start]
  commit_unique := by simp [start, Pc.Commits]
  commit_flag := by simp [start, Pc.Commits]
  flag_commit := by simp [start]
  finished := by simp [start]
  settled := fun _ _ => rfl

theorem inv_of_run {log : List Empty} {s : Sys np}
    (hrun : (machine np).Run (AtMost (MAXOPBLOCKS - 1)) (start np) log s) : Inv s := by
  refine Machine.Run.invariant (P := fun _ s => Inv s) (inv_start np) ?_ hrun
  intro _ s a t h hguard hstep
  simp only [machine, h.calm, if_true] at hstep
  exact inv_act h hguard hstep

theorem AtMost.mono {m m' : ℕ} (hle : m ≤ m') {s : Sys np} {a : Act np} (h : AtMost m s a) :
    AtMost m' s a := by
  cases a with
  | logWrite c b => exact le_trans h hle
  | beginOp c => trivial
  | append c => trivial
  | endOp c => trivial
  | commit c => trivial
  | finish c => trivial

def logBlocks (c : Fin 3) (first n : ℕ) : List (Act 3) :=
  (List.range n).flatMap fun i => [.logWrite c (first + i), .append c]

def threeOps : List (Act 3) :=
  [.beginOp 0, .beginOp 1, .beginOp 2] ++ logBlocks 0 100 10 ++ logBlocks 1 200 10 ++
    logBlocks 2 300 9 ++ [.logWrite 2 309]

theorem exec_threeOps : ((machine 3).exec (AtMost MAXOPBLOCKS) [] (start 3) threeOps).any
    (fun r => decide (r.2.panic = some "too big a transaction")) = true := by
  decide +kernel

/-- Three operations with ten blocks each are admitted together, and the thirtieth
block finds the header one entry short of it. -/
theorem three_ops_panic :
    ∃ log s, (machine 3).Run (AtMost MAXOPBLOCKS) (start 3) log s ∧
      s.panic = some "too big a transaction" :=
  Machine.exists_run_of_exec (machine 3) (AtMost MAXOPBLOCKS) (start 3) threeOps
    (fun _ s => s.panic = some "too big a transaction") exec_threeOps

/-- The reservation is enough exactly when an operation logs at most MAXOPBLOCKS - 1
distinct blocks: then, whatever the interleaving and the number of processes, no
log_write panics and the header holds no block twice. -/
theorem log_reservation_iff (m : ℕ) :
    (∀ (np : ℕ) log s, (machine np).Run (AtMost m) (start np) log s → Safe s) ↔
      m ≤ MAXOPBLOCKS - 1 := by
  constructor
  · intro hsafe
    by_contra hm
    have hten : MAXOPBLOCKS ≤ m := by
      have : ¬ m ≤ 10 - 1 := hm
      omega
    obtain ⟨log, s, hrun, hP⟩ := Machine.exists_run_of_exec (machine 3) (AtMost MAXOPBLOCKS)
      (start 3) threeOps (fun _ s => s.panic = some "too big a transaction") exec_threeOps
    have hcalm := (hsafe 3 log s (hrun.mono fun _ _ h => h.mono hten)).1
    rw [hP] at hcalm
    cases hcalm
  · intro hm np log s hrun
    have hinv := inv_of_run (hrun.mono fun _ _ h => h.mono hm)
    exact ⟨hinv.calm, hinv.nodup⟩

/-- Group commit, when an operation logs at most 9 distinct blocks: one process commits at a
time, and only while no operation is in progress; until then every block that an operation
in progress has logged is in the header; and when all have returned nothing is left in it. -/
theorem commit_between_ops {log : List Empty} {s : Sys np}
    (hrun : (machine np).Run (AtMost 9) (start np) log s) :
    (∀ c, (s.pc c).Commits → ∀ d, (s.pc d).opens = 0 ∧ ((s.pc d).Commits → d = c)) ∧
      (∀ c, ∀ b ∈ (s.pc c).logged, b ∈ s.lh) ∧ ((∀ c, s.pc c = .idle) → s.lh = []) := by
  have h := inv_of_run hrun
  refine ⟨fun c hc d => ⟨?_, fun hd => h.commit_unique d c hd hc⟩, h.logged_mem, fun hidle => ?_⟩
  · have hzero := (h.commit_flag c hc).2
    have hle := opens_le (s := s) d
    have hcounted := h.counted
    omega
  · have hzero : s.outstanding = 0 := by simp [h.counted, hidle, Pc.opens]
    refine h.settled hzero ?_
    by_contra hflag
    obtain ⟨c, hc⟩ := h.flag_commit (by simpa using hflag)
    rw [hidle c] at hc
    exact hc

/-- Two operations overlap, and the one that ends last commits the block of the first. -/
theorem commit_between_ops_two :
    ∃ log s, (machine 2).Run (AtMost 9) (start 2) log s ∧ s.pc 1 = .commit ∧ s.lh = [7] ∧
      (s.pc 0).opens = 0 := by
  obtain ⟨log, s, hrun, hcommit, hlh⟩ := Machine.exists_run_of_exec (machine 2) (AtMost 9) (start 2)
    [.beginOp 0, .beginOp 1, .logWrite 0 7, .append 0, .endOp 0, .endOp 1]
    (fun _ s => s.pc 1 = .commit ∧ s.lh = [7]) (by decide +kernel)
  exact ⟨log, s, hrun, hcommit, hlh, ((commit_between_ops hrun).1 1 (by rw [hcommit]; trivial) 0).1⟩

end KernelLabs.LogOps

import KernelLabs.LogOps

/-!
The log of log.c as the disk sees it: write_log, write_head and install_trans of
commit, and the recovery that reads the header and installs what it names. Every
step of the machine is one block write, and the machine may crash between any two of
them, also in recovery. What survives a crash is the disk.

A block is an array of 32-bit words. The header block holds the number of entries in
its first word and the block numbers behind it; write_head leaves the words behind
the last entry as they are, and the log blocks of earlier transactions stay on the
disk. The buffers of a transaction are pinned until it is committed, so none of its
updates is on the disk before.
-/
namespace KernelLabs.LogCrash

open Runs LogOps Function List

abbrev BWORDS : ℕ := 128

instance : NeZero BWORDS := ⟨by decide⟩

abbrev Block := Fin BWORDS → ℕ

abbrev Disk := BlockNo → Block

/-- log.start and log.size; the header block belongs to the log. -/
structure Layout where
  start : ℕ
  size : ℕ
  size_pos : 0 < size

def Layout.Home (L : Layout) (b : ℕ) : Prop := b < L.start ∨ L.start + L.size ≤ b

instance (L : Layout) (b : BlockNo) : Decidable (L.Home b) := by
  unfold Layout.Home
  infer_instance

def Layout.entry (L : Layout) (tail : ℕ) : ℕ := L.start + tail + 1

def blockWord (i : ℕ) : Fin BWORDS := Fin.ofNat BWORDS (i + 1)

def writeHead (hb : Block) (lh : List BlockNo) : Block := fun w =>
  if w = 0 then lh.length else (lh[w.val - 1]?).getD (hb w)

def readHead (hb : Block) : List BlockNo :=
  (List.range (hb 0)).map fun i => hb (blockWord i)

/-- The log_write calls of one transaction, with the contents of the buffers. -/
abbrev Tx := List (BlockNo × Block)

def Tx.header (tx : Tx) : List BlockNo := tx.foldl (fun lh u => absorb lh u.1) []

def Tx.apply (d : Disk) (tx : Tx) : Disk := tx.foldl (fun d u => update d u.1 u.2) d

/-- log_write's checks: the header has room for the entries, and so has the log. -/
def Tx.Valid (L : Layout) (tx : Tx) : Prop :=
  (∀ u ∈ tx, L.Home u.1) ∧ tx.header.length ≤ LOGSIZE ∧ tx.header.length ≤ L.size - 1

instance (L : Layout) (tx : Tx) : Decidable (tx.Valid L) := by
  unfold Tx.Valid
  infer_instance

/-- Where the system stands: between transactions, in write_log, in install_trans of a
commit, after a crash, in install_trans of a recovery, or after it. The header and the
buffers are in memory. -/
inductive Phase
  | idle
  | logging (lh : List BlockNo) (cache : Disk) (tail : ℕ)
  | installing (lh : List BlockNo) (tail : ℕ)
  | down
  | recovering (lh : List BlockNo) (tail : ℕ)
  | recovered

structure Sys where
  disk : Disk
  phase : Phase

inductive Act
  | commit (tx : Tx)
  | write
  | crash
  | recover

inductive Entry
  | began (tx : Tx)
  | finished

variable (L : Layout)

def writeLog (disk cache : Disk) (b : BlockNo) (tail : ℕ) : Disk :=
  update disk (L.entry tail) (cache b)

def installTrans (disk : Disk) (b : BlockNo) (tail : ℕ) : Disk :=
  update disk b (disk (L.entry tail))

def putHead (disk : Disk) (lh : List BlockNo) : Disk :=
  update disk L.start (writeHead (disk L.start) lh)

/-- The next block write of the commit or the recovery in progress. A loop that has
come to its end goes on with the write that follows it. -/
def Sys.write (s : Sys) : Option Sys :=
  match s.phase with
  | .logging lh cache tail =>
    match lh[tail]? with
    | some b =>
      some { disk := writeLog L s.disk cache b tail, phase := .logging lh cache (tail + 1) }
    | none => some { disk := putHead L s.disk lh, phase := .installing lh 0 }
  | .installing lh tail =>
    match lh[tail]? with
    | some b => some { disk := installTrans L s.disk b tail, phase := .installing lh (tail + 1) }
    | none => some { disk := putHead L s.disk [], phase := .idle }
  | .recovering lh tail =>
    match lh[tail]? with
    | some b => some { disk := installTrans L s.disk b tail, phase := .recovering lh (tail + 1) }
    | none => some { disk := putHead L s.disk [], phase := .recovered }
  | _ => none

/-- commit returns at once when nothing was logged. -/
def Sys.commit (s : Sys) (tx : Tx) : Sys :=
  if tx.header = [] then s else { s with phase := .logging tx.header (tx.apply s.disk) 0 }

def Sys.step (s : Sys) : Act → Option Sys
  | .commit tx =>
    match s.phase with
    | .idle => if tx.Valid L then some (s.commit tx) else none
    | _ => none
  | .write => s.write L
  | .crash =>
    match s.phase with
    | .recovered => none
    | _ => some { s with phase := .down }
  | .recover =>
    match s.phase with
    | .down => some { s with phase := .recovering (readHead (s.disk L.start)) 0 }
    | _ => none

def Sys.emit (s : Sys) : Act → List Entry
  | .commit tx => if tx.header = [] then [.finished, .began tx] else [.began tx]
  | .write =>
    match s.phase with
    | .installing lh tail => if lh[tail]? = none then [.finished] else []
    | _ => []
  | _ => []

/-- The machine ends with the first recovery that completes. -/
def machine : Machine Sys Act Entry where
  step := Sys.step L
  emit := Sys.emit

def start (d : Disk) : Sys where
  disk := d
  phase := .idle

def transactions (log : List Entry) : List Tx :=
  (log.filterMap fun
    | .began tx => some tx
    | .finished => none).reverse

def finished (log : List Entry) : ℕ :=
  (log.filterMap fun
    | .finished => some ()
    | .began _ => none).length

def after (d : Disk) (txs : List Tx) (k : ℕ) : Disk := (txs.take k).foldl Tx.apply d

section Log

variable (log : List Entry) (tx : Tx)

@[simp] theorem transactions_began : transactions (.began tx :: log) = transactions log ++ [tx] := by
  simp [transactions]

@[simp] theorem transactions_finished : transactions (.finished :: log) = transactions log := rfl

@[simp] theorem finished_began : finished (.began tx :: log) = finished log := rfl

@[simp] theorem finished_finished : finished (.finished :: log) = finished log + 1 := by
  simp [finished]

theorem after_append {txs : List Tx} {k : ℕ} (d : Disk) (hk : k ≤ txs.length) :
    after d (txs ++ [tx]) k = after d txs k := by
  rw [after, after, take_append_of_le_length hk]

theorem after_last (d : Disk) (txs : List Tx) :
    after d (txs ++ [tx]) (txs.length + 1) = Tx.apply (after d txs txs.length) tx := by
  rw [after, after, take_length, take_of_length_le (by simp), foldl_append]
  rfl

end Log

variable {b : BlockNo}

section Header

theorem readHead_nil {hb : Block} (h : hb 0 = 0) : readHead hb = [] := by
  simp [readHead, h]

theorem writeHead_zero (hb : Block) (lh : List BlockNo) : writeHead hb lh 0 = lh.length := rfl

theorem writeHead_blockWord (hb : Block) {lh : List BlockNo} (hsmall : lh.length ≤ LOGSIZE)
    {i : ℕ} (hi : lh[i]? = some b) : writeHead hb lh (blockWord i) = b := by
  obtain ⟨hlt, rfl⟩ := List.getElem?_eq_some_iff.mp hi
  have hval : (blockWord i).val = i + 1 := by
    have hsize : lh.length ≤ 30 := hsmall
    exact Nat.mod_eq_of_lt (show i + 1 < 128 by omega)
  have hne : blockWord i ≠ 0 := by
    intro hzero
    have := congrArg Fin.val hzero
    rw [hval] at this
    exact absurd this (by simp)
  simp only [writeHead, hne, if_false, hval, Nat.add_sub_cancel, hi, Option.getD_some]

/-- What write_head wrote is what read_head reads. -/
theorem readHead_writeHead (hb : Block) {lh : List BlockNo} (hsmall : lh.length ≤ LOGSIZE) :
    readHead (writeHead hb lh) = lh := by
  refine ext_getElem? fun i => ?_
  rw [readHead, writeHead_zero, getElem?_map]
  by_cases hi : i < lh.length
  · rw [getElem?_range hi, Option.map_some, getElem?_eq_getElem hi,
      writeHead_blockWord hb hsmall (getElem?_eq_getElem hi)]
  · rw [getElem?_eq_none (by simpa using hi), getElem?_eq_none (by omega)]
    rfl

end Header

section Transactions

theorem mem_foldl_absorb (tx : Tx) (lh : List BlockNo) :
    b ∈ tx.foldl (fun lh u => absorb lh u.1) lh ↔ b ∈ lh ∨ ∃ u ∈ tx, u.1 = b := by
  induction tx generalizing lh with
  | nil => simp
  | cons u rest ih =>
    rw [foldl_cons, ih, mem_absorb]
    simp only [mem_cons, exists_eq_or_imp, or_assoc, eq_comm (a := b)]

theorem mem_header {tx : Tx} : b ∈ tx.header ↔ ∃ u ∈ tx, u.1 = b := by
  rw [Tx.header, mem_foldl_absorb]
  simp

/-- A block that the transaction did not log keeps its contents. -/
theorem apply_of_notMem {tx : Tx} (d : Disk) (hb : b ∉ tx.header) : tx.apply d b = d b := by
  rw [mem_header] at hb
  induction tx generalizing d with
  | nil => rfl
  | cons u rest ih =>
    have hne : b ≠ u.1 := fun heq => hb ⟨u, mem_cons_self, heq.symm⟩
    have hrest : ¬ ∃ v ∈ rest, v.1 = b := by
      rintro ⟨v, hv, heq⟩
      exact hb ⟨v, mem_cons_of_mem _ hv, heq⟩
    change Tx.apply (update d u.1 u.2) rest b = d b
    rw [ih _ hrest, update_of_ne hne]

/-- The contents of a block after a transaction depend on nothing but its contents before. -/
theorem apply_congr {d d' : Disk} (tx : Tx) (h : d b = d' b) : tx.apply d b = tx.apply d' b := by
  induction tx generalizing d d' with
  | nil => exact h
  | cons u rest ih =>
    change Tx.apply (update d u.1 u.2) rest b =
      Tx.apply (update d' u.1 u.2) rest b
    refine ih ?_
    by_cases hb : b = u.1
    · subst hb
      rw [update_self, update_self]
    · rw [update_of_ne hb, update_of_ne hb, h]

end Transactions

/-- Recovery brings the home blocks of this disk to the contents `D`: those that the
header names stand in the log, the others at home. -/
structure Recoverable (D : Disk) (lh : List BlockNo) (disk : Disk) : Prop where
  head : readHead (disk L.start) = lh
  small : lh.length ≤ LOGSIZE
  fits : lh.length ≤ L.size - 1
  home : ∀ b ∈ lh, L.Home b
  stored : ∀ j b, lh[j]? = some b → disk (L.entry j) = D b
  rest : ∀ b, L.Home b → b ∉ lh → disk b = D b

/-- The first `tail` entries of the header have been installed. -/
def Installed (D : Disk) (lh : List BlockNo) (tail : ℕ) (disk : Disk) : Prop :=
  ∀ j b, j < tail → lh[j]? = some b → disk b = D b

/-- The buffers of a transaction that takes the home blocks from `D'` to `D`. -/
structure Prepared (D D' : Disk) (lh : List BlockNo) (cache : Disk) : Prop where
  small : lh.length ≤ LOGSIZE
  fits : lh.length ≤ L.size - 1
  home : ∀ b ∈ lh, L.Home b
  cached : ∀ b ∈ lh, cache b = D b
  rest : ∀ b, L.Home b → b ∉ lh → D' b = D b

/-- The first `tail` buffers have been written to the log. -/
def Logged (lh : List BlockNo) (cache : Disk) (tail : ℕ) (disk : Disk) : Prop :=
  ∀ j b, j < tail → lh[j]? = some b → disk (L.entry j) = cache b

section Writes

variable {L} {D D' cache disk : Disk} {lh : List BlockNo} {tail : ℕ} {b : BlockNo}

theorem start_notHome : ¬ L.Home L.start := by
  have hpos := L.size_pos
  unfold Layout.Home
  omega

/-- A log block of an entry is neither the header nor a home block. -/
theorem entry_notHome (hfits : lh.length ≤ L.size - 1) (htail : lh[tail]? = some b) :
    ¬ L.Home (L.entry tail) := by
  obtain ⟨hlt, -⟩ := List.getElem?_eq_some_iff.mp htail
  unfold Layout.Home Layout.entry
  omega

theorem entry_ne_start (tail : ℕ) : L.entry tail ≠ L.start := by
  unfold Layout.entry
  omega

theorem entry_inj {i j : ℕ} : L.entry i = L.entry j ↔ i = j := by
  unfold Layout.entry
  omega

/-- A turn of write_log does not touch what recovery would restore from an empty header. -/
theorem Recoverable.writeLog (h : Recoverable L D' [] disk) (hprep : Prepared L D D' lh cache)
    (htail : lh[tail]? = some b) : Recoverable L D' [] (writeLog L disk cache b tail) where
  head := by
    rw [LogCrash.writeLog, update_of_ne (entry_ne_start tail).symm]
    exact h.head
  small := h.small
  fits := h.fits
  home := h.home
  stored := by simp
  rest := by
    intro c hc _
    have hne : c ≠ L.entry tail := by
      rintro rfl
      exact entry_notHome hprep.fits htail hc
    rw [LogCrash.writeLog, update_of_ne hne]
    exact h.rest c hc not_mem_nil

theorem Logged.succ (h : Logged L lh cache tail disk) (htail : lh[tail]? = some b) :
    Logged L lh cache (tail + 1) (writeLog L disk cache b tail) := by
  intro j c hj hc
  unfold LogCrash.writeLog
  by_cases hjt : j = tail
  · subst hjt
    rw [update_self, Option.some.inj (htail.symm.trans hc)]
  · rw [update_of_ne (fun heq => hjt (entry_inj.mp heq))]
    exact h j c (by omega) hc

/-- The write of the header is the point at which the transaction takes effect. -/
theorem Recoverable.commit (h : Recoverable L D' [] disk) (hprep : Prepared L D D' lh cache)
    (hlogged : Logged L lh cache tail disk) (hend : lh[tail]? = none) :
    Recoverable L D lh (putHead L disk lh) where
  head := by
    rw [putHead, update_self]
    exact readHead_writeHead _ hprep.small
  small := hprep.small
  fits := hprep.fits
  home := hprep.home
  stored := by
    intro j c hc
    have hj : j < tail := by
      obtain ⟨hlt, -⟩ := List.getElem?_eq_some_iff.mp hc
      have := List.getElem?_eq_none_iff.mp hend
      omega
    rw [putHead, update_of_ne (entry_ne_start j), hlogged j c hj hc]
    exact hprep.cached c (mem_of_getElem? hc)
  rest := by
    intro c hc hnot
    have hne : c ≠ L.start := by
      rintro rfl
      exact start_notHome hc
    rw [putHead, update_of_ne hne, h.rest c hc not_mem_nil]
    exact hprep.rest c hc hnot

/-- A turn of install_trans leaves the header and the log as they are. -/
theorem Recoverable.installTrans (h : Recoverable L D lh disk) (htail : lh[tail]? = some b) :
    Recoverable L D lh (installTrans L disk b tail) := by
  have hmem : b ∈ lh := mem_of_getElem? htail
  have hhome : L.Home b := h.home b hmem
  have hkeep : ∀ c, ¬ L.Home c → LogCrash.installTrans L disk b tail c = disk c := by
    intro c hc
    refine update_of_ne ?_ _ _
    rintro rfl
    exact hc hhome
  exact {
    head := by
      rw [hkeep _ start_notHome]
      exact h.head
    small := h.small
    fits := h.fits
    home := h.home
    stored := by
      intro j c hc
      rw [hkeep _ (entry_notHome h.fits hc)]
      exact h.stored j c hc
    rest := by
      intro c hc hnot
      have hne : c ≠ b := by
        rintro rfl
        exact hnot hmem
      rw [LogCrash.installTrans, update_of_ne hne]
      exact h.rest c hc hnot }

theorem Installed.succ (hinst : Installed D lh tail disk) (h : Recoverable L D lh disk)
    (htail : lh[tail]? = some b) : Installed D lh (tail + 1) (installTrans L disk b tail) := by
  intro j c hj hc
  unfold LogCrash.installTrans
  by_cases hcb : c = b
  · subst hcb
    rw [update_self]
    exact h.stored tail c htail
  · rw [update_of_ne hcb]
    have hjt : j ≠ tail := by
      rintro rfl
      exact hcb (Option.some.inj (hc.symm.trans htail))
    exact hinst j c (by omega) hc

/-- Clearing the header after everything has been installed. -/
theorem Recoverable.clear (h : Recoverable L D lh disk) (hinst : Installed D lh tail disk)
    (hend : lh[tail]? = none) : Recoverable L D [] (putHead L disk []) where
  head := by
    rw [putHead, update_self]
    exact readHead_nil rfl
  small := Nat.zero_le _
  fits := Nat.zero_le _
  home := by simp
  stored := by simp
  rest := by
    intro c hc _
    have hne : c ≠ L.start := by
      rintro rfl
      exact start_notHome hc
    rw [putHead, update_of_ne hne]
    by_cases hmem : c ∈ lh
    · obtain ⟨j, hj⟩ := mem_iff_getElem?.mp hmem
      have hlt : j < tail := by
        obtain ⟨hlen, -⟩ := List.getElem?_eq_some_iff.mp hj
        have := List.getElem?_eq_none_iff.mp hend
        omega
      exact hinst j c hlt hj
    · exact h.rest c hc hmem

/-- A valid transaction prepares its own contents. -/
theorem prepared_of_valid {tx : Tx} (hvalid : tx.Valid L) (h : Recoverable L D' [] disk) :
    Prepared L (tx.apply D') D' tx.header (tx.apply disk) where
  small := hvalid.2.1
  fits := hvalid.2.2
  home := by
    intro c hc
    obtain ⟨u, hu, rfl⟩ := mem_header.mp hc
    exact hvalid.1 u hu
  cached := by
    intro c hc
    obtain ⟨u, hu, rfl⟩ := mem_header.mp hc
    exact apply_congr tx (h.rest u.1 (hvalid.1 u hu) not_mem_nil)
  rest := fun c _ hnot => (apply_of_notMem D' hnot).symm

end Writes

/-- A number of transactions that takes in all that have finished, and at most the one
that was interrupted besides. -/
def Between (log : List Entry) (k : ℕ) : Prop :=
  finished log ≤ k ∧ k ≤ (transactions log).length ∧
    (transactions log).length ≤ finished log + 1

/-- Where the contents of the home blocks are, in each phase. -/
def Inv (d : Disk) (log : List Entry) (s : Sys) : Prop :=
  let D := after d (transactions log)
  let n := finished log
  match s.phase with
  | .idle => (transactions log).length = n ∧ Recoverable L (D n) [] s.disk
  | .logging lh cache tail =>
    (transactions log).length = n + 1 ∧ Recoverable L (D n) [] s.disk ∧
      Prepared L (D (n + 1)) (D n) lh cache ∧ Logged L lh cache tail s.disk
  | .installing lh tail =>
    (transactions log).length = n + 1 ∧ Recoverable L (D (n + 1)) lh s.disk ∧
      Installed (D (n + 1)) lh tail s.disk
  | .down => ∃ k lh, Between log k ∧ Recoverable L (D k) lh s.disk
  | .recovering lh tail =>
    ∃ k, Between log k ∧ Recoverable L (D k) lh s.disk ∧ Installed (D k) lh tail s.disk
  | .recovered => ∃ k, Between log k ∧ Recoverable L (D k) [] s.disk

section Steps

variable {L} {d : Disk} {log : List Entry} {s t : Sys}

theorem inv_commit {tx : Tx} (h : Inv L d log s) (hphase : s.phase = .idle)
    (hvalid : tx.Valid L) : Inv L d (s.emit (.commit tx) ++ log) (s.commit tx) := by
  simp only [Inv, hphase] at h
  obtain ⟨hlen, hrec⟩ := h
  have hold : after d (transactions log ++ [tx]) (finished log) =
      after d (transactions log) (finished log) := after_append tx d hlen.ge
  have hnew : after d (transactions log ++ [tx]) (finished log + 1) =
      tx.apply (after d (transactions log) (finished log)) := by
    rw [← hlen]
    exact after_last tx d _
  by_cases hempty : tx.header = []
  · -- nothing was logged, and the disk has the contents it should have
    have hsame : tx.apply (after d (transactions log) (finished log)) =
        after d (transactions log) (finished log) := by
      funext b
      exact apply_of_notMem _ (by simp [hempty])
    simp only [Sys.emit, Sys.commit, hempty, if_true, cons_append, nil_append, Inv,
      hphase, transactions_finished, transactions_began, finished_finished, finished_began,
      length_append, length_singleton, hnew, hsame]
    exact ⟨by omega, hrec⟩
  · simp only [Sys.emit, Sys.commit, hempty, if_false, cons_append, nil_append, Inv,
      transactions_began, finished_began, length_append, length_singleton, hold, hnew]
    exact ⟨by omega, hrec, prepared_of_valid hvalid hrec, fun j _ hj => absurd hj (Nat.not_lt_zero j)⟩

theorem inv_write (h : Inv L d log s) (hwrite : s.write L = some t) :
    Inv L d (s.emit .write ++ log) t := by
  unfold Sys.write at hwrite
  cases hphase : s.phase with
  | logging lh cache tail =>
    simp only [Inv, hphase] at h
    obtain ⟨hlen, hrec, hprep, hlogged⟩ := h
    simp only [hphase] at hwrite
    have hemit : s.emit .write = [] := by simp [Sys.emit, hphase]
    rw [hemit, nil_append]
    cases htail : lh[tail]? with
    | some b =>
      rw [htail] at hwrite
      cases hwrite
      exact ⟨hlen, hrec.writeLog hprep htail, hprep, hlogged.succ htail⟩
    | none =>
      rw [htail] at hwrite
      cases hwrite
      exact ⟨hlen, hrec.commit hprep hlogged htail, fun j _ hj => absurd hj (Nat.not_lt_zero j)⟩
  | installing lh tail =>
    simp only [Inv, hphase] at h
    obtain ⟨hlen, hrec, hinst⟩ := h
    simp only [hphase] at hwrite
    cases htail : lh[tail]? with
    | some b =>
      have hemit : s.emit .write = [] := by simp [Sys.emit, hphase, htail]
      rw [htail] at hwrite
      cases hwrite
      rw [hemit, nil_append]
      exact ⟨hlen, hrec.installTrans htail, hinst.succ hrec htail⟩
    | none =>
      have hemit : s.emit .write = [.finished] := by simp [Sys.emit, hphase, htail]
      rw [htail] at hwrite
      cases hwrite
      simp only [hemit, cons_append, nil_append, Inv, transactions_finished, finished_finished]
      exact ⟨hlen, hrec.clear hinst htail⟩
  | recovering lh tail =>
    simp only [Inv, hphase] at h
    obtain ⟨k, hk, hrec, hinst⟩ := h
    simp only [hphase] at hwrite
    have hemit : s.emit .write = [] := by simp [Sys.emit, hphase]
    rw [hemit, nil_append]
    cases htail : lh[tail]? with
    | some b =>
      rw [htail] at hwrite
      cases hwrite
      exact ⟨k, hk, hrec.installTrans htail, hinst.succ hrec htail⟩
    | none =>
      rw [htail] at hwrite
      cases hwrite
      exact ⟨k, hk, hrec.clear hinst htail⟩
  | idle => simp [hphase] at hwrite
  | down => simp [hphase] at hwrite
  | recovered => simp [hphase] at hwrite

/-- In every phase the disk can be recovered, to the contents after a number of
transactions that takes in all that have finished. -/
theorem Inv.recoverable (h : Inv L d log s) :
    ∃ k lh, Between log k ∧ Recoverable L (after d (transactions log) k) lh s.disk := by
  unfold Inv at h
  cases hphase : s.phase with
  | idle =>
    simp only [hphase] at h
    exact ⟨finished log, [], ⟨le_rfl, by omega, by omega⟩, h.2⟩
  | logging lh cache tail =>
    simp only [hphase] at h
    exact ⟨finished log, [], ⟨le_rfl, by omega, by omega⟩, h.2.1⟩
  | installing lh tail =>
    simp only [hphase] at h
    exact ⟨finished log + 1, lh, ⟨by omega, by omega, by omega⟩, h.2.1⟩
  | down =>
    simp only [hphase] at h
    exact h
  | recovering lh tail =>
    simp only [hphase] at h
    obtain ⟨k, hk, hrec, -⟩ := h
    exact ⟨k, lh, hk, hrec⟩
  | recovered =>
    simp only [hphase] at h
    obtain ⟨k, hk, hrec⟩ := h
    exact ⟨k, [], hk, hrec⟩

theorem inv_step {a : Act} (h : Inv L d log s) (hstep : s.step L a = some t) :
    Inv L d (s.emit a ++ log) t := by
  cases a with
  | commit tx =>
    simp only [Sys.step] at hstep
    split at hstep
    · rename_i hphase
      split at hstep
      · rename_i hvalid
        obtain rfl := Option.some.inj hstep
        exact inv_commit h hphase hvalid
      · cases hstep
    · cases hstep
  | write => exact inv_write h hstep
  | crash =>
    simp only [Sys.step] at hstep
    split at hstep
    · cases hstep
    · obtain rfl := Option.some.inj hstep
      exact h.recoverable
  | recover =>
    simp only [Sys.step] at hstep
    split at hstep
    · obtain rfl := Option.some.inj hstep
      obtain ⟨k, lh, hk, hrec⟩ := h.recoverable
      change ∃ k, _
      rw [hrec.head]
      exact ⟨k, hk, hrec, fun j _ hj => absurd hj (Nat.not_lt_zero j)⟩
    · cases hstep

theorem inv_start (hclean : d L.start 0 = 0) : Inv L d [] (start d) := by
  refine ⟨rfl, ?_⟩
  exact {
    head := readHead_nil hclean
    small := Nat.zero_le _
    fits := Nat.zero_le _
    home := by simp
    stored := by simp
    rest := fun _ _ _ => rfl }

theorem inv_of_run (hclean : d L.start 0 = 0)
    (hrun : (machine L).Run Machine.Free (start d) log s) : Inv L d log s := by
  refine Machine.Run.invariant (P := Inv L d) (inv_start hclean) ?_ hrun
  intro log s a t h _ hstep
  exact inv_step h hstep

/-- From a disk with an empty log: after any transactions, a crash between any two block
writes and any number of crashes in recovery, the first recovery that completes leaves
an empty log and the home blocks as they are after the transactions whose commit had
finished, or after these and the whole of the one that was interrupted. -/
theorem crash_atomicity (hclean : d L.start 0 = 0)
    (hrun : (machine L).Run Machine.Free (start d) log s) (hdone : s.phase = .recovered) :
    ∃ k, finished log ≤ k ∧ k ≤ (transactions log).length ∧
      (transactions log).length ≤ finished log + 1 ∧
      (∀ b, L.Home b → s.disk b = after d (transactions log) k b) ∧
      readHead (s.disk L.start) = [] := by
  have hinv := inv_of_run hclean hrun
  simp only [Inv, hdone] at hinv
  obtain ⟨k, ⟨hlow, hhigh, hone⟩, hrec⟩ := hinv
  exact ⟨k, hlow, hhigh, hone, fun b hb => hrec.rest b hb not_mem_nil, hrec.head⟩

end Steps

def smallLayout : Layout := ⟨2, 4, by decide⟩

/-- A commit that crashes in install_trans, and a recovery that crashes as well, still
leave both blocks of the transaction in place. -/
theorem crash_atomicity_twice :
    ∃ log s, (machine smallLayout).Run Machine.Free (start fun _ _ => 0) log s ∧
      (∃ k, finished log ≤ k ∧ k ≤ (transactions log).length ∧
        ∀ b, smallLayout.Home b → s.disk b = after (fun _ _ => 0) (transactions log) k b) ∧
      (finished log = 0 ∧ s.disk 10 5 = 1 ∧ s.disk 11 5 = 2) := by
  obtain ⟨log, s, hrun, hdone, hdisk⟩ :=
    Machine.exists_run_of_exec (machine smallLayout) Machine.Free (start fun _ _ => 0)
      [.commit [(10, fun _ => 7), (11, fun _ => 2), (10, fun _ => 1)], .write, .write, .write,
        .write, .crash, .recover, .write, .crash, .recover, .write, .write, .write]
      (fun log s => s.phase matches .recovered ∧
        finished log = 0 ∧ s.disk 10 5 = 1 ∧ s.disk 11 5 = 2)
      (by decide +kernel)
  have hphase : s.phase = .recovered := by
    cases hphase : s.phase <;> simp [hphase] at hdone ⊢
  obtain ⟨k, hlow, hhigh, -, hhome, -⟩ := crash_atomicity rfl hrun hphase
  exact ⟨log, s, hrun, ⟨k, hlow, hhigh, hhome⟩, hdisk⟩

end KernelLabs.LogCrash

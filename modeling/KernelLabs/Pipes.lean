import KernelLabs.RingBuffer
import KernelLabs.Runs

/-!
The pipes of pipe.c. The lock of a pipe is held except in sleep, so a call is a
sequence of steps that each run from the entry, or from a wakeup, to the next sleep
or to the return. The counters are the 32-bit words of the source and are never
reset. The bytes that are copied are written to the log, with the results that the
calls return.

A pipe whose two ends are closed has been given to kfree, and no step is taken on
it. A process that sleeps in a call holds a reference to its end, so a pipe is not
freed under it; the machine does not use this, and lets the ends be closed at any
time.
-/
namespace KernelLabs.Pipes

open Runs RingBuffer Function List Option

abbrev PIPESIZE : ℕ := 512

instance : NeZero PIPESIZE := ⟨by decide⟩

abbrev Byte := UInt8

/-- The processes, of which there may be any number. -/
abbrev Pid := ℕ

/-- struct pipe without its lock. -/
structure Pipe where
  data : Fin PIPESIZE → Byte
  nread : BitVec 32
  nwrite : BitVec 32
  readopen : Bool
  writeopen : Bool

def Pipe.Full (p : Pipe) : Prop := p.nwrite = p.nread + BitVec.ofNat 32 PIPESIZE

def Pipe.Empty (p : Pipe) : Prop := p.nread = p.nwrite

instance (p : Pipe) : Decidable p.Full := by
  unfold Pipe.Full
  infer_instance

instance (p : Pipe) : Decidable p.Empty := by
  unfold Pipe.Empty
  infer_instance

/-- p->data[p->nwrite++ % PIPESIZE] = b -/
def Pipe.put (p : Pipe) (b : Byte) : Pipe :=
  { p with data := update p.data (slot PIPESIZE p.nwrite) b, nwrite := p.nwrite + 1 }

/-- The byte of p->data[p->nread++ % PIPESIZE]. -/
def Pipe.front (p : Pipe) : Byte := p.data (slot PIPESIZE p.nread)

/-- The pipe after p->data[p->nread++ % PIPESIZE]. -/
def Pipe.advance (p : Pipe) : Pipe := { p with nread := p.nread + 1 }

/-- How a stretch of pipewrite ends: by return n, by return -1, or in sleep with the
bytes that are still to be copied. -/
inductive Stop
  | returned | failed | sleeping (left : List Byte)
  deriving DecidableEq, Repr

/-- The loop of pipewrite over the bytes that are left, up to the next sleep. The
bytes copied into the pipe are returned with it. -/
def writeLoop (killed : Bool) : List Byte → Pipe → Pipe × List Byte × Stop
  | [], p => (p, [], .returned)
  | b :: rest, p =>
      if p.Full then
        if p.readopen = false ∨ killed = true then (p, [], .failed)
        else (p, [], .sleeping (b :: rest))
      else
        let (q, copied, stop) := writeLoop killed rest (p.put b)
        (q, b :: copied, stop)

def readLoop : ℕ → Pipe → Pipe × List Byte
  | 0, p => (p, [])
  | n + 1, p =>
      if p.Empty then (p, [])
      else
        let (q, copied) := readLoop n p.advance
        (q, p.front :: copied)

/-- Where a process stands: outside, or in a call that sleeps or has been woken. A
writer keeps the bytes that are left of its buffer and the length it was given. -/
inductive Call
  | idle
  | writing (left : List Byte) (n : ℤ) (awake : Bool)
  | reading (n : ℤ) (awake : Bool)
  deriving DecidableEq

/-- The pipe, whether it has been freed, the calls in progress and the killed flags. -/
structure Sys where
  pipe : Pipe
  freed : Bool
  call : Pid → Call
  killed : Pid → Bool

/-- wakeup(&p->nread): the readers sleep on that channel. -/
def wakeReaders (call : Pid → Call) (c : Pid) : Call :=
  match call c with
  | .reading n _ => .reading n true
  | other => other

/-- wakeup(&p->nwrite): the writers sleep on that channel. -/
def wakeWriters (call : Pid → Call) (c : Pid) : Call :=
  match call c with
  | .writing left n _ => .writing left n true
  | other => other

/-- kill wakes its process whatever it sleeps on. -/
def wakeUp : Call → Call
  | .idle => .idle
  | .writing left n _ => .writing left n true
  | .reading n _ => .reading n true

inductive Entry
  | copiedIn (b : Byte)
  | copiedOut (b : Byte)
  | writeReturned (c : Pid) (r : ℤ)
  | readReturned (c : Pid) (n r : ℤ)
  deriving DecidableEq

/-- A stretch of pipewrite(p, addr, n) in process c with these bytes left. -/
def pipewrite (s : Sys) (c : Pid) (left : List Byte) (n : ℤ) : Sys × List Entry :=
  let (p, copied, stop) := writeLoop (s.killed c) left s.pipe
  let moved := (copied.map Entry.copiedIn).reverse
  match stop with
  | .returned =>
      ({ s with
          pipe := p
          call := update (wakeReaders s.call) c .idle },
        .writeReturned c n :: moved)
  | .failed =>
      -- return -1 without a wakeup
      ({ s with pipe := p, call := update s.call c .idle }, .writeReturned c (-1) :: moved)
  | .sleeping rest =>
      ({ s with
          pipe := p
          call := update (wakeReaders s.call) c (.writing rest n false) },
        moved)

/-- A stretch of piperead(p, addr, n) in process c. -/
def piperead (s : Sys) (c : Pid) (n : ℤ) : Sys × List Entry :=
  if s.pipe.Empty ∧ s.pipe.writeopen = true then
    if s.killed c then
      ({ s with call := update s.call c .idle }, [.readReturned c n (-1)])
    else
      ({ s with call := update s.call c (.reading n false) }, [])
  else
    let (p, copied) := readLoop n.toNat s.pipe
    ({ s with pipe := p, call := update (wakeWriters s.call) c .idle },
      .readReturned c n copied.length :: (copied.map Entry.copiedOut).reverse)

/-- pipeclose, which frees the pipe when both ends are closed. -/
def pipeclose (s : Sys) (writable : Bool) : Sys :=
  let p := if writable then { s.pipe with writeopen := false }
    else { s.pipe with readopen := false }
  { s with
    pipe := p
    call := if writable then wakeReaders s.call else wakeWriters s.call
    freed := !p.readopen && !p.writeopen }

/-- A call is entered, a call that has been woken goes on, an end is closed, or a
process is killed. A kill between a call's test of killed and its sleep wakes nobody. -/
inductive Act
  | write (c : Pid) (addr : ℕ → Byte) (n : ℤ)
  | read (c : Pid) (n : ℤ)
  | resume (c : Pid)
  | close (writable : Bool)
  | kill (c : Pid) (wakes : Bool)

def Sys.act (s : Sys) : Act → Option (Sys × List Entry)
  | .write c addr n =>
      match s.call c with
      | .idle => some (pipewrite s c ((List.range n.toNat).map addr) n)
      | _ => none
  | .read c n =>
      match s.call c with
      | .idle => some (piperead s c n)
      | _ => none
  | .resume c =>
      match s.call c with
      | .writing left n true => some (pipewrite s c left n)
      | .reading n true => some (piperead s c n)
      | _ => none
  | .close writable => some (pipeclose s writable, [])
  | .kill c wakes =>
      some ({ s with
        killed := update s.killed c true
        call := if wakes then update s.call c (wakeUp (s.call c)) else s.call }, [])

/-- No step is taken on a pipe that has been freed. -/
def machine : Machine Sys Act Entry where
  step s a := if s.freed then none else (s.act a).map Prod.fst
  emit s a := ((s.act a).map Prod.snd).getD []

def start (data : Fin PIPESIZE → Byte) (n : BitVec 32) (killed : Pid → Bool) : Sys where
  pipe := { data := data, nread := n, nwrite := n, readopen := true, writeopen := true }
  freed := false
  call := fun _ => .idle
  killed := killed

def copiedIn (log : List Entry) : List Byte :=
  (log.filterMap fun
    | .copiedIn b => some b
    | _ => none).reverse

def copiedOut (log : List Entry) : List Byte :=
  (log.filterMap fun
    | .copiedOut b => some b
    | _ => none).reverse

section Log

variable (log : List Entry) (bytes : List Byte) (c : Pid) (n r : ℤ)

@[simp] theorem copiedIn_writeReturned :
    copiedIn (.writeReturned c r :: log) = copiedIn log := rfl

@[simp] theorem copiedOut_writeReturned :
    copiedOut (.writeReturned c r :: log) = copiedOut log := rfl

@[simp] theorem copiedIn_readReturned :
    copiedIn (.readReturned c n r :: log) = copiedIn log := rfl

@[simp] theorem copiedOut_readReturned :
    copiedOut (.readReturned c n r :: log) = copiedOut log := rfl

@[simp] theorem copiedIn_moved_in :
    copiedIn ((bytes.map Entry.copiedIn).reverse ++ log) = copiedIn log ++ bytes := by
  simp [copiedIn, filterMap_reverse, filterMap_map, comp_def]

@[simp] theorem copiedOut_moved_in :
    copiedOut ((bytes.map Entry.copiedIn).reverse ++ log) = copiedOut log := by
  simp [copiedOut, filterMap_reverse, filterMap_map]

@[simp] theorem copiedIn_moved_out :
    copiedIn ((bytes.map Entry.copiedOut).reverse ++ log) = copiedIn log := by
  simp [copiedIn, filterMap_reverse, filterMap_map]

@[simp] theorem copiedOut_moved_out :
    copiedOut ((bytes.map Entry.copiedOut).reverse ++ log) = copiedOut log ++ bytes := by
  simp [copiedOut, filterMap_reverse, filterMap_map, comp_def]

end Log

def Pipe.Buffers (p : Pipe) (buffered : List Byte) : Prop :=
  Holds p.data p.nread p.nwrite buffered

theorem size_dvd : PIPESIZE ∣ 2 ^ 32 := by decide

theorem size_lt : PIPESIZE < 2 ^ 32 := by decide

variable {p : Pipe} {buffered : List Byte}

theorem Pipe.Buffers.full_iff (h : p.Buffers buffered) : p.Full ↔ buffered.length = PIPESIZE :=
  Holds.full_iff h size_lt

theorem Pipe.Buffers.empty_iff (h : p.Buffers buffered) : p.Empty ↔ buffered = [] :=
  Holds.empty_iff h size_lt

theorem Pipe.Buffers.put (h : p.Buffers buffered)
    (hroom : ¬ p.Full) (b : Byte) : (p.put b).Buffers (buffered ++ [b]) := by
  have hne : buffered.length ≠ PIPESIZE := fun hfull => hroom (h.full_iff.mpr hfull)
  have hfits : buffered.length ≤ PIPESIZE := h.fits
  exact Holds.push h size_dvd (by omega) b

/-- What the loop of pipewrite copies goes behind what the pipe held. -/
theorem writeLoop_buffers (killed : Bool) (left : List Byte) (h : p.Buffers buffered) :
    (writeLoop killed left p).1.Buffers (buffered ++ (writeLoop killed left p).2.1) := by
  induction left generalizing p buffered with
  | nil => simpa [writeLoop] using h
  | cons b rest ih =>
    by_cases hfull : p.Full
    · -- nothing is copied, whether the call fails or sleeps
      by_cases hfail : p.readopen = false ∨ killed = true
      · simpa [writeLoop, hfull, hfail] using h
      · simpa [writeLoop, hfull, hfail] using h
    · have hrest := ih (h.put hfull b)
      simpa [writeLoop, hfull] using hrest

/-- What the loop of piperead copies is the front of what the pipe held. -/
theorem readLoop_buffers (n : ℕ) (h : p.Buffers buffered) :
    ∃ rest, buffered = (readLoop n p).2 ++ rest ∧ (readLoop n p).1.Buffers rest := by
  induction n generalizing p buffered with
  | zero => exact ⟨buffered, rfl, h⟩
  | succ n ih =>
    by_cases hempty : p.Empty
    · refine ⟨buffered, ?_, ?_⟩ <;> simp [readLoop, hempty, h]
    · cases buffered with
      | nil => exact absurd (h.empty_iff.mpr rfl) hempty
      | cons b tail =>
        obtain ⟨hfront, hadvance⟩ := Holds.pop h
        obtain ⟨rest, htail, hrest⟩ := ih (p := p.advance) hadvance
        refine ⟨rest, ?_, ?_⟩
        · simp only [readLoop, hempty, if_false, cons_append, List.cons.injEq]
          exact ⟨hfront.symm, htail⟩
        · simpa [readLoop, hempty] using hrest

/-- The loop of piperead leaves the ends as they are. -/
theorem readLoop_writeopen (n : ℕ) (p : Pipe) : (readLoop n p).1.writeopen = p.writeopen := by
  induction n generalizing p with
  | zero => rfl
  | succ n ih =>
    by_cases hempty : p.Empty
    · simp [readLoop, hempty]
    · simp only [readLoop, hempty, if_false]
      exact ih p.advance

/-- A loop of piperead that may take a byte and takes none finds the pipe empty. -/
theorem empty_of_readLoop_nil {n : ℕ} (hpos : 0 < n) (hnone : (readLoop n p).2 = []) : p.Empty := by
  cases n with
  | zero => omega
  | succ n =>
    by_contra hempty
    simp [readLoop, hempty] at hnone

/-- The bytes copied in are those copied out, followed by those in the pipe. -/
def Conserved (log : List Entry) (p : Pipe) : Prop :=
  ∃ buffered, p.Buffers buffered ∧ copiedIn log = copiedOut log ++ buffered

variable {log : List Entry}

theorem conserved_pipewrite {s : Sys} (h : Conserved log s.pipe) (c : Pid) (left : List Byte)
    (n : ℤ) : Conserved ((pipewrite s c left n).2 ++ log) (pipewrite s c left n).1.pipe := by
  obtain ⟨buffered, hbuf, hlog⟩ := h
  have hloop := writeLoop_buffers (s.killed c) left hbuf
  rcases hres : writeLoop (s.killed c) left s.pipe with ⟨p, copied, stop⟩
  rw [hres] at hloop
  refine ⟨buffered ++ copied, ?_, ?_⟩
  · cases stop <;> simpa [pipewrite, hres] using hloop
  · cases stop <;> simp [pipewrite, hres, hlog]

theorem conserved_piperead {s : Sys} (h : Conserved log s.pipe) (c : Pid)
    (n : ℤ) : Conserved ((piperead s c n).2 ++ log) (piperead s c n).1.pipe := by
  obtain ⟨buffered, hbuf, hlog⟩ := h
  by_cases hwait : s.pipe.Empty ∧ s.pipe.writeopen = true
  · refine ⟨buffered, ?_, ?_⟩ <;> cases hk : s.killed c <;> simp [piperead, hwait, hk, hbuf, hlog]
  · obtain ⟨rest, hfront, hrest⟩ := readLoop_buffers n.toNat hbuf
    refine ⟨rest, ?_, ?_⟩
    · simpa [piperead, hwait] using hrest
    · simp only [piperead, hwait, if_false, cons_append, copiedIn_readReturned,
        copiedOut_readReturned, copiedIn_moved_out, copiedOut_moved_out, append_assoc]
      rw [hlog, ← hfront]

theorem conserved_pipeclose {s : Sys} (h : Conserved log s.pipe)
    (writable : Bool) : Conserved log (pipeclose s writable).pipe := by
  obtain ⟨buffered, hbuf, hlog⟩ := h
  exact ⟨buffered, by cases writable <;> exact hbuf, hlog⟩

variable {s t : Sys} {a : Act} {entries : List Entry}

/-- What an action can be: a stretch of one of the two calls, or a step that copies
nothing and leaves the ring alone. -/
theorem act_cases (hact : s.act a = some (t, entries)) :
    (∃ c left n, pipewrite s c left n = (t, entries)) ∨
      (∃ c n, piperead s c n = (t, entries)) ∨
      (∃ writable, t = pipeclose s writable ∧ entries = []) ∨
      (t.pipe = s.pipe ∧ entries = []) := by
  cases a with
  | write c addr n =>
    simp only [Sys.act] at hact
    split at hact
    · exact .inl ⟨c, _, n, some.inj hact⟩
    · cases hact
  | read c n =>
    simp only [Sys.act] at hact
    split at hact
    · exact .inr (.inl ⟨c, n, some.inj hact⟩)
    · cases hact
  | resume c =>
    simp only [Sys.act] at hact
    split at hact
    · exact .inl ⟨c, _, _, some.inj hact⟩
    · exact .inr (.inl ⟨c, _, some.inj hact⟩)
    · cases hact
  | close writable =>
    obtain ⟨rfl, rfl⟩ := Prod.mk.inj (some.inj hact)
    exact .inr (.inr (.inl ⟨writable, rfl, rfl⟩))
  | kill c wakes =>
    obtain ⟨rfl, rfl⟩ := Prod.mk.inj (some.inj hact)
    exact .inr (.inr (.inr ⟨rfl, rfl⟩))

theorem conserved_act (h : Conserved log s.pipe) (hact : s.act a = some (t, entries)) :
    Conserved (entries ++ log) t.pipe := by
  obtain ⟨c, left, n, hres⟩ | ⟨c, n, hres⟩ | ⟨writable, rfl, rfl⟩ | ⟨hpipe, rfl⟩ := act_cases hact
  · have hwrite := conserved_pipewrite h c left n
    rwa [hres] at hwrite
  · have hread := conserved_piperead h c n
    rwa [hres] at hread
  · exact conserved_pipeclose h writable
  · rwa [hpipe]

/-- A stretch of pipewrite logs no result of piperead. -/
theorem readReturned_notMem_pipewrite (s : Sys) (c d : Pid) (left : List Byte) (n m r : ℤ) :
    Entry.readReturned d m r ∉ (pipewrite s c left n).2 := by
  rcases hres : writeLoop (s.killed c) left s.pipe with ⟨p, copied, stop⟩
  cases stop <;> simp [pipewrite, hres]

/-- A piperead of at least one byte that returns 0 found the pipe empty and its write
end closed, and copied nothing. -/
theorem piperead_zero {s : Sys} {c d : Pid} {n m : ℤ} (hpos : 0 < m)
    (hzero : Entry.readReturned d m 0 ∈ (piperead s c n).2) :
    s.pipe.Empty ∧ s.pipe.writeopen = false ∧
      piperead s c n =
        ({ s with
            pipe := (readLoop n.toNat s.pipe).1
            call := update (wakeWriters s.call) c .idle }, [.readReturned c n 0]) := by
  by_cases hwait : s.pipe.Empty ∧ s.pipe.writeopen = true
  · -- the call sleeps or returns -1
    cases hk : s.killed c <;> simp [piperead, hwait, hk] at hzero
  · simp only [piperead, hwait, if_false, mem_cons, Entry.readReturned.injEq,
      mem_reverse, List.mem_map, reduceCtorEq, and_false, exists_false, or_false] at hzero
    obtain ⟨rfl, rfl, hlen⟩ := hzero
    have hnone : (readLoop m.toNat s.pipe).2 = [] := by
      rw [← length_eq_zero_iff]
      omega
    have hempty : s.pipe.Empty := empty_of_readLoop_nil (by omega) hnone
    refine ⟨hempty, by simpa [hempty] using hwait, ?_⟩
    simp [piperead, hwait, hnone]

/-- End of file: a piperead of at least one byte that returns 0 leaves the write end
closed and every byte that was copied in copied out. -/
theorem end_of_file (h : Conserved log s.pipe) (hact : s.act a = some (t, entries)) {c : Pid}
    {n : ℤ} (hpos : 0 < n) (hzero : Entry.readReturned c n 0 ∈ entries) :
    t.pipe.writeopen = false ∧ copiedOut (entries ++ log) = copiedIn (entries ++ log) := by
  obtain ⟨d, left, m, hres⟩ | ⟨d, m, hres⟩ | ⟨writable, rfl, rfl⟩ | ⟨-, rfl⟩ := act_cases hact
  · have hentries : entries = (pipewrite s d left m).2 := by rw [hres]
    rw [hentries] at hzero
    exact absurd hzero (readReturned_notMem_pipewrite s d c left m n 0)
  · have hentries : entries = (piperead s d m).2 := by rw [hres]
    rw [hentries] at hzero
    obtain ⟨hempty, hclosed, hread⟩ := piperead_zero hpos hzero
    obtain ⟨buffered, hbuf, hlog⟩ := h
    obtain ⟨rfl, rfl⟩ := Prod.mk.inj (hres.symm.trans hread)
    rw [hbuf.empty_iff.mp hempty, append_nil] at hlog
    refine ⟨?_, ?_⟩
    · rw [← hclosed]
      exact readLoop_writeopen m.toNat s.pipe
    · simp [hlog]
  · cases hzero
  · cases hzero

/-- An action of a run is one that the pipe admits. -/
theorem act_of_step (hstep : machine.step s a = some t) : s.act a = some (t, machine.emit s a) := by
  simp only [machine] at hstep ⊢
  split at hstep
  · cases hstep
  · cases hact : s.act a with
    | none => simp [hact] at hstep
    | some r =>
      obtain ⟨u, entries⟩ := r
      simpa [hact] using hstep

section Runs

variable {data : Fin PIPESIZE → Byte} {first : BitVec 32} {killed : Pid → Bool}
  {log : List Entry} {s : Sys}

theorem conserved_of_run (hrun : machine.Run Machine.Free (start data first killed) log s) :
    Conserved log s.pipe := by
  refine Machine.Run.invariant (P := fun log s => Conserved log s.pipe) ?_ ?_ hrun
  · exact ⟨[], Holds.nil data first, rfl⟩
  · intro log s a t h _ hstep
    exact conserved_act h (act_of_step hstep)

/-- In every run, from counters that stand anywhere: the bytes copied out are a
prefix of the bytes copied in, the difference of the counters is the number of bytes
in between and at most PIPESIZE, and a piperead of at least one byte that returns 0
leaves the write end closed and nothing unread. -/
theorem pipe_fifo (hrun : machine.Run Machine.Free (start data first killed) log s) :
    copiedOut log <+: copiedIn log ∧
      (s.pipe.nwrite - s.pipe.nread).toNat = (copiedIn log).length - (copiedOut log).length ∧
      (s.pipe.nwrite - s.pipe.nread).toNat ≤ PIPESIZE ∧
      ∀ a t, machine.step s a = some t →
        ∀ c n, 0 < n → Entry.readReturned c n 0 ∈ machine.emit s a →
          t.pipe.writeopen = false ∧
            copiedOut (machine.emit s a ++ log) = copiedIn (machine.emit s a ++ log) := by
  have hcons := conserved_of_run hrun
  obtain ⟨buffered, hbuf, hlog⟩ := hcons
  have hsub : (s.pipe.nwrite - s.pipe.nread).toNat = buffered.length := Holds.sub_eq hbuf size_lt
  refine ⟨⟨buffered, hlog.symm⟩, ?_, ?_, ?_⟩
  · rw [hsub, hlog, length_append]
    omega
  · rw [hsub]
    exact hbuf.fits
  · intro a t hstep c n hpos hzero
    exact end_of_file ⟨buffered, hbuf, hlog⟩ (act_of_step hstep) hpos hzero

end Runs

/-- Three bytes go in across the wrap of the counters and two come out; the write end
is closed, the last byte is read, and the next piperead returns 0. -/
theorem pipe_fifo_wrap :
    ∃ log s, machine.Run Machine.Free (start (fun _ => 0) (-1) fun _ => false) log s ∧
      copiedOut log <+: copiedIn log ∧
      (log = [.readReturned 2 8 1, .copiedOut 30, .readReturned 2 2 2, .copiedOut 20,
        .copiedOut 10, .writeReturned 1 3, .copiedIn 30, .copiedIn 20, .copiedIn 10] ∧
      Entry.readReturned 2 8 0 ∈ machine.emit s (.read 2 8)) := by
  obtain ⟨log, s, hrun, hP⟩ := Machine.exists_run_of_exec machine Machine.Free
    (start (fun _ => 0) (-1) fun _ => false)
    [.write 1 (fun i => 10 * (UInt8.ofNat i + 1)) 3, .read 2 2, .close true, .read 2 8]
    (fun log s => log = [.readReturned 2 8 1, .copiedOut 30, .readReturned 2 2 2,
        .copiedOut 20, .copiedOut 10, .writeReturned 1 3, .copiedIn 30, .copiedIn 20,
        .copiedIn 10] ∧
      Entry.readReturned 2 8 0 ∈ machine.emit s (.read 2 8))
    (by decide +kernel)
  exact ⟨log, s, hrun, (pipe_fifo hrun).1, hP⟩

/-- A full pipe takes nothing, whatever is left to write. -/
theorem writeLoop_of_full (hfull : p.Full) (killed : Bool) (left : List Byte) :
    (writeLoop killed left p).1 = p := by
  cases left with
  | nil => rfl
  | cons b rest =>
    simp only [writeLoop, hfull, if_true]
    split <;> rfl

theorem writeLoop_sleeping {killed : Bool} {left copied rest : List Byte} {p q : Pipe}
    (h : writeLoop killed left p = (q, copied, .sleeping rest)) : q.Full ∧ q.readopen = true := by
  induction left generalizing p copied with
  | nil => simp [writeLoop] at h
  | cons b tail ih =>
    by_cases hfull : p.Full
    · by_cases hfail : p.readopen = false ∨ killed = true
      · simp [writeLoop, hfull, hfail] at h
      · simp only [writeLoop, hfull, hfail, if_true, if_false, Prod.mk.injEq] at h
        obtain ⟨rfl, -⟩ := h
        simp only [not_or, Bool.not_eq_false] at hfail
        exact ⟨hfull, hfail.1⟩
    · simp only [writeLoop, hfull, if_false, Prod.mk.injEq] at h
      obtain ⟨rfl, -, hstop⟩ := h
      exact ih (Prod.ext rfl (Prod.ext rfl hstop))

/-- A writer sleeps only on a full pipe whose read end is open, and a reader on an
empty one whose write end is open. A reader may also be left asleep by a pipewrite
that returned -1, which copies what fits and then gives up without a wakeup. -/
structure Waits (log : List Entry) (s : Sys) : Prop where
  writer : ∀ c left n, s.call c = .writing left n false → s.pipe.Full ∧ s.pipe.readopen = true
  reader : ∀ c n, s.call c = .reading n false →
    s.pipe.Empty ∧ s.pipe.writeopen = true ∨ ∃ d, Entry.writeReturned d (-1) ∈ log

section Waits

variable {log : List Entry} {s : Sys} {call : Pid → Call} {c d : Pid} {n : ℤ}
  {left : List Byte} {x y : Call}

theorem reading_of_wakeWriters (h : wakeWriters call d = .reading n false) :
    call d = .reading n false := by
  cases hcall : call d <;> simp_all [wakeWriters]

theorem writing_of_wakeReaders (h : wakeReaders call d = .writing left n false) :
    call d = .writing left n false := by
  cases hcall : call d <;> simp_all [wakeReaders]

theorem wakeReaders_ne : wakeReaders call d ≠ .reading n false := by
  cases hcall : call d <;> simp [wakeReaders, hcall]

theorem wakeWriters_ne : wakeWriters call d ≠ .writing left n false := by
  cases hcall : call d <;> simp [wakeWriters, hcall]

/-- A call that is found after one call has changed is that one or was there before. -/
theorem call_of_update (h : update call c x d = y) (hx : x ≠ y) : call d = y := by
  by_cases hd : d = c
  · subst hd
    exact absurd (by simpa using h) hx
  · rwa [update_of_ne hd] at h

theorem waits_pipewrite (h : Waits log s) (c : Pid) (left : List Byte) (n : ℤ) :
    Waits ((pipewrite s c left n).2 ++ log) (pipewrite s c left n).1 := by
  rcases hres : writeLoop (s.killed c) left s.pipe with ⟨p, copied, stop⟩
  -- a sleeping writer has found the pipe full, so that this stretch copies nothing
  have hkeep : ∀ d rest m, s.call d = .writing rest m false → p.Full ∧ p.readopen = true := by
    intro d rest m hd
    have hsleep := h.writer d rest m hd
    have hp := writeLoop_of_full hsleep.1 (s.killed c) left
    rw [hres] at hp
    subst hp
    exact hsleep
  cases stop with
  | returned =>
    simp only [pipewrite, hres]
    refine ⟨fun d rest m hd => ?_, fun d m hd => ?_⟩
    · exact hkeep d rest m (writing_of_wakeReaders (call_of_update hd (by simp)))
    · exact absurd (call_of_update hd (by simp)) wakeReaders_ne
  | failed =>
    simp only [pipewrite, hres]
    refine ⟨fun d rest m hd => ?_, fun d m hd => .inr ⟨c, by simp⟩⟩
    exact hkeep d rest m (call_of_update hd (by simp))
  | sleeping rest =>
    simp only [pipewrite, hres]
    refine ⟨fun _ _ _ _ => writeLoop_sleeping hres, fun d m hd => ?_⟩
    exact absurd (call_of_update hd (by simp)) wakeReaders_ne

theorem waits_piperead (h : Waits log s) (c : Pid) (n : ℤ) :
    Waits ((piperead s c n).2 ++ log) (piperead s c n).1 := by
  have hold : ∀ {entries : List Entry}, (∃ d, Entry.writeReturned d (-1) ∈ log) →
      ∃ d, Entry.writeReturned d (-1) ∈ entries ++ log :=
    fun ⟨d, hd⟩ => ⟨d, mem_append_right _ hd⟩
  unfold piperead
  split
  · next hwait =>
    split
    · refine ⟨fun d rest m hd => ?_, fun _ _ _ => .inl hwait⟩
      exact h.writer d rest m (call_of_update hd (by simp))
    · refine ⟨fun d rest m hd => ?_, fun _ _ _ => .inl hwait⟩
      exact h.writer d rest m (call_of_update hd (by simp))
  · next hgo =>
    refine ⟨fun d rest m hd => ?_, fun d m hd => ?_⟩
    · exact absurd (call_of_update hd (by simp)) wakeWriters_ne
    · have hd := reading_of_wakeWriters (call_of_update hd (by simp))
      exact .inr (hold ((h.reader d m hd).resolve_left hgo))

theorem waits_pipeclose (h : Waits log s) (writable : Bool) : Waits log (pipeclose s writable) := by
  cases writable with
  | true =>
    refine ⟨fun d rest m hd => h.writer d rest m (writing_of_wakeReaders hd), fun d m hd => ?_⟩
    exact absurd hd wakeReaders_ne
  | false =>
    refine ⟨fun d rest m hd => ?_, fun d m hd => h.reader d m (reading_of_wakeWriters hd)⟩
    exact absurd hd wakeWriters_ne

theorem waits_act {r : Sys × List Entry} (h : Waits log s)
    (hact : s.act a = some r) : Waits (r.2 ++ log) r.1 := by
  cases a with
  | write c addr n =>
    simp only [Sys.act] at hact
    split at hact
    · exact some.inj hact ▸ waits_pipewrite h c _ n
    · cases hact
  | read c n =>
    simp only [Sys.act] at hact
    split at hact
    · exact some.inj hact ▸ waits_piperead h c n
    · cases hact
  | resume c =>
    simp only [Sys.act] at hact
    split at hact
    · exact some.inj hact ▸ waits_pipewrite h c _ _
    · exact some.inj hact ▸ waits_piperead h c _
    · cases hact
  | close writable =>
    cases hact
    exact waits_pipeclose h writable
  | kill c wakes =>
    cases hact
    have hwoken : ∀ left n, wakeUp (s.call c) ≠ .writing left n false ∧
        wakeUp (s.call c) ≠ .reading n false := by
      intro left n
      cases s.call c <;> simp [wakeUp]
    cases wakes with
    | false => exact ⟨h.writer, h.reader⟩
    | true =>
      exact ⟨fun d rest m hd => h.writer d rest m (call_of_update hd (hwoken rest m).1),
        fun d m hd => h.reader d m (call_of_update hd (hwoken [] m).2)⟩

end Waits

/-- No wakeup is lost as long as no pipewrite returns -1: a writer that sleeps finds
the pipe full, and a reader that sleeps finds it empty, with the other end open. -/
theorem pipe_sleepers {data : Fin PIPESIZE → Byte} {first : BitVec 32} {killed : Pid → Bool}
    {log : List Entry} {s : Sys}
    (hrun : machine.Run Machine.Free (start data first killed) log s) :
    (∀ c left n, s.call c = .writing left n false →
        s.pipe.Full ∧ s.pipe.readopen = true) ∧
      ∀ c n, s.call c = .reading n false →
        s.pipe.Empty ∧ s.pipe.writeopen = true ∨ ∃ d, Entry.writeReturned d (-1) ∈ log := by
  have hwaits : Waits log s := by
    refine Machine.Run.invariant (P := Waits) ⟨by simp [start], by simp [start]⟩ ?_ hrun
    intro log s a t h _ hstep
    exact waits_act h (act_of_step hstep)
  exact ⟨hwaits.writer, hwaits.reader⟩

/-- The exception is real: a reader sleeps, a killed writer fills the pipe and returns
-1, and the reader sleeps on with PIPESIZE bytes to read. -/
theorem pipe_sleepers_killed :
    ∃ log s, machine.Run Machine.Free (start (fun _ => 0) 0 fun c => c == 1) log s ∧
      s.call 2 = .reading 5 false ∧ s.pipe.Full ∧ ∃ d, Entry.writeReturned d (-1) ∈ log := by
  obtain ⟨log, s, hrun, hreader, hfull, hne⟩ := Machine.exists_run_of_exec machine Machine.Free
    (start (fun _ => 0) 0 fun c => c == 1) [.read 2 5, .write 1 (fun _ => 7) 513]
    (fun _ s => s.call 2 = .reading 5 false ∧ s.pipe.Full ∧ ¬ s.pipe.Empty)
    (by decide +kernel)
  exact ⟨log, s, hrun, hreader, hfull,
    ((pipe_sleepers hrun).2 2 5 hreader).resolve_left fun h => hne h.1⟩

end KernelLabs.Pipes

import KernelLabs.RingBuffer
import KernelLabs.Runs

/-!
Line input on the console of xv6 (console.c). The characters of the input buffer stand between
three free-running 32-bit indices: those from r to w are committed and wait for a read, those
from w to e are the line that is being typed and may be erased. consoleintr and consoleread
hold the lock except in sleep, so a read is a sequence of stretches that each run to the next
sleep or to the return. The echo on the screen is left out.
-/
namespace KernelLabs.ConsoleInput

open Runs RingBuffer Function List Option

abbrev INPUT_BUF : ℕ := 128

instance : NeZero INPUT_BUF := ⟨by decide⟩

abbrev Byte := UInt8

abbrev Pid := ℕ

/-- C('D'), end of file. -/
abbrev ctrlD : Byte := 4

/-- C('H'), backspace. -/
abbrev ctrlH : Byte := 8

/-- C('P'), process listing. -/
abbrev ctrlP : Byte := 16

/-- C('U'), kill line. -/
abbrev ctrlU : Byte := 21

abbrev newline : Byte := 10

abbrev carriageReturn : Byte := 13

abbrev delete : Byte := 127

structure Input where
  buf : Fin INPUT_BUF → Byte
  r : BitVec 32
  w : BitVec 32
  e : BitVec 32

/-- The loop of C('U'). The difference of the indices bounds its turns. -/
def Input.killLine : ℕ → Input → Input
  | 0, s => s
  | n + 1, s =>
    if s.e ≠ s.w ∧ s.buf (slot INPUT_BUF (s.e - 1)) ≠ newline then
      Input.killLine n { s with e := s.e - 1 }
    else s

/-- input.buf[input.e++ % INPUT_BUF] = c -/
def Input.put (s : Input) (c : Byte) : Input :=
  { s with buf := update s.buf (slot INPUT_BUF s.e) c, e := s.e + 1 }

/-- One turn of the loop of consoleintr, and whether it calls wakeup(&input.r). -/
def Input.intr (s : Input) (c : Byte) : Input × Bool :=
  if c = ctrlP then (s, false)
  else if c = ctrlU then (s.killLine (s.e - s.w).toNat, false)
  else if c = ctrlH ∨ c = delete then
    if s.e ≠ s.w then ({ s with e := s.e - 1 }, false) else (s, false)
  else if c ≠ 0 ∧ (s.e - s.r).toNat < INPUT_BUF then
    let c := if c = carriageReturn then newline else c
    let t := s.put c
    if c = newline ∨ c = ctrlD ∨ t.e = t.r + BitVec.ofNat 32 INPUT_BUF then
      ({ t with w := t.e }, true)
    else (t, false)
  else (s, false)

/-- How the loop of consoleread ends: with n bytes, behind a newline, with a ^D that is taken
or with one that is saved for the next read. -/
inductive End
  | full | newline | eof | saved
  deriving DecidableEq, Repr

inductive Stop
  | ended (how : End) (n : ℕ)
  | sleeping (n : ℕ)
  deriving DecidableEq, Repr

/-- The loop of consoleread up to the next sleep: the buffer, the bytes stored through dst and
how it stops. -/
def readLoop (target : ℕ) : ℕ → Input → Input × List Byte × Stop
  | 0, s => (s, [], .ended .full 0)
  | n + 1, s =>
    if s.r = s.w then (s, [], .sleeping (n + 1))
    else
      let c := s.buf (slot INPUT_BUF s.r)
      let t := { s with r := s.r + 1 }
      if c = ctrlD then
        if n + 1 < target then ({ t with r := t.r - 1 }, [], .ended .saved (n + 1))
        else (t, [], .ended .eof (n + 1))
      else if c = newline then (t, [c], .ended .newline n)
      else
        let (u, bytes, stop) := readLoop target n t
        (u, c :: bytes, stop)

/-- Where a process stands: outside, or in a consoleread that sleeps or has been woken, with
the bytes it has stored so far. -/
inductive Call
  | idle
  | reading (dst : List Byte) (n target : ℕ) (awake : Bool)
  deriving DecidableEq

def Call.dst : Call → List Byte
  | .idle => []
  | .reading dst _ _ _ => dst

def Call.wake : Call → Call
  | .idle => .idle
  | .reading dst n target _ => .reading dst n target true

structure Sys where
  input : Input
  call : Pid → Call
  killed : Pid → Bool

/-- The characters that are committed, those taken from the buffer by a process, and the ends
of the calls: `returned c n r dst how` for consoleread(ip, dst, n) with the result r, `failed`
for the result -1 of a process that was killed. -/
inductive Entry
  | committed (chars : List Byte)
  | taken (c : Pid) (b : Byte)
  | returned (c : Pid) (n r : ℕ) (dst : List Byte) (how : End)
  | failed (c : Pid) (dst : List Byte)
  deriving DecidableEq

/-- The ^D that a read takes without storing it. -/
def End.eaten : End → List Byte
  | .eof => [ctrlD]
  | _ => []

def consoleread (s : Sys) (c : Pid) (dst : List Byte) (n target : ℕ) : Sys × List Entry :=
  let (i, bytes, stop) := readLoop target n s.input
  let moved := (bytes.map (Entry.taken c)).reverse
  match stop with
  | .ended how left =>
    ({ s with input := i, call := update s.call c .idle },
      .returned c target (target - left) (dst ++ bytes) how ::
        (how.eaten.map (Entry.taken c) ++ moved))
  | .sleeping left =>
    if s.killed c then
      ({ s with input := i, call := update s.call c .idle }, .failed c (dst ++ bytes) :: moved)
    else
      ({ s with
          input := i
          call := update s.call c (.reading (dst ++ bytes) left target false) },
        moved)

/-- A character comes in, a read of n bytes is called, a read that has been woken goes on, or
a process is killed. The characters of one call of consoleintr come one after the other. kill
takes ptable.lock only, so it may fall between a read's test of killed and its sleep, and then
it wakes nobody. -/
inductive Act
  | intr (b : Byte)
  | read (c : Pid) (n : ℕ)
  | resume (c : Pid)
  | kill (c : Pid) (wakes : Bool)

def Sys.act (s : Sys) : Act → Option (Sys × List Entry)
  | .intr b =>
    let (i, wakeup) := s.input.intr b
    some ({ s with
        input := i
        call := if wakeup then fun c => (s.call c).wake else s.call },
      [.committed (between i.buf s.input.w i.w)])
  | .read c n =>
    match s.call c with
    | .idle => some (consoleread s c [] n n)
    | _ => none
  | .resume c =>
    match s.call c with
    | .reading dst n target true => some (consoleread s c dst n target)
    | _ => none
  | .kill c wakes =>
    some ({ s with
      killed := update s.killed c true
      call := if wakes then update s.call c (s.call c).wake else s.call }, [])

def machine : Machine Sys Act Entry where
  step s a := (s.act a).map Prod.fst
  emit s a := ((s.act a).map Prod.snd).getD []

def start (buf : Fin INPUT_BUF → Byte) (n : BitVec 32) (killed : Pid → Bool) : Sys where
  input := ⟨buf, n, n, n⟩
  call := fun _ => .idle
  killed := killed

def waiting (s : Input) : List Byte := between s.buf s.r s.w

def line (s : Input) : List Byte := between s.buf s.w s.e

/-- What a character does to the waiting characters and to the line: only the line is ever
erased, and a newline, a ^D or the last free place commits it. -/
def edit (waiting line : List Byte) (c : Byte) : List Byte × List Byte :=
  if c = ctrlP then (waiting, line)
  else if c = ctrlU then (waiting, [])
  else if c = ctrlH ∨ c = delete then (waiting, line.dropLast)
  else if c ≠ 0 ∧ (waiting ++ line).length < INPUT_BUF then
    let c := if c = carriageReturn then newline else c
    if c = newline ∨ c = ctrlD ∨ (waiting ++ line).length + 1 = INPUT_BUF then
      (waiting ++ (line ++ [c]), [])
    else (waiting, line ++ [c])
  else (waiting, line)

def committed : List Entry → List Byte
  | [] => []
  | .committed chars :: log => committed log ++ chars
  | _ :: log => committed log

def taken : List Entry → List Byte
  | [] => []
  | .taken _ b :: log => taken log ++ [b]
  | _ :: log => taken log

def takenBy (c : Pid) : List Entry → List Byte
  | [] => []
  | .taken d b :: log => if d = c then takenBy c log ++ [b] else takenBy c log
  | _ :: log => takenBy c log

/-- What the finished calls of process c were handed, each with the ^D that ended it. -/
def handed (c : Pid) : List Entry → List Byte
  | [] => []
  | .returned d _ _ dst how :: log =>
    if d = c then handed c log ++ (dst ++ how.eaten) else handed c log
  | .failed d dst :: log => if d = c then handed c log ++ dst else handed c log
  | _ :: log => handed c log

def Plain (bytes : List Byte) : Prop := newline ∉ bytes ∧ ctrlD ∉ bytes

def Ended (n r : ℕ) (dst : List Byte) (how : End) : Prop :=
  r = dst.length ∧ r ≤ n ∧
    match how with
    | .full => r = n ∧ Plain dst
    | .newline => ∃ text, dst = text ++ [newline] ∧ Plain text
    | .eof => r = 0 ∧ 0 < n
    | .saved => 0 < r ∧ r < n ∧ Plain dst

section Buffer

/-- The buffer holds the waiting characters and behind them the line, which has no newline. -/
structure Buffered (s : Input) (waiting line : List Byte) : Prop where
  holds : Holds s.buf s.r s.e (waiting ++ line)
  committed : s.w = s.r + BitVec.ofNat 32 waiting.length
  unfinished : newline ∉ line

theorem size_dvd : INPUT_BUF ∣ 2 ^ 32 := by decide

theorem size_lt : INPUT_BUF < 2 ^ 32 := by decide

namespace Buffered

variable {s : Input} {front rest : List Byte} {b : Byte}

section

variable (h : Buffered s front rest)

include h

theorem waiting_eq : waiting s = front := by
  have hholds : Holds s.buf s.r s.e ([] ++ front ++ rest) := h.holds
  exact hholds.between_eq size_lt (by simp) h.committed

theorem line_eq : line s = rest := by
  have hholds := h.holds
  rw [← append_nil rest, ← append_assoc] at hholds
  refine hholds.between_eq size_lt h.committed ?_
  exact h.holds.behind

theorem length_le : front.length + rest.length ≤ INPUT_BUF := by
  have := h.holds.fits
  rwa [length_append] at this

theorem sub_eq :
    (s.w - s.r).toNat = front.length ∧ (s.e - s.r).toNat = front.length + rest.length := by
  have hlength := h.length_le
  have hsize := size_lt
  refine ⟨?_, ?_⟩
  · rw [h.committed, BitVec.add_comm, BitVec.add_sub_cancel, BitVec.toNat_ofNat,
      Nat.mod_eq_of_lt (by omega)]
  · rw [h.holds.sub_eq size_lt, length_append]

theorem empty_iff : s.e = s.w ↔ rest = [] := by
  have hlength := h.length_le
  have hsize := size_lt
  rw [h.holds.behind, h.committed, length_append,
    add_ofNat_inj s.r (by omega) (by omega), ← length_eq_zero_iff]
  omega

/-- The test of consoleread for a buffer in which nothing waits. -/
theorem none_iff : s.r = s.w ↔ front = [] := by
  have hlength := h.length_le
  have hsize := size_lt
  have hzero : s.r = s.r + BitVec.ofNat 32 0 := by simp
  rw [h.committed, ← length_eq_zero_iff]
  nth_rewrite 1 [hzero]
  rw [add_ofNat_inj s.r (by omega) (by omega)]
  exact eq_comm

theorem count_eq : (s.e - s.w).toNat = rest.length := by
  have hlength := h.length_le
  have hsize := size_lt
  rw [h.holds.behind, h.committed, length_append, BitVec.ofNat_add, ← BitVec.add_assoc,
    BitVec.add_comm, BitVec.add_sub_cancel, BitVec.toNat_ofNat, Nat.mod_eq_of_lt (by omega)]

end

theorem erase (h : Buffered s front (rest ++ [b])) :
    Buffered { s with e := s.e - 1 } front rest where
  holds := by
    have hholds := h.holds
    rw [← append_assoc] at hholds
    exact hholds.unpush
  committed := h.committed
  unfinished := fun hmem => h.unfinished (mem_append_left _ hmem)

/-- The character before the edit index is the last of the line. -/
theorem last_eq (h : Buffered s front (rest ++ [b])) : s.buf (slot INPUT_BUF (s.e - 1)) = b := by
  have hholds := h.holds
  rw [← append_assoc] at hholds
  rw [hholds.unpush.behind]
  apply hholds.stored
  rw [getElem?_append_right (le_refl _), Nat.sub_self]
  rfl

section

variable (h : Buffered s front rest)

include h

/-- C('U') erases the whole line, since no newline stands in it. -/
theorem killLine {n : ℕ} (hn : rest.length ≤ n) : Buffered (s.killLine n) front [] := by
  induction n generalizing s rest with
  | zero =>
    rw [length_eq_zero_iff.mp (Nat.le_zero.mp hn)] at h
    exact h
  | succ n ih =>
    rw [Input.killLine]
    rcases eq_nil_or_concat rest with hnil | ⟨init, b, hrest⟩
    · rw [hnil] at h
      rw [if_neg fun hloop => hloop.1 (h.empty_iff.mpr rfl)]
      exact h
    · rw [concat_eq_append] at hrest
      rw [hrest] at h hn
      have hne : s.e ≠ s.w := fun heq => by simpa using h.empty_iff.mp heq
      have hb : s.buf (slot INPUT_BUF (s.e - 1)) ≠ newline := by
        rw [h.last_eq]
        intro hb
        exact h.unfinished (by rw [hb]; simp)
      rw [if_pos ⟨hne, hb⟩]
      exact ih h.erase (by simpa using hn)

theorem put (hroom : front.length + rest.length < INPUT_BUF)
    (hb : b ≠ newline) : Buffered (s.put b) front (rest ++ [b]) where
  holds := by
    have hpush := h.holds.push size_dvd (by rwa [length_append]) b
    rwa [append_assoc] at hpush
  committed := h.committed
  unfinished := by
    rw [mem_append, mem_singleton, not_or]
    exact ⟨h.unfinished, hb.symm⟩

/-- A character is typed and the line is committed. -/
theorem put_commit (hroom : front.length + rest.length < INPUT_BUF) :
    Buffered { s.put b with w := (s.put b).e } (front ++ (rest ++ [b])) [] where
  holds := by
    have hpush := h.holds.push size_dvd (by rwa [length_append]) b
    rw [append_assoc] at hpush
    rw [append_nil]
    exact hpush
  committed := by
    have hpush := h.holds.push size_dvd (by rwa [length_append]) b
    rw [append_assoc] at hpush
    exact hpush.behind
  unfinished := by simp

theorem full_iff (hroom : front.length + rest.length < INPUT_BUF) :
    (s.put b).e = (s.put b).r + BitVec.ofNat 32 INPUT_BUF ↔
      (front ++ rest).length + 1 = INPUT_BUF := by
  have hpush := h.holds.push size_dvd (by rwa [length_append]) b
  have hfull := hpush.full_iff size_lt
  rw [length_append, length_singleton] at hfull
  exact hfull

/-- A turn of consoleintr does to the buffer what edit says. -/
theorem intr (c : Byte) : Buffered (s.intr c).1 (edit front rest c).1 (edit front rest c).2 := by
  rw [Input.intr, edit]
  by_cases hp : c = ctrlP
  · rw [if_pos hp, if_pos hp]
    exact h
  rw [if_neg hp, if_neg hp]
  by_cases hu : c = ctrlU
  · rw [if_pos hu, if_pos hu]
    exact h.killLine (by rw [h.count_eq])
  rw [if_neg hu, if_neg hu]
  by_cases hh : c = ctrlH ∨ c = delete
  · rw [if_pos hh, if_pos hh]
    rcases eq_nil_or_concat rest with hnil | ⟨init, b, hrest⟩
    · rw [if_neg (not_not_intro (h.empty_iff.mpr hnil)), hnil]
      rw [hnil] at h
      exact h
    · rw [concat_eq_append] at hrest
      rw [hrest] at h
      have hne : s.e ≠ s.w := fun heq => by simpa using h.empty_iff.mp heq
      rw [if_pos hne, hrest, dropLast_concat]
      exact h.erase
  rw [if_neg hh, if_neg hh, h.sub_eq.2, length_append]
  by_cases hroom : c ≠ 0 ∧ front.length + rest.length < INPUT_BUF
  · rw [if_pos hroom, if_pos hroom]
    generalize (if c = carriageReturn then newline else c) = d
    dsimp only
    have hfull := h.full_iff (b := d) hroom.2
    rw [length_append] at hfull
    by_cases hcommit : d = newline ∨ d = ctrlD ∨ front.length + rest.length + 1 = INPUT_BUF
    · rw [if_pos hcommit, if_pos (by rwa [hfull])]
      exact h.put_commit hroom.2
    · rw [if_neg hcommit, if_neg (by rwa [hfull])]
      exact h.put hroom.2 fun hd => hcommit (.inl hd)
  · rw [if_neg hroom, if_neg hroom]
    exact h

end

theorem take {tail : List Byte} (h : Buffered s (b :: tail) rest) :
    s.buf (slot INPUT_BUF s.r) = b ∧ Buffered { s with r := s.r + 1 } tail rest := by
  obtain ⟨hfront, htail⟩ := Holds.pop h.holds
  refine ⟨hfront, htail, ?_, h.unfinished⟩
  rw [h.committed, length_cons, Nat.add_comm, BitVec.ofNat_add, ← BitVec.add_assoc]
  rfl

end Buffered

/-- The read index stays where it is in consoleintr. -/
theorem killLine_r (n : ℕ) (s : Input) : (s.killLine n).r = s.r := by
  induction n generalizing s with
  | zero => rfl
  | succ n ih =>
    rw [Input.killLine]
    split
    · rw [ih]
    · rfl

theorem intr_r (s : Input) (c : Byte) : (s.intr c).1.r = s.r := by
  rw [Input.intr]
  split
  · rfl
  split
  · exact killLine_r _ s
  split
  · split <;> rfl
  split
  · generalize (if c = carriageReturn then newline else c) = d
    dsimp only
    split <;> rfl
  · rfl

theorem edit_fst (front rest : List Byte) (c : Byte) :
    ∃ new, (edit front rest c).1 = front ++ new := by
  rw [edit]
  split
  · exact ⟨[], by simp⟩
  split
  · exact ⟨[], by simp⟩
  split
  · exact ⟨[], by simp⟩
  split
  · generalize (if c = carriageReturn then newline else c) = d
    dsimp only
    split
    · exact ⟨_, rfl⟩
    · exact ⟨[], by simp⟩
  · exact ⟨[], by simp⟩

/-- The characters that a turn commits, as they are logged. -/
theorem Buffered.between_intr {s : Input} {front rest : List Byte} (h : Buffered s front rest)
    (c : Byte) : (edit front rest c).1 = front ++ between (s.intr c).1.buf s.w (s.intr c).1.w := by
  have hnext := h.intr c
  obtain ⟨new, hnew⟩ := edit_fst front rest c
  rw [hnew] at hnext ⊢
  have hfirst : s.w = (s.intr c).1.r + BitVec.ofNat 32 front.length := by
    rw [intr_r]
    exact h.committed
  rw [hnext.holds.between_eq size_lt hfirst hnext.committed]

end Buffer

variable {how : End}

section Reads

variable {s : Input} {front rest : List Byte} {target n : ℕ}

/-- What the loop of consoleread leaves of the waiting characters, by the way it stops. -/
def Stop.Leaves (target n : ℕ) (bytes front left : List Byte) : Stop → Prop
  | .ended .full m => m = 0 ∧ bytes.length = n ∧ Plain bytes ∧ front = bytes ++ left
  | .ended .newline m =>
    bytes.length + m = n ∧ (∃ text, bytes = text ++ [newline] ∧ Plain text) ∧ front = bytes ++ left
  | .ended .eof m => bytes = [] ∧ m = n ∧ n = target ∧ 0 < n ∧ front = ctrlD :: left
  | .ended .saved m =>
    bytes.length + m = n ∧ 0 < m ∧ m < target ∧ Plain bytes ∧ front = bytes ++ left ∧
      left.head? = some ctrlD
  | .sleeping m => bytes.length + m = n ∧ 0 < m ∧ Plain bytes ∧ front = bytes ++ left

theorem plain_nil : Plain [] := ⟨by simp, by simp⟩

theorem Plain.cons {b : Byte} {bytes : List Byte} (h : Plain bytes) (hnewline : b ≠ newline)
    (hctrlD : b ≠ ctrlD) : Plain (b :: bytes) := by
  rw [Plain, mem_cons, mem_cons, not_or, not_or]
  exact ⟨⟨hnewline.symm, h.1⟩, hctrlD.symm, h.2⟩

theorem Plain.append {first second : List Byte} (h : Plain first) (h' : Plain second) :
    Plain (first ++ second) := by
  rw [Plain, mem_append, mem_append, not_or, not_or]
  exact ⟨⟨h.1, h'.1⟩, h.2, h'.2⟩

theorem Stop.Leaves.cons {bytes left : List Byte} {b : Byte} {stop : Stop} (hn : n < target)
    (hnewline : b ≠ newline) (hctrlD : b ≠ ctrlD) (h : stop.Leaves target n bytes front left) :
    stop.Leaves target (n + 1) (b :: bytes) (b :: front) left := by
  cases stop with
  | sleeping m =>
    obtain ⟨hlength, hpos, hplain, hfront⟩ := h
    exact ⟨by rw [length_cons]; omega, hpos, hplain.cons hnewline hctrlD,
      by rw [hfront, cons_append]⟩
  | ended how m =>
    cases how with
    | full =>
      obtain ⟨hzero, hlength, hplain, hfront⟩ := h
      exact ⟨hzero, by rw [length_cons, hlength], hplain.cons hnewline hctrlD,
        by rw [hfront, cons_append]⟩
    | newline =>
      obtain ⟨hlength, ⟨text, htext, hplain⟩, hfront⟩ := h
      exact ⟨by rw [length_cons]; omega,
        ⟨b :: text, by rw [htext, cons_append], hplain.cons hnewline hctrlD⟩,
        by rw [hfront, cons_append]⟩
    | eof =>
      obtain ⟨_, _, htarget, _⟩ := h
      omega
    | saved =>
      obtain ⟨hlength, hpos, hlt, hplain, hfront, hhead⟩ := h
      exact ⟨by rw [length_cons]; omega, hpos, hlt, hplain.cons hnewline hctrlD,
        by rw [hfront, cons_append], hhead⟩

theorem readLoop_leaves (h : Buffered s front rest) (hn : n ≤ target) :
    ∃ left, Buffered (readLoop target n s).1 left rest ∧
      (readLoop target n s).2.2.Leaves target n (readLoop target n s).2.1 front left := by
  induction n generalizing s front with
  | zero => exact ⟨front, h, rfl, rfl, plain_nil, rfl⟩
  | succ n ih =>
    rw [readLoop]
    cases front with
    | nil =>
      rw [if_pos (h.none_iff.mpr rfl)]
      exact ⟨[], h, by simp, Nat.succ_pos n, plain_nil, rfl⟩
    | cons b tail =>
      have hne : s.r ≠ s.w := fun heq => by simpa using h.none_iff.mp heq
      obtain ⟨hb, htail⟩ := h.take
      rw [if_neg hne]
      dsimp only
      rw [hb]
      by_cases hctrlD : b = ctrlD
      · rw [if_pos hctrlD]
        by_cases hlt : n + 1 < target
        · -- the index goes back to the ^D
          rw [if_pos hlt, BitVec.add_sub_cancel]
          refine ⟨b :: tail, h, by simp, Nat.succ_pos n, hlt, plain_nil, rfl, ?_⟩
          rw [hctrlD]
          rfl
        · rw [if_neg hlt]
          exact ⟨tail, htail, rfl, rfl, by omega, Nat.succ_pos n, by rw [hctrlD]⟩
      · rw [if_neg hctrlD]
        by_cases hnewline : b = newline
        · rw [if_pos hnewline]
          refine ⟨tail, htail, ?_, ⟨[], by rw [hnewline]; rfl, plain_nil⟩, rfl⟩
          rw [length_singleton, Nat.add_comm]
        · rw [if_neg hnewline]
          obtain ⟨left, hbuffered, hleaves⟩ := ih htail (by omega)
          exact ⟨left, hbuffered, hleaves.cons (by omega) hnewline hctrlD⟩

/-- What the loop takes from the waiting characters when it ends. -/
theorem Stop.Leaves.front_eq {bytes left : List Byte} {m : ℕ}
    (h : (Stop.ended how m).Leaves target n bytes front left) :
    front = bytes ++ how.eaten ++ left := by
  cases how with
  | full => simpa [End.eaten] using h.2.2.2
  | newline => simpa [End.eaten] using h.2.2
  | eof => simpa [End.eaten, h.1] using h.2.2.2.2
  | saved => simpa [End.eaten] using h.2.2.2.2.1

/-- The result of a call whose earlier stretches stored dst. -/
theorem Stop.Leaves.ended {bytes left dst : List Byte} {m : ℕ}
    (h : (Stop.ended how m).Leaves target n bytes front left) (htarget : dst.length + n = target)
    (hplain : Plain dst) : Ended target (target - m) (dst ++ bytes) how := by
  unfold Ended
  rw [length_append]
  cases how with
  | full =>
    obtain ⟨hzero, hlength, hbytes, _⟩ := h
    exact ⟨by omega, by omega, by omega, hplain.append hbytes⟩
  | newline =>
    obtain ⟨hlength, ⟨text, htext, hbytes⟩, _⟩ := h
    refine ⟨by omega, by omega, dst ++ text, ?_, hplain.append hbytes⟩
    rw [htext, append_assoc]
  | eof =>
    obtain ⟨hnil, hm, hn, hpos, _⟩ := h
    rw [hnil, length_nil]
    exact ⟨by omega, by omega, by omega, by omega⟩
  | saved =>
    obtain ⟨hlength, hpos, hlt, hbytes, _⟩ := h
    exact ⟨by omega, by omega, by omega, by omega, hplain.append hbytes⟩

end Reads

variable {dst : List Byte}

section Log

variable (log : List Entry) (bytes : List Byte) (c d : Pid)

def moved : List Entry := (bytes.map (Entry.taken c)).reverse

theorem moved_cons (b : Byte) : moved (b :: bytes) c ++ log = moved bytes c ++ (.taken c b :: log) := by
  rw [moved, map_cons, reverse_cons, append_assoc]
  rfl

@[simp] theorem committed_moved : committed (moved bytes c ++ log) = committed log := by
  induction bytes generalizing log with
  | nil => rfl
  | cons b rest ih =>
    rw [moved_cons, ih]
    rfl

@[simp] theorem taken_moved : taken (moved bytes c ++ log) = taken log ++ bytes := by
  induction bytes generalizing log with
  | nil => exact (append_nil _).symm
  | cons b rest ih =>
    rw [moved_cons, ih, taken, append_assoc]
    rfl

@[simp] theorem takenBy_moved_self : takenBy c (moved bytes c ++ log) = takenBy c log ++ bytes := by
  induction bytes generalizing log with
  | nil => exact (append_nil _).symm
  | cons b rest ih =>
    rw [moved_cons, ih, takenBy, if_pos rfl, append_assoc]
    rfl

theorem takenBy_moved_ne {c d : Pid} (h : c ≠ d) :
    takenBy d (moved bytes c ++ log) = takenBy d log := by
  induction bytes generalizing log with
  | nil => rfl
  | cons b rest ih => rw [moved_cons, ih, takenBy, if_neg h]

@[simp] theorem handed_moved : handed d (moved bytes c ++ log) = handed d log := by
  induction bytes generalizing log with
  | nil => rfl
  | cons b rest ih =>
    rw [moved_cons, ih]
    rfl

theorem not_returned_mem_moved {n r : ℕ} : Entry.returned d n r dst how ∉ moved bytes c := by
  simp [moved]

/-- The entries at the end of a call: the bytes of its last stretch and the ^D it took. -/
theorem eaten_moved (how : End) :
    how.eaten.map (Entry.taken c) ++ (bytes.map (Entry.taken c)).reverse =
      moved (bytes ++ how.eaten) c := by
  cases how <;> simp [moved, End.eaten]

end Log

/-- The three ways a stretch of consoleread can end. -/
theorem consoleread_cases {s : Sys} {front rest : List Byte} (h : Buffered s.input front rest)
    (c : Pid) (dst : List Byte) {n target : ℕ} (hn : n ≤ target) :
    ∃ i bytes left, Buffered i left rest ∧
      ((∃ how m, (Stop.ended how m).Leaves target n bytes front left ∧
          consoleread s c dst n target =
            ({ s with input := i, call := update s.call c .idle },
              .returned c target (target - m) (dst ++ bytes) how :: moved (bytes ++ how.eaten) c)) ∨
        ∃ m, (Stop.sleeping m).Leaves target n bytes front left ∧
          (consoleread s c dst n target =
              ({ s with input := i, call := update s.call c .idle },
                .failed c (dst ++ bytes) :: moved bytes c) ∨
            consoleread s c dst n target =
              ({ s with
                  input := i
                  call := update s.call c (.reading (dst ++ bytes) m target false) },
                moved bytes c))) := by
  obtain ⟨left, hbuffered, hleaves⟩ := readLoop_leaves h hn
  rcases hloop : readLoop target n s.input with ⟨i, bytes, stop⟩
  rw [hloop] at hbuffered hleaves
  refine ⟨i, bytes, left, hbuffered, ?_⟩
  cases stop with
  | ended how m =>
    refine .inl ⟨how, m, hleaves, ?_⟩
    rw [← eaten_moved]
    simp only [consoleread, hloop]
  | sleeping m =>
    refine .inr ⟨m, hleaves, ?_⟩
    cases hkilled : s.killed c with
    | true => exact .inl (by simp [consoleread, hloop, hkilled, moved])
    | false => exact .inr (by simp [consoleread, hloop, hkilled, moved])

/-- What holds in every run: the committed characters are those taken followed by those that
wait, each process was handed what it took, the reads in progress have met no end, and the
finished ones ended as they should. -/
structure Consistent (log : List Entry) (s : Sys) : Prop where
  buffered : ∃ front rest, Buffered s.input front rest ∧ committed log = taken log ++ front
  calls : ∀ c, takenBy c log = handed c log ++ (s.call c).dst
  reading : ∀ c dst n target awake, s.call c = .reading dst n target awake →
    dst.length + n = target ∧ Plain dst
  ended : ∀ c n r dst how, Entry.returned c n r dst how ∈ log → Ended n r dst how

theorem consistent_start (buf : Fin INPUT_BUF → Byte) (n : BitVec 32) (killed : Pid → Bool) :
    Consistent [] (start buf n killed) where
  buffered := ⟨[], [], ⟨Holds.nil buf n, by simp [start], by simp⟩, rfl⟩
  calls _ := rfl
  reading _ _ _ _ _ h := nomatch h
  ended _ _ _ _ _ h := absurd h (not_mem_nil)

variable {a : Act}

section Steps

variable {log : List Entry} {s t : Sys}

theorem wake_dst (call : Call) : call.wake.dst = call.dst := by
  cases call <;> rfl

/-- Only the state of process c and the buffer change in a stretch of its call. -/
theorem Consistent.reading_update (h : Consistent log s) {c : Pid} {call : Call}
    (hcall : ∀ dst n target awake, call = .reading dst n target awake →
      dst.length + n = target ∧ Plain dst) :
    ∀ d dst n target awake, update s.call c call d = .reading dst n target awake →
      dst.length + n = target ∧ Plain dst := by
  intro d dst n target awake hd
  by_cases hdc : d = c
  · rw [hdc, update_self] at hd
    exact hcall dst n target awake hd
  · rw [update_of_ne hdc] at hd
    exact h.reading d dst n target awake hd

/-- What a process took, when c takes more bytes in its call. -/
theorem Consistent.takenBy_moved (h : Consistent log s) {c : Pid} (bytes : List Byte) (d : Pid) :
    takenBy d (moved bytes c ++ log) =
      if c = d then handed c log ++ ((s.call c).dst ++ bytes)
      else handed d log ++ (s.call d).dst := by
  by_cases hcd : c = d
  · rw [← hcd, if_pos rfl, takenBy_moved_self, h.calls, append_assoc]
  · rw [if_neg hcd, takenBy_moved_ne _ _ hcd, h.calls]

theorem Consistent.ended_moved (h : Consistent log s) {c d : Pid} {bytes dst : List Byte} {n r : ℕ}
    (hmem : Entry.returned d n r dst how ∈ moved bytes c ++ log) : Ended n r dst how := by
  rcases mem_append.mp hmem with hmoved | hold
  · exact absurd hmoved (not_returned_mem_moved _ _ _)
  · exact h.ended d n r dst how hold

theorem Consistent.stretch (h : Consistent log s) {c : Pid} {n target : ℕ}
    (hdst : (s.call c).dst = dst) (htarget : dst.length + n = target) (hplain : Plain dst) :
    Consistent ((consoleread s c dst n target).2 ++ log) (consoleread s c dst n target).1 := by
  obtain ⟨front, rest, hbuffered, hlog⟩ := h.buffered
  obtain ⟨i, bytes, left, hnext, ⟨how, m, hleaves, hres⟩ | ⟨m, hleaves, hres | hres⟩⟩ :=
    consoleread_cases hbuffered c dst (show n ≤ target by omega)
  · rw [hres]
    refine ⟨⟨left, rest, hnext, ?_⟩, ?_, h.reading_update (fun _ _ _ _ hidle => nomatch hidle), ?_⟩
    · show committed (moved (bytes ++ how.eaten) c ++ log) =
        taken (moved (bytes ++ how.eaten) c ++ log) ++ left
      rw [committed_moved, taken_moved, hlog, hleaves.front_eq, append_assoc (taken log)]
    · intro d
      show takenBy d (moved (bytes ++ how.eaten) c ++ log) =
        (if c = d then handed d (moved (bytes ++ how.eaten) c ++ log) ++ (dst ++ bytes ++ how.eaten)
          else handed d (moved (bytes ++ how.eaten) c ++ log)) ++
          (update s.call c Call.idle d).dst
      rw [h.takenBy_moved, handed_moved, hdst]
      by_cases hcd : c = d
      · rw [← hcd, if_pos rfl, if_pos rfl, update_self, Call.dst, append_nil, append_assoc]
      · rw [if_neg hcd, if_neg hcd, update_of_ne (Ne.symm hcd)]
    · intro d n' r dst' how' hmem
      rcases mem_cons.mp hmem with heq | hmem
      · injection heq with _ hn hr hdst' hhow
        rw [hn, hr, hdst', hhow]
        exact hleaves.ended htarget hplain
      · exact h.ended_moved hmem
  · rw [hres]
    obtain ⟨_, _, _, hfront⟩ := hleaves
    refine ⟨⟨left, rest, hnext, ?_⟩, ?_, h.reading_update (fun _ _ _ _ hidle => nomatch hidle), ?_⟩
    · show committed (moved bytes c ++ log) = taken (moved bytes c ++ log) ++ left
      rw [committed_moved, taken_moved, hlog, hfront, append_assoc]
    · intro d
      show takenBy d (moved bytes c ++ log) =
        (if c = d then handed d (moved bytes c ++ log) ++ (dst ++ bytes)
          else handed d (moved bytes c ++ log)) ++ (update s.call c Call.idle d).dst
      rw [h.takenBy_moved, handed_moved, hdst]
      by_cases hcd : c = d
      · rw [← hcd, if_pos rfl, if_pos rfl, update_self, Call.dst, append_nil]
      · rw [if_neg hcd, if_neg hcd, update_of_ne (Ne.symm hcd)]
    · intro d n' r dst' how' hmem
      rcases mem_cons.mp hmem with heq | hmem
      · cases heq
      · exact h.ended_moved hmem
  · rw [hres]
    obtain ⟨hlength, _, hbytes, hfront⟩ := hleaves
    refine ⟨⟨left, rest, hnext, ?_⟩, ?_, h.reading_update ?_, fun _ _ _ _ _ => h.ended_moved⟩
    · rw [committed_moved, taken_moved, hlog, hfront, append_assoc]
    · intro d
      rw [h.takenBy_moved, handed_moved, hdst]
      by_cases hcd : c = d
      · rw [← hcd, if_pos rfl]
        simp only [update_self, Call.dst]
      · rw [if_neg hcd]
        simp only [update_of_ne (Ne.symm hcd)]
    · intro dst' n' target' awake heq
      injection heq with hdst' hn htarget'
      rw [← hdst', ← hn, ← htarget', length_append]
      exact ⟨by omega, hplain.append hbytes⟩

/-- A read that a wakeup finds is the one that went to sleep. -/
theorem wake_eq_reading {call : Call} {n target : ℕ} {awake : Bool}
    (h : call.wake = .reading dst n target awake) :
    ∃ before, call = .reading dst n target before := by
  cases call with
  | idle => cases h
  | reading dst' n' target' before =>
    injection h with hdst hn htarget
    exact ⟨before, by rw [hdst, hn, htarget]⟩

theorem Consistent.intr (h : Consistent log s) (b : Byte) (call : Pid → Call)
    (hcall : call = s.call ∨ call = fun c => (s.call c).wake) :
    Consistent (.committed (between (s.input.intr b).1.buf s.input.w (s.input.intr b).1.w) :: log)
      { s with input := (s.input.intr b).1, call := call } := by
  obtain ⟨front, rest, hbuffered, hlog⟩ := h.buffered
  refine ⟨⟨_, _, hbuffered.intr b, ?_⟩, ?_, ?_, ?_⟩
  · show committed log ++ _ = taken log ++ _
    rw [hlog, hbuffered.between_intr b, append_assoc]
  · intro c
    show takenBy c log = handed c log ++ (call c).dst
    rw [h.calls]
    rcases hcall with rfl | rfl
    · rfl
    · rw [wake_dst]
  · intro c dst n target awake hreading
    rcases hcall with rfl | rfl
    · exact h.reading c dst n target awake hreading
    · obtain ⟨before, hbefore⟩ := wake_eq_reading hreading
      exact h.reading c dst n target before hbefore
  · intro c n r dst how hmem
    rcases mem_cons.mp hmem with heq | hold
    · cases heq
    · exact h.ended c n r dst how hold

theorem Consistent.kill (h : Consistent log s) (c : Pid) :
    Consistent log { s with
      killed := update s.killed c true
      call := update s.call c (s.call c).wake } := by
  refine ⟨h.buffered, ?_, h.reading_update ?_, h.ended⟩
  · intro d
    by_cases hdc : d = c
    · rw [hdc]
      simp only [update_self, wake_dst]
      exact h.calls c
    · simp only [update_of_ne hdc]
      exact h.calls d
  · intro dst n target awake hwake
    obtain ⟨before, hbefore⟩ := wake_eq_reading hwake
    exact h.reading c dst n target before hbefore

variable {entries : List Entry}

/-- What an action can be: a stretch of a read, or a step that takes nothing. -/
theorem Consistent.act_cases (h : Consistent log s) (hact : s.act a = some (t, entries)) :
    (∃ c dst n target, (s.call c).dst = dst ∧ dst.length + n = target ∧ Plain dst ∧
        consoleread s c dst n target = (t, entries)) ∨
      (Consistent (entries ++ log) t ∧ ∀ c n r dst how, Entry.returned c n r dst how ∉ entries) := by
  cases a with
  | intr b =>
    obtain ⟨ht, hentries⟩ := Prod.mk.inj (some.inj hact)
    rw [← ht, ← hentries]
    refine .inr ⟨h.intr b _ ?_, by simp⟩
    by_cases hwakeup : (s.input.intr b).2 = true
    · exact .inr (if_pos hwakeup)
    · exact .inl (if_neg hwakeup)
  | read c n =>
    simp only [Sys.act] at hact
    split at hact
    · rename_i hidle
      refine .inl ⟨c, [], n, n, by rw [hidle]; rfl, Nat.zero_add n, plain_nil, ?_⟩
      exact some.inj hact
    · cases hact
  | resume c =>
    simp only [Sys.act] at hact
    split at hact
    · rename_i dst n target hreading
      obtain ⟨hlength, hplain⟩ := h.reading c dst n target true hreading
      exact .inl ⟨c, dst, n, target, by rw [hreading]; rfl, hlength, hplain, some.inj hact⟩
    · cases hact
  | kill c wakes =>
    obtain ⟨rfl, rfl⟩ := Prod.mk.inj (some.inj hact)
    cases wakes with
    | false => exact .inr ⟨⟨h.buffered, h.calls, h.reading, h.ended⟩, by simp⟩
    | true => exact .inr ⟨h.kill c, by simp⟩

theorem Consistent.act (h : Consistent log s)
    (hact : s.act a = some (t, entries)) : Consistent (entries ++ log) t := by
  obtain ⟨c, dst, n, target, hdst, htarget, hplain, hres⟩ | ⟨hnext, _⟩ := h.act_cases hact
  · have hread := h.stretch hdst htarget hplain
    rwa [hres] at hread
  · exact hnext

/-- A read that saves a ^D leaves it as the next character that waits. -/
theorem Consistent.saved (h : Consistent log s) (hact : s.act a = some (t, entries)) {c : Pid}
    {n r : ℕ} (hmem : Entry.returned c n r dst .saved ∈ entries) :
    (waiting t.input).head? = some ctrlD := by
  obtain ⟨d, dst', n', target, _, htarget, _, hres⟩ | ⟨_, hnone⟩ := h.act_cases hact
  swap
  · exact absurd hmem (hnone _ _ _ _ _)
  obtain ⟨front, rest, hbuffered, _⟩ := h.buffered
  obtain ⟨i, bytes, left, hnext, ⟨how, m, hleaves, hcall⟩ | ⟨m, _, hcall | hcall⟩⟩ :=
    consoleread_cases hbuffered d dst' (show n' ≤ target by omega)
  · obtain ⟨rfl, rfl⟩ := Prod.mk.inj (hres.symm.trans hcall)
    rcases mem_cons.mp hmem with heq | hmoved
    · injection heq with _ _ _ _ hhow
      rw [← hhow] at hleaves
      rw [hnext.waiting_eq]
      exact hleaves.2.2.2.2.2
    · exact absurd hmoved (not_returned_mem_moved _ _ _)
  · obtain ⟨rfl, rfl⟩ := Prod.mk.inj (hres.symm.trans hcall)
    rcases mem_cons.mp hmem with heq | hmoved
    · cases heq
    · exact absurd hmoved (not_returned_mem_moved _ _ _)
  · obtain ⟨rfl, rfl⟩ := Prod.mk.inj (hres.symm.trans hcall)
    exact absurd hmem (not_returned_mem_moved _ _ _)

theorem act_of_step (hstep : machine.step s a = some t) : s.act a = some (t, machine.emit s a) := by
  simp only [machine] at hstep ⊢
  cases hact : s.act a with
  | none => simp [hact] at hstep
  | some result =>
    obtain ⟨u, entries⟩ := result
    simpa [hact] using hstep

end Steps

section Runs

variable {buf : Fin INPUT_BUF → Byte} {first : BitVec 32} {killed : Pid → Bool}
  {log : List Entry} {s : Sys}

theorem consistent_of_run (hrun : machine.Run Machine.Free (start buf first killed) log s) :
    Consistent log s := by
  apply Machine.Run.invariant (consistent_start buf first killed) ?_ hrun
  intro log s a t h _ hstep
  exact h.act (act_of_step hstep)

/-- In every run, from indices that stand anywhere: the indices are in order and at most
INPUT_BUF apart; a character does to the waiting characters and the line what edit says, which
erases nothing that waits; the committed characters are those taken so far followed by those
that wait, and what each process took is what its calls were handed; a read that returns ended
with n bytes, behind a newline or at a ^D, and a ^D that follows data stays for the next read. -/
theorem console_lines (hrun : machine.Run Machine.Free (start buf first killed) log s) :
    ((s.input.w - s.input.r).toNat ≤ (s.input.e - s.input.r).toNat ∧
        (s.input.e - s.input.r).toNat ≤ INPUT_BUF) ∧
      (∀ b, waiting s.input <+: waiting (s.input.intr b).1 ∧
        (waiting (s.input.intr b).1, line (s.input.intr b).1) =
          edit (waiting s.input) (line s.input) b) ∧
      committed log = taken log ++ waiting s.input ∧
      (∀ c, takenBy c log = handed c log ++ (s.call c).dst) ∧
      (∀ c n r dst how, Entry.returned c n r dst how ∈ log → Ended n r dst how) ∧
      ∀ a t, machine.step s a = some t → ∀ c n r dst,
        Entry.returned c n r dst .saved ∈ machine.emit s a →
          (waiting t.input).head? = some ctrlD := by
  have h := consistent_of_run hrun
  obtain ⟨front, rest, hbuffered, hlog⟩ := h.buffered
  refine ⟨?_, ?_, ?_, h.calls, h.ended, ?_⟩
  · have hlength := hbuffered.length_le
    rw [hbuffered.sub_eq.1, hbuffered.sub_eq.2]
    omega
  · intro b
    rw [(hbuffered.intr b).waiting_eq, (hbuffered.intr b).line_eq, hbuffered.waiting_eq,
      hbuffered.line_eq]
    obtain ⟨new, hnew⟩ := edit_fst front rest b
    exact ⟨⟨new, hnew.symm⟩, rfl⟩
  · rw [hbuffered.waiting_eq]
    exact hlog
  · intro a t hstep c n r dst hmem
    exact h.saved (act_of_step hstep) hmem

end Runs

/-- Process 1 reads 5 bytes: it sleeps, "ab" and a backspace are typed, then "c" and a ^D, which
commits "ac^D". The read returns the two bytes and saves the ^D; the next one returns 0. -/
theorem console_lines_ctrlD :
    ∃ log s, machine.Run Machine.Free (start (fun _ => 0) (-1) fun _ => false) log s ∧
      committed log = taken log ++ waiting s.input ∧
      log.head? = some (.returned 1 5 0 [] .eof) ∧
      Entry.returned 1 5 2 [97, 99] .saved ∈ log := by
  obtain ⟨log, s, hrun, hP⟩ := Machine.exists_run_of_exec machine Machine.Free
    (start (fun _ => 0) (-1) fun _ => false)
    [.read 1 5, .intr 97, .intr 98, .intr ctrlH, .intr 99, .intr ctrlD, .resume 1, .read 1 5]
    (fun log _ => log.head? = some (.returned 1 5 0 [] .eof) ∧
      Entry.returned 1 5 2 [97, 99] .saved ∈ log) (by decide +kernel)
  exact ⟨log, s, hrun, (console_lines hrun).2.2.1, hP⟩

section Sleepers

/-- Nothing waits for a read that sleeps. -/
def Sleepers (s : Sys) : Prop :=
  ∀ c dst n target, s.call c = .reading dst n target false → s.input.r = s.input.w

theorem killLine_w (n : ℕ) (s : Input) : (s.killLine n).w = s.w := by
  induction n generalizing s with
  | zero => rfl
  | succ n ih =>
    simp only [Input.killLine]
    split
    · exact ih _
    · rfl

/-- A character that commits nothing wakes nobody. -/
theorem intr_w {s : Input} {c : Byte} (hquiet : (s.intr c).2 = false) : (s.intr c).1.w = s.w := by
  revert hquiet
  unfold Input.intr
  split
  · exact fun _ => rfl
  split
  · exact fun _ => killLine_w _ _
  split
  · split <;> exact fun _ => rfl
  split
  · generalize (if c = carriageReturn then newline else c) = d
    dsimp only
    split
    · exact fun h => by cases h
    · exact fun _ => rfl
  · exact fun _ => rfl

theorem readLoop_sleeping {target n m : ℕ} {s i : Input} {bytes : List Byte}
    (h : readLoop target n s = (i, bytes, .sleeping m)) : i.r = i.w := by
  induction n generalizing s bytes with
  | zero => simp [readLoop] at h
  | succ n ih =>
    simp only [readLoop] at h
    split at h
    · next hnone =>
      cases h
      exact hnone
    split at h
    · split at h <;> simp at h
    split at h
    · simp at h
    · simp only [Prod.mk.injEq] at h
      exact ih (Prod.ext h.1 (Prod.ext rfl h.2.2))

theorem readLoop_of_none {s : Input} (hnone : s.r = s.w) (target n : ℕ) :
    (readLoop target n s).1 = s := by
  cases n <;> simp [readLoop, hnone]

variable {s : Sys}

theorem Sleepers.consoleread (h : Sleepers s) (c : Pid) (dst : List Byte) (n target : ℕ) :
    Sleepers (consoleread s c dst n target).1 := by
  rcases hloop : readLoop target n s.input with ⟨i, bytes, stop⟩
  -- while another read sleeps there is nothing for this one to take
  have hidle : Sleepers { s with input := i, call := update s.call c .idle } := by
    intro d e m k hd
    by_cases hdc : d = c
    · simp [hdc] at hd
    · simp only [update_of_ne hdc] at hd
      have hi := readLoop_of_none (h d e m k hd) target n
      rw [hloop] at hi
      subst hi
      exact h d e m k hd
  cases stop with
  | ended how left => simpa only [ConsoleInput.consoleread, hloop] using hidle
  | sleeping left =>
    simp only [ConsoleInput.consoleread, hloop]
    split
    · exact hidle
    · exact fun _ _ _ _ _ => readLoop_sleeping hloop

theorem wake_ne (call : Call) (dst : List Byte) (n target : ℕ) :
    call.wake ≠ .reading dst n target false := by
  cases call <;> simp [Call.wake]

theorem Sleepers.act (h : Sleepers s) {r : Sys × List Entry}
    (hact : s.act a = some r) : Sleepers r.1 := by
  cases a with
  | intr b =>
    simp only [Sys.act, some.injEq] at hact
    subst hact
    intro c dst n target hc
    cases hwakeup : (s.input.intr b).2 with
    | true =>
      simp only [hwakeup, if_true] at hc
      exact absurd hc (wake_ne _ dst n target)
    | false =>
      simp only [hwakeup, Bool.false_eq_true, if_false] at hc
      dsimp only
      rw [intr_r, intr_w hwakeup]
      exact h c dst n target hc
  | read c n =>
    simp only [Sys.act] at hact
    split at hact
    · exact some.inj hact ▸ h.consoleread c [] n n
    · cases hact
  | resume c =>
    simp only [Sys.act] at hact
    split at hact
    · exact some.inj hact ▸ h.consoleread c _ _ _
    · cases hact
  | kill c wakes =>
    obtain rfl := some.inj hact
    intro d dst n target hd
    cases wakes with
    | false => exact h d dst n target hd
    | true =>
      by_cases hdc : d = c
      · subst hdc
        exact absurd (by simpa using hd) (wake_ne (s.call d) dst n target)
      · simp only [if_true, update_of_ne hdc] at hd
        exact h d dst n target hd

/-- No wakeup is lost: in every run, while a read sleeps no committed character waits and the
line being typed has no newline. -/
theorem console_sleepers {buf : Fin INPUT_BUF → Byte} {first : BitVec 32} {killed : Pid → Bool}
    {log : List Entry} (hrun : machine.Run Machine.Free (start buf first killed) log s)
    {c : Pid} {dst : List Byte} {n target : ℕ}
    (hsleep : s.call c = .reading dst n target false) :
    waiting s.input = [] ∧ newline ∉ line s.input := by
  have hsleepers : Sleepers s := by
    refine Machine.Run.invariant (P := fun _ s => Sleepers s) (by simp [Sleepers, start]) ?_ hrun
    intro log s a t h _ hstep
    exact h.act (act_of_step hstep)
  obtain ⟨front, rest, hbuffered, -⟩ := (consistent_of_run hrun).buffered
  refine ⟨?_, ?_⟩
  · rw [hbuffered.waiting_eq]
    exact hbuffered.none_iff.mp (hsleepers c dst n target hsleep)
  · rw [hbuffered.line_eq]
    exact hbuffered.unfinished

/-- Two reads sleep, a line of one character wakes both, the first takes it whole and the
second goes back to sleep. -/
theorem console_sleepers_two :
    ∃ log s, machine.Run Machine.Free (start (fun _ => 0) (-1) fun _ => false) log s ∧
      s.call 2 = .reading [] 5 5 false ∧ waiting s.input = [] := by
  obtain ⟨log, s, hrun, hsleep⟩ := Machine.exists_run_of_exec machine Machine.Free
    (start (fun _ => 0) (-1) fun _ => false)
    [.read 1 5, .read 2 5, .intr 97, .intr newline, .resume 1, .resume 2]
    (fun _ s => s.call 2 = .reading [] 5 5 false) (by decide +kernel)
  exact ⟨log, s, hrun, hsleep, (console_sleepers hrun hsleep).1⟩

end Sleepers

end KernelLabs.ConsoleInput

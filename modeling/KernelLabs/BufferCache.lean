import KernelLabs.LinkedRing
import KernelLabs.LogOps
import KernelLabs.ProcTable

/-!
The buffer cache of bio.c with the disk queue of ide.c and log_write of log.c. A call that
can wait is split where it waits: bread between the search of bget, acquiresleep and the
disk read, bwrite at the disk write, brelse between releasesleep and the update of the
list. What lies between two such points runs under one spin lock and is one step.

The buffers are NBUF places and the head of the list is one more node. The contents of a
block are of any type, as the cache never looks into them. A panic ends the run, and the
disk reports no errors. The field changed is not in the source. It says which buffers have
been changed since bread returned them and not been given to bwrite or log_write.
-/
namespace KernelLabs.BufferCache

open LinkedRing ProcTable Function List Option
open LogOps (BlockNo MAXOPBLOCKS LOGSIZE nlog absorb)

abbrev NBUF : ℕ := MAXOPBLOCKS * 3

abbrev FSSIZE : ℕ := 1000

abbrev BufNo := Fin NBUF

/-- A struct buf of the list: a buffer, or bcache.head. -/
abbrev Node := Option BufNo

abbrev head : Node := none

/-- struct buf. The two flags B_VALID and B_DIRTY are two fields. -/
structure Buf (D : Type) where
  valid : Bool
  dirty : Bool
  dev : ℕ
  blockno : BlockNo
  /-- the process that holds the sleep lock -/
  lock : Option Slot
  refcnt : BitVec 32
  data : D

structure Links where
  next : Node → Node
  prev : Node → Node

inductive Pc
  | idle
  /-- in acquiresleep of bget -/
  | waits (b : BufNo) (blockno : BlockNo)
  /-- in iderw of bread -/
  | reads (b : BufNo) (blockno : BlockNo)
  /-- in iderw of bwrite -/
  | writes (b : BufNo)
  /-- in brelse, behind releasesleep -/
  | drops (b : BufNo)

structure Sys (D : Type) where
  buf : BufNo → Buf D
  links : Links
  idequeue : List BufNo
  havedisk1 : Bool
  disk : BlockNo → D
  lh : List BlockNo
  outstanding : ℤ
  pc : Slot → Pc
  changed : BufNo → Bool

/-- The four assignments that link a buffer in behind the head. -/
def Links.front (L : Links) (b : BufNo) : Links :=
  let next := update L.next (some b) (L.next head)
  let prev := update L.prev (some b) head
  let prev := update prev (next head) (some b)
  let next := update next head (some b)
  ⟨next, prev⟩

def Links.out (L : Links) (b : BufNo) : Links :=
  let prev := update L.prev (L.next (some b)) (L.prev (some b))
  let next := update L.next (prev (some b)) (L.next (some b))
  ⟨next, prev⟩

def binit : Links := (finRange NBUF).foldl Links.front ⟨fun _ => head, fun _ => head⟩

section Calls

variable {D : Type}

def Sys.setBuf (s : Sys D) (b : BufNo) (x : Buf D) : Sys D :=
  { s with buf := update s.buf b x }

def Sys.goto (s : Sys D) (p : Slot) (pc : Pc) : Sys D :=
  { s with pc := update s.pc p pc }

def Buf.carries (x : Buf D) (blockno : BlockNo) : Bool := x.dev = 1 ∧ x.blockno = blockno

def Buf.unused (x : Buf D) : Bool := x.refcnt = 0 ∧ x.dirty = false

def cached (s : Sys D) (blockno : BlockNo) : Option BufNo :=
  (scan s.links.next head (fun x => x.any fun b => (s.buf b).carries blockno) (NBUF + 1)
    (s.links.next head)).join

def recyclable (s : Sys D) : Option BufNo :=
  (scan s.links.prev head (fun x => x.any fun b => (s.buf b).unused) (NBUF + 1)
    (s.links.prev head)).join

def bget (s : Sys D) (p : Slot) (blockno : BlockNo) : Option (Sys D) :=
  match cached s blockno with
  | some b =>
      let x := { s.buf b with refcnt := (s.buf b).refcnt + 1 }
      some ((s.setBuf b x).goto p (.waits b blockno))
  | none =>
      match recyclable s with
      | some b =>
          let x := { s.buf b with
            dev := 1, blockno := blockno, valid := false, dirty := false, refcnt := 1 }
          some ((s.setBuf b x).goto p (.waits b blockno))
      | none => none

def idestart (s : Sys D) (b : BufNo) : Option (Sys D) :=
  if (s.buf b).blockno ≥ FSSIZE then none else some s

def iderw (s : Sys D) (p : Slot) (b : BufNo) : Option (Sys D) :=
  if (s.buf b).lock ≠ some p then none
  else if (s.buf b).valid ∧ (s.buf b).dirty = false then none
  else if (s.buf b).dev ≠ 0 ∧ s.havedisk1 = false then none
  else
    let t := { s with idequeue := s.idequeue ++ [b] }
    if t.idequeue.head? = some b then idestart t b else some t

/-- acquiresleep at the end of bget, and what bread does behind it. -/
def acquiresleep (s : Sys D) (p : Slot) : Option (Sys D) :=
  match s.pc p with
  | .waits b blockno =>
      if (s.buf b).lock = none then
        let t := s.setBuf b { s.buf b with lock := some p }
        if (s.buf b).valid then some (t.goto p .idle)
        else iderw (t.goto p (.reads b blockno)) p b
      else none
  | _ => none

def served (s : Sys D) (b : BufNo) : Buf D :=
  { s.buf b with
    data := if (s.buf b).dirty then (s.buf b).data else s.disk (s.buf b).blockno
    valid := true
    dirty := false }

def written (s : Sys D) (b : BufNo) : BlockNo → D :=
  if (s.buf b).dirty then update s.disk (s.buf b).blockno (s.buf b).data else s.disk

def ideintr (s : Sys D) : Option (Sys D) :=
  match s.idequeue with
  | [] => some s
  | b :: rest =>
      let t := { s.setBuf b (served s b) with disk := written s b, idequeue := rest }
      match rest with
      | [] => some t
      | c :: _ => idestart t c

def wake (s : Sys D) (p : Slot) : Option (Sys D) :=
  match s.pc p with
  | .reads b _ | .writes b =>
      if (s.buf b).valid ∧ (s.buf b).dirty = false then some (s.goto p .idle) else none
  | _ => none

def modify (s : Sys D) (b : BufNo) (d : D) : Option (Sys D) :=
  some { s.setBuf b { s.buf b with data := d } with changed := update s.changed b true }

def bwrite (s : Sys D) (p : Slot) (b : BufNo) : Option (Sys D) :=
  if (s.buf b).lock ≠ some p then none
  else
    let t := s.setBuf b { s.buf b with dirty := true }
    iderw ({ t with changed := update s.changed b false }.goto p (.writes b)) p b

def logWrite (s : Sys D) (b : BufNo) : Option (Sys D) :=
  if s.lh.length ≥ LOGSIZE ∨ s.lh.length ≥ nlog - 1 then none
  else if s.outstanding < 1 then none
  else
    some { s.setBuf b { s.buf b with dirty := true } with
      lh := absorb s.lh (s.buf b).blockno
      changed := update s.changed b false }

def brelse (s : Sys D) (p : Slot) (b : BufNo) : Option (Sys D) :=
  if (s.buf b).lock ≠ some p then none
  else some ((s.setBuf b { s.buf b with lock := none }).goto p (.drops b))

def drop (s : Sys D) (p : Slot) : Option (Sys D) :=
  match s.pc p with
  | .drops b =>
      let x := { s.buf b with refcnt := (s.buf b).refcnt - 1 }
      let t := (s.setBuf b x).goto p .idle
      if x.refcnt = 0 then some { t with links := (s.links.out b).front b } else some t
  | _ => none

/-- One step. The calls on a buffer are made by a process that is in no other call and, but
for the checks of bwrite and brelse, one to which bread has given the buffer. -/
inductive Action (D : Type)
  | bread (p : Slot) (blockno : BlockNo)
  | acquiresleep (p : Slot)
  | ideintr
  | wake (p : Slot)
  | modify (p : Slot) (b : BufNo) (d : D)
  | bwrite (p : Slot) (b : BufNo)
  | logWrite (p : Slot) (b : BufNo)
  | brelse (p : Slot) (b : BufNo)
  | drop (p : Slot)
  /-- the other functions of log.c change the header and the count of open operations -/
  | logState (lh : List BlockNo) (outstanding : ℤ)

instance (pc : Pc) : Decidable (pc = .idle) :=
  match pc with
  | .idle => .isTrue rfl
  | .waits _ _ | .reads _ _ | .writes _ | .drops _ => .isFalse Pc.noConfusion

def step (s : Sys D) : Action D → Option (Sys D)
  | .bread p blockno => if s.pc p = .idle then bget s p blockno else none
  | .acquiresleep p => acquiresleep s p
  | .ideintr => ideintr s
  | .wake p => wake s p
  | .modify p b d => if s.pc p = .idle ∧ (s.buf b).lock = some p then modify s b d else none
  | .bwrite p b => if s.pc p = .idle then bwrite s p b else none
  | .logWrite p b => if s.pc p = .idle ∧ (s.buf b).lock = some p then logWrite s b else none
  | .brelse p b => if s.pc p = .idle then brelse s p b else none
  | .drop p => drop s p
  | .logState lh outstanding => some { s with lh, outstanding }

/-- Data given to bwrite or log_write, and the buffers that bread returns. -/
inductive Entry (D : Type)
  | stored (blockno : BlockNo) (data : D)
  | returned (blockno : BlockNo) (x : Buf D)

def emit (s : Sys D) : Action D → List (Entry D)
  | .acquiresleep p =>
      match s.pc p with
      | .waits b blockno => if (s.buf b).valid then [.returned blockno (s.buf b)] else []
      | _ => []
  | .wake p =>
      match s.pc p with
      | .reads b blockno => [.returned blockno (s.buf b)]
      | _ => []
  | .bwrite _ b | .logWrite _ b => [.stored (s.buf b).blockno (s.buf b).data]
  | _ => []

def machine : Runs.Machine (Sys D) (Action D) (Entry D) := ⟨step, emit⟩

/-- A buffer is released with its changes stored. -/
def Saved (s : Sys D) : Action D → Prop
  | .brelse _ b => s.changed b = false
  | _ => True

instance (s : Sys D) : (a : Action D) → Decidable (Saved s a)
  | .brelse _ b => inferInstanceAs (Decidable (s.changed b = false))
  | .bread _ _ | .acquiresleep _ | .ideintr | .wake _ | .modify _ _ _ | .bwrite _ _
  | .logWrite _ _ | .drop _ | .logState _ _ => .isTrue trivial

def boot (disk : BlockNo → D) (havedisk1 : Bool) (blank : D) : Sys D where
  buf _ := ⟨false, false, 0, 0, none, 0, blank⟩
  links := binit
  idequeue := []
  havedisk1 := havedisk1
  disk := disk
  lh := []
  outstanding := 0
  pc _ := .idle
  changed _ := false

def lastStored (disk : BlockNo → D) : List (Entry D) → BlockNo → D
  | [], n => disk n
  | .stored m d :: older, n => if m = n then d else lastStored disk older n
  | .returned _ _ :: older, n => lastStored disk older n

end Calls

/-! The list of the source is a ring through all buffers. -/

/-- The list has every buffer once, in the order of `l`. -/
structure Links.Lists (L : Links) (l : List BufNo) : Prop where
  ring : Ring L.next L.prev head (l.map some)
  all : ∀ b, b ∈ l

section Ring

variable {L : Links} {l : List BufNo} {b : BufNo}

theorem some_mem_map : some b ∈ l.map some ↔ b ∈ l := by
  rw [List.mem_map]
  constructor
  · intro ⟨c, hc, heq⟩
    exact some.inj heq ▸ hc
  · intro hb
    exact ⟨b, hb, rfl⟩

theorem ring_front (hr : Ring L.next L.prev head (l.map some)) (hb : b ∉ l) :
    Ring (L.front b).next (L.front b).prev head ((b :: l).map some) := by
  have hpush := hr.push (some_ne_none b) (some_mem_map.not.mpr hb)
  have hhead : update L.next (some b) (L.next head) head = L.next head :=
    update_of_ne (some_ne_none b).symm _ _
  rw [Links.front, hhead]
  exact hpush

theorem ring_out (hr : Ring L.next L.prev head (l.map some)) (hb : b ∈ l) :
    Ring (L.out b).next (L.out b).prev head ((l.erase b).map some) := by
  obtain ⟨l₁, l₂, hl₁, rfl, herase⟩ := exists_erase_eq hb
  rw [map_append, map_cons] at hr
  have hremove := hr.remove
  -- the second assignment reads the field prev of b, which the first one keeps
  have hprev : update L.prev (L.next (some b)) (L.prev (some b)) (some b) =
      L.prev (some b) := by
    rw [update_apply]
    exact ite_self _
  rw [Links.out, hprev, herase, map_append]
  exact hremove

theorem ring_foldl_front (bs : List BufNo) (hr : Ring L.next L.prev head (l.map some))
    (hnodup : bs.Nodup) (hdisjoint : ∀ b ∈ bs, b ∉ l) :
    Ring (bs.foldl Links.front L).next (bs.foldl Links.front L).prev head
      ((bs.reverse ++ l).map some) := by
  induction bs generalizing L l with
  | nil => exact hr
  | cons b bs ih =>
    obtain ⟨hb, hrest⟩ := nodup_cons.mp hnodup
    have hfront := ring_front hr (hdisjoint b mem_cons_self)
    have hnew : ∀ c ∈ bs, c ∉ b :: l := by
      intro c hc hmem
      obtain rfl | hmem := mem_cons.mp hmem
      · exact hb hc
      · exact hdisjoint c (mem_cons_of_mem b hc) hmem
    have hfold := ih hfront hrest hnew
    rwa [append_cons, ← reverse_cons] at hfold

theorem lists_binit : ∃ l, binit.Lists l := by
  refine ⟨(finRange NBUF).reverse ++ [], ?_, ?_⟩
  · apply ring_foldl_front
    · exact ring_nil rfl rfl
    · exact nodup_finRange NBUF
    · intro b _
      exact not_mem_nil
  · intro b
    rw [append_nil, mem_reverse]
    exact mem_finRange b

theorem Links.Lists.nodup (h : L.Lists l) : l.Nodup :=
  (nodup_cons.mp h.ring.nodup).2.of_map some

theorem Links.Lists.perm (h : L.Lists l) : l.Perm (finRange NBUF) := by
  apply (perm_ext_iff_of_nodup h.nodup (nodup_finRange NBUF)).mpr
  intro b
  exact iff_of_true (h.all b) (mem_finRange b)

theorem Links.Lists.moveFront (h : L.Lists l) (b : BufNo) :
    ((L.out b).front b).Lists (b :: l.erase b) := by
  refine ⟨?_, ?_⟩
  · apply ring_front (ring_out h.ring (h.all b))
    exact h.nodup.not_mem_erase
  · intro c
    by_cases hc : c = b
    · exact hc ▸ mem_cons_self
    · exact mem_cons_of_mem b ((mem_erase_of_ne hc).mpr (h.all c))

theorem find?_map_some (q : BufNo → Bool) (l : List BufNo) :
    ((l.map some).find? fun x => x.any q).join = l.find? q := by
  rw [find?_map]
  change (Option.map some (l.find? q)).join = l.find? q
  cases l.find? q with
  | none => rfl
  | some b => rfl

end Ring

section Search

variable {D : Type} {s : Sys D} {l : List BufNo} {b : BufNo} {n : BlockNo}

variable (h : s.links.Lists l)

include h

theorem cached_eq (n : BlockNo) : cached s n = l.find? fun b => (s.buf b).carries n := by
  have hlength : (l.map some).length < NBUF + 1 := by
    rw [length_map, h.perm.length_eq, length_finRange]
    exact Nat.lt_succ_self NBUF
  rw [cached, scan_eq _ h.ring.forward (nodup_cons.mp h.ring.nodup).1 hlength]
  exact find?_map_some _ l

theorem recyclable_eq : recyclable s = l.reverse.find? fun b => (s.buf b).unused := by
  have hlength : (l.map some).reverse.length < NBUF + 1 := by
    rw [length_reverse, length_map, h.perm.length_eq, length_finRange]
    exact Nat.lt_succ_self NBUF
  have hhead : head ∉ (l.map some).reverse := by
    rw [mem_reverse]
    exact (nodup_cons.mp h.ring.nodup).1
  rw [recyclable, scan_eq _ h.ring.backward hhead hlength, ← map_reverse]
  exact find?_map_some _ l.reverse

/-- A buffer that the first loop finds carries the block. -/
theorem cached_some (hc : cached s n = some b) : (s.buf b).dev = 1 ∧ (s.buf b).blockno = n := by
  rw [cached_eq h] at hc
  have hcarries := find?_some hc
  exact of_decide_eq_true hcarries

/-- If the first loop finds nothing, no buffer carries the block. -/
theorem cached_none (hc : cached s n = none) (b : BufNo) :
    ¬ ((s.buf b).dev = 1 ∧ (s.buf b).blockno = n) := by
  rw [cached_eq h, find?_eq_none] at hc
  have hb := hc b (h.all b)
  rwa [Buf.carries, decide_eq_true_eq] at hb

/-- A buffer that the second loop finds is used by nobody and clean. -/
theorem recyclable_some (hr : recyclable s = some b) :
    (s.buf b).refcnt = 0 ∧ (s.buf b).dirty = false := by
  rw [recyclable_eq h] at hr
  have hunused := find?_some hr
  exact of_decide_eq_true hunused

end Search

end KernelLabs.BufferCache

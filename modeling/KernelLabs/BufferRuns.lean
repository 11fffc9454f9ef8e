import KernelLabs.BufferRefs
import KernelLabs.Runs

/-!
What a run of the buffer cache keeps. A block of device 1 is in at most one buffer. The data
of a valid buffer, once its changes are stored, are those stored last for its block, and the
disk has them too unless a dirty buffer holds them back. A dirty buffer is not recycled, so
what bread reads from the disk or finds in a buffer is what was stored last.
-/
namespace KernelLabs.BufferCache

open ProcTable Function List
open LogOps (BlockNo)

variable {D : Type} {disk : BlockNo → D} {log : List (Entry D)} {s t : Sys D} {p : Slot}
  {b : BufNo} {n : BlockNo}

/-- The buffers, the processes that use them and the disk agree on the last stored data. -/
structure Coherent (disk : BlockNo → D) (log : List (Entry D)) (s : Sys D) : Prop where
  single : ∀ a b, (s.buf a).dev = 1 → (s.buf b).dev = 1 →
    (s.buf a).blockno = (s.buf b).blockno → a = b
  dirty : ∀ b, (s.buf b).dirty = true → (s.buf b).dev = 1 ∧ (s.buf b).valid = true
  held : ∀ b p, (s.buf b).lock = some p →
    (s.buf b).dev = 1 ∧ ((∃ n, s.pc p = .reads b n) ∨ (s.buf b).valid = true)
  changed : ∀ b, s.changed b = true → ∃ p, (s.buf b).lock = some p
  waiting : ∀ p b n, s.pc p = .waits b n → (s.buf b).dev = 1 ∧ (s.buf b).blockno = n
  reading : ∀ p b n, s.pc p = .reads b n → (s.buf b).lock = some p ∧ (s.buf b).blockno = n ∧
    (s.buf b).dirty = false ∧ s.changed b = false
  writing : ∀ p b, s.pc p = .writes b → (s.buf b).lock = some p ∧ s.changed b = false
  queued : ∀ b ∈ s.idequeue, (∃ p, s.pc p = .writes b ∨ ∃ n, s.pc p = .reads b n) ∧
    ((s.buf b).valid = true → (s.buf b).dirty = true)
  nodup : s.idequeue.Nodup
  data : ∀ b, (s.buf b).dev = 1 → (s.buf b).valid = true → s.changed b = false →
    (s.buf b).data = lastStored disk log (s.buf b).blockno
  stored : ∀ n, s.disk n = lastStored disk log n ∨
    ∃ b, (s.buf b).dev = 1 ∧ (s.buf b).blockno = n ∧ (s.buf b).dirty = true

theorem coherent_boot (havedisk1 : Bool) (blank : D) :
    Coherent disk [] (boot disk havedisk1 blank) := by
  constructor
  case stored =>
    intro n
    exact Or.inl rfl
  all_goals simp [boot]

theorem Coherent.congr (h : Coherent disk log s) (hbuf : t.buf = s.buf) (hpc : t.pc = s.pc)
    (hchanged : t.changed = s.changed) (hqueue : t.idequeue = s.idequeue)
    (hdisk : t.disk = s.disk) : Coherent disk log t := by
  cases h
  constructor <;> simp only [hbuf, hpc, hchanged, hqueue, hdisk] <;> assumption

/-- The log of a step that stores nothing does not count. -/
theorem Coherent.returned (h : Coherent disk log s) (x : Buf D) :
    Coherent disk (.returned n x :: log) s :=
  { h with data := h.data, stored := h.stored }

/-- A buffer with a queued request is locked by a process that waits for the disk, and has
no change that is not stored. -/
theorem Coherent.of_queued (h : Coherent disk log s) (hb : b ∈ s.idequeue) :
    (∃ p, (s.buf b).lock = some p ∧ s.pc p ≠ .idle) ∧ (s.buf b).dev = 1 ∧
      s.changed b = false := by
  obtain ⟨⟨p, hpc⟩, -⟩ := h.queued b hb
  have hlock : (s.buf b).lock = some p ∧ s.changed b = false := by
    obtain hpc | ⟨n, hpc⟩ := hpc
    · exact h.writing p b hpc
    · exact ⟨(h.reading p b n hpc).1, (h.reading p b n hpc).2.2.2⟩
  refine ⟨⟨p, hlock.1, ?_⟩, (h.held b p hlock.1).1, hlock.2⟩
  intro hidle
  obtain hpc | ⟨n, hpc⟩ := hpc <;> rw [hidle] at hpc <;> contradiction

theorem Coherent.unchanged (h : Coherent disk log s) (hfree : (s.buf b).lock = none) :
    s.changed b = false := by
  by_contra hb
  obtain ⟨q, hq⟩ := h.changed b (Bool.not_eq_false _ ▸ hb)
  rw [hfree] at hq
  contradiction

section Steps

/-- A process that does not wait for the disk begins or ends a call, and the counter of a
buffer changes. -/
theorem Coherent.recount (h : Coherent disk log s) {pc : Pc}
    (hold : s.pc p = .idle ∨ ∃ c, s.pc p = .drops c)
    (hnew : pc = .idle ∨ pc = .waits b n ∧ (s.buf b).dev = 1 ∧ (s.buf b).blockno = n)
    (refcnt : BitVec 32) : Coherent disk log ((s.setBuf b { s.buf b with refcnt }).goto p pc) := by
  cases h
  constructor <;> simp only [Sys.goto, Sys.setBuf, update_apply] <;> grind

/-- A buffer that nobody uses is recycled for a block that is in no buffer. It is clean, so
the data it carried are on the disk. -/
theorem Coherent.recycle (h : Coherent disk log s) (hidle : s.pc p = .idle)
    (hlock : (s.buf b).lock = none) (hfree : ∀ p, (s.pc p).ref ≠ some b)
    (hclean : (s.buf b).dirty = false)
    (hnone : ∀ b, ¬ ((s.buf b).dev = 1 ∧ (s.buf b).blockno = n)) (refcnt : BitVec 32) :
    Coherent disk log ((s.setBuf b { s.buf b with
      dev := 1, blockno := n, valid := false, dirty := false, refcnt }).goto p (.waits b n)) := by
  have hwaits : ∀ q m, s.pc q ≠ .waits b m := by
    intro q m hpc
    exact hfree q (by rw [hpc]; rfl)
  have hqueue : b ∉ s.idequeue := by
    intro hb
    obtain ⟨⟨q, hq, -⟩, -⟩ := h.of_queued hb
    rw [hlock] at hq
    contradiction
  obtain ⟨single, dirty, held, changed, waiting, reading, writing, queued, nodup, data, stored⟩ := h
  constructor
  case stored =>
    intro m
    obtain hm | ⟨c, hdev, hc, hdirty⟩ := stored m
    · exact Or.inl hm
    · have hne : c ≠ b := by
        intro heq
        rw [heq, hclean] at hdirty
        contradiction
      right
      refine ⟨c, ?_⟩
      simp only [Sys.goto, Sys.setBuf, update_of_ne hne]
      exact ⟨hdev, hc, hdirty⟩
  all_goals simp only [Sys.goto, Sys.setBuf, update_apply]; grind

theorem Coherent.request (h : Coherent disk log s)
    (hpc : s.pc p = .writes b ∨ ∃ n, s.pc p = .reads b n) (hnew : b ∉ s.idequeue)
    (hflags : (s.buf b).valid = true → (s.buf b).dirty = true) :
    Coherent disk log { s with idequeue := s.idequeue ++ [b] } :=
  { h with
    queued := by
      intro c hc
      obtain hc | hc := mem_append.mp hc
      · exact h.queued c hc
      · obtain rfl := mem_singleton.mp hc
        exact ⟨⟨p, hpc⟩, hflags⟩
    nodup := h.nodup.append (nodup_singleton b) (disjoint_singleton.mpr hnew) }

/-- A process that waits for the sleep lock of a buffer gets it. -/
theorem Coherent.acquire (h : Coherent disk log s) (hpc : s.pc p = .waits b n)
    (hfree : (s.buf b).lock = none) {pc : Pc}
    (hnew : pc = .idle ∧ (s.buf b).valid = true ∨ pc = .reads b n ∧ (s.buf b).valid = false) :
    Coherent disk log ((s.setBuf b { s.buf b with lock := some p }).goto p pc) := by
  have hchanged := h.unchanged hfree
  have hclean : (s.buf b).valid = false → (s.buf b).dirty = false := by
    intro hvalid
    by_contra hdirty
    have hb := (h.dirty b (Bool.not_eq_false _ ▸ hdirty)).2
    rw [hvalid] at hb
    contradiction
  cases h
  constructor <;> simp only [Sys.goto, Sys.setBuf, update_apply] <;> grind

/-- The disk serves the first request of its queue. A write stores what was stored last, and
a read finds it, because no other buffer carries the block. -/
theorem Coherent.serve (h : Coherent disk log s) {rest : List BufNo}
    (hqueue : s.idequeue = b :: rest) :
    Coherent disk log
      { s.setBuf b (served s b) with disk := written s b, idequeue := rest } := by
  have hmem : b ∈ s.idequeue := hqueue ▸ mem_cons_self
  obtain ⟨-, hdev, hchanged⟩ := h.of_queued hmem
  have hflags := (h.queued b hmem).2
  have hdata : (served s b).data = lastStored disk log (s.buf b).blockno := by
    unfold served
    dsimp only
    split
    · case _ hdirty => exact h.data b hdev (h.dirty b hdirty).2 hchanged
    · case _ hclean =>
      obtain hdisk | ⟨c, hcdev, hc, hdirty⟩ := h.stored (s.buf b).blockno
      · exact hdisk
      · obtain rfl := h.single c b hcdev hdev hc
        exact absurd hdirty hclean
  have hwritten : ∀ m, m ≠ (s.buf b).blockno → written s b m = s.disk m := by
    intro m hm
    unfold written
    split
    · exact update_of_ne hm _ _
    · rfl
  have hself : written s b (s.buf b).blockno = lastStored disk log (s.buf b).blockno := by
    rw [← hdata]
    unfold written served
    dsimp only
    split
    · exact update_self _ _ _
    · rfl
  obtain ⟨single, dirty, held, changed, waiting, reading, writing, queued, nodup, data, stored⟩ := h
  constructor
  case stored =>
    intro m
    by_cases hm : m = (s.buf b).blockno
    · exact Or.inl (hm ▸ hself)
    · obtain hdisk | ⟨c, hcdev, hc, hdirty⟩ := stored m
      · exact Or.inl ((hwritten m hm).trans hdisk)
      · have hne : c ≠ b := fun heq => hm (heq ▸ hc.symm)
        right
        refine ⟨c, ?_⟩
        simp only [Sys.setBuf, update_of_ne hne]
        exact ⟨hcdev, hc, hdirty⟩
  case data =>
    intro c
    by_cases hc : c = b
    · subst hc
      simp only [Sys.setBuf, update_self]
      intro _ _ _
      exact hdata
    · simp only [Sys.setBuf, update_of_ne hc]
      exact data c
  all_goals simp only [Sys.setBuf, update_apply, served]; grind

theorem Coherent.wake (h : Coherent disk log s)
    (hpc : s.pc p = .writes b ∨ ∃ n, s.pc p = .reads b n)
    (hflags : (s.buf b).valid = true ∧ (s.buf b).dirty = false) :
    Coherent disk log (s.goto p .idle) := by
  cases h
  constructor <;> simp only [Sys.goto, update_apply] <;> grind

variable (h : Coherent disk log s)

include h

/-- The process that bread has given a buffer changes its data. -/
theorem Coherent.modify (hidle : s.pc p = .idle) (hlock : (s.buf b).lock = some p) (d : D) :
    Coherent disk log { s.setBuf b { s.buf b with data := d } with
      changed := update s.changed b true } := by
  cases h
  constructor <;> simp only [Sys.setBuf, update_apply] <;> grind

/-- bwrite and log_write make the data of the buffer those stored last. -/
theorem Coherent.store (hidle : s.pc p = .idle) (hlock : (s.buf b).lock = some p) :
    Coherent disk (.stored (s.buf b).blockno (s.buf b).data :: log)
      { s.setBuf b { s.buf b with dirty := true } with
        changed := update s.changed b false } := by
  obtain ⟨hdev, hread⟩ := h.held b p hlock
  have hvalid : (s.buf b).valid = true := by
    obtain ⟨n, hn⟩ | hvalid := hread
    · rw [hidle] at hn
      contradiction
    · exact hvalid
  obtain ⟨single, dirty, held, changed, waiting, reading, writing, queued, nodup, data, stored⟩ := h
  constructor
  case data =>
    intro c
    by_cases hc : c = b
    · subst hc
      simp only [Sys.setBuf, update_self, lastStored, if_pos, implies_true]
    · simp only [Sys.setBuf, update_of_ne hc]
      intro hcdev hcvalid hsaved
      have hne : (s.buf b).blockno ≠ (s.buf c).blockno := fun heq =>
        hc (single c b hcdev hdev heq.symm)
      rw [lastStored, if_neg hne]
      exact data c hcdev hcvalid hsaved
  case stored =>
    intro m
    by_cases hm : (s.buf b).blockno = m
    · refine Or.inr ⟨b, ?_⟩
      simp only [Sys.setBuf, update_self]
      exact ⟨hdev, hm, trivial⟩
    · rw [lastStored, if_neg hm]
      obtain hdisk | ⟨c, hcdev, hc, hdirty⟩ := stored m
      · exact Or.inl hdisk
      · have hne : c ≠ b := fun heq => hm (heq ▸ hc)
        refine Or.inr ⟨c, ?_⟩
        simp only [Sys.setBuf, update_of_ne hne]
        exact ⟨hcdev, hc, hdirty⟩
  all_goals simp only [Sys.setBuf, update_apply]; grind

theorem Coherent.beginWrite (hidle : s.pc p = .idle) (hlock : (s.buf b).lock = some p)
    (hsaved : s.changed b = false) : Coherent disk log (s.goto p (.writes b)) := by
  cases h
  constructor <;> simp only [Sys.goto, update_apply] <;> grind

theorem Coherent.notMem_idequeue (hidle : s.pc p = .idle)
    (hlock : (s.buf b).lock = some p) : b ∉ s.idequeue := by
  intro hb
  obtain ⟨⟨q, hq, hbusy⟩, -⟩ := h.of_queued hb
  rw [hlock] at hq
  exact hbusy (Option.some.inj hq ▸ hidle)

theorem Coherent.release (hidle : s.pc p = .idle)
    (hlock : (s.buf b).lock = some p) (hsaved : s.changed b = false) :
    Coherent disk log ((s.setBuf b { s.buf b with lock := none }).goto p (.drops b)) := by
  have hqueue := h.notMem_idequeue hidle hlock
  cases h
  constructor <;> simp only [Sys.goto, Sys.setBuf, update_apply] <;> grind

end Steps

/-- Every buffer that bread has returned carries the block asked for, with the data that
were stored last at that time. -/
def Answers (disk : BlockNo → D) (log : List (Entry D)) : Prop :=
  ∀ newer n x older, log = newer ++ .returned n x :: older →
    x.dev = 1 ∧ x.blockno = n ∧ x.valid = true ∧ x.data = lastStored disk older n

theorem answers_cons {e : Entry D} (h : Answers disk log)
    (he : ∀ n x, e = .returned n x →
      x.dev = 1 ∧ x.blockno = n ∧ x.valid = true ∧ x.data = lastStored disk log n) :
    Answers disk (e :: log) := by
  intro newer n x older heq
  cases newer with
  | nil =>
    obtain ⟨hhead, htail⟩ := List.cons.inj heq
    exact htail ▸ he n x hhead
  | cons a newer => exact h newer n x older (List.cons.inj heq).2

theorem answers_stored (h : Answers disk log) (n : BlockNo) (d : D) :
    Answers disk (.stored n d :: log) := by
  apply answers_cons h
  intro m x heq
  contradiction

structure Inv (disk : BlockNo → D) (log : List (Entry D)) (s : Sys D) : Prop where
  lists : ∃ l, s.links.Lists l
  counted : Counted s
  coherent : Coherent disk log s
  answers : Answers disk log

theorem inv_boot (disk : BlockNo → D) (havedisk1 : Bool) (blank : D) :
    Inv disk [] (boot disk havedisk1 blank) := by
  refine ⟨lists_binit, counted_boot disk havedisk1 blank, coherent_boot havedisk1 blank, ?_⟩
  intro newer n x older heq
  cases newer <;> contradiction

def Sys.carried (s : Sys D) (b : BufNo) : ℕ × BlockNo := ((s.buf b).dev, (s.buf b).blockno)

theorem carried_of_update {x : Buf D} (hbuf : t.buf = update s.buf b x)
    (hdev : x.dev = (s.buf b).dev) (hblockno : x.blockno = (s.buf b).blockno) (c : BufNo) :
    t.carried c = s.carried c := by
  unfold Sys.carried
  rw [hbuf]
  by_cases hc : c = b
  · subst hc
    rw [update_self, hdev, hblockno]
  · rw [update_of_ne hc]

variable {a : Action D}

/-- The effect of a step on the list and on what the buffers carry: brelse moves a buffer to
the front, and only the second loop of bget gives a buffer another block. -/
theorem step_spec (hmoves : Moves s a t) :
    (t.links = s.links ∨ ∃ b, t.links = (s.links.out b).front b) ∧
      ∀ b, t.carried b = s.carried b ∨ recyclable s = some b := by
  cases hmoves with
  | @recycle _ b _ _ _ hrecycle =>
    refine ⟨Or.inl rfl, ?_⟩
    intro c
    by_cases hc : c = b
    · exact Or.inr (hc ▸ hrecycle)
    · left
      change (Sys.setBuf s b _).carried c = s.carried c
      rw [Sys.carried, setBuf_of_ne s _ hc, Sys.carried]
  | @drop _ b _ _ hlinks =>
    exact ⟨hlinks.imp id fun hmoved => ⟨b, hmoved⟩,
      fun c => Or.inl (carried_of_update rfl (by rfl) (by rfl) c)⟩
  | quiet _ => exact ⟨Or.inl rfl, fun c => Or.inl rfl⟩
  | wake _ _ => exact ⟨Or.inl rfl, fun c => Or.inl rfl⟩
  | logState lh outstanding => exact ⟨Or.inl rfl, fun c => Or.inl rfl⟩
  | _ => exact ⟨Or.inl rfl, fun c => Or.inl (carried_of_update rfl (by rfl) (by rfl) c)⟩

theorem lists_step (h : ∃ l, s.links.Lists l) (hmoves : Moves s a t) : ∃ l, t.links.Lists l := by
  obtain hsame | ⟨b, hmoved⟩ := (step_spec hmoves).1
  · rwa [hsame]
  · obtain ⟨l, hl⟩ := h
    exact ⟨_, hmoved ▸ hl.moveFront b⟩

theorem emit_acquiresleep (hpc : s.pc p = .waits b n) : emit s (.acquiresleep p) =
    if (s.buf b).valid = true then [.returned n (s.buf b)] else [] := by
  simp only [emit, hpc]

/-- The data that a valid and unlocked buffer, or one just read, gives to its reader. -/
theorem answers_emit (h : Coherent disk log s) (hanswers : Answers disk log)
    (hmoves : Moves s a t) : Answers disk (emit s a ++ log) := by
  have hreturned {b : BufNo} {n : BlockNo} (hdev : (s.buf b).dev = 1)
      (hblockno : (s.buf b).blockno = n) (hvalid : (s.buf b).valid = true)
      (hsaved : s.changed b = false) : Answers disk (.returned n (s.buf b) :: log) := by
    apply answers_cons hanswers
    intro m x heq
    obtain ⟨rfl, rfl⟩ := Entry.returned.inj heq
    exact ⟨hdev, hblockno, hvalid, hblockno ▸ h.data b hdev hvalid hsaved⟩
  cases hmoves with
  | @lock p b n hpc hfree hvalid =>
    obtain ⟨hdev, hblockno⟩ := h.waiting p b n hpc
    rw [emit_acquiresleep hpc, if_pos hvalid]
    exact hreturned hdev hblockno hvalid (h.unchanged hfree)
  | fetch hpc _ hvalid =>
    rw [emit_acquiresleep hpc, if_neg (Bool.not_eq_true _ ▸ hvalid)]
    exact hanswers
  | @wake p b hpc hflags =>
    obtain hpc | ⟨n, hpc⟩ := hpc
    · simp only [emit, hpc, nil_append]
      exact hanswers
    · obtain ⟨hlock, hblockno, -, hsaved⟩ := h.reading p b n hpc
      simp only [emit, hpc, singleton_append]
      exact hreturned (h.held b p hlock).1 hblockno hflags.1 hsaved
  | bwrite _ _ => exact answers_stored hanswers _ _
  | logWrite _ _ => exact answers_stored hanswers _ _
  | _ => exact hanswers

theorem coherent_step (h : Inv disk log s) (hsaved : Saved s a)
    (hmoves : Moves s a t) : Coherent disk (emit s a ++ log) t := by
  have hc := h.coherent
  obtain ⟨l, hl⟩ := h.lists
  cases hmoves with
  | hit hidle hcached =>
    exact hc.recount (Or.inl hidle) (Or.inr ⟨rfl, cached_some hl hcached⟩) _
  | recycle hidle hcached hrecycle =>
    obtain ⟨hzero, hclean⟩ := recyclable_some hl hrecycle
    obtain ⟨hlock, hfree⟩ := h.counted.unused hzero
    exact hc.recycle hidle hlock hfree hclean (cached_none hl hcached) _
  | lock hpc hfree hvalid =>
    rw [emit_acquiresleep hpc, if_pos hvalid]
    exact (hc.acquire hpc hfree (Or.inl ⟨rfl, hvalid⟩)).returned _
  | @fetch p b n hpc hfree hvalid =>
    rw [emit_acquiresleep hpc, if_neg (Bool.not_eq_true _ ▸ hvalid)]
    refine (hc.acquire hpc hfree (Or.inr ⟨rfl, hvalid⟩)).request (Or.inr ⟨n, goto_self _ p _⟩) ?_ ?_
    · intro hqueue
      obtain ⟨⟨q, hq, -⟩, -⟩ := hc.of_queued hqueue
      rw [hfree] at hq
      contradiction
    · simp [Sys.goto, hvalid]
  | quiet _ => exact hc
  | serve hqueue => exact hc.serve hqueue
  | wake hpc hflags =>
    have hnext := hc.wake hpc hflags
    obtain hpc | ⟨n, hpc⟩ := hpc
    · simpa only [emit, hpc, nil_append] using hnext
    · simpa only [emit, hpc, singleton_append] using hnext.returned _
  | modify hidle hlock d => exact hc.modify hidle hlock d
  | @bwrite p b hidle hlock =>
    refine ((hc.store hidle hlock).beginWrite hidle ?_ ?_).request (Or.inl (goto_self _ p _)) ?_ ?_
    · simp only [setBuf_self, hlock]
    · exact update_self b false s.changed
    · exact hc.notMem_idequeue hidle hlock
    · simp [Sys.goto]
  | logWrite hidle hlock => exact (hc.store hidle hlock).congr rfl rfl rfl rfl rfl
  | brelse hidle hlock => exact hc.release hidle hlock hsaved
  | @drop p b hpc _ _ =>
    exact (hc.recount (n := 0) (Or.inr ⟨b, hpc⟩) (Or.inl rfl) _).congr rfl rfl rfl rfl rfl
  | logState lh outstanding => exact hc.congr rfl rfl rfl rfl rfl

theorem inv_of_run {havedisk1 : Bool} {blank : D}
    (hrun : machine.Run Saved (boot disk havedisk1 blank) log s) : Inv disk log s := by
  refine Runs.Machine.Run.invariant (inv_boot disk havedisk1 blank) ?_ hrun
  intro log s a t h hsaved hstep
  have hmoves := moves_of_step hstep
  exact ⟨lists_step h.lists hmoves, counted_step h.counted h.lists hmoves,
    coherent_step h hsaved hmoves, answers_emit h.coherent h.answers hmoves⟩

/-- A process that waits for a buffer nobody has locked gets it, from the disk if it has to
be read. -/
theorem returns_of_waits {start : Sys D} (hrun : machine.Run Saved start log s)
    (hpc : s.pc p = .waits b n) (hfree : (s.buf b).lock = none) (hblockno : (s.buf b).blockno = n)
    (hqueue : s.idequeue = []) (hdisk : s.havedisk1 = true) (hn : n < FSSIZE) :
    ∃ x u, machine.Run Saved start (.returned n x :: log) u := by
  by_cases hvalid : (s.buf b).valid = true
  · have hstep : step s (.acquiresleep p) =
        some ((s.setBuf b { s.buf b with lock := some p }).goto p .idle) := by
      simp [step, acquiresleep, hpc, hfree, hvalid]
    have hemit : emit s (.acquiresleep p) = [.returned n (s.buf b)] := by
      simp [emit, hpc, hvalid]
    have hnext := hrun.snoc (Action.acquiresleep p) trivial hstep
    change machine.Run Saved start (emit s (.acquiresleep p) ++ log) _ at hnext
    rw [hemit] at hnext
    exact ⟨s.buf b, _, hnext⟩
  · -- the request is the only one, so the disk starts it and serves it next
    let u := (s.setBuf b { s.buf b with lock := some p }).goto p (.reads b n)
    let v := { u with idequeue := [b] }
    let w := { v.setBuf b (served v b) with disk := written v b, idequeue := [] }
    have hacquire : step s (.acquiresleep p) = some v := by
      simp [step, acquiresleep, hpc, hfree, hvalid, iderw, idestart, hqueue, hdisk, Sys.goto,
        Sys.setBuf, u, v, hblockno, hn]
    have hserve : step v .ideintr = some w := by
      simp [step, ideintr, v, w]
    have hwake : step w (.wake p) = some (w.goto p .idle) := by
      simp [step, wake, w, v, u, Sys.goto, Sys.setBuf, served]
    have hemit : emit s (.acquiresleep p) = [] := by simp [emit, hpc, hvalid]
    have hreturn : emit w (.wake p) = [.returned n (w.buf b)] := by
      simp [emit, w, v, u, Sys.goto, Sys.setBuf]
    have hread := hrun.snoc (Action.acquiresleep p) trivial hacquire
    have hserved := hread.snoc Action.ideintr trivial hserve
    have hwoken := hserved.snoc (Action.wake p) trivial hwake
    change machine.Run Saved start (emit w (.wake p) ++ ([] ++ (emit s (.acquiresleep p) ++ log)))
      (w.goto p .idle) at hwoken
    rw [hreturn, hemit] at hwoken
    exact ⟨_, _, hwoken⟩

/-- bread returns if it finds a buffer that is not locked and the disk is idle. -/
theorem bread_returns (hlists : ∃ l, s.links.Lists l) (hget : step s (.bread p n) = some t)
    (hfree : ∀ b, t.pc p = .waits b n → (t.buf b).lock = none) (hqueue : s.idequeue = [])
    (hdisk : s.havedisk1 = true) (hn : n < FSSIZE) :
    ∃ x u, machine.Run Saved s [.returned n x] u := by
  obtain ⟨b, x, heq, hblockno⟩ : ∃ b x, t = (s.setBuf b x).goto p (.waits b n) ∧ x.blockno = n := by
    obtain ⟨l, hl⟩ := hlists
    cases moves_of_step hget with
    | hit _ hcached => exact ⟨_, _, rfl, (cached_some hl hcached).2⟩
    | recycle _ _ _ => exact ⟨_, _, rfl, rfl⟩
  have hrun : machine.Run Saved s [] t :=
    Runs.Machine.Run.snoc (Action.bread p n) Runs.Machine.Run.nil trivial hget
  have hpc : t.pc p = .waits b n := by rw [heq, goto_self]
  refine returns_of_waits hrun hpc (hfree b hpc) ?_ ?_ ?_ hn
  · rw [heq]
    change ((s.setBuf b x).buf b).blockno = n
    rw [setBuf_self, hblockno]
  · rw [heq]
    exact hqueue
  · rw [heq]
    exact hdisk

/-- In every state of every run that releases buffers with their changes stored, the list
has every buffer once and a block of device 1 is in at most one buffer; a step that gives a
buffer another block finds it clean and unused; every buffer returned by bread carries the
block asked for, with the data stored last or, if there are none, those of the disk; and a
bread that does not run out of buffers does return, unless the buffer is locked, the disk
serves other requests or the block is not on the disk. -/
theorem bufferCache_coherent (disk : BlockNo → D) (havedisk1 : Bool) (blank : D)
    (log : List (Entry D)) (s : Sys D)
    (hrun : machine.Run Saved (boot disk havedisk1 blank) log s) :
    (∃ l : List BufNo, LinkedRing.Ring s.links.next s.links.prev head (l.map some) ∧
      l.Perm (finRange NBUF)) ∧
    (∀ a b, (s.buf a).dev = 1 → (s.buf b).dev = 1 →
      (s.buf a).blockno = (s.buf b).blockno → a = b) ∧
    (∀ a t b, step s a = some t →
      (t.buf b).dev ≠ (s.buf b).dev ∨ (t.buf b).blockno ≠ (s.buf b).blockno →
      (s.buf b).dirty = false ∧ (s.buf b).refcnt = 0) ∧
    (∀ newer n x older, log = newer ++ .returned n x :: older →
      x.dev = 1 ∧ x.blockno = n ∧ x.valid = true ∧ x.data = lastStored disk older n) ∧
    (∀ p n t, step s (.bread p n) = some t →
      (∀ b, t.pc p = .waits b n → (t.buf b).lock = none) → s.idequeue = [] →
      s.havedisk1 = true → n < FSSIZE →
      ∃ x u, machine.Run Saved s [.returned n x] u) := by
  have h := inv_of_run hrun
  obtain ⟨l, hl⟩ := h.lists
  refine ⟨⟨l, hl.ring, hl.perm⟩, h.coherent.single, ?_, h.answers, ?_⟩
  · intro a t b hstep hother
    obtain hsame | hrecycle := (step_spec (moves_of_step hstep)).2 b
    · have hdev : (t.buf b).dev = (s.buf b).dev := congrArg Prod.fst hsame
      have hblockno : (t.buf b).blockno = (s.buf b).blockno := congrArg Prod.snd hsame
      exact absurd hother (not_or.mpr ⟨not_not.mpr hdev, not_not.mpr hblockno⟩)
    · exact (recyclable_some hl hrecycle).symm
  · intro p n t hget hfree hqueue hdisk hn
    exact bread_returns h.lists hget hfree hqueue hdisk hn

/-- Block 5 is read, changed and written, and another process reads it again. -/
def reread : List (Action ℕ) :=
  [.bread 0 5, .acquiresleep 0, .ideintr, .wake 0, .modify 0 0 77, .bwrite 0 0, .ideintr, .wake 0,
    .brelse 0 0, .drop 0, .bread 1 5, .acquiresleep 1]

def rereadEnds (log : List (Entry ℕ)) (_ : Sys ℕ) : Bool :=
  match log with
  | [.returned n x, .stored m d, .returned _ y] =>
      n = 5 ∧ x.data = 77 ∧ m = 5 ∧ d = 77 ∧ y.data = 1005
  | _ => false

theorem bufferCache_coherent_reread :
    ∃ log s, (machine (D := ℕ)).Run Saved (boot (fun n => n + 1000) true 0) log s ∧
      rereadEnds log s = true ∧
      ∃ l : List BufNo, LinkedRing.Ring s.links.next s.links.prev head (l.map some) ∧
        l.Perm (finRange NBUF) := by
  obtain ⟨log, s, hrun, hends⟩ := machine.exists_run_of_exec Saved (boot (fun n => n + 1000) true 0)
    reread (fun log s => rereadEnds log s) (by decide +kernel)
  exact ⟨log, s, hrun, hends, (bufferCache_coherent _ true 0 log s hrun).1⟩

end KernelLabs.BufferCache

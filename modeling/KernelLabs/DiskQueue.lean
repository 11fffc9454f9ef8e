import KernelLabs.BufferRuns

/-!
The queue of the disk. A process that waits in iderw goes on when ideintr has served its
request, so a request that left the queue in another way would never end.
-/
namespace KernelLabs.BufferCache

open ProcTable Function List
open LogOps (BlockNo)

/-- A place in iderw, of bread or of bwrite, for this buffer. -/
def Pc.Waits (pc : Pc) (b : BufNo) : Prop := pc = .writes b ∨ ∃ n, pc = .reads b n

variable {D : Type} {disk : BlockNo → D} {log : List (Entry D)} {s t : Sys D}

/-- The condition on which the wait ends. -/
def Buf.Finished (x : Buf D) : Prop := x.valid = true ∧ x.dirty = false

def Pending (pc : Slot → Pc) (queue : List BufNo) (buf : BufNo → Buf D) : Prop :=
  ∀ p b, (pc p).Waits b → b ∈ queue ∨ (buf b).Finished

namespace Pending

variable {pc : Slot → Pc} {queue : List BufNo} {buf : BufNo → Buf D} {p : Slot} {b : BufNo}
  {x : Buf D} {place : Pc}

theorem update_buf (h : Pending pc queue buf)
    (hx : (∀ p, ¬ (pc p).Waits b) ∨ x.valid = (buf b).valid ∧ x.dirty = (buf b).dirty) :
    Pending pc queue (update buf b x) := by
  intro p c hw
  refine (h p c hw).imp_right fun hdone => ?_
  by_cases hcb : c = b
  · subst hcb
    obtain hnone | ⟨hvalid, hdirty⟩ := hx
    · exact absurd hw (hnone p)
    · rw [update_self, Buf.Finished, hvalid, hdirty]
      exact hdone
  · rwa [update_of_ne hcb]

/-- A process may move to a place that waits only for requests added to the queue. -/
theorem update_pc (h : Pending pc queue buf) {new : List BufNo}
    (hplace : ∀ c, place.Waits c → c ∈ new) : Pending (update pc p place) (queue ++ new) buf := by
  intro q c hw
  by_cases hqp : q = p
  · subst hqp
    rw [update_self] at hw
    exact .inl (mem_append_right _ (hplace c hw))
  · rw [update_of_ne hqp] at hw
    exact (h q c hw).imp_left (mem_append_left _)

theorem leave (h : Pending pc queue buf) (hplace : ∀ c, ¬ place.Waits c) :
    Pending (update pc p place) queue buf := by
  have hmove : Pending (update pc p place) (queue ++ []) buf :=
    h.update_pc fun c hc => absurd hc (hplace c)
  rwa [append_nil] at hmove

end Pending

theorem Inv.lock_of_waits (h : Inv disk log s) {p : Slot} {b : BufNo} (hw : (s.pc p).Waits b) :
    (s.buf b).lock = some p := by
  obtain hpc | ⟨n, hpc⟩ := hw
  · exact (h.coherent.writing p b hpc).1
  · exact (h.coherent.reading p b n hpc).1

theorem pending_step (h : Inv disk log s) (hp : Pending s.pc s.idequeue s.buf) {a : Action D}
    (hmoves : Moves s a t) : Pending t.pc t.idequeue t.buf := by
  have hidle : ∀ {p b}, s.pc p = .idle → (s.buf b).lock = some p → ∀ q, ¬ (s.pc q).Waits b := by
    intro p b hpc hlock q hw
    obtain rfl := Option.some.inj (hlock.symm.trans (h.lock_of_waits hw))
    simp [Pc.Waits, hpc] at hw
  cases hmoves with
  | hit _ _ => apply (hp.update_buf _).leave <;> simp [Pc.Waits]
  | recycle _ _ hrecycle =>
    obtain ⟨l, hl⟩ := h.lists
    have hfree := (h.counted.unused (recyclable_some hl hrecycle).1).1
    refine (hp.update_buf (.inl fun q hw => ?_)).leave (by simp [Pc.Waits])
    cases hfree.symm.trans (h.lock_of_waits hw)
  | lock _ _ _ => apply (hp.update_buf _).leave <;> simp [Pc.Waits]
  | fetch _ _ _ => apply (hp.update_buf _).update_pc <;> simp [Pc.Waits]
  | quiet _ => exact hp
  | @serve b rest hqueue =>
    intro q c hw
    by_cases hcb : c = b
    · subst hcb
      exact .inr (by simp [Buf.Finished, served])
    · rcases hp q c hw with hmem | hdone
      · simp only [hqueue, mem_cons, hcb, false_or] at hmem
        exact .inl hmem
      · exact .inr ((setBuf_of_ne s _ hcb).symm ▸ hdone)
  | wake _ _ => exact hp.leave (by simp [Pc.Waits])
  | modify _ _ _ => exact hp.update_buf (.inr ⟨rfl, rfl⟩)
  | bwrite hpc hlock =>
    exact (hp.update_buf (.inl (hidle hpc hlock))).update_pc (by simp [Pc.Waits])
  | logWrite hpc hlock => exact hp.update_buf (.inl (hidle hpc hlock))
  | brelse _ _ => apply (hp.update_buf _).leave <;> simp [Pc.Waits]
  | drop _ _ => apply (hp.update_buf _).leave <;> simp [Pc.Waits]
  | logState _ _ => exact hp

/-- No request is lost: in every run no buffer is in the queue twice, each one is waited for
by one process, and the request of a process that waits is in the queue until it has been
served. -/
theorem disk_requests {havedisk1 : Bool} {blank : D}
    (hrun : machine.Run Saved (boot disk havedisk1 blank) log s) :
    s.idequeue.Nodup ∧ (∀ b ∈ s.idequeue, ∃! p, (s.pc p).Waits b) ∧
      ∀ p b, (s.pc p).Waits b → (b ∈ s.idequeue ↔ ¬ (s.buf b).Finished) := by
  have h : Inv disk log s ∧ Pending s.pc s.idequeue s.buf := by
    refine Runs.Machine.Run.invariant (P := fun log s => Inv disk log s ∧
      Pending s.pc s.idequeue s.buf) ⟨inv_boot disk havedisk1 blank, ?_⟩ ?_ hrun
    · simp [Pending, boot, Pc.Waits]
    · rintro log s a t ⟨h, hp⟩ hsaved hstep
      have hmoves := moves_of_step hstep
      exact ⟨⟨lists_step h.lists hmoves, counted_step h.counted h.lists hmoves,
        coherent_step h hsaved hmoves, answers_emit h.coherent h.answers hmoves⟩,
        pending_step h hp hmoves⟩
  obtain ⟨hinv, hp⟩ := h
  refine ⟨hinv.coherent.nodup, fun b hb => ?_, fun p b hw => ⟨fun hb hdone => ?_, fun hdone => ?_⟩⟩
  · obtain ⟨p, hw⟩ := (hinv.coherent.queued b hb).1
    exact ⟨p, hw, fun q hq => Option.some.inj ((hinv.lock_of_waits hq).symm.trans
      (hinv.lock_of_waits hw))⟩
  · exact absurd (hdone.2.symm.trans ((hinv.coherent.queued b hb).2 hdone.1)) (by decide)
  · exact (hp p b hw).resolve_right hdone

/-- Two processes read two blocks, and the first request has been served. -/
theorem disk_requests_two :
    ∃ log s, machine.Run Saved (boot (fun _ => 0) true 0) log s ∧ s.idequeue = [1] ∧
      ∃! p, (s.pc p).Waits 1 := by
  obtain ⟨log, s, hrun, hqueue⟩ := Runs.Machine.exists_run_of_exec machine Saved
    (boot (fun _ => 0) true 0)
    [.bread 1 5, .acquiresleep 1, .bread 2 6, .acquiresleep 2, .ideintr]
    (fun _ s => s.idequeue = [1]) (by decide +kernel)
  exact ⟨log, s, hrun, hqueue, (disk_requests hrun).2.1 1 (by simp [hqueue])⟩

end KernelLabs.BufferCache

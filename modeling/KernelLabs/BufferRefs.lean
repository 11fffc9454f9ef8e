import KernelLabs.BufferCache
import KernelLabs.ReferenceCount

/-!
The field refcnt of a buffer counts the processes that wait for its sleep lock, the one
that holds it and those that are on their way out of brelse. As there are NPROC processes
it never wraps, so a buffer with refcnt zero is referred to by no process.
-/
namespace KernelLabs.BufferCache

open ReferenceCount ProcTable Function BitVec Option
open LogOps (BlockNo absorb)

variable {D : Type} {s t : Sys D} {p : Slot} {b c : BufNo} {x : Buf D} {pc : Pc}

/-- The buffer whose counter a process outside of the sleep lock accounts for. -/
def Pc.ref : Pc → Option BufNo
  | .waits b _ | .drops b => some b
  | .idle | .reads _ _ | .writes _ => none

def Buf.held (x : Buf D) : ℕ := if x.lock = none then 0 else 1

def users (s : Sys D) (b : BufNo) : ℕ := count (Pc.ref ∘ s.pc) b + (s.buf b).held

def Counted (s : Sys D) : Prop := ∀ b, (s.buf b).refcnt.toNat = users s b

theorem Buf.held_le_one (x : Buf D) : x.held ≤ 1 := by
  unfold Buf.held
  split
  · exact Nat.zero_le 1
  · exact le_refl 1

theorem users_le (s : Sys D) (b : BufNo) : users s b ≤ 65 := by
  have hcount := count_le_card (Pc.ref ∘ s.pc) b
  have hheld := Buf.held_le_one (s.buf b)
  rw [Fintype.card_fin] at hcount
  change count (Pc.ref ∘ s.pc) b ≤ 64 at hcount
  unfold users
  omega

@[simp] theorem setBuf_self (s : Sys D) (b : BufNo) (x : Buf D) : (s.setBuf b x).buf b = x := by
  simp [Sys.setBuf]

theorem setBuf_of_ne (s : Sys D) (x : Buf D) (h : c ≠ b) : (s.setBuf b x).buf c = s.buf c := by
  simp [Sys.setBuf, h]

@[simp] theorem goto_self (s : Sys D) (p : Slot) (pc : Pc) : (s.goto p pc).pc p = pc := by
  simp [Sys.goto]

/-- What a step at one buffer and one process does to the references. -/
theorem users_setBuf_goto (s : Sys D) (b c : BufNo) (x : Buf D) (p : Slot) (pc : Pc) :
    users ((s.setBuf b x).goto p pc) c + (if (s.pc p).ref = some c then 1 else 0) +
        (s.buf c).held =
      users s c + (if pc.ref = some c then 1 else 0) + ((s.setBuf b x).buf c).held := by
  have hcount := count_update (Pc.ref ∘ s.pc) p pc.ref c
  have hpc : Pc.ref ∘ ((s.setBuf b x).goto p pc).pc = update (Pc.ref ∘ s.pc) p pc.ref :=
    comp_update Pc.ref s.pc p pc
  unfold users
  rw [hpc]
  change _ + ((s.setBuf b x).buf c).held + _ + _ = _
  rw [comp_apply] at hcount
  omega

/-- The references change with the counter at one buffer and at no other. -/
theorem Counted.setBuf_goto (h : Counted s)
    (hother : ∀ c, c ≠ b → ((s.pc p).ref = some c ↔ pc.ref = some c))
    (hself : x.refcnt.toNat + (if (s.pc p).ref = some b then 1 else 0) + (s.buf b).held =
      (s.buf b).refcnt.toNat + (if pc.ref = some b then 1 else 0) + x.held) :
    Counted ((s.setBuf b x).goto p pc) := by
  intro c
  have husers := users_setBuf_goto s b c x p pc
  have hc := h c
  change ((s.setBuf b x).buf c).refcnt.toNat = _
  by_cases heq : c = b
  · subst heq
    rw [setBuf_self] at husers ⊢
    omega
  · rw [setBuf_of_ne s x heq] at husers ⊢
    have hiff := hother c heq
    by_cases href : pc.ref = some c
    · rw [if_pos href, if_pos (hiff.mpr href)] at husers
      omega
    · rw [if_neg href, if_neg (hiff.not.mpr href)] at husers
      omega

/-- A step that changes no lock, no counter and nobody's reference. -/
theorem Counted.congr (h : Counted s) (hpc : ∀ p, (t.pc p).ref = (s.pc p).ref)
    (hlock : ∀ b, (t.buf b).lock = (s.buf b).lock)
    (hrefcnt : ∀ b, (t.buf b).refcnt = (s.buf b).refcnt) : Counted t := by
  intro b
  have hcomp : Pc.ref ∘ t.pc = Pc.ref ∘ s.pc := funext hpc
  have hheld : (t.buf b).held = (s.buf b).held := by rw [Buf.held, hlock, Buf.held]
  rw [hrefcnt, users, hcomp, hheld]
  exact h b

theorem Counted.unused (h : Counted s) (hzero : (s.buf b).refcnt = 0) :
    (s.buf b).lock = none ∧ ∀ p, (s.pc p).ref ≠ some b := by
  have hb := h b
  rw [hzero, users] at hb
  change 0 = count (Pc.ref ∘ s.pc) b + (s.buf b).held at hb
  have hcount : count (Pc.ref ∘ s.pc) b = 0 := by omega
  refine ⟨?_, count_eq_zero_iff.mp hcount⟩
  by_contra hlock
  rw [Buf.held, if_neg hlock] at hb
  omega

theorem Counted.toNat_succ (h : Counted s) (b : BufNo) :
    ((s.buf b).refcnt + 1).toNat = (s.buf b).refcnt.toNat + 1 := by
  have hle := users_le s b
  rw [← h b] at hle
  exact toNat_add_of_lt (by change _ + 1 < 4294967296; omega)

theorem Counted.toNat_pred (h : Counted s) (href : (s.pc p).ref = some b) :
    ((s.buf b).refcnt - 1).toNat = (s.buf b).refcnt.toNat - 1 ∧ 0 < (s.buf b).refcnt.toNat := by
  have hpos : 0 < (s.buf b).refcnt.toNat := by
    rw [h b, users, Nat.add_pos_iff_pos_or_pos]
    left
    rw [Nat.pos_iff_ne_zero]
    intro hzero
    exact count_eq_zero_iff.mp hzero p href
  refine ⟨?_, hpos⟩
  exact toNat_sub_of_le (show (1 : BitVec 32) ≤ _ by
    rw [le_def]
    exact hpos)

section Steps

variable {n : BlockNo}

theorem iderw_some (h : iderw s p b = some t) :
    t = { s with idequeue := s.idequeue ++ [b] } ∧ (s.buf b).lock = some p ∧
      ((s.buf b).valid = true → (s.buf b).dirty = true) := by
  unfold iderw at h
  split at h
  · contradiction
  · case _ hlock =>
    split at h
    · contradiction
    · case _ hflags =>
      split at h
      · contradiction
      · refine ⟨?_, not_not.mp hlock, ?_⟩
        · unfold idestart at h
          dsimp only at h
          split at h
          · split at h
            · contradiction
            · exact (some.inj h).symm
          · exact (some.inj h).symm
        · intro hvalid
          by_contra hdirty
          exact hflags ⟨hvalid, Bool.not_eq_true _ ▸ hdirty⟩

/-- What ideintr leaves behind when a request was queued. -/
theorem ideintr_cons {rest : List BufNo} (hqueue : s.idequeue = b :: rest)
    (h : ideintr s = some t) :
    t = { s.setBuf b (served s b) with disk := written s b, idequeue := rest } := by
  unfold ideintr at h
  rw [hqueue] at h
  dsimp only at h
  split at h
  · exact (some.inj h).symm
  · unfold idestart at h
    split at h
    · contradiction
    · exact (some.inj h).symm

inductive Moves (s : Sys D) : Action D → Sys D → Prop
  | hit {p : Slot} {b : BufNo} {n : BlockNo} (hidle : s.pc p = .idle)
      (hcached : cached s n = some b) :
      Moves s (.bread p n)
        ((s.setBuf b { s.buf b with refcnt := (s.buf b).refcnt + 1 }).goto p (.waits b n))
  | recycle {p : Slot} {b : BufNo} {n : BlockNo} (hidle : s.pc p = .idle)
      (hcached : cached s n = none) (hrecycle : recyclable s = some b) :
      Moves s (.bread p n) ((s.setBuf b { s.buf b with
        dev := 1, blockno := n, valid := false, dirty := false, refcnt := 1 }).goto p (.waits b n))
  | lock {p : Slot} {b : BufNo} {n : BlockNo} (hpc : s.pc p = .waits b n)
      (hfree : (s.buf b).lock = none) (hvalid : (s.buf b).valid = true) :
      Moves s (.acquiresleep p) ((s.setBuf b { s.buf b with lock := some p }).goto p .idle)
  | fetch {p : Slot} {b : BufNo} {n : BlockNo} (hpc : s.pc p = .waits b n)
      (hfree : (s.buf b).lock = none) (hvalid : (s.buf b).valid = false) :
      Moves s (.acquiresleep p)
        { (s.setBuf b { s.buf b with lock := some p }).goto p (.reads b n) with
          idequeue := s.idequeue ++ [b] }
  | quiet (hqueue : s.idequeue = []) : Moves s .ideintr s
  | serve {b : BufNo} {rest : List BufNo} (hqueue : s.idequeue = b :: rest) :
      Moves s .ideintr { s.setBuf b (served s b) with disk := written s b, idequeue := rest }
  | wake {p : Slot} {b : BufNo} (hpc : s.pc p = .writes b ∨ ∃ n, s.pc p = .reads b n)
      (hflags : (s.buf b).valid = true ∧ (s.buf b).dirty = false) :
      Moves s (.wake p) (s.goto p .idle)
  | modify {p : Slot} {b : BufNo} (hidle : s.pc p = .idle) (hlock : (s.buf b).lock = some p) (d : D) :
      Moves s (.modify p b d) { s.setBuf b { s.buf b with data := d } with
        changed := update s.changed b true }
  | bwrite {p : Slot} {b : BufNo} (hidle : s.pc p = .idle) (hlock : (s.buf b).lock = some p) :
      Moves s (.bwrite p b)
        { { s.setBuf b { s.buf b with dirty := true } with
            changed := update s.changed b false }.goto p (.writes b) with
          idequeue := s.idequeue ++ [b] }
  | logWrite {p : Slot} {b : BufNo} (hidle : s.pc p = .idle) (hlock : (s.buf b).lock = some p) :
      Moves s (.logWrite p b) { s.setBuf b { s.buf b with dirty := true } with
        lh := absorb s.lh (s.buf b).blockno
        changed := update s.changed b false }
  | brelse {p : Slot} {b : BufNo} (hidle : s.pc p = .idle) (hlock : (s.buf b).lock = some p) :
      Moves s (.brelse p b) ((s.setBuf b { s.buf b with lock := none }).goto p (.drops b))
  | drop {p : Slot} {b : BufNo} (hpc : s.pc p = .drops b) {links : Links}
      (hlinks : links = s.links ∨ links = (s.links.out b).front b) :
      Moves s (.drop p)
        { (s.setBuf b { s.buf b with refcnt := (s.buf b).refcnt - 1 }).goto p .idle with links }
  | logState (lh outstanding) : Moves s (.logState lh outstanding) { s with lh, outstanding }

theorem moves_of_step {a : Action D} (hstep : step s a = some t) : Moves s a t := by
  cases a with
  | bread p n =>
    obtain ⟨hidle, hget⟩ := ite_none_right_eq_some.mp hstep
    unfold bget at hget
    split at hget
    · case _ hcached => exact some.inj hget ▸ .hit hidle hcached
    · case _ hcached =>
      split at hget
      · case _ hrecycle => exact some.inj hget ▸ .recycle hidle hcached hrecycle
      · contradiction
  | acquiresleep p =>
    change acquiresleep s p = some t at hstep
    unfold acquiresleep at hstep
    split at hstep
    · case _ hpc =>
      obtain ⟨hfree, hlocked⟩ := ite_none_right_eq_some.mp hstep
      dsimp only at hlocked
      split at hlocked
      · case _ hvalid => exact some.inj hlocked ▸ .lock hpc hfree hvalid
      · case _ hvalid =>
        obtain ⟨rfl, -⟩ := iderw_some hlocked
        exact .fetch hpc hfree (Bool.not_eq_true _ ▸ hvalid)
    · contradiction
  | ideintr =>
    change ideintr s = some t at hstep
    cases hqueue : s.idequeue with
    | nil =>
      unfold ideintr at hstep
      rw [hqueue] at hstep
      exact some.inj hstep ▸ .quiet hqueue
    | cons b rest => exact ideintr_cons hqueue hstep ▸ .serve hqueue
  | wake p =>
    change wake s p = some t at hstep
    unfold wake at hstep
    split at hstep
    · case _ n hpc =>
      obtain ⟨hflags, hgoto⟩ := ite_none_right_eq_some.mp hstep
      exact some.inj hgoto ▸ .wake (Or.inr ⟨n, hpc⟩) hflags
    · case _ hpc =>
      obtain ⟨hflags, hgoto⟩ := ite_none_right_eq_some.mp hstep
      exact some.inj hgoto ▸ .wake (Or.inl hpc) hflags
    · contradiction
  | modify p b d =>
    obtain ⟨⟨hidle, hlock⟩, hmodify⟩ := ite_none_right_eq_some.mp hstep
    exact some.inj hmodify ▸ .modify hidle hlock d
  | bwrite p b =>
    obtain ⟨hidle, hwrite⟩ := ite_none_right_eq_some.mp hstep
    obtain ⟨hlock, hrw⟩ := ite_none_left_eq_some.mp hwrite
    obtain ⟨rfl, -⟩ := iderw_some hrw
    exact .bwrite hidle (not_not.mp hlock)
  | logWrite p b =>
    obtain ⟨⟨hidle, hlock⟩, hwrite⟩ := ite_none_right_eq_some.mp hstep
    obtain ⟨-, hwrite⟩ := ite_none_left_eq_some.mp hwrite
    obtain ⟨-, hwrite⟩ := ite_none_left_eq_some.mp hwrite
    exact some.inj hwrite ▸ .logWrite hidle hlock
  | brelse p b =>
    obtain ⟨hidle, hrelease⟩ := ite_none_right_eq_some.mp hstep
    obtain ⟨hlock, hrelease⟩ := ite_none_left_eq_some.mp hrelease
    exact some.inj hrelease ▸ .brelse hidle (not_not.mp hlock)
  | drop p =>
    change drop s p = some t at hstep
    unfold drop at hstep
    split at hstep
    · case _ hpc =>
      dsimp only at hstep
      split at hstep
      · exact some.inj hstep ▸ .drop hpc (Or.inr rfl)
      · exact some.inj hstep ▸ .drop hpc (Or.inl rfl)
    · contradiction
  | logState lh outstanding => exact some.inj hstep ▸ .logState lh outstanding

theorem counted_boot (disk : BlockNo → D) (havedisk1 : Bool) (blank : D) :
    Counted (boot disk havedisk1 blank) := by
  intro b
  have hcount : count (Pc.ref ∘ (boot disk havedisk1 blank).pc) b = 0 := by
    rw [count_eq_zero_iff]
    intro p href
    cases href
  rw [users, hcount]
  rfl

theorem setBuf_lock_of_eq (hx : x.lock = (s.buf b).lock) (c : BufNo) :
    ((s.setBuf b x).buf c).lock = (s.buf c).lock := by
  by_cases hc : c = b
  · subst hc
    rw [setBuf_self, hx]
  · rw [setBuf_of_ne s x hc]

theorem setBuf_refcnt_of_eq (hx : x.refcnt = (s.buf b).refcnt) (c : BufNo) :
    ((s.setBuf b x).buf c).refcnt = (s.buf c).refcnt := by
  by_cases hc : c = b
  · subst hc
    rw [setBuf_self, hx]
  · rw [setBuf_of_ne s x hc]

/-- A process moves between two places that hold no reference of their own. -/
theorem Counted.goto (h : Counted s) (hold : (s.pc p).ref = none) (hnew : pc.ref = none) :
    Counted (s.goto p pc) := by
  refine h.congr ?_ (fun _ => rfl) fun _ => rfl
  intro q
  unfold Sys.goto
  dsimp only
  by_cases hq : q = p
  · subst hq
    rw [update_self, hold, hnew]
  · rw [update_of_ne hq]

theorem counted_step (h : Counted s) (hlists : ∃ l, s.links.Lists l) {a : Action D}
    (hmoves : Moves s a t) : Counted t := by
  have hkeep {b : BufNo} {x : Buf D} (hlock : x.lock = (s.buf b).lock)
      (hrefcnt : x.refcnt = (s.buf b).refcnt) : Counted (s.setBuf b x) :=
    h.congr (fun _ => rfl) (setBuf_lock_of_eq hlock) (setBuf_refcnt_of_eq hrefcnt)
  have hlocked {b : BufNo} {n : BlockNo} {p : Slot} {pc : Pc} (hpc : s.pc p = .waits b n)
      (hfree : (s.buf b).lock = none) (href : pc.ref = none) :
      Counted ((s.setBuf b { s.buf b with lock := some p }).goto p pc) := by
    have hold : (s.pc p).ref = some b := by rw [hpc]; rfl
    apply h.setBuf_goto
    · intro c hc
      simp [hold, href, hc.symm]
    · simp [hold, href, Buf.held, hfree]
  cases hmoves with
  | hit hidle _ =>
    apply h.setBuf_goto
    · intro c hc
      simp [hidle, Pc.ref, hc.symm]
    · rw [h.toNat_succ]
      simp [hidle, Pc.ref, Buf.held]
  | recycle hidle _ hrecycle =>
    obtain ⟨l, hl⟩ := hlists
    apply h.setBuf_goto
    · intro c hc
      simp [hidle, Pc.ref, hc.symm]
    · simp [hidle, Pc.ref, Buf.held, (recyclable_some hl hrecycle).1]
  | lock hpc hfree _ => exact hlocked hpc hfree rfl
  | fetch hpc hfree _ => exact hlocked hpc hfree rfl
  | quiet _ => exact h
  | serve _ => exact hkeep rfl rfl
  | wake hpc _ =>
    refine h.goto ?_ rfl
    obtain hpc | ⟨n, hpc⟩ := hpc <;> rw [hpc] <;> rfl
  | modify _ _ d => exact hkeep rfl rfl
  | @bwrite p b hidle _ =>
    have hdirty : Counted (s.setBuf b { s.buf b with dirty := true }) := hkeep rfl rfl
    have hgoto : Counted (Sys.goto _ p (.writes b)) := hdirty.goto (congrArg Pc.ref hidle) rfl
    exact hgoto
  | logWrite _ _ => exact hkeep rfl rfl
  | brelse hidle hlock =>
    apply h.setBuf_goto
    · intro c hc
      simp [hidle, Pc.ref, hc.symm]
    · simp [hidle, Pc.ref, Buf.held, hlock]
  | @drop p b hpc _ _ =>
    have href : (s.pc p).ref = some b := by rw [hpc]; rfl
    obtain ⟨hpred, hpos⟩ := h.toNat_pred href
    apply h.setBuf_goto
    · intro c hc
      simp [hpc, Pc.ref, hc.symm]
    · have hnone : Pc.idle.ref ≠ some b := (some_ne_none b).symm
      rw [if_pos href, if_neg hnone, hpred]
      simp only [Buf.held]
      omega
  | logState lh outstanding => exact h

end Steps

end KernelLabs.BufferCache

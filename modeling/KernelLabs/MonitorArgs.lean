import KernelLabs.Monitor

/-!
The arguments of the monitor's commands. A handler looks at the number of its arguments only
to tell whether there are none, and then uses as many as it needs, so a command line with some
arguments but not all of them makes it follow a pointer that runcmd has not set.
-/
namespace KernelLabs.Monitor

open PageWords PhysPages PageDir KernelWords AddressSpace MemoryBytes PanicMonad Option

variable {M : MemSize}

/-! ### The words of a line -/

/-! ### What a handler uses -/

namespace Command

def needs : Command → ℕ
  | help | kerninfo => 0
  | pagesize => 1
  | showmappings | dumpv | dumpp => 2
  | setperm | loadv | loadp => 3

def usage : Command → Option String
  | help | kerninfo => none
  | showmappings | dumpv | dumpp =>
    some "The function takes two arguments - beginning address and end address\n"
  | setperm =>
    some "The function takes three arguments - addresss, clear/set and permission\n"
  | pagesize => some "The function takes one argument - address\n"
  | loadv | loadp => some "The function takes three arguments - address, value and size\n"

end Command

def lineCommand (line : List Char) : Option (Command × List String) :=
  match parseLine line with
  | some (name :: args) =>
    (Command.table.find? fun entry => entry.2.1 == name).map fun entry => (entry.1, name :: args)
  | _ => none

/-- Every stop but the use of an argument that is not there. -/
def Stop.Inside : Stop → Prop
  | .badArgument _ => False
  | _ => True

/-- A line is handled inside its arguments, and with too few of them it is answered by the
usage of the command with no other change. -/
structure StaysInside (m : Machine M) (line : List Char) : Prop where
  inside : ∀ rounds s stop t, (runcmd m rounds line).run s = .error stop t → stop.Inside
  answered : ∀ cmd argv, lineCommand line = some (cmd, argv) → argv.length ≤ cmd.needs →
    ∃ text, cmd.usage = some text ∧ ∀ rounds s,
      (runcmd m rounds line).run s = .ok 0 { s with console := (text, []) :: s.console }

def Inside {α : Type} (f : MonM M α) : Prop := ∀ s, Ends Stop.Inside f s fun _ _ => True

def Never {α : Type} (f : MonM M α) : Prop := ∀ s, Ends (fun _ => True) f s fun _ _ => False

section Rules

variable {α β : Type} {f f' : MonM M α} {g : α → MonM M β} {c : Prop} [Decidable c]
  {argv : List String} {i : ℕ}

theorem inside_bind (hf : Inside f) (hg : ∀ r, Inside (g r)) : Inside (f >>= g) := fun s =>
  ends_bind ((hf s).mono fun r t _ => hg r t)

theorem inside_ite (hf : Inside f) (hf' : Inside f') : Inside (if c then f else f') := by
  split
  · exact hf
  · exact hf'

theorem inside_pure (a : α) : Inside (pure a : MonM M α) := fun _ => trivial

theorem inside_get : Inside (get : MonM M (Mon M)) := fun _ => trivial

theorem inside_modify (u : Mon M → Mon M) : Inside (modify u : MonM M PUnit) := fun _ => trivial

theorem inside_throw {stop : Stop} (h : stop.Inside) : Inside (throw stop : MonM M α) :=
  fun _ => h

theorem inside_cprintf (format : String) (args : List Arg) :
    Inside (cprintf format args : MonM M Unit) := fun _ => trivial

theorem inside_pmap (f : PmapM M α) : Inside (pmap f) := by
  intro s
  unfold Ends
  cases hrun : f.run s.phys with
  | ok a t =>
    rw [run_pmap_ok hrun]
    trivial
  | error e t =>
    rw [run_pmap_error hrun]
    trivial

theorem inside_arg (hi : i < argv.length) : Inside (arg argv i : MonM M String) := by
  intro s
  rw [arg, List.getElem?_eq_getElem hi]
  trivial

/-- A loop over a range stays inside when its body does. -/
theorem inside_rangeLoop {step stop : Word} {body : Word → MonM M Unit}
    (hbody : ∀ va, Inside (body va)) (n : ℕ) (start : Word) :
    Inside (rangeLoop step stop body n start) := by
  induction n generalizing start with
  | zero => exact inside_throw trivial
  | succ n ih =>
    rw [rangeLoop]
    exact inside_ite (inside_bind (hbody start) fun _ => ih (start + step)) (inside_pure _)

theorem never_left (hf : Never f) : Never (f >>= g) := fun s =>
  ends_bind ((hf s).mono fun _ _ h => h.elim)

theorem never_right (hg : ∀ r, Never (g r)) : Never (f >>= g) := fun s =>
  ends_bind ((ends_any f s).mono fun r t _ => hg r t)

theorem never_arg (hi : argv.length ≤ i) : Never (arg argv i : MonM M String) := by
  intro s
  rw [arg, List.getElem?_eq_none hi]
  trivial

end Rules

/-! ### The handlers -/

section Handlers

variable (m : Machine M) (rounds : ℕ) {argv : List String}

theorem inside_walkCreate (va : Word) : Inside (walkCreate m va) := by
  refine inside_bind (inside_pmap _) ?_
  intro r
  cases r with
  | none => exact inside_throw trivial
  | some pte => exact inside_pure pte

theorem inside_load (va : Word) : Inside (load m va) := by
  refine inside_bind inside_get ?_
  intro s
  cases load32 s.phys m.kernPgdir m.io va with
  | ok w => exact inside_pure w
  | error fault => exact inside_throw trivial

theorem inside_store (va value : Word) : Inside (store m va value) := by
  refine inside_bind inside_get ?_
  intro s
  cases store32 s.phys m.kernPgdir va value with
  | ok t => exact inside_modify _
  | error fault => exact inside_throw trivial

theorem inside_showMapping (va : Word) : Inside (showMapping m va) :=
  inside_bind (inside_walkCreate m va) fun _ => inside_bind inside_get fun _ =>
    inside_ite
      (inside_bind (inside_cprintf _ _) fun _ => inside_bind (inside_pmap _) fun _ =>
        inside_bind (inside_cprintf _ _) fun _ => inside_bind (inside_pmap _) fun _ =>
        inside_cprintf _ _)
      (inside_cprintf _ _)

theorem inside_dumpLine (format : String) (va : Word) : Inside (dumpLine m format va) :=
  inside_bind (inside_load m _) fun _ => inside_bind (inside_load m _) fun _ =>
    inside_bind (inside_load m _) fun _ => inside_bind (inside_load m _) fun _ =>
    inside_cprintf _ _

theorem inside_dumpRange (format : String) (start stop : Word) :
    Inside (dumpRange m format rounds start stop) :=
  inside_bind (inside_cprintf _ _) fun _ =>
    inside_bind (inside_rangeLoop (inside_dumpLine m format) rounds start) fun _ => inside_pure _

theorem inside_loadAt (addr value size : Word) : Inside (loadAt m addr value size) := by
  have hpanic : ∀ text, Inside (throw (.panic text) : MonM M ℤ) := fun _ => inside_throw trivial
  refine inside_bind (inside_walkCreate m addr) fun _ => inside_bind inside_get fun _ => ?_
  refine inside_ite (hpanic _) (inside_ite (hpanic _) (inside_ite (hpanic _) (inside_ite (hpanic _)
    (inside_ite (hpanic _) (inside_ite (hpanic _) (inside_ite (hpanic _) ?_))))))
  exact inside_bind (inside_store m addr value) fun _ => inside_pure _

theorem inside_message (format : String) : Inside (do cprintf format []; return 0 : MonM M ℤ) :=
  inside_bind (inside_cprintf _ _) fun _ => inside_pure _

/-- With all the arguments that it needs a handler uses no other. -/
theorem inside_func (cmd : Command) (hargs : cmd.needs < argv.length) :
    Inside (cmd.func m rounds argv) := by
  have harg : ∀ i ≤ cmd.needs, Inside (arg argv i : MonM M String) := fun i hi =>
    inside_arg (Nat.lt_of_le_of_lt hi hargs)
  cases cmd with
  | help => exact fun _ => trivial
  | kerninfo => exact fun _ => trivial
  | showmappings =>
    refine inside_ite (inside_message _) ?_
    exact inside_bind (harg 1 (by decide)) fun _ => inside_bind (harg 2 (by decide)) fun _ =>
      inside_bind (inside_cprintf _ _) fun _ =>
      inside_bind (inside_rangeLoop (inside_showMapping m) _ _) fun _ => inside_pure _
  | setperm =>
    refine inside_ite (inside_message _) ?_
    exact inside_bind (harg 1 (by decide)) fun _ => inside_bind (inside_walkCreate m _) fun _ =>
      inside_bind (inside_cprintf _ _) fun _ => inside_bind inside_get fun _ =>
      inside_bind (inside_cprintf _ _) fun _ => inside_bind (harg 3 (by decide)) fun _ =>
      inside_bind (harg 2 (by decide)) fun _ => inside_bind (inside_modify _) fun _ =>
      inside_bind (inside_cprintf _ _) fun _ => inside_bind inside_get fun _ =>
      inside_bind (inside_cprintf _ _) fun _ => inside_pure _
  | dumpv =>
    refine inside_ite (inside_message _) ?_
    exact inside_bind (harg 1 (by decide)) fun _ => inside_bind (harg 2 (by decide)) fun _ =>
      inside_ite (inside_message _) (inside_ite (inside_message _)
        (inside_ite (inside_message _) (inside_dumpRange m rounds _ _ _)))
  | dumpp =>
    refine inside_ite (inside_message _) ?_
    exact inside_bind (harg 1 (by decide)) fun _ => inside_bind (inside_pmap _) fun _ =>
      inside_bind (harg 2 (by decide)) fun _ => inside_bind (inside_pmap _) fun _ =>
      inside_ite (inside_message _) (inside_ite (inside_message _)
        (inside_ite (inside_message _) (inside_dumpRange m rounds _ _ _)))
  | pagesize =>
    refine inside_ite (inside_message _) ?_
    exact inside_bind (harg 1 (by decide)) fun _ => inside_bind (inside_walkCreate m _) fun _ =>
      inside_bind inside_get fun _ =>
      inside_ite (inside_message _) (inside_message _)
  | loadv =>
    refine inside_ite (inside_message _) ?_
    exact inside_bind (harg 1 (by decide)) fun _ => inside_bind (harg 2 (by decide)) fun _ =>
      inside_bind (harg 3 (by decide)) fun _ => inside_loadAt m _ _ _
  | loadp =>
    refine inside_ite (inside_message _) ?_
    exact inside_bind (harg 1 (by decide)) fun _ => inside_bind (inside_pmap _) fun _ =>
      inside_bind (harg 2 (by decide)) fun _ => inside_bind (harg 3 (by decide)) fun _ =>
      inside_loadAt m _ _ _

/-- With some but too few arguments a handler does not return. -/
theorem never_func (cmd : Command) (hsome : 1 < argv.length) (hfew : argv.length ≤ cmd.needs) :
    Never (cmd.func m rounds argv) := by
  have hlast : Never (arg argv cmd.needs : MonM M String) := never_arg hfew
  have hne : ¬argv.length = 1 := by omega
  cases cmd with
  | help =>
    have hneeds : Command.needs .help = 0 := rfl
    omega
  | kerninfo =>
    have hneeds : Command.needs .kerninfo = 0 := rfl
    omega
  | pagesize =>
    have hneeds : Command.needs .pagesize = 1 := rfl
    omega
  | showmappings =>
    rw [Command.func, monShowmappings, if_neg hne]
    exact never_right fun _ => never_left hlast
  | setperm =>
    rw [Command.func, monSetperm, if_neg hne]
    exact never_right fun _ => never_right fun _ => never_right fun _ => never_right fun _ =>
      never_right fun _ => never_left hlast
  | dumpv =>
    rw [Command.func, monDumpv, if_neg hne]
    exact never_right fun _ => never_left hlast
  | dumpp =>
    rw [Command.func, monDumpp, if_neg hne]
    exact never_right fun _ => never_right fun _ => never_left hlast
  | loadv =>
    rw [Command.func, monLoadv, if_neg hne]
    exact never_right fun _ => never_right fun _ => never_left hlast
  | loadp =>
    rw [Command.func, monLoadp, if_neg hne]
    exact never_right fun _ => never_right fun _ => never_right fun _ => never_left hlast

/-- Without arguments a handler that needs some prints its usage. -/
theorem func_usage (cmd : Command) (hone : argv.length = 1) (hneeds : 1 ≤ cmd.needs) :
    ∃ text, cmd.usage = some text ∧
      cmd.func m rounds argv = (do cprintf text []; return 0) := by
  cases cmd with
  | help => exact absurd hneeds (by decide)
  | kerninfo => exact absurd hneeds (by decide)
  | showmappings => exact ⟨_, rfl, if_pos hone⟩
  | setperm => exact ⟨_, rfl, if_pos hone⟩
  | dumpv => exact ⟨_, rfl, if_pos hone⟩
  | dumpp => exact ⟨_, rfl, if_pos hone⟩
  | pagesize => exact ⟨_, rfl, if_pos hone⟩
  | loadv => exact ⟨_, rfl, if_pos hone⟩
  | loadp => exact ⟨_, rfl, if_pos hone⟩

end Handlers

section Lines

variable {m : Machine M} {line : List Char} {cmd : Command} {argv : List String}

theorem runcmd_of_command (h : lineCommand line = some (cmd, argv)) (rounds : ℕ) :
    runcmd m rounds line = cmd.func m rounds argv := by
  unfold lineCommand at h
  unfold runcmd
  cases hline : parseLine line with
  | none =>
    rw [hline] at h
    contradiction
  | some words =>
    rw [hline] at h
    cases words with
    | nil => contradiction
    | cons name args =>
      dsimp only at h ⊢
      obtain ⟨entry, hentry, heq⟩ := map_eq_some_iff.mp h
      rw [hentry]
      obtain ⟨rfl, rfl⟩ := Prod.mk.inj heq
      rfl

theorem length_pos_of_command (h : lineCommand line = some (cmd, argv)) : 0 < argv.length := by
  unfold lineCommand at h
  split at h
  · obtain ⟨entry, _, heq⟩ := map_eq_some_iff.mp h
    obtain ⟨_, rfl⟩ := Prod.mk.inj heq
    exact Nat.succ_pos _
  · contradiction

/-- A line without a command of the table is answered by a message or not at all. -/
theorem inside_runcmd_of_none (h : lineCommand line = none) (rounds : ℕ) :
    Inside (runcmd m rounds line) := by
  unfold lineCommand at h
  unfold runcmd
  cases hline : parseLine line with
  | none => exact fun _ => trivial
  | some words =>
    rw [hline] at h
    cases words with
    | nil => exact inside_pure _
    | cons name args =>
      dsimp only at h ⊢
      rw [map_eq_none_iff.mp h]
      exact fun _ => trivial

theorem inside_runcmd (h : ∀ cmd argv, lineCommand line = some (cmd, argv) →
    argv.length = 1 ∨ cmd.needs < argv.length) (rounds : ℕ) : Inside (runcmd m rounds line) := by
  cases hline : lineCommand line with
  | none => exact inside_runcmd_of_none hline rounds
  | some command =>
    obtain ⟨cmd, argv⟩ := command
    rw [runcmd_of_command hline]
    by_cases hneeds : cmd.needs < argv.length
    · exact inside_func m rounds cmd hneeds
    · have hone := (h cmd argv hline).resolve_right hneeds
      obtain ⟨text, _, heq⟩ := func_usage m rounds cmd hone (by omega)
      rw [heq]
      exact inside_message text

end Lines

/-- The handlers stay inside the arguments of a line exactly when the line gives a command
none of its arguments or all of them. -/
theorem staysInside_iff (m : Machine M) (line : List Char) :
    StaysInside m line ↔ ∀ cmd argv, lineCommand line = some (cmd, argv) →
      argv.length = 1 ∨ cmd.needs < argv.length := by
  constructor
  · intro h cmd argv hline
    by_contra hnot
    obtain ⟨hone, hneeds⟩ := not_or.mp hnot
    have hpos := length_pos_of_command hline
    obtain ⟨text, _, hanswered⟩ := h.answered cmd argv hline (by omega)
    have hnever : Never (cmd.func m 0 argv) := never_func m 0 cmd (by omega) (by omega)
    let s : Mon M := ⟨⟨fun _ => ⟨none, 0⟩, none, fun _ _ => 0, []⟩, []⟩
    have hrun := hanswered 0 s
    rw [runcmd_of_command hline] at hrun
    exact (hnever s).of_ok hrun
  · intro h
    refine ⟨?_, ?_⟩
    · intro rounds s stop t hrun
      exact (inside_runcmd h rounds s).of_error hrun
    · intro cmd argv hline hfew
      have hone := (h cmd argv hline).resolve_right (by omega)
      obtain ⟨text, husage, _⟩ := func_usage m 0 cmd hone (by omega)
      refine ⟨text, husage, ?_⟩
      intro rounds s
      obtain ⟨text', husage', heq⟩ := func_usage m rounds cmd hone (by omega)
      obtain rfl : text = text' := some.inj (husage.symm.trans husage')
      rw [runcmd_of_command hline, heq]
      rfl

abbrev onePage : MemSize := ⟨1, by decide, by decide⟩

def onePageMachine : Machine onePage := ⟨⟨0, by decide⟩, fun _ => 0, 0, 0, 0, 0, 0⟩

def onePageState : Mon onePage := ⟨⟨fun _ => ⟨none, 0⟩, none, fun _ _ => 0, []⟩, []⟩

theorem showmappings_uses_missing_argument :
    (runcmd onePageMachine 0 "showmappings f0000000".toList).run onePageState =
        .error (.badArgument 2) onePageState ∧
      ¬StaysInside onePageMachine "showmappings f0000000".toList := by
  have hrun : (runcmd onePageMachine 0 "showmappings f0000000".toList).run onePageState =
      .error (.badArgument 2) onePageState := rfl
  exact ⟨hrun, fun h => h.inside 0 onePageState (.badArgument 2) onePageState hrun⟩

end KernelLabs.Monitor

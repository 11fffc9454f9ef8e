import KernelLabs.MonitorArgs

/-!
The loops over a range of addresses in showmappings, dumpv and dumpp. The address is a 32-bit
word that is compared with the end of the range and then raised, so behind the last address
of the address space it starts again at the bottom, below every end that lies so high.
-/
namespace KernelLabs.Monitor

open PageWords PhysPages PageDir KernelWords AddressSpace MemoryBytes PanicMonad RegionMap List
  BitVec EStateM

variable {M : MemSize}

/-! ### The addresses that a loop meets -/

def visited (step stop : Word) : ℕ → Word → List Word
  | 0, _ => []
  | n + 1, start => if start ≤ stop then start :: visited step stop n (start + step) else []

def ended (step stop : Word) : ℕ → Word → Bool
  | 0, _ => false
  | n + 1, start => if start ≤ stop then ended step stop n (start + step) else true

/-- The loop is its body at the addresses that it meets. -/
theorem rangeLoop_eq (step stop : Word) (body : Word → MonM M Unit) (n : ℕ) (start : Word) :
    rangeLoop step stop body n start =
      ((visited step stop n start).forM body >>= fun _ =>
        if ended step stop n start then pure () else throw .running) := by
  induction n generalizing start with
  | zero => rfl
  | succ n ih =>
    rw [rangeLoop, visited, ended]
    by_cases hle : start ≤ stop
    · rw [if_pos hle, if_pos hle, if_pos hle, ih]
      exact (bind_assoc (body start) _ _).symm
    · rw [if_neg hle, if_neg hle, if_neg hle]
      rfl

def addressCount (step start stop : ℕ) : ℕ :=
  if start ≤ stop then (stop - start) / step + 1 else 0

def addresses (step start stop : Word) : List Word :=
  (List.range (addressCount step.toNat start.toNat stop.toNat)).map fun k =>
    BitVec.ofNat 32 (start.toNat + k * step.toNat)

/-- The steps of the loops divide the address space. -/
def StepSize (step : Word) : Prop := step.toNat = 4 ∨ step.toNat = 4096

/-- The address after the last one of the range is still an address. -/
def Bounded (step start stop : Word) : Prop :=
  stop < start ∨ stop.toNat + step.toNat < 2 ^ 32 + start.toNat % step.toNat

section Addresses

variable {step start stop : Word}

theorem addresses_of_lt (h : stop < start) : addresses step start stop = [] := by
  have hlt : stop.toNat < start.toNat := lt_def.mp h
  unfold addresses addressCount
  rw [if_neg (by omega)]
  rfl

theorem addresses_cons (hstep : StepSize step) (hle : start ≤ stop)
    (hnext : start.toNat + step.toNat < 2 ^ 32) :
    addresses step start stop = start :: addresses step (start + step) stop := by
  have hle' : start.toNat ≤ stop.toNat := le_def.mp hle
  have hsum : (start + step).toNat = start.toNat + step.toNat := toNat_add_of_lt hnext
  have hcount : addressCount step.toNat start.toNat stop.toNat =
      addressCount step.toNat (start + step).toNat stop.toNat + 1 := by
    unfold addressCount
    rw [hsum, if_pos hle']
    rcases hstep with hstep | hstep <;> rw [hstep] <;> split <;> omega
  unfold addresses
  rw [hcount, range_succ_eq_map, map_cons, map_map]
  refine cons_eq_cons.mpr ⟨?_, map_congr_left fun k _ => ?_⟩
  · rw [Nat.zero_mul, Nat.add_zero, ofNat_toNat, setWidth_eq]
  · rw [Function.comp_apply, hsum, Nat.succ_mul]
    congr 1
    omega

/-- A range that ends in time is met once, from its start to its end. -/
theorem visited_of_bounded (hstep : StepSize step) :
    ∀ (n : ℕ) (start : Word), addressCount step.toNat start.toNat stop.toNat < n →
      Bounded step start stop →
      ended step stop n start = true ∧ visited step stop n start = addresses step start stop := by
  intro n
  induction n with
  | zero =>
    intro start hn
    omega
  | succ n ih =>
    intro start hn hbounded
    rw [ended, visited]
    by_cases hle : start ≤ stop
    swap
    · rw [if_neg hle, if_neg hle, addresses_of_lt (BitVec.not_le.mp hle)]
      exact ⟨rfl, rfl⟩
    have hle' : start.toNat ≤ stop.toNat := le_def.mp hle
    have hin : stop.toNat + step.toNat < 2 ^ 32 + start.toNat % step.toNat :=
      hbounded.resolve_left (BitVec.not_lt.mpr hle)
    have hnext : start.toNat + step.toNat < 2 ^ 32 := by
      rcases hstep with hstep | hstep <;> rw [hstep] at hin ⊢ <;> omega
    have hsum : (start + step).toNat = start.toNat + step.toNat := toNat_add_of_lt hnext
    have hcount : addressCount step.toNat (start + step).toNat stop.toNat < n := by
      unfold addressCount at hn ⊢
      rw [if_pos hle'] at hn
      rw [hsum]
      rcases hstep with hstep | hstep <;> rw [hstep] at hn ⊢ <;> split <;> omega
    have hbounded' : Bounded step (start + step) stop := by
      refine Or.inr ?_
      rw [hsum, Nat.add_mod_right]
      exact hin
    obtain ⟨hended, hvisited⟩ := ih (start + step) hcount hbounded'
    rw [if_pos hle, if_pos hle, hended, hvisited, addresses_cons hstep hle hnext]
    exact ⟨rfl, rfl⟩

/-- A range that ends too high is never left: its addresses wrap and stay below the end. -/
theorem not_ended_of_not_bounded (hstep : StepSize step) (n : ℕ) (start : Word)
    (hbounded : ¬Bounded step start stop) : ended step stop n start = false := by
  induction n generalizing start with
  | zero => rfl
  | succ n ih =>
    obtain ⟨hlt, hin⟩ := not_or.mp hbounded
    have hle : start ≤ stop := BitVec.not_lt.mp hlt
    rw [ended, if_pos hle]
    apply ih
    -- the next address has the same remainder, and none with it is after the end
    have hmod : (start + step).toNat % step.toNat = start.toNat % step.toNat := by
      rw [toNat_add]
      rcases hstep with hstep | hstep <;> rw [hstep] <;> omega
    have hmax : (start + step).toNat ≤ stop.toNat := by
      have hlast := (start + step).isLt
      rcases hstep with hstep | hstep <;> rw [hstep] at hmod hin <;> omega
    refine not_or.mpr ⟨?_, ?_⟩
    · rw [BitVec.not_lt, le_def]
      exact hmax
    · rw [hmod]
      exact hin

end Addresses

/-! ### The commands -/

/-- A directory of which every entry, and so every entry of its tables, is the entry of a new
table that names the directory itself. -/
def selfMapped (m : Machine M) : Mon M :=
  ⟨⟨fun _ => ⟨none, 0⟩, none, fun _ _ => dirEntry m.kernPgdir, []⟩, []⟩

section Returning

variable (m : Machine M)

theorem tableOf_selfMapped (i : Fin NPTENTRIES) :
    tableOf (selfMapped m).phys m.kernPgdir i = some m.kernPgdir := by
  change (decode M (dirEntry m.kernPgdir)).map Prod.fst = some m.kernPgdir
  rw [dirEntry, decode_dirEntry]
  rfl

theorem translate_selfMapped (va : Word) :
    ∃ r, AddressSpace.translate (selfMapped m).phys m.kernPgdir va = some r := by
  have hpresent : Present ((selfMapped m).phys.mem m.kernPgdir (PTX va)) :=
    present_dirEntry m.kernPgdir
  rw [AddressSpace.translate, tableOf_selfMapped, Option.bind_some, if_pos hpresent]
  exact ⟨_, rfl⟩

theorem load32_selfMapped (va : Word) :
    ∃ w, load32 (selfMapped m).phys m.kernPgdir m.io va = .ok w := by
  have hread : ∀ va, ∃ b, readByte (selfMapped m).phys m.kernPgdir m.io va = some b := by
    intro va
    obtain ⟨r, hr⟩ := translate_selfMapped m va
    rw [readByte, hr]
    exact ⟨_, rfl⟩
  obtain ⟨b₀, h₀⟩ := hread va
  obtain ⟨b₁, h₁⟩ := hread (va + 1)
  obtain ⟨b₂, h₂⟩ := hread (va + 2)
  obtain ⟨b₃, h₃⟩ := hread (va + 3)
  rw [load32, h₀, h₁, h₂, h₃]
  exact ⟨_, rfl⟩

variable {s : Mon M}

theorem returns_load (hs : s.phys = (selfMapped m).phys) (va : Word) :
    Returns (load m va) s fun _ t => t = s := by
  obtain ⟨w, hw⟩ := load32_selfMapped m va
  rw [load, returns_get_bind, hs, hw]
  exact (returns_pure _).mpr rfl

theorem returns_dumpLine (hs : s.phys = (selfMapped m).phys) (format : String) (va : Word) :
    Returns (dumpLine m format va) s fun _ t => t.phys = (selfMapped m).phys := by
  refine returns_bind ((returns_load m hs va).mono ?_)
  rintro w₀ t rfl
  refine returns_bind ((returns_load m hs (va + 1)).mono ?_)
  rintro w₁ t rfl
  refine returns_bind ((returns_load m hs (va + 2)).mono ?_)
  rintro w₂ t rfl
  refine returns_bind ((returns_load m hs (va + 3)).mono ?_)
  rintro w₃ t rfl
  exact (returns_modify _).mpr hs

theorem returns_showMapping (hs : s.phys = (selfMapped m).phys) (va : Word) :
    Returns (showMapping m va) s fun _ t => t.phys = (selfMapped m).phys := by
  have htable : tableOf s.phys m.kernPgdir (PDX va) = some m.kernPgdir := by
    rw [hs]
    exact tableOf_selfMapped m _
  exact ⟨_, _, run_showMapping_table htable, hs⟩

end Returning

inductive RangeCommand
  | showmappings
  | dumpv
  | dumpp

namespace RangeCommand

def command : RangeCommand → Command
  | showmappings => .showmappings
  | dumpv => .dumpv
  | dumpp => .dumpp

def step : RangeCommand → Word
  | showmappings => pgsize
  | dumpv | dumpp => 4

def body (m : Machine M) : RangeCommand → Word → MonM M Unit
  | showmappings => showMapping m
  | dumpv => dumpLine m "Virtual Address: %x contains %x %x %x %x \r \n"
  | dumpp => dumpLine m "Physical Address: %x contains %x %x %x %x \r \n"

def address : RangeCommand → Word → Word
  | showmappings, a | dumpv, a => a
  | dumpp, a => a + KERNBASE

def Accepts (M : MemSize) : RangeCommand → Word → Word → Prop
  | showmappings, _, _ => True
  | dumpv, a, b => a ≤ b ∧ utop ≤ a ∧ utop ≤ b
  | dumpp, a, b => PGNUM a < M.npages ∧ PGNUM b < M.npages ∧ a + KERNBASE ≤ b + KERNBASE ∧
    a + KERNBASE ≤ utop ∧ b + KERNBASE ≤ utop

/-- The command without its loop: the body at each address of the range, one after the
other. -/
def straight (m : Machine M) (cmd : RangeCommand) (start stop : Word) : MonM M ℤ := do
  cprintf "start address: %x, end address: %x\n" [.x start, .x stop]
  (addresses cmd.step start stop).forM (cmd.body m)
  return 0

/-- The loop of the command comes to its end, for every state, after the addresses start,
start + step, ... up to the end. -/
def EndsExactly (m : Machine M) (cmd : RangeCommand) (argv : List String)
    (start stop : Word) : Prop :=
  ∃ rounds, ∀ n ≥ rounds, cmd.command.func m n argv = cmd.straight m start stop

end RangeCommand

section Commands

variable (m : Machine M) (cmd : RangeCommand) (name a b : String) (rest : List String)

theorem stepSize_step : StepSize cmd.step := by
  cases cmd
  · exact Or.inr rfl
  · exact Or.inl rfl
  · exact Or.inl rfl

theorem pmap_physical2virtual {pa : Word} (h : PGNUM pa < M.npages) :
    (pmap (physical2virtual pa) : MonM M Word) = pure (pa + KERNBASE) := by
  funext s
  have hrun : (physical2virtual pa).run s.phys = .ok (pa + KERNBASE) s.phys := by
    rw [physical2virtual, run_bind, run_KADDR (p := ⟨PGNUM pa, h⟩) rfl]
    rfl
  exact run_pmap_ok hrun

/-- After its checks the command prints the range and enters its loop. -/
theorem func_of_accepts (h : cmd.Accepts M (convert2int a) (convert2int b)) (rounds : ℕ) :
    cmd.command.func m rounds (name :: a :: b :: rest) =
      (cprintf "start address: %x, end address: %x\n"
          [.x (cmd.address (convert2int a)), .x (cmd.address (convert2int b))] >>= fun _ =>
        rangeLoop cmd.step (cmd.address (convert2int b)) (cmd.body m) rounds
          (cmd.address (convert2int a)) >>= fun _ => pure 0) := by
  have hlength : ¬(name :: a :: b :: rest).length = 1 := by
    simp only [length_cons]
    omega
  cases cmd with
  | showmappings =>
    rw [RangeCommand.command, Command.func, monShowmappings, if_neg hlength]
    rfl
  | dumpv =>
    obtain ⟨hle, hstart, hstop⟩ := h
    rw [RangeCommand.command, Command.func, monDumpv, if_neg hlength]
    change (if _ then _ else _) = _
    rw [if_neg (BitVec.not_lt.mpr hle), if_neg (BitVec.not_lt.mpr hstart),
      if_neg (BitVec.not_lt.mpr hstop)]
    rfl
  | dumpp =>
    obtain ⟨ha, hb, hle, hstart, hstop⟩ := h
    rw [RangeCommand.command, Command.func, monDumpp, if_neg hlength]
    change (pmap (physical2virtual (convert2int a)) >>= fun start =>
      pmap (physical2virtual (convert2int b)) >>= fun stop => _) = _
    rw [pmap_physical2virtual ha, pmap_physical2virtual hb, pure_bind, pure_bind,
      if_neg (BitVec.not_lt.mpr hle), if_neg (BitVec.not_lt.mpr hstart),
      if_neg (BitVec.not_lt.mpr hstop)]
    rfl

theorem endsExactly_of_bounded (h : cmd.Accepts M (convert2int a) (convert2int b))
    (hbounded : Bounded cmd.step (cmd.address (convert2int a)) (cmd.address (convert2int b))) :
    cmd.EndsExactly m (name :: a :: b :: rest) (cmd.address (convert2int a))
      (cmd.address (convert2int b)) := by
  refine ⟨addressCount cmd.step.toNat (cmd.address (convert2int a)).toNat
    (cmd.address (convert2int b)).toNat + 1, fun n hn => ?_⟩
  obtain ⟨hended, hvisited⟩ := visited_of_bounded (stepSize_step cmd) n _
    (Nat.lt_of_succ_le hn) hbounded
  rw [func_of_accepts m cmd name a b rest h, rangeLoop_eq, hended, hvisited, RangeCommand.straight]
  simp only [if_true, bind_assoc, pure_bind]

/-- The body of each command returns from a state in which every address is mapped. -/
theorem returns_body {s : Mon M} (hs : s.phys = (selfMapped m).phys) (va : Word) :
    Returns (cmd.body m va) s fun _ t => t.phys = (selfMapped m).phys := by
  cases cmd with
  | showmappings => exact returns_showMapping m hs va
  | dumpv => exact returns_dumpLine m hs _ va
  | dumpp => exact returns_dumpLine m hs _ va

/-- Where every address is mapped, the first line and the bodies come to their end. -/
theorem exists_run_bodies {α : Type} (start stop : Word) (l : List Word) (last : MonM M α) :
    ∃ t, (do
      cprintf "start address: %x, end address: %x\n" [.x start, .x stop]
      l.forM (cmd.body m)
      last).run (selfMapped m) = last.run t := by
  let s : Mon M := { selfMapped m with
    console := [("start address: %x, end address: %x\n", [.x start, .x stop])] }
  have hprint : (cprintf "start address: %x, end address: %x\n" [.x start, .x stop]).run
      (selfMapped m) = .ok () s := rfl
  obtain ⟨_, t, hrun, _⟩ := returns_forM l (fun va _ _ ht => returns_body m cmd ht va)
    (show s.phys = (selfMapped m).phys from rfl)
  refine ⟨t, ?_⟩
  rw [run_bind, hprint]
  dsimp only
  rw [run_bind, hrun]

/-- A range that ends too high keeps the command busy for ever where every address is
mapped. -/
theorem running_of_not_bounded (h : cmd.Accepts M (convert2int a) (convert2int b))
    (hbounded : ¬Bounded cmd.step (cmd.address (convert2int a)) (cmd.address (convert2int b)))
    (rounds : ℕ) : ∃ t, (cmd.command.func m rounds (name :: a :: b :: rest)).run (selfMapped m) =
      .error .running t := by
  have hended := not_ended_of_not_bounded (stepSize_step cmd) rounds _ hbounded
  obtain ⟨t, hrun⟩ := exists_run_bodies m cmd (cmd.address (convert2int a))
    (cmd.address (convert2int b))
    (visited cmd.step (cmd.address (convert2int b)) rounds (cmd.address (convert2int a)))
    (throw .running >>= fun _ : Unit => pure 0 : MonM M ℤ)
  refine ⟨t, ?_⟩
  rw [func_of_accepts m cmd name a b rest h, rangeLoop_eq, hended]
  simp only [bind_assoc]
  exact hrun

theorem not_endsExactly (h : cmd.Accepts M (convert2int a) (convert2int b))
    (hbounded : ¬Bounded cmd.step (cmd.address (convert2int a)) (cmd.address (convert2int b))) :
    ¬cmd.EndsExactly m (name :: a :: b :: rest) (cmd.address (convert2int a))
      (cmd.address (convert2int b)) := by
  rintro ⟨rounds, hends⟩
  obtain ⟨t, hrunning⟩ := running_of_not_bounded m cmd name a b rest h hbounded rounds
  obtain ⟨u, hstraight⟩ := exists_run_bodies m cmd (cmd.address (convert2int a))
    (cmd.address (convert2int b))
    (addresses cmd.step (cmd.address (convert2int a)) (cmd.address (convert2int b)))
    (pure 0 : MonM M ℤ)
  rw [hends rounds (le_refl _), RangeCommand.straight, hstraight] at hrunning
  contradiction

end Commands

/-- For arguments that pass the checks of a command, its loop ends after exactly the
addresses of the range if and only if the address after the last of them does not pass the
end of the address space. -/
theorem endsExactly_iff (m : Machine M) (cmd : RangeCommand) (name a b : String)
    (rest : List String) (haccepts : cmd.Accepts M (convert2int a) (convert2int b)) :
    cmd.EndsExactly m (name :: a :: b :: rest) (cmd.address (convert2int a))
        (cmd.address (convert2int b)) ↔
      Bounded cmd.step (cmd.address (convert2int a)) (cmd.address (convert2int b)) := by
  constructor
  · intro hends
    by_contra hbounded
    exact not_endsExactly m cmd name a b rest haccepts hbounded hends
  · exact endsExactly_of_bounded m cmd name a b rest haccepts

theorem endsExactly_dumpv :
    RangeCommand.Accepts onePage .dumpv (convert2int "f0110000") (convert2int "f0110004") ∧
      RangeCommand.EndsExactly onePageMachine .dumpv ["dumpv", "f0110000", "f0110004"]
        0xf0110000 0xf0110004 :=
  ⟨⟨by decide, by decide, by decide⟩,
    (endsExactly_iff onePageMachine .dumpv "dumpv" "f0110000" "f0110004" []
      ⟨by decide, by decide, by decide⟩).mpr (Or.inr (by decide))⟩

/-- showmappings over the kernel's part of the address space does not come to an end. -/
theorem showmappings_runs_for_ever :
    RangeCommand.Accepts onePage .showmappings (convert2int "f0000000") (convert2int "ffffffff") ∧
      (∀ rounds, ∃ t, (monShowmappings onePageMachine rounds
        ["showmappings", "f0000000", "ffffffff"]).run (selfMapped onePageMachine) =
          .error .running t) ∧
      ¬RangeCommand.EndsExactly onePageMachine .showmappings
        ["showmappings", "f0000000", "ffffffff"] 0xf0000000 0xffffffff := by
  have hbounded : ¬Bounded pgsize (convert2int "f0000000") (convert2int "ffffffff") :=
    not_or.mpr ⟨by decide, by decide⟩
  refine ⟨trivial, ?_, ?_⟩
  · exact running_of_not_bounded onePageMachine .showmappings "showmappings" "f0000000" "ffffffff"
      [] trivial hbounded
  · exact not_endsExactly onePageMachine .showmappings "showmappings" "f0000000" "ffffffff" []
      trivial hbounded

end KernelLabs.Monitor

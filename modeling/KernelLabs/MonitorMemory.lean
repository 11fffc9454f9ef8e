import KernelLabs.MonitorRanges

/-!
The commands that show and change memory. loadv and loadp check the size of the value but
store a word of four bytes whatever the size is, so a shorter value clears the bytes behind
it, and those may lie in a page that was never checked. dumpp turns its arguments into
addresses above KERNBASE and then accepts only addresses up to UTOP, so it shows nothing.
-/
namespace KernelLabs.Monitor

open PageWords PhysPages PageDir KernelWords AddressSpace MemoryBytes PanicMonad RegionMap List
  BitVec Option EStateM

variable {M : MemSize}

/-! ### loadv and loadp -/

/-- The checks of the command: the page of the address is present and writable, and the size,
the address and the value go together. -/
structure Passes (m : Machine M) (s : Phys M) (addr value size : Word) : Prop where
  mapped : ∃ table, tableOf s m.kernPgdir (PDX addr) = some table ∧
    Present (s.mem table (PTX addr)) ∧ s.mem table (PTX addr) &&& PTE_W ≠ 0
  sized : size = 1 ∨ size = 2 ∨ size = 4
  aligned : addr % size = 0
  fits : value.toNat < 2 ^ (8 * size.toNat)

/-- Of all bytes of memory, those of the given size at the address have become the bytes of the
value, and the page structures are the same. -/
structure WritesExactly (pgdir : Page M) (s t : Phys M) (addr value size : Word) : Prop where
  written : ∀ i < size.toNat, ∃ pa, address s pgdir (addr + BitVec.ofNat 32 i) = some pa ∧
    physByte t pa = some (wordByte value i)
  others : ∀ pa, (∀ i < size.toNat, address s pgdir (addr + BitVec.ofNat 32 i) ≠ some pa) →
    physByte t pa = physByte s pa
  rest : t.pages = s.pages ∧ t.freeList = s.freeList

/-- The word at the address may be written, into memory, and the bytes of it that do not belong
to the value are zero or lie outside of the memory. -/
structure Contained (pgdir : Page M) (s : Phys M) (addr size : Word) : Prop where
  target : ∃ pa, writeTarget s pgdir addr = some pa ∧ PGNUM pa < M.npages
  behind : ∀ i, size.toNat ≤ i → i < 4 →
    ∃ pa, writeTarget s pgdir (addr + BitVec.ofNat 32 i) = some pa ∧ (physByte s pa).getD 0 = 0

section Stores

variable {m : Machine M} {s : Mon M} {addr value size : Word}

section

variable (h : Passes m s.phys addr value size)

include h

theorem Passes.size_toNat : size.toNat = 1 ∨ size.toNat = 2 ∨ size.toNat = 4 := by
  rcases h.sized with hsize | hsize | hsize <;> rw [hsize]
  · exact Or.inl rfl
  · exact Or.inr (Or.inl rfl)
  · exact Or.inr (Or.inr rfl)

theorem Passes.aligned_toNat : addr.toNat % size.toNat = 0 := by
  rw [← toNat_umod]
  exact congrArg BitVec.toNat h.aligned

/-- After the checks the command is one store of four bytes. -/
theorem run_loadAt :
    (loadAt m addr value size).run s =
      match store32 s.phys m.kernPgdir addr value with
      | .ok t => .ok 0 { s with phys := t }
      | .error fault => .error (.pageFault fault) s := by
  obtain ⟨table, htable, hpresent, hwritable⟩ := h.mapped
  have hsize : ¬(size ≠ 1 ∧ size ≠ 2 ∧ size ≠ 4) := by
    rintro ⟨h₁, h₂, h₄⟩
    rcases h.sized with hsize | hsize | hsize
    · exact h₁ hsize
    · exact h₂ hsize
    · exact h₄ hsize
  have hfits := h.fits
  have hone : ¬(size = 1 ∧ value > 0xff) := by
    rintro ⟨rfl, hlarge⟩
    have hlarge : 0xff < value.toNat := lt_def.mp hlarge
    change value.toNat < 2 ^ 8 at hfits
    omega
  have htwo : ¬(size = 2 ∧ value > 0xffff) := by
    rintro ⟨rfl, hlarge⟩
    have hlarge : 0xffff < value.toNat := lt_def.mp hlarge
    change value.toNat < 2 ^ 16 at hfits
    omega
  have hfour : ¬(size = 4 ∧ value > 0xffffffff) := by
    rintro ⟨_, hlarge⟩
    have hlarge : 0xffffffff < value.toNat := lt_def.mp hlarge
    have := value.isLt
    omega
  rw [loadAt, run_bind, run_walkCreate_table htable]
  dsimp only
  rw [run_bind, run_get]
  dsimp only
  rw [if_neg (not_not_intro hpresent), if_neg (not_not_intro hwritable), if_neg hsize,
    if_neg (not_not_intro h.aligned), if_neg hone, if_neg htwo, if_neg hfour, run_bind,
    store, run_bind, run_get]
  dsimp only
  cases store32 s.phys m.kernPgdir addr value <;> rfl

/-- The bytes of the value lie in the page of its address. -/
theorem Passes.same_page {i : ℕ} (hi : i < size.toNat) : addr.toNat % 4096 + i < 4096 := by
  have haligned := h.aligned_toNat
  rcases h.size_toNat with hsize | hsize | hsize <;> rw [hsize] at haligned hi <;> omega

end

/-- Where the store writes when the command is contained. -/
theorem Contained.targets (h : Contained m.kernPgdir s.phys addr size)
    (hpass : Passes m s.phys addr value size) :
    ∃ p : ℕ → Word,
      (∀ i < 4, writeTarget s.phys m.kernPgdir (addr + BitVec.ofNat 32 i) = some (p i)) ∧
      (∀ i < size.toNat, PGNUM (p i) < M.npages) ∧
      ∀ i < 4, size.toNat ≤ i → (physByte s.phys (p i)).getD 0 = 0 := by
  obtain ⟨pa, hpa, hlt⟩ := h.target
  have hinside : ∀ i < size.toNat,
      writeTarget s.phys m.kernPgdir (addr + BitVec.ofNat 32 i) = some (pa + BitVec.ofNat 32 i) := by
    intro i hi
    rw [writeTarget_add (hpass.same_page hi), hpa, map_some]
  have hsome : ∀ i < 4, ∃ p, writeTarget s.phys m.kernPgdir (addr + BitVec.ofNat 32 i) = some p := by
    intro i hi
    by_cases hsize : i < size.toNat
    · exact ⟨_, hinside i hsize⟩
    · obtain ⟨p, hp, _⟩ := h.behind i (by omega) hi
      exact ⟨p, hp⟩
  refine ⟨fun i => (writeTarget s.phys m.kernPgdir (addr + BitVec.ofNat 32 i)).getD 0, ?_, ?_, ?_⟩
  · intro i hi
    obtain ⟨p, hp⟩ := hsome i hi
    simp only [hp, getD_some]
  · intro i hi
    have hoffset := offset_of_writeTarget hpa
    have hpage := hpass.same_page hi
    simp only [hinside i hi, getD_some]
    rw [PGNUM_add (by omega)]
    exact hlt
  · intro i hi hsize
    obtain ⟨p, hp, hzero⟩ := h.behind i hsize hi
    simp only [hp, getD_some]
    exact hzero

theorem writesExactly_of_contained (h : Contained m.kernPgdir s.phys addr size)
    (hpass : Passes m s.phys addr value size) :
    ∃ t, (loadAt m addr value size).run s = .ok 0 t ∧
      WritesExactly m.kernPgdir s.phys t.phys addr value size := by
  obtain ⟨p, htargets, hinside, hbehind⟩ := h.targets hpass
  have hinjective := targets_injective htargets
  have hle : size.toNat ≤ 4 := by
    rcases hpass.size_toNat with hsize | hsize | hsize <;> omega
  refine ⟨{ s with phys := setBytes s.phys p value }, ?_, ?_⟩
  · rw [run_loadAt hpass, store32_of_targets htargets]
  refine ⟨fun i hi => ?_, fun pa hpa => ?_, setBytes_rest⟩
  · refine ⟨p i, address_of_writeTarget (htargets i (by omega)), ?_⟩
    rw [physByte_setBytes hinjective (by omega), if_pos (hinside i hi)]
  · by_cases hnone : ∀ i < 4, pa ≠ p i
    · exact physByte_setBytes_of_ne hnone
    -- one of the bytes behind the value, which are written as zero
    push Not at hnone
    obtain ⟨i, hi, rfl⟩ := hnone
    have hsize : size.toNat ≤ i := by
      by_contra hlt
      exact hpa i (by omega) (address_of_writeTarget (htargets i hi))
    have hzero := hbehind i hi hsize
    rw [physByte_setBytes hinjective hi, wordByte_of_lt hpass.fits hsize]
    unfold physByte at hzero ⊢
    split at hzero
    · rename_i hlt
      rw [if_pos hlt, dif_pos hlt, ← hzero]
      rfl
    · rename_i hlt
      rw [if_neg hlt, dif_neg hlt]

theorem contained_of_writesExactly {t : Mon M} (hpass : Passes m s.phys addr value size)
    (hrun : (loadAt m addr value size).run s = .ok 0 t)
    (h : WritesExactly m.kernPgdir s.phys t.phys addr value size) :
    Contained m.kernPgdir s.phys addr size := by
  have hsize := hpass.size_toNat
  rw [run_loadAt hpass] at hrun
  cases hstore : store32 s.phys m.kernPgdir addr value with
  | error fault =>
    rw [hstore] at hrun
    cases hrun
  | ok u =>
    obtain ⟨p, htargets⟩ := targets_of_store32 hstore
    have hinjective := targets_injective htargets
    rw [store32_of_targets htargets] at hrun
    obtain rfl := (EStateM.Result.ok.inj hrun).2
    constructor
    · have haddr := htargets 0 (by decide)
      have hzero : addr + BitVec.ofNat 32 0 = addr := BitVec.add_zero addr
      obtain ⟨pa, hpa, hbyte⟩ := h.written 0 (by omega)
      rw [address_of_writeTarget haddr] at hpa
      obtain rfl := some.inj hpa
      rw [hzero] at haddr
      refine ⟨p 0, haddr, ?_⟩
      by_contra hlt
      rw [physByte_setBytes hinjective (by decide), if_neg hlt] at hbyte
      contradiction
    · intro i hi hlt
      refine ⟨p i, htargets i hlt, ?_⟩
      have hother : ∀ j < size.toNat,
          address s.phys m.kernPgdir (addr + BitVec.ofNat 32 j) ≠ some (p i) := by
        intro j hj heq
        rw [address_of_writeTarget (htargets j (by omega))] at heq
        have := hinjective j (by omega) i hlt (some.inj heq)
        omega
      rw [← h.others (p i) hother, physByte_setBytes hinjective hlt, wordByte_of_lt hpass.fits hi]
      split <;> rfl

end Stores

inductive LoadCommand
  | loadv
  | loadp

namespace LoadCommand

def command : LoadCommand → Command
  | loadv => .loadv
  | loadp => .loadp

def address : LoadCommand → Word → Word
  | loadv, a => a
  | loadp, a => a + KERNBASE

def Reaches (M : MemSize) : LoadCommand → Word → Prop
  | loadv, _ => True
  | loadp, a => PGNUM a < M.npages

end LoadCommand

theorem func_of_reaches (m : Machine M) (cmd : LoadCommand) (rounds : ℕ)
    (name a v z : String) (rest : List String) (h : cmd.Reaches M (convert2int a)) :
    cmd.command.func m rounds (name :: a :: v :: z :: rest) =
      loadAt m (cmd.address (convert2int a)) (convert2int v) (convert2int z) := by
  have hlength : ¬(name :: a :: v :: z :: rest).length = 1 := by
    simp only [length_cons]
    omega
  cases cmd with
  | loadv =>
    rw [LoadCommand.command, Command.func, monLoadv, if_neg hlength]
    rfl
  | loadp =>
    rw [LoadCommand.command, Command.func, monLoadp, if_neg hlength]
    change (pmap (physical2virtual (convert2int a)) >>= fun addr => _) = _
    rw [pmap_physical2virtual h, pure_bind]
    rfl

/-- A value that passes the checks of loadv or loadp is stored, in its size and nothing else,
if and only if the word at its address can be written and holds zeros behind the value. -/
theorem writesExactly_iff (m : Machine M) (cmd : LoadCommand) (rounds : ℕ) (s : Mon M)
    (name a v z : String) (rest : List String) (hreaches : cmd.Reaches M (convert2int a))
    (hpass : Passes m s.phys (cmd.address (convert2int a)) (convert2int v) (convert2int z)) :
    (∃ t, (cmd.command.func m rounds (name :: a :: v :: z :: rest)).run s = .ok 0 t ∧
      WritesExactly m.kernPgdir s.phys t.phys (cmd.address (convert2int a)) (convert2int v)
        (convert2int z)) ↔
      Contained m.kernPgdir s.phys (cmd.address (convert2int a)) (convert2int z) := by
  rw [func_of_reaches m cmd rounds name a v z rest hreaches]
  constructor
  · rintro ⟨t, hrun, hexact⟩
    exact contained_of_writesExactly hpass hrun hexact
  · intro h
    exact writesExactly_of_contained h hpass

/-- A directory in page 0, its only table in page 1 and a page of data at address 0. -/
abbrev threePages : MemSize := ⟨3, by decide, by decide⟩

def dataMachine : Machine threePages := ⟨⟨0, by decide⟩, fun _ => 0, 0, 0, 0, 0, 0⟩

def dataWord (p : Page threePages) (i : Fin NPTENTRIES) : Word :=
  if p.val = 2 then 0xaabbccdd else if i.val = 0 then (if p.val = 0 then 0x1007 else 0x2003) else 0

def dataState : Mon threePages := ⟨⟨fun _ => ⟨none, 0⟩, none, dataWord, []⟩, []⟩

theorem dataState_passes {addr value size : Word} (hdir : PDX addr = PDX 0)
    (htab : PTX addr = PTX 0) (hsize : size = 1 ∨ size = 2 ∨ size = 4) (haligned : addr % size = 0)
    (hfits : value.toNat < 2 ^ (8 * size.toNat)) :
    Passes dataMachine dataState.phys addr value size := by
  refine ⟨⟨⟨1, by decide⟩, ?_, ?_⟩, hsize, haligned, hfits⟩
  · rw [hdir]
    decide
  · rw [htab]
    decide

theorem writesExactly_word :
    LoadCommand.Reaches threePages .loadv (convert2int "0") ∧
      Passes dataMachine dataState.phys (convert2int "0") (convert2int "12345678")
        (convert2int "4") ∧
      ∃ t, (LoadCommand.loadv.command.func dataMachine 0 ["loadv", "0", "12345678", "4"]).run
        dataState = .ok 0 t ∧
        WritesExactly dataMachine.kernPgdir dataState.phys t.phys 0 0x12345678 4 := by
  have hpass : Passes dataMachine dataState.phys (convert2int "0") (convert2int "12345678")
      (convert2int "4") :=
    dataState_passes rfl rfl (Or.inr (Or.inr rfl)) (by decide) (by decide)
  refine ⟨trivial, hpass, ?_⟩
  refine (writesExactly_iff dataMachine .loadv 0 dataState "loadv" "0" "12345678" "4" [] trivial
    hpass).mpr ⟨⟨0x2000, by decide, by decide⟩, ?_⟩
  intro i hi hlt
  have hsize : (convert2int "4").toNat = 4 := by decide
  omega

/-- A byte stored at address 0 clears the three bytes behind it, and one at the end of the page
faults in the next page. -/
theorem loadv_stores_word :
    (∃ t, (monLoadv dataMachine ["loadv", "0", "11", "1"]).run dataState = .ok 0 t ∧
      t.phys.mem ⟨2, by decide⟩ ⟨0, by decide⟩ = 0x11) ∧
    (monLoadv dataMachine ["loadv", "fff", "11", "1"]).run dataState =
      .error (.pageFault 0x1000) dataState ∧
    Passes dataMachine dataState.phys (convert2int "0") (convert2int "11") (convert2int "1") ∧
    Passes dataMachine dataState.phys (convert2int "fff") (convert2int "11") (convert2int "1") ∧
    ¬∃ t, (monLoadv dataMachine ["loadv", "0", "11", "1"]).run dataState = .ok 0 t ∧
      WritesExactly dataMachine.kernPgdir dataState.phys t.phys 0 0x11 1 := by
  have hpass : Passes dataMachine dataState.phys (convert2int "0") (convert2int "11")
      (convert2int "1") := dataState_passes rfl rfl (Or.inl rfl) (by decide) (by decide)
  have hpass' : Passes dataMachine dataState.phys (convert2int "fff") (convert2int "11")
      (convert2int "1") := dataState_passes rfl rfl (Or.inl rfl) (by decide) (by decide)
  refine ⟨⟨_, rfl, by decide⟩, rfl, hpass, hpass', ?_⟩
  rintro ⟨t, hrun, hexact⟩
  have hcontained : Contained dataMachine.kernPgdir dataState.phys 0 1 :=
    contained_of_writesExactly hpass hrun hexact
  obtain ⟨pa, hpa, hzero⟩ := hcontained.behind 1 (by decide) (by decide)
  have htarget : writeTarget dataState.phys dataMachine.kernPgdir (0 + BitVec.ofNat 32 1) =
      some 0x2001 := by decide
  rw [htarget] at hpa
  obtain rfl := some.inj hpa
  exact absurd hzero (by decide)

/-! ### dumpp -/

def physWord (m : Machine M) (s : Phys M) (pa : Word) : Word :=
  ofBytes fun i => (physByte s (pa + BitVec.ofNat 32 i)).getD (m.io (pa + BitVec.ofNat 32 i))

/-- dumpp returns and prints the physical words at start, start + 4, ... up to the end. -/
def DumpsPhysical (m : Machine M) (argv : List String) (s : Mon M) (start stop : Word) : Prop :=
  ∃ rounds t lines, (monDumpp m rounds argv).run s = .ok 0 t ∧ t.console = lines ++ s.console ∧
    ∀ pa ∈ addresses 4 start stop, ∃ line ∈ lines, Arg.x (physWord m s.phys pa) ∈ line.2

section Dumps

variable (m : Machine M) (s : Mon M) (name a b : String) (rest : List String)

/-- The kernel address of a physical address lies above UTOP. -/
theorem utop_lt_add_KERNBASE {pa : Word} (h : PGNUM pa < M.npages) :
    (pa + KERNBASE).toNat = pa.toNat + 0xf0000000 ∧ utop < pa + KERNBASE := by
  have hnum := PGNUM_eq pa
  have hpages := M.max
  have hsum : (pa + KERNBASE).toNat = pa.toNat + 0xf0000000 := by
    rw [toNat_add]
    change (pa.toNat + 0xf0000000) % 2 ^ 32 = _
    omega
  refine ⟨hsum, lt_def.mpr ?_⟩
  rw [hsum]
  change 0xeec00000 < _
  omega

theorem run_monDumpp (rounds : ℕ) (hle : convert2int a ≤ convert2int b)
    (hlt : PGNUM (convert2int b) < M.npages) :
    (monDumpp m rounds (name :: a :: b :: rest)).run s =
      .ok 0 { s with console := ("The start address should be less than UTOP\n", []) :: s.console } := by
  have hlength : ¬(name :: a :: b :: rest).length = 1 := by
    simp only [length_cons]
    omega
  have hle' : (convert2int a).toNat ≤ (convert2int b).toNat := le_def.mp hle
  have hlta : PGNUM (convert2int a) < M.npages := by
    rw [PGNUM_eq] at hlt ⊢
    omega
  obtain ⟨ha, hutop⟩ := utop_lt_add_KERNBASE hlta
  obtain ⟨hb, _⟩ := utop_lt_add_KERNBASE hlt
  have hordered : ¬convert2int a + KERNBASE > convert2int b + KERNBASE := by
    rw [gt_iff_lt, lt_def, ha, hb]
    omega
  rw [monDumpp, if_neg hlength]
  change (pmap (physical2virtual (convert2int a)) >>= fun start =>
    pmap (physical2virtual (convert2int b)) >>= fun stop => _ : MonM M ℤ).run s = _
  rw [pmap_physical2virtual hlta, pmap_physical2virtual hlt, pure_bind, pure_bind,
    if_neg hordered, if_pos hutop]
  rfl

end Dumps

/-- No range of physical memory is shown by dumpp. -/
theorem not_dumpsPhysical (m : Machine M) (s : Mon M) (name a b : String) (rest : List String)
    (hle : convert2int a ≤ convert2int b) (hlt : (convert2int b).toNat < M.npages * 4096) :
    ¬DumpsPhysical m (name :: a :: b :: rest) s (convert2int a) (convert2int b) := by
  rintro ⟨rounds, t, lines, hrun, hconsole, hprinted⟩
  have hnum : PGNUM (convert2int b) < M.npages := by
    rw [PGNUM_eq]
    omega
  rw [run_monDumpp m s name a b rest rounds hle hnum] at hrun
  obtain rfl := (EStateM.Result.ok.inj hrun).2
  have hlines : lines = [("The start address should be less than UTOP\n", [])] :=
    (append_cancel_right (show [_] ++ s.console = lines ++ s.console from hconsole)).symm
  have hstart : convert2int a ∈ addresses 4 (convert2int a) (convert2int b) := by
    refine List.mem_map.mpr ⟨0, mem_range.mpr ?_, ?_⟩
    · rw [addressCount, if_pos (le_def.mp hle)]
      exact Nat.succ_pos _
    · rw [Nat.zero_mul, Nat.add_zero, ofNat_toNat, setWidth_eq]
  obtain ⟨line, hline, harg⟩ := hprinted _ hstart
  rw [hlines, mem_singleton] at hline
  rw [hline] at harg
  contradiction

theorem not_dumpsPhysical_first :
    convert2int "0" ≤ convert2int "8" ∧ (convert2int "8").toNat < onePage.npages * 4096 ∧
      ¬DumpsPhysical onePageMachine ["dumpp", "0", "8"] onePageState 0 8 :=
  ⟨by decide, by decide,
    not_dumpsPhysical onePageMachine onePageState "dumpp" "0" "8" [] (by decide) (by decide)⟩

/-- dumpp of the first words of memory prints that the start is too high. -/
theorem dumpp_rejects_memory : (convert2int "8").toNat < onePage.npages * 4096 ∧ ∀ rounds,
    (monDumpp onePageMachine rounds ["dumpp", "0", "8"]).run onePageState =
      .ok 0 ⟨onePageState.phys, [("The start address should be less than UTOP\n", [])]⟩ := by
  refine ⟨by decide, fun rounds => ?_⟩
  exact run_monDumpp onePageMachine onePageState "dumpp" "0" "8" [] rounds (by decide) (by decide)

end KernelLabs.Monitor

import KernelLabs.ExecLoad

/-!
The stack that exec builds: the strings downwards from the top of the image, and below them the
words that main takes for its return address and its arguments. A copyout that succeeds has met
pages for the user only, and below the page of the stack there is one that clearpteu has taken
from the user, so that nothing is written below the page. Strings that are longer in total than
the image can make the stack pointer wrap, and copyout can then meet an address without a table;
shorter ones cannot.
-/
namespace KernelLabs.ExecStack

open MachineWords PageWords MemoryBytes PanicMonad TableOwners UserPages UserTables UserCalls
  UserRelease UserGrow UserSpace UserCopy ExecModel ExecLoad List

/-! ### What a process reads -/

def userByte (m : Mem) (d a : ℕ) : Option Byte :=
  if Accessible m d a then (pageAt m d a).map fun page => pageByte page (a % PGSIZE) else none

def userWord (m : Mem) (d a : ℕ) : Option ℕ := do
  let b0 ← userByte m d a
  let b1 ← userByte m d (a + 1)
  let b2 ← userByte m d (a + 2)
  let b3 ← userByte m d (a + 3)
  return leValue [b0, b1, b2, b3]

def StringAt (m : Mem) (d : ℕ) (arg : CString) (a : ℕ) : Prop :=
  ∀ i < arg.bytes.length + 1, userByte m d (a + i) = (arg.bytes ++ [0])[i]?

variable {L : Layout} {P : Pool L} {R : Multiset ℕ} {s t u : Vm} {d sz va : ℕ} {buf : List Byte}

theorem userByte_of_target {m : Mem} {a f : ℕ} (hacc : Accessible m d a)
    (hf : target (pteAt m d a) = some f) : userByte m d a = some (pageByte (m f) (a % PGSIZE)) := by
  rw [userByte, if_pos hacc, pageAt_some hf]
  rfl

/-- The indices of an address are those of its lower 32 bits. -/
theorem pteAt_uint32 (m : Mem) (d a : ℕ) : pteAt m d (uint32 a) = pteAt m d a := by
  have hpdx : pdx (uint32 a) = pdx a := by
    refine Fin.ext ?_
    simp only [pdx, uint32, NPTENTRIES]
    omega
  have hptx : ptx (uint32 a) = ptx a := by
    refine Fin.ext ?_
    simp only [ptx, uint32, NPTENTRIES]
    omega
  rw [pteAt, pteAt, hpdx, hptx]

/-- What a process reads is in the pages of its directory. -/
theorem userByte_of_footprint (h : Space P R d s)
    (hsame : ∀ f ∈ tableFormat.footprint s.mem d, t.mem f = s.mem f) (a : ℕ) :
    userByte t.mem d a = userByte s.mem d a := by
  have hpte : pteAt t.mem d a = pteAt s.mem d a := Format.leaf_congr hsame _ _
  have hacc : Accessible t.mem d a ↔ Accessible s.mem d a := by rw [Accessible, Accessible, hpte]
  by_cases hyes : Accessible s.mem d a
  swap
  · rw [userByte, userByte, if_neg hyes, if_neg (mt hacc.mp hyes)]
  have hpage : pageAt t.mem d a = pageAt s.mem d a := by
    refine pageAt_congr hpte fun f hf => hsame f (Format.pages_subset_footprint ?_)
    rw [Accessible, ← pteAt_uint32] at hyes
    rw [← pteAt_uint32] at hf
    exact h.mem_pages (Nat.mod_lt _ (by decide)) hyes hf
  rw [userByte, userByte, if_pos hyes, if_pos (hacc.mpr hyes), hpage]

section Copy

variable (h : Space P R d s) (hwrote : Wrote P R d s t) (hwritten : Written d va buf s t)

include hwrote hwritten

/-- What copyout has written is what the process reads. -/
theorem userByte_new {i : ℕ} (hi : i < buf.length) (hacc : Accessible s.mem d (uint32 (va + i))) :
    userByte t.mem d (uint32 (va + i)) = buf[i]? := by
  have hf : target (pteAt s.mem d (uint32 (va + i))) = some (PGNUM (pteAt s.mem d (uint32 (va + i)))) :=
    target_eq_some.mpr ⟨hacc.1, rfl⟩
  have hoff : uint32 (va + i) % PGSIZE = (va + i) % PGSIZE := by
    simp only [uint32, PGSIZE]
    omega
  have hnew := hwritten.new i _ hi hf
  rw [← hwrote.same] at hf
  rw [userByte_of_target ((hwrote.accessible _).mpr hacc) hf, hoff, hwrote.same, hnew]

include h

/-- The process reads the bytes at other addresses as before. -/
theorem userByte_old (hall : ∀ i < buf.length, Accessible s.mem d (uint32 (va + i))) {a : ℕ}
    (ha : a < 2 ^ 32) (hout : ∀ i < buf.length, uint32 (va + i) ≠ a) :
    userByte t.mem d a = userByte s.mem d a := by
  by_cases hacc : Accessible s.mem d a
  swap
  · rw [userByte, userByte, if_neg hacc, if_neg (mt (hwrote.accessible a).mp hacc)]
  have hf : target (pteAt s.mem d a) = some (PGNUM (pteAt s.mem d a)) :=
    target_eq_some.mpr ⟨hacc.1, rfl⟩
  have hf' := hf
  rw [← hwrote.same] at hf'
  rw [userByte_of_target ((hwrote.accessible a).mpr hacc) hf', userByte_of_target hacc hf,
    hwrote.same, hwritten.old _ _ (Nat.mod_lt _ (by decide))]
  intro i hi hframe hoff
  refine hout i hi (h.address_inj (Nat.mod_lt _ (by decide)) ha (hall i hi) hacc hframe hf ?_)
  simp only [uint32, PGSIZE] at hoff ⊢
  omega

end Copy

/-! ### The two pages -/

/-- The image ends with a page for the stack, below which there is one without PTE_U. -/
structure StackPages (m : Mem) (d sz : ℕ) : Prop where
  aligned : sz % PGSIZE = 0
  le : 2 * PGSIZE ≤ sz
  lt : sz < KERNBASE
  sized : Sized m d sz
  guard : ∀ a, sz - 2 * PGSIZE ≤ a → a < sz - PGSIZE → ¬Accessible m d a
  page : ∀ a, sz - PGSIZE ≤ a → a < sz → Accessible m d a

theorem StackPages.congr {m m' : Mem} (h : StackPages m d sz)
    (hpte : ∀ a, pteAt m' d a = pteAt m d a) : StackPages m' d sz where
  aligned := h.aligned
  le := h.le
  lt := h.lt
  sized b hb huser := by
    rw [hpte]
    exact h.sized b hb huser
  guard a hlo hhi := by
    rw [Accessible, hpte]
    exact h.guard a hlo hhi
  page a hlo hhi := by
    rw [Accessible, hpte]
    exact h.page a hlo hhi

theorem StackPages.hasTable (h : StackPages s.mem d sz) {a : ℕ} (ha : a < sz) :
    HasTable s.mem d a := by
  have hsz := h.lt
  have hle : PGROUNDDOWN a ≤ a := Nat.div_mul_le_self a PGSIZE
  have haligned : Aligned (PGROUNDDOWN a) := aligned_roundDown (by rw [KERNBASE] at hsz; omega)
  refine hasTable_of_present ?_
  rw [← pteAt_roundDown, h.sized _ haligned (by omega)]
  omega

theorem StackPages.not_fault (h : StackPages s.mem d sz) (hend : va + buf.length ≤ sz) :
    ¬Fault d va buf s := by
  rintro ⟨i, hi, -, hnone⟩
  have hsz := h.lt
  have haddr : uint32 (va + i) = va + i := Nat.mod_eq_of_lt (by rw [KERNBASE] at hsz; omega)
  rw [haddr] at hnone
  exact hnone (h.hasTable (by omega))

/-- A range that begins in the pages of the devices. -/
theorem not_fault_device (h : Space P R d s) (hlo : DEVSPACE ≤ va) (hva : va < 2 ^ 32) :
    ¬Fault d va buf s := by
  obtain ⟨htable, hno⟩ := h.device hlo hva
  have hzero : uint32 (va + 0) = va := Nat.mod_eq_of_lt hva
  rintro ⟨i, hi, hbefore, hnone⟩
  cases i with
  | zero =>
    rw [hzero] at hnone
    exact hnone htable
  | succ i =>
    have hacc := hbefore 0 (Nat.succ_pos i)
    rw [hzero] at hacc
    exact hno hacc

theorem StackPages.not_refused (h : StackPages s.mem d sz) (hlo : sz - PGSIZE ≤ va)
    (hend : va + buf.length ≤ sz) : ¬Refused d va buf s := by
  rintro ⟨i, hi, -, -, hno⟩
  have hsz := h.lt
  have haddr : uint32 (va + i) = va + i := Nat.mod_eq_of_lt (by rw [KERNBASE] at hsz; omega)
  rw [haddr] at hno
  exact hno (h.page _ (by omega) (by omega))

/-- A range for the user that ends at most three bytes below an address of the page lies in the
page: otherwise it would meet the page below. -/
theorem StackPages.le_of_accessible (h : StackPages s.mem d sz) {sp : ℕ} (hlo : sz - PGSIZE ≤ sp)
    (hsp : sp ≤ sz) (hend : va + buf.length ≤ sp) (hclose : sp ≤ va + buf.length + 3)
    (hpos : 0 < buf.length) (hall : ∀ i < buf.length, Accessible s.mem d (uint32 (va + i))) :
    sz - PGSIZE ≤ va := by
  by_contra hbelow
  have hsz := h.lt
  have hle := h.le
  obtain ⟨a, ha⟩ : ∃ a, a = min (va + buf.length - 1) (sz - PGSIZE - 1) := ⟨_, rfl⟩
  have hacc := hall (a - va) (by omega)
  have haddr : uint32 (va + (a - va)) = a := by
    simp only [uint32, KERNBASE] at *
    omega
  have hguard : sz - 2 * PGSIZE ≤ a ∧ a < sz - PGSIZE := by
    simp only [PGSIZE] at *
    omega
  rw [haddr] at hacc
  exact h.guard a hguard.1 hguard.2 hacc

/-! ### The strings -/

def totalLength (args : List CString) : ℕ := (args.map fun arg => arg.bytes.length).sum

theorem totalLength_cons (arg : CString) (rest : List CString) :
    totalLength (arg :: rest) = arg.bytes.length + totalLength rest := by
  rw [totalLength, map_cons, sum_cons]
  rfl

def strings (args : List CString) (ptrs : List ℕ) : List (ℕ × ℕ) :=
  (args.zip ptrs).map fun pair => (pair.2, pair.1.bytes.length + 1)

def Apart (x y : ℕ × ℕ) : Prop := x.1 + x.2 ≤ y.1 ∨ y.1 + y.2 ≤ x.1

/-- The strings are below `sp`, down to `last`, and nothing else has changed from `sp` on. -/
structure Pushed (d lo sp : ℕ) (args : List CString) (last : ℕ) (ptrs : List ℕ) (s t : Vm) :
    Prop where
  range : lo ≤ last ∧ last ≤ sp ∧ last % 4 = 0
  inside : ∀ x ∈ strings args ptrs, x.1 % 4 = 0 ∧ last ≤ x.1 ∧ x.1 + x.2 ≤ sp
  apart : (strings args ptrs).Pairwise Apart
  copied : List.Forall₂ (StringAt t.mem d) args ptrs
  kept : ∀ a, sp ≤ a → a < KERNBASE → userByte t.mem d a = userByte s.mem d a

/-- The answer of the loop that pushes the strings. Each string may lose three bytes to the
alignment. -/
def PushAnswer (d lo sp argc : ℕ) (args : List CString) (s t : Vm) : Option (ℕ × List ℕ) → Prop
  | none => MAXARG < argc + args.length ∨ sp < lo + (totalLength args + 4 * args.length)
  | some (last, ptrs) => argc + args.length ≤ MAXARG ∧
      sp ≤ last + (totalLength args + 4 * args.length) ∧ Pushed d lo sp args last ptrs s t

theorem Pushed.cons {lo sp next last : ℕ} {arg : CString} {rest : List CString} {ptrs : List ℕ}
    (h : Space P R d s) (hsp : sp ≤ KERNBASE) (hnext : next % 4 = 0)
    (hend : next + (arg.bytes.length + 1) ≤ sp) (hwrote : Wrote P R d s t)
    (hall : ∀ i < (arg.bytes ++ [0]).length, Accessible s.mem d (uint32 (next + i)))
    (hwritten : Written d next (arg.bytes ++ [0]) s t) (hrest : Pushed d lo next rest last ptrs t u) :
    Pushed d lo sp (arg :: rest) last (next :: ptrs) s u := by
  have hlen : (arg.bytes ++ [0]).length = arg.bytes.length + 1 := length_append
  have hcons : strings (arg :: rest) (next :: ptrs) =
      (next, arg.bytes.length + 1) :: strings rest ptrs := rfl
  have haddr : ∀ i < arg.bytes.length + 1, uint32 (next + i) = next + i ∧ next + i < KERNBASE := by
    intro i hi
    simp only [uint32, KERNBASE] at *
    omega
  obtain ⟨hlo, hlast, halign⟩ := hrest.range
  refine ⟨⟨hlo, by omega, halign⟩, ?_, ?_, ?_, ?_⟩
  · rw [hcons, forall_mem_cons]
    refine ⟨⟨hnext, hlast, hend⟩, fun x hx => ?_⟩
    obtain ⟨hx4, hxlo, hxhi⟩ := hrest.inside x hx
    exact ⟨hx4, hxlo, by omega⟩
  · rw [hcons, pairwise_cons]
    exact ⟨fun x hx => .inr (hrest.inside x hx).2.2, hrest.apart⟩
  · refine .cons (fun i hi => ?_) hrest.copied
    obtain ⟨hi32, hilt⟩ := haddr i hi
    have hnew := userByte_new hwrote hwritten (by omega) (hall i (by omega))
    rw [hi32] at hnew
    rw [hrest.kept _ (by omega) hilt, hnew]
  · intro a ha hlt
    rw [hrest.kept a (by omega) hlt]
    refine userByte_old h hwrote hwritten hall (by rw [KERNBASE] at hlt; omega) fun i hi => ?_
    rw [(haddr i (by omega)).1]
    omega

/-- The loop that pushes the strings. `pushed` is the length of those that have been pushed. -/
theorem ends_pushArgs (args : List CString) {argc sp pushed total : ℕ} (hlo : sz - PGSIZE ≤ sp)
    (hsp : sp ≤ sz) (halign : sp % 4 = 0) (hlow : sz ≤ sp + pushed + 4 * argc)
    (hargc : argc ≤ MAXARG) (htotal : pushed + totalLength args = total)
    (hpages : StackPages s.mem d sz) (h : Space P R d s) :
    Ends (fun e => e = "null pointer" ∧ sz ≤ total) (pushArgs d args argc sp) s fun r t =>
      Wrote P R d s t ∧ PushAnswer d (sz - PGSIZE) sp argc args s t r := by
  induction args generalizing argc sp pushed s with
  | nil =>
    rw [pushArgs, ends_pure]
    refine ⟨.refl h.owned, hargc, by omega, ⟨hlo, le_rfl, halign⟩, ?_, .nil, .nil, fun _ _ _ => rfl⟩
    intro x hx
    cases hx
  | cons arg rest ih =>
    have hsz := hpages.lt
    have hle := hpages.le
    have hfits := arg.fits
    have hlen : (arg.bytes ++ [0]).length = arg.bytes.length + 1 := length_append
    rw [totalLength_cons] at htotal
    rw [pushArgs]
    by_cases hmany : MAXARG ≤ argc
    · rw [if_pos hmany, ends_pure]
      refine ⟨.refl h.owned, .inl ?_⟩
      rw [length_cons]
      omega
    rw [if_neg hmany]
    dsimp only
    obtain ⟨next, hnext⟩ :
        ∃ next, next = uint32 (sp + 2 ^ 32 - (arg.bytes.length + 1)) / 4 * 4 := ⟨_, rfl⟩
    rw [← hnext]
    have hva : next < 2 ^ 32 ∧ next % 4 = 0 := by
      simp only [uint32] at hnext
      omega
    -- the pointer stays in the image or wraps, at least to KERNBASE
    have hcases : (next + (arg.bytes.length + 1) ≤ sp ∧ sp ≤ next + arg.bytes.length + 4) ∨
        (sp < arg.bytes.length + 1 ∧ KERNBASE ≤ next ∧
          2 ^ 32 + sp ≤ next + arg.bytes.length + 4) := by
      simp only [uint32, KERNBASE] at *
      omega
    refine ends_bind (((ends_copyout hva.1 (by omega) h).mono_error ?_).mono fun r t hdone => ?_)
    · rintro e ⟨he, hfault⟩
      refine ⟨he, ?_⟩
      by_contra hshort
      rcases hcases with hin | hout
      · exact hpages.not_fault (by omega) hfault
      · refine not_fault_device h ?_ hva.1 hfault
        simp only [DEVSPACE, KERNBASE, MAXARG] at *
        omega
    have hwrote := hdone.wrote
    rcases hdone.result with ⟨rfl, hall, hwritten⟩ | ⟨rfl, hrefused⟩
    swap
    · rw [if_pos (by decide), ends_pure]
      refine ⟨hwrote, .inr ?_⟩
      rw [totalLength_cons, length_cons]
      by_contra hroom
      rcases hcases with hin | hout
      · exact hpages.not_refused (by omega) (by omega) hrefused
      · omega
    rw [if_neg (by decide)]
    -- what has been copied lies in the page of the stack
    have hin : next + (arg.bytes.length + 1) ≤ sp ∧ sp ≤ next + arg.bytes.length + 4 := by
      refine hcases.resolve_right fun hout => ?_
      have hacc := hall 0 (by omega)
      rw [show uint32 (next + 0) = next from Nat.mod_eq_of_lt hva.1] at hacc
      have := h.lt_of_accessible hva.1 hacc
      omega
    have hnextLo : sz - PGSIZE ≤ next :=
      hpages.le_of_accessible hlo hsp (by omega) (by omega) (by omega) hall
    have hlow' : sz ≤ next + (pushed + arg.bytes.length) + 4 * (argc + 1) := by omega
    refine ends_bind ((ih hnextLo (by omega) hva.2 hlow' (by omega) (by omega)
      (hpages.congr hwrote.same) (Wrote.space h hwrote)).mono fun result u hu => ?_)
    obtain ⟨hwrote', hanswer⟩ := hu
    cases result with
    | none =>
      dsimp only
      rw [ends_pure]
      refine ⟨hwrote.trans hwrote', ?_⟩
      simp only [PushAnswer, totalLength_cons, length_cons] at hanswer ⊢
      omega
    | some pair =>
      obtain ⟨last, ptrs⟩ := pair
      obtain ⟨hcount, hroom, hpushed⟩ := hanswer
      dsimp only
      rw [ends_pure]
      refine ⟨hwrote.trans hwrote', ?_, ?_,
        .cons h (by omega) hva.2 hin.1 hwrote hall hwritten hpushed⟩
      · rw [length_cons]
        omega
      · rw [totalLength_cons, length_cons]
        omega

/-! ### The words -/

theorem leValue_leBytes {w : ℕ} (hw : w < 2 ^ 32) : leValue (leBytes w) = w := by
  simp only [leBytes, leValue, BitVec.toNat_ofNat]
  omega

theorem length_words (ws : List ℕ) : (ws.flatMap leBytes).length = 4 * ws.length := by
  induction ws with
  | nil => rfl
  | cons w rest ih =>
    have hword : (leBytes w).length = 4 := rfl
    rw [flatMap_cons, length_append, ih, hword, length_cons]
    omega

theorem getElem?_words {ws : List ℕ} {i j w : ℕ} (hj : j < 4) (hw : ws[i]? = some w) :
    (ws.flatMap leBytes)[4 * i + j]? = (leBytes w)[j]? := by
  induction ws generalizing i with
  | nil => cases hw
  | cons w' rest ih =>
    have hword : (leBytes w').length = 4 := rfl
    rw [flatMap_cons]
    cases i with
    | zero =>
      obtain rfl := Option.some.inj hw
      rw [Nat.mul_zero, Nat.zero_add, getElem?_append_left (by omega)]
    | succ i =>
      rw [getElem?_append_right (by omega), hword, ← ih hw]
      congr 1
      omega

theorem userWord_of_bytes {m : Mem} {base : ℕ} {ws : List ℕ}
    (h : ∀ k < (ws.flatMap leBytes).length, userByte m d (base + k) = (ws.flatMap leBytes)[k]?)
    {i w : ℕ} (hi : ws[i]? = some w) (hw : w < 2 ^ 32) : userWord m d (base + 4 * i) = some w := by
  have hlt : i < ws.length := (List.getElem?_eq_some_iff.mp hi).1
  have hbyte : ∀ j < 4, userByte m d (base + 4 * i + j) = (leBytes w)[j]? := by
    intro j hj
    rw [Nat.add_assoc, h _ (by rw [length_words]; omega), getElem?_words hj hi]
  have h0 := hbyte 0 (by decide)
  have h1 := hbyte 1 (by decide)
  have h2 := hbyte 2 (by decide)
  have h3 := hbyte 3 (by decide)
  have hvalue := leValue_leBytes hw
  rw [userWord, h1, h2, h3]
  rw [Nat.add_zero] at h0
  rw [h0]
  exact congrArg some hvalue

theorem ustack_head (argc sp : ℕ) (ptrs : List ℕ) :
    (ustack argc sp ptrs)[0]? = some 0xffffffff ∧ (ustack argc sp ptrs)[1]? = some argc ∧
      (ustack argc sp ptrs)[2]? = some (uint32 (sp + 2 ^ 32 - (argc + 1) * 4)) :=
  ⟨rfl, rfl, rfl⟩

theorem ustack_pointer (argc sp : ℕ) {ptrs : List ℕ} {i p : ℕ} (hp : ptrs[i]? = some p) :
    (ustack argc sp ptrs)[i + 3]? = some p := by
  have hi : i < ptrs.length := (List.getElem?_eq_some_iff.mp hp).1
  have htail : (ustack argc sp ptrs)[i + 3]? = (ptrs ++ [0])[i]? := rfl
  rw [htail, getElem?_append_left hi, hp]

theorem ustack_null (argc sp : ℕ) (ptrs : List ℕ) :
    (ustack argc sp ptrs)[ptrs.length + 3]? = some 0 := by
  have htail : (ustack argc sp ptrs)[ptrs.length + 3]? = (ptrs ++ [0])[ptrs.length]? := rfl
  rw [htail, getElem?_concat_length]

/-- The objects of the stack: the return address, the two arguments of main, the array of the
pointers with its null pointer, and the strings. -/
def objects (esp : ℕ) (argv : List CString) (ptrs : List ℕ) : List (ℕ × ℕ) :=
  (esp, 4) :: (esp + 4, 4) :: (esp + 8, 4) :: (esp + 12, 4 * (argv.length + 1)) :: strings argv ptrs

/-- The stack of a new image of size `sz`, as the process reads it from `esp` on. -/
structure StackImage (m : Mem) (d sz esp : ℕ) (argv : List CString) (ptrs : List ℕ) : Prop where
  pages : StackPages m d sz
  pc : userWord m d esp = some 0xffffffff
  argc : userWord m d (esp + 4) = some argv.length
  array : userWord m d (esp + 8) = some (esp + 12)
  pointers : ∀ i p, ptrs[i]? = some p → userWord m d (esp + 12 + 4 * i) = some p
  null : userWord m d (esp + 12 + 4 * argv.length) = some 0
  copied : List.Forall₂ (StringAt m d) argv ptrs
  inside : ∀ x ∈ objects esp argv ptrs, x.1 % 4 = 0 ∧ sz - PGSIZE ≤ x.1 ∧ x.1 + x.2 ≤ sz
  apart : (objects esp argv ptrs).Pairwise Apart

theorem StackImage.congr {m m' : Mem} {esp : ℕ} {argv : List CString} {ptrs : List ℕ}
    (h : StackImage m d sz esp argv ptrs) (hpte : ∀ a, pteAt m' d a = pteAt m d a)
    (hbyte : ∀ a, userByte m' d a = userByte m d a) : StackImage m' d sz esp argv ptrs := by
  have hword : ∀ a, userWord m' d a = userWord m d a := by
    intro a
    simp only [userWord, hbyte]
  refine ⟨h.pages.congr hpte, ?_, ?_, ?_, ?_, ?_, h.copied.imp fun arg p hstring i hi => ?_, h.inside,
    h.apart⟩
  · exact (hword _).trans h.pc
  · exact (hword _).trans h.argc
  · exact (hword _).trans h.array
  · exact fun i p hp => (hword _).trans (h.pointers i p hp)
  · exact (hword _).trans h.null
  · exact (hbyte _).trans (hstring i hi)

section Objects

variable {esp sp : ℕ} {argv : List CString} {ptrs : List ℕ}

theorem objects_inside {lo : ℕ} (hesp : esp + (16 + 4 * argv.length) = sp) (hlo : lo ≤ esp)
    (halign : esp % 4 = 0) (hsp : sp ≤ sz)
    (hstrings : ∀ x ∈ strings argv ptrs, x.1 % 4 = 0 ∧ sp ≤ x.1 ∧ x.1 + x.2 ≤ sz) :
    ∀ x ∈ objects esp argv ptrs, x.1 % 4 = 0 ∧ lo ≤ x.1 ∧ x.1 + x.2 ≤ sz := by
  simp only [objects, forall_mem_cons]
  refine ⟨by omega, by omega, by omega, by omega, fun x hx => ?_⟩
  obtain ⟨hx4, hxlo, hxhi⟩ := hstrings x hx
  omega

theorem objects_apart (hesp : esp + (16 + 4 * argv.length) = sp)
    (hstrings : ∀ x ∈ strings argv ptrs, sp ≤ x.1) (hapart : (strings argv ptrs).Pairwise Apart) :
    (objects esp argv ptrs).Pairwise Apart := by
  simp only [objects, pairwise_cons, forall_mem_cons, Apart]
  refine ⟨⟨by omega, by omega, by omega, fun x hx => ?_⟩, ⟨by omega, by omega, fun x hx => ?_⟩,
    ⟨by omega, fun x hx => ?_⟩, fun x hx => ?_, hapart⟩
  all_goals
    have := hstrings x hx
    omega

theorem StackImage.of_pushed {s₀ : Vm} (h : Space P R d s) (hpages : StackPages s.mem d sz)
    (hpushed : Pushed d (sz - PGSIZE) sz argv sp ptrs s₀ s) (hesp : esp + (16 + 4 * argv.length) = sp)
    (hlo : sz - PGSIZE ≤ esp) (hargc : argv.length ≤ MAXARG)
    (hwrote : Wrote P R d s t)
    (hall : ∀ i < ((ustack argv.length sp ptrs).flatMap leBytes).length,
      Accessible s.mem d (uint32 (esp + i)))
    (hwritten : Written d esp ((ustack argv.length sp ptrs).flatMap leBytes) s t) :
    StackImage t.mem d sz esp argv ptrs := by
  have hsz := hpages.lt
  obtain ⟨-, hsp, halign⟩ := hpushed.range
  have hptrs : ptrs.length = argv.length := hpushed.copied.length_eq.symm
  have hlength : ((ustack argv.length sp ptrs).flatMap leBytes).length = 16 + 4 * argv.length := by
    rw [length_words]
    simp only [ustack, length_append, length_cons, length_nil]
    omega
  have haddr : ∀ k < 16 + 4 * argv.length, uint32 (esp + k) = esp + k := by
    intro k hk
    refine Nat.mod_eq_of_lt ?_
    rw [KERNBASE] at hsz
    omega
  have hbytes : ∀ k < ((ustack argv.length sp ptrs).flatMap leBytes).length,
      userByte t.mem d (esp + k) = ((ustack argv.length sp ptrs).flatMap leBytes)[k]? := by
    intro k hk
    have hnew := userByte_new hwrote hwritten hk (hall k hk)
    rwa [haddr k (by omega)] at hnew
  have hwords : ∀ i w, (ustack argv.length sp ptrs)[i]? = some w → w < 2 ^ 32 →
      userWord t.mem d (esp + 4 * i) = some w := fun i w hi hw => userWord_of_bytes hbytes hi hw
  have hkept : ∀ a, sp ≤ a → a < KERNBASE → userByte t.mem d a = userByte s.mem d a := by
    intro a ha hlt
    refine userByte_old h hwrote hwritten hall (by rw [KERNBASE] at hlt; omega) fun k hk => ?_
    rw [haddr k (by omega)]
    omega
  have harray : uint32 (sp + 2 ^ 32 - (argv.length + 1) * 4) = esp + 12 := by
    simp only [uint32, KERNBASE] at *
    omega
  have hinside : ∀ {arg p}, (arg, p) ∈ argv.zip ptrs →
      p % 4 = 0 ∧ sp ≤ p ∧ p + (arg.bytes.length + 1) ≤ sz :=
    fun hp => hpushed.inside _ (mem_map_of_mem hp)
  have hcopied : List.Forall₂ (StringAt t.mem d) argv ptrs := by
    obtain ⟨hlen, hold⟩ := forall₂_iff_zip.mp hpushed.copied
    refine forall₂_iff_zip.mpr ⟨hlen, fun {arg p} hp i hi => ?_⟩
    obtain ⟨-, hlow, hhigh⟩ := hinside hp
    rw [hkept _ (by omega) (by omega)]
    exact hold hp i hi
  refine ⟨hpages.congr hwrote.same, ?_, ?_, ?_, ?_, ?_, hcopied, ?_, ?_⟩
  · exact hwords 0 _ (ustack_head _ _ _).1 (by decide)
  · refine hwords 1 _ (ustack_head _ _ _).2.1 ?_
    rw [MAXARG] at hargc
    omega
  · have hread := hwords 2 _ (ustack_head _ _ _).2.2 (Nat.mod_lt _ (by decide))
    rwa [harray] at hread
  · intro i p hp
    have hi : i < argv.length := hptrs ▸ (List.getElem?_eq_some_iff.mp hp).1
    have hpair : (argv.get ⟨i, hi⟩, p) ∈ argv.zip ptrs :=
      mem_of_getElem? (getElem?_zip_eq_some.mpr ⟨getElem?_eq_getElem hi, hp⟩)
    have hhigh := (hinside hpair).2.2
    have hread := hwords _ _ (ustack_pointer _ _ hp) (by rw [KERNBASE] at hsz; omega)
    rwa [show esp + 4 * (i + 3) = esp + 12 + 4 * i by omega] at hread
  · have hread := hwords _ _ (ustack_null argv.length sp ptrs) (by decide)
    rwa [hptrs, show esp + 4 * (argv.length + 3) = esp + 12 + 4 * argv.length by omega] at hread
  · exact objects_inside hesp hlo (by omega) hsp hpushed.inside
  · exact objects_apart hesp (fun x hx => (hpushed.inside x hx).2.1) hpushed.apart

end Objects

/-! ### The stack pages -/

theorem Zeroed.accessible {m : Mem} {a : ℕ} (h : Zeroed m d (PGROUNDDOWN a)) : Accessible m d a := by
  obtain ⟨⟨f, -, hpte⟩, -⟩ := h
  have hperm : (PTE_W ||| PTE_U : Word).toNat < 2 ^ 12 ∧
      (PTE_W ||| PTE_U ||| PTE_P : Word) &&& PTE_U ≠ 0 := by decide
  rw [pteAt_roundDown] at hpte
  rw [Accessible, hpte]
  exact ⟨present_perm _, (entry_user_iff (Nat.mul_mod_left f PGSIZE) hperm.1).mpr hperm.2⟩

theorem returns_stackPages {size : ℕ} (hsize : size < KERNBASE) (h : Space P R d s)
    (hsized : Sized s.mem d size) :
    Returns (allocuvm L d (PGROUNDUP size) (uint32 (PGROUNDUP size + 2 * PGSIZE))) s fun r t =>
      Space P R d t ∧ (∀ f ∈ R, t.mem f = s.mem f) ∧
        ((r = 0 ∧ (KERNBASE ≤ PGROUNDUP size + 2 * PGSIZE ∨
            (s.deny = [] → Short P R (PGROUNDUP size + 2 * PGSIZE)))) ∨
          (r = PGROUNDUP size + 2 * PGSIZE ∧ r < KERNBASE ∧ Sized t.mem d r ∧
            ∀ a, PGROUNDUP size ≤ a → a < r → Accessible t.mem d a)) := by
  obtain ⟨haligned, hround, hbetween⟩ := roundUp_spec hsize.le
  generalize PGROUNDUP size = base at haligned hround hbetween ⊢
  have hnewsz : uint32 (base + 2 * PGSIZE) = base + 2 * PGSIZE := by
    simp only [uint32, Aligned, PGSIZE, KERNBASE] at *
    omega
  rw [hnewsz]
  by_cases hlt : base < KERNBASE
  swap
  · rw [allocuvm, if_pos (by omega), returns_pure]
    exact ⟨h, fun _ _ => rfl, .inl ⟨rfl, .inl (by omega)⟩⟩
  refine returns_allocuvm hlt h.owned (hsized.of_round fun b hb => (hbetween b hb).symm)
    fun r t ht hanswer => ?_
  have hspace : Space P R d t :=
    ⟨ht.owned, fun b hb hkernel => (ht.same b hb (.inr hkernel)).trans (h.kernel b hb hkernel)⟩
  refine ⟨hspace, ht.kept, ?_⟩
  rcases hanswer with ⟨hr, hmax⟩ | hzero
  · have hpos : 0 < PGSIZE := by decide
    obtain rfl : r = base + 2 * PGSIZE := by omega
    have hgrown : grown base (base + 2 * PGSIZE) = base + 2 * PGSIZE := if_neg (by omega)
    have hsized' := ht.sized
    rw [hgrown] at hsized'
    refine .inr ⟨rfl, hmax, hsized', fun a hlo hhi => Zeroed.accessible ?_⟩
    have hnew := ht.new (PGROUNDDOWN a)
    rw [hgrown] at hnew
    refine hnew (aligned_roundDown ?_) ?_ ?_ ?_
    all_goals simp only [PGROUNDDOWN, Aligned, PGSIZE, KERNBASE] at *
    all_goals omega
  · exact .inl hzero

theorem returns_guard {base : ℕ} (halign : base % PGSIZE = 0) (hsz : base + 2 * PGSIZE < KERNBASE)
    (h : Space P R d s) (hsized : Sized s.mem d (base + 2 * PGSIZE))
    (hacc : ∀ a, base ≤ a → a < base + 2 * PGSIZE → Accessible s.mem d a) :
    Returns (clearpteu d (uint32 (base + 2 * PGSIZE + 2 ^ 32 - 2 * PGSIZE))) s fun _ t =>
      Space P R d t ∧ (∀ f ∈ R, t.mem f = s.mem f) ∧ StackPages t.mem d (base + 2 * PGSIZE) := by
  have huva : uint32 (base + 2 * PGSIZE + 2 ^ 32 - 2 * PGSIZE) = base := by
    simp only [uint32, PGSIZE, KERNBASE] at *
    omega
  have haligned : Aligned base := by
    refine ⟨halign, ?_⟩
    simp only [PGSIZE, KERNBASE] at *
    omega
  have hround : PGROUNDDOWN base = base := Nat.div_mul_cancel (Nat.dvd_of_mod_eq_zero halign)
  have hpos : 0 < PGSIZE := by decide
  rw [huva]
  refine returns_clearpteu h.owned haligned.2 (hasTable_of_present (hacc base le_rfl (by omega)).1)
    fun t ht => ?_
  rw [hround] at ht
  refine ⟨Mapped.space h haligned ht, ht.kept, ⟨?_, by omega, hsz, Mapped.sized hsized ht, ?_, ?_⟩⟩
  · rw [Nat.add_mul_mod_self_right]
    exact halign
  · intro a hlo hhi hno
    have hpage : a / PGSIZE = base / PGSIZE := by
      simp only [PGSIZE] at *
      omega
    apply hno.2
    rw [pteAt_page hpage, ht.new]
    exact mask_user _
  · intro a hlo hhi
    have hne : PGROUNDDOWN a ≠ base := by
      simp only [PGROUNDDOWN, PGSIZE] at *
      omega
    have hold := hacc a (by omega) hhi
    rw [Accessible, ← pteAt_roundDown] at hold ⊢
    rw [ht.others _ (aligned_roundDown (by rw [KERNBASE] at hsz; omega)) hne]
    exact hold

def StackAnswer (P : Pool L) (R : Multiset ℕ) (d size : ℕ) (argv : List CString) (s t : Vm) :
    Option (ℕ × ℕ) → Prop
  | none => KERNBASE ≤ PGROUNDUP size + 2 * PGSIZE ∨
      (s.deny = [] → Short P R (PGROUNDUP size + 2 * PGSIZE)) ∨ MAXARG < argv.length ∨
      PGSIZE < totalLength argv + 8 * argv.length + 16
  | some (sz, esp) => ∃ ptrs, StackImage t.mem d sz esp argv ptrs

def TooLong (size : ℕ) (argv : List CString) : Prop :=
  PGROUNDUP size + 2 * PGSIZE ≤ totalLength argv

/-- The second part of exec. It is named by an equation, since the elaborator would run it on the
state, which is not known, and count up to the size of the two pages. -/
theorem ends_buildStack {size : ℕ} {argv : List CString} {build : VmM (Option (ℕ × ℕ))}
    (hbuild : buildStack L d size argv = build) (hsize : size < KERNBASE) (h : Space P R d s)
    (hsized : Sized s.mem d size) :
    Ends (fun e => e = "null pointer" ∧ TooLong size argv) build s fun r t =>
      Space P R d t ∧ (∀ f ∈ R, t.mem f = s.mem f) ∧ StackAnswer P R d size argv s t r := by
  have halign := (roundUp_spec hsize.le).1.1
  rw [← hbuild, buildStack]
  have hstack := returns_stackPages hsize h hsized
  generalize allocuvm L d (PGROUNDUP size) (uint32 (PGROUNDUP size + 2 * PGSIZE)) = alloc at hstack ⊢
  refine ends_bind (hstack.ends.mono fun r t ht => ?_)
  obtain ⟨hspace, hkept, hanswer⟩ := ht
  have hpos : 0 < PGSIZE := by decide
  rcases hanswer with ⟨rfl, hfew⟩ | ⟨rfl, hmax, hsized', hacc⟩
  · rw [if_pos rfl, ends_pure]
    exact ⟨hspace, hkept, by rw [StackAnswer]; tauto⟩
  have hne : PGROUNDUP size + 2 * PGSIZE ≠ 0 := by omega
  rw [if_neg hne]
  refine ends_bind ((returns_guard halign hmax hspace hsized' hacc).ends.mono fun _ u hu => ?_)
  obtain ⟨hspace', hkept', hpages⟩ := hu
  have hkeep : ∀ f ∈ R, u.mem f = s.mem f := fun f hf => (hkept' f hf).trans (hkept f hf)
  have hlong : PGROUNDUP size + 2 * PGSIZE ≤ totalLength argv → TooLong size argv := id
  generalize hsz : PGROUNDUP size + 2 * PGSIZE = sz at *
  have hsz4 : sz % 4 = 0 := by
    simp only [PGSIZE] at *
    omega
  have hlow : sz ≤ sz + 0 + 4 * 0 := le_rfl
  refine ends_bind (((ends_pushArgs argv (Nat.sub_le _ _) le_rfl hsz4 hlow (Nat.zero_le _)
    (Nat.zero_add _) hpages hspace').mono_error fun _ => And.imp_right hlong).mono fun result v hv => ?_)
  obtain ⟨hwrote, hpush⟩ := hv
  have hkeep' : ∀ f ∈ R, v.mem f = s.mem f :=
    fun f hf => (Wrote.kept hspace' hwrote hf).trans (hkeep f hf)
  have hle := hpages.le
  cases result with
  | none =>
    dsimp only
    rw [ends_pure]
    refine ⟨Wrote.space hspace' hwrote, hkeep', ?_⟩
    rw [PushAnswer] at hpush
    refine .inr (.inr (hpush.imp (fun hmany => by omega) fun hroom => ?_))
    omega
  | some pair =>
    obtain ⟨sp, ptrs⟩ := pair
    obtain ⟨hargc, hroom, hpushed⟩ := hpush
    obtain ⟨hlo, hsp, hsp4⟩ := hpushed.range
    have hlength : ((ustack argv.length sp ptrs).flatMap leBytes).length = 16 + 4 * argv.length := by
      have hptrs : ptrs.length = argv.length := hpushed.copied.length_eq.symm
      rw [length_words]
      simp only [ustack, length_append, length_cons, length_nil]
      omega
    dsimp only
    obtain ⟨esp, hesp⟩ : ∃ esp, esp = uint32 (sp + 2 ^ 32 - (3 + argv.length + 1) * 4) := ⟨_, rfl⟩
    rw [← hesp]
    have hend : esp + (16 + 4 * argv.length) = sp ∧ esp < 2 ^ 32 ∧ 16 + 4 * argv.length ≤ 2 ^ 32 := by
      simp only [uint32, PGSIZE, KERNBASE, MAXARG] at *
      omega
    have hspaceV := Wrote.space hspace' hwrote
    have hpagesV := hpages.congr hwrote.same
    refine ends_bind (((ends_copyout hend.2.1 (by omega) hspaceV).mono_error
      fun _ hfault => absurd hfault.2 (hpagesV.not_fault (by omega))).mono fun r w hw => ?_)
    have hspaceW := Wrote.space hspaceV hw.wrote
    have hkeepW : ∀ f ∈ R, w.mem f = s.mem f :=
      fun f hf => (Wrote.kept hspaceV hw.wrote hf).trans (hkeep' f hf)
    rcases hw.result with ⟨rfl, hall, hwritten⟩ | ⟨rfl, hrefused⟩
    · rw [if_neg (by decide), ends_pure]
      refine ⟨hspaceW, hkeepW, ptrs, ?_⟩
      have hesp' : sz - PGSIZE ≤ esp :=
        hpagesV.le_of_accessible hlo hsp (by omega) (by omega) (by omega) hall
      exact .of_pushed hspaceV hpagesV hpushed hend.1 hesp' (by omega) hw.wrote hall hwritten
    · rw [if_pos (by decide), ends_pure]
      refine ⟨hspaceW, hkeepW, .inr (.inr (.inr ?_))⟩
      by_contra hfits
      exact hpagesV.not_refused (by omega) (by omega) hrefused

end KernelLabs.ExecStack

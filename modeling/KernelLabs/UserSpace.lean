import KernelLabs.ForkCopy
import Mathlib.Data.Nat.Bitwise

/-!
Address spaces as exec builds them: setupkvm, calls of allocuvm and pages that clearpteu takes
from the user. In each of them the pages of the kernel are not for the user, and the page of the
highest addresses is mapped, so that a range of user pages does not wrap around.
-/
namespace KernelLabs.UserSpace

open MachineWords PageWords PanicMonad TableOwners UserPages UserTables UserCalls UserRelease
  UserGrow List BitVec

def clearpteu (pgdir : Frame) (uva : ℕ) : VmM Unit := do
  match ← walkpgdir pgdir uva false with
  | none => throw "clearpteu"
  | some (table, j) => modify fun s => s.setWord table j (s.mem table j &&& ~~~PTE_U)

def HasTable (m : Mem) (d a : ℕ) : Prop := Present (m d (pdx a))

def Accessible (m : Mem) (d a : ℕ) : Prop := Present (pteAt m d a) ∧ pteAt m d a &&& PTE_U ≠ 0

instance (m : Mem) (d a : ℕ) : Decidable (HasTable m d a) := by
  unfold HasTable
  infer_instance

instance (m : Mem) (d a : ℕ) : Decidable (Accessible m d a) := by
  unfold Accessible
  infer_instance

/-! ### Entries -/

/-- The two indices depend on the page of an address. -/
theorem indices_page {a b : ℕ} (h : a / PGSIZE = b / PGSIZE) : pdx a = pdx b ∧ ptx a = ptx b := by
  refine ⟨Fin.ext ?_, Fin.ext ?_⟩
  · simp only [pdx, PGSIZE, NPTENTRIES] at *
    omega
  · simp only [ptx, PGSIZE, NPTENTRIES] at *
    omega

theorem pteAt_page {m : Mem} {d a b : ℕ} (h : a / PGSIZE = b / PGSIZE) :
    pteAt m d a = pteAt m d b := by
  obtain ⟨hpdx, hptx⟩ := indices_page h
  rw [pteAt, pteAt, hpdx, hptx]

theorem hasTable_page {m : Mem} {d a b : ℕ} (h : a / PGSIZE = b / PGSIZE) :
    HasTable m d a ↔ HasTable m d b := by
  rw [HasTable, HasTable, (indices_page h).1]

theorem roundDown_div (a : ℕ) : PGROUNDDOWN a / PGSIZE = a / PGSIZE := by
  simp only [PGROUNDDOWN, PGSIZE]
  omega

variable {a : ℕ}

theorem aligned_roundDown (ha : a < 2 ^ 32) : Aligned (PGROUNDDOWN a) := by
  simp only [Aligned, PGROUNDDOWN, PGSIZE]
  omega

theorem pteAt_roundDown (m : Mem) (d a : ℕ) : pteAt m d (PGROUNDDOWN a) = pteAt m d a :=
  pteAt_page (roundDown_div a)

theorem hasTable_of_present {m : Mem} {d a : ℕ} (h : Present (pteAt m d a)) : HasTable m d a := by
  obtain ⟨f, htable, -⟩ := walk_of_present h
  exact (target_eq_some.mp htable).1

theorem user_iff (w : Word) : w &&& PTE_U ≠ 0 ↔ w.toNat / 4 % 2 = 1 := by
  have hU : (PTE_U : Word).toNat = 2 ^ 2 := rfl
  have hzero : (0 : Word).toNat = 0 := rfl
  rw [ne_eq, ← toNat_inj, toNat_and, hU, hzero, Nat.and_two_pow, Nat.testBit_eq_decide_div_mod_eq]
  by_cases hbit : w.toNat / 2 ^ 2 % 2 = 1
  · rw [decide_eq_true hbit]
    exact iff_of_true (by decide) hbit
  · rw [decide_eq_false hbit]
    exact iff_of_false (not_not_intro rfl) hbit

theorem entry_toNat {pa : ℕ} {perm : Word} (hpa : pa % PGSIZE = 0) (hperm : perm.toNat < 2 ^ 12) :
    (entry pa perm).toNat = pa % 2 ^ 32 + (perm ||| PTE_P).toNat := by
  have hbits : (perm ||| PTE_P).toNat < 2 ^ 12 := perm_toNat_lt hperm
  have hshift : (BitVec.ofNat 32 pa).toNat = (pa % 2 ^ 32 / 2 ^ 12) <<< 12 := by
    simp only [toNat_ofNat, Nat.shiftLeft_eq, PGSIZE] at *
    omega
  rw [entry, BitVec.or_assoc, toNat_or, hshift, ← Nat.shiftLeft_add_eq_or_of_lt hbits,
    Nat.shiftLeft_eq]
  simp only [PGSIZE] at hpa
  omega

theorem entry_user_iff {pa : ℕ} {perm : Word} (hpa : pa % PGSIZE = 0) (hperm : perm.toNat < 2 ^ 12) :
    entry pa perm &&& PTE_U ≠ 0 ↔ (perm ||| PTE_P) &&& PTE_U ≠ 0 := by
  rw [user_iff, user_iff, entry_toNat hpa hperm]
  simp only [PGSIZE] at hpa
  omega

section Mask

variable (w : Word)

theorem mask_user : (w &&& ~~~PTE_U) &&& PTE_U = 0 := by
  have hbits : ~~~PTE_U &&& PTE_U = 0 := by decide
  rw [BitVec.and_assoc, hbits]
  exact and_zero

theorem target_mask : target (w &&& ~~~PTE_U) = target w := by
  have hpresent : Present (w &&& ~~~PTE_U) ↔ Present w := by
    have hbits : ~~~PTE_U &&& PTE_P = PTE_P := by decide
    rw [Present, Present, BitVec.and_assoc, hbits]
  have hnum : PGNUM (w &&& ~~~PTE_U) = PGNUM w := by
    have hbits : (~~~PTE_U : Word) >>> 12 = 0xFFFFF := by decide
    have hmask : (0xFFFFF : Word).toNat = 2 ^ 20 - 1 := rfl
    have hlt := w.isLt
    rw [PGNUM, ushiftRight_and_distrib, hbits, toNat_and, hmask,
      Nat.and_two_pow_sub_one_eq_mod, PGNUM, toNat_ushiftRight, Nat.shiftRight_eq_div_pow]
    omega
  simp only [target, hpresent, hnum]

end Mask

theorem mask_of_kernel {w : Word} (h : w &&& PTE_U = 0) : w &&& ~~~PTE_U = w := by
  refine eq_of_getLsbD_eq fun i hi => ?_
  have hbit := congrArg (fun v => v.getLsbD i) h
  simp only [getLsbD_and, ofNat_eq_ofNat, getLsbD_zero] at hbit
  rw [getLsbD_and, getLsbD_not, decide_eq_true hi, Bool.true_and]
  cases hw : w.getLsbD i
  · exact Bool.false_and _
  · rw [hw, Bool.true_and] at hbit
    rw [hbit]
    rfl

/-! ### The kernel's pages -/

theorem kernelEntry_not_user {ks : List Kmap} {b : ℕ} (hb : Aligned b)
    (hks : ∀ k ∈ ks, k.virt % PGSIZE = 0 ∧ k.physStart % PGSIZE = 0 ∧ k.perm.toNat < 2 ^ 12 ∧
      (k.perm ||| PTE_P) &&& PTE_U = 0) : kernelEntry ks b &&& PTE_U = 0 := by
  induction ks with
  | nil =>
    change (0 : Word) &&& PTE_U = 0
    decide
  | cons k rest ih =>
    obtain ⟨hvirt, hphys, hperm, hbits⟩ := hks k mem_cons_self
    rw [kernelEntry]
    split
    · have hpa : (k.physStart + (b - k.virt)) % PGSIZE = 0 := by
        simp only [Aligned, PGSIZE] at *
        omega
      by_contra huser
      exact (entry_user_iff hpa hperm).mp huser hbits
    · exact ih fun k' hk' => hks k' (mem_cons_of_mem _ hk')

theorem kernelPte_not_user (L : Layout) {b : ℕ} (hb : Aligned b) : kernelPte L b &&& PTE_U = 0 := by
  refine kernelEntry_not_user hb ?_
  have haligned := L.aligned
  have htext := L.text
  intro k hk
  simp only [kmap, mem_cons, not_mem_nil, or_false] at hk
  have hW : (PTE_W : Word).toNat < 2 ^ 12 ∧ (PTE_W ||| PTE_P) &&& PTE_U = 0 := by decide
  have hzero : (0 : Word).toNat < 2 ^ 12 ∧ (0 ||| PTE_P) &&& PTE_U = 0 := by decide
  have hvirt : KERNLINK % PGSIZE = 0 := by decide
  have hlink : (KERNLINK - KERNBASE) % PGSIZE = 0 := by decide
  have hdata : (L.data - KERNBASE) % PGSIZE = 0 := by
    simp only [KERNLINK, KERNBASE, EXTMEM, PGSIZE] at *
    omega
  rcases hk with rfl | rfl | rfl | rfl
  · exact ⟨rfl, rfl, hW⟩
  · exact ⟨hvirt, hlink, hzero⟩
  · exact ⟨haligned, hdata, hW⟩
  · exact ⟨rfl, rfl, hW⟩

theorem kernelPte_device (L : Layout) {b : ℕ} (hlo : DEVSPACE ≤ b) (hhi : b < 2 ^ 32) :
    Present (kernelPte L b) := by
  have htext := L.text
  have hdata := L.data_lt
  have hend := L.finish_le
  have hlow : ¬(KERNBASE ≤ b ∧ b < KERNBASE + uint32 (EXTMEM + 2 ^ 32 - 0)) := by
    simp only [KERNBASE, EXTMEM, DEVSPACE, uint32] at *
    omega
  have hcode : ¬(KERNLINK ≤ b ∧
      b < KERNLINK + uint32 (L.data - KERNBASE + 2 ^ 32 - (KERNLINK - KERNBASE))) := by
    simp only [KERNLINK, KERNBASE, EXTMEM, PHYSTOP, DEVSPACE, uint32] at *
    omega
  have hrest : ¬(L.data ≤ b ∧ b < L.data + uint32 (PHYSTOP + 2 ^ 32 - (L.data - KERNBASE))) := by
    simp only [KERNLINK, KERNBASE, EXTMEM, PHYSTOP, DEVSPACE, uint32] at *
    omega
  have hdevice : DEVSPACE ≤ b ∧ b < DEVSPACE + uint32 (0 + 2 ^ 32 - DEVSPACE) := by
    simp only [DEVSPACE, uint32] at *
    omega
  rw [kernelPte, kmap, kernelEntry, if_neg hlow, kernelEntry, if_neg hcode, kernelEntry,
    if_neg hrest, kernelEntry, if_pos hdevice]
  exact present_perm _

/-! ### Address spaces -/

variable {L : Layout} {P : Pool L} {R : Multiset ℕ} {s t : Vm} {d sz : ℕ}

/-- The directory `d` has its pages, and the kernel's pages above KERNBASE. -/
structure Space (P : Pool L) (R : Multiset ℕ) (d : ℕ) (s : Vm) : Prop where
  owned : Owned P R d s
  kernel : ∀ b, Aligned b → KERNBASE ≤ b → pteAt s.mem d b = kernelPte L b

theorem Space.lt_of_accessible (h : Space P R d s) (ha : a < 2 ^ 32)
    (hacc : Accessible s.mem d a) : a < KERNBASE := by
  by_contra hge
  have hpage : KERNBASE ≤ PGROUNDDOWN a := by
    simp only [PGROUNDDOWN, KERNBASE, PGSIZE] at *
    omega
  have haligned := aligned_roundDown ha
  apply hacc.2
  rw [← pteAt_roundDown, h.kernel _ haligned hpage]
  exact kernelPte_not_user L haligned

/-- The pages of the devices are mapped, and not for the user. -/
theorem Space.device (h : Space P R d s) (hlo : DEVSPACE ≤ a) (ha : a < 2 ^ 32) :
    HasTable s.mem d a ∧ ¬Accessible s.mem d a := by
  have hpage : KERNBASE ≤ PGROUNDDOWN a ∧ DEVSPACE ≤ PGROUNDDOWN a := by
    simp only [PGROUNDDOWN, KERNBASE, DEVSPACE, PGSIZE] at *
    omega
  have haligned := aligned_roundDown ha
  have hpte : pteAt s.mem d a = kernelPte L (PGROUNDDOWN a) := by
    rw [← pteAt_roundDown, h.kernel _ haligned hpage.1]
  refine ⟨hasTable_of_present ?_, fun hacc => hacc.2 ?_⟩
  · rw [hpte]
    exact kernelPte_device L hpage.2 haligned.2
  · rw [hpte]
    exact kernelPte_not_user L haligned

/-- The page of a user address belongs to the directory. -/
theorem Space.mem_pages (h : Space P R d s) {a f : ℕ} (ha : a < 2 ^ 32)
    (hacc : Accessible s.mem d a) (hf : target (pteAt s.mem d a) = some f) :
    f ∈ tableFormat.pages s.mem d :=
  mem_pages_of_target (h.lt_of_accessible ha hacc) hf

/-- Two addresses for the user with the same byte of memory are the same. -/
theorem Space.address_inj (h : Space P R d s) {a b f : ℕ} (ha : a < 2 ^ 32) (hb : b < 2 ^ 32)
    (hacc : Accessible s.mem d a) (hacc' : Accessible s.mem d b)
    (hf : target (pteAt s.mem d a) = some f) (hf' : target (pteAt s.mem d b) = some f)
    (hoff : a % PGSIZE = b % PGSIZE) : a = b := by
  have hauser := h.lt_of_accessible ha hacc
  have hbuser := h.lt_of_accessible hb hacc'
  rw [← pteAt_roundDown] at hf hf'
  have hpage := ForkCopy.page_inj (footprint_nodup h.owned) (aligned_roundDown ha)
    (aligned_roundDown hb) (lt_of_le_of_lt (Nat.div_mul_le_self a PGSIZE) hauser)
    (lt_of_le_of_lt (Nat.div_mul_le_self b PGSIZE) hbuser) hf hf'
  simp only [PGROUNDDOWN, PGSIZE] at hpage hoff
  omega

/-- An entry is replaced by one that names the same page. -/
theorem mapped_same_target {a f : ℕ} {w : Word} (h : Owned P R d s) (ha : Aligned a)
    (htable : target (s.mem d (pdx a)) = some f) (hw : target w = target (s.mem f (ptx a))) :
    Mapped P R d a w s (s.setWord f (ptx a) w) := by
  have hnodup := footprint_nodup h
  have hR : ∀ g ∈ R, g ≠ f := by
    rintro g hg rfl
    exact not_mem_rest h (Format.table_mem_footprint htable) hg
  have hheld : tableFormat.held w = tableFormat.held (s.mem f (ptx a)) := by
    simp only [Format.held]
    rw [show tableFormat.target w = tableFormat.target (s.mem f (ptx a)) from hw]
  have hpage : a < KERNBASE → ∀ p, target w = some p → p ≠ f := by
    rintro huser p hp rfl
    refine (Format.page_ne hnodup (mem_pages_of_target (f := p) huser ?_)).2 _ htable
    rw [pteAt, Format.leaf_some (F := tableFormat) htable, ← hw, hp]
  refine mapped_of_owned ha htable hnodup hR hpage rfl id (h.congr rfl ?_)
  refine congrArg (· + R) ?_
  by_cases huser : a < KERNBASE
  · have hfoot := Format.footprint_store (j := ptx a) (w := w) hnodup htable (owns_pdx_of_lt huser)
    rw [hheld] at hfoot
    exact add_right_cancel hfoot
  · refine Format.footprint_store_of_not_owns hnodup htable ?_
    rw [Bool.eq_false_iff, ne_eq, owns_pdx ha.2]
    exact huser

theorem returns_clearpteu (h : Owned P R d s) {uva : ℕ} (huva : uva < 2 ^ 32)
    (htable : HasTable s.mem d uva) {Q : Unit → Vm → Prop}
    (hQ : ∀ t, Mapped P R d (PGROUNDDOWN uva) (pteAt s.mem d uva &&& ~~~PTE_U) s t → Q () t) :
    Returns (clearpteu d uva) s Q := by
  have hdir : target (s.mem d (pdx uva)) = some (PGNUM (s.mem d (pdx uva))) :=
    target_eq_some.mpr ⟨htable, rfl⟩
  generalize PGNUM (s.mem d (pdx uva)) = f at hdir
  obtain ⟨hpdx, hptx⟩ := indices_page (roundDown_div uva)
  rw [clearpteu]
  refine returns_bind (returns_walkpgdir_present hdir ?_)
  rw [returns_modify]
  have hmapped := mapped_same_target (w := s.mem f (ptx uva) &&& ~~~PTE_U) h (aligned_roundDown huva)
    (by rw [hpdx]; exact hdir) (by rw [hptx]; exact target_mask _)
  rw [hptx] at hmapped
  refine hQ _ ?_
  rw [pteAt, Format.leaf_some (F := tableFormat) hdir]
  exact hmapped

theorem hasTable_of_clearpteu {uva : ℕ} {r : Unit} (hrun : (clearpteu d uva).run s = .ok r t) :
    HasTable s.mem d uva := by
  by_contra htable
  have hnone : target (s.mem d (pdx uva)) = none := target_eq_none.mpr htable
  have hends : Ends (fun _ => True) (clearpteu d uva) s fun _ _ => False := by
    rw [clearpteu]
    exact ends_bind (returns_walkpgdir_absent hnone trivial).ends
  exact hends.of_ok hrun

/-- The directories of processes: made by setupkvm, grown by allocuvm from the present size, with
pages taken from the user by clearpteu. -/
inductive Built (P : Pool L) (R : Multiset ℕ) : ℕ → ℕ → Vm → Prop
  | setupkvm {s t : Vm} {d : ℕ} (h : Balanced P s R)
      (hrun : (UserPages.setupkvm L).run s = .ok (some d) t) : Built P R d 0 t
  | allocuvm {s t : Vm} {d sz r : ℕ} (newsz : ℕ) (deny : List Bool) (h : Built P R d sz s)
      (hrun : (UserPages.allocuvm L d sz newsz).run { s with deny := deny } = .ok r t) :
      Built P R d (grown sz r) t
  | clearpteu {s t : Vm} {d sz uva : ℕ} (huva : uva < 2 ^ 32) (h : Built P R d sz s)
      (hrun : (UserSpace.clearpteu d uva).run s = .ok () t) : Built P R d sz t

theorem Mapped.space (h : Space P R d s) (ha : Aligned a)
    (hmapped : Mapped P R d a (pteAt s.mem d a &&& ~~~PTE_U) s t) : Space P R d t := by
  refine ⟨hmapped.owned, fun b hb hkernel => ?_⟩
  by_cases hba : b = a
  · subst hba
    rw [hmapped.new, h.kernel b hb hkernel]
    exact mask_of_kernel (kernelPte_not_user L hb)
  · rw [hmapped.others b hb hba, h.kernel b hb hkernel]

theorem Mapped.sized (h : Sized s.mem d sz)
    (hmapped : Mapped P R d a (pteAt s.mem d a &&& ~~~PTE_U) s t) : Sized t.mem d sz := by
  intro b hb huser
  by_cases hba : b = a
  · subst hba
    rw [hmapped.new, ← h b hb huser, ← not_iff_not, ← target_eq_none, ← target_eq_none, target_mask]
  · rw [hmapped.others b hb hba, h b hb huser]

theorem Built.space (h : Built P R d sz s) : Space P R d s ∧ Sized s.mem d sz ∧ sz < KERNBASE := by
  induction h with
  | setupkvm h hrun =>
    have hreturns := returns_setupkvm (L := L) h
      (Q := fun r t => ∀ d, r = some d → Space P R d t ∧ Sized t.mem d 0)
      (fun t _ _ _ d hd => by cases hd) fun d t ht d' hd => by
        obtain rfl := Option.some.inj hd
        refine ⟨⟨ht.owned, ht.kernel⟩, fun b hb huser => ?_⟩
        exact iff_of_false (ht.empty b hb huser) (Nat.not_lt_zero b)
    obtain ⟨hspace, hsized⟩ := hreturns.of_ok hrun _ rfl
    exact ⟨hspace, hsized, by decide⟩
  | @allocuvm s t d sz r newsz deny _ hrun ih =>
    obtain ⟨hspace, hsized, hlt⟩ := ih
    have howned : Owned P R d { s with deny := deny } := hspace.owned
    have hreturns : Returns (UserPages.allocuvm L d sz newsz) { s with deny := deny } fun r t =>
        Grown P R d sz { s with deny := deny } r t :=
      returns_allocuvm hlt howned hsized fun r t ht _ => ht
    have hgrown := hreturns.of_ok hrun
    refine ⟨⟨hgrown.owned, fun b hb hkernel => ?_⟩, hgrown.sized, hgrown.lt⟩
    rw [hgrown.same b hb (.inr hkernel)]
    exact hspace.kernel b hb hkernel
  | clearpteu huva _ hrun ih =>
    obtain ⟨hspace, hsized, hlt⟩ := ih
    have hmapped := (returns_clearpteu (Q := fun _ t => Mapped P R _ _ _ _ t) hspace.owned huva
      (hasTable_of_clearpteu hrun) fun t ht => ht).of_ok hrun
    rw [← pteAt_roundDown] at hmapped
    exact ⟨Mapped.space hspace (aligned_roundDown huva) hmapped, Mapped.sized hsized hmapped, hlt⟩

end KernelLabs.UserSpace

import KernelLabs.BlockRuns
import KernelLabs.FileBytes

/-!
A consistent file system, in which every block below the size of a file is allocated, and what
writei does to it: one file changes like a list of bytes, and all others stay. Since no byte of
a file is in a block that is not allocated, every writei that changes addrs makes the file
longer, so the inode on the disk stays as its copy in the cache.
-/
namespace KernelLabs.FileSystem

open PanicMonad DiskBlocks BlockOwners BlockRuns FileBytes FlatFiles MachineWords List

structure Consistent (L : Layout) (s : Fs) : Prop extends Inv L s where
  whole : ∀ i < L.ninodes, (s.dinodes i).type = T_FILE ∨ (s.dinodes i).type = T_DIR →
    Whole s.blocks (s.dinodes i)

/-- The caller holds the lock of a file or a directory. -/
structure Opened (s : Fs) (k : Slot) : Prop where
  ref : 0 < (s.icache k).ref
  valid : (s.icache k).valid = true
  type : (s.icache k).copy.type = T_FILE ∨ (s.icache k).copy.type = T_DIR

def file (s : Fs) (k : Slot) : List UInt8 := content s.blocks (s.icache k).copy

section Steps

variable {L : Layout} {s t : Fs} {k k' : Slot}

theorem Opened.not_device (h : Opened s k) : (s.icache k).copy.type ≠ T_DEV := by
  rcases h.type with htype | htype <;> rw [htype] <;> decide

theorem length_file (s : Fs) (k : Slot) : (file s k).length = (s.icache k).copy.size :=
  length_content ..

theorem Consistent.whole_of_opened (h : Consistent L s) (hk : Opened s k) :
    Whole s.blocks (s.icache k).copy := by
  obtain ⟨hcopy, _⟩ := h.clean k hk.ref hk.valid
  have htype := hk.type
  rw [hcopy] at htype ⊢
  exact h.whole _ (h.inum_lt k hk.ref) htype

/-- An operation under a lock that is already held. -/
theorem ends_locked_iff {E : String → Prop} {α : Type} {body : FsM α} {Q : α → Fs → Prop}
    (hk : Opened s k) : Ends E (locked k body) s Q ↔ Ends E body s Q := by
  have href : ¬(s.icache k).ref < 1 := by
    have := hk.ref
    omega
  have hvalid : ¬(s.icache k).valid = false := by rw [hk.valid]; decide
  unfold locked ilock
  rw [ends_bind_iff, ends_get_bind, if_neg href, if_neg hvalid, ends_pure]

/-- writei keeps the inodes on the disk as the cache has them. -/
theorem Consistent.ends_writei_inv (h : Consistent L s) (hk : Opened s k) (src : ℕ → UInt8)
    (off n : ℕ) : Ends Panics (writei L k src off n) s fun _ t => Inv L t := by
  rw [← ends_locked_iff hk]
  refine ends_locked_writei h.toInv hk.ref ?_
  have hheld : held s k = (s.icache k).copy := if_pos hk.valid
  rw [hheld]
  by_cases hlong : (s.icache k).copy.size < off + n
  · exact Or.inl hlong
  · refine Or.inr fun j hj => ?_
    have hused := (h.whole_of_opened hk).allocated (off + j) (by omega)
    rw [Backed]
    rcases addrAt_cases hused with ⟨i, hi, hne⟩ | ⟨i, hi, hind, _⟩
    · rw [dif_pos (by rw [hi]; exact i.isLt)]
      simp only [hi]
      exact hne
    · rw [dif_neg (by omega)]
      exact hind

def SameSlots (s t : Fs) : Prop := ∀ k, (t.icache k).ref = (s.icache k).ref ∧
  (t.icache k).valid = (s.icache k).valid ∧ (t.icache k).inum = (s.icache k).inum ∧
  (t.icache k).copy.type = (s.icache k).copy.type

theorem SameSlots.opened (h : SameSlots s t) (hk : Opened s k) : Opened t k := by
  obtain ⟨href, hvalid, _, htype⟩ := h k
  exact ⟨by rw [href]; exact hk.ref, by rw [hvalid]; exact hk.valid, by rw [htype]; exact hk.type⟩

theorem SameSlots.trans {u : Fs} (h : SameSlots s t) (h' : SameSlots t u) : SameSlots s u := by
  intro k
  obtain ⟨href, hvalid, hinum, htype⟩ := h k
  obtain ⟨href', hvalid', hinum', htype'⟩ := h' k
  exact ⟨href'.trans href, hvalid'.trans hvalid, hinum'.trans hinum, htype'.trans htype⟩

/-- An inode whose blocks are not those of `k` is as before. -/
theorem Consistent.content_of_ne (h : Consistent L s) {i i' : ℕ} (hi' : i' < L.ninodes)
    (hne : i' ≠ i) (htype : (s.dinodes i').type = T_FILE ∨ (s.dinodes i').type = T_DIR)
    (hblocks : ∀ b ∈ others L s i, t.blocks b = s.blocks b) :
    content t.blocks (s.dinodes i') = content s.blocks (s.dinodes i') ∧
      Whole t.blocks (s.dinodes i') := by
  have halive : (s.dinodes i').type ≠ 0 := by
    rcases htype with htype | htype <;> rw [htype] <;> decide
  exact content_congr halive (h.whole i' hi' htype) fun b hb => hblocks b (mem_others hi' hne hb)

/-- writei within the bounds changes one file like a list of bytes, or the disk is full. -/
theorem Consistent.ends_writei (h : Consistent L s) (hk : Opened s k) {src : ℕ → UInt8}
    {off n : ℕ} (hoff : off ≤ (s.icache k).copy.size) (hend : off + n ≤ MAXFILE * BSIZE) :
    Ends Full (writei L k src off n) s fun r t => r = n ∧ Consistent L t ∧ SameSlots s t ∧
      file t k = write (file s k) off ((List.range n).map src) ∧
      ∀ k', Opened s k' → k' ≠ k → file t k' = file s k' := by
  have hboth := (ends_writei_bytes (h.owned hk.ref hk.valid) (h.whole_of_opened hk)
    hk.not_device hoff hend).both (h.ends_writei_inv hk src off n)
  refine (hboth.mono_error fun e he => he.1).mono fun r t ht => ?_
  obtain ⟨⟨rfl, hext⟩, hinv⟩ := ht
  obtain ⟨a, size, hicache⟩ := hext.icache
  have hself : t.icache k = { s.icache k with
      copy := { (s.icache k).copy with addrs := a, size := size } } := by
    rw [hicache, Function.update_self]
  have hother (k' : Slot) (hne : k' ≠ k) : t.icache k' = s.icache k' := by
    rw [hicache, Function.update_of_ne hne]
  have hslots : SameSlots s t := by
    intro k'
    by_cases hne : k' = k
    · rw [hne, hself]
      exact ⟨rfl, rfl, rfl, rfl⟩
    · rw [hother k' hne]
      exact ⟨rfl, rfl, rfl, rfl⟩
  have hopen := hslots.opened hk
  refine ⟨rfl, ⟨hinv, fun i hi htype => ?_⟩, hslots, hext.content, fun k' hk' hne => ?_⟩
  · by_cases heq : i = (s.icache k).inum
    · have hdinode : t.dinodes i = (t.icache k).copy := by
        rw [(hinv.clean k hopen.ref hopen.valid).1, (hslots k).2.2.1, heq]
      rw [hdinode]
      exact hext.whole
    · rw [hext.dinodes i heq] at htype ⊢
      exact (h.content_of_ne hi heq htype hext.blocks).2
  · have hinum : (s.icache k').inum ≠ (s.icache k).inum :=
      fun heq => hne (h.distinct k' k hk'.ref hk.ref heq)
    have hcopy := (h.clean k' hk'.ref hk'.valid).1
    have htype := hk'.type
    rw [hcopy] at htype
    rw [file, file, hother k' hne, hcopy]
    exact (h.content_of_ne (h.inum_lt k' hk'.ref) hinum htype hext.blocks).1

end Steps

/-! ### Sequences of writes -/

structure Write where
  slot : Slot
  off : ℕ
  data : List UInt8
  off_lt : off < 2 ^ 32
  length_lt : data.length < 2 ^ 32

def Write.call (L : Layout) (w : Write) : FsM ℤ :=
  writei L w.slot (fun i => w.data.getD i 0) w.off w.data.length

def writes (L : Layout) (ws : List Write) : FsM (List ℤ) := ws.mapM (Write.call L)

def Outside (size off n : ℕ) : Prop := size < off ∨ 2 ^ 32 ≤ off + n

def Refused (size off n : ℕ) : Prop := Outside size off n ∨ MAXFILE * BSIZE < off + n

instance (size off n : ℕ) : Decidable (Outside size off n) :=
  inferInstanceAs (Decidable (_ ∨ _))

instance (size off n : ℕ) : Decidable (Refused size off n) :=
  inferInstanceAs (Decidable (_ ∨ _))

def written (k : Slot) (ws : List Write) (file : List UInt8) : List UInt8 :=
  (ws.filter (·.slot = k)).foldl (fun file w => write file w.off w.data) file

/-- The largest end of a write, or the size that the file had. -/
def sizeAfter (k : Slot) (ws : List Write) (size : ℕ) : ℕ :=
  (ws.filter (·.slot = k)).foldl (fun size w => max size (w.off + w.data.length)) size

section Sequences

variable {L : Layout} {s t : Fs} {k : Slot}

theorem map_getD_range (data : List UInt8) :
    (List.range data.length).map (fun i => data.getD i 0) = data := by
  apply ext_getElem
  · rw [length_map, length_range]
  · intro i hi hi'
    rw [getElem_map, getElem_range, getD_eq_getElem?_getD,
      getElem?_eq_getElem hi', Option.getD_some]

theorem writei_of_refused (hk : Opened s k) {off n : ℕ} (hoff : off < 2 ^ 32) (hn : n < 2 ^ 32)
    (src : ℕ → UInt8) (h : Refused (s.icache k).copy.size off n) :
    (writei L k src off n).run s = .ok (-1) s := by
  apply writei_refused hk.not_device
  rcases h with (hsize | hwrap) | hmax
  · exact Or.inl (Or.inl hsize)
  · exact Or.inl (Or.inr ((uint32_add_lt_iff hoff hn).mpr hwrap))
  · by_cases hwrap : 2 ^ 32 ≤ off + n
    · exact Or.inl (Or.inr ((uint32_add_lt_iff hoff hn).mpr hwrap))
    · rw [uint32_add hwrap]
      exact Or.inr hmax

theorem not_refused_iff {size off n : ℕ} :
    ¬Refused size off n ↔ off ≤ size ∧ off + n ≤ MAXFILE * BSIZE := by
  have hmax := maxfile_lt
  unfold Refused Outside
  omega

theorem readi_eq (h : Consistent L s) (hk : Opened s k) (input : List UInt8) {off n : ℕ}
    (hoff : off < 2 ^ 32) (hn : n < 2 ^ 32) :
    (readi L input k off n).run s =
      if Outside (s.icache k).copy.size off n then .ok (-1, []) s
      else .ok (((read (file s k) off n).length : ℤ), read (file s k) off n) s := by
  by_cases hout : Outside (s.icache k).copy.size off n
  · rw [if_pos hout]
    refine readi_refused hk.not_device ?_ input
    rw [uint32_add_lt_iff hoff hn]
    exact hout
  · rw [if_neg hout]
    obtain ⟨hsize, hwrap⟩ := not_or.mp hout
    have hread : Returns (readi L input k off n) s _ := returns_readi_bytes
      (h.whole_of_opened hk) hk.not_device (Nat.le_of_not_lt hsize) hwrap input
    obtain ⟨r, t, hok, rfl, rfl⟩ := hread
    exact hok

theorem written_cons_self (w : Write) (ws : List Write) (file : List UInt8) :
    written w.slot (w :: ws) file = written w.slot ws (write file w.off w.data) := by
  rw [written, filter_cons_of_pos (by simp), foldl_cons, written]

theorem written_cons_of_ne {w : Write} (hne : k ≠ w.slot) (ws : List Write)
    (file : List UInt8) : written k (w :: ws) file = written k ws file := by
  rw [written, filter_cons_of_neg (by simpa using hne.symm), written]

theorem sizeAfter_cons_self (w : Write) (ws : List Write) (size : ℕ) :
    sizeAfter w.slot (w :: ws) size = sizeAfter w.slot ws (max size (w.off + w.data.length)) := by
  rw [sizeAfter, filter_cons_of_pos (by simp), foldl_cons, sizeAfter]

theorem sizeAfter_cons_of_ne {w : Write} (hne : k ≠ w.slot) (ws : List Write) (size : ℕ) :
    sizeAfter k (w :: ws) size = sizeAfter k ws size := by
  rw [sizeAfter, filter_cons_of_neg (by simpa using hne.symm), sizeAfter]

/-- A sequence of writes keeps the file system consistent; where every call returns its length,
every file is the list of bytes with the writes to it. -/
theorem Consistent.ends_writes (h : Consistent L s) {ws : List Write}
    (hopen : ∀ w ∈ ws, Opened s w.slot) :
    Ends Full (writes L ws) s fun rs t => Consistent L t ∧ SameSlots s t ∧
      (rs = ws.map (fun w => (w.data.length : ℤ)) →
        ∀ k, Opened s k → file t k = written k ws (file s k) ∧
          (file t k).length = sizeAfter k ws (file s k).length) := by
  induction ws generalizing s with
  | nil =>
    rw [writes, mapM_nil, ends_pure]
    exact ⟨h, fun _ => ⟨rfl, rfl, rfl, rfl⟩, fun _ _ _ => ⟨rfl, rfl⟩⟩
  | cons w ws ih =>
    have hw := hopen w mem_cons_self
    rw [writes, mapM_cons]
    by_cases hrefused : Refused (s.icache w.slot).copy.size w.off w.data.length
    · have hrun : (w.call L).run s = .ok (-1) s :=
        writei_of_refused hw w.off_lt w.length_lt _ hrefused
      rw [ends_bind_iff, ends_iff_of_ok hrun]
      have hrest := ih h fun w' hw' => hopen w' (mem_cons_of_mem w hw')
      refine ends_bind (hrest.mono fun rs t ht => ?_)
      rw [ends_pure]
      refine ⟨ht.1, ht.2.1, fun hlengths => ?_⟩
      rw [map_cons, List.cons.injEq] at hlengths
      omega
    · obtain ⟨hoff, hend⟩ := not_refused_iff.mp hrefused
      refine ends_bind ((h.ends_writei hw hoff hend).mono fun r t ht => ?_)
      obtain ⟨rfl, ht, hslots, hself, hother⟩ := ht
      rw [map_getD_range] at hself
      have hrest := ih ht fun w' hw' => hslots.opened (hopen w' (mem_cons_of_mem w hw'))
      refine ends_bind (hrest.mono fun rs u hu => ?_)
      obtain ⟨hu, hslots', hfiles⟩ := hu
      rw [ends_pure]
      refine ⟨hu, hslots.trans hslots', fun hlengths k hk => ?_⟩
      rw [map_cons, List.cons.injEq] at hlengths
      obtain ⟨hfile, hsize⟩ := hfiles hlengths.2 k (hslots.opened hk)
      refine ⟨hfile.trans ?_, hsize.trans ?_⟩
      · by_cases hne : k = w.slot
        · rw [hne, hself, written_cons_self]
        · rw [hother k hk hne, written_cons_of_ne hne]
      · by_cases hne : k = w.slot
        · rw [hne, hself, sizeAfter_cons_self, length_write (by rw [length_file]; exact hoff)]
        · rw [hother k hk hne, sizeAfter_cons_of_ne hne]

end Sequences

/-- Files are byte arrays. After a sequence of writei calls that return their lengths, the
file system is consistent and every open file is the list of bytes with the writes to it in
their order, as long as its largest end. readi then gives exactly these bytes and leaves the
state as it is; readi and writei return -1 exactly outside of their bounds, with the state
unchanged, and otherwise a writei returns its length or the disk is full. -/
theorem files_are_byte_arrays {L : Layout} {s t : Fs} (h : Consistent L s) {ws : List Write}
    (hopen : ∀ w ∈ ws, Opened s w.slot)
    (hrun : (writes L ws).run s = .ok (ws.map fun w => (w.data.length : ℤ)) t) {k : Slot}
    (hk : Opened s k) :
    Consistent L t ∧ (t.icache k).copy.size = sizeAfter k ws (s.icache k).copy.size ∧
    ∀ off < 2 ^ 32, ∀ n < 2 ^ 32,
      (∀ input, (readi L input k off n).run t =
        if Outside (t.icache k).copy.size off n then .ok (-1, []) t
        else .ok (((read (written k ws (file s k)) off n).length : ℤ),
          read (written k ws (file s k)) off n) t) ∧
      ∀ src,
        if Refused (t.icache k).copy.size off n then (writei L k src off n).run t = .ok (-1) t
        else Ends Full (writei L k src off n) t fun r _ => r = n := by
  obtain ⟨ht, hslots, hfiles⟩ := (h.ends_writes hopen).of_ok hrun
  obtain ⟨hfile, hsize⟩ := hfiles rfl k hk
  have hopened := hslots.opened hk
  refine ⟨ht, ?_, fun off hoff n hn => ⟨fun input => ?_, fun src => ?_⟩⟩
  · rw [← length_file, ← length_file]
    exact hsize
  · rw [← hfile]
    exact readi_eq ht hopened input hoff hn
  · by_cases hrefused : Refused (t.icache k).copy.size off n
    · rw [if_pos hrefused]
      exact writei_of_refused hopened hoff hn src hrefused
    · rw [if_neg hrefused]
      obtain ⟨hoff', hend⟩ := not_refused_iff.mp hrefused
      exact (ht.ends_writei hopened hoff' hend).mono fun r u hu => hu.1

def openFile : Fs where
  bitmap b := decide (b < 2)
  dinodes i := Dinode.fresh (if i = 1 then T_FILE else 0)
  blocks _ := Block.zero
  icache k :=
    if k.val = 0 then { inum := 1, ref := 1, valid := true, copy := Dinode.fresh T_FILE }
    else { inum := 0, ref := 0, valid := false, copy := Dinode.fresh 0 }

theorem openFile_consistent : Consistent smallDisk openFile where
  clean := by decide +kernel
  distinct := by decide +kernel
  inum_lt := by decide +kernel
  marked := ⟨by decide +kernel, by decide +kernel, by decide +kernel⟩
  whole := fun i _ _ => ⟨Nat.zero_le _, fun j hj => absurd hj (Nat.not_lt_zero j)⟩

/-- The bytes 1, 2, 3 and then the bytes 7, 8 at the offset 2. -/
theorem files_are_byte_arrays_four :
    ∃ t, ∀ input, (readi smallDisk input ⟨0, by decide⟩ 0 10).run t = .ok (4, [1, 2, 7, 8]) t := by
  let k : Slot := ⟨0, by decide⟩
  let ws : List Write := [⟨k, 0, [1, 2, 3], by decide, by decide⟩,
    ⟨k, 2, [7, 8], by decide, by decide⟩]
  have hk : Opened openFile k := ⟨by decide, by decide, by decide⟩
  have hdone : (match (writes smallDisk ws).run openFile with
      | .ok rs _ => decide (rs = [3, 2])
      | .error _ _ => false) = true := by decide +kernel
  cases hrun : (writes smallDisk ws).run openFile with
  | error e t =>
    rw [hrun] at hdone
    cases hdone
  | ok rs t =>
    rw [hrun] at hdone
    obtain rfl : rs = [3, 2] := of_decide_eq_true hdone
    have hopen : ∀ w ∈ ws, Opened openFile w.slot := by
      intro w hw
      rcases mem_pair.mp hw with rfl | rfl
      · exact hk
      · exact hk
    obtain ⟨_, hsize, hcalls⟩ := files_are_byte_arrays openFile_consistent hopen hrun hk
    refine ⟨t, fun input => ?_⟩
    have hinside : ¬Outside (sizeAfter k ws (openFile.icache k).copy.size) 0 10 := by decide
    have hbytes : read (written k ws (file openFile k)) 0 10 = [1, 2, 7, 8] := by decide
    have hread := (hcalls 0 (by decide) 10 (by decide)).1 input
    rw [hsize, if_neg hinside, hbytes] at hread
    exact hread

end KernelLabs.FileSystem

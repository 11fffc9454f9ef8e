import KernelLabs.FileSystem
import KernelLabs.FileTable

/-!
The function filewrite of file.c, which cuts a write into chunks that fit in a transaction of
the log, against one call of writei for all bytes. The two differ where the whole write would
make the file longer than MAXFILE blocks and the first chunk would not: the chunks before the
one that fails are written, and the offset of the file has passed them.
-/
namespace KernelLabs.FileWrite

open PanicMonad DiskBlocks BlockRuns FileBytes FileSystem FlatFiles MachineWords List

structure File where
  type : FileTable.FdType
  writable : Bool
  ip : Slot
  off : ℕ

abbrev MAXOPBLOCKS : ℕ := 10

def maxChunk : ℕ := (MAXOPBLOCKS - 1 - 1 - 2) / 2 * 512

/-- The loop of filewrite; it returns i and the file. Every turn that goes on writes at least
one byte, so the turns do not run out. -/
def writeChunks (L : Layout) (addr : ℕ → UInt8) (n : ℕ) : ℕ → ℕ → File → FsM (ℕ × File)
  | 0, i, f => if i < n then throw "filewrite: turns" else return (i, f)
  | turns + 1, i, f =>
    if i < n then do
      let n1 := if maxChunk < n - i then maxChunk else n - i
      let r ← locked f.ip (writei L f.ip (fun j => addr (i + j)) f.off n1)
      let f := if 0 < r then { f with off := uint32 (f.off + r.toNat) } else f
      if r < 0 then return (i, f)
      else if r ≠ n1 then throw "short filewrite"
      else writeChunks L addr n turns (i + r.toNat) f
    else return (i, f)

/-- filewrite, where `piped` is what pipewrite returns. -/
def filewrite (L : Layout) (piped : ℤ) (f : File) (addr : ℕ → UInt8) (n : ℤ) :
    FsM (ℤ × File) := do
  if f.writable = false then return (-1, f)
  else
    match f.type with
    | .pipe => return (piped, f)
    | .inode =>
      let (i, f) ← writeChunks L addr n.toNat n.toNat 0 f
      return (if i = n then n else -1, f)
    | .none => throw "filewrite"

def buffer (addr : ℕ → UInt8) (i m : ℕ) : List UInt8 := (List.range m).map fun j => addr (i + j)

section Chunks

variable {L : Layout} {s t : Fs} {k : Slot} {addr : ℕ → UInt8}

theorem length_buffer (addr : ℕ → UInt8) (i m : ℕ) : (buffer addr i m).length = m := by
  rw [buffer, length_map, length_range]

theorem buffer_add (addr : ℕ → UInt8) (i m m' : ℕ) :
    buffer addr i (m + m') = buffer addr i m ++ buffer addr (i + m) m' := by
  simp only [buffer, range_add, map_append, map_map, Function.comp_def, Nat.add_assoc]

/-- A write that begins in the file and stays within the largest size is all written; another
one is written up to the first chunk that does not. -/
structure Chunked (L : Layout) (addr : ℕ → UInt8) (n i : ℕ) (f : File) (s : Fs)
    (result : ℕ × File) (t : Fs) (d : ℕ) : Prop where
  consistent : Consistent L t
  slots : SameSlots s t
  done : result.1 = i + d
  off : result.2.off = f.off + d
  bytes : file t f.ip = write (file s f.ip) f.off (buffer addr i d)
  all_iff : d = n - i ↔ f.off + (n - i) ≤ MAXFILE * BSIZE
  some_iff : 0 < d ↔ i < n ∧ f.off + min maxChunk (n - i) ≤ MAXFILE * BSIZE

theorem Chunked.stop (h : Consistent L s) {f : File} (hf : Opened s f.ip)
    (hoff : f.off ≤ (s.icache f.ip).copy.size) {n i : ℕ}
    (hlast : n ≤ i ∨ MAXFILE * BSIZE < f.off + min maxChunk (n - i)) :
    Chunked L addr n i f s (i, f) s 0 where
  consistent := h
  slots := fun _ => ⟨rfl, rfl, rfl, rfl⟩
  done := rfl
  off := rfl
  bytes := by
    have hnone : buffer addr i 0 = [] := rfl
    rw [hnone, write_nil (by rw [length_file]; exact hoff)]
  all_iff := by
    have := (h.whole_of_opened hf).size_le
    omega
  some_iff := by omega

theorem Chunked.cons {f : File} (hoff : f.off ≤ (file s f.ip).length) {n i m d : ℕ}
    {result : ℕ × File} {u : Fs} (hlt : i < n) (hm : m = min maxChunk (n - i))
    (hend : f.off + m ≤ MAXFILE * BSIZE) (hslots : SameSlots s t)
    (hfile : file t f.ip = write (file s f.ip) f.off (buffer addr i m))
    (h : Chunked L addr n (i + m) { f with off := f.off + m } t result u d) :
    Chunked L addr n i f s result u (m + d) where
  consistent := h.consistent
  slots := hslots.trans h.slots
  done := by
    rw [h.done]
    omega
  off := by
    rw [h.off]
    exact Nat.add_assoc ..
  bytes := by
    have hrest := h.bytes
    simp only [hfile] at hrest
    have hlength := length_buffer addr i m
    rw [hrest, buffer_add, ← write_append hoff, hlength]
  all_iff := by
    have hrest := h.all_iff
    simp only at hrest
    omega
  some_iff := by
    have hpos : 0 < maxChunk := by decide
    omega

theorem ends_writeChunks (h : Consistent L s) {f : File} (hf : Opened s f.ip)
    (hoff : f.off ≤ (s.icache f.ip).copy.size) {n turns i : ℕ} (hi : i ≤ n)
    (hturns : n ≤ i + turns) :
    Ends Full (writeChunks L addr n turns i f) s fun result t =>
      ∃ d, Chunked L addr n i f s result t d := by
  induction turns generalizing s f i with
  | zero =>
    unfold writeChunks
    rw [if_neg (by omega), ends_pure]
    exact ⟨0, Chunked.stop h hf hoff (Or.inl (by omega))⟩
  | succ turns ih =>
    unfold writeChunks
    by_cases hlt : i < n
    · have hmax := maxfile_lt
      have hsize := (h.whole_of_opened hf).size_le
      have hchunk : maxChunk = 1536 := rfl
      rw [if_pos hlt]
      set m := if maxChunk < n - i then maxChunk else n - i with hm
      have hmin : m = min maxChunk (n - i) := by
        rw [hm]
        split <;> omega
      rw [ends_bind_iff, ends_locked_iff hf]
      by_cases hend : f.off + m ≤ MAXFILE * BSIZE
      · refine (h.ends_writei hf hoff hend).mono fun r t ht => ?_
        obtain ⟨rfl, ht, hslots, hbytes, _⟩ := ht
        have hfile : file t f.ip = write (file s f.ip) f.off (buffer addr i m) := hbytes
        have hoff' : uint32 (f.off + m) = f.off + m := uint32_add (by omega)
        have hpos : (0 : ℤ) < m := by omega
        have hneg : ¬(m : ℤ) < 0 := by omega
        simp only [if_pos hpos, if_neg hneg, Int.toNat_natCast, hoff', ne_eq, not_true_eq_false,
          if_false]
        set f' : File := { f with off := f.off + m }
        have hopen : Opened t f'.ip := hslots.opened hf
        have hlength := length_file t f.ip
        rw [hfile, length_write (by rw [length_file]; exact hoff), length_buffer] at hlength
        have hnext : f'.off ≤ (t.icache f'.ip).copy.size := by
          change f.off + m ≤ (t.icache f.ip).copy.size
          omega
        have hrest : Ends Full (writeChunks L addr n turns (i + m) f') t _ :=
          ih ht hopen hnext (by omega) (by omega)
        refine hrest.mono fun result u hu => ?_
        obtain ⟨d, hu⟩ := hu
        exact ⟨m + d, hu.cons (by rw [length_file]; exact hoff) hlt hmin hend hslots hfile⟩
      · have hrefused : Refused (s.icache f.ip).copy.size f.off m := Or.inr (by omega)
        rw [ends_iff_of_ok (writei_of_refused hf (by omega) (by omega) _ hrefused)]
        exact ⟨0, Chunked.stop h hf hoff (Or.inr (by omega))⟩
    · rw [if_neg hlt, ends_pure]
      exact ⟨0, Chunked.stop h hf hoff (Or.inl (by omega))⟩

/-- Behind the end of the file the first chunk is refused. -/
theorem ends_writeChunks_behind {E : String → Prop} {f : File} (hf : Opened s f.ip)
    (hbehind : (s.icache f.ip).copy.size < f.off) (hoff : f.off < 2 ^ 32) {n : ℕ}
    (hn : n < 2 ^ 31) :
    Ends E (writeChunks L addr n n 0 f) s fun result t => result = (0, f) ∧ t = s := by
  unfold writeChunks
  cases n with
  | zero => exact ⟨rfl, rfl⟩
  | succ turns =>
    have hchunk : maxChunk = 1536 := rfl
    have hlt : (if maxChunk < turns + 1 - 0 then maxChunk else turns + 1 - 0) < 2 ^ 32 := by
      split <;> omega
    dsimp only
    rw [if_pos (Nat.succ_pos turns), ends_bind_iff, ends_locked_iff hf,
      ends_iff_of_ok (writei_of_refused hf hoff hlt _ (Or.inl (Or.inl hbehind)))]
    exact ⟨rfl, rfl⟩

end Chunks

/-- filewrite ends like one writei of all bytes, after which the offset is increased: with the
same value, bytes, size and offset. -/
def Agree (f : File) (n : ℕ) (r : ℤ) (t : Fs) (result : ℤ × File) (t' : Fs) : Prop :=
  result.1 = r ∧ file t' f.ip = file t f.ip ∧
    (t'.icache f.ip).copy.size = (t.icache f.ip).copy.size ∧
    result.2.off = if 0 ≤ r then f.off + n else f.off

section Agreement

variable {L : Layout} {s t t' : Fs} {f : File} {n : ℕ} {addr : ℕ → UInt8}

theorem writei_result (h : Consistent L s) (hf : Opened s f.ip) (hoff : f.off < 2 ^ 32)
    (hn : n < 2 ^ 31) {r : ℤ} (hrun : (writei L f.ip addr f.off n).run s = .ok r t) :
    if f.off ≤ (s.icache f.ip).copy.size ∧ f.off + n ≤ MAXFILE * BSIZE then
      r = n ∧ file t f.ip = write (file s f.ip) f.off (buffer addr 0 n)
    else r = -1 ∧ t = s := by
  split
  · rename_i hin
    obtain ⟨hr, _, _, hfile, _⟩ := (h.ends_writei hf hin.1 hin.2).of_ok hrun
    refine ⟨hr, hfile.trans ?_⟩
    simp only [buffer, Nat.zero_add]
  · rename_i hout
    have hrefused : Refused (s.icache f.ip).copy.size f.off n := by
      by_contra hok
      exact hout (not_refused_iff.mp hok)
    rw [writei_of_refused hf hoff (by omega) addr hrefused] at hrun
    obtain ⟨hr, ht⟩ := EStateM.Result.ok.inj hrun
    exact ⟨hr.symm, ht.symm⟩

theorem filewrite_not_writable {piped : ℤ} (h : f.writable = false) {result : ℤ × File}
    (hrun : (filewrite L piped f addr n).run s = .ok result t) : result = (-1, f) ∧ t = s := by
  unfold filewrite at hrun
  rw [if_pos h] at hrun
  obtain ⟨hr, ht⟩ := EStateM.Result.ok.inj hrun
  exact ⟨hr.symm, ht.symm⟩

theorem ends_filewrite {E : String → Prop} {piped : ℤ} {Q : ℕ × File → Fs → Prop}
    (hwritable : f.writable = true) (hinode : f.type = .inode)
    (hloop : Ends E (writeChunks L addr n n 0 f) s Q) :
    Ends E (filewrite L piped f addr n) s fun result t => ∃ i g, Q (i, g) t ∧
      result = (if i = n then (n : ℤ) else -1, g) := by
  unfold filewrite
  rw [if_neg (by rw [hwritable]; decide), hinode]
  refine ends_bind (hloop.mono fun result u hu => ?_)
  obtain ⟨i, g⟩ := result
  refine ⟨i, g, hu, ?_⟩
  simp only [Nat.cast_inj]

theorem size_eq_of_file_eq {k : Slot} (h : file t' k = file t k) :
    (t'.icache k).copy.size = (t.icache k).copy.size := by
  rw [← length_file, h, length_file]

/-- Inside of the file, filewrite agrees with writei when all bytes fit or the first chunk
does not. -/
theorem agree_inside (h : Consistent L s) (hf : Opened s f.ip)
    (hoff : f.off ≤ (s.icache f.ip).copy.size) (hn : n < 2 ^ 31) {r : ℤ} {result : ℤ × File}
    {i d : ℕ} {g : File}
    (hwrite : if f.off ≤ (s.icache f.ip).copy.size ∧ f.off + n ≤ MAXFILE * BSIZE then
      r = n ∧ file t f.ip = write (file s f.ip) f.off (buffer addr 0 n) else r = -1 ∧ t = s)
    (hchunks : Chunked L addr n 0 f s (i, g) t' d)
    (hresult : result = (if i = n then (n : ℤ) else -1, g)) :
    Agree f n r t result t' ↔ f.off + n ≤ MAXFILE * BSIZE ∨
      MAXFILE * BSIZE < f.off + min maxChunk n := by
  have hall := hchunks.all_iff
  have hsome := hchunks.some_iff
  have hdone : i = 0 + d := hchunks.done
  have hgoff : g.off = f.off + d := hchunks.off
  have hsize := (h.whole_of_opened hf).size_le
  rw [Nat.sub_zero] at hall hsome
  rw [Agree, hresult]
  by_cases hfits : f.off + n ≤ MAXFILE * BSIZE
  · obtain rfl := hall.mpr hfits
    rw [if_pos ⟨hoff, hfits⟩] at hwrite
    obtain ⟨rfl, hfile⟩ := hwrite
    have hsame : file t' f.ip = file t f.ip := by rw [hfile, hchunks.bytes]
    refine iff_of_true ⟨if_pos (by omega), hsame, size_eq_of_file_eq hsame, ?_⟩ (Or.inl hfits)
    rw [if_pos (by omega)]
    exact hgoff
  · rw [if_neg (fun hin => hfits hin.2)] at hwrite
    obtain ⟨rfl, rfl⟩ := hwrite
    have hne : i ≠ n := fun heq => hfits (hall.mp (by omega))
    rw [if_neg hne, if_neg (show ¬(0 : ℤ) ≤ -1 by decide)]
    constructor
    · intro hagree
      have hoffs : g.off = f.off := hagree.2.2.2
      right
      by_contra hle
      have hpos := hsome.mpr ⟨by omega, by omega⟩
      omega
    · intro hlong
      have hzero : d = 0 := by
        by_contra hne
        have hfit := (hsome.mp (by omega)).2
        omega
      have hnone : buffer addr 0 0 = [] := rfl
      have hsame : file t' f.ip = file t f.ip := by
        rw [hchunks.bytes, hzero, hnone, write_nil (by rw [length_file]; exact hoff)]
      refine ⟨rfl, hsame, size_eq_of_file_eq hsame, ?_⟩
      rw [hgoff, hzero]
      rfl

end Agreement

/-- Where neither ends in a panic, filewrite of n bytes to an inode agrees with one writei
exactly when: the file is writable, the offset is not behind the end for an empty write, and
the offset is behind the end, or all bytes fit in the largest file, or already the first chunk
does not; or the file is not writable and writei is refused. -/
theorem chunked_write_agrees_iff {L : Layout} {s t t' : Fs} (h : Consistent L s) {f : File}
    (hinode : f.type = .inode) (hf : Opened s f.ip) (hoff : f.off < 2 ^ 32) {n : ℕ}
    (hn : n < 2 ^ 31) (addr : ℕ → UInt8) {piped r : ℤ} {result : ℤ × File}
    (hwrite : (writei L f.ip addr f.off n).run s = .ok r t)
    (hfile : (filewrite L piped f addr n).run s = .ok result t') :
    Agree f n r t result t' ↔
      if f.writable = true then
        (0 < n ∨ f.off ≤ (s.icache f.ip).copy.size) ∧
          ((s.icache f.ip).copy.size < f.off ∨ f.off + n ≤ MAXFILE * BSIZE ∨
            MAXFILE * BSIZE < f.off + min maxChunk n)
      else (s.icache f.ip).copy.size < f.off ∨ MAXFILE * BSIZE < f.off + n := by
  have hsingle := writei_result h hf hoff hn hwrite
  by_cases hwritable : f.writable = true
  · rw [if_pos hwritable]
    by_cases hbehind : (s.icache f.ip).copy.size < f.off
    · rw [if_neg (by omega)] at hsingle
      obtain ⟨rfl, rfl⟩ := hsingle
      have hloop : Ends Full (writeChunks L addr n n 0 f) t _ :=
        ends_writeChunks_behind hf hbehind hoff hn
      obtain ⟨i, g, ⟨hpair, rfl⟩, rfl⟩ := (ends_filewrite hwritable hinode hloop).of_ok hfile
      obtain ⟨rfl, rfl⟩ := Prod.mk.inj hpair
      by_cases hzero : n = 0
      · refine iff_of_false (fun hagree => ?_) (by omega)
        have hvalue : (if 0 = n then (n : ℤ) else -1) = -1 := hagree.1
        rw [if_pos hzero.symm] at hvalue
        omega
      · refine iff_of_true ⟨if_neg (Ne.symm hzero), rfl, rfl, rfl⟩ (by omega)
    · have hinside : f.off ≤ (s.icache f.ip).copy.size := by omega
      have hloop : Ends Full (writeChunks L addr n n 0 f) s _ :=
        ends_writeChunks h hf hinside (Nat.zero_le n) (Nat.le_add_left n 0)
      obtain ⟨i, g, ⟨d, hchunks⟩, hresult⟩ := (ends_filewrite hwritable hinode hloop).of_ok hfile
      rw [agree_inside h hf hinside hn hsingle hchunks hresult]
      omega
  · rw [if_neg hwritable]
    obtain ⟨rfl, rfl⟩ := filewrite_not_writable (Bool.eq_false_of_not_eq_true hwritable) hfile
    split at hsingle
    · refine iff_of_false (fun hagree => ?_) (by omega)
      have hvalue : -1 = r := hagree.1
      omega
    · obtain ⟨rfl, rfl⟩ := hsingle
      exact iff_of_true ⟨rfl, rfl, rfl, rfl⟩ (by omega)

abbrev firstSlot : Slot := ⟨0, by decide⟩

/-- Three bytes to an empty file. -/
theorem chunked_write_agrees_three :
    ∃ t result t', Agree ⟨.inode, true, firstSlot, 0⟩ 3 3 t result t' := by
  let f : File := ⟨.inode, true, firstSlot, 0⟩
  let addr : ℕ → UInt8 := fun i => i.toUInt8
  have hf : Opened openFile f.ip := ⟨by decide, by decide, by decide⟩
  have hwrite : (match (writei smallDisk f.ip addr f.off 3).run openFile with
      | .ok r _ => decide (r = 3)
      | .error _ _ => false) = true := by decide +kernel
  have hfile : (match (filewrite smallDisk 0 f addr (3 : ℕ)).run openFile with
      | .ok _ _ => true
      | .error _ _ => false) = true := by decide +kernel
  cases hrun : (writei smallDisk f.ip addr f.off 3).run openFile with
  | error e t =>
    rw [hrun] at hwrite
    cases hwrite
  | ok r t =>
    rw [hrun] at hwrite
    obtain rfl : r = 3 := of_decide_eq_true hwrite
    cases hrun' : (filewrite smallDisk 0 f addr (3 : ℕ)).run openFile with
    | error e t' =>
      rw [hrun'] at hfile
      cases hfile
    | ok result t' =>
      exact ⟨t, result, t', (chunked_write_agrees_iff openFile_consistent rfl hf (by decide)
        (by decide) addr hrun hrun').mpr (by decide)⟩

def largeDisk : Layout where
  size := 150
  ninodes := 3
  dataStart := 2
  dataStart_pos := Nat.two_pos
  dataStart_le := by decide
  size_lt := by decide

/-- A file of 137 blocks, three less than the largest one: 12 direct ones, the indirect block
14 and 125 entries in it. -/
def longInode : Dinode :=
  { Dinode.fresh T_FILE with size := 70144, addrs := fun j => j.val + 2 }

def longFile : Fs where
  bitmap b := decide (b < 140)
  dinodes i := if i = 1 then longInode else Dinode.fresh 0
  blocks b := fun p =>
    if b = 14 ∧ p.val % 4 = 0 ∧ p.val < 500 then (p.val / 4 + 15).toUInt8 else 0
  icache k :=
    if k.val = 0 then { inum := 1, ref := 1, valid := true, copy := longInode }
    else { inum := 0, ref := 0, valid := false, copy := Dinode.fresh 0 }

theorem longInode_whole : Whole longFile.blocks longInode := by
  refine ⟨by decide, fun i hi => ?_⟩
  have haddr : ∀ bn < 137, addrAt longFile.blocks longInode bn ≠ 0 := by decide +kernel
  have hlt : i < 70144 := hi
  exact haddr (i / 512) (by omega)

theorem longFile_consistent : Consistent largeDisk longFile where
  clean := by decide +kernel
  distinct := by decide +kernel
  inum_lt := by decide +kernel
  marked := ⟨by decide +kernel, by decide +kernel, by decide +kernel⟩
  whole := by
    intro i _ htype
    have hone : i = 1 := by
      by_contra hne
      simp [longFile, hne, Dinode.fresh, T_FILE, T_DIR] at htype
    rw [hone]
    exact longInode_whole

/-- The last three blocks and one byte more: writei is refused, but filewrite returns -1 after
the file has got three blocks longer and the offset has passed them. -/
theorem filewrite_partial :
    let f : File := ⟨.inode, true, firstSlot, 70144⟩
    let addr : ℕ → UInt8 := fun _ => 1
    Consistent largeDisk longFile ∧ Opened longFile firstSlot ∧
      (writei largeDisk firstSlot addr 70144 1537).run longFile = .ok (-1) longFile ∧
      ∃ g t, (filewrite largeDisk 0 f addr 1537).run longFile = .ok (-1, g) t ∧
        g.off = 71680 ∧ (longFile.icache firstSlot).copy.size = 70144 ∧
        (t.icache firstSlot).copy.size = 71680 := by
  intro f addr
  have hf : Opened longFile firstSlot := ⟨by decide, by decide, by decide⟩
  have hrefused : Refused (longFile.icache firstSlot).copy.size 70144 1537 := by decide
  refine ⟨longFile_consistent, hf, writei_of_refused hf (by decide) (by decide) addr hrefused, ?_⟩
  have hdone : (match (filewrite largeDisk 0 f addr 1537).run longFile with
      | .ok (r, g) t => decide (r = -1 ∧ g.off = 71680 ∧ (t.icache firstSlot).copy.size = 71680)
      | .error _ _ => false) = true := by decide +kernel
  cases hrun : (filewrite largeDisk 0 f addr 1537).run longFile with
  | error e t =>
    rw [hrun] at hdone
    cases hdone
  | ok result t =>
    rw [hrun] at hdone
    obtain ⟨r, g⟩ := result
    obtain ⟨rfl, hoff, hsize⟩ := of_decide_eq_true hdone
    exact ⟨g, t, rfl, hoff, rfl, hsize⟩

end KernelLabs.FileWrite

import KernelLabs.DirNames
import KernelLabs.FileSystem

/-!
Directories as files of entries: dirlookup and dirlink of fs.c, and the write with which
sys_unlink clears an entry. An entry is a struct dirent of 16 bytes, a ushort and the name. The
functions work on the bytes that readi and writei move; an entry with the inode number 0 is not
in use.
-/
namespace KernelLabs.DirFiles

open PanicMonad DiskBlocks BlockRuns FileBytes FileSystem FlatFiles DirNames SlotLists Function List

abbrev DIRENT : ℕ := 16

def inumOf (de : List UInt8) : ℕ := (de.getD 0 0).toNat + 256 * (de.getD 1 0).toNat

def nameOf (de : List UInt8) : Pointer := fun i => de.getD (2 + i) 0

/-- The entry that dirlink fills in; the number is stored as a ushort. -/
def dirent (name : Pointer) (inum : ℕ) : List UInt8 :=
  inum.toUInt8 :: (inum / 256).toUInt8 :: strncpy name DIRSIZ 0

def search (L : Layout) (dp : Slot) (name : Pointer) : ℕ → ℕ → FsM (Option (ℕ × ℕ))
  | 0, off => do
    if off < ((← get).icache dp).copy.size then throw "dirlookup: turns" else return none
  | turns + 1, off => do
    if off < ((← get).icache dp).copy.size then
      let (r, de) ← readi L [] dp off DIRENT
      if r ≠ DIRENT then throw "dirlookup read"
      else if inumOf de = 0 then search L dp name turns (off + DIRENT)
      else if namecmp name (nameOf de) = 0 then return some (off, inumOf de)
      else search L dp name turns (off + DIRENT)
    else return none

def dirlookup (L : Layout) (dp : Slot) (name : Pointer) : FsM (Option (ℕ × Slot)) := do
  let d := ((← get).icache dp).copy
  if d.type ≠ T_DIR then throw "dirlookup not DIR"
  else
    match ← search L dp name d.size 0 with
    | none => return none
    | some (off, inum) =>
      let ip ← iget inum
      return some (off, ip)

def emptyEntry (L : Layout) (dp : Slot) : ℕ → ℕ → FsM ℕ
  | 0, off => do
    if off < ((← get).icache dp).copy.size then throw "dirlink: turns" else return off
  | turns + 1, off => do
    if off < ((← get).icache dp).copy.size then
      let (r, de) ← readi L [] dp off DIRENT
      if r ≠ DIRENT then throw "dirlink read"
      else if inumOf de = 0 then return off
      else emptyEntry L dp turns (off + DIRENT)
    else return off

def dirlink (L : Layout) (dp : Slot) (name : Pointer) (inum : ℕ) : FsM ℤ := do
  match ← dirlookup L dp name with
  | some (_, ip) =>
    iputHolding dp ip
    return -1
  | none =>
    let off ← emptyEntry L dp ((← get).icache dp).copy.size 0
    let r ← writei L dp (fun i => (dirent name inum).getD i 0) off DIRENT
    if r ≠ DIRENT then throw "dirlink" else return 0

/-- The part of sys_unlink that clears the entry with a name. -/
def clearEntry (L : Layout) (dp : Slot) (name : Pointer) : FsM Unit := do
  match ← search L dp name ((← get).icache dp).copy.size 0 with
  | none => return ()
  | some (off, _) =>
    let r ← writei L dp (fun _ => 0) off DIRENT
    if r ≠ DIRENT then throw "unlink: writei"

/-! ### Entries -/

def entries (s : Fs) (dp : Slot) : List (List UInt8) := records DIRENT (file s dp)

def free (de : List UInt8) : Bool := decide (inumOf de = 0)

def key (de : List UInt8) : Option (List UInt8) :=
  if inumOf de = 0 then none else some (cname (nameOf de))

def find (name : Pointer) : List (List UInt8) → ℕ → Option (ℕ × ℕ)
  | [], _ => none
  | de :: rest, off =>
    if key de = some (cname name) then some (off, inumOf de) else find name rest (off + DIRENT)

section Entries

variable {name name' : Pointer} {de : List UInt8} {es : List (List UInt8)} {inum off : ℕ}

end Entries

/-! ### Runs -/

/-- The caller holds the lock of a directory that consists of whole entries. -/
structure Directory (L : Layout) (s : Fs) (dp : Slot) : Prop where
  consistent : Consistent L s
  opened : Opened s dp
  dir : (s.icache dp).copy.type = T_DIR
  whole : DIRENT ∣ (file s dp).length

section Loops

variable {L : Layout} {s t : Fs} {dp : Slot} {name : Pointer} {inum : ℕ}

variable (h : Directory L s dp)

include h

theorem Directory.size_eq : (s.icache dp).copy.size = DIRENT * (entries s dp).length := by
  rw [entries, length_records, Nat.mul_div_cancel' h.whole, length_file]

theorem Directory.lt_size_iff {j : ℕ} :
    DIRENT * j < (s.icache dp).copy.size ↔ j < (entries s dp).length := by
  rw [h.size_eq]
  exact Nat.mul_lt_mul_left (by decide)

theorem Directory.length_le : (entries s dp).length ≤ (s.icache dp).copy.size := by
  rw [h.size_eq]
  exact Nat.le_mul_of_pos_left _ (by decide)

theorem Directory.size_le : (s.icache dp).copy.size ≤ MAXFILE * BSIZE :=
  (h.consistent.whole_of_opened h.opened).size_le

theorem Directory.returns_readi {j : ℕ} (hj : j < (entries s dp).length) :
    Returns (readi L [] dp (DIRENT * j) DIRENT) s fun r t =>
      r = ((DIRENT : ℤ), (entries s dp)[j]) ∧ t = s := by
  have hmax := maxfile_lt
  have hle := h.size_le
  have hj' : j < (file s dp).length / DIRENT := by
    rw [← length_records]
    exact hj
  have hrecord : (entries s dp)[j] = read (file s dp) (DIRENT * j) DIRENT := by
    apply Option.some.inj
    rw [← getElem?_eq_getElem hj, entries, getElem?_records hj']
  have hlt := h.lt_size_iff.mpr hj
  have hdirent : DIRENT = 16 := rfl
  have hin : ¬Outside (s.icache dp).copy.size (DIRENT * j) DIRENT := by
    unfold Outside
    omega
  have hoff : DIRENT * j < 2 ^ 32 := by omega
  have hrun : (readi L [] dp (DIRENT * j) DIRENT).run s = _ :=
    readi_eq h.consistent h.opened [] hoff (by decide)
  rw [if_neg hin, length_record h.whole hj'] at hrun
  exact ⟨_, _, hrun, by rw [hrecord], rfl⟩

theorem Directory.returns_search (name : Pointer) {turns j : ℕ}
    (hturns : (entries s dp).length ≤ j + turns) :
    Returns (search L dp name turns (DIRENT * j)) s fun r t =>
      r = find name ((entries s dp).drop j) (DIRENT * j) ∧ t = s := by
  induction turns generalizing j with
  | zero =>
    unfold search
    rw [returns_get_bind, if_neg (h.lt_size_iff.not.mpr (by omega)), returns_pure,
      drop_of_length_le (by omega), find]
    exact ⟨rfl, rfl⟩
  | succ turns ih =>
    unfold search
    rw [returns_get_bind]
    by_cases hj : j < (entries s dp).length
    · rw [if_pos (h.lt_size_iff.mpr hj), drop_eq_getElem_cons hj, find]
      refine returns_bind ((h.returns_readi hj).mono fun r t ht => ?_)
      obtain ⟨rfl, rfl⟩ := ht
      set de := (entries t dp)[j]
      have hnext := ih (j := j + 1) (by omega)
      dsimp only
      rw [if_neg (not_not.mpr rfl)]
      by_cases hfree : inumOf de = 0
      · have hkey : key de ≠ some (cname name) := by rw [key, if_pos hfree]; nofun
        rw [if_pos hfree, if_neg hkey]
        exact hnext
      · have hkey : key de = some (cname (nameOf de)) := if_neg hfree
        rw [if_neg hfree]
        by_cases hname : cname name = cname (nameOf de)
        · rw [if_pos ((namecmp_eq_zero_iff ..).mpr hname), if_pos (by rw [hkey, hname]),
            returns_pure]
          exact ⟨rfl, rfl⟩
        · have hother : key de ≠ some (cname name) := by
            rw [hkey, Ne, Option.some.injEq]
            exact Ne.symm hname
          rw [if_neg (fun heq => hname ((namecmp_eq_zero_iff ..).mp heq)), if_neg hother]
          exact hnext
    · rw [if_neg (h.lt_size_iff.not.mpr hj), returns_pure, drop_of_length_le (by omega), find]
      exact ⟨rfl, rfl⟩

end Loops

structure Untouched (s t : Fs) : Prop where
  bitmap : t.bitmap = s.bitmap
  dinodes : t.dinodes = s.dinodes
  blocks : t.blocks = s.blocks
  used : ∀ k, 0 < (s.icache k).ref → t.icache k = s.icache k
  unused : ∀ k, (s.icache k).ref = 0 → (t.icache k).ref = 0

def CacheFull (e : String) : Prop := e = "iget: no inodes"

section Writes

variable {L : Layout} {s t : Fs} {dp : Slot} {name : Pointer} {inum : ℕ}

theorem Untouched.used_of_ref (h : Untouched s t) {k : Slot} (hk : 0 < (t.icache k).ref) :
    0 < (s.icache k).ref ∧ t.icache k = s.icache k := by
  have href : 0 < (s.icache k).ref := by
    by_contra hzero
    have := h.unused k (by omega)
    omega
  exact ⟨href, h.used k href⟩

theorem Untouched.consistent (h : Untouched s t) (hs : Consistent L s) : Consistent L t where
  clean := by
    intro k hk hvalid
    obtain ⟨href, heq⟩ := h.used_of_ref hk
    rw [heq] at hvalid ⊢
    rw [h.dinodes]
    exact hs.clean k href hvalid
  distinct := by
    intro k k' hk hk' hinum
    obtain ⟨href, heq⟩ := h.used_of_ref hk
    obtain ⟨href', heq'⟩ := h.used_of_ref hk'
    rw [heq, heq'] at hinum
    exact hs.distinct k k' href href' hinum
  inum_lt := by
    intro k hk
    obtain ⟨href, heq⟩ := h.used_of_ref hk
    rw [heq]
    exact hs.inum_lt k href
  marked := by
    have htotal : total L t = total L s := by rw [total, total, h.dinodes, h.blocks]
    rw [htotal, h.bitmap]
    exact hs.marked
  whole := by
    rw [h.dinodes, h.blocks]
    exact hs.whole

theorem ends_iput_setInode {E : String → Prop} {k : Slot} {ip : Inode}
    (hkeep : ¬(ip.valid = true ∧ ip.copy.nlink = 0 ∧ ip.ref = 1)) :
    Ends E (iput k) (s.setInode k ip) fun _ u => u = s.setInode k { ip with ref := ip.ref - 1 } := by
  have hslot : (s.setInode k ip).icache k = ip := update_self ..
  unfold iput
  rw [ends_get_bind]
  dsimp only
  rw [hslot, if_neg hkeep, ends_modify, hslot]
  simp only [Fs.setInode, update_idem]

/-- iget followed by iput of the same inode frees nothing: the count was at least two, or the
entry was not valid. The inodes in use keep their numbers. -/
theorem ends_iget_iput (i : ℕ) :
    Ends CacheFull (iget i) s fun k t => (t.icache k).inum = i ∧
      (∀ k', 0 < (s.icache k').ref → (t.icache k').inum = (s.icache k').inum) ∧
      Ends CacheFull (iput k) t fun _ u => Untouched s u := by
  unfold iget
  rw [ends_get_bind]
  split
  · rename_i k hk
    obtain ⟨href, hinum⟩ := of_decide_eq_true (Fin.find?_eq_some_iff.mp hk).1
    rw [ends_set_bind, ends_pure]
    refine ⟨?_, fun k' _ => ?_, (ends_iput_setInode ?_).mono ?_⟩
    · simpa only [Fs.setInode, update_self] using hinum
    · by_cases hk' : k' = k
      · simp only [hk', Fs.setInode, update_self]
      · simp only [Fs.setInode, update_of_ne hk']
    · simp only
      omega
    · rintro _ u rfl
      simp only [Fs.setInode, Nat.add_sub_cancel, update_eq_self]
      exact ⟨rfl, rfl, rfl, fun _ _ => rfl, fun _ hzero => hzero⟩
  · split
    · rw [ends_throw]
      rfl
    · rename_i k hk
      have hfree : (s.icache k).ref = 0 := of_decide_eq_true (Fin.find?_eq_some_iff.mp hk).1
      have hne (k' : Slot) (href : 0 < (s.icache k').ref) : k' ≠ k := by
        rintro rfl
        omega
      rw [ends_set_bind, ends_pure]
      refine ⟨?_, fun k' href => ?_, (ends_iput_setInode ?_).mono ?_⟩
      · simp only [Fs.setInode, update_self]
      · simp only [Fs.setInode, update_of_ne (hne k' href)]
      · rintro ⟨hvalid, -⟩
        cases hvalid
      · rintro _ u rfl
        refine ⟨rfl, rfl, rfl, fun k' href => update_of_ne (hne k' href) _ _, fun k' hzero => ?_⟩
        by_cases hk' : k' = k
        · simp only [hk', Fs.setInode, update_self]
        · simpa only [Fs.setInode, update_of_ne hk'] using hzero

/-- An entry is written over another one or behind the last one. -/
theorem Directory.ends_writei (h : Directory L s dp) {src : ℕ → UInt8} {de : List UInt8}
    (hsrc : (List.range DIRENT).map src = de) {j : ℕ} (hj : j ≤ (entries s dp).length)
    (hend : DIRENT * j + DIRENT ≤ MAXFILE * BSIZE) :
    Ends Full (writei L dp src (DIRENT * j) DIRENT) s fun r t =>
      r = DIRENT ∧ Directory L t dp ∧ entries t dp =
        if j < (entries s dp).length then (entries s dp).set j de else entries s dp ++ [de] := by
  have hoff : DIRENT * j ≤ (s.icache dp).copy.size := by
    rw [h.size_eq]
    exact Nat.mul_le_mul_left _ hj
  have hde : de.length = DIRENT := by rw [← hsrc, length_map, length_range]
  refine (h.consistent.ends_writei h.opened hoff hend).mono fun r t ht => ?_
  obtain ⟨hr, ht, hslots, hfile, _⟩ := ht
  rw [hsrc] at hfile
  rw [entries, length_records] at hj
  refine ⟨hr, ⟨ht, hslots.opened h.opened, ?_, ?_⟩, ?_⟩
  · rw [(hslots dp).2.2.2]
    exact h.dir
  · have hnext : DIRENT ∣ DIRENT * j + DIRENT := Dvd.intro (j + 1) rfl
    rw [hfile, length_write (by rw [length_file]; exact hoff), hde]
    rcases Nat.le_total (file s dp).length (DIRENT * j + DIRENT) with hle | hle
    · rw [Nat.max_eq_right hle]
      exact hnext
    · rw [Nat.max_eq_left hle]
      exact h.whole
  · rw [entries, hfile, records_write (by decide) h.whole hde hj, entries, length_records]

end Writes

/-! ### Calls -/

/-- What dirlookup finds for a name: the offset and the inode, unless the cache of inodes is
full. -/
structure Lookup (L : Layout) (s : Fs) (dp : Slot) (name : Pointer) (found : Option (ℕ × ℕ)) :
    Prop where
  search : (search L dp name (s.icache dp).copy.size 0).run s = .ok found s
  result : Ends CacheFull (dirlookup L dp name) s fun r t =>
    r.map (fun p => (p.1, (t.icache p.2).inum)) = found

def Distinct (s : Fs) (dp : Slot) : Prop := ((entries s dp).filterMap key).Nodup

def Taken (s : Fs) (dp : Slot) (name : Pointer) : Prop :=
  cname name ∈ (entries s dp).filterMap key

variable {E : String → Prop}

section Calls

variable {L : Layout} {s t : Fs} {dp : Slot} {name : Pointer} {inum : ℕ}

theorem Directory.search_eq (h : Directory L s dp) (name : Pointer) :
    (search L dp name (s.icache dp).copy.size 0).run s = .ok (find name (entries s dp) 0) s := by
  have hrun : Returns (search L dp name (s.icache dp).copy.size (DIRENT * 0)) s _ :=
    h.returns_search name (by rw [Nat.zero_add]; exact h.length_le)
  obtain ⟨r, t, hrun, hr, ht⟩ := hrun
  rw [hr, ht] at hrun
  exact hrun

/-- dirlookup is the search among the entries, and iget of the inode that it finds. -/
theorem Directory.ends_dirlookup_iff (h : Directory L s dp) (name : Pointer)
    {Q : Option (ℕ × Slot) → Fs → Prop} :
    Ends E (dirlookup L dp name) s Q ↔
      match find name (entries s dp) 0 with
      | none => Q none s
      | some (off, i) => Ends E (iget i) s fun k t => Q (some (off, k)) t := by
  unfold dirlookup
  rw [ends_get_bind, if_neg (not_not.mpr h.dir), ends_bind_iff, ends_iff_of_ok (h.search_eq name)]
  cases find name (entries s dp) 0 with
  | none => exact ends_pure _
  | some found => exact ends_bind_iff

theorem Directory.lookup (h : Directory L s dp) (name : Pointer) :
    Lookup L s dp name (find name (entries s dp) 0) := by
  refine ⟨h.search_eq name, (h.ends_dirlookup_iff name).mpr ?_⟩
  cases find name (entries s dp) 0 with
  | none => rfl
  | some found =>
    refine (ends_iget_iput found.2).mono fun k t ht => ?_
    rw [Option.map_some, ht.1]

section

variable (h : Directory L s dp)

include h

end

def cleared : List UInt8 := replicate DIRENT 0

end Calls

/-! ### Sequences of calls -/

inductive Op where
  | link (name : Pointer) (inum : ℕ)
  | clear (name : Pointer)

def Op.run (L : Layout) (dp : Slot) : Op → FsM Unit
  | .link name inum => do
    let _ ← dirlink L dp name inum
  | .clear name => clearEntry L dp name

section Sequences

variable {L : Layout} {s t : Fs} {dp : Slot} {name : Pointer} {inum : ℕ}

end Sequences

/-! ### Directories as maps -/

/-- dirlink of a name fails exactly when the name is taken, and then only entries of the inode
cache that are not in use have changed. Otherwise the name is found with its inode, and what is
found for the other names stays. -/
def Links (L : Layout) (t : Fs) (dp : Slot) (name : Pointer) (inum : ℕ) : Prop :=
  ∃ r u, (dirlink L dp name inum).run t = .ok r u ∧ (r = -1 ↔ Taken t dp name) ∧
    (r = -1 → Untouched t u) ∧
    (r ≠ -1 → r = 0 ∧ Distinct u dp ∧ (∃ off, Lookup L u dp name (some (off, inum))) ∧
      ∀ name' found, cname name' ≠ cname name →
        (Lookup L u dp name' found ↔ Lookup L t dp name' found))

section Maps

variable {L : Layout} {s t : Fs} {dp : Slot} {name : Pointer} {inum : ℕ}

end Maps

def dot : Pointer := fun i => if i = 0 then 46 else 0

end KernelLabs.DirFiles

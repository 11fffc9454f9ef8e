import KernelLabs.ByteWords
import KernelLabs.MachineWords
import KernelLabs.PanicMonad
import Mathlib.Data.Fintype.Basic

/-!
The block and inode layers of fs.c: the allocator of disk blocks, the inodes on the
disk, their copies in the inode cache, and the content of a file with its direct and
indirect block addresses. A function runs in a state monad whose errors are the
kernel's panics. A `struct inode *` is the index of its icache entry.

The superblock keeps the bitmap, the inodes and the data in regions of their own, and
so does the model: the bit of a block, the inode of a number and the bytes of a block
are three maps. The bytes of an indirect block are read as 32-bit words, as the
source does. There is one device. Locks, the buffer cache and the log do not show:
an operation runs to its end with the locks of the inode it works on, and a buffer
holds what the block holds. The reference count of a cache entry is bounded by the
open files and processes, so it is a natural number here.
-/
namespace KernelLabs.DiskBlocks

open ByteWords MachineWords PanicMonad Function

abbrev BSIZE : ℕ := 512

abbrev NDIRECT : ℕ := 12

abbrev NINDIRECT : ℕ := 128

abbrev MAXFILE : ℕ := NDIRECT + NINDIRECT

abbrev NINODE : ℕ := 50

abbrev NDEV : ℤ := 10

abbrev CONSOLE : ℤ := 1

abbrev T_DIR : ℤ := 1

abbrev T_FILE : ℤ := 2

abbrev T_DEV : ℤ := 3

abbrev Block := Fin BSIZE → UInt8

namespace Block

def zero : Block := fun _ => 0

def uints (a : Block) : Fin NINDIRECT → ℕ := word (n := NINDIRECT) a

def setUint (a : Block) (j : Fin NINDIRECT) (v : ℕ) : Block := setWord (n := NINDIRECT) a j v

def memmove (a : Block) (dst : ℕ) (src : ℕ → UInt8) (m : ℕ) : Block := fun p =>
  if dst ≤ p.val ∧ p.val < dst + m then src (p.val - dst) else a p

def byte (a : Block) (i : ℕ) : UInt8 := a (Fin.ofNat BSIZE i)

theorem uints_zero : zero.uints = fun _ => 0 := word_zero (n := NINDIRECT)

theorem uints_setUint {a : Block} {j : Fin NINDIRECT} {v : ℕ} (hv : v < 2 ^ 32) :
    (a.setUint j v).uints = update a.uints j v := word_setWord (n := NINDIRECT) hv

end Block

/-- What the superblock says: the blocks below `dataStart` hold the boot block, the
superblock, the log, the inodes and the bitmap. balloc counts blocks in an int. -/
structure Layout where
  size : ℕ
  ninodes : ℕ
  dataStart : ℕ
  dataStart_pos : 0 < dataStart
  dataStart_le : dataStart ≤ size
  size_lt : size < 2 ^ 31

abbrev INDIRECT : Fin (NDIRECT + 1) := Fin.last NDIRECT

structure Dinode where
  type : ℤ
  major : ℤ
  minor : ℤ
  nlink : ℤ
  size : ℕ
  addrs : Fin (NDIRECT + 1) → ℕ
  deriving DecidableEq

structure Inode where
  inum : ℕ
  ref : ℕ
  valid : Bool
  copy : Dinode

abbrev Slot := Fin NINODE

structure Fs where
  bitmap : ℕ → Bool
  dinodes : ℕ → Dinode
  blocks : ℕ → Block
  icache : Slot → Inode

abbrev FsM := EStateM String Fs

namespace Fs

def setInode (s : Fs) (k : Slot) (ip : Inode) : Fs :=
  { s with icache := update s.icache k ip }

def setCopy (s : Fs) (k : Slot) (d : Dinode) : Fs := s.setInode k { s.icache k with copy := d }

def setAddr (s : Fs) (k : Slot) (j : Fin (NDIRECT + 1)) (b : ℕ) : Fs :=
  s.setCopy k
    { (s.icache k).copy with addrs := update (s.icache k).copy.addrs j b }

def setBlock (s : Fs) (b : ℕ) (a : Block) : Fs :=
  { s with blocks := update s.blocks b a }

def setDinode (s : Fs) (i : ℕ) (d : Dinode) : Fs :=
  { s with dinodes := update s.dinodes i d }

def mark (s : Fs) (b : ℕ) (used : Bool) : Fs :=
  { s with bitmap := update s.bitmap b used }

def cached (s : Fs) (inum : ℕ) : Option Slot :=
  Fin.find? fun k => decide (0 < (s.icache k).ref ∧ (s.icache k).inum = inum)

def emptySlot (s : Fs) : Option Slot := Fin.find? fun k => decide ((s.icache k).ref = 0)

end Fs

/-! Blocks. -/

def bzero (bno : ℕ) : FsM Unit := modify fun s => s.setBlock bno Block.zero

def balloc (L : Layout) : FsM ℕ := do
  let s ← get
  match (List.range L.size).find? fun b => !s.bitmap b with
  | none => throw "balloc: out of blocks"
  | some b =>
    set (s.mark b true)
    bzero b
    return b

def bfree (b : ℕ) : FsM Unit := do
  let s ← get
  if s.bitmap b = false then
    throw "freeing free block"
  else
    set (s.mark b false)

/-! Inodes. -/

def iupdate (k : Slot) : FsM Unit :=
  modify fun s => s.setDinode (s.icache k).inum (s.icache k).copy

def iget (inum : ℕ) : FsM Slot := do
  let s ← get
  match s.cached inum with
  | some k =>
    set (s.setInode k { s.icache k with ref := (s.icache k).ref + 1 })
    return k
  | none =>
    match s.emptySlot with
    | none => throw "iget: no inodes"
    | some k =>
      set (s.setInode k { s.icache k with inum := inum, ref := 1, valid := false })
      return k

def Dinode.fresh (type : ℤ) : Dinode where
  type := type
  major := 0
  minor := 0
  nlink := 0
  size := 0
  addrs := fun _ => 0

def ialloc (L : Layout) (type : ℤ) : FsM Slot := do
  let s ← get
  match (List.range' 1 (L.ninodes - 1)).find? fun i => decide ((s.dinodes i).type = 0) with
  | none => throw "ialloc: no inodes"
  | some inum =>
    set (s.setDinode inum (Dinode.fresh type))
    iget inum

def idup (k : Slot) : FsM Slot := do
  modify fun s => s.setInode k { s.icache k with ref := (s.icache k).ref + 1 }
  return k

def ilock (k : Slot) : FsM Unit := do
  let s ← get
  if (s.icache k).ref < 1 then
    throw "ilock"
  else if (s.icache k).valid = false then
    let d := s.dinodes (s.icache k).inum
    set (s.setInode k { s.icache k with copy := d, valid := true })
    if d.type = 0 then
      throw "ilock: no type"

/-! Inode content. -/

/-- The address in a place of addrs, where a block is allocated if there is none. -/
def addrOrAlloc (L : Layout) (k : Slot) (j : Fin (NDIRECT + 1)) : FsM ℕ := do
  let s ← get
  let addr := (s.icache k).copy.addrs j
  if addr = 0 then
    let addr ← balloc L
    modify fun s => s.setAddr k j addr
    return addr
  else
    return addr

/-- The address in a place of an indirect block, where a block is allocated if there
is none. -/
def entryOrAlloc (L : Layout) (ind : ℕ) (j : Fin NINDIRECT) : FsM ℕ := do
  let s ← get
  let addr := (s.blocks ind).uints j
  if addr = 0 then
    let addr ← balloc L
    modify fun s => s.setBlock ind ((s.blocks ind).setUint j addr)
    return addr
  else
    return addr

def bmap (L : Layout) (k : Slot) (bn : ℕ) : FsM ℕ := do
  if h : bn < NDIRECT then
    addrOrAlloc L k ⟨bn, by omega⟩
  else if h : bn - NDIRECT < NINDIRECT then
    let ind ← addrOrAlloc L k INDIRECT
    entryOrAlloc L ind ⟨bn - NDIRECT, h⟩
  else
    throw "bmap: out of range"

def freeDirect (k : Slot) (j : Fin NDIRECT) : FsM Unit := do
  let s ← get
  let addr := (s.icache k).copy.addrs j.castSucc
  if addr = 0 then
    return ()
  else
    bfree addr
    modify fun s => s.setAddr k j.castSucc 0

def freeEntry (a : Fin NINDIRECT → ℕ) (j : Fin NINDIRECT) : FsM Unit := do
  if a j = 0 then
    return ()
  else
    bfree (a j)

def freeIndirect (k : Slot) : FsM Unit := do
  let s ← get
  let addr := (s.icache k).copy.addrs INDIRECT
  if addr = 0 then
    return ()
  else
    (List.finRange NINDIRECT).forM (freeEntry (s.blocks addr).uints)
    bfree addr
    modify fun s => s.setAddr k INDIRECT 0

def itrunc (k : Slot) : FsM Unit := do
  (List.finRange NDIRECT).forM (freeDirect k)
  freeIndirect k
  modify fun s => s.setCopy k { (s.icache k).copy with size := 0 }
  iupdate k

/-- iput of an inode whose lock is free. -/
def iput (k : Slot) : FsM Unit := do
  let ip := (← get).icache k
  if ip.valid = true ∧ ip.copy.nlink = 0 ∧ ip.ref = 1 then
    itrunc k
    modify fun s => s.setCopy k { (s.icache k).copy with type := 0 }
    iupdate k
    modify fun s => s.setInode k { s.icache k with valid := false }
  modify fun s => s.setInode k { s.icache k with ref := (s.icache k).ref - 1 }

/-- iput by a process that holds the lock of the inode `held`. In acquiresleep of that lock the
process would sleep for ever; here the run stops with an error. -/
def iputHolding (held k : Slot) : FsM Unit :=
  if k = held then throw "acquiresleep" else iput k

/-- The loop of readi; it returns the bytes that it moves. -/
def readFrom (L : Layout) (k : Slot) (n : ℕ) : ℕ → ℕ → ℕ → FsM (List UInt8)
  | 0, _, tot => if tot < n then throw "readi: turns" else return []
  | turns + 1, off, tot =>
    if tot < n then do
      let b ← bmap L k (off / BSIZE)
      let m := min (n - tot) (BSIZE - off % BSIZE)
      let a := (← get).blocks b
      let rest ← readFrom L k n turns (off + m) (tot + m)
      return (List.range m).map (fun i => a.byte (off % BSIZE + i)) ++ rest
    else return []

/-- readi: the value that it returns and the bytes at dst. Of the devices only the console has
a read function, which gives bytes of `input`. -/
def readi (L : Layout) (input : List UInt8) (k : Slot) (off n : ℕ) : FsM (ℤ × List UInt8) := do
  let ip := ((← get).icache k).copy
  if ip.type = T_DEV then
    if ip.major < 0 ∨ NDEV ≤ ip.major ∨ ip.major ≠ CONSOLE then
      return (-1, [])
    else
      let bytes := input.take (int32 n).toNat
      return (bytes.length, bytes)
  else if ip.size < off ∨ uint32 (off + n) < off then
    return (-1, [])
  else
    let n := if ip.size < uint32 (off + n) then ip.size - off else n
    let bytes ← readFrom L k n n off 0
    return (int32 n, bytes)

/-- The loop of writei; it returns the offset it ends with. Every turn writes at least
one byte, so the turns do not run out. -/
def writeFrom (L : Layout) (k : Slot) (src : ℕ → UInt8) (n : ℕ) : ℕ → ℕ → ℕ → FsM ℕ
  | 0, off, tot => if tot < n then throw "writei: turns" else return off
  | turns + 1, off, tot =>
    if tot < n then do
      let b ← bmap L k (off / BSIZE)
      let m := min (n - tot) (BSIZE - off % BSIZE)
      modify fun s => s.setBlock b ((s.blocks b).memmove (off % BSIZE) (fun i => src (tot + i)) m)
      writeFrom L k src n turns (off + m) (tot + m)
    else return off

/-- writei. Of the devices only the console has a write function; it takes all bytes. -/
def writei (L : Layout) (k : Slot) (src : ℕ → UInt8) (off n : ℕ) : FsM ℤ := do
  let ip := ((← get).icache k).copy
  if ip.type = T_DEV then
    if ip.major < 0 ∨ NDEV ≤ ip.major ∨ ip.major ≠ CONSOLE then
      return -1
    else
      return int32 n
  else if ip.size < off ∨ uint32 (off + n) < off then
    return -1
  else if MAXFILE * BSIZE < uint32 (off + n) then
    return -1
  else
    let off ← writeFrom L k src n n off 0
    if 0 < n ∧ ip.size < off then
      modify fun s => s.setCopy k { (s.icache k).copy with size := off }
      iupdate k
    return n

end KernelLabs.DiskBlocks

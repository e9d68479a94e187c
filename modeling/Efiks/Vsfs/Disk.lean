import Efiks.Lib.Bytes
import Efiks.Lib.Checked
import Efiks.Lib.Split
import Efiks.Vfs.Error

/-!
# The disk and its records

The block device is a byte-addressed disk read and written in sectors of 512 bytes.
Every sector operation has an outcome of its own: it succeeds, or it fails with the
sector as it was, or (a write) it fails with the sector written.

The records on the disk are the superblock, inodes of 64 bytes and directory entries
of 32 bytes, all little endian.

## Main definitions

* `Mounted` — a mounted file system: the device, the superblock and the inode cache.
* `readSector`, `writeSector` — the block device.
* `INodeInner`, `DirEnt`, `SuperBlock` with `decode` and `bytes`.
-/
namespace Efiks.Vsfs
open Lib Lib.RustM Vfs

/-- `MAGIC`, "VSFS". -/
def magic : UInt32 := 0x56534653
def blockSize : ℕ := 4096
def sectorSize : ℕ := 512
def sectorsPerBlock : ℕ := 8
def directBlocks : ℕ := 12
def indirectBlockEntries : ℕ := 1024

/-- `size_of::<DirEnt>()` and `size_of::<INodeInner>()`. -/
def direntSize : ℕ := 32
def inodeSize : ℕ := 64

/-! ## Records -/

/-- The kind of an inode; a tag on the disk can be neither of the two. -/
inductive FileType
  | directory
  | file
  | other (tag : UInt16)
  deriving DecidableEq

def FileType.ofTag (tag : UInt16) : FileType :=
  if tag = 1 then .directory else if tag = 2 then .file else .other tag

def FileType.tag : FileType → UInt16
  | .directory => 1
  | .file => 2
  | .other tag => tag

structure Metadata where
  dev : UInt32
  sz : UInt32
  deriving DecidableEq

structure INodeInner where
  ty : FileType
  linkCount : UInt16
  metadata : Metadata
  directBlocks : Fin 12 → UInt32
  indirectBlock : UInt32
  deriving DecidableEq

structure DirEnt where
  inum : UInt32
  nameLen : UInt8
  /-- The 27 bytes of name storage. -/
  name : List UInt8
  deriving DecidableEq

structure SuperBlock where
  magic : UInt32
  nblocks : UInt32
  ninodes : UInt32
  inodeBitmapBlock : UInt32
  dataBitmapBlock : UInt32
  inodeTableStart : UInt32
  inodeTableBlocks : UInt32
  dataBlockStart : UInt32
  deriving DecidableEq

def u16At (m : Mem) (a : ℕ) : UInt16 := UInt16.ofNat (m.load a 2)
def u32At (m : Mem) (a : ℕ) : UInt32 := UInt32.ofNat (m.load a 4)

def SuperBlock.decode (m : Mem) (a : ℕ) : SuperBlock where
  magic := u32At m a
  nblocks := u32At m (a + 4)
  ninodes := u32At m (a + 8)
  inodeBitmapBlock := u32At m (a + 12)
  dataBitmapBlock := u32At m (a + 16)
  inodeTableStart := u32At m (a + 20)
  inodeTableBlocks := u32At m (a + 24)
  dataBlockStart := u32At m (a + 28)

/-- The 32 bytes of the superblock. -/
def SuperBlock.bytes (sb : SuperBlock) : ℕ → UInt8 := fun i =>
  Mem.digit ([sb.magic, sb.nblocks, sb.ninodes, sb.inodeBitmapBlock, sb.dataBitmapBlock,
    sb.inodeTableStart, sb.inodeTableBlocks, sb.dataBlockStart].getD (i / 4) 0).toNat (i % 4)

def INodeInner.decode (m : Mem) (a : ℕ) : INodeInner where
  ty := .ofTag (u16At m a)
  linkCount := u16At m (a + 2)
  metadata := ⟨u32At m (a + 4), u32At m (a + 8)⟩
  directBlocks i := u32At m (a + 12 + 4 * i.val)
  indirectBlock := u32At m (a + 60)

/-- The 64 bytes of an inode record. -/
def INodeInner.bytes (n : INodeInner) : ℕ → UInt8 := fun i =>
  if i < 2 then Mem.digit n.ty.tag.toNat i
  else if i < 4 then Mem.digit n.linkCount.toNat (i - 2)
  else if i < 8 then Mem.digit n.metadata.dev.toNat (i - 4)
  else if i < 12 then Mem.digit n.metadata.sz.toNat (i - 8)
  else if h : i < 60 then Mem.digit (n.directBlocks ⟨(i - 12) / 4, by omega⟩).toNat ((i - 12) % 4)
  else Mem.digit n.indirectBlock.toNat (i - 60)

def DirEnt.decode (m : Mem) (a : ℕ) : DirEnt where
  inum := u32At m a
  nameLen := m (a + 4)
  name := (List.range 27).map fun i => m (a + 5 + i)

/-- The 32 bytes of a directory entry. -/
def DirEnt.bytes (d : DirEnt) : ℕ → UInt8 := fun i =>
  if i < 4 then Mem.digit d.inum.toNat i
  else if i = 4 then d.nameLen
  else d.name.getD (i - 5) 0

/-! ## The mounted file system -/

/-- The outcome of one sector operation. -/
inductive Fault
  | none
  | failed
  /-- A write that reports an error although the sector was written. -/
  | failedWritten
  deriving DecidableEq

/-- An in-memory inode. -/
structure INode where
  inum : ℕ
  inner : INodeInner

/-- A mounted file system. An `Arc<INode>` is the number of the object it points to; two
handles share their inode exactly if the numbers agree. -/
structure Mounted where
  disk : Mem
  /-- The outcome of the `n`-th sector operation. -/
  fault : ℕ → Fault
  /-- The number of sector operations so far. -/
  ops : ℕ
  superblock : SuperBlock
  /-- `inode_cache`: the object of an inode number. -/
  cache : ℕ → Option ℕ
  /-- The objects, and the number of the next one. -/
  inodes : ℕ → INode
  next : ℕ

/-- File system code. -/
abbrev FM := RustM Mounted VfsError

/-- The bytes of a sector, zero outside. -/
def sectorAt (disk : Mem) (sector : ℕ) : Mem :=
  fun i => if i < sectorSize then disk (sectorSize * sector + i) else 0

/-- Overwrite a sector with the first 512 bytes of `buf`. -/
def putSector (disk : Mem) (sector : ℕ) (buf : Mem) : Mem :=
  disk.blit (sectorSize * sector) sectorSize buf

/-- The next sector operation, with its outcome. -/
def sectorOp : FM Fault := do
  let fault ← gets fun s => s.fault s.ops
  modify fun s => { s with ops := s.ops + 1 }
  pure fault

/-- `BD::read_sector`. -/
def readSector (sector : ℕ) : FM Mem := do
  let fault ← sectorOp
  if fault = .none then gets fun s => sectorAt s.disk sector else fail .deviceIo

/-- `BD::write_sector`. -/
def writeSector (sector : ℕ) (buf : Mem) : FM Unit := do
  let fault ← sectorOp
  if fault ≠ .failed then modify fun s => { s with disk := putSector s.disk sector buf } else pure ()
  if fault = .none then pure () else fail .deviceIo

end Efiks.Vsfs

import Efiks.Vsfs.Bitmap

/-!
# Directories: opening and creating files

A directory is a file of entries, searched in order. `open` walks the components of a
path; `create` walks them too, and when only the last one is missing it adds an entry to
the directory reached. The new inode, the entry and the grown directory are written one
after the other, and what was allocated is given back when one of the writes fails.

`initialize` checks the magic number of the superblock and reads the root inode, which
then stays in the cache.

## Main definitions

* `readInode` — the cached inode of a number.
* `lookupPathInner`, `openPath`, `create`, `createFile`.
* `mount`, `root` — `initialize` and `Filesystem::root`.
-/
namespace Efiks.Vsfs
open Lib Lib.RustM Vfs

/-! ## Inode records -/

/-- The byte address of an inode record, with the arithmetic of the source. -/
def inodeByteOffset (inodeTableStart inum : ℕ) : FM ℕ := do
  let table ← mulUsize inodeTableStart blockSize
  let record ← mulUsize inum inodeSize
  addUsize table record

/-- The record is read through a raw pointer to its first byte, so all of it has to be in
the sector. -/
def readInodeFromBlock (inodeTableStart inum : ℕ) : FM INodeInner := do
  let offset ← inodeByteOffset inodeTableStart inum
  let buf ← readSector (offset / sectorSize)
  inBounds (offset % sectorSize + inodeSize) sectorSize
  pure (.decode buf (offset % sectorSize))

def writeInodeToBlock (inodeTableStart inum : ℕ) (inner : INodeInner) : FM Unit := do
  let offset ← inodeByteOffset inodeTableStart inum
  if offset % sectorSize + inodeSize > sectorSize then fail .fs
  else do
    let buf ← readSector (offset / sectorSize)
    writeSector (offset / sectorSize) (buf.blit (offset % sectorSize) inodeSize inner.bytes)

/-- A new object for an inode, which enters the cache. -/
def cacheInode (inum : ℕ) (inner : INodeInner) : FM ℕ := do
  let id ← gets Mounted.next
  modify fun s => { s with
    inodes := Function.update s.inodes id ⟨inum, inner⟩
    cache := Function.update s.cache inum (some id)
    next := id + 1 }
  pure id

/-- `read_inode`: the cached inode, which is read from the disk if there is none. The cache is
looked at again before the insertion; a single caller finds it as it was. -/
def readInode (inum : ℕ) : FM ℕ := do
  let cached ← gets fun s => s.cache inum
  match cached with
  | some id => pure id
  | none => do
    let inodeTableStart ← gets fun s => s.superblock.inodeTableStart.toNat
    let inner ← readInodeFromBlock inodeTableStart inum
    cacheInode inum inner

/-! ## Looking up names -/

/-- The loop over the `n` entries from `direntIdx` on. -/
def lookupEntries (inode : INodeInner) (path : List UInt8) : ℕ → ℕ → FM ℕ
  | _, 0 => fail .notFound
  | direntIdx, n + 1 => do
    let direntOffset ← mulUsize direntIdx direntSize
    let blockOffset := direntOffset % blockSize
    let block ← dataBlock inode (direntOffset / blockSize)
    let sector ← blockSector block (blockOffset / sectorSize)
    let buf ← readSector sector
    inBounds (blockOffset % sectorSize + direntSize) sectorSize
    let dirent := DirEnt.decode buf (blockOffset % sectorSize)
    if dirent.nameLen.toNat > dirent.name.length then fail .fs
    else if dirent.name.take dirent.nameLen.toNat = path then readInode dirent.inum.toNat
    else lookupEntries inode path (direntIdx + 1) n

/-- The object of the entry `path` of a directory. -/
def lookupPathInner (inode : INodeInner) (path : List UInt8) : FM ℕ :=
  if inode.ty ≠ .directory then fail .fs
  else if inode.metadata.sz.toNat % direntSize ≠ 0 then fail .fs
  else lookupEntries inode path 0 (inode.metadata.sz.toNat / direntSize)

/-- `current`, or `next` if it is another inode. -/
def follow (current next : ℕ) : FM ℕ :=
  gets fun s => if (s.inodes current).inum ≠ (s.inodes next).inum then next else current

/-- One component of a path: the loops of `open` and `create` share it. -/
def walk (current : ℕ) (path : List UInt8) : FM ℕ := do
  let inode ← gets fun s => (s.inodes current).inner
  let next ← lookupPathInner inode path
  follow current next

/-- The loop of `open`. -/
def openLoop : ℕ → List (List UInt8) → FM ℕ
  | current, [] => pure current
  | current, path :: components => do
    let ty ← gets fun s => (s.inodes current).inner.ty
    if ty = .file then fail .fs
    else do
      let current ← walk current path
      openLoop current components

/-- `VNode::open`: the object of the file at `path`, seen from the object `inode`. -/
def openPath (inode : ℕ) (path : List UInt8) : FM ℕ := openLoop inode (pieces 47 path)

/-! ## Creating files -/

/-- The inode of a new file. -/
def emptyFile : INodeInner := ⟨.file, 1, ⟨0, 0⟩, fun _ => 0, 0⟩

def emptyDirent : DirEnt := ⟨0, 0, List.replicate 27 0⟩

/-- The entry of a new file; the name is padded to the 27 bytes. -/
def newDirent (inum : ℕ) (name : List UInt8) : DirEnt :=
  ⟨UInt32.ofNat inum, UInt8.ofNat name.length, name ++ List.replicate (27 - name.length) 0⟩

def writeDirent (block : UInt32) (blockOffset : ℕ) (dirent : DirEnt) : FM Unit :=
  let sectorIdx := blockOffset / sectorSize
  let sectorOffset := blockOffset % sectorSize
  if sectorIdx ≥ sectorsPerBlock ∨ sectorOffset + direntSize > sectorSize then fail .fs
  else do
    let sector ← blockSector block sectorIdx
    let buf ← readSector sector
    writeSector sector (buf.blit sectorOffset direntSize dirent.bytes)

/-- Best-effort cleanup for resources reserved while creating a file. -/
def freeCreateAllocations (inum : Option ℕ) (dataBlock : Option UInt32) : FM Unit := do
  match inum with
  | some inum => ignoreErr (freeInode inum)
  | none => pure ()
  match dataBlock with
  | some block => ignoreErr (freeDataBlock block)
  | none => pure ()

/-- Run `m`; if it fails, free what was allocated and fail with its error. -/
def orFree {α : Type} (m : FM α) (inum : Option ℕ) (dataBlock : Option UInt32) : FM α :=
  catchErr m fun err => do
    freeCreateAllocations inum dataBlock
    fail err

/-- The block for the new entry, allocated if the directory has none there. -/
def allocateDirBlock (block : UInt32) : FM (Option UInt32) :=
  if block = 0 then some <$> allocateDataBlock else pure none

/-- The parent could not be written: take the entry back. Unless the old parent can be
written, the resources stay allocated, as the disk may refer to them. -/
def restoreParent (inodeTableStart parentInum inum : ℕ) (original : INodeInner) (block : UInt32)
    (blockOffset : ℕ) (allocated : Option UInt32) : FM Unit := do
  ignoreErr (writeDirent block blockOffset emptyDirent)
  let restored ← attempt (writeInodeToBlock inodeTableStart parentInum original)
  match restored with
  | .ok _ => freeCreateAllocations (some inum) allocated
  | .error _ => pure ()

/-- The directory after `create_file`, with the new size and the block of the new entry. -/
def grownParent (original : INodeInner) (blockIdx : Fin 12) (sz : UInt32)
    (allocated : Option UInt32) : INodeInner :=
  { original with
    metadata := { original.metadata with sz := sz }
    directBlocks := match allocated with
      | some block => Function.update original.directBlocks blockIdx block
      | none => original.directBlocks }

/-- The part of `create_file` with allocations: the entry goes to the end of the directory. -/
def addEntry (parent : ℕ) (original : INodeInner) (name : List UInt8) (blockIdx : Fin 12)
    (sz : UInt32) : FM ℕ := do
  let inodeTableStart ← gets fun s => s.superblock.inodeTableStart.toNat
  let parentInum ← gets fun s => (s.inodes parent).inum
  let blockOffset := original.metadata.sz.toNat % blockSize
  let allocated ← allocateDirBlock (original.directBlocks blockIdx)
  let updated := grownParent original blockIdx sz allocated
  let block := updated.directBlocks blockIdx
  let inum ← orFree allocateInode none allocated
  orFree (writeInodeToBlock inodeTableStart inum emptyFile) (some inum) allocated
  orFree (writeDirent block blockOffset (newDirent inum name)) (some inum) allocated
  catchErr (writeInodeToBlock inodeTableStart parentInum updated) fun err => do
    restoreParent inodeTableStart parentInum inum original block blockOffset allocated
    fail err
  modify fun s => { s with inodes := Function.update s.inodes parent ⟨parentInum, updated⟩ }
  cacheInode inum emptyFile

def createFile (parent : ℕ) (name : List UInt8) : FM ℕ :=
  if name = [] ∨ name.length > 27 then fail .fs
  else do
    let original ← gets fun s => (s.inodes parent).inner
    if original.ty ≠ .directory ∨ original.metadata.sz.toNat % direntSize ≠ 0 then fail .fs
    else do
      let found ← attempt (lookupPathInner original name)
      match found with
      | .ok _ => fail .fs
      | .error err =>
        if err ≠ .notFound then fail err
        -- `checked_add`
        else if 2 ^ 32 ≤ original.metadata.sz.toNat + direntSize then fail .fs
        else if h : original.metadata.sz.toNat / blockSize < directBlocks then
          addEntry parent original name ⟨original.metadata.sz.toNat / blockSize, h⟩
            (original.metadata.sz + UInt32.ofNat direntSize)
        else fail .fs

/-- The loop of `create`: the directory reached, the error of the last lookup and the name
that was not found at the end of the path. -/
def createLoop : ℕ → Option VfsError → Option (List UInt8) → List (List UInt8) →
    FM (ℕ × Option VfsError × Option (List UInt8))
  | current, err, leaf, [] => pure (current, err, leaf)
  | current, none, leaf, path :: components => do
    let ty ← gets fun s => (s.inodes current).inner.ty
    if ty = .file then fail .fs
    else do
      let found ← attempt (walk current path)
      match found with
      | .ok next => createLoop next none leaf components
      | .error e =>
        createLoop current (some e)
          (if e = .notFound ∧ components = [] then some path else leaf) components
  | _, some err, _, _ :: _ => fail err

/-- `VNode::create`. -/
def create (inode : ℕ) (path : List UInt8) : FM ℕ := do
  let (current, err, leaf) ← createLoop inode none none (pieces 47 path)
  if err = some .notFound then do
    let leaf ← okOr leaf .fs
    createFile current leaf
  else fail .fs

/-! ## Mounting -/

/-- `initialize`. The file system starts with an empty cache. -/
def mount : FM Unit := do
  let buf ← readSector 0
  let sb := SuperBlock.decode buf 0
  if sb.magic ≠ magic then fail .fs
  else do
    modify fun s => { s with superblock := sb, cache := fun _ => none }
    let _ ← readInode 1

/-- `Filesystem::root`. -/
def root : FM ℕ := do
  let cached ← gets fun s => s.cache 1
  expect cached "root inode always exists"

end Efiks.Vsfs

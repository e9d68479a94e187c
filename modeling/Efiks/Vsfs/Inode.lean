import Efiks.Vsfs.Disk

/-!
# Inodes: blocks, reading and writing

`data_block` resolves a logical block of a file through the direct pointers and the
indirect block. `read` and `write` of a regular file step through it sector by sector;
the block of the last step is remembered, so that the pointers are read once for each
block. Neither changes the size of a file.

A buffer is its bytes and its length. `read` works on a state that holds the buffer,
since a failing read may have filled a part of it.

## Main definitions

* `dataBlock` — the block behind a logical block.
* `read`, `write` — `VNode::read` and `VNode::write`.
-/
namespace Efiks.Vsfs
open Lib Lib.RustM Vfs

/-- `block as usize * SECTORS_PER_BLOCK + sector_in_block`. -/
def blockSector (block : UInt32) (sectorInBlock : ℕ) : FM ℕ := do
  let first ← mulUsize block.toNat sectorsPerBlock
  addUsize first sectorInBlock

/-- The pointer in the indirect block. -/
def indirectPointer (inode : INodeInner) (indirectIndex : ℕ) : FM UInt32 := do
  let pointerOffset ← mulUsize indirectIndex 4
  let sectorInBlock := pointerOffset / sectorSize
  let sectorOffset := pointerOffset % sectorSize
  let sector ← blockSector inode.indirectBlock sectorInBlock
  let sectorBuf ← readSector sector
  inBounds (sectorOffset + 4) sectorSize
  pure (u32At sectorBuf sectorOffset)

/-- The pointer of a logical block of the file, which may be zero. -/
def blockPointer (inode : INodeInner) (logicalBlock : ℕ) : FM UInt32 :=
  if h : logicalBlock < directBlocks then pure (inode.directBlocks ⟨logicalBlock, h⟩)
  else do
    let indirectIndex ← subUsize logicalBlock directBlocks
    if indirectIndex ≥ indirectBlockEntries ∨ inode.indirectBlock = 0 then fail .fs
    else indirectPointer inode indirectIndex

/-- Resolve a block number of the file. -/
def dataBlock (inode : INodeInner) (logicalBlock : ℕ) : FM UInt32 := do
  let block ← blockPointer inode logicalBlock
  if block = 0 then fail .fs else pure block

/-- The block of this step: the remembered one, or a new one. -/
def mapBlock (inode : INodeInner) (mapped : Option (ℕ × UInt32)) (logicalBlock : ℕ) :
    FM UInt32 :=
  match mapped with
  | some (mappedLogicalBlock, block) =>
      if mappedLogicalBlock = logicalBlock then pure block else dataBlock inode logicalBlock
  | none => dataBlock inode logicalBlock

/-- A file system call on the state that also holds the caller's buffer. -/
def onFs {α : Type} (m : FM α) : RustM (Mounted × Mem) VfsError α :=
  zoom Prod.fst (fun fs s => (fs, s.2)) m

/-- The loop of `read`, for a buffer of `len` bytes. -/
def readLoop (inner : INodeInner) (len : ℕ) :
    ℕ → ℕ → ℕ → ℕ → Option (ℕ × UInt32) → RustM (Mounted × Mem) VfsError ℕ
  | fuel, offset, totalRead, remaining, mapped =>
    if remaining = 0 then pure totalRead
    else match fuel with
    | 0 => panic .diverges
    | fuel + 1 => do
      let logicalBlock := offset / blockSize
      let found ← onFs (attempt (mapBlock inner mapped logicalBlock))
      match found with
      | .error err => if totalRead > 0 then pure totalRead else fail err
      | .ok block => do
        let blockOffset := offset % blockSize
        let sectorOffset := blockOffset % sectorSize
        let sector ← onFs (blockSector block (blockOffset / sectorSize))
        let sectorBuf ← onFs (readSector sector)
        let readableFromSector ← onFs (subUsize sectorSize sectorOffset)
        let toCopy := min readableFromSector remaining
        onFs (inBounds (sectorOffset + toCopy) sectorSize)
        onFs (inBounds (totalRead + toCopy) len)
        modify fun s => (s.1, s.2.blit totalRead toCopy fun i => sectorBuf (sectorOffset + i))
        let offset ← onFs (addUsize offset toCopy)
        let totalRead ← onFs (addUsize totalRead toCopy)
        let remaining ← onFs (subUsize remaining toCopy)
        readLoop inner len fuel offset totalRead remaining (some (logicalBlock, block))

/-- `VNode::read` of the inode object `inode` into a buffer of `len` bytes. -/
def read (inode offset len : ℕ) : RustM (Mounted × Mem) VfsError ℕ := do
  let inner ← onFs (gets fun s => (s.inodes inode).inner)
  if inner.ty ≠ .file then fail .fs
  else do
    let fileSize := inner.metadata.sz.toNat
    if offset ≥ fileSize ∨ len = 0 then pure 0
    else do
      let available ← onFs (subUsize fileSize offset)
      let remaining := min len available
      readLoop inner len remaining offset 0 remaining none

/-- The sector buffer before the bytes are copied into it. -/
def sectorToPatch (sector toCopy : ℕ) (sectorBuf : Mem) : FM Mem :=
  if toCopy ≠ sectorSize then readSector sector else pure sectorBuf

/-- The loop of `write`. The sector buffer lives across the steps; a step that overwrites a
whole sector does not read it first. -/
def writeLoop (inner : INodeInner) (buf : Mem) (len : ℕ) :
    ℕ → ℕ → ℕ → ℕ → Option (ℕ × UInt32) → Mem → FM ℕ
  | fuel, offset, totalWritten, remaining, mapped, sectorBuf =>
    if remaining = 0 then pure totalWritten
    else match fuel with
    | 0 => panic .diverges
    | fuel + 1 => do
      let logicalBlock := offset / blockSize
      let found ← attempt (mapBlock inner mapped logicalBlock)
      match found with
      | .error err => if totalWritten > 0 then pure totalWritten else fail err
      | .ok block => do
        let blockOffset := offset % blockSize
        let sectorOffset := blockOffset % sectorSize
        let sector ← blockSector block (blockOffset / sectorSize)
        let writableToSector ← subUsize sectorSize sectorOffset
        let toCopy := min writableToSector remaining
        let sectorBuf ← sectorToPatch sector toCopy sectorBuf
        inBounds (sectorOffset + toCopy) sectorSize
        inBounds (totalWritten + toCopy) len
        let sectorBuf := sectorBuf.blit sectorOffset toCopy fun i => buf (totalWritten + i)
        writeSector sector sectorBuf
        let offset ← addUsize offset toCopy
        let totalWritten ← addUsize totalWritten toCopy
        let remaining ← subUsize remaining toCopy
        writeLoop inner buf len fuel offset totalWritten remaining (some (logicalBlock, block))
          sectorBuf

/-- `VNode::write` of `len` bytes to the inode object `inode`. -/
def write (inode offset : ℕ) (buf : Mem) (len : ℕ) : FM ℕ := do
  let inner ← gets fun s => (s.inodes inode).inner
  if inner.ty ≠ .file then fail .fs
  else do
    let fileSize := inner.metadata.sz.toNat
    if offset ≥ fileSize ∨ len = 0 then pure 0
    else do
      let available ← subUsize fileSize offset
      let remaining := min len available
      writeLoop inner buf len remaining offset 0 remaining none fun _ => 0

/-- `VNode::sz`. -/
def sz (inode : ℕ) : FM ℕ := gets fun s => (s.inodes inode).inner.metadata.sz.toNat

end Efiks.Vsfs

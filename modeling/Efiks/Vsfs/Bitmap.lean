import Efiks.Vsfs.Inode

/-!
# The bitmaps

A bitmap is one block. `allocate_bitmap_bit` looks for the first clear bit of a range,
sector by sector, sets it and writes the sector back; `free_bitmap_bit` clears a bit
that is set. Inode numbers start at 1; the bit of a data block counts from the start of
the data area.

## Main definitions

* `allocateBitmapBit`, `freeBitmapBit`.
* `allocateInode`, `allocateDataBlock`, `freeInode`, `freeDataBlock`.
-/
namespace Efiks.Vsfs
open Lib Lib.RustM Vfs

def bitsPerSector : ℕ := 4096

/-- `1 << (bit % 8)`. -/
def bitMask (bit : ℕ) : UInt8 := 1 <<< UInt8.ofNat (bit % 8)

/-- The loop over the bits of a sector: the first clear one of the `n` bits from `localBit`
on. -/
def scanSector (buf : Mem) : ℕ → ℕ → FM (Option ℕ)
  | _, 0 => pure none
  | localBit, n + 1 => do
    inBounds (localBit / 8 + 1) sectorSize
    if buf (localBit / 8) &&& bitMask localBit = 0 then pure (some localBit)
    else scanSector buf (localBit + 1) n

/-- The loop over the `n` sectors from `sectorOffset` on. -/
def scanBitmap (bitmapBlock : UInt32) (startBit endBit : ℕ) : ℕ → ℕ → FM ℕ
  | _, 0 => fail .fs
  | sectorOffset, n + 1 => do
    let sector ← blockSector bitmapBlock sectorOffset
    let buf ← readSector sector
    let sectorStartBit ← mulUsize sectorOffset bitsPerSector
    let localStart := startBit - sectorStartBit
    let left ← subUsize endBit sectorStartBit
    let localEnd := min left bitsPerSector
    let found ← scanSector buf localStart (localEnd - localStart)
    match found with
    | some localBit => do
      let sector ← blockSector bitmapBlock sectorOffset
      writeSector sector
        (Function.update buf (localBit / 8) (buf (localBit / 8) ||| bitMask localBit))
      addUsize sectorStartBit localBit
    | none => scanBitmap bitmapBlock startBit endBit (sectorOffset + 1) n

def allocateBitmapBit (bitmapBlock : UInt32) (startBit endBit : ℕ) : FM ℕ :=
  let startSector := startBit / bitsPerSector
  let endSector := endBit / bitsPerSector + if endBit % bitsPerSector > 0 then 1 else 0
  if endSector > sectorsPerBlock then fail .fs
  else scanBitmap bitmapBlock startBit endBit startSector (endSector - startSector)

def freeBitmapBit (bitmapBlock : UInt32) (bit : ℕ) : FM Unit := do
  let sectorOffset := bit / bitsPerSector
  if sectorOffset ≥ sectorsPerBlock then fail .fs
  else do
    let byteIdx := bit % bitsPerSector / 8
    let sector ← blockSector bitmapBlock sectorOffset
    let buf ← readSector sector
    inBounds (byteIdx + 1) sectorSize
    if buf byteIdx &&& bitMask bit = 0 then fail .fs
    else writeSector sector (Function.update buf byteIdx (buf byteIdx &&& ~~~bitMask bit))

def allocateInode : FM ℕ := do
  let sb ← gets Mounted.superblock
  allocateBitmapBit sb.inodeBitmapBlock 1 sb.ninodes.toNat

def allocateDataBlock : FM UInt32 := do
  let sb ← gets Mounted.superblock
  let blocks ← subU32 sb.nblocks sb.dataBlockStart
  let bit ← allocateBitmapBit sb.dataBitmapBlock 0 blocks.toNat
  addU32 sb.dataBlockStart (UInt32.ofNat bit)

def freeInode (inum : ℕ) : FM Unit := do
  let sb ← gets Mounted.superblock
  freeBitmapBit sb.inodeBitmapBlock inum

def freeDataBlock (block : UInt32) : FM Unit := do
  let sb ← gets Mounted.superblock
  if block.toNat < sb.dataBlockStart.toNat then fail .fs
  else freeBitmapBit sb.dataBitmapBlock (block - sb.dataBlockStart).toNat

end Efiks.Vsfs

import Efiks.Vsfs.Linked
import Efiks.Vsfs.Write

/-!
# Creating a file

`create` looks for the directory and the name that the path leaves to be added, and
`create_file` adds them. Without device errors a call that fails leaves the disk as it
was, since what was allocated before the failure is given back.

## Main definitions

* `blockDisk`, `linkedDisk` — the disk after the steps of `create_file`.
* `Room` — there is room for one more entry and one more inode.
* `Created` — what a successful call does.

## Main results

* `linked_linkedDisk` — the steps together are `Linked`.
* `wp_createFile`, `wp_create`.
* `create_adds_name` — `create` adds exactly one name.
-/
namespace Efiks.Vsfs
open Lib Lib.RustM Vfs

/-! ## The disk after the writes -/

/-- The disk after the block for the entry was allocated. -/
def blockDisk (disk : Mem) (sb : SuperBlock) : Option UInt32 → Mem
  | none => disk
  | some b => putBit disk sb.dataBitmapBlock (b.toNat - sb.dataBlockStart.toNat) true

/-- The disk after the other steps: the inode is marked, and the new inode, the entry at
`entryAddr` and the directory are written. -/
def linkedDisk (disk : Mem) (sb : SuperBlock) (p m : ℕ) (name : List UInt8) (updated : INodeInner)
    (entryAddr : ℕ) : Mem :=
  (((putBit disk sb.inodeBitmapBlock m true).blit (sb.inodeAddr m) inodeSize emptyFile.bytes).blit
    entryAddr direntSize (newDirent m name).bytes).blit (sb.inodeAddr p) inodeSize updated.bytes

section Places
variable {disk : Mem} {sb : SuperBlock} {p m n a i : ℕ} {name : List UInt8} {updated : INodeInner}
variable {entryAddr : ℕ}

/-- An inode record lies in the inode table. -/
theorem SuperBlock.Laid.inodeAddr_div (h : sb.Laid) (hn : n < sb.ninodes.toNat)
    (hi : i < inodeSize) :
    sb.inodeTableStart.toNat ≤ (sb.inodeAddr n + i) / blockSize ∧
      (sb.inodeAddr n + i) / blockSize < sb.inodeTableStart.toNat + sb.inodeTableBlocks.toNat := by
  have hfits := h.table_fits
  unfold SuperBlock.inodeAddr inodeSize blockSize at *
  omega

theorem bitByte_div (block : UInt32) {k : ℕ} (hk : k < 8 * blockSize) :
    bitByte block k / blockSize = block.toNat := by
  unfold bitByte blockSize at *
  omega

/-- A byte outside of the table. -/
theorem SuperBlock.Laid.notMem_record (h : sb.Laid) (hn : n < sb.ninodes.toNat)
    (ha : a / blockSize < sb.inodeTableStart.toNat ∨
      sb.inodeTableStart.toNat + sb.inodeTableBlocks.toNat ≤ a / blockSize) :
    a < sb.inodeAddr n ∨ sb.inodeAddr n + inodeSize ≤ a := by
  by_contra hin
  obtain ⟨i, rfl⟩ : ∃ i, a = sb.inodeAddr n + i := ⟨a - sb.inodeAddr n, by omega⟩
  have hdiv := h.inodeAddr_div hn (i := i) (by omega)
  omega

/-- Records of different inodes do not overlap. -/
theorem notMem_record_of_ne (hne : n ≠ m) (hi : i < inodeSize) :
    sb.inodeAddr n + i < sb.inodeAddr m ∨ sb.inodeAddr m + inodeSize ≤ sb.inodeAddr n + i := by
  unfold SuperBlock.inodeAddr inodeSize at *
  omega

/-- A place that is in none of the records that are written. -/
theorem linkedDisk_of_notMem (hm : a < sb.inodeAddr m ∨ sb.inodeAddr m + inodeSize ≤ a)
    (hentry : a < entryAddr ∨ entryAddr + direntSize ≤ a)
    (hp : a < sb.inodeAddr p ∨ sb.inodeAddr p + inodeSize ≤ a) :
    linkedDisk disk sb p m name updated entryAddr a = putBit disk sb.inodeBitmapBlock m true a := by
  rw [linkedDisk, Mem.blit_of_notMem hp, Mem.blit_of_notMem hentry, Mem.blit_of_notMem hm]

end Places

/-- The block for the new entry is there, or it is allocated. -/
structure SlotOk (disk : Mem) (sb : SuperBlock) (old : UInt32) (allocated : Option UInt32)
    (block : UInt32) : Prop where
  there : allocated = none → block = old ∧ block ≠ 0
  new : ∀ b, allocated = some b → block = b ∧ old = 0 ∧
    sb.dataBlockStart.toNat ≤ b.toNat ∧ b.toNat < sb.nblocks.toNat ∧
    bitAt disk sb.dataBitmapBlock (b.toNat - sb.dataBlockStart.toNat) = false

section Linking
variable {disk : Mem} {sb : SuperBlock} {p m : ℕ} {name : List UInt8} {allocated : Option UInt32}
variable {block : UInt32}

/-- The block of the new entry lies in the data area. -/
theorem SlotOk.block_range (ht : Tidy disk sb) (hp : Reach disk sb p)
    (hslot : (inodeAt disk sb p).slot < directBlocks)
    (hs : SlotOk disk sb ((inodeAt disk sb p).directBlocks ⟨(inodeAt disk sb p).slot, hslot⟩)
      allocated block) : sb.dataBlockStart.toNat ≤ block.toNat := by
  cases hall : allocated with
  | none =>
    obtain ⟨rfl, hne⟩ := hs.there hall
    have hroom := mt (ht.slot_eq_zero_iff hp hslot).mpr hne
    exact (ht.ref_range p hp _ (slot_mem_refs hslot hroom)).1
  | some b =>
    obtain ⟨rfl, -, hlow, -, -⟩ := hs.new b hall
    exact hlow

theorem bitAt_congr {disk' : Mem} {block : UInt32} {k : ℕ}
    (h : disk' (bitByte block k) = disk (bitByte block k)) :
    bitAt disk' block k = bitAt disk block k := by rw [bitAt, h, bitAt]

/-- The bits of the inode bitmap do not change when a block is allocated. -/
theorem blockDisk_of_ne {a : ℕ}
    (ha : ∀ b, allocated = some b →
      a ≠ bitByte sb.dataBitmapBlock (b.toNat - sb.dataBlockStart.toNat)) :
    blockDisk disk sb allocated a = disk a := by
  cases allocated with
  | none => rfl
  | some b => exact putBit_of_ne true (ha b rfl)

/-- Allocating a block does not touch the inode bitmap. -/
theorem SlotOk.bitAt_inode {old : UInt32} (hlaid : sb.Laid)
    (hs : SlotOk disk sb old allocated block) {k : ℕ} (hk : k < 8 * blockSize) :
    bitAt (blockDisk disk sb allocated) sb.inodeBitmapBlock k =
      bitAt disk sb.inodeBitmapBlock k := by
  have hdiv := bitByte_div sb.inodeBitmapBlock hk
  refine bitAt_congr (blockDisk_of_ne fun b hb heq => ?_)
  obtain ⟨-, -, hlow, hhigh, -⟩ := hs.new b hb
  have hfits := hlaid.data_bitmap_fits
  rw [heq, bitByte_div sb.dataBitmapBlock (by omega)] at hdiv
  exact hlaid.bitmaps_ne (UInt32.toNat_inj.mp hdiv.symm)

variable (ht : Tidy disk sb) (hp : Reach disk sb p) (hdir : (inodeAt disk sb p).ty = .directory)
variable (hslot : (inodeAt disk sb p).slot < directBlocks) (hm : 1 ≤ m ∧ m < sb.ninodes.toNat)
variable (hs : SlotOk disk sb ((inodeAt disk sb p).directBlocks ⟨(inodeAt disk sb p).slot, hslot⟩)
  allocated block)
variable (updated : INodeInner)
include ht hp hdir

omit hp in
/-- The new entry lies in its block. -/
theorem nextEntry_notMem (hp : Reach disk sb p) {a : ℕ} (ha : a / blockSize ≠ block.toNat) :
    a < (inodeAt disk sb p).nextEntry block ∨
      (inodeAt disk sb p).nextEntry block + direntSize ≤ a := by
  have hsize := ht.dir_size p hp hdir
  unfold INodeInner.nextEntry blockSize direntSize at *
  omega

include hm hs

/-- Below the data area and outside of the inode table only bits change. -/
theorem linkedDisk_low {a : ℕ} (hlow : a / blockSize < sb.dataBlockStart.toNat)
    (htable : a / blockSize < sb.inodeTableStart.toNat ∨
      sb.inodeTableStart.toNat + sb.inodeTableBlocks.toNat ≤ a / blockSize) :
    linkedDisk (blockDisk disk sb allocated) sb p m name updated
      ((inodeAt disk sb p).nextEntry block) a =
      putBit (blockDisk disk sb allocated) sb.inodeBitmapBlock m true a := by
  have hblock := hs.block_range ht hp hslot
  exact linkedDisk_of_notMem (ht.laid.notMem_record hm.2 htable)
    (nextEntry_notMem ht hdir hp (by omega))
    (ht.laid.notMem_record (ht.inum_range p hp).2 htable)

theorem bitAt_linkedDisk_inode {k : ℕ} (hk : k < 8 * blockSize) :
    bitAt (linkedDisk (blockDisk disk sb allocated) sb p m name updated
      ((inodeAt disk sb p).nextEntry block)) sb.inodeBitmapBlock k =
      if k = m then true else bitAt disk sb.inodeBitmapBlock k := by
  have hlaid := ht.laid
  have hdiv := bitByte_div sb.inodeBitmapBlock hk
  rw [← hs.bitAt_inode hlaid hk, ← bitAt_putBit]
  refine bitAt_congr (linkedDisk_low ht hp hdir hslot hm hs updated ?_ ?_)
  · rw [hdiv]
    exact hlaid.bitmaps_data.1
  · rw [hdiv]
    exact hlaid.inode_bitmap_table

theorem bitAt_linkedDisk_data {k : ℕ} (hk : k < 8 * blockSize) :
    bitAt (linkedDisk (blockDisk disk sb allocated) sb p m name updated
      ((inodeAt disk sb p).nextEntry block)) sb.dataBitmapBlock k =
      bitAt (blockDisk disk sb allocated) sb.dataBitmapBlock k := by
  have hlaid := ht.laid
  have hdiv := bitByte_div sb.dataBitmapBlock hk
  have hne : bitByte sb.dataBitmapBlock k ≠ bitByte sb.inodeBitmapBlock m := by
    intro heq
    have hm' := bitByte_div sb.inodeBitmapBlock (hm.2.trans_le hlaid.inode_bitmap_fits)
    rw [heq, hm'] at hdiv
    exact hlaid.bitmaps_ne (UInt32.toNat_inj.mp hdiv)
  refine bitAt_congr ?_
  rw [linkedDisk_low ht hp hdir hslot hm hs updated (by rw [hdiv]; exact hlaid.bitmaps_data.2)
    (by rw [hdiv]; exact hlaid.data_bitmap_table), putBit_of_ne true hne]

omit hp hdir in
/-- A byte that is in neither bitmap is the one from before, unless it is in a record. -/
theorem putBit_blockDisk_of_ne {a : ℕ} (hinode : a / blockSize ≠ sb.inodeBitmapBlock.toNat)
    (hdata : a / blockSize ≠ sb.dataBitmapBlock.toNat) :
    putBit (blockDisk disk sb allocated) sb.inodeBitmapBlock m true a = disk a := by
  have hlaid := ht.laid
  rw [putBit_of_ne, blockDisk_of_ne]
  · intro b hb heq
    obtain ⟨-, -, hlow, hhigh, -⟩ := hs.new b hb
    have hfits := hlaid.data_bitmap_fits
    rw [heq, bitByte_div sb.dataBitmapBlock (by omega)] at hdata
    exact hdata rfl
  · intro heq
    rw [heq, bitByte_div sb.inodeBitmapBlock (hm.2.trans_le hlaid.inode_bitmap_fits)] at hinode
    exact hinode rfl

/-- **The steps of `create_file` are `Linked`.** -/
theorem linked_linkedDisk (name : List UInt8) (hlen : name.length ≤ 27)
    (hfree : bitAt disk sb.inodeBitmapBlock m = false)
    (hupdated : updated = grownParent (inodeAt disk sb p) ⟨(inodeAt disk sb p).slot, hslot⟩
      ((inodeAt disk sb p).metadata.sz + UInt32.ofNat direntSize) allocated) :
    Linked disk (linkedDisk (blockDisk disk sb allocated) sb p m name updated
      ((inodeAt disk sb p).nextEntry block)) sb p m name allocated block := by
  have hlaid := ht.laid
  have hblock := hs.block_range ht hp hslot
  have hpn := (ht.inum_range p hp).2
  have hpm : p ≠ m := by
    rintro rfl
    have hbit := ht.inode_bit p hp
    rw [bitSet_eq_bitAt, hfree] at hbit
    cases hbit
  -- a record that is not written, and the places of those that are
  have hrecord : ∀ n < sb.ninodes.toNat, ∀ i < inodeSize,
      sb.inodeAddr n + i < (inodeAt disk sb p).nextEntry block ∨
        (inodeAt disk sb p).nextEntry block + direntSize ≤ sb.inodeAddr n + i := by
    intro n hn i hi
    have hdiv := hlaid.inodeAddr_div hn hi
    have hdata := hlaid.table_data
    exact nextEntry_notMem ht hdir hp (by omega)
  have hbits : ∀ n < sb.ninodes.toNat, ∀ i < inodeSize,
      (sb.inodeAddr n + i) / blockSize ≠ sb.inodeBitmapBlock.toNat ∧
        (sb.inodeAddr n + i) / blockSize ≠ sb.dataBitmapBlock.toNat := by
    intro n hn i hi
    have hdiv := hlaid.inodeAddr_div hn hi
    have hinode := hlaid.inode_bitmap_table
    have hdata := hlaid.data_bitmap_table
    omega
  refine ⟨hslot, fun a ha => ?_, hm, hfree, fun k hk => ?_, fun k hk hset => ?_,
    fun n hn hnp hnm => ?_, ?_, ?_, hs.there, fun b hb => ?_, fun a ha hentry => ?_, ?_⟩
  · have hzero : a / blockSize = 0 := Nat.div_eq_of_lt ha
    have hpos := hlaid.bitmaps_pos
    have hdata := hlaid.bitmaps_data
    have htable := hlaid.table_pos
    rw [linkedDisk_low ht hp hdir hslot hm hs updated (by omega) (by omega),
      putBit_blockDisk_of_ne ht hslot hm hs (by omega) (by omega)]
  · exact bitAt_linkedDisk_inode ht hp hdir hslot hm hs updated hk
  · rw [bitAt_linkedDisk_data ht hp hdir hslot hm hs updated hk]
    cases allocated with
    | none => exact hset
    | some b => rw [blockDisk, bitAt_putBit, hset, ite_self]
  · refine INodeInner.decode_congr fun i hi => ?_
    rw [linkedDisk_of_notMem (notMem_record_of_ne hnm hi) (hrecord n hn i hi)
      (notMem_record_of_ne hnp hi),
      putBit_blockDisk_of_ne ht hslot hm hs (hbits n hn i hi).1 (hbits n hn i hi).2]
  · refine INodeInner.decode_bytes emptyFile rfl fun i hi => ?_
    rw [linkedDisk, Mem.blit_of_notMem (notMem_record_of_ne hpm.symm hi),
      Mem.blit_of_notMem (hrecord m hm.2 i hi), Mem.blit_of_mem (by omega) (by omega),
      Nat.add_sub_cancel_left]
  · rw [← hupdated]
    have hty : updated.ty = .directory := by
      rw [hupdated]
      exact hdir
    refine INodeInner.decode_bytes updated (by rw [hty]; rfl) fun i hi => ?_
    rw [linkedDisk, Mem.blit_of_mem (by omega) (by omega), Nat.add_sub_cancel_left]
  · obtain ⟨hb', hzero, hlow, hhigh, hclear⟩ := hs.new b hb
    have hfits := hlaid.data_bitmap_fits
    refine ⟨hb', hzero, hlow, hhigh, hclear, ?_⟩
    rw [bitAt_linkedDisk_data ht hp hdir hslot hm hs updated (by omega), hb, blockDisk,
      bitAt_putBit, if_pos rfl]
  · have htable := hlaid.table_data
    have hdata := hlaid.bitmaps_data
    rw [linkedDisk_of_notMem (hlaid.notMem_record hm.2 (by omega)) hentry
      (hlaid.notMem_record hpn (by omega)),
      putBit_blockDisk_of_ne ht hslot hm hs (by omega) (by omega)]
  · have hname : (newDirent m name).name.length = 27 := by
      rw [newDirent, List.length_append, List.length_replicate]
      omega
    refine DirEnt.decode_bytes _ hname fun i hi => ?_
    have hdiv : ((inodeAt disk sb p).nextEntry block + i) / blockSize = block.toNat := by
      have hsize := ht.dir_size p hp hdir
      unfold INodeInner.nextEntry blockSize direntSize at *
      omega
    have htable := hlaid.table_data
    rw [linkedDisk, Mem.blit_of_notMem (hlaid.notMem_record hpn (by omega)),
      Mem.blit_of_mem (by omega) (by omega), Nat.add_sub_cancel_left]

end Linking

/-! ## The steps of the code -/

section Steps
variable {s : Mounted} {sb : SuperBlock} {E : VfsError → Mounted → Prop} {N : Panic → Prop}

theorem wp_writeInodeToBlock {Q : Unit → Mounted → Prop} {inum : ℕ} (hs : s.NoFaults)
    (hinum : inum < 2 ^ 32) (inner : INodeInner) :
    wp (writeInodeToBlock sb.inodeTableStart.toNat inum inner) Q E N s ↔
      Q () { s with
        ops := s.ops + 2
        disk := s.disk.blit (sb.inodeAddr inum) inodeSize inner.bytes } := by
  have hmod := inodeAddr_mod sb inum
  rw [writeInodeToBlock, wp_bind, wp_inodeByteOffset hinum, if_neg (Nat.not_lt.mpr hmod), wp_bind,
    wp_readSector hs, wp_writeSector (by exact hs), putSector_patch hmod, Nat.div_add_mod]

theorem wp_writeDirent {Q : Unit → Mounted → Prop} {blockOffset : ℕ} (hs : s.NoFaults)
    (block : UInt32) (hoffset : blockOffset % direntSize = 0) (hlt : blockOffset < blockSize)
    (dirent : DirEnt) :
    wp (writeDirent block blockOffset dirent) Q E N s ↔
      Q () { s with
        ops := s.ops + 2
        disk := s.disk.blit (blockSize * block.toNat + blockOffset) direntSize dirent.bytes } := by
  have hmod : blockOffset % sectorSize + direntSize ≤ sectorSize := by
    unfold sectorSize direntSize at *
    omega
  have hsector : blockOffset / sectorSize < sectorsPerBlock := by
    unfold sectorSize sectorsPerBlock blockSize at *
    omega
  have haddr : sectorSize * (block.toNat * sectorsPerBlock + blockOffset / sectorSize) +
      blockOffset % sectorSize = blockSize * block.toNat + blockOffset := by
    unfold sectorSize sectorsPerBlock blockSize
    omega
  have hfits : ¬(blockOffset / sectorSize ≥ sectorsPerBlock ∨
      blockOffset % sectorSize + direntSize > sectorSize) := by omega
  have hsec : blockOffset / sectorSize < 2 ^ 32 := hsector.trans (by decide)
  rw [writeDirent, if_neg hfits, wp_bind, wp_blockSector block hsec, wp_bind, wp_readSector hs,
    wp_writeSector (by exact hs), putSector_patch hmod, haddr]

/-- `allocate_data_block`: the first block of the data area that is not marked. -/
theorem wp_allocateDataBlock (hs : s.NoFaults) (hlaid : s.superblock.Laid) :
    wp allocateDataBlock
      (fun b s' => s.superblock.dataBlockStart.toNat ≤ b.toNat ∧
        b.toNat < s.superblock.nblocks.toNat ∧
        bitAt s.disk s.superblock.dataBitmapBlock
          (b.toNat - s.superblock.dataBlockStart.toNat) = false ∧
        ∃ ops, s' = { s with ops := ops, disk := blockDisk s.disk s.superblock (some b) })
      (fun e s' => e = .fs ∧ (∃ ops, s' = { s with ops := ops }) ∧
        ∀ k < s.superblock.nblocks.toNat - s.superblock.dataBlockStart.toNat,
          bitAt s.disk s.superblock.dataBitmapBlock k = true)
      (fun _ => False) s := by
  have hle := hlaid.data_le
  have hfits := hlaid.data_bitmap_fits
  have hsub : (s.superblock.nblocks - s.superblock.dataBlockStart).toNat =
      s.superblock.nblocks.toNat - s.superblock.dataBlockStart.toNat :=
    UInt32.toNat_sub_of_le _ _ (UInt32.le_iff_toNat_le.mpr hle)
  rw [allocateDataBlock, wp_bind, wp_gets, wp_bind, wp_subU32]
  refine ⟨fun _ => ?_, fun hlt => absurd hle hlt.not_ge⟩
  rw [wp_bind, hsub]
  refine wp_mono (wp_allocateBitmapBit _ _ _ hs) ?_ ?_ fun _ => id
  · rintro k s' ⟨-, hk, -, hclear, -, ops, rfl⟩
    have hblocks := s.superblock.nblocks.toNat_lt
    have hofNat : (UInt32.ofNat k).toNat = k :=
      UInt32.toNat_ofNat_of_lt' (show k < 2 ^ 32 by omega)
    rw [wp_addU32, hofNat]
    refine ⟨fun hsum => ?_, fun hover => by omega⟩
    have hb : (s.superblock.dataBlockStart + UInt32.ofNat k).toNat =
        s.superblock.dataBlockStart.toNat + k := by
      rw [UInt32.toNat_add, hofNat, Nat.mod_eq_of_lt hsum]
    rw [blockDisk, hb, Nat.add_sub_cancel_left]
    exact ⟨by omega, by omega, hclear, ops, rfl⟩
  · rintro e s' ⟨rfl, hs', hall⟩
    exact ⟨rfl, hs', fun k hk => hall hfits k (Nat.zero_le k) hk⟩

/-- Freeing the block that was allocated restores the disk. -/
theorem wp_freeDataBlock (hs : s.NoFaults) (hlaid : s.superblock.Laid) {disk : Mem} {b : UInt32}
    (hlow : s.superblock.dataBlockStart.toNat ≤ b.toNat)
    (hhigh : b.toNat < s.superblock.nblocks.toNat)
    (hclear : bitAt disk s.superblock.dataBitmapBlock
      (b.toNat - s.superblock.dataBlockStart.toNat) = false)
    (hdisk : s.disk = blockDisk disk s.superblock (some b)) :
    ∃ ops, freeDataBlock b s = .ok () { s with ops := ops, disk := disk } := by
  have hfits := hlaid.data_bitmap_fits
  have hsub : (b - s.superblock.dataBlockStart).toNat =
      b.toNat - s.superblock.dataBlockStart.toNat :=
    UInt32.toNat_sub_of_le _ _ (UInt32.le_iff_toNat_le.mpr hlow)
  have hset : bitAt s.disk s.superblock.dataBitmapBlock
      (b.toNat - s.superblock.dataBlockStart.toNat) = true := by
    rw [hdisk, blockDisk, bitAt_putBit, if_pos rfl]
  obtain ⟨ops, hrun⟩ := freeBitmapBit_run s.superblock.dataBitmapBlock _ hs (by omega) hset
  refine ⟨ops, ?_⟩
  have hfree : freeDataBlock b s = freeBitmapBit s.superblock.dataBitmapBlock
      (b - s.superblock.dataBlockStart).toNat s := by
    rw [freeDataBlock, bind_run_of_ok (gets_run _), if_neg (Nat.not_lt.mpr hlow)]
  rw [hfree, hsub, hrun, hdisk, blockDisk, putBit_putBit hclear]

/-- The block for the entry. -/
theorem wp_allocateDirBlock (hs : s.NoFaults) (hlaid : s.superblock.Laid) (old : UInt32) :
    wp (allocateDirBlock old)
      (fun allocated s' => SlotOk s.disk s.superblock old allocated (allocated.getD old) ∧
        ∃ ops, s' = { s with ops := ops, disk := blockDisk s.disk s.superblock allocated })
      (fun e s' => old = 0 ∧ e = .fs ∧ (∃ ops, s' = { s with ops := ops }) ∧
        ∀ k < s.superblock.nblocks.toNat - s.superblock.dataBlockStart.toNat,
          bitAt s.disk s.superblock.dataBitmapBlock k = true)
      (fun _ => False) s := by
  rw [allocateDirBlock, wp_ite]
  refine ⟨fun hzero => ?_, fun hne => ?_⟩
  · rw [wp_map]
    refine wp_mono (wp_allocateDataBlock hs hlaid) ?_ ?_ fun _ => id
    · rintro b s' ⟨hlow, hhigh, hclear, hs'⟩
      refine ⟨⟨fun h => (by cases h), fun b' hb' => ?_⟩, hs'⟩
      obtain rfl := Option.some.inj hb'
      exact ⟨rfl, hzero, hlow, hhigh, hclear⟩
    · rintro e s' ⟨he, hs', hall⟩
      exact ⟨hzero, he, hs', hall⟩
  · rw [wp_pure]
    exact ⟨⟨fun _ => ⟨rfl, hne⟩, fun b hb => (by cases hb)⟩, s.ops, rfl⟩

/-- `allocate_inode`, with what was allocated before given back if there is none. -/
theorem wp_orFree_allocateInode (hs : s.NoFaults) (hlaid : s.superblock.Laid) {disk : Mem}
    {old : UInt32} {allocated : Option UInt32}
    (hslot : SlotOk disk s.superblock old allocated (allocated.getD old))
    (hdisk : s.disk = blockDisk disk s.superblock allocated) :
    wp (orFree allocateInode none allocated)
      (fun m s' => 1 ≤ m ∧ m < s.superblock.ninodes.toNat ∧
        bitAt s.disk s.superblock.inodeBitmapBlock m = false ∧
        ∃ ops, s' = { s with
          ops := ops
          disk := putBit s.disk s.superblock.inodeBitmapBlock m true })
      (fun e s' => e = .fs ∧ (∃ ops, s' = { s with ops := ops, disk := disk }) ∧
        ∀ k, 1 ≤ k → k < s.superblock.ninodes.toNat →
          bitAt s.disk s.superblock.inodeBitmapBlock k = true)
      (fun _ => False) s := by
  rw [orFree, wp_catchErr, allocateInode, wp_bind, wp_gets]
  refine wp_mono (wp_allocateBitmapBit _ _ _ hs) ?_ ?_ fun _ => id
  · rintro m s' ⟨hlow, hhigh, -, hclear, -, hs'⟩
    exact ⟨hlow, hhigh, hclear, hs'⟩
  · rintro e s' ⟨rfl, ⟨ops, rfl⟩, hall⟩
    have hall' := hall hlaid.inode_bitmap_fits
    rw [wp_bind]
    cases allocated with
    | none =>
      rw [freeCreateAllocations]
      dsimp only
      rw [wp_pure, wp_fail]
      exact ⟨rfl, ⟨ops, by rw [show disk = s.disk from hdisk.symm]⟩, hall'⟩
    | some b =>
      obtain ⟨-, -, hlow, hhigh, hclear⟩ := hslot.new b rfl
      obtain ⟨ops', hrun⟩ :=
        wp_freeDataBlock (s := { s with ops := ops }) hs hlaid hlow hhigh hclear
        hdisk
      rw [freeCreateAllocations]
      dsimp only
      rw [wp_ignoreErr]
      refine wp_of_eq_ok hrun ?_
      rw [wp_fail]
      exact ⟨rfl, ⟨ops', rfl⟩, hall'⟩

end Steps

/-! ## The whole call -/

/-- There is a free inode, and a place for one more entry in the directory. -/
structure Room (disk : Mem) (sb : SuperBlock) (p : ℕ) : Prop where
  slot_lt : (inodeAt disk sb p).slot < directBlocks
  inode : ∃ k, 1 ≤ k ∧ k < sb.ninodes.toNat ∧ bitAt disk sb.inodeBitmapBlock k = false
  block : (inodeAt disk sb p).metadata.sz.toNat % blockSize = 0 →
    ∃ k < sb.nblocks.toNat - sb.dataBlockStart.toNat, bitAt disk sb.dataBitmapBlock k = false

/-- The directory `p` got the entry `name` for a new file, and `id` is its handle. -/
structure Created (s s' : Mounted) (p : ℕ) (name : List UInt8) (m id : ℕ) : Prop where
  linked : ∃ allocated block, Linked s.disk s'.disk s.superblock p m name allocated block
  consistent : Consistent s'
  handle : s'.cache m = some id
  superblock_eq : s'.superblock = s.superblock
  retains : ∀ n id, s.cache n = some id → s'.cache n = some id

section Whole
variable {s : Mounted} {p parent : ℕ} {name : List UInt8}

/-- The cache after `create_file`. -/
theorem Consistent.created (h : Consistent s) (hid : s.cache p = some parent)
    (hdir : (inodeAt s.disk s.superblock p).ty = .directory) (hlen : name.length ≤ 27)
    (hnew : (tree s.disk s.superblock).child p name = none) {disk' : Mem} {m ops : ℕ}
    {allocated : Option UInt32} {block : UInt32} {updated : INodeInner}
    (hlinked : Linked s.disk disk' s.superblock p m name allocated block)
    (hupdated : inodeAt disk' s.superblock p = updated) :
    Created s (Mounted.withInode { s with
      ops := ops
      disk := disk'
      inodes := Function.update s.inodes parent ⟨p, updated⟩ } m emptyFile) p name m s.next := by
  have hp := h.reach p parent hid
  have hfresh : ∀ k id, s.cache k = some id → k ≠ m := fun k id hk =>
    hlinked.ne_new h.tidy (h.reach k id hk)
  refine ⟨⟨allocated, block, hlinked⟩,
    ⟨h.noFaults, hlinked.tidy h.tidy hp hdir hlen hnew, ?_, ?_, ?_⟩,
    withInode_cache_self .., rfl, fun k id hk => ?_⟩
  · obtain ⟨id, hroot⟩ := Option.isSome_iff_exists.mp h.root
    rw [withInode_cache_of_ne (hfresh 1 id hroot)]
    exact h.root
  · intro k id hk
    refine (hlinked.reach_iff h.tidy hp hdir).mpr ?_
    by_cases hkm : k = m
    · exact .inr hkm
    · rw [withInode_cache_of_ne hkm] at hk
      exact .inl (h.reach k id hk)
  · intro k id hk
    by_cases hkm : k = m
    · rw [hkm, withInode_cache_self] at hk
      cases hk
      rw [hkm, withInode_inodes_self]
      exact ⟨Nat.lt_succ_self _, congrArg _ hlinked.inode_new.symm⟩
    · rw [withInode_cache_of_ne hkm] at hk
      obtain ⟨hlt, hobject⟩ := h.object k id hk
      refine ⟨Nat.lt_succ_of_lt hlt, ?_⟩
      rw [withInode_inodes_of_lt (by exact hlt)]
      dsimp only [Mounted.withInode]
      by_cases hkp : k = p
      · subst hkp
        rw [hid] at hk
        cases hk
        rw [Function.update_self, hupdated]
      · -- another inode has another object
        have hne : id ≠ parent := by
          rintro rfl
          have hobject' := (h.object p id hid).2
          rw [hobject] at hobject'
          exact hkp (congrArg INode.inum hobject')
        rw [Function.update_of_ne hne, hobject, hlinked.inodeAt_eq h.tidy (h.reach k id hk) hkp]
  · rw [withInode_cache_of_ne (hfresh k id hk)]
    exact hk

/-- The part of `create_file` with allocations. -/
theorem wp_addEntry (h : Consistent s) (hid : s.cache p = some parent)
    (hdir : (inodeAt s.disk s.superblock p).ty = .directory) (hlen : name.length ≤ 27)
    (hnew : (tree s.disk s.superblock).child p name = none)
    (hslot : (inodeAt s.disk s.superblock p).slot < directBlocks) :
    wp (addEntry parent (inodeAt s.disk s.superblock p) name
        ⟨(inodeAt s.disk s.superblock p).slot, hslot⟩
        ((inodeAt s.disk s.superblock p).metadata.sz + UInt32.ofNat direntSize))
      (fun id s' => ∃ m, Created s s' p name m id)
      (fun e s' => e = .fs ∧ Looked s s' ∧ ¬ Room s.disk s.superblock p)
      (fun _ => False) s := by
  have hp := h.reach p parent hid
  have hlaid := h.tidy.laid
  have hpn := h.tidy.inum_lt hp
  have hsize := h.tidy.dir_size p hp hdir
  have hoffset :
      (inodeAt s.disk s.superblock p).metadata.sz.toNat % blockSize % direntSize = 0 := by
    unfold blockSize direntSize at *
    omega
  have hlt : (inodeAt s.disk s.superblock p).metadata.sz.toNat % blockSize < blockSize :=
    Nat.mod_lt _ (by decide)
  rw [addEntry, wp_bind, wp_gets, wp_bind, wp_gets, (h.object p parent hid).2]
  dsimp only
  rw [wp_bind]
  refine wp_mono (wp_allocateDirBlock h.noFaults hlaid _) ?_ ?_ fun _ => id
  · rintro allocated s₁ ⟨hok, ops₁, rfl⟩
    rw [wp_bind]
    have hinode := wp_orFree_allocateInode
      (s := { s with ops := ops₁, disk := blockDisk s.disk s.superblock allocated })
      h.noFaults hlaid hok rfl
    refine wp_mono hinode ?_ ?_ fun _ => id
    · rintro m s₂ ⟨hlow, hhigh, hfree, ops₂, rfl⟩
      dsimp only at hhigh hfree ⊢
      have hm32 : m < 2 ^ 32 := hhigh.trans s.superblock.ninodes.toNat_lt
      have hblock : (grownParent (inodeAt s.disk s.superblock p)
          ⟨(inodeAt s.disk s.superblock p).slot, hslot⟩
          ((inodeAt s.disk s.superblock p).metadata.sz + UInt32.ofNat direntSize)
          allocated).directBlocks ⟨(inodeAt s.disk s.superblock p).slot, hslot⟩ =
          allocated.getD ((inodeAt s.disk s.superblock p).directBlocks
            ⟨(inodeAt s.disk s.superblock p).slot, hslot⟩) := by
        cases allocated with
        | none => rfl
        | some b => exact Function.update_self ..
      rw [hok.bitAt_inode hlaid (hhigh.trans_le hlaid.inode_bitmap_fits)] at hfree
      have hlinked := linked_linkedDisk h.tidy hp hdir hslot ⟨hlow, hhigh⟩ hok _ name hlen hfree rfl
      rw [wp_bind, orFree, wp_catchErr, wp_writeInodeToBlock (by exact h.noFaults) hm32, wp_bind,
        orFree, wp_catchErr, wp_writeDirent (by exact h.noFaults) _ hoffset hlt, wp_bind,
        wp_catchErr, wp_writeInodeToBlock (by exact h.noFaults) hpn, wp_bind, wp_modify, wp_cacheInode, hblock]
      exact ⟨m, h.created hid hdir hlen hnew hlinked hlinked.inode_parent⟩
    · rintro e s₂ ⟨rfl, ⟨ops₂, rfl⟩, hall⟩
      refine ⟨rfl, h.looked ops₂, fun hroom => ?_⟩
      obtain ⟨k, hk, hk', hclear⟩ := hroom.inode
      have hset := hall k hk hk'
      dsimp only at hset
      rw [hok.bitAt_inode hlaid (hk'.trans_le hlaid.inode_bitmap_fits), hclear] at hset
      cases hset
  · rintro e s₁ ⟨hzero, rfl, ⟨ops₁, rfl⟩, hall⟩
    refine ⟨rfl, h.looked ops₁, fun hroom => ?_⟩
    obtain ⟨k, hk, hclear⟩ := hroom.block ((h.tidy.slot_eq_zero_iff hp hslot).mp hzero)
    rw [hall k hk] at hclear
    cases hclear

/-- What is created after looking is created from the start. -/
theorem Looked.created {s₁ s' : Mounted} {m id : ℕ} (hl : Looked s s₁)
    (h : Created s₁ s' p name m id) : Created s s' p name m id := by
  obtain ⟨⟨allocated, block, hlinked⟩, hcons, hhandle, hsuper, hretains⟩ := h
  rw [hl.disk_eq, hl.superblock_eq] at hlinked
  exact ⟨⟨allocated, block, hlinked⟩, hcons, hhandle, hsuper.trans hl.superblock_eq,
    fun n id hid => hretains n id (hl.retains n id hid)⟩

/-- `create_file` in a directory without an entry of that name. -/
theorem wp_createFile (h : Consistent s) (hid : s.cache p = some parent)
    (hdir : (inodeAt s.disk s.superblock p).ty = .directory)
    (hnew : (tree s.disk s.superblock).child p name = none) (hname : name ≠ []) :
    wp (createFile parent name) (fun id s' => name.length ≤ 27 ∧ ∃ m, Created s s' p name m id)
      (fun e s' => e = .fs ∧ Looked s s' ∧ ¬(name.length ≤ 27 ∧ Room s.disk s.superblock p))
      (fun _ => False) s := by
  have hp := h.reach p parent hid
  have hsize := h.tidy.dir_size p hp hdir
  rw [createFile, wp_ite]
  refine ⟨fun hbad => ?_, fun hgood => ?_⟩
  · rw [wp_fail]
    refine ⟨rfl, h.looked s.ops, fun hroom => ?_⟩
    rcases hbad with hnil | hlong
    · exact hname hnil
    · exact hlong.not_ge hroom.1
  · have hlen : name.length ≤ 27 := by
      rw [not_or, Nat.not_lt] at hgood
      exact hgood.2
    have hok : ¬((inodeAt s.disk s.superblock p).ty ≠ .directory ∨
        (inodeAt s.disk s.superblock p).metadata.sz.toNat % direntSize ≠ 0) := by
      rw [not_or, not_not, not_not]
      exact ⟨hdir, hsize⟩
    rw [wp_bind, wp_gets, (h.object p parent hid).2, if_neg hok, wp_bind, wp_attempt]
    have hnotFound := NameTree.lookup_eq_notFound_iff.mpr ⟨tree_isDir.mpr hdir, hnew⟩
    refine wp_mono (wp_lookupPathInner h hp name) ?_ ?_ fun _ => id
    · rintro id s₁ ⟨k, hk, -⟩
      rw [hnotFound] at hk
      cases hk
    · rintro e s₁ ⟨e', he', rfl, hlooked⟩
      rw [hnotFound] at he'
      cases he'
      dsimp only
      rw [if_neg (by decide), wp_ite]
      refine ⟨fun hover => ?_, fun _ => ?_⟩
      · rw [wp_fail]
        refine ⟨rfl, hlooked, fun hroom => ?_⟩
        have hslot := hroom.2.slot_lt
        unfold INodeInner.slot blockSize directBlocks direntSize at *
        omega
      · by_cases hslot :
          (inodeAt s.disk s.superblock p).metadata.sz.toNat / blockSize < directBlocks
        · rw [dif_pos hslot]
          have hnew' : (tree s₁.disk s₁.superblock).child p name = none := by
            rw [hlooked.disk_eq, hlooked.superblock_eq]
            exact hnew
          have hadd := wp_addEntry hlooked.consistent (hlooked.retains p parent hid)
            (by rw [hlooked.disk_eq, hlooked.superblock_eq]; exact hdir) hlen hnew'
            (by rw [hlooked.disk_eq, hlooked.superblock_eq]; exact hslot)
          simp only [hlooked.disk_eq, hlooked.superblock_eq] at hadd
          refine wp_mono hadd ?_ ?_ fun _ => id
          · rintro id s' ⟨m, hcreated⟩
            exact ⟨hlen, m, hlooked.created hcreated⟩
          · rintro e s' ⟨he, hlooked', hroom⟩
            exact ⟨he, hlooked.trans hlooked', fun hboth => hroom hboth.2⟩
        · rw [dif_neg hslot, wp_fail]
          exact ⟨rfl, hlooked, fun hroom => hslot hroom.2.slot_lt⟩

/-- The loop of `create` finds the vacancy of the path. -/
theorem wp_createLoop {n id : ℕ} (path : List (List UInt8)) (h : Consistent s)
    (hid : s.cache n = some id) :
    let vacancy := (tree s.disk s.superblock).vacancy n path
    wp (createLoop id none none path)
      (fun r s' => Looked s s' ∧
        ((∃ p name, vacancy = .ok (p, name) ∧ s'.cache p = some r.1 ∧
          r.2 = (some .notFound, some name)) ∨
        ∃ e, vacancy = .error e ∧ nameError e = .fs ∧ r.2.1 ≠ some .notFound))
      (fun e s' => ∃ e', vacancy = .error e' ∧ e = nameError e' ∧ Looked s s')
      (fun _ => False) s := by
  induction path generalizing s n id with
  | nil =>
    rw [createLoop, wp_pure]
    exact ⟨h.looked s.ops, .inr ⟨.taken, rfl, rfl, by simp⟩⟩
  | cons name path ih =>
    rw [createLoop, wp_bind, wp_gets, (h.object n id hid).2, wp_ite]
    refine ⟨fun hfile => ?_, fun _ => ?_⟩
    · rw [wp_fail]
      refine ⟨_, NameTree.vacancy_cons_of_error (NameTree.lookup_of_not_dir ?_)
        (.inl (by decide)), rfl, h.looked s.ops⟩
      rw [Bool.eq_false_iff, Ne, tree_isDir, hfile]
      decide
    · rw [wp_bind, wp_attempt]
      refine wp_mono (wp_walk h hid name) ?_ ?_ fun _ => False.elim
      · rintro next s₁ ⟨m, hlookup, hcache, hlooked⟩
        have hrest := ih hlooked.consistent hcache
        rw [hlooked.disk_eq, hlooked.superblock_eq, ← NameTree.vacancy_cons_of_ok hlookup] at hrest
        refine wp_mono hrest ?_ ?_ fun _ => False.elim
        · rintro r s₂ ⟨hlooked', hr⟩
          exact ⟨hlooked.trans hlooked', hr⟩
        · rintro e s₂ ⟨e', he', rfl, hlooked'⟩
          exact ⟨e', he', rfl, hlooked.trans hlooked'⟩
      · rintro e s₁ ⟨e', hlookup, rfl, hlooked⟩
        dsimp only
        cases path with
        | cons name' path =>
          -- the error is returned when the next component is looked at
          rw [createLoop, wp_fail]
          exact ⟨e', NameTree.vacancy_cons_of_error hlookup (.inr (List.cons_ne_nil _ _)), rfl,
            hlooked⟩
        | nil =>
          rw [createLoop, wp_pure]
          refine ⟨hlooked, ?_⟩
          by_cases hfound : e' = .notFound
          · subst hfound
            exact .inl ⟨n, name, NameTree.vacancy_singleton hlookup, hlooked.retains n id hid, rfl⟩
          · refine .inr ⟨e', NameTree.vacancy_cons_of_error hlookup (.inl hfound), ?_, ?_⟩
            · cases e' with
              | notFound => exact absurd rfl hfound
              | notDirectory => rfl
              | taken => rfl
            · cases e' with
              | notFound => exact absurd rfl hfound
              | notDirectory => simp [nameError]
              | taken => simp [nameError]

/-- **`create` fills the vacancy of the path.** -/
theorem wp_create {n id : ℕ} (path : List UInt8) (h : Consistent s) (hid : s.cache n = some id) :
    let vacancy := (tree s.disk s.superblock).vacancy n (pieces 47 path)
    wp (create id path)
      (fun id' s' => ∃ p name m, vacancy = .ok (p, name) ∧ name.length ≤ 27 ∧
        Created s s' p name m id')
      (fun e s' => Looked s s' ∧ ((∃ e', vacancy = .error e' ∧ e = nameError e') ∨
        ∃ p name, vacancy = .ok (p, name) ∧ e = .fs ∧
          ¬(name.length ≤ 27 ∧ Room s.disk s.superblock p)))
      (fun _ => False) s := by
  rw [create, wp_bind]
  refine wp_mono (wp_createLoop _ h hid) ?_ ?_ fun _ => False.elim
  · rintro ⟨current, err, leaf⟩ s₁ ⟨hlooked, ⟨p, name, hvac, hcache, hr⟩ | ⟨e, hvac, he, hr⟩⟩
    · obtain ⟨rfl, rfl⟩ := Prod.mk.inj hr
      obtain ⟨front, hpath, -, hdir, hnew⟩ := NameTree.vacancy_eq_ok_iff.mp hvac
      have hmem : name ∈ pieces 47 path := by
        rw [hpath]
        exact List.mem_append_right _ (List.mem_singleton.mpr rfl)
      have hname : name ≠ [] := of_decide_eq_true (List.mem_filter.mp hmem).2
      dsimp only
      rw [if_pos rfl, wp_bind, wp_okOr_some]
      have hfile := wp_createFile hlooked.consistent hcache
        (by rw [hlooked.disk_eq, hlooked.superblock_eq]; exact tree_isDir.mp hdir)
        (by rw [hlooked.disk_eq, hlooked.superblock_eq]; exact hnew) hname
      rw [hlooked.disk_eq, hlooked.superblock_eq] at hfile
      refine wp_mono hfile ?_ ?_ fun _ => False.elim
      · rintro id' s' ⟨hlen, m, hcreated⟩
        exact ⟨p, name, m, hvac, hlen, hlooked.created hcreated⟩
      · rintro e s' ⟨rfl, hlooked', hroom⟩
        exact ⟨hlooked.trans hlooked', .inr ⟨p, name, hvac, rfl, hroom⟩⟩
    · dsimp only at hr ⊢
      rw [if_neg hr, wp_fail]
      exact ⟨hlooked, .inl ⟨e, hvac, he.symm⟩⟩
  · rintro e s₁ ⟨e', hvac, rfl, hlooked⟩
    exact ⟨hlooked, .inl ⟨e', hvac, rfl⟩⟩

end Whole

/-! ## The names afterwards -/

/-- The directory `p` has the name `name` for the new, empty file `m`. A path that led somewhere
leads there still. A path that led nowhere fails as before or goes through the new name, and no
other inode has changed. -/
structure NameAdded (disk disk' : Mem) (sb : SuperBlock) (p : ℕ) (name : List UInt8) (m : ℕ) :
    Prop where
  fresh : ¬ Reach disk sb m
  empty : inodeAt disk' sb m = emptyFile
  reach_iff : ∀ n, Reach disk' sb n ↔ Reach disk sb n ∨ n = m
  found : ∀ n, Reach disk sb n → ∀ path, (tree disk sb).vacancy n path = .ok (p, name) →
    (tree disk' sb).resolve n path = .ok m
  kept : ∀ n, Reach disk sb n → ∀ path k, (tree disk sb).resolve n path = .ok k →
    (tree disk' sb).resolve n path = .ok k
  others : ∀ n, Reach disk sb n → ∀ path e, (tree disk sb).resolve n path = .error e →
    (tree disk' sb).resolve n path = .error e ∨
      ∃ front back, path = front ++ name :: back ∧ (tree disk sb).resolve n front = .ok p ∧
        (tree disk' sb).resolve n path = if back = [] then .ok m else .error .notDirectory
  contents : ∀ n, Reach disk sb n → n ≠ p → inodeAt disk' sb n = inodeAt disk sb n ∧
    ∀ i < (inodeAt disk sb n).metadata.sz.toNat,
      fileByte disk' (inodeAt disk sb n) i = fileByte disk (inodeAt disk sb n) i

section Names
variable {disk disk' : Mem} {sb : SuperBlock} {p m n : ℕ} {name : List UInt8}
variable {allocated : Option UInt32} {block : UInt32}
variable (h : Linked disk disk' sb p m name allocated block) (ht : Tidy disk sb)
variable (hp : Reach disk sb p) (hdir : (inodeAt disk sb p).ty = .directory)
variable (hlen : name.length ≤ 27) (hnew : (tree disk sb).child p name = none)
include h ht hp hdir hlen hnew

/-- Paths see the new name and nothing else. -/
theorem Linked.resolve_eq (hn : Reach disk sb n) (path : List (List UInt8)) :
    (tree disk' sb).resolve n path = ((tree disk sb).link p name m).resolve n path := by
  have hlookup : ∀ k ∈ {k | Reach disk' sb k}, ∀ other,
      ((tree disk sb).link p name m).lookup k other = (tree disk' sb).lookup k other := by
    intro k hk other
    rcases (h.reach_iff ht hp hdir).mp hk with hk | rfl
    · exact (h.lookup_eq ht hp hdir hlen hnew hk other).symm
    · rw [NameTree.lookup_of_not_dir (by simp [NameTree.link]), NameTree.lookup_of_not_dir]
      rw [Bool.eq_false_iff, Ne, tree_isDir, h.inode_new]
      decide
  exact ((tree_closed disk' sb).resolve_congr (h.reach_mono ht hp hdir hn) hlookup).symm

theorem Linked.nameAdded : NameAdded disk disk' sb p name m := by
  have hclosed := tree_closed disk sb
  have hfresh : m ∉ {k | Reach disk sb k} := h.not_reach ht
  have hdir' := tree_isDir.mpr hdir
  refine ⟨h.not_reach ht, h.inode_new, fun n => h.reach_iff ht hp hdir, fun n hn path hvac => ?_,
    fun n hn path k hk => ?_, fun n hn path e he => ?_, fun n hn hnp => ?_⟩
  · rw [h.resolve_eq ht hp hdir hlen hnew hn]
    exact NameTree.resolve_link_vacancy hclosed hfresh hdir' hnew hn hp hvac
  · rw [h.resolve_eq ht hp hdir hlen hnew hn]
    exact NameTree.resolve_link_of_ok hclosed hfresh hnew hn hk
  · rw [h.resolve_eq ht hp hdir hlen hnew hn]
    exact NameTree.resolve_link_of_error hclosed hfresh hdir' hnew hn hp he
  · have hino := h.inodeAt_eq ht hn hnp
    refine ⟨hino, fun i hi => ?_⟩
    rw [← h.fileByte_eq ht hp hdir hn hnp hi, hino]

omit hdir hlen hnew in
/-- What was used was there. -/
theorem Linked.room : Room disk sb p := by
  refine ⟨h.slot_lt, ⟨m, h.inum_range.1, h.inum_range.2, h.inum_free⟩, fun hfull => ?_⟩
  cases hall : allocated with
  | none => exact absurd hfull ((h.allocated_none_iff ht hp).mp hall)
  | some b =>
    obtain ⟨-, -, hlow, hhigh, hclear, -⟩ := h.block_new b hall
    exact ⟨b.toNat - sb.dataBlockStart.toNat, by omega, hclear⟩

end Names

/-- **`create` adds exactly one name**, if the last name of the path is the only one missing and
there is room. Otherwise it fails and leaves the disk as it was. -/
theorem create_adds_name (s : Mounted) (n id : ℕ) (path : List UInt8) (h : Consistent s)
    (hid : s.cache n = some id) :
    (∀ p name, (tree s.disk s.superblock).vacancy n (pieces 47 path) = .ok (p, name) →
      (name.length ≤ 27 ∧ Room s.disk s.superblock p → ∃ id' m s', create id path s = .ok id' s' ∧
        s'.cache m = some id' ∧ Consistent s' ∧ s'.superblock = s.superblock ∧
        NameAdded s.disk s'.disk s.superblock p name m) ∧
      (¬(name.length ≤ 27 ∧ Room s.disk s.superblock p) →
        ∃ s', create id path s = .err .fs s' ∧ Looked s s')) ∧
    ∀ e, (tree s.disk s.superblock).vacancy n (pieces 47 path) = .error e →
      ∃ s', create id path s = .err (nameError e) s' ∧ Looked s s' := by
  have hwp := wp_create path h hid
  have hn := h.reach n id hid
  cases hrun : create id path s with
  | ok id' s' =>
    obtain ⟨p, name, m, hvac, hlen, hcreated⟩ := wp_of_ok hwp hrun
    obtain ⟨front, -, hfront, hdir, hnew⟩ := NameTree.vacancy_eq_ok_iff.mp hvac
    obtain ⟨allocated, block, hlinked⟩ := hcreated.linked
    have hp : Reach s.disk s.superblock p :=
      NameTree.Closed.resolve_mem (tree_closed s.disk s.superblock) hn hfront
    have hdir' := tree_isDir.mp hdir
    refine ⟨fun p' name' hvac' => ?_, fun e he => ?_⟩
    · rw [hvac] at hvac'
      cases hvac'
      refine ⟨fun _ => ⟨id', m, s', rfl, hcreated.handle, hcreated.consistent,
        hcreated.superblock_eq, hlinked.nameAdded h.tidy hp hdir' hlen hnew⟩, fun hroom => ?_⟩
      exact absurd ⟨hlen, hlinked.room h.tidy hp⟩ hroom
    · rw [hvac] at he
      cases he
  | err e s' =>
    obtain ⟨hlooked, hcases⟩ := wp_of_err hwp hrun
    refine ⟨fun p name hvac => ?_, fun e' he' => ?_⟩
    · rcases hcases with ⟨e', he', -⟩ | ⟨p', name', hvac', rfl, hroom⟩
      · rw [hvac] at he'
        cases he'
      · rw [hvac] at hvac'
        cases hvac'
        exact ⟨fun hboth => absurd hboth hroom, fun _ => ⟨s', rfl, hlooked⟩⟩
    · rcases hcases with ⟨e'', he'', rfl⟩ | ⟨p', name', hvac', -⟩
      · rw [he'] at he''
        cases he''
        exact ⟨s', rfl, hlooked⟩
      · rw [he'] at hvac'
        cases hvac'
  | panic q => exact (wp_of_panic hwp hrun).elim

/-- The superblock of a disk with room for seven inodes and four data blocks. -/
def freshSuper : SuperBlock := ⟨magic, 8, 8, 1, 2, 3, 1, 4⟩

/-- A disk with an empty root directory. -/
def freshDisk : Mem := fun a =>
  (List.lookup a [(0, 0x53), (1, 0x46), (2, 0x53), (3, 0x56), (4, 8), (8, 8), (12, 1), (16, 2),
    (20, 3), (24, 1), (28, 4), (4096, 2), (12352, 1)]).getD 0

theorem reach_fresh {n : ℕ} (h : Reach freshDisk freshSuper n) : n = 1 := by
  induction h with
  | root => rfl
  | entry _ _ hk ih =>
    subst ih
    have hcount : (inodeAt freshDisk freshSuper 1).entryCount = 0 := by decide +kernel
    omega

theorem tidy_fresh : Tidy freshDisk freshSuper := by
  have hcount : (inodeAt freshDisk freshSuper 1).entryCount = 0 := by decide +kernel
  have hrefs : refs freshDisk (inodeAt freshDisk freshSuper 1) = [] := by decide +kernel
  refine ⟨⟨by decide +kernel, by constructor <;> decide, fun n hn => ?_, fun n hn => ?_,
    fun n hn lb _ => ?_, fun n hn _ => ?_, fun n hn b hb => ?_, fun n hn => ?_,
    fun n n' hn hn' hne => ?_, fun n hn _ => ?_, fun n hn _ j hj => ?_⟩, fun n hn _ k hk => ?_⟩ <;>
    obtain rfl := reach_fresh hn
  · decide
  · decide +kernel
  · have hzero : ∀ i : Fin 12, (inodeAt freshDisk freshSuper 1).directBlocks i = 0 := by
      decide +kernel
    exact pointerOf_eq_zero (by decide +kernel) fun i _ => hzero i
  · decide +kernel
  · rw [hrefs] at hb
    cases hb
  · rw [hrefs]
    exact List.nodup_nil
  · exact absurd (reach_fresh hn').symm hne
  · decide +kernel
  · omega
  · omega

/-- The first file of a disk. -/
theorem create_adds_name_fresh :
    ∃ id m s', create 0 [97] (device freshDisk fun _ => .none).remounted = .ok id s' ∧
      NameAdded freshDisk s'.disk freshSuper 1 [97] m := by
  have hadds := create_adds_name (device freshDisk fun _ => .none).remounted 1 0 [97]
    tidy_fresh.mounted rfl
  have hroot : (device freshDisk fun _ => .none).remounted.superblock = freshSuper :=
    tidy_fresh.super_eq
  rw [hroot] at hadds
  have hvac : (tree freshDisk freshSuper).vacancy 1 (pieces 47 [97]) = .ok (1, [97]) :=
    NameTree.vacancy_eq_ok_iff.mpr ⟨[], by decide, rfl, by decide +kernel, by decide +kernel⟩
  have hroom : Room freshDisk freshSuper 1 :=
    ⟨by decide +kernel, ⟨2, by decide, by decide, by decide +kernel⟩,
      fun _ => ⟨0, by decide, by decide +kernel⟩⟩
  obtain ⟨id, m, s', hrun, -, -, -, hadded⟩ := (hadds.1 1 [97] hvac).1 ⟨by decide, hroom⟩
  exact ⟨id, m, s', hrun, hadded⟩

end Efiks.Vsfs

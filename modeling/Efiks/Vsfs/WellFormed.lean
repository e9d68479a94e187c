import Efiks.Vsfs.Read

/-!
# Well-formed disks

The superblock divides the disk into two bitmap blocks, the inode table and the data
area. A disk is well formed if these do not overlap, every inode that can be reached
from the root through directory entries is marked in the inode bitmap, every block such
an inode refers to lies in the data area and is marked in the data bitmap, and no block
is referred to twice.

## Main definitions

* `inodeAt`, `entryAt` — the records on the disk.
* `Reach` — the inode numbers reachable from the root.
* `refs` — the blocks an inode refers to, its indirect block included.
* `WellFormed`.
-/
namespace Efiks.Vsfs
open Lib Vfs

/-- The byte address of an inode record. -/
def SuperBlock.inodeAddr (sb : SuperBlock) (inum : ℕ) : ℕ :=
  blockSize * sb.inodeTableStart.toNat + inodeSize * inum

/-- The inode record `inum` on the disk. -/
def inodeAt (disk : Mem) (sb : SuperBlock) (inum : ℕ) : INodeInner :=
  .decode disk (sb.inodeAddr inum)

/-- The number of blocks that hold the file. -/
def INodeInner.blockCount (inode : INodeInner) : ℕ :=
  (inode.metadata.sz.toNat + (blockSize - 1)) / blockSize

/-- The number of entries of a directory. -/
def INodeInner.entryCount (inode : INodeInner) : ℕ := inode.metadata.sz.toNat / direntSize

/-- The entry `k` of a directory. -/
def entryAt (disk : Mem) (inode : INodeInner) (k : ℕ) : DirEnt :=
  .decode disk (fileAddr disk inode (direntSize * k))

/-- The bytes of a directory entry's name. -/
def DirEnt.nameBytes (d : DirEnt) : List UInt8 := d.name.take d.nameLen.toNat

/-- The inode numbers that directory entries lead to from inode 1. -/
inductive Reach (disk : Mem) (sb : SuperBlock) : ℕ → Prop
  | root : Reach disk sb 1
  | entry {n k : ℕ} : Reach disk sb n → (inodeAt disk sb n).ty = .directory →
      k < (inodeAt disk sb n).entryCount →
      Reach disk sb (entryAt disk (inodeAt disk sb n) k).inum.toNat

/-- The blocks with the contents of a file. -/
def dataRefs (disk : Mem) (inode : INodeInner) : List UInt32 :=
  (List.range inode.blockCount).map (pointerOf disk inode)

/-- All blocks an inode refers to. -/
def refs (disk : Mem) (inode : INodeInner) : List UInt32 :=
  dataRefs disk inode ++ if directBlocks < inode.blockCount then [inode.indirectBlock] else []

/-- Bit `k` of the bitmap in a block. -/
def bitSet (disk : Mem) (block k : ℕ) : Bool :=
  disk (blockSize * block + k / 8) &&& (1 <<< UInt8.ofNat (k % 8)) != 0

/-- Bitmaps, inode table and data area lie apart, behind the superblock. -/
structure SuperBlock.Laid (sb : SuperBlock) : Prop where
  magic_eq : sb.magic = Vsfs.magic
  bitmaps_pos : 0 < sb.inodeBitmapBlock.toNat ∧ 0 < sb.dataBitmapBlock.toNat
  bitmaps_ne : sb.inodeBitmapBlock ≠ sb.dataBitmapBlock
  table_pos : 0 < sb.inodeTableStart.toNat
  inode_bitmap_table : sb.inodeBitmapBlock.toNat < sb.inodeTableStart.toNat ∨
    sb.inodeTableStart.toNat + sb.inodeTableBlocks.toNat ≤ sb.inodeBitmapBlock.toNat
  data_bitmap_table : sb.dataBitmapBlock.toNat < sb.inodeTableStart.toNat ∨
    sb.inodeTableStart.toNat + sb.inodeTableBlocks.toNat ≤ sb.dataBitmapBlock.toNat
  bitmaps_data : sb.inodeBitmapBlock.toNat < sb.dataBlockStart.toNat ∧
    sb.dataBitmapBlock.toNat < sb.dataBlockStart.toNat
  table_data : sb.inodeTableStart.toNat + sb.inodeTableBlocks.toNat ≤ sb.dataBlockStart.toNat
  data_le : sb.dataBlockStart.toNat ≤ sb.nblocks.toNat
  table_fits : inodeSize * sb.ninodes.toNat ≤ blockSize * sb.inodeTableBlocks.toNat
  inode_bitmap_fits : sb.ninodes.toNat ≤ 8 * blockSize
  data_bitmap_fits : sb.nblocks.toNat - sb.dataBlockStart.toNat ≤ 8 * blockSize

/-- The disk is well formed. -/
structure WellFormed (disk : Mem) (sb : SuperBlock) : Prop where
  super_eq : SuperBlock.decode disk 0 = sb
  laid : sb.Laid
  inum_range : ∀ n, Reach disk sb n → 1 ≤ n ∧ n < sb.ninodes.toNat
  inode_bit : ∀ n, Reach disk sb n → bitSet disk sb.inodeBitmapBlock.toNat n = true
  tail : ∀ n, Reach disk sb n → ∀ lb, (inodeAt disk sb n).blockCount ≤ lb →
    pointerOf disk (inodeAt disk sb n) lb = 0
  indirect_zero : ∀ n, Reach disk sb n → (inodeAt disk sb n).blockCount ≤ directBlocks →
    (inodeAt disk sb n).indirectBlock = 0
  ref_range : ∀ n, Reach disk sb n → ∀ b ∈ refs disk (inodeAt disk sb n),
    sb.dataBlockStart.toNat ≤ b.toNat ∧ b.toNat < sb.nblocks.toNat ∧
      bitSet disk sb.dataBitmapBlock.toNat (b.toNat - sb.dataBlockStart.toNat) = true
  refs_nodup : ∀ n, Reach disk sb n → (refs disk (inodeAt disk sb n)).Nodup
  refs_apart : ∀ n n', Reach disk sb n → Reach disk sb n' → n ≠ n' →
    ∀ b ∈ refs disk (inodeAt disk sb n), b ∉ refs disk (inodeAt disk sb n')
  dir_size : ∀ n, Reach disk sb n → (inodeAt disk sb n).ty = .directory →
    (inodeAt disk sb n).metadata.sz.toNat % direntSize = 0
  names_inj : ∀ n, Reach disk sb n → (inodeAt disk sb n).ty = .directory →
    ∀ j < (inodeAt disk sb n).entryCount, ∀ k < (inodeAt disk sb n).entryCount,
      (entryAt disk (inodeAt disk sb n) j).nameBytes = (entryAt disk (inodeAt disk sb n) k).nameBytes →
      j = k

/-! ## Files without shared blocks -/

/-- The blocks of the file are there, and no two of them are the same. -/
structure FileOk (disk : Mem) (inode : INodeInner) : Prop where
  nodup : (refs disk inode).Nodup
  ne_zero : ∀ b ∈ refs disk inode, b ≠ 0

section File
variable {disk disk' : Mem} {inode : INodeInner} {i j lb : ℕ}

theorem div_lt_blockCount (h : i < inode.metadata.sz.toNat) : i / blockSize < inode.blockCount := by
  unfold INodeInner.blockCount blockSize
  omega

theorem pointerOf_mem_dataRefs (h : lb < inode.blockCount) :
    pointerOf disk inode lb ∈ dataRefs disk inode :=
  List.mem_map.mpr ⟨lb, List.mem_range.mpr h, rfl⟩

theorem pointerOf_mem_refs (h : lb < inode.blockCount) :
    pointerOf disk inode lb ∈ refs disk inode :=
  List.mem_append_left _ (pointerOf_mem_dataRefs h)

theorem indirectBlock_mem_refs (h : directBlocks < inode.blockCount) :
    inode.indirectBlock ∈ refs disk inode := by
  rw [refs, if_pos h]
  exact List.mem_append_right _ (List.mem_singleton.mpr rfl)

theorem fileAddr_div (disk : Mem) (inode : INodeInner) (i : ℕ) :
    fileAddr disk inode i / blockSize = (pointerOf disk inode (i / blockSize)).toNat := by
  unfold fileAddr blockSize
  omega

/-- Different positions of a file are different places on the disk. -/
theorem FileOk.fileAddr_inj (h : FileOk disk inode) (hi : i < inode.metadata.sz.toNat)
    (hj : j < inode.metadata.sz.toNat) (heq : fileAddr disk inode i = fileAddr disk inode j) :
    i = j := by
  have hp : pointerOf disk inode (i / blockSize) = pointerOf disk inode (j / blockSize) := by
    have hdiv := congrArg (· / blockSize) heq
    simp only [fileAddr_div] at hdiv
    exact UInt32.toNat_inj.mp hdiv
  have hnodup : (dataRefs disk inode).Nodup := (List.nodup_append.mp h.nodup).1
  have hlb : i / blockSize = j / blockSize :=
    List.inj_on_of_nodup_map hnodup (List.mem_range.mpr (div_lt_blockCount hi))
      (List.mem_range.mpr (div_lt_blockCount hj)) hp
  have hmod : i % blockSize = j % blockSize := by
    have hadd := heq
    rw [fileAddr, fileAddr, hp] at hadd
    omega
  rw [← Nat.div_add_mod i blockSize, hlb, hmod, Nat.div_add_mod]

/-- The indirect block holds no byte of the file. -/
theorem FileOk.fileAddr_ne_indirect (h : FileOk disk inode) (hi : i < inode.metadata.sz.toNat)
    (hind : directBlocks < inode.blockCount) :
    fileAddr disk inode i / blockSize ≠ inode.indirectBlock.toNat := by
  rw [fileAddr_div]
  intro heq
  have hdisj := (List.nodup_append.mp h.nodup).2.2 _
    (pointerOf_mem_dataRefs (div_lt_blockCount hi)) inode.indirectBlock
    (by rw [if_pos hind]; exact List.mem_singleton.mpr rfl)
  exact hdisj (UInt32.toNat_inj.mp heq)

/-- The pointers of a file depend on its indirect block only. -/
theorem pointerOf_congr
    (h : directBlocks ≤ lb → ∀ a, a / blockSize = inode.indirectBlock.toNat → disk' a = disk a) :
    pointerOf disk' inode lb = pointerOf disk inode lb := by
  rw [pointerOf, pointerOf]
  by_cases hd : lb < directBlocks
  · rw [dif_pos hd, dif_pos hd]
  · rw [dif_neg hd, dif_neg hd]
    by_cases hout : lb - directBlocks ≥ indirectBlockEntries ∨ inode.indirectBlock = 0
    · rw [if_pos hout, if_pos hout]
    · rw [if_neg hout, if_neg hout, u32At, u32At]
      congr 1
      refine Mem.load_congr fun x hx hx' => h (Nat.not_lt.mp hd) x ?_
      have hlt := Nat.not_le.mp (not_or.mp hout).1
      unfold blockSize indirectBlockEntries at *
      omega

theorem fileAddr_congr (hp : ∀ lb < inode.blockCount, pointerOf disk' inode lb = pointerOf disk inode lb)
    (hi : i < inode.metadata.sz.toNat) : fileAddr disk' inode i = fileAddr disk inode i := by
  rw [fileAddr, fileAddr, hp _ (div_lt_blockCount hi)]

/-- The bytes of a directory entry lie in the file. -/
theorem entry_pos_lt {k : ℕ} (hk : k < inode.entryCount) (hi : i < direntSize) :
    direntSize * k + i < inode.metadata.sz.toNat := by
  unfold INodeInner.entryCount direntSize at *
  omega

/-- A directory entry lies in one block. -/
theorem fileAddr_entry (disk : Mem) (inode : INodeInner) {k : ℕ} (hi : i < direntSize) :
    fileAddr disk inode (direntSize * k + i) = fileAddr disk inode (direntSize * k) + i := by
  have hdiv : (direntSize * k + i) / blockSize = direntSize * k / blockSize := by
    unfold blockSize direntSize at *
    omega
  rw [fileAddr, fileAddr, hdiv]
  unfold blockSize direntSize at *
  omega

theorem refs_congr (hp : ∀ lb < inode.blockCount, pointerOf disk' inode lb = pointerOf disk inode lb) :
    refs disk' inode = refs disk inode := by
  have hdata : dataRefs disk' inode = dataRefs disk inode :=
    List.map_congr_left fun lb hlb => hp lb (List.mem_range.mp hlb)
  rw [refs, refs, hdata]

end File

/-! ## Records depend on their bytes only -/

section Records
variable {disk disk' : Mem} {a a' : ℕ}

theorem u16At_congr (h : ∀ i < 2, disk' (a' + i) = disk (a + i)) : u16At disk' a' = u16At disk a :=
  congrArg UInt16.ofNat (Mem.load_eq_load h)

theorem u32At_congr (h : ∀ i < 4, disk' (a' + i) = disk (a + i)) : u32At disk' a' = u32At disk a :=
  congrArg UInt32.ofNat (Mem.load_eq_load h)

/-- A word inside a record that agrees byte by byte. -/
theorem u32At_congr_of_le {n off : ℕ} (h : ∀ i < n, disk' (a' + i) = disk (a + i))
    (hoff : off + 4 ≤ n) : u32At disk' (a' + off) = u32At disk (a + off) :=
  u32At_congr fun i hi => by
    rw [Nat.add_assoc, Nat.add_assoc]
    exact h (off + i) (by omega)

theorem INodeInner.decode_congr (h : ∀ i < inodeSize, disk' (a' + i) = disk (a + i)) :
    INodeInner.decode disk' a' = INodeInner.decode disk a := by
  unfold inodeSize at h
  have hty : u16At disk' a' = u16At disk a := u16At_congr fun i hi => h i (by omega)
  have hlink : u16At disk' (a' + 2) = u16At disk (a + 2) := u16At_congr fun i hi => by
    rw [Nat.add_assoc, Nat.add_assoc]
    exact h (2 + i) (by omega)
  have hdirect : (fun i : Fin 12 => u32At disk' (a' + 12 + 4 * i.val)) =
      fun i : Fin 12 => u32At disk (a + 12 + 4 * i.val) := by
    funext i
    rw [Nat.add_assoc, Nat.add_assoc]
    exact u32At_congr_of_le h (by omega)
  rw [INodeInner.decode, INodeInner.decode, hty, hlink, hdirect,
    u32At_congr_of_le h (by omega : 4 + 4 ≤ 64), u32At_congr_of_le h (by omega : 8 + 4 ≤ 64),
    u32At_congr_of_le h (by omega : 60 + 4 ≤ 64)]

theorem DirEnt.decode_congr (h : ∀ i < direntSize, disk' (a' + i) = disk (a + i)) :
    DirEnt.decode disk' a' = DirEnt.decode disk a := by
  unfold direntSize at h
  have hinum : u32At disk' a' = u32At disk a := u32At_congr fun i hi => h i (by omega)
  have hname : (List.range 27).map (fun i => disk' (a' + 5 + i)) =
      (List.range 27).map fun i => disk (a + 5 + i) := by
    refine List.map_congr_left fun i hi => ?_
    rw [Nat.add_assoc, Nat.add_assoc]
    exact h (5 + i) (by have := List.mem_range.mp hi; omega)
  rw [DirEnt.decode, DirEnt.decode, hinum, h 4 (by omega), hname]

theorem SuperBlock.decode_congr (h : ∀ i < 32, disk' (a' + i) = disk (a + i)) :
    SuperBlock.decode disk' a' = SuperBlock.decode disk a := by
  have hmagic : u32At disk' a' = u32At disk a := u32At_congr fun i hi => h i (by omega)
  rw [SuperBlock.decode, SuperBlock.decode, hmagic, u32At_congr_of_le h (by omega : 4 + 4 ≤ 32),
    u32At_congr_of_le h (by omega : 8 + 4 ≤ 32), u32At_congr_of_le h (by omega : 12 + 4 ≤ 32),
    u32At_congr_of_le h (by omega : 16 + 4 ≤ 32), u32At_congr_of_le h (by omega : 20 + 4 ≤ 32),
    u32At_congr_of_le h (by omega : 24 + 4 ≤ 32), u32At_congr_of_le h (by omega : 28 + 4 ≤ 32)]

end Records

/-! ## Changing the contents of one file -/

/-- `disk'` is `disk` up to the contents of the file `inum`. -/
structure OnlyContents (disk disk' : Mem) (sb : SuperBlock) (inum : ℕ) : Prop where
  low : ∀ a, a / blockSize < sb.dataBlockStart.toNat → disk' a = disk a
  others : ∀ n, Reach disk sb n → n ≠ inum → ∀ b ∈ refs disk (inodeAt disk sb n),
    ∀ a, a / blockSize = b.toNat → disk' a = disk a
  indirect : directBlocks < (inodeAt disk sb inum).blockCount →
    ∀ a, a / blockSize = (inodeAt disk sb inum).indirectBlock.toNat → disk' a = disk a

namespace OnlyContents
variable {disk disk' : Mem} {sb : SuperBlock} {inum n : ℕ}
variable (h : OnlyContents disk disk' sb inum) (hwf : WellFormed disk sb)
include h hwf

theorem inodeAt_eq (hn : n < sb.ninodes.toNat) : inodeAt disk' sb n = inodeAt disk sb n := by
  refine INodeInner.decode_congr fun i hi => h.low _ ?_
  have hfits := hwf.laid.table_fits
  have hdata := hwf.laid.table_data
  unfold SuperBlock.inodeAddr inodeSize blockSize at *
  omega

omit hwf in
theorem bitSet_eq {block k : ℕ} (hb : block < sb.dataBlockStart.toNat) (hk : k < 8 * blockSize) :
    bitSet disk' block k = bitSet disk block k := by
  rw [bitSet, bitSet, h.low _ (by unfold blockSize at *; omega)]

theorem pointerOf_eq (hn : Reach disk sb n) (lb : ℕ) :
    pointerOf disk' (inodeAt disk sb n) lb = pointerOf disk (inodeAt disk sb n) lb := by
  refine pointerOf_congr fun hlb a ha => ?_
  by_cases hcount : directBlocks < (inodeAt disk sb n).blockCount
  · by_cases hni : n = inum
    · subst hni
      exact h.indirect hcount a ha
    · exact h.others n hn hni _ (indirectBlock_mem_refs hcount) a ha
  · -- Without an indirect block the "block 0" of the pointer is the superblock.
    have hzero := hwf.indirect_zero n hn (Nat.not_lt.mp hcount)
    refine h.low a ?_
    have hpos := hwf.laid.bitmaps_pos.1
    have hdata := hwf.laid.bitmaps_data.1
    rw [ha, hzero, UInt32.toNat_zero]
    omega

theorem refs_eq (hn : Reach disk sb n) :
    refs disk' (inodeAt disk sb n) = refs disk (inodeAt disk sb n) :=
  refs_congr fun lb _ => h.pointerOf_eq hwf hn lb

theorem fileByte_eq (hn : Reach disk sb n) (hne : n ≠ inum) {i : ℕ}
    (hi : i < (inodeAt disk sb n).metadata.sz.toNat) :
    fileByte disk' (inodeAt disk sb n) i = fileByte disk (inodeAt disk sb n) i := by
  rw [fileByte, fileByte, fileAddr_congr (fun lb _ => h.pointerOf_eq hwf hn lb) hi]
  exact h.others n hn hne _ (pointerOf_mem_refs (div_lt_blockCount hi)) _ (fileAddr_div ..)

theorem entryAt_eq (hn : Reach disk sb n) (hne : n ≠ inum) {k : ℕ}
    (hk : k < (inodeAt disk sb n).entryCount) :
    entryAt disk' (inodeAt disk sb n) k = entryAt disk (inodeAt disk sb n) k := by
  refine DirEnt.decode_congr fun i hi => ?_
  have hpos := entry_pos_lt hk hi
  rw [← fileAddr_entry disk' _ hi, ← fileAddr_entry disk _ hi]
  exact h.fileByte_eq hwf hn hne hpos

variable (hfile : (inodeAt disk sb inum).ty = .file)
include hfile

theorem reach_iff : Reach disk' sb n ↔ Reach disk sb n := by
  -- A directory on the way is not the file, so its entries are the same on both disks.
  have hdir : ∀ m, Reach disk sb m → (inodeAt disk sb m).ty = .directory → m ≠ inum := by
    rintro m - hty rfl
    rw [hfile] at hty
    cases hty
  constructor
  · intro hr
    induction hr with
    | root => exact .root
    | @entry m k hm hty hk ih =>
      have hino := h.inodeAt_eq hwf (hwf.inum_range m ih).2
      rw [hino] at hty hk ⊢
      rw [h.entryAt_eq hwf ih (hdir m ih hty) hk]
      exact .entry ih hty hk
  · intro hr
    induction hr with
    | root => exact .root
    | @entry m k hm hty hk ih =>
      have hino := h.inodeAt_eq hwf (hwf.inum_range m hm).2
      rw [← h.entryAt_eq hwf hm (hdir m hm hty) hk, ← hino]
      exact .entry ih (hino ▸ hty) (hino ▸ hk)

theorem wellFormed : WellFormed disk' sb := by
  have hreach : ∀ m, Reach disk' sb m → Reach disk sb m := fun m => (h.reach_iff hwf hfile).mp
  have hino : ∀ m, Reach disk sb m → inodeAt disk' sb m = inodeAt disk sb m := fun m hm =>
    h.inodeAt_eq hwf (hwf.inum_range m hm).2
  have hlaid := hwf.laid
  refine ⟨?_, hlaid, fun m hm => hwf.inum_range m (hreach m hm), fun m hm => ?_, fun m hm lb hlb => ?_,
    fun m hm hcount => ?_, fun m hm b hb => ?_, fun m hm => ?_, fun m m' hm hm' hne b hb => ?_,
    fun m hm hty => ?_, fun m hm hty j hj k hk heq => ?_⟩
  · rw [← hwf.super_eq]
    refine SuperBlock.decode_congr fun i hi => h.low _ ?_
    have hpos := hlaid.bitmaps_pos.1
    have hdata := hlaid.bitmaps_data.1
    unfold blockSize
    omega
  · have hm' := hreach m hm
    rw [h.bitSet_eq hlaid.bitmaps_data.1
      ((hwf.inum_range m hm').2.trans_le hlaid.inode_bitmap_fits)]
    exact hwf.inode_bit m hm'
  · have hm' := hreach m hm
    rw [hino m hm'] at hlb ⊢
    rw [h.pointerOf_eq hwf hm']
    exact hwf.tail m hm' lb hlb
  · have hm' := hreach m hm
    rw [hino m hm'] at hcount ⊢
    exact hwf.indirect_zero m hm' hcount
  · have hm' := hreach m hm
    rw [hino m hm', h.refs_eq hwf hm'] at hb
    obtain ⟨hlow, hhigh, hbit⟩ := hwf.ref_range m hm' b hb
    refine ⟨hlow, hhigh, ?_⟩
    rw [h.bitSet_eq hlaid.bitmaps_data.2 (by have := hlaid.data_bitmap_fits; omega)]
    exact hbit
  · have hm' := hreach m hm
    rw [hino m hm', h.refs_eq hwf hm']
    exact hwf.refs_nodup m hm'
  · have hr := hreach m hm
    have hr' := hreach m' hm'
    rw [hino m hr, h.refs_eq hwf hr] at hb
    rw [hino m' hr', h.refs_eq hwf hr']
    exact hwf.refs_apart m m' hr hr' hne b hb
  · have hm' := hreach m hm
    rw [hino m hm'] at hty ⊢
    exact hwf.dir_size m hm' hty
  · have hm' := hreach m hm
    rw [hino m hm'] at hty hj hk heq
    have hne : m ≠ inum := by
      rintro rfl
      rw [hfile] at hty
      cases hty
    rw [h.entryAt_eq hwf hm' hne hj, h.entryAt_eq hwf hm' hne hk] at heq
    exact hwf.names_inj m hm' hty j hj k hk heq

end OnlyContents

/-! ## A small disk -/

/-- The superblock of the small disk. -/
def smallSuper : SuperBlock := ⟨magic, 8, 3, 1, 2, 3, 1, 4⟩

/-- A disk whose root directory, in block 4, has one entry `a`: the file 2 of five bytes in
block 5. -/
def smallDisk : Mem := fun a =>
  (List.lookup a [(0, 0x53), (1, 0x46), (2, 0x53), (3, 0x56), (4, 8), (8, 3), (12, 1), (16, 2),
    (20, 3), (24, 1), (28, 4), (4096, 6), (8192, 3), (12352, 1), (12360, 32), (12364, 4),
    (12416, 2), (12424, 5), (12428, 5), (16384, 2), (16388, 1), (16389, 97)]).getD 0

theorem reach_small {n : ℕ} (h : Reach smallDisk smallSuper n) : n = 1 ∨ n = 2 := by
  induction h with
  | root => exact .inl rfl
  | entry _ hdir hk ih =>
    rcases ih with rfl | rfl
    · have hcount : (inodeAt smallDisk smallSuper 1).entryCount = 1 := by decide +kernel
      obtain rfl := Nat.lt_one_iff.mp (hcount ▸ hk)
      exact .inr (by decide +kernel)
    · exact absurd hdir (by decide +kernel)

/-- Without an indirect block only direct pointers are left. -/
theorem pointerOf_eq_zero {disk : Mem} {inode : INodeInner} {lb : ℕ}
    (hind : inode.indirectBlock = 0)
    (hdirect : ∀ i : Fin 12, lb ≤ i.val → inode.directBlocks i = 0) :
    pointerOf disk inode lb = 0 := by
  rw [pointerOf]
  split
  · exact hdirect _ le_rfl
  · rw [if_pos (.inr hind)]

theorem refs_small {n : ℕ} (h : Reach smallDisk smallSuper n) :
    refs smallDisk (inodeAt smallDisk smallSuper n) = [UInt32.ofNat (n + 3)] := by
  rcases reach_small h with rfl | rfl <;> decide +kernel

theorem wellFormed_small : WellFormed smallDisk smallSuper where
  super_eq := by decide +kernel
  laid := by constructor <;> decide
  inum_range n h := by rcases reach_small h with rfl | rfl <;> decide
  inode_bit n h := by rcases reach_small h with rfl | rfl <;> decide +kernel
  tail n h lb hlb := by
    rcases reach_small h with rfl | rfl
    all_goals
      refine pointerOf_eq_zero (by decide +kernel) fun i hi => ?_
      have hpos : i ≠ 0 := by
        rintro rfl
        exact absurd (hlb.trans hi) (by decide +kernel)
      clear hi
      revert i
      decide +kernel
  indirect_zero n h _ := by rcases reach_small h with rfl | rfl <;> decide +kernel
  ref_range n h b hb := by
    rw [refs_small h] at hb
    obtain rfl := List.mem_singleton.mp hb
    rcases reach_small h with rfl | rfl <;> decide +kernel
  refs_nodup n h := by rcases reach_small h with rfl | rfl <;> decide +kernel
  refs_apart n m h h' hne b hb := by
    rw [refs_small h] at hb
    obtain rfl := List.mem_singleton.mp hb
    rw [refs_small h']
    rcases reach_small h with rfl | rfl <;> rcases reach_small h' with rfl | rfl
    · exact absurd rfl hne
    · decide
    · decide
    · exact absurd rfl hne
  dir_size n h hdir := by
    rcases reach_small h with rfl | rfl
    · decide +kernel
    · exact absurd hdir (by decide +kernel)
  names_inj n h hdir := by
    rcases reach_small h with rfl | rfl
    · decide +kernel
    · exact absurd hdir (by decide +kernel)

end Efiks.Vsfs

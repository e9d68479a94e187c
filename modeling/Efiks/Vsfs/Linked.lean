import Efiks.Vsfs.BitmapBits
import Efiks.Vsfs.Tree

/-!
# A disk with one more file

`create_file` marks an inode, and a block if the directory has no room in its last one,
and writes the new inode, the entry and the grown directory. `Linked` collects what that
changes on the disk. From it follows what the disk is now: a tidy disk whose names are
those from before with one more entry.

## Main definitions

* `Linked` — the changes of the disk.

## Main results

* `Linked.reach_iff`, `Linked.tidy` — the new file is the only inode that is new.
* `Linked.lookup_eq` — the names are those of `NameTree.link`.
* `Linked.fileByte_eq` — no file has other contents.
-/
namespace Efiks.Vsfs
open Lib Lib.RustM Vfs

/-! ## Records from their bytes -/

section Bytes
variable {m : Mem} {a : ℕ}

theorem u16At_of_digits {v : UInt16} (h : ∀ i < 2, m (a + i) = Mem.digit v.toNat i) :
    u16At m a = v := by
  have hv := v.toNat_lt
  rw [u16At, Mem.load_eq_of_digits h, Nat.mod_eq_of_lt (by omega), UInt16.ofNat_toNat]

/-- The bytes of an inode record decode to it. -/
theorem INodeInner.decode_bytes (inode : INodeInner) (hty : FileType.ofTag inode.ty.tag = inode.ty)
    (h : ∀ i < inodeSize, m (a + i) = inode.bytes i) : INodeInner.decode m a = inode := by
  unfold inodeSize at h
  have htag : u16At m a = inode.ty.tag := u16At_of_digits fun i hi => by
    rw [h i (by omega), INodeInner.bytes, if_pos hi]
  have hlink : u16At m (a + 2) = inode.linkCount := u16At_of_digits fun i hi => by
    rw [Nat.add_assoc, h _ (by omega), INodeInner.bytes, if_neg (by omega), if_pos (by omega),
      Nat.add_sub_cancel_left]
  have hdev : u32At m (a + 4) = inode.metadata.dev := u32At_of_digits fun i hi => by
    rw [Nat.add_assoc, h _ (by omega), INodeInner.bytes, if_neg (by omega), if_neg (by omega),
      if_pos (by omega), Nat.add_sub_cancel_left]
  have hsz : u32At m (a + 8) = inode.metadata.sz := u32At_of_digits fun i hi => by
    rw [Nat.add_assoc, h _ (by omega), INodeInner.bytes, if_neg (by omega), if_neg (by omega),
      if_neg (by omega), if_pos (by omega), Nat.add_sub_cancel_left]
  have hdirect : (fun k : Fin 12 => u32At m (a + 12 + 4 * k.val)) = inode.directBlocks := by
    funext k
    refine u32At_of_digits fun i hi => ?_
    rw [Nat.add_assoc, Nat.add_assoc, h _ (by omega), INodeInner.bytes, if_neg (by omega),
      if_neg (by omega), if_neg (by omega), if_neg (by omega), dif_pos (by omega)]
    congr 3
    · exact Fin.ext (by dsimp only; omega)
    · omega
  have hindirect : u32At m (a + 60) = inode.indirectBlock := u32At_of_digits fun i hi => by
    rw [Nat.add_assoc, h _ (by omega), INodeInner.bytes, if_neg (by omega), if_neg (by omega),
      if_neg (by omega), if_neg (by omega), dif_neg (by omega), Nat.add_sub_cancel_left]
  rw [INodeInner.decode, htag, hty, hlink, hdev, hsz, hdirect, hindirect]

/-- The bytes of a directory entry decode to it. -/
theorem DirEnt.decode_bytes (d : DirEnt) (hname : d.name.length = 27)
    (h : ∀ i < direntSize, m (a + i) = d.bytes i) : DirEnt.decode m a = d := by
  unfold direntSize at h
  have hinum : u32At m a = d.inum := u32At_of_digits fun i hi => by
    rw [h i (by omega), DirEnt.bytes, if_pos hi]
  have hlen : m (a + 4) = d.nameLen := by
    rw [h 4 (by omega), DirEnt.bytes, if_neg (by omega), if_pos rfl]
  have hbytes : (List.range 27).map (fun i => m (a + 5 + i)) = d.name := by
    refine List.ext_getElem (by simp [hname]) fun i hi hi' => ?_
    rw [hname] at hi'
    rw [List.getElem_map, List.getElem_range, Nat.add_assoc, h _ (by omega), DirEnt.bytes,
      if_neg (by omega), if_neg (by omega), Nat.add_sub_cancel_left, List.getD_eq_getElem?_getD,
      List.getElem?_eq_getElem (by omega), Option.getD_some]
  rw [DirEnt.decode, hinum, hlen, hbytes]

/-- The name of a new entry. -/
theorem nameBytes_newDirent {name : List UInt8} (inum : ℕ) (hname : name.length ≤ 27) :
    (newDirent inum name).nameBytes = name := by
  have hlen : (UInt8.ofNat name.length).toNat = name.length := by
    rw [UInt8.toNat_ofNat']
    omega
  rw [DirEnt.nameBytes, newDirent, hlen, List.take_left']
  rfl

end Bytes

/-- A new file refers to no block. -/
theorem refs_emptyFile (disk : Mem) : refs disk emptyFile = [] := by
  have hcount : emptyFile.blockCount = 0 := by decide
  rw [refs, dataRefs, hcount, if_neg (Nat.not_lt_zero _), List.range_zero, List.map_nil,
    List.append_nil]

/-! ## What changes on the disk -/

/-- The number of the direct pointer for the next entry of a directory. -/
def INodeInner.slot (dir : INodeInner) : ℕ := dir.metadata.sz.toNat / blockSize

/-- The byte address of the next entry of a directory, in the block `block`. -/
def INodeInner.nextEntry (dir : INodeInner) (block : UInt32) : ℕ :=
  blockSize * block.toNat + dir.metadata.sz.toNat % blockSize

/-- The directory `p` has a new entry for the new file `m`, in the block `block`. This is the block
of `allocated`, or else one that the directory had before. -/
structure Linked (disk disk' : Mem) (sb : SuperBlock) (p m : ℕ) (name : List UInt8)
    (allocated : Option UInt32) (block : UInt32) : Prop where
  slot_lt : (inodeAt disk sb p).slot < directBlocks
  super : ∀ a < blockSize, disk' a = disk a
  inum_range : 1 ≤ m ∧ m < sb.ninodes.toNat
  inum_free : bitAt disk sb.inodeBitmapBlock m = false
  inode_bits : ∀ k < 8 * blockSize, bitAt disk' sb.inodeBitmapBlock k =
    if k = m then true else bitAt disk sb.inodeBitmapBlock k
  data_bits : ∀ k < 8 * blockSize, bitAt disk sb.dataBitmapBlock k = true →
    bitAt disk' sb.dataBitmapBlock k = true
  inode_others : ∀ n < sb.ninodes.toNat, n ≠ p → n ≠ m → inodeAt disk' sb n = inodeAt disk sb n
  inode_new : inodeAt disk' sb m = emptyFile
  inode_parent : inodeAt disk' sb p = grownParent (inodeAt disk sb p)
    ⟨(inodeAt disk sb p).slot, slot_lt⟩ ((inodeAt disk sb p).metadata.sz + UInt32.ofNat direntSize)
    allocated
  block_there : allocated = none →
    block = (inodeAt disk sb p).directBlocks ⟨(inodeAt disk sb p).slot, slot_lt⟩ ∧ block ≠ 0
  block_new : ∀ b, allocated = some b → block = b ∧
    (inodeAt disk sb p).directBlocks ⟨(inodeAt disk sb p).slot, slot_lt⟩ = 0 ∧
    sb.dataBlockStart.toNat ≤ b.toNat ∧ b.toNat < sb.nblocks.toNat ∧
    bitAt disk sb.dataBitmapBlock (b.toNat - sb.dataBlockStart.toNat) = false ∧
    bitAt disk' sb.dataBitmapBlock (b.toNat - sb.dataBlockStart.toNat) = true
  data : ∀ a, sb.dataBlockStart.toNat ≤ a / blockSize →
    a < (inodeAt disk sb p).nextEntry block ∨ (inodeAt disk sb p).nextEntry block + direntSize ≤ a →
    disk' a = disk a
  entry : DirEnt.decode disk' ((inodeAt disk sb p).nextEntry block) = newDirent m name

theorem bitSet_eq_bitAt (disk : Mem) (block : UInt32) (k : ℕ) :
    bitSet disk block.toNat k = bitAt disk block k := by
  have hbit : disk (bitByte block k) &&& bitMask k = 0 ↔ bitAt disk block k = false :=
    and_bitMask_eq_zero _ k
  have hset : bitSet disk block.toNat k = (disk (bitByte block k) &&& bitMask k != 0) := rfl
  rw [hset]
  cases hb : bitAt disk block k with
  | false => rw [hbit.mpr hb, bne_self_eq_false]
  | true =>
    rw [bne_iff_ne]
    intro hzero
    rw [hbit.mp hzero] at hb
    cases hb

section Slot
variable {disk : Mem} {sb : SuperBlock} {dir : INodeInner} {p : ℕ}

theorem INodeInner.blockCount_of_full (h : dir.metadata.sz.toNat % blockSize = 0) :
    dir.blockCount = dir.slot := by
  unfold INodeInner.blockCount INodeInner.slot blockSize at *
  omega

theorem INodeInner.blockCount_of_room (h : dir.metadata.sz.toNat % blockSize ≠ 0) :
    dir.blockCount = dir.slot + 1 := by
  unfold INodeInner.blockCount INodeInner.slot blockSize at *
  omega

theorem pointerOf_slot (hslot : dir.slot < directBlocks) :
    pointerOf disk dir dir.slot = dir.directBlocks ⟨dir.slot, hslot⟩ := dif_pos hslot

/-- A block with room for an entry is one of the directory. -/
theorem slot_mem_refs (hslot : dir.slot < directBlocks)
    (hroom : dir.metadata.sz.toNat % blockSize ≠ 0) :
    dir.directBlocks ⟨dir.slot, hslot⟩ ∈ refs disk dir := by
  have hlt : dir.slot < dir.blockCount := by
    rw [INodeInner.blockCount_of_room hroom]
    exact Nat.lt_succ_self _
  rw [← pointerOf_slot hslot]
  exact pointerOf_mem_refs hlt

/-- The pointer for the next entry is zero exactly if the blocks of the directory are full. -/
theorem Tidy.slot_eq_zero_iff (ht : Tidy disk sb) (hp : Reach disk sb p)
    (hslot : (inodeAt disk sb p).slot < directBlocks) :
    (inodeAt disk sb p).directBlocks ⟨(inodeAt disk sb p).slot, hslot⟩ = 0 ↔
      (inodeAt disk sb p).metadata.sz.toNat % blockSize = 0 := by
  constructor
  · intro hzero
    by_contra hroom
    have hlow := (ht.ref_range p hp _ (slot_mem_refs hslot hroom)).1
    have hpos := ht.laid.bitmaps_data.1
    rw [hzero, UInt32.toNat_zero] at hlow
    omega
  · intro hfull
    have htail := ht.tail p hp _ (INodeInner.blockCount_of_full hfull).le
    rwa [pointerOf_slot hslot] at htail

end Slot

namespace Linked
variable {disk disk' : Mem} {sb : SuperBlock} {p m n : ℕ} {name : List UInt8}
variable {allocated : Option UInt32} {block : UInt32}
variable (h : Linked disk disk' sb p m name allocated block) (ht : Tidy disk sb)
include h ht

/-- The new file was not reachable. -/
theorem not_reach : ¬ Reach disk sb m := by
  intro hm
  have hbit := ht.inode_bit m hm
  rw [bitSet_eq_bitAt, h.inum_free] at hbit
  cases hbit

theorem ne_new (hn : Reach disk sb n) : n ≠ m := by
  rintro rfl
  exact h.not_reach ht hn

theorem inodeAt_eq (hn : Reach disk sb n) (hnp : n ≠ p) : inodeAt disk' sb n = inodeAt disk sb n :=
  h.inode_others n (ht.inum_range n hn).2 hnp (h.ne_new ht hn)

omit ht in
/-- The blocks of the directory before and after. -/
theorem blockCount_le : (inodeAt disk sb p).blockCount ≤ directBlocks := by
  have hslot := h.slot_lt
  unfold INodeInner.slot INodeInner.blockCount blockSize directBlocks at *
  omega

variable (hp : Reach disk sb p)
include hp

/-- A block is allocated exactly if the last one is full. -/
theorem allocated_none_iff : allocated = none ↔
    (inodeAt disk sb p).metadata.sz.toNat % blockSize ≠ 0 := by
  have hzero := ht.slot_eq_zero_iff hp h.slot_lt
  constructor
  · intro hnone hfull
    obtain ⟨hblock, hne⟩ := h.block_there hnone
    exact hne (hblock.trans (hzero.mpr hfull))
  · intro hroom
    cases hall : allocated with
    | none => rfl
    | some b =>
      obtain ⟨-, hnull, -⟩ := h.block_new b hall
      exact absurd (hzero.mp hnull) hroom

/-- A block that was not allocated for the entry is one of the directory. -/
theorem block_mem_refs (hnone : allocated = none) : block ∈ refs disk (inodeAt disk sb p) := by
  rw [(h.block_there hnone).1]
  exact slot_mem_refs h.slot_lt ((h.allocated_none_iff ht hp).mp hnone)

/-- No other inode refers to the block. -/
theorem block_notMem (hn : Reach disk sb n) (hnp : n ≠ p) :
    block ∉ refs disk (inodeAt disk sb n) := by
  intro hmem
  cases hall : allocated with
  | none =>
    exact ht.refs_apart n p hn hp hnp block hmem (h.block_mem_refs ht hp hall)
  | some b =>
    obtain ⟨rfl, -, -, -, hfree, -⟩ := h.block_new b hall
    have hbit := (ht.ref_range n hn block hmem).2.2
    rw [bitSet_eq_bitAt, hfree] at hbit
    cases hbit

variable (hdir : (inodeAt disk sb p).ty = .directory)
include hdir

/-- The new entry is the only place of the data area that changes. -/
theorem data_eq {a : ℕ} (hlow : sb.dataBlockStart.toNat ≤ a / blockSize)
    (hne : a / blockSize ≠ block.toNat) : disk' a = disk a := by
  have hsize := ht.dir_size p hp hdir
  refine h.data a hlow ?_
  unfold INodeInner.nextEntry blockSize direntSize at *
  omega

/-! ### The other inodes -/

theorem refs_byte_eq (hn : Reach disk sb n) (hnp : n ≠ p) {b : UInt32}
    (hb : b ∈ refs disk (inodeAt disk sb n)) {a : ℕ} (ha : a / blockSize = b.toNat) :
    disk' a = disk a := by
  refine h.data_eq ht hp hdir (ha ▸ (ht.ref_range n hn b hb).1) fun heq => ?_
  obtain rfl : b = block := UInt32.toNat_inj.mp (ha.symm.trans heq)
  exact h.block_notMem ht hp hn hnp hb

theorem pointerOf_eq (hn : Reach disk sb n) (hnp : n ≠ p) (lb : ℕ) :
    pointerOf disk' (inodeAt disk sb n) lb = pointerOf disk (inodeAt disk sb n) lb := by
  refine pointerOf_congr fun _ a ha => ?_
  by_cases hcount : directBlocks < (inodeAt disk sb n).blockCount
  · exact h.refs_byte_eq ht hp hdir hn hnp (indirectBlock_mem_refs hcount) ha
  · refine h.super a ?_
    rw [ht.indirect_zero n hn (Nat.not_lt.mp hcount), UInt32.toNat_zero] at ha
    unfold blockSize at *
    omega

theorem refs_eq (hn : Reach disk sb n) (hnp : n ≠ p) :
    refs disk' (inodeAt disk' sb n) = refs disk (inodeAt disk sb n) := by
  rw [h.inodeAt_eq ht hn hnp]
  exact refs_congr fun lb _ => h.pointerOf_eq ht hp hdir hn hnp lb

/-- No other file has other contents. -/
theorem fileByte_eq (hn : Reach disk sb n) (hnp : n ≠ p) {i : ℕ}
    (hi : i < (inodeAt disk sb n).metadata.sz.toNat) :
    fileByte disk' (inodeAt disk' sb n) i = fileByte disk (inodeAt disk sb n) i := by
  rw [h.inodeAt_eq ht hn hnp, fileByte, fileByte,
    fileAddr_congr (fun lb _ => h.pointerOf_eq ht hp hdir hn hnp lb) hi]
  exact h.refs_byte_eq ht hp hdir hn hnp (pointerOf_mem_refs (div_lt_blockCount hi))
    (fileAddr_div ..)

theorem entryAt_eq (hn : Reach disk sb n) (hnp : n ≠ p) {k : ℕ}
    (hk : k < (inodeAt disk sb n).entryCount) :
    entryAt disk' (inodeAt disk' sb n) k = entryAt disk (inodeAt disk sb n) k := by
  refine DirEnt.decode_congr fun i hi => ?_
  rw [← fileAddr_entry disk' _ hi, ← fileAddr_entry disk _ hi]
  exact h.fileByte_eq ht hp hdir hn hnp (entry_pos_lt hk hi)

/-! ### The directory -/

omit ht hp hdir in
theorem sz_parent : (inodeAt disk' sb p).metadata.sz.toNat =
    (inodeAt disk sb p).metadata.sz.toNat + direntSize := by
  have hslot := h.slot_lt
  have hadd : (inodeAt disk' sb p).metadata.sz =
      (inodeAt disk sb p).metadata.sz + UInt32.ofNat direntSize := by rw [h.inode_parent]; rfl
  have hsize : (UInt32.ofNat direntSize).toNat = direntSize := rfl
  rw [hadd, UInt32.toNat_add, hsize, Nat.mod_eq_of_lt]
  unfold INodeInner.slot blockSize directBlocks direntSize at *
  omega

omit ht hp hdir in
theorem entryCount_parent :
    (inodeAt disk' sb p).entryCount = (inodeAt disk sb p).entryCount + 1 := by
  have hsz := h.sz_parent
  unfold INodeInner.entryCount direntSize at *
  omega

theorem blockCount_parent :
    (inodeAt disk' sb p).blockCount = (inodeAt disk sb p).slot + 1 := by
  have hsz := h.sz_parent
  have hsize := ht.dir_size p hp hdir
  unfold INodeInner.blockCount INodeInner.slot blockSize direntSize at *
  omega

omit ht hp hdir in
/-- The direct pointers of the directory afterwards. -/
theorem directBlocks_parent (i : Fin 12) : (inodeAt disk' sb p).directBlocks i =
    if i.val = (inodeAt disk sb p).slot then block else (inodeAt disk sb p).directBlocks i := by
  rw [h.inode_parent]
  cases allocated with
  | none =>
    have hblock := (h.block_there rfl).1
    by_cases hi : i.val = (inodeAt disk sb p).slot
    · rw [if_pos hi]
      exact (congrArg (inodeAt disk sb p).directBlocks (Fin.ext hi)).trans hblock.symm
    · rw [if_neg hi]
      rfl
  | some b =>
    obtain ⟨rfl, -⟩ := h.block_new b rfl
    by_cases hi : i.val = (inodeAt disk sb p).slot
    · rw [if_pos hi, show i = ⟨(inodeAt disk sb p).slot, h.slot_lt⟩ from Fin.ext hi]
      exact Function.update_self ..
    · rw [if_neg hi]
      refine Function.update_of_ne (fun heq => hi ?_) _ _
      rw [heq]

omit hdir in
theorem pointerOf_parent (lb : ℕ) : pointerOf disk' (inodeAt disk' sb p) lb =
    if lb = (inodeAt disk sb p).slot then block else pointerOf disk (inodeAt disk sb p) lb := by
  have hzero := ht.indirect_zero p hp h.blockCount_le
  have hzero' : (inodeAt disk' sb p).indirectBlock = 0 := by
    rw [h.inode_parent]
    exact hzero
  by_cases hlb : lb < directBlocks
  · rw [pointerOf, dif_pos hlb, h.directBlocks_parent, pointerOf, dif_pos hlb]
  · have hne : lb ≠ (inodeAt disk sb p).slot := by
      have := h.slot_lt
      omega
    rw [if_neg hne, pointerOf, dif_neg hlb, if_pos (.inr hzero'), pointerOf, dif_neg hlb,
      if_pos (.inr hzero)]

/-- The blocks of the directory afterwards. -/
theorem refs_parent : refs disk' (inodeAt disk' sb p) =
    refs disk (inodeAt disk sb p) ++ allocated.toList := by
  have hcount := h.blockCount_parent ht hp hdir
  have hslot := h.slot_lt
  have hindirect : ¬ directBlocks < (inodeAt disk' sb p).blockCount := by omega
  have hindirect' : ¬ directBlocks < (inodeAt disk sb p).blockCount := h.blockCount_le.not_gt
  rw [refs, if_neg hindirect, refs, if_neg hindirect', List.append_nil, List.append_nil, dataRefs,
    dataRefs, hcount]
  have hold : ∀ lb < (inodeAt disk sb p).slot, pointerOf disk' (inodeAt disk' sb p) lb =
      pointerOf disk (inodeAt disk sb p) lb := by
    intro lb hlb
    rw [h.pointerOf_parent ht hp, if_neg hlb.ne]
  have hnew : pointerOf disk' (inodeAt disk' sb p) (inodeAt disk sb p).slot = block := by
    rw [h.pointerOf_parent ht hp, if_pos rfl]
  have hmap : (List.range (inodeAt disk sb p).slot).map (pointerOf disk' (inodeAt disk' sb p)) =
      (List.range (inodeAt disk sb p).slot).map (pointerOf disk (inodeAt disk sb p)) :=
    List.map_congr_left fun lb hlb => hold lb (List.mem_range.mp hlb)
  rw [List.range_succ, List.map_append, List.map_singleton, hmap, hnew]
  cases hall : allocated with
  | none =>
    have hroom := (h.allocated_none_iff ht hp).mp hall
    rw [INodeInner.blockCount_of_room hroom, List.range_succ, List.map_append, List.map_singleton,
      pointerOf_slot h.slot_lt,
      ← (h.block_there hall).1, Option.toList_none, List.append_nil]
  | some b =>
    have hfull : (inodeAt disk sb p).metadata.sz.toNat % blockSize = 0 := by
      by_contra hroom
      rw [(h.allocated_none_iff ht hp).mpr hroom] at hall
      cases hall
    obtain ⟨rfl, -⟩ := h.block_new b hall
    rw [INodeInner.blockCount_of_full hfull, Option.toList_some]

/-- The entries from before. -/
theorem entryAt_parent {k : ℕ} (hk : k < (inodeAt disk sb p).entryCount) :
    entryAt disk' (inodeAt disk' sb p) k = entryAt disk (inodeAt disk sb p) k := by
  have hpos := entry_pos_lt hk (i := 0) (by decide)
  rw [Nat.add_zero] at hpos
  have hlb := div_lt_blockCount hpos
  -- a position before the end of the directory is in one of its old blocks
  have hpointer : pointerOf disk' (inodeAt disk' sb p) (direntSize * k / blockSize) =
      pointerOf disk (inodeAt disk sb p) (direntSize * k / blockSize) := by
    rw [h.pointerOf_parent ht hp]
    by_cases hlast : direntSize * k / blockSize = (inodeAt disk sb p).slot
    · have hnone : allocated = none := by
        rw [h.allocated_none_iff ht hp]
        unfold INodeInner.slot blockSize at *
        omega
      rw [if_pos hlast, hlast, pointerOf_slot h.slot_lt]
      exact (h.block_there hnone).1
    · rw [if_neg hlast]
  have haddr : fileAddr disk' (inodeAt disk' sb p) (direntSize * k) =
      fileAddr disk (inodeAt disk sb p) (direntSize * k) := by rw [fileAddr, hpointer, fileAddr]
  rw [entryAt, haddr, entryAt]
  refine DirEnt.decode_congr fun i hi => ?_
  have hsize := ht.dir_size p hp hdir
  have hlow := (ht.ref_range p hp _ (pointerOf_mem_refs hlb)).1
  have hdiv : (fileAddr disk (inodeAt disk sb p) (direntSize * k) + i) / blockSize =
      (pointerOf disk (inodeAt disk sb p) (direntSize * k / blockSize)).toNat := by
    unfold fileAddr blockSize direntSize at *
    omega
  refine h.data _ (hdiv ▸ hlow) ?_
  by_cases hsame : (pointerOf disk (inodeAt disk sb p) (direntSize * k / blockSize)).toNat =
      block.toNat
  · -- in the block of the new entry the old ones come first
    have hslot : direntSize * k / blockSize = (inodeAt disk sb p).slot := by
      have hnodup := ht.refs_nodup p hp
      cases hall : allocated with
      | none =>
        have hroom := (h.allocated_none_iff ht hp).mp hall
        have hlt : (inodeAt disk sb p).slot < (inodeAt disk sb p).blockCount := by
          rw [INodeInner.blockCount_of_room hroom]
          exact Nat.lt_succ_self _
        refine List.inj_on_of_nodup_map (List.nodup_append.mp hnodup).1 (List.mem_range.mpr hlb)
          (List.mem_range.mpr hlt) ?_
        rw [pointerOf_slot h.slot_lt, ← (h.block_there hall).1]
        exact UInt32.toNat_inj.mp hsame
      | some b =>
        obtain ⟨rfl, -, -, -, hfree, -⟩ := h.block_new b hall
        have hbit := (ht.ref_range p hp _ (pointerOf_mem_refs hlb)).2.2
        rw [UInt32.toNat_inj.mp hsame, bitSet_eq_bitAt, hfree] at hbit
        cases hbit
    left
    rw [fileAddr, INodeInner.nextEntry, hsame]
    unfold INodeInner.slot blockSize direntSize at *
    omega
  · unfold INodeInner.nextEntry blockSize direntSize at *
    omega

/-- The new entry is behind the others. -/
theorem entryAt_last : entryAt disk' (inodeAt disk' sb p) (inodeAt disk sb p).entryCount =
    newDirent m name := by
  have hsize := ht.dir_size p hp hdir
  have hpos : direntSize * (inodeAt disk sb p).entryCount =
      (inodeAt disk sb p).metadata.sz.toNat := by
    unfold INodeInner.entryCount direntSize at *
    omega
  have haddr : fileAddr disk' (inodeAt disk' sb p) (direntSize * (inodeAt disk sb p).entryCount) =
      (inodeAt disk sb p).nextEntry block := by
    have hslot : (inodeAt disk sb p).metadata.sz.toNat / blockSize = (inodeAt disk sb p).slot := rfl
    rw [fileAddr, hpos, hslot, h.pointerOf_parent ht hp, if_pos rfl, INodeInner.nextEntry]
  rw [entryAt, haddr, h.entry]

/-! ### The whole disk -/

omit ht hp hdir in
theorem inum_newDirent : (newDirent m name).inum.toNat = m := by
  have hlt := h.inum_range.2.trans sb.ninodes.toNat_lt
  rw [newDirent]
  exact UInt32.toNat_ofNat_of_lt' hlt

omit ht hp in
theorem ty_parent : (inodeAt disk' sb p).ty = .directory := by
  rw [h.inode_parent]
  exact hdir

theorem reach_mono (hn : Reach disk sb n) : Reach disk' sb n := by
  induction hn with
  | root => exact .root
  | @entry n k hn hty hk ih =>
    by_cases hnp : n = p
    · subst hnp
      rw [← h.entryAt_parent ht hp hdir hk]
      refine .entry ih (h.ty_parent hdir) ?_
      rw [h.entryCount_parent]
      omega
    · have hino := h.inodeAt_eq ht hn hnp
      rw [← h.entryAt_eq ht hp hdir hn hnp hk]
      exact .entry ih (by rw [hino, hty]) (by rwa [hino])

/-- The new file is the only inode that becomes reachable. -/
theorem reach_iff : Reach disk' sb n ↔ Reach disk sb n ∨ n = m := by
  constructor
  · intro hn
    induction hn with
    | root => exact .inl .root
    | @entry n k hn hty hk ih =>
      rcases ih with ih | rfl
      · by_cases hnp : n = p
        · subst hnp
          rw [h.entryCount_parent, Nat.lt_succ_iff] at hk
          rcases hk.lt_or_eq with hk | rfl
          · rw [h.entryAt_parent ht hp hdir hk]
            exact .inl (.entry hp hdir hk)
          · rw [h.entryAt_last ht hp hdir, h.inum_newDirent]
            exact .inr rfl
        · have hino := h.inodeAt_eq ht ih hnp
          rw [hino] at hty hk
          rw [h.entryAt_eq ht hp hdir ih hnp hk]
          exact .inl (.entry ih hty hk)
      · rw [h.inode_new] at hty
        cases hty
  · rintro (hn | rfl)
    · exact h.reach_mono ht hp hdir hn
    · have hlast : Reach disk' sb
          (entryAt disk' (inodeAt disk' sb p) (inodeAt disk sb p).entryCount).inum.toNat := by
        refine .entry (h.reach_mono ht hp hdir hp) (h.ty_parent hdir) ?_
        rw [h.entryCount_parent]
        omega
      rwa [h.entryAt_last ht hp hdir, h.inum_newDirent] at hlast

/-- The inodes of the new disk. -/
theorem reach_cases (hn : Reach disk' sb n) : n = m ∨ n = p ∨ Reach disk sb n ∧ n ≠ p := by
  rcases (h.reach_iff ht hp hdir).mp hn with hn | rfl
  · by_cases hnp : n = p
    · exact .inr (.inl hnp)
    · exact .inr (.inr ⟨hn, hnp⟩)
  · exact .inl rfl

/-- A block that an inode refers to was there or is the allocated one. -/
theorem refs_cases (hn : Reach disk' sb n) {b : UInt32} (hb : b ∈ refs disk' (inodeAt disk' sb n)) :
    Reach disk sb n ∧ b ∈ refs disk (inodeAt disk sb n) ∨ n = p ∧ allocated = some b := by
  rcases h.reach_cases ht hp hdir hn with rfl | rfl | ⟨hn, hnp⟩
  · rw [h.inode_new, refs_emptyFile] at hb
    cases hb
  · rw [h.refs_parent ht hp hdir, List.mem_append, Option.mem_toList] at hb
    rcases hb with hb | hb
    · exact .inl ⟨hp, hb⟩
    · exact .inr ⟨rfl, hb⟩
  · rw [h.refs_eq ht hp hdir hn hnp] at hb
    exact .inl ⟨hn, hb⟩

omit hp hdir in
/-- No inode referred to the allocated block. -/
theorem allocated_notMem {b : UInt32} (hb : allocated = some b) (hn : Reach disk sb n) :
    b ∉ refs disk (inodeAt disk sb n) := by
  intro hmem
  obtain ⟨-, -, -, -, hfree, -⟩ := h.block_new b hb
  have hbit := (ht.ref_range n hn b hmem).2.2
  rw [bitSet_eq_bitAt, hfree] at hbit
  cases hbit

theorem refs_nodup (hn : Reach disk' sb n) : (refs disk' (inodeAt disk' sb n)).Nodup := by
  rcases h.reach_cases ht hp hdir hn with rfl | rfl | ⟨hn, hnp⟩
  · rw [h.inode_new, refs_emptyFile]
    exact List.nodup_nil
  · rw [h.refs_parent ht hp hdir, List.nodup_append]
    refine ⟨ht.refs_nodup n hp, ?_, ?_⟩
    · cases allocated with
      | none => exact List.nodup_nil
      | some b => exact List.nodup_singleton b
    · rintro b hb _ hb' rfl
      exact h.allocated_notMem ht (Option.mem_toList.mp hb') hp hb
  · rw [h.refs_eq ht hp hdir hn hnp]
    exact ht.refs_nodup n hn

theorem refs_apart {n' : ℕ} (hn : Reach disk' sb n) (hn' : Reach disk' sb n') (hne : n ≠ n')
    {b : UInt32} (hb : b ∈ refs disk' (inodeAt disk' sb n)) :
    b ∉ refs disk' (inodeAt disk' sb n') := by
  intro hb'
  rcases h.refs_cases ht hp hdir hn hb with ⟨hr, hmem⟩ | ⟨rfl, hall⟩ <;>
    rcases h.refs_cases ht hp hdir hn' hb' with ⟨hr', hmem'⟩ | ⟨rfl, hall'⟩
  · exact ht.refs_apart n n' hr hr' hne b hmem hmem'
  · exact h.allocated_notMem ht hall' hr hmem
  · exact h.allocated_notMem ht hall hr' hmem'
  · exact hne rfl

theorem ref_range (hn : Reach disk' sb n) {b : UInt32} (hb : b ∈ refs disk' (inodeAt disk' sb n)) :
    sb.dataBlockStart.toNat ≤ b.toNat ∧ b.toNat < sb.nblocks.toNat ∧
      bitSet disk' sb.dataBitmapBlock.toNat (b.toNat - sb.dataBlockStart.toNat) = true := by
  rw [bitSet_eq_bitAt]
  rcases h.refs_cases ht hp hdir hn hb with ⟨hr, hmem⟩ | ⟨-, hall⟩
  · obtain ⟨hlow, hhigh, hbit⟩ := ht.ref_range n hr b hmem
    rw [bitSet_eq_bitAt] at hbit
    have hfits := ht.laid.data_bitmap_fits
    exact ⟨hlow, hhigh, h.data_bits _ (by omega) hbit⟩
  · obtain ⟨-, -, hlow, hhigh, -, hbit⟩ := h.block_new b hall
    exact ⟨hlow, hhigh, hbit⟩

theorem tail (hn : Reach disk' sb n) {lb : ℕ} (hlb : (inodeAt disk' sb n).blockCount ≤ lb) :
    pointerOf disk' (inodeAt disk' sb n) lb = 0 := by
  rcases h.reach_cases ht hp hdir hn with rfl | rfl | ⟨hn, hnp⟩
  · rw [h.inode_new]
    exact pointerOf_eq_zero rfl fun _ _ => rfl
  · rw [h.blockCount_parent ht hp hdir] at hlb
    rw [h.pointerOf_parent ht hp, if_neg (by omega)]
    refine ht.tail n hp lb ?_
    unfold INodeInner.blockCount INodeInner.slot blockSize at *
    omega
  · rw [h.inodeAt_eq ht hn hnp] at hlb ⊢
    rw [h.pointerOf_eq ht hp hdir hn hnp]
    exact ht.tail n hn lb hlb

theorem indirect_zero (hn : Reach disk' sb n)
    (hcount : (inodeAt disk' sb n).blockCount ≤ directBlocks) :
    (inodeAt disk' sb n).indirectBlock = 0 := by
  rcases h.reach_cases ht hp hdir hn with rfl | rfl | ⟨hn, hnp⟩
  · rw [h.inode_new]
    rfl
  · rw [h.inode_parent]
    exact ht.indirect_zero n hp h.blockCount_le
  · rw [h.inodeAt_eq ht hn hnp] at hcount ⊢
    exact ht.indirect_zero n hn hcount

/-- The directories of the new disk are those of the old one. -/
theorem dir_cases (hn : Reach disk' sb n) (hty : (inodeAt disk' sb n).ty = .directory) :
    n = p ∨ Reach disk sb n ∧ n ≠ p ∧ (inodeAt disk sb n).ty = .directory := by
  rcases h.reach_cases ht hp hdir hn with rfl | rfl | ⟨hn, hnp⟩
  · rw [h.inode_new] at hty
    cases hty
  · exact .inl rfl
  · exact .inr ⟨hn, hnp, by rwa [h.inodeAt_eq ht hn hnp] at hty⟩

variable (hlen : name.length ≤ 27) (hnew : (tree disk sb).child p name = none)
include hlen hnew

omit h ht hp hdir hlen in
theorem name_new {k : ℕ} (hk : k < (inodeAt disk sb p).entryCount) :
    (entryAt disk (inodeAt disk sb p) k).nameBytes ≠ name :=
  findEntry_eq_none_iff.mp (Option.map_eq_none_iff.mp hnew) k hk

theorem names_inj (hn : Reach disk' sb n) (hty : (inodeAt disk' sb n).ty = .directory) {j k : ℕ}
    (hj : j < (inodeAt disk' sb n).entryCount) (hk : k < (inodeAt disk' sb n).entryCount)
    (heq : (entryAt disk' (inodeAt disk' sb n) j).nameBytes =
      (entryAt disk' (inodeAt disk' sb n) k).nameBytes) : j = k := by
  rcases h.dir_cases ht hp hdir hn hty with rfl | ⟨hn, hnp, hty⟩
  · rw [h.entryCount_parent, Nat.lt_succ_iff] at hj hk
    rcases hj.lt_or_eq with hj | rfl <;> rcases hk.lt_or_eq with hk | rfl
    · rw [h.entryAt_parent ht hp hdir hj, h.entryAt_parent ht hp hdir hk] at heq
      exact ht.names_inj n hp hdir j hj k hk heq
    · rw [h.entryAt_parent ht hp hdir hj, h.entryAt_last ht hp hdir,
        nameBytes_newDirent m hlen] at heq
      exact absurd heq (name_new hnew hj)
    · rw [h.entryAt_parent ht hp hdir hk, h.entryAt_last ht hp hdir,
        nameBytes_newDirent m hlen] at heq
      exact absurd heq.symm (name_new hnew hk)
    · rfl
  · rw [h.inodeAt_eq ht hn hnp] at hj hk
    rw [h.entryAt_eq ht hp hdir hn hnp hj, h.entryAt_eq ht hp hdir hn hnp hk] at heq
    exact ht.names_inj n hn hty j hj k hk heq

omit hnew in
theorem name_len (hn : Reach disk' sb n) (hty : (inodeAt disk' sb n).ty = .directory) {k : ℕ}
    (hk : k < (inodeAt disk' sb n).entryCount) :
    (entryAt disk' (inodeAt disk' sb n) k).nameLen.toNat ≤ 27 := by
  rcases h.dir_cases ht hp hdir hn hty with rfl | ⟨hn, hnp, hty⟩
  · rw [h.entryCount_parent, Nat.lt_succ_iff] at hk
    rcases hk.lt_or_eq with hk | rfl
    · rw [h.entryAt_parent ht hp hdir hk]
      exact ht.name_len n hp hdir k hk
    · rw [h.entryAt_last ht hp hdir, newDirent]
      exact (Nat.mod_le _ _).trans hlen
  · rw [h.inodeAt_eq ht hn hnp] at hk
    rw [h.entryAt_eq ht hp hdir hn hnp hk]
    exact ht.name_len n hn hty k hk

/-- **The disk stays tidy.** -/
theorem tidy : Tidy disk' sb where
  super_eq := by
    rw [← ht.super_eq]
    refine SuperBlock.decode_congr fun i hi => h.super _ ?_
    unfold blockSize
    omega
  laid := ht.laid
  inum_range n hn := by
    rcases (h.reach_iff ht hp hdir).mp hn with hn | rfl
    · exact ht.inum_range n hn
    · exact h.inum_range
  inode_bit n hn := by
    have hlt : n < sb.ninodes.toNat := by
      rcases (h.reach_iff ht hp hdir).mp hn with hn | rfl
      · exact (ht.inum_range n hn).2
      · exact h.inum_range.2
    rw [bitSet_eq_bitAt, h.inode_bits n (hlt.trans_le ht.laid.inode_bitmap_fits)]
    rcases (h.reach_iff ht hp hdir).mp hn with hn | rfl
    · rw [if_neg (h.ne_new ht hn), ← bitSet_eq_bitAt]
      exact ht.inode_bit n hn
    · rw [if_pos rfl]
  tail n hn _ := h.tail ht hp hdir hn
  indirect_zero n hn := h.indirect_zero ht hp hdir hn
  ref_range n hn _ := h.ref_range ht hp hdir hn
  refs_nodup n hn := h.refs_nodup ht hp hdir hn
  refs_apart n n' hn hn' hne _ := h.refs_apart ht hp hdir hn hn' hne
  dir_size n hn hty := by
    rcases h.dir_cases ht hp hdir hn hty with rfl | ⟨hn, hnp, hty⟩
    · rw [h.sz_parent, Nat.add_mod_right]
      exact ht.dir_size n hp hdir
    · rw [h.inodeAt_eq ht hn hnp]
      exact ht.dir_size n hn hty
  names_inj n hn hty _ hj _ hk := h.names_inj ht hp hdir hlen hnew hn hty hj hk
  name_len n hn hty _ := h.name_len ht hp hdir hlen hn hty

omit hnew in
/-- The search in the directory afterwards. -/
theorem findEntry_parent (other : List UInt8) :
    findEntry disk' (inodeAt disk' sb p) other = (findEntry disk (inodeAt disk sb p) other).or
      (if other = name then some (inodeAt disk sb p).entryCount else none) := by
  have hold : ∀ k ∈ List.range (inodeAt disk sb p).entryCount,
      decide ((entryAt disk' (inodeAt disk' sb p) k).nameBytes = other) =
        decide ((entryAt disk (inodeAt disk sb p) k).nameBytes = other) := by
    intro k hk
    rw [h.entryAt_parent ht hp hdir (List.mem_range.mp hk)]
  rw [findEntry, h.entryCount_parent, List.range_succ, List.find?_append, List.find?_congr hold,
    List.find?_singleton, h.entryAt_last ht hp hdir, nameBytes_newDirent m hlen, findEntry]
  simp only [decide_eq_true_eq, eq_comm (a := name)]

omit hlen hnew in
/-- The names in the other directories. -/
theorem child_eq (hn : Reach disk sb n) (hnp : n ≠ p) (other : List UInt8) :
    (tree disk' sb).child n other = (tree disk sb).child n other := by
  have hino := h.inodeAt_eq ht hn hnp
  refine tree_child_congr hino (fun k hk => ?_) other
  have hentry := h.entryAt_eq ht hp hdir hn hnp hk
  rwa [hino] at hentry

/-- The names in the directory. -/
theorem child_parent (other : List UInt8) : (tree disk' sb).child p other =
    if other = name then some m else (tree disk sb).child p other := by
  have hnone : findEntry disk (inodeAt disk sb p) name = none := Option.map_eq_none_iff.mp hnew
  simp only [tree, h.findEntry_parent ht hp hdir hlen]
  by_cases hother : other = name
  · rw [if_pos hother, if_pos hother, hother, hnone, Option.none_or, Option.map_some,
      h.entryAt_last ht hp hdir, h.inum_newDirent]
  · rw [if_neg hother, if_neg hother, Option.or_none]
    cases hfound : findEntry disk (inodeAt disk sb p) other with
    | none => rfl
    | some k =>
      rw [Option.map_some, Option.map_some, h.entryAt_parent ht hp hdir (findEntry_lt hfound)]

/-- **The names are those from before and the new one.** -/
theorem lookup_eq (hn : Reach disk sb n) (other : List UInt8) :
    (tree disk' sb).lookup n other = ((tree disk sb).link p name m).lookup n other := by
  have hnm := h.ne_new ht hn
  have hisDir : (tree disk' sb).isDir n = ((tree disk sb).link p name m).isDir n := by
    by_cases hnp : n = p
    · subst hnp
      simp [tree, NameTree.link, hnm, h.ty_parent hdir, hdir]
    · simp [tree, NameTree.link, hnm, h.inodeAt_eq ht hn hnp]
  have hchild : (tree disk' sb).child n other = ((tree disk sb).link p name m).child n other := by
    by_cases hnp : n = p
    · subst hnp
      rw [h.child_parent ht hp hdir hlen hnew]
      simp [NameTree.link]
    · rw [h.child_eq ht hp hdir hn hnp]
      simp [NameTree.link, hnp]
  rw [NameTree.lookup, NameTree.lookup, hisDir, hchild]

end Linked

end Efiks.Vsfs

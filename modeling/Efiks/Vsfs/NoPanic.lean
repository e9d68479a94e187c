import Efiks.Lib.Returns
import Efiks.Vsfs.Lookup

/-!
# No call panics

Every index, every sum and every product of the file system code is in range for every
disk content, and every loop ends, whatever the sector operations do. There is one
exception: `allocate_data_block` subtracts the start of the data area from the number of
blocks, and `initialize` does not compare the two.

## Main definitions

* `Call`, `session` — mounting a disk and a sequence of calls.

## Main results

* `session_returns_iff` — the superblocks with which no session panics.
-/
namespace Efiks.Vsfs
open Lib Lib.RustM Vfs

/-- What a call needs: the data area starts inside the disk, inode numbers are 32 bit wide and
the root is cached. -/
structure Safe (s : Mounted) : Prop where
  data_le : s.superblock.dataBlockStart.toNat ≤ s.superblock.nblocks.toNat
  inum_lt : ∀ id, (s.inodes id).inum < 2 ^ 32
  root : (s.cache 1).isSome

/-- A property of what is in memory. -/
def InMemory (P : Mounted → Prop) : Prop :=
  ∀ s disk ops, P s → P { s with disk := disk, ops := ops }

theorem inMemory_safe : InMemory Safe := fun _ _ _ h => ⟨h.data_le, h.inum_lt, h.root⟩

/-! ## Sectors and blocks -/

section Device
variable {P : Mounted → Prop} (hP : InMemory P)

theorem returns_blockSector (block : UInt32) {k : ℕ} (hk : k < 2 ^ 32) :
    Returns P (fun _ => True) (blockSector block k) := by
  have hblock := block.toNat_lt
  have hbound : block.toNat * sectorsPerBlock < 2 ^ 35 := by
    unfold sectorsPerBlock
    omega
  refine (Returns.mulUsize (by omega)).bind ?_
  rintro _ rfl
  exact (Returns.addUsize (by omega)).mono fun _ _ => trivial

include hP

theorem returns_sectorOp : Returns P (fun _ => True) sectorOp :=
  (Returns.gets_any _).bind fun _ _ =>
    (Returns.modify fun s hs => hP s s.disk _ hs).bind fun _ _ => Returns.pure trivial

theorem returns_readSector (sector : ℕ) : Returns P (fun _ => True) (readSector sector) :=
  (returns_sectorOp hP).bind fun _ _ =>
    Returns.ite (fun _ => Returns.gets_any _) fun _ => Returns.fail _

theorem returns_writeSector (sector : ℕ) (buf : Mem) :
    Returns P (fun _ => True) (writeSector sector buf) := by
  refine (returns_sectorOp hP).bind fun fault _ => ?_
  have hend : Returns P (fun _ => True)
      (if fault = .none then pure () else fail .deviceIo : FM Unit) :=
    Returns.ite (fun _ => Returns.pure trivial) fun _ => Returns.fail _
  exact Returns.ite (fun _ => (Returns.modify fun s hs => hP s _ s.ops hs).bind fun _ _ => hend)
    fun _ => hend

theorem returns_indirectPointer (inode : INodeInner) {i : ℕ} (hi : i < indirectBlockEntries) :
    Returns P (fun _ => True) (indirectPointer inode i) := by
  have hi' : i < 1024 := hi
  refine (Returns.mulUsize (by omega)).bind ?_
  rintro _ rfl
  have hsector : i * 4 / sectorSize < 2 ^ 32 := by
    unfold sectorSize
    omega
  have hoffset : i * 4 % sectorSize + 4 ≤ sectorSize := by
    unfold sectorSize
    omega
  refine (returns_blockSector _ hsector).bind fun _ _ => ?_
  refine (returns_readSector hP _).bind fun _ _ => ?_
  exact (Returns.inBounds hoffset).bind fun _ _ => Returns.pure trivial

theorem returns_blockPointer (inode : INodeInner) (lb : ℕ) :
    Returns P (fun _ => True) (blockPointer inode lb) := by
  rw [blockPointer]
  split
  · exact Returns.pure trivial
  · refine (Returns.subUsize (by omega)).bind ?_
    rintro _ rfl
    refine Returns.ite (fun _ => Returns.fail _) fun hin => returns_indirectPointer hP _ ?_
    exact Nat.not_le.mp (not_or.mp hin).1

theorem returns_dataBlock (inode : INodeInner) (lb : ℕ) :
    Returns P (fun _ => True) (dataBlock inode lb) :=
  (returns_blockPointer hP inode lb).bind fun _ _ =>
    Returns.ite (fun _ => Returns.fail _) fun _ => Returns.pure trivial

theorem returns_mapBlock (inode : INodeInner) (mapped : Option (ℕ × UInt32)) (lb : ℕ) :
    Returns P (fun _ => True) (mapBlock inode mapped lb) := by
  rcases mapped with _ | ⟨lb', block⟩
  · exact returns_dataBlock hP inode lb
  · exact Returns.ite (fun _ => Returns.pure trivial) fun _ => returns_dataBlock hP inode lb

end Device

/-! ## Reading and writing -/

section Transfer
variable {P : Mounted → Prop} (hP : InMemory P)

/-- The bytes a step copies, and what is left to the next one. -/
theorem step_bounds {offset total remaining size len : ℕ} (hpos : remaining ≠ 0)
    (hsize : size < 2 ^ 32) (hoff : offset + remaining ≤ size) (hlen : total + remaining ≤ len)
    (htotal : total ≤ size) :
    let so := offset % blockSize % sectorSize
    let c := min (sectorSize - so) remaining
    0 < c ∧ c ≤ remaining ∧ so + c ≤ sectorSize ∧ total + c ≤ len ∧ offset + c < 2 ^ 64 ∧
      total + c < 2 ^ 64 ∧ offset % blockSize / sectorSize < 2 ^ 32 := by
  intro so c
  have hso : so < sectorSize := Nat.mod_lt _ (by decide)
  have hc : c ≤ remaining := min_le_right _ _
  have hc' : c ≤ sectorSize - so := min_le_left _ _
  have hcpos : 0 < c := Nat.lt_min.mpr ⟨by omega, by omega⟩
  have hblock : offset % blockSize / sectorSize < 2 ^ 32 := by
    unfold blockSize sectorSize
    omega
  exact ⟨hcpos, hc, by omega, by omega, by omega, by omega, hblock⟩

theorem returns_onFs {α : Type} {R : α → Prop} {m : FM α} (h : Returns P R m) :
    Returns (fun t : Mounted × Mem => P t.1) R (onFs m) :=
  h.zoom fun _ _ => rfl

include hP

theorem returns_readLoop (inner : INodeInner) {size len : ℕ} (hsize : size < 2 ^ 32) (fuel : ℕ) :
    ∀ offset total remaining mapped, offset + remaining ≤ size → total + remaining ≤ size →
      total + remaining ≤ len → remaining ≤ fuel →
      Returns (fun t : Mounted × Mem => P t.1) (fun _ => True)
        (readLoop inner len fuel offset total remaining mapped) := by
  induction fuel with
  | zero =>
    intro offset total remaining mapped _ _ _ hfuel
    rw [readLoop, if_pos (Nat.le_zero.mp hfuel)]
    exact Returns.pure trivial
  | succ fuel ih =>
    intro offset total remaining mapped hoff htotal hlen hfuel
    rw [readLoop]
    refine Returns.ite (fun _ => Returns.pure trivial) fun hpos => ?_
    refine (returns_onFs (returns_mapBlock hP inner mapped _).attempt).bind fun found _ => ?_
    cases found with
    | error err => exact Returns.ite (fun _ => Returns.pure trivial) fun _ => Returns.fail _
    | ok block =>
      obtain ⟨hc, hcr, hsector, hbuf, hadd, hadd', hblock⟩ :=
        step_bounds hpos hsize hoff hlen (by omega)
      refine (returns_onFs (returns_blockSector block hblock)).bind fun _ _ => ?_
      refine (returns_onFs (returns_readSector hP _)).bind fun _ _ => ?_
      refine (returns_onFs (Returns.subUsize (by omega))).bind ?_
      rintro _ rfl
      refine (returns_onFs (Returns.inBounds hsector)).bind fun _ _ => ?_
      refine (returns_onFs (Returns.inBounds hbuf)).bind fun _ _ => ?_
      refine (Returns.modify ?_).bind fun _ _ => ?_
      · exact fun _ hs => hs
      refine (returns_onFs (Returns.addUsize hadd)).bind ?_
      rintro _ rfl
      refine (returns_onFs (Returns.addUsize hadd')).bind ?_
      rintro _ rfl
      refine (returns_onFs (Returns.subUsize hcr)).bind ?_
      rintro _ rfl
      exact ih _ _ _ _ (by omega) (by omega) (by omega) (by omega)

theorem returns_read (inode offset len : ℕ) :
    Returns (fun t : Mounted × Mem => P t.1) (fun _ => True) (read inode offset len) := by
  refine (returns_onFs (Returns.gets_any _)).bind fun inner _ => ?_
  refine Returns.ite (fun _ => Returns.fail _) fun _ => ?_
  refine Returns.ite (fun _ => Returns.pure trivial) fun hin => ?_
  have hoff := Nat.not_le.mp (not_or.mp hin).1
  refine (returns_onFs (Returns.subUsize hoff.le)).bind ?_
  rintro _ rfl
  exact returns_readLoop hP inner inner.metadata.sz.toNat_lt _ _ _ _ _ (by omega) (by omega)
    (by omega) le_rfl

theorem returns_writeLoop (inner : INodeInner) (buf : Mem) {size len : ℕ} (hsize : size < 2 ^ 32)
    (fuel : ℕ) : ∀ offset total remaining mapped sectorBuf, offset + remaining ≤ size →
      total + remaining ≤ size → total + remaining ≤ len → remaining ≤ fuel →
      Returns P (fun _ => True)
        (writeLoop inner buf len fuel offset total remaining mapped sectorBuf) := by
  induction fuel with
  | zero =>
    intro offset total remaining mapped sectorBuf _ _ _ hfuel
    rw [writeLoop, if_pos (Nat.le_zero.mp hfuel)]
    exact Returns.pure trivial
  | succ fuel ih =>
    intro offset total remaining mapped sectorBuf hoff htotal hlen hfuel
    rw [writeLoop]
    refine Returns.ite (fun _ => Returns.pure trivial) fun hpos => ?_
    refine (returns_mapBlock hP inner mapped _).attempt.bind fun found _ => ?_
    cases found with
    | error err => exact Returns.ite (fun _ => Returns.pure trivial) fun _ => Returns.fail _
    | ok block =>
      obtain ⟨hc, hcr, hsector, hbuf, hadd, hadd', hblock⟩ :=
        step_bounds hpos hsize hoff hlen (by omega)
      refine (returns_blockSector block hblock).bind fun _ _ => ?_
      refine (Returns.subUsize (by omega)).bind ?_
      rintro _ rfl
      refine Returns.bind (R := fun _ => True) ?_ fun _ _ => ?_
      · exact Returns.ite (fun _ => returns_readSector hP _) fun _ => Returns.pure trivial
      refine (Returns.inBounds hsector).bind fun _ _ => ?_
      refine (Returns.inBounds hbuf).bind fun _ _ => ?_
      refine (returns_writeSector hP _ _).bind fun _ _ => ?_
      refine (Returns.addUsize hadd).bind ?_
      rintro _ rfl
      refine (Returns.addUsize hadd').bind ?_
      rintro _ rfl
      refine (Returns.subUsize hcr).bind ?_
      rintro _ rfl
      exact ih _ _ _ _ _ (by omega) (by omega) (by omega) (by omega)

theorem returns_write (inode offset : ℕ) (buf : Mem) (len : ℕ) :
    Returns P (fun _ => True) (write inode offset buf len) := by
  refine (Returns.gets_any _).bind fun inner _ => ?_
  refine Returns.ite (fun _ => Returns.fail _) fun _ => ?_
  refine Returns.ite (fun _ => Returns.pure trivial) fun hin => ?_
  have hoff := Nat.not_le.mp (not_or.mp hin).1
  refine (Returns.subUsize hoff.le).bind ?_
  rintro _ rfl
  exact returns_writeLoop hP inner buf inner.metadata.sz.toNat_lt _ _ _ _ _ _ (by omega) (by omega)
    (by omega) le_rfl

end Transfer

/-! ## Bitmaps -/

section Bitmaps
variable {P : Mounted → Prop} (hP : InMemory P)

theorem returns_scanSector (buf : Mem) (n : ℕ) : ∀ localBit,
    (n ≠ 0 → localBit + n ≤ bitsPerSector) →
    Returns P (fun r => ∀ bit, r = some bit → localBit ≤ bit ∧ bit < localBit + n)
      (scanSector buf localBit n) := by
  induction n with
  | zero =>
    intro localBit _
    exact Returns.pure fun _ h => nomatch h
  | succ n ih =>
    intro localBit hle
    have hbyte : localBit / 8 + 1 ≤ sectorSize := by
      unfold bitsPerSector sectorSize at *
      omega
    refine (Returns.inBounds hbyte).bind fun _ _ => Returns.ite (fun _ => Returns.pure ?_) fun _ => ?_
    · rintro _ ⟨⟩
      exact ⟨le_rfl, by omega⟩
    · exact (ih (localBit + 1) (by omega)).mono fun _ h bit hbit => by
        have := h bit hbit
        omega

include hP

theorem returns_scanBitmap (block : UInt32) (startBit endBit n : ℕ) : ∀ sectorOffset,
    sectorOffset + n ≤ sectorsPerBlock →
    (n ≠ 0 → (sectorOffset + n) * bitsPerSector < endBit + bitsPerSector) →
    Returns P (fun bit => bit < endBit) (scanBitmap block startBit endBit sectorOffset n) := by
  induction n with
  | zero => exact fun _ _ _ => Returns.fail _
  | succ n ih =>
    intro sectorOffset hle hend
    have hlt : sectorOffset * bitsPerSector < endBit ∧ sectorOffset < 8 := by
      unfold bitsPerSector sectorsPerBlock at *
      omega
    have hmul : sectorOffset * bitsPerSector < 2 ^ 63 := by
      unfold bitsPerSector
      omega
    refine (returns_blockSector block (by omega)).bind fun _ _ => ?_
    refine (returns_readSector hP _).bind fun buf _ => ?_
    refine (Returns.mulUsize (by omega)).bind ?_
    rintro _ rfl
    refine (Returns.subUsize hlt.1.le).bind ?_
    rintro _ rfl
    refine (returns_scanSector buf _ _ (by omega)).bind fun found hfound => ?_
    cases found with
    | some localBit =>
      have hbit := hfound localBit rfl
      have hbits : bitsPerSector = 4096 := rfl
      refine (returns_blockSector block (by omega)).bind fun _ _ => ?_
      refine (returns_writeSector hP _ _).bind fun _ _ => ?_
      exact (Returns.addUsize (by omega)).mono fun _ h => by omega
    | none =>
      have hrest : sectorOffset + 1 + n = sectorOffset + (n + 1) := by omega
      exact ih (sectorOffset + 1) (by omega) fun _ => hrest ▸ hend (Nat.succ_ne_zero n)

theorem returns_allocateBitmapBit (block : UInt32) (startBit endBit : ℕ) :
    Returns P (fun bit => bit < endBit) (allocateBitmapBit block startBit endBit) := by
  rw [allocateBitmapBit]
  generalize hend : endBit / bitsPerSector + (if endBit % bitsPerSector > 0 then 1 else 0) = endSector
  have hceil : endSector * bitsPerSector < endBit + bitsPerSector := by
    rw [← hend]
    unfold bitsPerSector
    split <;> omega
  refine Returns.ite (fun _ => Returns.fail _) fun hin => ?_
  by_cases hrange : startBit / bitsPerSector < endSector
  · have hsum : startBit / bitsPerSector + (endSector - startBit / bitsPerSector) = endSector := by
      omega
    exact returns_scanBitmap hP _ _ _ _ _ (by omega) fun _ => by rwa [hsum]
  · have hnone : endSector - startBit / bitsPerSector = 0 := by omega
    rw [hnone]
    exact Returns.fail _

theorem returns_freeBitmapBit (block : UInt32) (bit : ℕ) :
    Returns P (fun _ => True) (freeBitmapBit block bit) := by
  rw [freeBitmapBit]
  refine Returns.ite (fun _ => Returns.fail _) fun hin => ?_
  have hbyte : bit % bitsPerSector / 8 + 1 ≤ sectorSize := by
    unfold bitsPerSector sectorSize
    omega
  have hsector : bit / bitsPerSector < 2 ^ 32 := by
    unfold sectorsPerBlock at hin
    omega
  refine (returns_blockSector block hsector).bind fun _ _ => ?_
  refine (returns_readSector hP _).bind fun _ _ => ?_
  refine (Returns.inBounds hbyte).bind fun _ _ => ?_
  exact Returns.ite (fun _ => Returns.fail _) fun _ => returns_writeSector hP _ _

end Bitmaps

/-! ## Calls -/

section Calls

theorem returns_allocateInode : Returns Safe (fun inum => inum < 2 ^ 32) allocateInode :=
  (Returns.gets_any _).bind fun sb _ =>
    (returns_allocateBitmapBit inMemory_safe _ _ _).mono fun _ h => h.trans sb.ninodes.toNat_lt

/-- The only place that needs the data area to start inside the disk. -/
theorem returns_allocateDataBlock : Returns Safe (fun _ => True) allocateDataBlock := by
  refine Returns.bind (R := fun sb => sb.dataBlockStart.toNat ≤ sb.nblocks.toNat) ?_ fun sb hsb => ?_
  · exact Returns.gets fun s hs => hs.data_le
  refine (Returns.subU32 hsb).bind ?_
  rintro _ rfl
  refine (returns_allocateBitmapBit inMemory_safe _ _ _).bind fun bit hbit => ?_
  have hn := sb.nblocks.toNat_lt
  rw [UInt32.toNat_sub_of_le _ _ hsb] at hbit
  have hbit' : (UInt32.ofNat bit).toNat = bit := by
    rw [UInt32.toNat_ofNat']
    omega
  exact (Returns.addU32 (by omega)).mono fun _ _ => trivial

theorem returns_freeCreateAllocations (inum : Option ℕ) (block : Option UInt32) :
    Returns Safe (fun _ => True) (freeCreateAllocations inum block) := by
  have hfree : ∀ inum, Returns Safe (fun _ => True) (freeInode inum) := fun inum =>
    (Returns.gets_any _).bind fun _ _ => returns_freeBitmapBit inMemory_safe _ _
  have hfree' : ∀ block, Returns Safe (fun _ => True) (freeDataBlock block) := fun block =>
    (Returns.gets_any _).bind fun _ _ =>
      Returns.ite (fun _ => Returns.fail _) fun _ => returns_freeBitmapBit inMemory_safe _ _
  cases inum with
  | none =>
    cases block with
    | none => exact Returns.pure trivial
    | some block => exact (hfree' block).ignoreErr
  | some inum =>
    refine (hfree inum).ignoreErr.bind fun _ _ => ?_
    cases block with
    | none => exact Returns.pure trivial
    | some block => exact (hfree' block).ignoreErr

theorem returns_orFree {α : Type} {R : α → Prop} {m : FM α} (h : Returns Safe R m)
    (inum : Option ℕ) (block : Option UInt32) : Returns Safe R (orFree m inum block) :=
  h.catchErr fun _ => (returns_freeCreateAllocations inum block).bind fun _ _ => Returns.fail _

theorem returns_inodeByteOffset {P : Mounted → Prop} (tableStart : UInt32) {inum : ℕ}
    (hinum : inum < 2 ^ 32) :
    Returns P (fun a => a % sectorSize + inodeSize ≤ sectorSize)
      (inodeByteOffset tableStart.toNat inum) := by
  have htable := tableStart.toNat_lt
  refine (Returns.mulUsize ?_).bind ?_
  · unfold blockSize
    omega
  rintro _ rfl
  refine (Returns.mulUsize ?_).bind ?_
  · unfold inodeSize
    omega
  rintro _ rfl
  refine (Returns.addUsize ?_).mono ?_
  · unfold blockSize inodeSize
    omega
  · rintro _ rfl
    unfold blockSize inodeSize sectorSize
    omega

theorem returns_readInodeFromBlock {P : Mounted → Prop} (hP : InMemory P) (tableStart : UInt32)
    {inum : ℕ} (hinum : inum < 2 ^ 32) :
    Returns P (fun _ => True) (readInodeFromBlock tableStart.toNat inum) := by
  refine (returns_inodeByteOffset tableStart hinum).bind fun a ha => ?_
  refine (returns_readSector hP _).bind fun _ _ => ?_
  exact (Returns.inBounds ha).bind fun _ _ => Returns.pure trivial

theorem returns_writeInodeToBlock (tableStart : UInt32) {inum : ℕ} (hinum : inum < 2 ^ 32)
    (inner : INodeInner) :
    Returns Safe (fun _ => True) (writeInodeToBlock tableStart.toNat inum inner) := by
  refine (returns_inodeByteOffset tableStart hinum).bind fun a ha => ?_
  refine Returns.ite (fun _ => Returns.fail _) fun _ => ?_
  refine (returns_readSector inMemory_safe _).bind fun _ _ => ?_
  exact returns_writeSector inMemory_safe _ _

theorem Safe.cacheInode {s : Mounted} (hs : Safe s) {inum : ℕ} (hinum : inum < 2 ^ 32)
    (id : ℕ) (inner : INodeInner) :
    Safe { s with
      inodes := Function.update s.inodes id ⟨inum, inner⟩
      cache := Function.update s.cache inum (some id)
      next := id + 1 } where
  data_le := hs.data_le
  inum_lt k := by
    dsimp only
    rw [Function.update_apply]
    split
    · exact hinum
    · exact hs.inum_lt k
  root := by
    dsimp only
    rw [Function.update_apply]
    split
    · rfl
    · exact hs.root

theorem returns_cacheInode {inum : ℕ} (hinum : inum < 2 ^ 32) (inner : INodeInner) :
    Returns Safe (fun _ => True) (cacheInode inum inner) :=
  (Returns.gets_any _).bind fun id _ =>
    (Returns.modify fun _ hs => hs.cacheInode hinum id inner).bind fun _ _ => Returns.pure trivial

theorem returns_readInode {inum : ℕ} (hinum : inum < 2 ^ 32) :
    Returns Safe (fun _ => True) (readInode inum) := by
  refine (Returns.gets_any _).bind fun cached _ => ?_
  cases cached with
  | some id => exact Returns.pure trivial
  | none =>
    refine Returns.bind (R := fun t => ∃ start : UInt32, t = start.toNat) ?_ ?_
    · exact Returns.gets fun s _ => ⟨_, rfl⟩
    rintro _ ⟨start, rfl⟩
    exact (returns_readInodeFromBlock inMemory_safe start hinum).bind fun inner _ =>
      returns_cacheInode hinum inner

theorem returns_lookupEntries (inode : INodeInner) (path : List UInt8) (n : ℕ) :
    ∀ direntIdx, direntIdx + n < 2 ^ 32 →
      Returns Safe (fun _ => True) (lookupEntries inode path direntIdx n) := by
  induction n with
  | zero => exact fun _ _ => Returns.fail _
  | succ n ih =>
    intro direntIdx hidx
    refine (Returns.mulUsize ?_).bind ?_
    · unfold direntSize
      omega
    rintro _ rfl
    have hsector : direntIdx * direntSize % blockSize / sectorSize < 2 ^ 32 := by
      unfold direntSize blockSize sectorSize
      omega
    have hentry : direntIdx * direntSize % blockSize % sectorSize + direntSize ≤ sectorSize := by
      unfold direntSize blockSize sectorSize
      omega
    refine (returns_dataBlock inMemory_safe inode _).bind fun block _ => ?_
    refine (returns_blockSector block hsector).bind fun _ _ => ?_
    refine (returns_readSector inMemory_safe _).bind fun buf _ => ?_
    refine (Returns.inBounds hentry).bind fun _ _ => ?_
    refine Returns.ite (fun _ => Returns.fail _) fun _ => ?_
    exact Returns.ite (fun _ => returns_readInode (UInt32.toNat_lt _)) fun _ =>
      ih (direntIdx + 1) (by omega)

theorem returns_lookupPathInner (inode : INodeInner) (path : List UInt8) :
    Returns Safe (fun _ => True) (lookupPathInner inode path) := by
  have hsize := inode.metadata.sz.toNat_lt
  refine Returns.ite (fun _ => Returns.fail _) fun _ => ?_
  have hcount := Nat.div_le_self inode.metadata.sz.toNat direntSize
  exact Returns.ite (fun _ => Returns.fail _) fun _ => returns_lookupEntries _ _ _ _ (by omega)

theorem returns_walk (current : ℕ) (path : List UInt8) :
    Returns Safe (fun _ => True) (walk current path) :=
  (Returns.gets_any _).bind fun inode _ =>
    (returns_lookupPathInner inode path).bind fun _ _ => Returns.gets_any _

theorem returns_openLoop (components : List (List UInt8)) : ∀ current,
    Returns Safe (fun _ => True) (openLoop current components) := by
  induction components with
  | nil => exact fun _ => Returns.pure trivial
  | cons path components ih =>
    intro current
    refine (Returns.gets_any _).bind fun ty _ => Returns.ite (fun _ => Returns.fail _) fun _ => ?_
    exact (returns_walk current path).bind fun next _ => ih next

theorem returns_createLoop (components : List (List UInt8)) : ∀ current err leaf,
    Returns Safe (fun _ => True) (createLoop current err leaf components) := by
  induction components with
  | nil =>
    intro current err leaf
    cases err <;> exact Returns.pure trivial
  | cons path components ih =>
    intro current err leaf
    cases err with
    | some err => exact Returns.fail _
    | none =>
      refine (Returns.gets_any _).bind fun ty _ => Returns.ite (fun _ => Returns.fail _) fun _ => ?_
      refine (returns_walk current path).attempt.bind fun found _ => ?_
      cases found with
      | ok next => exact ih next _ _
      | error e => exact ih current _ _

theorem returns_writeDirent (block : UInt32) (blockOffset : ℕ) (dirent : DirEnt) :
    Returns Safe (fun _ => True) (writeDirent block blockOffset dirent) := by
  refine Returns.ite (fun _ => Returns.fail _) fun hin => ?_
  have hsector : blockOffset / sectorSize < 2 ^ 32 := by
    have := (not_or.mp hin).1
    unfold sectorsPerBlock at this
    omega
  refine (returns_blockSector block hsector).bind fun _ _ => ?_
  refine (returns_readSector inMemory_safe _).bind fun _ _ => ?_
  exact returns_writeSector inMemory_safe _ _

theorem returns_restoreParent (tableStart : UInt32) {parentInum : ℕ} (hinum : parentInum < 2 ^ 32)
    (inum : ℕ) (original : INodeInner) (block : UInt32) (blockOffset : ℕ)
    (allocated : Option UInt32) :
    Returns Safe (fun _ => True)
      (restoreParent tableStart.toNat parentInum inum original block blockOffset allocated) := by
  refine (returns_writeDirent _ _ _).ignoreErr.bind fun _ _ => ?_
  refine (returns_writeInodeToBlock tableStart hinum original).attempt.bind fun restored _ => ?_
  cases restored with
  | ok _ => exact returns_freeCreateAllocations _ _
  | error _ => exact Returns.pure trivial

theorem returns_addEntry (parent : ℕ) (original : INodeInner) (name : List UInt8)
    (blockIdx : Fin 12) (sz : UInt32) :
    Returns Safe (fun _ => True) (addEntry parent original name blockIdx sz) := by
  refine Returns.bind (R := fun t => ∃ start : UInt32, t = start.toNat) ?_ ?_
  · exact Returns.gets fun s _ => ⟨_, rfl⟩
  rintro _ ⟨start, rfl⟩
  refine Returns.bind (R := fun inum => inum < 2 ^ 32) ?_ fun parentInum hparent => ?_
  · exact Returns.gets fun s hs => hs.inum_lt parent
  refine Returns.bind (R := fun _ => True) ?_ fun allocated _ => ?_
  · exact Returns.ite (fun _ => returns_allocateDataBlock.map fun _ _ => trivial) fun _ =>
      Returns.pure trivial
  refine (returns_orFree returns_allocateInode _ _).bind fun inum hinum => ?_
  refine (returns_orFree (returns_writeInodeToBlock start hinum _) _ _).bind fun _ _ => ?_
  refine (returns_orFree (returns_writeDirent _ _ _) _ _).bind fun _ _ => ?_
  refine ((returns_writeInodeToBlock start hparent _).catchErr fun err => ?_).bind fun _ _ => ?_
  · exact (returns_restoreParent start hparent _ _ _ _ _).bind fun _ _ => Returns.fail _
  refine (Returns.modify ?_).bind fun _ _ => returns_cacheInode hinum _
  intro s hs
  refine ⟨hs.data_le, fun k => ?_, hs.root⟩
  dsimp only
  rw [Function.update_apply]
  split
  · exact hparent
  · exact hs.inum_lt k

theorem returns_createFile (parent : ℕ) (name : List UInt8) :
    Returns Safe (fun _ => True) (createFile parent name) := by
  refine Returns.ite (fun _ => Returns.fail _) fun _ => ?_
  refine (Returns.gets_any _).bind fun original _ => ?_
  refine Returns.ite (fun _ => Returns.fail _) fun _ => ?_
  refine (returns_lookupPathInner original name).attempt.bind fun found _ => ?_
  cases found with
  | ok _ => exact Returns.fail _
  | error err =>
    refine Returns.ite (fun _ => Returns.fail _) fun _ => ?_
    refine Returns.ite (fun _ => Returns.fail _) fun _ => ?_
    split
    · exact returns_addEntry _ _ _ _ _
    · exact Returns.fail _

theorem returns_create (inode : ℕ) (path : List UInt8) :
    Returns Safe (fun _ => True) (create inode path) := by
  refine (returns_createLoop _ _ _ _).bind fun r _ => ?_
  refine Returns.ite (fun _ => ?_) fun _ => Returns.fail _
  exact Returns.bind (R := fun _ => True) (Returns.okOr fun _ _ => trivial) fun leaf _ =>
    returns_createFile _ leaf

end Calls

/-! ## Sessions -/

/-- A call of a user of the file system. A handle is the number of an object; a read has a
buffer with some contents. -/
inductive Call
  | root
  | openPath (inode : ℕ) (path : List UInt8)
  | create (inode : ℕ) (path : List UInt8)
  | read (inode offset : ℕ) (buf : Mem) (len : ℕ)
  | write (inode offset : ℕ) (buf : Mem) (len : ℕ)

/-- Run with a buffer, which is dropped afterwards. -/
def withBuffer {α : Type} (buf : Mem) (m : RustM (Mounted × Mem) VfsError α) : FM α := fun s =>
  match m (s, buf) with
  | .ok a t => .ok a t.1
  | .err e t => .err e t.1
  | .panic p => .panic p

def Call.perform : Call → FM ℕ
  | .root => Vsfs.root
  | .openPath inode path => Vsfs.openPath inode path
  | .create inode path => Vsfs.create inode path
  | .read inode offset buf len => withBuffer buf (Vsfs.read inode offset len)
  | .write inode offset buf len => Vsfs.write inode offset buf len

/-- A device before it is mounted. -/
def device (disk : Mem) (fault : ℕ → Fault) : Mounted where
  disk := disk
  fault := fault
  ops := 0
  superblock := ⟨0, 0, 0, 0, 0, 0, 0, 0⟩
  cache := fun _ => none
  inodes := fun _ => ⟨0, emptyFile⟩
  next := 0

/-- Mount the device and make the calls, whatever each of them returns. -/
def session (calls : List Call) : FM Unit := do
  mount
  foldM (fun _ call => ignoreErr call.perform) calls ()

section Sessions

theorem wp_withBuffer {α : Type} {Q : α → Mounted → Prop} {E : VfsError → Mounted → Prop}
    {N : Panic → Prop} {s : Mounted} (buf : Mem) (m : RustM (Mounted × Mem) VfsError α) :
    wp (withBuffer buf m) Q E N s ↔
      wp m (fun a t => Q a t.1) (fun e t => E e t.1) N (s, buf) := by
  unfold wp withBuffer
  cases m (s, buf) <;> rfl

theorem returns_perform (call : Call) : Returns Safe (fun _ => True) call.perform := by
  cases call with
  | root =>
    refine Returns.bind (R := fun cached => cached.isSome = true) ?_ fun cached hcached => ?_
    · exact Returns.gets fun s hs => hs.root
    · obtain ⟨id, rfl⟩ := Option.isSome_iff_exists.mp hcached
      exact Returns.pure trivial
  | openPath inode path => exact returns_openLoop _ _
  | create inode path => exact returns_create inode path
  | read inode offset buf len =>
    intro s hs
    rw [Call.perform, wp_withBuffer]
    exact returns_read inMemory_safe inode offset len (s, buf) hs
  | write inode offset buf len => exact returns_write inMemory_safe inode offset buf len

/-- Mounting leaves a state in which every call returns, if the data area starts inside the
disk. -/
theorem wp_mount {s : Mounted} (hinum : ∀ id, (s.inodes id).inum < 2 ^ 32)
    (hdata : (SuperBlock.decode s.disk 0).magic = magic →
      (SuperBlock.decode s.disk 0).dataBlockStart.toNat ≤
        (SuperBlock.decode s.disk 0).nblocks.toNat) :
    wp mount (fun _ s' => Safe s') (fun _ _ => True) (fun _ => False) s := by
  rw [mount, wp_bind, readSector, wp_bind]
  simp only [sectorOp, wp_bind, wp_gets, wp_modify, wp_pure]
  rw [wp_ite]
  refine ⟨fun _ => ?_, fun _ => by rw [wp_fail]; trivial⟩
  rw [wp_gets]
  dsimp only
  rw [decode_sectorAt_superblock, wp_ite]
  refine ⟨fun _ => by rw [wp_fail]; trivial, fun hmagic => ?_⟩
  rw [wp_bind, wp_modify, wp_bind, readInode, wp_bind, wp_gets]
  dsimp only
  rw [wp_bind, wp_gets, wp_bind]
  -- the cache is still empty, so the root is not part of what holds here
  have hread := returns_readInodeFromBlock (P := fun s => s.superblock.dataBlockStart.toNat ≤
      s.superblock.nblocks.toNat ∧ ∀ id, (s.inodes id).inum < 2 ^ 32) (fun _ _ _ h => h)
    (SuperBlock.decode s.disk 0).inodeTableStart (by decide : 1 < 2 ^ 32)
    { s with ops := s.ops + 1, superblock := SuperBlock.decode s.disk 0, cache := fun _ => none }
    ⟨hdata (not_not.mp hmagic), hinum⟩
  refine wp_mono hread ?_ (fun _ _ _ => trivial) fun _ h => h
  rintro inner s' ⟨⟨hdata', hinum'⟩, -⟩
  rw [cacheInode, wp_bind, wp_gets, wp_bind, wp_modify, wp_pure, wp_pure]
  refine ⟨hdata', fun id => ?_, ?_⟩
  · dsimp only
    rw [Function.update_apply]
    split
    · exact Nat.one_lt_two_pow (by decide)
    · exact hinum' id
  · dsimp only
    rw [Function.update_self]
    rfl

theorem session_returns {disk : Mem} (fault : ℕ → Fault)
    (h : (SuperBlock.decode disk 0).magic = magic →
      (SuperBlock.decode disk 0).dataBlockStart.toNat ≤
        (SuperBlock.decode disk 0).nblocks.toNat) (calls : List Call) (p : Panic) :
    session calls (device disk fault) ≠ .panic p := by
  have hwp : wp (session calls) (fun _ _ => True) (fun _ _ => True) (fun _ => False)
      (device disk fault) := by
    rw [session, wp_bind]
    refine wp_consequence (wp_mount (fun _ => Nat.two_pow_pos 32) h) fun _ s hs => ?_
    have hcalls := Returns.foldM (P := Safe) (R := fun _ => True)
      (fun (_ : Unit) (call : Call) _ => (returns_perform call).ignoreErr) calls () trivial
    exact wp_mono (hcalls s hs) (fun _ _ _ => trivial) (fun _ _ _ => trivial) fun _ h => h
  exact wp_of_panic hwp

/-- A disk with the superblock and an empty root directory. -/
def emptyRoot (sb : SuperBlock) : Mem := fun a =>
  if a < 32 then sb.bytes a else if a = sb.inodeAddr 1 then 1 else 0

theorem decode_emptyRoot (sb : SuperBlock) : SuperBlock.decode (emptyRoot sb) 0 = sb :=
  SuperBlock.decode_bytes sb fun i hi => by rw [Nat.zero_add, emptyRoot, if_pos hi]

theorem inodeAt_emptyRoot (sb : SuperBlock) :
    inodeAt (emptyRoot sb) sb 1 = ⟨.directory, 0, ⟨0, 0⟩, fun _ => 0, 0⟩ := by
  have hone : INodeInner.decode (fun a => if a = 0 then 1 else 0) 0 =
      ⟨.directory, 0, ⟨0, 0⟩, fun _ => 0, 0⟩ := by
    have hdirect : ∀ i : Fin 12, u32At (fun a => if a = 0 then 1 else 0) (0 + 12 + 4 * i.val) = 0 := by
      decide
    rw [INodeInner.decode, funext hdirect]
    rfl
  rw [← hone]
  refine INodeInner.decode_congr fun i hi => ?_
  have haddr : 64 ≤ sb.inodeAddr 1 := by
    unfold SuperBlock.inodeAddr inodeSize
    omega
  rw [emptyRoot, if_neg (by omega), Nat.zero_add]
  simp

/-- The first file in an empty directory needs a block. -/
theorem wp_create_emptyRoot {s : Mounted} {id : ℕ} {Q : ℕ → Mounted → Prop}
    {E : VfsError → Mounted → Prop}
    (hdir : (s.inodes id).inner = ⟨.directory, 0, ⟨0, 0⟩, fun _ => 0, 0⟩)
    (hlt : s.superblock.nblocks.toNat < s.superblock.dataBlockStart.toNat) :
    wp (create id [97]) Q E (fun _ => True) s := by
  have hpieces : pieces 47 [97] = [([97] : List UInt8)] := by decide
  have hlookup : ∀ {Q E N}, wp (lookupPathInner ⟨.directory, 0, ⟨0, 0⟩, fun _ => 0, 0⟩ [97])
      Q E N s ↔ E .notFound s := by
    intro Q E N
    rw [lookupPathInner, if_neg (by decide), if_neg (by decide)]
    exact wp_fail _
  have hname : ¬ (([97] : List UInt8) = [] ∨ ([97] : List UInt8).length > 27) := by decide
  rw [create, hpieces, wp_bind, createLoop, wp_bind, wp_gets, hdir, if_neg (by decide), wp_bind,
    wp_attempt, walk, wp_bind, wp_gets, hdir, wp_bind, hlookup]
  dsimp only
  rw [if_pos ⟨rfl, rfl⟩, createLoop, wp_pure]
  dsimp only
  rw [if_pos rfl, wp_bind, wp_okOr_some, createFile, if_neg hname, wp_bind, wp_gets, hdir,
    if_neg (by decide), wp_bind, wp_attempt, hlookup]
  dsimp only
  rw [if_neg (by decide), if_neg (by decide), dif_pos (by decide), addEntry, wp_bind, wp_gets,
    wp_bind, wp_gets, wp_bind, allocateDirBlock, if_pos rfl, wp_map, allocateDataBlock, wp_bind,
    wp_gets, wp_bind, wp_subU32]
  exact ⟨fun hle => absurd hle (Nat.not_le.mpr hlt), fun _ => trivial⟩

/-- A data area behind the end of the disk: the first file that is created panics. -/
theorem session_emptyRoot_panics {sb : SuperBlock} (hmagic : sb.magic = magic)
    (hlt : sb.nblocks.toNat < sb.dataBlockStart.toNat) :
    ∃ p, session [.root, .create 0 [97]] (device (emptyRoot sb) fun _ => .none) = .panic p := by
  have hdecode := decode_emptyRoot sb
  have hmount := mount_run (s := device (emptyRoot sb) fun _ => .none) (fun _ => rfl)
    ((congrArg SuperBlock.magic hdecode).trans hmagic)
  have hstate : ((device (emptyRoot sb) fun _ => .none).remounted.inodes 0).inner =
      ⟨.directory, 0, ⟨0, 0⟩, fun _ => 0, 0⟩ := by
    rw [← inodeAt_emptyRoot sb]
    exact congrArg (fun sb' => inodeAt (emptyRoot sb) sb' 1) hdecode
  have hsuper : (device (emptyRoot sb) fun _ => .none).remounted.superblock = sb := hdecode
  have hwp : wp (session [.root, .create 0 [97]]) (fun _ _ => False) (fun _ _ => False)
      (fun _ => True) (device (emptyRoot sb) fun _ => .none) := by
    rw [session, wp_bind]
    refine wp_run ⟨fun _ s' hrun => ?_, fun _ _ hrun => ?_, fun _ hrun => ?_⟩ <;>
      rw [hmount] at hrun
    · obtain ⟨-, rfl⟩ := Outcome.ok.inj hrun
      rw [foldM, wp_bind, wp_ignoreErr, Call.perform, Vsfs.root, wp_bind, wp_gets]
      refine (wp_expect_some ..).mpr ?_
      rw [foldM, wp_bind, wp_ignoreErr]
      exact wp_create_emptyRoot hstate (by rwa [hsuper])
    · cases hrun
    · cases hrun
  obtain ⟨p, hp, -⟩ := exists_panic_of_wp hwp
  exact ⟨p, hp⟩

end Sessions

/-- **Superblocks with which no session panics.** With the magic number, mounting and every
sequence of calls return for every disk content and all outcomes of the sector operations
exactly if the data area starts inside the disk. -/
theorem session_returns_iff (sb : SuperBlock) :
    (∀ disk fault calls p, SuperBlock.decode disk 0 = sb →
      session calls (device disk fault) ≠ .panic p) ↔
    (sb.magic = magic → sb.dataBlockStart.toNat ≤ sb.nblocks.toNat) := by
  constructor
  · intro h hmagic
    by_contra hlt
    obtain ⟨p, hp⟩ := session_emptyRoot_panics hmagic (Nat.not_le.mp hlt)
    exact h _ _ _ p (decode_emptyRoot sb) hp
  · rintro h disk fault calls p rfl
    exact session_returns fault h calls p

/-- A disk of no blocks whose data area starts at block 1. -/
theorem create_panics_without_blocks :
    SuperBlock.decode (emptyRoot ⟨magic, 0, 8, 1, 2, 3, 1, 1⟩) 0 = ⟨magic, 0, 8, 1, 2, 3, 1, 1⟩ ∧
    ∃ p, session [.root, .create 0 [97]]
      (device (emptyRoot ⟨magic, 0, 8, 1, 2, 3, 1, 1⟩) fun _ => .none) = .panic p :=
  ⟨decode_emptyRoot _, session_emptyRoot_panics rfl (by decide)⟩

end Efiks.Vsfs

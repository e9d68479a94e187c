import Efiks.Vsfs.Namespace
import Efiks.Vsfs.WellFormed

/-!
# Inode records and names without device errors

What `read_inode_from_block` and the functions over it return if no sector operation
fails: the records on the disk.

## Main definitions

* `Mounted.remounted` — the state after `initialize`.

## Main results

* `wp_readInodeFromBlock` — the inode of the table.
* `mount_run` — mounting succeeds on every disk with the magic number.
-/
namespace Efiks.Vsfs
open Lib Lib.RustM Vfs

section Records
variable {s : Mounted} {sb : SuperBlock} {inum : ℕ} {E : VfsError → Mounted → Prop}
variable {N : Panic → Prop}

theorem wp_inodeByteOffset {Q : ℕ → Mounted → Prop} (hinum : inum < 2 ^ 32) :
    wp (inodeByteOffset sb.inodeTableStart.toNat inum) Q E N s ↔ Q (sb.inodeAddr inum) s := by
  have htable := sb.inodeTableStart.toNat_lt
  have hmul : sb.inodeTableStart.toNat * blockSize < 2 ^ 44 := by
    unfold blockSize
    omega
  have hmul' : inum * inodeSize < 2 ^ 38 := by
    unfold inodeSize
    omega
  have haddr : sb.inodeTableStart.toNat * blockSize + inum * inodeSize = sb.inodeAddr inum := by
    rw [SuperBlock.inodeAddr, Nat.mul_comm, Nat.mul_comm inum]
  have hsum : sb.inodeAddr inum < 2 ^ 64 := by omega
  rw [inodeByteOffset, wp_bind, wp_mulUsize, and_iff_left (fun h => absurd h (by omega)),
    imp_iff_right (by omega), wp_bind, wp_mulUsize, and_iff_left (fun h => absurd h (by omega)),
    imp_iff_right (by omega), wp_addUsize, haddr, and_iff_left (fun h => absurd h (by omega)),
    imp_iff_right hsum]

/-- An inode record lies in one sector. -/
theorem inodeAddr_mod (sb : SuperBlock) (inum : ℕ) :
    sb.inodeAddr inum % sectorSize + inodeSize ≤ sectorSize := by
  unfold SuperBlock.inodeAddr blockSize inodeSize sectorSize
  omega

theorem decode_sectorAt_inode (disk : Mem) (sb : SuperBlock) (inum : ℕ) :
    INodeInner.decode (sectorAt disk (sb.inodeAddr inum / sectorSize))
      (sb.inodeAddr inum % sectorSize) = inodeAt disk sb inum := by
  refine INodeInner.decode_congr fun i hi => ?_
  have hmod := inodeAddr_mod sb inum
  rw [sectorAt, if_pos (by omega), ← Nat.add_assoc, Nat.div_add_mod]

theorem wp_readInodeFromBlock {Q : INodeInner → Mounted → Prop} (hs : s.NoFaults)
    (hinum : inum < 2 ^ 32) :
    wp (readInodeFromBlock sb.inodeTableStart.toNat inum) Q E N s ↔
      Q (inodeAt s.disk sb inum) { s with ops := s.ops + 1 } := by
  have hmod := inodeAddr_mod sb inum
  rw [readInodeFromBlock, wp_bind, wp_inodeByteOffset hinum, wp_bind, wp_readSector hs, wp_bind,
    wp_inBounds, imp_iff_right hmod, and_iff_left (fun h => absurd h (Nat.not_lt.mpr hmod)), wp_pure,
    decode_sectorAt_inode]

theorem u32At_of_digits {m : Mem} {a : ℕ} {v : UInt32}
    (h : ∀ i < 4, m (a + i) = Mem.digit v.toNat i) : u32At m a = v := by
  have hv := v.toNat_lt
  rw [u32At, Mem.load_eq_of_digits h, Nat.mod_eq_of_lt (by omega), UInt32.ofNat_toNat]

/-- The bytes of a superblock decode to it. -/
theorem SuperBlock.decode_bytes {m : Mem} {a : ℕ} (sb : SuperBlock)
    (h : ∀ i < 32, m (a + i) = sb.bytes i) : SuperBlock.decode m a = sb := by
  have hword : ∀ k < 8, ∀ v, [sb.magic, sb.nblocks, sb.ninodes, sb.inodeBitmapBlock,
      sb.dataBitmapBlock, sb.inodeTableStart, sb.inodeTableBlocks, sb.dataBlockStart].getD k 0 = v →
      u32At m (a + 4 * k) = v := by
    rintro k hk v rfl
    refine u32At_of_digits fun i hi => ?_
    rw [Nat.add_assoc, h _ (by omega), SuperBlock.bytes]
    congr 2
    · congr 2
      omega
    · omega
  unfold SuperBlock.decode
  congr
  · exact hword 0 (by decide) _ rfl
  · exact hword 1 (by decide) _ rfl
  · exact hword 2 (by decide) _ rfl
  · exact hword 3 (by decide) _ rfl
  · exact hword 4 (by decide) _ rfl
  · exact hword 5 (by decide) _ rfl
  · exact hword 6 (by decide) _ rfl
  · exact hword 7 (by decide) _ rfl

theorem decode_sectorAt_superblock (disk : Mem) :
    SuperBlock.decode (sectorAt disk 0) 0 = SuperBlock.decode disk 0 :=
  SuperBlock.decode_congr fun i hi => by
    rw [sectorAt, if_pos (by unfold sectorSize; omega), Nat.mul_zero, Nat.zero_add]

/-- The state after mounting: the superblock of the disk, and the root in the cache. -/
def Mounted.remounted (s : Mounted) : Mounted :=
  let sb := SuperBlock.decode s.disk 0
  { s with
    ops := s.ops + 2
    superblock := sb
    cache := Function.update (fun _ => none) 1 (some s.next)
    inodes := Function.update s.inodes s.next ⟨1, inodeAt s.disk sb 1⟩
    next := s.next + 1 }

/-- Mounting a disk with the magic number. -/
theorem mount_run (hs : s.NoFaults) (hmagic : (SuperBlock.decode s.disk 0).magic = magic) :
    mount s = .ok () s.remounted := by
  have hwp : wp mount (fun _ s' => s' = s.remounted) (fun _ _ => False) (fun _ => False) s := by
    have hs' : Mounted.NoFaults { s with
        ops := s.ops + 1
        superblock := SuperBlock.decode s.disk 0
        cache := fun _ => none } := hs
    rw [mount, wp_bind, wp_readSector hs]
    dsimp only
    rw [decode_sectorAt_superblock, if_neg (not_not.mpr hmagic), wp_bind, wp_modify, wp_bind,
      readInode, wp_bind, wp_gets]
    dsimp only
    rw [wp_bind, wp_gets, wp_bind, wp_readInodeFromBlock hs' (by decide), cacheInode, wp_bind,
      wp_gets, wp_bind, wp_modify, wp_pure, wp_pure]
    rfl
  obtain ⟨_, s', hrun, rfl⟩ := exists_ok_of_wp hwp
  exact hrun

end Records

end Efiks.Vsfs

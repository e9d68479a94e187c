import Efiks.Vsfs.WellFormed

/-!
# Writing a file

`write` replaces bytes of the file in place. The bytes it touches are those of the
positions it was asked to write: whole sectors are written without reading them first,
the others are read, patched and written back. As no block is shared, nothing else on the
disk changes: the pointers in the indirect block, the other files, the directories and
the metadata.

## Main definitions

* `Opened` — a handle of a reachable file whose inode is the one on the disk.
* `Written` — the effect of a write.

## Main results

* `wp_writeLoop` — the loop overwrites the positions.
* `write_changes_exactly`.
-/
namespace Efiks.Vsfs
open Lib Lib.RustM Vfs

/-! ## One sector -/

section Sector
variable {disk stale : Mem} {sector so c : ℕ} {f : ℕ → UInt8}

/-- Reading a sector, patching it and writing it back changes the patched bytes. -/
theorem putSector_patch (h : so + c ≤ sectorSize) :
    putSector disk sector ((sectorAt disk sector).blit so c f) =
      disk.blit (sectorSize * sector + so) c f := by
  funext a
  rw [putSector]
  by_cases hin : sectorSize * sector ≤ a ∧ a < sectorSize * sector + sectorSize
  · rw [Mem.blit_of_mem hin.1 hin.2]
    by_cases hpatch : sectorSize * sector + so ≤ a ∧ a < sectorSize * sector + so + c
    · rw [Mem.blit_of_mem (by omega) (by omega), Mem.blit_of_mem hpatch.1 hpatch.2]
      congr 1
      omega
    · rw [Mem.blit_of_notMem (by omega), Mem.blit_of_notMem (by omega), sectorAt,
        if_pos (by omega)]
      congr 1
      omega
  · rw [Mem.blit_of_notMem (by omega), Mem.blit_of_notMem (by omega)]

/-- A whole sector is written whatever the buffer held before. -/
theorem putSector_whole :
    putSector disk sector (stale.blit 0 sectorSize f) =
      disk.blit (sectorSize * sector) sectorSize f := by
  funext a
  rw [putSector]
  by_cases hin : sectorSize * sector ≤ a ∧ a < sectorSize * sector + sectorSize
  · rw [Mem.blit_of_mem hin.1 hin.2, Mem.blit_of_mem (by omega) (by omega),
      Mem.blit_of_mem hin.1 hin.2, Nat.sub_zero]
  · rw [Mem.blit_of_notMem (by omega), Mem.blit_of_notMem (by omega)]

/-- Whether the sector was read or not, patching the buffer and writing it changes the
patched bytes. -/
theorem wp_sectorToPatch {s : Mounted} {Q : Mem → Mounted → Prop} {E : VfsError → Mounted → Prop}
    {N : Panic → Prop} (hs : s.NoFaults) (hc : so + c ≤ sectorSize)
    (hQ : ∀ k sectorBuf, (∀ f, putSector s.disk sector (sectorBuf.blit so c f) =
      s.disk.blit (sectorSize * sector + so) c f) → Q sectorBuf { s with ops := k }) :
    wp (sectorToPatch sector c stale) Q E N s := by
  rw [sectorToPatch]
  by_cases hwhole : c = sectorSize
  · obtain rfl : so = 0 := by omega
    rw [if_neg (not_not.mpr hwhole), wp_pure]
    refine hQ s.ops stale fun f => ?_
    rw [hwhole, putSector_whole, Nat.add_zero]
  · rw [if_pos hwhole, wp_readSector hs]
    exact hQ _ _ fun f => putSector_patch hc

end Sector

/-- The places of a range of positions are different. -/
theorem FileOk.places_inj {disk : Mem} {inode : INodeInner} (h : FileOk disk inode) {offset n : ℕ}
    (hn : ∀ i < n, offset + i < inode.metadata.sz.toNat) : ∀ i < n, ∀ j < n,
      fileAddr disk inode (offset + i) = fileAddr disk inode (offset + j) → i = j := by
  intro i hi j hj heq
  have := h.fileAddr_inj (hn i hi) (hn j hj) heq
  omega

/-- Overwriting bytes of the file keeps its pointers. -/
theorem FileOk.pointerOf_overwrite {disk : Mem} {inode : INodeInner} (h : FileOk disk inode)
    {offset n lb : ℕ} {buf : ℕ → UInt8}
    (hn : offset + n ≤ inode.metadata.sz.toNat) (hlb : lb < inode.blockCount) :
    pointerOf (disk.overwrite (fun i => fileAddr disk inode (offset + i)) n buf) inode lb =
      pointerOf disk inode lb := by
  refine pointerOf_congr fun hind a ha => Mem.overwrite_of_ne fun i hi heq => ?_
  exact h.fileAddr_ne_indirect (i := offset + i) (by omega) (by omega) (heq ▸ ha)

/-! ## The loop -/

section Loop
variable {D : Mem} {inner : INodeInner} {len offset n : ℕ} {E : VfsError → Mounted → Prop}
variable {N : Panic → Prop}

theorem FileOk.blockOf_eq (h : FileOk D inner) {lb : ℕ} (hlb : lb < inner.blockCount) :
    blockOf D inner lb = some (pointerOf D inner lb) :=
  if_neg (h.ne_zero _ (pointerOf_mem_refs hlb))

/-- The loop of `write` after `total` bytes. -/
theorem wp_writeLoop (buf : Mem) (h : FileOk D inner) (hlen : n ≤ len)
    (hn : offset + n ≤ inner.metadata.sz.toNat) (fuel total : ℕ) (mapped : Option (ℕ × UInt32))
    (sectorBuf : Mem) (s : Mounted) (htotal : total ≤ n) (hfuel : n - total ≤ fuel)
    (hs : s.NoFaults)
    (hdisk : s.disk = D.overwrite (fun i => fileAddr D inner (offset + i)) total buf)
    (hmapped : ∀ lb b, mapped = some (lb, b) → lb < inner.blockCount ∧ pointerOf D inner lb = b) :
    wp (writeLoop inner buf len fuel (offset + total) total (n - total) mapped sectorBuf)
      (fun r t => r = n ∧ ∃ k, t = { s with
        ops := k, disk := D.overwrite (fun i => fileAddr D inner (offset + i)) n buf })
      E N s := by
  induction fuel generalizing total mapped sectorBuf s with
  | zero =>
    have hzero : n - total = 0 := Nat.le_zero.mp hfuel
    obtain rfl : total = n := by omega
    rw [writeLoop, if_pos hzero, wp_pure]
    exact ⟨rfl, s.ops, by rw [← hdisk]⟩
  | succ fuel ih =>
    rw [writeLoop]
    by_cases hzero : n - total = 0
    · obtain rfl : total = n := by omega
      rw [if_pos hzero, wp_pure]
      exact ⟨rfl, s.ops, by rw [← hdisk]⟩
    rw [if_neg hzero]
    have hpos : offset + total < inner.metadata.sz.toNat := by omega
    have hptr : ∀ lb < inner.blockCount, pointerOf s.disk inner lb = pointerOf D inner lb := by
      intro lb hlb
      rw [hdisk, h.pointerOf_overwrite (by omega) hlb]
    have hblock : blockOf s.disk inner ((offset + total) / blockSize) =
        some (pointerOf D inner ((offset + total) / blockSize)) := by
      have hlb := div_lt_blockCount hpos
      rw [blockOf, hptr _ hlb, if_neg (h.ne_zero _ (pointerOf_mem_refs hlb))]
    have hrem : Remembers s.disk inner mapped := by
      intro lb b hlb
      obtain ⟨hlt, rfl⟩ := hmapped lb b hlb
      rw [blockOf, hptr _ hlt, if_neg (h.ne_zero _ (pointerOf_mem_refs hlt))]
    simp only [wp_bind, wp_attempt]
    refine wp_mapBlock hs hrem ?_ fun k hnone => absurd hnone (by rw [hblock]; simp)
    intro k b hb
    obtain rfl := Option.some.inj (hblock.symm.trans hb)
    generalize hso : (offset + total) % blockSize % sectorSize = so
    have hsolt : so < sectorSize := by
      rw [← hso]
      exact Nat.mod_lt _ (by decide)
    have hsec : (offset + total) % blockSize / sectorSize < 2 ^ 32 := by
      unfold blockSize sectorSize
      omega
    generalize hc : min (sectorSize - so) (n - total) = c
    have hcle : so + c ≤ sectorSize := by omega
    have hcle' : total + c ≤ len := by omega
    have hcn : c ≤ n - total := by omega
    have hoff : offset + total + c < 2 ^ 64 := by
      have := inner.metadata.sz.toNat_lt
      omega
    have htot : total + c < 2 ^ 64 := by omega
    have hs' : { s with ops := k }.NoFaults := hs
    simp only [wp_blockSector _ hsec, wp_subUsize, hsolt.le, hsolt.not_gt, true_implies,
      false_implies, and_true, hc]
    refine wp_sectorToPatch hs' hcle fun k' patched hpatch => ?_
    have hs'' : { s with ops := k' }.NoFaults := hs
    simp only [wp_inBounds, hcle, hcle', hcle.not_gt, hcle'.not_gt, true_implies, false_implies,
      and_true, wp_writeSector hs'', wp_addUsize, hoff, htot, hoff.not_ge, htot.not_ge, hcn,
      hcn.not_gt, hpatch]
    have hrest : n - total - c = n - (total + c) := by omega
    rw [Nat.add_assoc, hrest]
    have hrun : ∀ i < c, fileAddr D inner (offset + (total + i)) =
        fileAddr D inner (offset + total) + i := by
      intro i hi
      have hdiv : (offset + (total + i)) / blockSize = (offset + total) / blockSize := by
        unfold blockSize sectorSize at *
        omega
      rw [fileAddr, fileAddr, hdiv]
      unfold blockSize sectorSize at *
      omega
    have haddr : sectorSize * ((pointerOf D inner ((offset + total) / blockSize)).toNat *
        sectorsPerBlock + (offset + total) % blockSize / sectorSize) + so =
          fileAddr D inner (offset + total) := by
      rw [fileAddr, ← hso]
      unfold blockSize sectorSize sectorsPerBlock
      omega
    have hnew : s.disk.blit (sectorSize * ((pointerOf D inner ((offset + total) /
        blockSize)).toNat * sectorsPerBlock + (offset + total) % blockSize / sectorSize) + so) c
          (fun i => buf (total + i)) =
        D.overwrite (fun i => fileAddr D inner (offset + i)) (total + c) buf := by
      rw [haddr, hdisk]
      exact Mem.blit_overwrite (h.places_inj fun i hi => by omega) hrun
    rw [hnew]
    refine ih (total + c) _ _ { s with ops := k' + 1, disk := _ } (by omega) (by omega) hs rfl ?_
    intro lb' b' heq
    obtain ⟨rfl, rfl⟩ := Prod.mk.inj (Option.some.inj heq)
    exact ⟨div_lt_blockCount hpos, rfl⟩

end Loop

/-! ## Files of a well-formed disk -/

/-- The object `id` is a handle of the reachable file `inum`, with the inode that is on the
disk. -/
structure Opened (s : Mounted) (id inum : ℕ) : Prop where
  reach : Reach s.disk s.superblock inum
  inode_eq : s.inodes id = ⟨inum, inodeAt s.disk s.superblock inum⟩
  file : (inodeAt s.disk s.superblock inum).ty = .file

/-- The number of bytes a transfer of `len` bytes at `offset` covers. -/
def transferred (inode : INodeInner) (offset len : ℕ) : ℕ :=
  min len (inode.metadata.sz.toNat - offset)

/-- The disk with `n` bytes of the file replaced from `offset` on. -/
def patchFile (disk : Mem) (inode : INodeInner) (offset n : ℕ) (buf : Mem) : Mem :=
  disk.overwrite (fun i => fileAddr disk inode (offset + i)) n buf

section Opened
variable {s : Mounted} {disk : Mem} {sb : SuperBlock} {id inum offset len n : ℕ} {buf : Mem}

theorem WellFormed.fileOk (hwf : WellFormed disk sb) (hr : Reach disk sb inum) :
    FileOk disk (inodeAt disk sb inum) where
  nodup := hwf.refs_nodup inum hr
  ne_zero b hb hzero := by
    have hlow := (hwf.ref_range inum hr b hb).1
    have hpos := hwf.laid.bitmaps_data.1
    rw [hzero, UInt32.toNat_zero] at hlow
    omega

/-- Replacing bytes of a file changes nothing but its contents. -/
theorem WellFormed.onlyContents (buf : Mem) (hwf : WellFormed disk sb) (hr : Reach disk sb inum)
    (hn : ∀ i < n, offset + i < (inodeAt disk sb inum).metadata.sz.toNat) :
    OnlyContents disk (patchFile disk (inodeAt disk sb inum) offset n buf) sb inum := by
  have hmem : ∀ i < n, ∃ b ∈ refs disk (inodeAt disk sb inum),
      fileAddr disk (inodeAt disk sb inum) (offset + i) / blockSize = b.toNat := fun i hi =>
    ⟨_, pointerOf_mem_refs (div_lt_blockCount (hn i hi)), fileAddr_div ..⟩
  refine ⟨fun a ha => ?_, fun m hm hne b hb a ha => ?_, fun hcount a ha => ?_⟩ <;>
    refine Mem.overwrite_of_ne fun i hi heq => ?_
  · obtain ⟨b, hb, haddr⟩ := hmem i hi
    have hlow := (hwf.ref_range inum hr b hb).1
    rw [heq] at haddr
    omega
  · obtain ⟨b', hb', haddr⟩ := hmem i hi
    rw [heq, ha] at haddr
    obtain rfl : b = b' := UInt32.toNat_inj.mp haddr
    exact hwf.refs_apart m inum hm hr hne b hb hb'
  · exact (hwf.fileOk hr).fileAddr_ne_indirect (hn i hi) hcount (heq ▸ ha)

/-- What `write` does to an open file of a well-formed disk. -/
theorem Opened.write_run (hs : s.NoFaults) (hwf : WellFormed s.disk s.superblock)
    (ho : Opened s id inum) (offset len : ℕ) (buf : Mem) :
    ∃ k, write id offset buf len s =
      .ok (transferred (inodeAt s.disk s.superblock inum) offset len) { s with
        ops := k
        disk := patchFile s.disk (inodeAt s.disk s.superblock inum) offset
          (transferred (inodeAt s.disk s.superblock inum) offset len) buf } := by
  have hwp : wp (write id offset buf len) (fun r t =>
      r = transferred (inodeAt s.disk s.superblock inum) offset len ∧ ∃ k, t = { s with
        ops := k
        disk := patchFile s.disk (inodeAt s.disk s.superblock inum) offset
          (transferred (inodeAt s.disk s.superblock inum) offset len) buf })
      (fun _ _ => False) (fun _ => False) s := by
    rw [write, wp_bind, wp_gets, ho.inode_eq]
    dsimp only
    rw [if_neg (not_not.mpr ho.file)]
    by_cases hend : offset ≥ (inodeAt s.disk s.superblock inum).metadata.sz.toNat ∨ len = 0
    · have hzero : transferred (inodeAt s.disk s.superblock inum) offset len = 0 := by
        unfold transferred
        omega
      rw [if_pos hend, wp_pure, hzero]
      exact ⟨rfl, s.ops, by rw [patchFile, Mem.overwrite_zero]⟩
    · rw [if_neg hend]
      rw [not_or, Nat.not_le] at hend
      simp only [wp_bind, wp_subUsize]
      refine ⟨fun _ => ?_, fun hlt => absurd hlt hend.1.not_gt⟩
      have hle : offset + min len ((inodeAt s.disk s.superblock inum).metadata.sz.toNat - offset) ≤
          (inodeAt s.disk s.superblock inum).metadata.sz.toNat := by omega
      have hloop := wp_writeLoop (E := fun _ _ => False) (N := fun _ => False) buf
        (hwf.fileOk ho.reach)
        (min_le_left len ((inodeAt s.disk s.superblock inum).metadata.sz.toNat - offset))
        hle (min len ((inodeAt s.disk s.superblock inum).metadata.sz.toNat - offset)) 0 none
        (fun _ => 0) s (Nat.zero_le _) (by omega) hs (by rw [Mem.overwrite_zero])
        (fun _ _ h => by cases h)
      rw [Nat.add_zero, Nat.sub_zero] at hloop
      exact hloop
  obtain ⟨r, s', hrun, rfl, k, rfl⟩ := exists_ok_of_wp hwp
  exact ⟨k, hrun⟩

/-- Every byte of the file is before a block without a pointer. -/
theorem FileOk.readable_eq {inode : INodeInner} (h : FileOk disk inode)
    (hn : offset + n ≤ inode.metadata.sz.toNat) : readable disk inode offset n = n := by
  have hall : (List.range n).takeWhile (fun i =>
      (blockOf disk inode ((offset + i) / blockSize)).isSome) = List.range n := by
    refine List.takeWhile_eq_self_iff.mpr fun i hi => ?_
    have hlt := List.mem_range.mp hi
    have hlb : (offset + i) / blockSize < inode.blockCount := div_lt_blockCount (by omega)
    rw [h.blockOf_eq hlb]
    rfl
  rw [readable, hall, List.length_range]

/-- What `read` returns of an open file of a well-formed disk. -/
theorem Opened.read_run (hs : s.NoFaults) (hwf : WellFormed s.disk s.superblock)
    (ho : Opened s id inum) (offset len : ℕ) (buf : Mem) :
    ∃ k, read id offset len (s, buf) =
      .ok (transferred (inodeAt s.disk s.superblock inum) offset len) ({ s with ops := k },
        buf.blit 0 (transferred (inodeAt s.disk s.superblock inum) offset len) fun i =>
          fileByte s.disk (inodeAt s.disk s.superblock inum) (offset + i)) := by
  have hinner : (s.inodes id).inner = inodeAt s.disk s.superblock inum := by rw [ho.inode_eq]
  have hfile : (s.inodes id).inner.ty = .file := hinner ▸ ho.file
  rw [← hinner]
  by_cases hend : offset ≥ (s.inodes id).inner.metadata.sz.toNat ∨ len = 0
  · have hzero : transferred (s.inodes id).inner offset len = 0 := by
      unfold transferred
      omega
    rw [read_end hfile hend, hzero, Mem.blit_zero]
    exact ⟨s.ops, rfl⟩
  · obtain ⟨hoff, hlen⟩ := not_or.mp hend
    have hm : readable s.disk (s.inodes id).inner offset
        (min len ((s.inodes id).inner.metadata.sz.toNat - offset)) =
          transferred (s.inodes id).inner offset len :=
      (hinner ▸ hwf.fileOk ho.reach).readable_eq (by omega)
    have hread := wp_read buf hs hfile (Nat.not_le.mp hoff) hlen
    dsimp only at hread
    rw [hm] at hread
    have hpos : transferred (s.inodes id).inner offset len ≠ 0 := by
      unfold transferred
      omega
    obtain ⟨r, ⟨s', buf'⟩, hrun, rfl, -, ⟨k, rfl⟩, rfl⟩ := exists_ok_of_wp
      (wp_mono hread (fun _ _ h => h) (fun _ _ h => absurd h.2.1 hpos) fun _ h => h)
    exact ⟨k, hrun⟩

/-- The handle of a file survives a change of contents. -/
theorem Opened.onlyContents (ho : Opened s id inum) (hwf : WellFormed s.disk s.superblock)
    {m k : ℕ} {disk' : Mem} (h : OnlyContents s.disk disk' s.superblock m)
    (hm : (inodeAt s.disk s.superblock m).ty = .file) :
    Opened { s with disk := disk', ops := k } id inum where
  reach := (h.reach_iff hwf hm).mpr ho.reach
  inode_eq := by
    rw [h.inodeAt_eq hwf (hwf.inum_range inum ho.reach).2]
    exact ho.inode_eq
  file := by
    rw [h.inodeAt_eq hwf (hwf.inum_range inum ho.reach).2]
    exact ho.file

theorem add_lt_of_lt_transferred {inode : INodeInner} (i : ℕ)
    (hi : i < transferred inode offset len) : offset + i < inode.metadata.sz.toNat := by
  unfold transferred at hi
  omega

end Opened

/-- The effect of writing `n` bytes at `offset` of the file `inum`. -/
structure Written (s s' : Mounted) (inum offset n : ℕ) (buf : Mem) : Prop where
  /-- The file holds the new bytes in the range and the old ones elsewhere. -/
  contents : ∀ i < (inodeAt s.disk s.superblock inum).metadata.sz.toNat,
    fileByte s'.disk (inodeAt s'.disk s.superblock inum) i =
      if offset ≤ i ∧ i < offset + n then buf (i - offset)
      else fileByte s.disk (inodeAt s.disk s.superblock inum) i
  /-- The other files and the directories are as before. -/
  others : ∀ m, Reach s.disk s.superblock m → m ≠ inum →
    ∀ i < (inodeAt s.disk s.superblock m).metadata.sz.toNat,
      fileByte s'.disk (inodeAt s'.disk s.superblock m) i =
        fileByte s.disk (inodeAt s.disk s.superblock m) i
  /-- Superblock, bitmaps and inode table are as before. -/
  metadata : ∀ a, a / blockSize < s.superblock.dataBlockStart.toNat → s'.disk a = s.disk a
  /-- Every byte that is not one of the written positions is as before. -/
  outside : ∀ a, (∀ i < n, fileAddr s.disk (inodeAt s.disk s.superblock inum) (offset + i) ≠ a) →
    s'.disk a = s.disk a
  reach : ∀ m, Reach s'.disk s.superblock m ↔ Reach s.disk s.superblock m
  wellFormed : WellFormed s'.disk s.superblock
  /-- Nothing but the disk changes. -/
  memory : s' = { s with disk := s'.disk, ops := s'.ops }

section Main
variable {s : Mounted} {id inum : ℕ}

theorem Opened.written (buf : Mem) (hwf : WellFormed s.disk s.superblock) (ho : Opened s id inum)
    {offset n k : ℕ}
    (hn : ∀ i < n, offset + i < (inodeAt s.disk s.superblock inum).metadata.sz.toNat) :
    Written s { s with
        ops := k
        disk := patchFile s.disk (inodeAt s.disk s.superblock inum) offset n buf }
      inum offset n buf := by
  have hfile := hwf.fileOk ho.reach
  have honly := hwf.onlyContents buf ho.reach hn
  have hino : ∀ m, Reach s.disk s.superblock m →
      inodeAt (patchFile s.disk (inodeAt s.disk s.superblock inum) offset n buf) s.superblock m =
        inodeAt s.disk s.superblock m := fun m hm =>
    honly.inodeAt_eq hwf (hwf.inum_range m hm).2
  refine ⟨fun i hi => ?_, fun m hm hne i hi => ?_, honly.low, fun a ha => ?_,
    fun m => honly.reach_iff hwf ho.file, honly.wellFormed hwf ho.file, rfl⟩
  · dsimp only
    rw [hino inum ho.reach, fileByte,
      fileAddr_congr (fun lb _ => honly.pointerOf_eq hwf ho.reach lb) hi, patchFile]
    by_cases hin : offset ≤ i ∧ i < offset + n
    · obtain ⟨j, rfl⟩ : ∃ j, i = offset + j := ⟨i - offset, by omega⟩
      have hj : j < n := by omega
      rw [if_pos hin, Nat.add_sub_cancel_left]
      exact Mem.overwrite_at (hfile.places_inj hn) hj
    · rw [if_neg hin, fileByte]
      refine Mem.overwrite_of_ne fun j hj heq => hin ?_
      have := hfile.fileAddr_inj (hn j hj) hi heq
      omega
  · dsimp only
    rw [hino m hm]
    exact honly.fileByte_eq hwf hm hne hi
  · exact Mem.overwrite_of_ne ha

/-- Writes to two files leave the same disk in either order. -/
theorem patchFile_comm (hwf : WellFormed s.disk s.superblock) {m : ℕ}
    (hr : Reach s.disk s.superblock inum) (hr' : Reach s.disk s.superblock m) (hne : m ≠ inum)
    {offset n offset' n' : ℕ} {buf buf' : Mem}
    (hn : ∀ i < n, offset + i < (inodeAt s.disk s.superblock inum).metadata.sz.toNat)
    (hn' : ∀ i < n', offset' + i < (inodeAt s.disk s.superblock m).metadata.sz.toNat) :
    let d := patchFile s.disk (inodeAt s.disk s.superblock inum) offset n buf
    let d' := patchFile s.disk (inodeAt s.disk s.superblock m) offset' n' buf'
    patchFile d (inodeAt s.disk s.superblock m) offset' n' buf' =
      patchFile d' (inodeAt s.disk s.superblock inum) offset n buf := by
  intro d d'
  have honly := hwf.onlyContents buf hr hn
  have honly' := hwf.onlyContents buf' hr' hn'
  have haddr : ∀ i < n, fileAddr d' (inodeAt s.disk s.superblock inum) (offset + i) =
      fileAddr s.disk (inodeAt s.disk s.superblock inum) (offset + i) := fun i hi =>
    fileAddr_congr (fun lb _ => honly'.pointerOf_eq hwf hr lb) (hn i hi)
  have haddr' : ∀ i < n', fileAddr d (inodeAt s.disk s.superblock m) (offset' + i) =
      fileAddr s.disk (inodeAt s.disk s.superblock m) (offset' + i) := fun i hi =>
    fileAddr_congr (fun lb _ => honly.pointerOf_eq hwf hr' lb) (hn' i hi)
  rw [patchFile, Mem.overwrite_congr haddr', patchFile, Mem.overwrite_congr haddr]
  refine Mem.overwrite_comm ((hwf.fileOk hr).places_inj hn) ((hwf.fileOk hr').places_inj hn')
    fun i hi j hj heq => ?_
  -- a common place would be in a block of both files
  have hdiv := congrArg (· / blockSize) heq
  simp only [fileAddr_div] at hdiv
  refine hwf.refs_apart m inum hr' hr hne _
    (pointerOf_mem_refs (div_lt_blockCount (hn' j hj))) ?_
  rw [← UInt32.toNat_inj.mp hdiv]
  exact pointerOf_mem_refs (div_lt_blockCount (hn i hi))

/-- Two writes to different files, one after the other. -/
theorem Opened.write_write_run (hs : s.NoFaults) (hwf : WellFormed s.disk s.superblock)
    (ho : Opened s id inum) {id' inum' : ℕ} (ho' : Opened s id' inum')
    (offset len offset' len' : ℕ) (buf buf' : Mem) :
    let inode := inodeAt s.disk s.superblock inum
    let inode' := inodeAt s.disk s.superblock inum'
    let n := transferred inode offset len
    let n' := transferred inode' offset' len'
    ∃ s₁ k, write id offset buf len s = .ok n s₁ ∧ write id' offset' buf' len' s₁ = .ok n' { s with
      ops := k
      disk := patchFile (patchFile s.disk inode offset n buf) inode' offset' n' buf' } := by
  intro inode inode' n n'
  obtain ⟨k, hrun⟩ := ho.write_run hs hwf offset len buf
  have hn : ∀ i < n, offset + i < inode.metadata.sz.toNat := add_lt_of_lt_transferred
  have honly := hwf.onlyContents buf ho.reach hn
  have hino : inodeAt (patchFile s.disk inode offset n buf) s.superblock inum' = inode' :=
    honly.inodeAt_eq hwf (hwf.inum_range inum' ho'.reach).2
  have hs₁ : Mounted.NoFaults { s with disk := patchFile s.disk inode offset n buf, ops := k } := hs
  obtain ⟨k', hrun'⟩ := (ho'.onlyContents (k := k) hwf honly ho.file).write_run hs₁
    (honly.wellFormed hwf ho.file) offset' len' buf'
  refine ⟨_, k', hrun, ?_⟩
  dsimp only at hrun'
  rw [hino] at hrun'
  exact hrun'

/-- What the file reads as after a write. -/
theorem Opened.read_written (hs : s.NoFaults) (ho : Opened s id inum) {s' : Mounted}
    {offset n : ℕ} {buf : Mem} (hw : Written s s' inum offset n buf) (ho' : Opened s' id inum)
    (offset' len' : ℕ) (buf' : Mem) :
    let inode := inodeAt s.disk s.superblock inum
    ∃ t, read id offset' len' (s', buf') = .ok (transferred inode offset' len') t ∧
      ∀ i < transferred inode offset' len', t.2 i =
        if offset ≤ offset' + i ∧ offset' + i < offset + n then buf (offset' + i - offset)
        else fileByte s.disk inode (offset' + i) := by
  intro inode
  have hs' : s'.NoFaults := by
    rw [hw.memory]
    exact hs
  have hsb : s'.superblock = s.superblock := by rw [hw.memory]
  have hino : inodeAt s'.disk s'.superblock inum = inode := by
    have hmem := congrArg (fun s => (s.inodes id).inner) hw.memory
    dsimp only at hmem
    rw [ho'.inode_eq, ho.inode_eq] at hmem
    exact hmem
  obtain ⟨k, hread⟩ := ho'.read_run hs' (hsb ▸ hw.wellFormed) offset' len' buf'
  rw [hino] at hread
  refine ⟨_, hread, fun i hi => ?_⟩
  dsimp only
  rw [Mem.blit_of_mem (Nat.zero_le i) (by omega), Nat.sub_zero,
    ← hw.contents _ (add_lt_of_lt_transferred i hi), ← hsb, hino]

end Main

/-- **Writes change exactly the addressed bytes.** `write` returns the number of bytes up to
the end of the file that fit, changes these bytes of the file and nothing else, and every
later read of the file finds them; writes to different files commute. -/
theorem write_changes_exactly (s : Mounted) (id inum offset len : ℕ) (buf : Mem)
    (hs : s.NoFaults) (hwf : WellFormed s.disk s.superblock) (ho : Opened s id inum) :
    let inode := inodeAt s.disk s.superblock inum
    let n := transferred inode offset len
    (∃ s', write id offset buf len s = .ok n s' ∧ Written s s' inum offset n buf ∧
      (∀ offset' len' buf', ∃ t, read id offset' len' (s', buf') =
          .ok (transferred inode offset' len') t ∧
        ∀ i < transferred inode offset' len', t.2 i =
          if offset ≤ offset' + i ∧ offset' + i < offset + n then buf (offset' + i - offset)
          else fileByte s.disk inode (offset' + i)) ∧
      ∀ buf', ∃ t, read id offset len (s', buf') = .ok n t ∧ ∀ i < n, t.2 i = buf i) ∧
    ∀ id' inum' offset' len' buf', Opened s id' inum' → inum' ≠ inum →
      ∃ n' t t', (do
          let a ← write id offset buf len
          let b ← write id' offset' buf' len'
          pure (a, b) : FM (ℕ × ℕ)) s = .ok (n, n') t ∧
        (do
          let b ← write id' offset' buf' len'
          let a ← write id offset buf len
          pure (a, b) : FM (ℕ × ℕ)) s = .ok (n, n') t' ∧
        t' = { t with ops := t'.ops } := by
  intro inode n
  have hn : ∀ i < n, offset + i < inode.metadata.sz.toNat := add_lt_of_lt_transferred
  constructor
  · obtain ⟨k, hrun⟩ := ho.write_run hs hwf offset len buf
    have hwritten := ho.written (k := k) buf hwf hn
    have hread := ho.read_written hs hwritten
      (ho.onlyContents hwf (hwf.onlyContents buf ho.reach hn) ho.file)
    refine ⟨_, hrun, hwritten, hread, fun buf' => ?_⟩
    obtain ⟨t, ht, hbytes⟩ := hread offset len buf'
    refine ⟨t, ht, fun i hi => ?_⟩
    rw [hbytes i hi, if_pos ⟨Nat.le_add_right offset i, by omega⟩, Nat.add_sub_cancel_left]
  · intro id' inum' offset' len' buf' ho' hne
    have hn' : ∀ i < transferred (inodeAt s.disk s.superblock inum') offset' len',
        offset' + i < (inodeAt s.disk s.superblock inum').metadata.sz.toNat :=
      add_lt_of_lt_transferred
    obtain ⟨s₁, k, hfirst, hsecond⟩ := ho.write_write_run hs hwf ho' offset len offset' len' buf buf'
    obtain ⟨s₂, k', hfirst', hsecond'⟩ := ho'.write_write_run hs hwf ho offset' len' offset len buf'
      buf
    rw [patchFile_comm hwf ho.reach ho'.reach hne hn hn'] at hsecond
    refine ⟨_, _, _, (bind_run_of_ok hfirst _).trans (bind_run_of_ok hsecond _),
      (bind_run_of_ok hfirst' _).trans (bind_run_of_ok hsecond' _), rfl⟩

/-- The small disk, mounted, with an object for each of its inodes. -/
def smallMounted : Mounted where
  disk := smallDisk
  fault := fun _ => .none
  ops := 0
  superblock := smallSuper
  cache := fun _ => none
  inodes := fun id => ⟨id, inodeAt smallDisk smallSuper id⟩
  next := 3

theorem opened_small : Opened smallMounted 2 2 := by
  refine ⟨?_, rfl, by decide +kernel⟩
  have hentry : (entryAt smallDisk (inodeAt smallDisk smallSuper 1) 0).inum.toNat = 2 := by
    decide +kernel
  exact hentry ▸ Reach.entry .root (by decide +kernel) (by decide +kernel)

/-- Of nine bytes at offset three of a file of five bytes, two are written. -/
theorem write_changes_small : ∃ s', write 2 3 (fun i => UInt8.ofNat i) 9 smallMounted = .ok 2 s' ∧
    Written smallMounted s' 2 3 2 fun i => UInt8.ofNat i := by
  have hn : transferred (inodeAt smallDisk smallSuper 2) 3 9 = 2 := by decide +kernel
  obtain ⟨s', hrun, hwritten, -⟩ := (write_changes_exactly smallMounted 2 2 3 9
    (fun i => UInt8.ofNat i) (fun _ => rfl) wellFormed_small opened_small).1
  have hrun' : write 2 3 (fun i => UInt8.ofNat i) 9 smallMounted =
      .ok (transferred (inodeAt smallDisk smallSuper 2) 3 9) s' := hrun
  have hwritten' : Written smallMounted s' 2 3 (transferred (inodeAt smallDisk smallSuper 2) 3 9)
      fun i => UInt8.ofNat i := hwritten
  rw [hn] at hrun' hwritten'
  exact ⟨s', hrun', hwritten'⟩

end Efiks.Vsfs

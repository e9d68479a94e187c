import Efiks.Vsfs.Inode

/-!
# Reading a file

The blocks of an inode in logical order are the file: `fileByte` is the byte at a
position of their concatenation. `read` returns the bytes from the offset up to the end
of the file, the end of the buffer or the first block that has no pointer, whichever
comes first, and it fails if there is no byte before that block.

## Main definitions

* `blockOf`, `fileByte` — the block and the byte behind a position.
* `readable` — the number of bytes before the first block without a pointer.

## Main results

* `wp_dataBlock` — `dataBlock` is `blockOf`.
* `read_returns_file`.
-/
namespace Efiks.Vsfs
open Lib Lib.RustM Vfs

/-- No sector operation fails. -/
def Mounted.NoFaults (s : Mounted) : Prop := ∀ n, s.fault n = .none

/-- The pointer of a logical block, zero if there is none. -/
def pointerOf (disk : Mem) (inode : INodeInner) (logicalBlock : ℕ) : UInt32 :=
  if h : logicalBlock < directBlocks then inode.directBlocks ⟨logicalBlock, h⟩
  else if logicalBlock - directBlocks ≥ indirectBlockEntries ∨ inode.indirectBlock = 0 then 0
  else u32At disk (blockSize * inode.indirectBlock.toNat + 4 * (logicalBlock - directBlocks))

/-- The block behind a logical block. -/
def blockOf (disk : Mem) (inode : INodeInner) (logicalBlock : ℕ) : Option UInt32 :=
  if pointerOf disk inode logicalBlock = 0 then none else some (pointerOf disk inode logicalBlock)

/-- The position `i` of the file on the disk. -/
def fileAddr (disk : Mem) (inode : INodeInner) (i : ℕ) : ℕ :=
  blockSize * (pointerOf disk inode (i / blockSize)).toNat + i % blockSize

/-- The byte `i` of the blocks of the inode in logical order. -/
def fileByte (disk : Mem) (inode : INodeInner) (i : ℕ) : UInt8 := disk (fileAddr disk inode i)

/-- The number of the `n` bytes from `offset` on before the first block without a pointer. -/
def readable (disk : Mem) (inode : INodeInner) (offset n : ℕ) : ℕ :=
  ((List.range n).takeWhile fun i =>
    (blockOf disk inode ((offset + i) / blockSize)).isSome).length

section Device
variable {s : Mounted} {E : VfsError → Mounted → Prop} {N : Panic → Prop}

@[simp] theorem Mounted.noFaults_ops (k : ℕ) : { s with ops := k }.NoFaults ↔ s.NoFaults := Iff.rfl

theorem wp_readSector {Q : Mem → Mounted → Prop} (h : s.NoFaults) (sector : ℕ) :
    wp (readSector sector) Q E N s ↔
      Q (sectorAt s.disk sector) { s with ops := s.ops + 1 } := by
  simp [readSector, sectorOp, h s.ops]

theorem wp_writeSector {Q : Unit → Mounted → Prop} (h : s.NoFaults) (sector : ℕ) (buf : Mem) :
    wp (writeSector sector buf) Q E N s ↔
      Q () { s with ops := s.ops + 1, disk := putSector s.disk sector buf } := by
  simp [writeSector, sectorOp, h s.ops]

theorem wp_blockSector {Q : ℕ → Mounted → Prop} (block : UInt32) {k : ℕ} (hk : k < 2 ^ 32) :
    wp (blockSector block k) Q E N s ↔ Q (block.toNat * sectorsPerBlock + k) s := by
  have hblock := block.toNat_lt
  have hmul : block.toNat * sectorsPerBlock < 2 ^ 64 := by
    unfold sectorsPerBlock
    omega
  have hadd : block.toNat * sectorsPerBlock + k < 2 ^ 64 := by
    unfold sectorsPerBlock
    omega
  rw [blockSector, wp_bind, wp_mulUsize, wp_addUsize]
  simp only [hmul, hadd, true_implies, Nat.not_le.mpr hmul, Nat.not_le.mpr hadd, false_implies,
    and_true]

theorem u32At_sectorAt (disk : Mem) (sector : ℕ) {off : ℕ} (h : off + 4 ≤ sectorSize) :
    u32At (sectorAt disk sector) off = u32At disk (sectorSize * sector + off) := by
  rw [u32At, u32At]
  congr 1
  refine Mem.load_eq_load fun i hi => ?_
  rw [sectorAt, if_pos (by omega), Nat.add_assoc]

end Device

section Blocks
variable {s : Mounted} {inode : INodeInner} {lb : ℕ} {E : VfsError → Mounted → Prop}
variable {N : Panic → Prop} {Q : UInt32 → Mounted → Prop}

/-- The pointer in the indirect block is the word at its place on the disk. -/
theorem wp_indirectPointer (h : s.NoFaults) {i : ℕ} (hi : i < indirectBlockEntries) :
    wp (indirectPointer inode i) Q E N s ↔
      Q (u32At s.disk (blockSize * inode.indirectBlock.toNat + 4 * i))
        { s with ops := s.ops + 1 } := by
  have hi' : i < 1024 := hi
  have hmul : i * 4 < 2 ^ 64 := by omega
  have hoff : i * 4 % sectorSize + 4 ≤ sectorSize := by
    unfold sectorSize
    omega
  have hsec : i * 4 / sectorSize < 2 ^ 32 := by
    unfold sectorSize
    omega
  have haddr : sectorSize * (inode.indirectBlock.toNat * sectorsPerBlock + i * 4 / sectorSize) +
      i * 4 % sectorSize = blockSize * inode.indirectBlock.toNat + 4 * i := by
    unfold sectorSize sectorsPerBlock blockSize
    omega
  rw [indirectPointer, wp_bind, wp_mulUsize]
  simp only [hmul, true_implies, Nat.not_le.mpr hmul, false_implies, and_true, wp_bind,
    wp_blockSector _ hsec, wp_readSector h, wp_inBounds, hoff, Nat.not_lt.mpr hoff, wp_pure,
    u32At_sectorAt _ _ hoff, haddr]

/-- `data_block` without device errors. -/
theorem wp_dataBlock (h : s.NoFaults)
    (hQ : ∀ k b, blockOf s.disk inode lb = some b → Q b { s with ops := k })
    (hE : ∀ k, blockOf s.disk inode lb = none → E .fs { s with ops := k }) :
    wp (dataBlock inode lb) Q E N s := by
  have hend : ∀ k, wp (if pointerOf s.disk inode lb = 0 then fail .fs
      else pure (pointerOf s.disk inode lb) : FM UInt32) Q E N { s with ops := k } := by
    intro k
    by_cases h0 : pointerOf s.disk inode lb = 0
    · rw [if_pos h0, wp_fail]
      exact hE k (if_pos h0)
    · rw [if_neg h0, wp_pure]
      exact hQ k _ (if_neg h0)
  rw [dataBlock, wp_bind, blockPointer]
  by_cases hd : lb < directBlocks
  · have hp : pointerOf s.disk inode lb = inode.directBlocks ⟨lb, hd⟩ := dif_pos hd
    rw [dif_pos hd, wp_pure, ← hp]
    exact hend s.ops
  · have hsub : directBlocks ≤ lb := Nat.not_lt.mp hd
    rw [dif_neg hd, wp_bind, wp_subUsize]
    refine ⟨fun _ => ?_, fun hlt => absurd hlt hd⟩
    by_cases hout : lb - directBlocks ≥ indirectBlockEntries ∨ inode.indirectBlock = 0
    · have hp : pointerOf s.disk inode lb = 0 := by rw [pointerOf, dif_neg hd, if_pos hout]
      rw [if_pos hout, wp_fail]
      exact hE s.ops (if_pos hp)
    · have hp : pointerOf s.disk inode lb =
          u32At s.disk (blockSize * inode.indirectBlock.toNat + 4 * (lb - directBlocks)) := by
        rw [pointerOf, dif_neg hd, if_neg hout]
      rw [if_neg hout, wp_indirectPointer h (Nat.not_le.mp (not_or.mp hout).1), ← hp]
      exact hend _

/-- A remembered block is the block. -/
def Remembers (disk : Mem) (inode : INodeInner) (mapped : Option (ℕ × UInt32)) : Prop :=
  ∀ lb b, mapped = some (lb, b) → blockOf disk inode lb = some b

theorem wp_mapBlock {mapped : Option (ℕ × UInt32)} (h : s.NoFaults)
    (hm : Remembers s.disk inode mapped)
    (hQ : ∀ k b, blockOf s.disk inode lb = some b → Q b { s with ops := k })
    (hE : ∀ k, blockOf s.disk inode lb = none → E .fs { s with ops := k }) :
    wp (mapBlock inode mapped lb) Q E N s := by
  cases mapped with
  | none => exact wp_dataBlock h hQ hE
  | some p =>
    obtain ⟨lb', b⟩ := p
    rw [mapBlock]
    by_cases hlb : lb' = lb
    · rw [if_pos hlb, wp_pure]
      exact hQ s.ops b (hlb ▸ hm lb' b rfl)
    · rw [if_neg hlb]
      exact wp_dataBlock h hQ hE

end Blocks

section Readable
variable {disk : Mem} {inode : INodeInner} {offset n m : ℕ}

theorem blockOf_isSome {lb : ℕ} :
    (blockOf disk inode lb).isSome = true ↔ pointerOf disk inode lb ≠ 0 := by
  rw [blockOf]
  split <;> simp [*]

theorem blockOf_eq_some {lb : ℕ} {b : UInt32} (h : blockOf disk inode lb = some b) :
    pointerOf disk inode lb = b := by
  rw [blockOf] at h
  split at h
  · cases h
  · exact Option.some.inj h

/-- How `readable` is found: everything before `m` has a block, and `m` is the end or has
none. -/
theorem readable_eq (hmn : m ≤ n)
    (hall : ∀ i < m, (blockOf disk inode ((offset + i) / blockSize)).isSome = true)
    (hstop : m < n → blockOf disk inode ((offset + m) / blockSize) = none) :
    readable disk inode offset n = m := by
  have hsplit : List.range n = List.range m ++ (List.range (n - m)).map (m + ·) := by
    rw [← List.range_add, Nat.add_sub_cancel' hmn]
  rw [readable, hsplit, List.takeWhile_append_of_pos, List.length_append, List.length_range]
  · rcases Nat.eq_or_lt_of_le hmn with rfl | hlt
    · simp
    · obtain ⟨k, hk⟩ : ∃ k, n - m = k + 1 := ⟨n - m - 1, by omega⟩
      rw [hk, List.range_succ_eq_map, List.map_cons, List.takeWhile_cons_of_neg]
      · simp
      · simp [hstop hlt]
  · intro i hi
    exact hall i (List.mem_range.mp hi)

/-- Everything that was asked for is there. -/
theorem readable_done (hmn : m ≤ n) (hzero : n - m = 0)
    (hall : ∀ i < m, (blockOf disk inode ((offset + i) / blockSize)).isSome = true) :
    m = readable disk inode offset n :=
  (readable_eq hmn hall fun hlt => by omega).symm

end Readable

section Loop
variable {inner : INodeInner} {len offset n : ℕ} {buf : Mem} {N : Panic → Prop}

@[simp] theorem wp_onFs {α : Type} (m : FM α) {Q : α → Mounted × Mem → Prop}
    {E : VfsError → Mounted × Mem → Prop} {s : Mounted} :
    wp (onFs m) Q E N (s, buf) ↔ wp m (fun a s' => Q a (s', buf)) (fun e s' => E e (s', buf)) N s :=
  wp_zoom ..

/-- The bytes a step copies are bytes of the file: one step stays in one sector. -/
theorem sectorAt_fileByte {disk : Mem} {b : UInt32} {o i : ℕ}
    (hb : pointerOf disk inner (o / blockSize) = b) (hi : o % blockSize % sectorSize + i < sectorSize) :
    sectorAt disk (b.toNat * sectorsPerBlock + o % blockSize / sectorSize)
      (o % blockSize % sectorSize + i) = fileByte disk inner (o + i) := by
  have hdiv : (o + i) / blockSize = o / blockSize := by
    unfold blockSize sectorSize at *
    omega
  rw [sectorAt, if_pos hi, fileByte, fileAddr, hdiv, hb]
  congr 1
  unfold blockSize sectorSize sectorsPerBlock at *
  omega

/-- The loop of `read` after `total` bytes. -/
theorem wp_readLoop (inner : INodeInner) (buf : Mem) (hn : n ≤ len) (hlt : offset + n < 2 ^ 64) (fuel total : ℕ)
    (mapped : Option (ℕ × UInt32)) (s : Mounted) (htotal : total ≤ n) (hfuel : n - total ≤ fuel)
    (hs : s.NoFaults) (hmapped : Remembers s.disk inner mapped)
    (hall : ∀ i < total, (blockOf s.disk inner ((offset + i) / blockSize)).isSome = true) :
    wp (readLoop inner len fuel (offset + total) total (n - total) mapped)
      (fun m t => m = readable s.disk inner offset n ∧ (0 < n → 0 < m) ∧
        (∃ k, t.1 = { s with ops := k }) ∧ t.2 = buf.blit 0 m fun i => fileByte s.disk inner (offset + i))
      (fun e t => e = .fs ∧ 0 < n ∧ readable s.disk inner offset n = 0 ∧
        (∃ k, t.1 = { s with ops := k }) ∧ t.2 = buf)
      N (s, buf.blit 0 total fun i => fileByte s.disk inner (offset + i)) := by
  induction fuel generalizing total mapped s with
  | zero =>
    have hzero : n - total = 0 := Nat.le_zero.mp hfuel
    rw [readLoop, if_pos hzero, wp_pure]
    exact ⟨readable_done htotal hzero hall, by omega, ⟨s.ops, rfl⟩, rfl⟩
  | succ fuel ih =>
    rw [readLoop]
    by_cases hzero : n - total = 0
    · rw [if_pos hzero, wp_pure]
      exact ⟨readable_done htotal hzero hall, by omega, ⟨s.ops, rfl⟩, rfl⟩
    rw [if_neg hzero]
    simp only [wp_bind, wp_onFs, wp_attempt]
    refine wp_mapBlock hs hmapped ?_ ?_
    · -- The block of this step is there: one sector is copied.
      intro k b hb
      have hp := blockOf_eq_some hb
      generalize hso : (offset + total) % blockSize % sectorSize = so
      have hsolt : so < sectorSize := by
        rw [← hso]
        exact Nat.mod_lt _ (by decide)
      have hsec : (offset + total) % blockSize / sectorSize < 2 ^ 32 := by
        unfold blockSize sectorSize
        omega
      generalize hc : min (sectorSize - so) (n - total) = c
      have hcle : so + c ≤ sectorSize := by omega
      have hcle' : total + c ≤ len := by omega
      have hcpos : 0 < c := by omega
      have hcn : c ≤ n - total := by omega
      have hoff : offset + total + c < 2 ^ 64 := by omega
      have htot : total + c < 2 ^ 64 := by omega
      have hcopy : ∀ i < c, sectorAt s.disk (b.toNat * sectorsPerBlock +
          (offset + total) % blockSize / sectorSize) (so + i) =
            fileByte s.disk inner (offset + (total + i)) := by
        intro i hi
        rw [← hso, sectorAt_fileByte hp (by omega), Nat.add_assoc]
      have hblit := Mem.blit_append (m := buf) (a := 0)
        (f := fun i => fileByte s.disk inner (offset + i)) hcopy
      rw [Nat.zero_add] at hblit
      have hs' : { s with ops := k }.NoFaults := hs
      simp only [wp_onFs, wp_blockSector b hsec, wp_readSector hs', wp_subUsize,
        hsolt.le, hsolt.not_gt, true_implies, false_implies, and_true, hc, wp_inBounds, hcle, hcle',
        hcle.not_gt, hcle'.not_gt, wp_modify, wp_addUsize, hoff, htot, hoff.not_ge, htot.not_ge,
        hcn, hcn.not_gt, hblit]
      have hrest : n - total - c = n - (total + c) := by omega
      rw [Nat.add_assoc, hrest]
      have hall' : ∀ i < total + c,
          (blockOf s.disk inner ((offset + i) / blockSize)).isSome = true := by
        intro i hi
        by_cases hit : i < total
        · exact hall i hit
        · have hdiv : (offset + i) / blockSize = (offset + total) / blockSize := by
            unfold blockSize sectorSize at *
            omega
          rw [hdiv, hb]
          rfl
      refine ih (total + c) _ { s with ops := k + 1 } (by omega) (by omega) hs ?_ hall'
      intro lb' b' heq
      obtain ⟨rfl, rfl⟩ := Prod.mk.inj (Option.some.inj heq)
      exact hb
    · -- There is no block: the bytes copied so far are all there is.
      intro k hb
      have hread : readable s.disk inner offset n = total :=
        readable_eq htotal hall fun _ => hb
      by_cases hpos : total > 0
      · rw [if_pos hpos, wp_pure]
        exact ⟨hread.symm, fun _ => hpos, ⟨k, rfl⟩, rfl⟩
      · obtain rfl : total = 0 := by omega
        rw [if_neg hpos, wp_fail]
        exact ⟨rfl, by omega, hread, ⟨k, rfl⟩, by simp⟩

end Loop

section Main
variable {s : Mounted} {inode offset len : ℕ} {buf : Mem}

/-- At the end of the file, and into an empty buffer, nothing is read. -/
theorem read_end (hfile : (s.inodes inode).inner.ty = .file)
    (hend : offset ≥ (s.inodes inode).inner.metadata.sz.toNat ∨ len = 0) :
    read inode offset len (s, buf) = .ok 0 (s, buf) := by
  have hwp : wp (read inode offset len) (fun r t => r = 0 ∧ t = (s, buf)) (fun _ _ => False)
      (fun _ => False) (s, buf) := by
    rw [read, wp_bind, wp_onFs, wp_gets, if_neg (not_not.mpr hfile), if_pos hend, wp_pure]
    exact ⟨rfl, rfl⟩
  obtain ⟨r, t, hrun, rfl, rfl⟩ := exists_ok_of_wp hwp
  exact hrun

/-- Before the end of the file the loop runs over the bytes up to the end that fit. -/
theorem wp_read (buf : Mem) (hs : s.NoFaults) (hfile : (s.inodes inode).inner.ty = .file)
    (hoff : offset < (s.inodes inode).inner.metadata.sz.toNat) (hlen : len ≠ 0) :
    let inner := (s.inodes inode).inner
    let m := readable s.disk inner offset (min len (inner.metadata.sz.toNat - offset))
    wp (read inode offset len)
      (fun r t => r = m ∧ 0 < m ∧ (∃ k, t.1 = { s with ops := k }) ∧
        t.2 = buf.blit 0 m fun i => fileByte s.disk inner (offset + i))
      (fun e t => e = .fs ∧ m = 0 ∧ (∃ k, t.1 = { s with ops := k }) ∧ t.2 = buf)
      (fun _ => False) (s, buf) := by
  intro inner m
  have hoff' : offset < inner.metadata.sz.toNat := hoff
  have hsize : inner.metadata.sz.toNat < 2 ^ 32 := inner.metadata.sz.toNat_lt
  rw [read, wp_bind, wp_onFs, wp_gets, if_neg (not_not.mpr hfile),
    if_neg (not_or.mpr ⟨Nat.not_le.mpr hoff, hlen⟩)]
  simp only [wp_bind, wp_onFs, wp_subUsize]
  refine ⟨fun _ => ?_, fun hlt => absurd hlt hoff.not_gt⟩
  have hlt : offset + min len (inner.metadata.sz.toNat - offset) < 2 ^ 64 := by omega
  have hloop := wp_readLoop (N := fun _ => False) inner buf
    (min_le_left len (inner.metadata.sz.toNat - offset)) hlt
    (min len (inner.metadata.sz.toNat - offset)) 0 none s (Nat.zero_le _) (by omega) hs
    (fun _ _ h => by cases h) (fun _ h => absurd h (Nat.not_lt_zero _))
  rw [Nat.add_zero, Nat.sub_zero, Mem.blit_zero] at hloop
  refine wp_mono hloop ?_ ?_ (fun _ h => h)
  · rintro r t ⟨rfl, hpos, hk, hbuf⟩
    exact ⟨rfl, hpos (by omega), hk, hbuf⟩
  · rintro e t ⟨rfl, -, hzero, hk, hbuf⟩
    exact ⟨rfl, hzero, hk, hbuf⟩

end Main

/-- **Reads return the file.** Of the bytes from the offset to the end of the file that fit
the buffer, `read` returns those before the first block without a pointer, and fails if
there are none; nothing else of the buffer and nothing of the disk changes. -/
theorem read_returns_file (s : Mounted) (inode offset len : ℕ) (buf : Mem) (hs : s.NoFaults)
    (hfile : (s.inodes inode).inner.ty = .file) :
    let inner := (s.inodes inode).inner
    let size := inner.metadata.sz.toNat
    let m := readable s.disk inner offset (min len (size - offset))
    wp (read inode offset len)
      (fun r t => (∃ k, t.1 = { s with ops := k }) ∧
        if offset ≥ size ∨ len = 0 then r = 0 ∧ t.2 = buf
        else 0 < m ∧ r = m ∧ t.2 = buf.blit 0 m fun i => fileByte s.disk inner (offset + i))
      (fun e t => (∃ k, t.1 = { s with ops := k }) ∧ offset < size ∧ len ≠ 0 ∧ m = 0 ∧
        e = .fs ∧ t.2 = buf)
      (fun _ => False) (s, buf) := by
  intro inner size m
  by_cases hend : offset ≥ size ∨ len = 0
  · refine wp_run ⟨fun r t hrun => ?_, fun e t hrun => ?_, fun p hrun => ?_⟩ <;>
      rw [read_end hfile hend] at hrun
    · obtain ⟨rfl, rfl⟩ := Outcome.ok.inj hrun
      rw [if_pos hend]
      exact ⟨⟨s.ops, rfl⟩, rfl, rfl⟩
    · cases hrun
    · cases hrun
  · have hpos := not_or.mp hend
    refine wp_mono (wp_read buf hs hfile (Nat.not_le.mp hpos.1) hpos.2) ?_ ?_ (fun _ h => h)
    · rintro r t ⟨rfl, hm, hk, hbuf⟩
      rw [if_neg hend]
      exact ⟨hk, hm, rfl, hbuf⟩
    · rintro e t ⟨rfl, hzero, hk, hbuf⟩
      exact ⟨hk, Nat.not_le.mp hpos.1, hpos.2, hzero, rfl, hbuf⟩

/-- A disk that holds the byte 7 everywhere, with a file of five bytes in block 9. -/
def fiveBytes : Mounted where
  disk := fun _ => 7
  fault := fun _ => .none
  ops := 0
  superblock := ⟨magic, 16, 8, 1, 2, 3, 1, 4⟩
  cache := fun _ => none
  inodes := fun _ => ⟨2, .file, 1, ⟨0, 5⟩, fun i => if i = 0 then 9 else 0, 0⟩
  next := 1

/-- Reading three bytes at offset three gives the last two. -/
theorem read_returns_file_five : readable fiveBytes.disk (fiveBytes.inodes 0).inner 3 2 = 2 ∧
    wp (read 0 3 3)
      (fun r t => r = 2 ∧ t.2 = Mem.blit (fun _ => 0) 0 2 fun i =>
        fileByte fiveBytes.disk (fiveBytes.inodes 0).inner (3 + i))
      (fun _ _ => False) (fun _ => False) (fiveBytes, fun _ => 0) := by
  have hm : readable fiveBytes.disk (fiveBytes.inodes 0).inner 3 2 = 2 := by decide
  have hread := read_returns_file fiveBytes 0 3 3 (fun _ => 0) (fun _ => rfl) rfl
  refine ⟨hm, wp_mono hread ?_ ?_ fun _ h => h⟩
  · rintro r t ⟨-, h⟩
    rw [if_neg (by decide)] at h
    obtain ⟨-, rfl, hbuf⟩ := h
    exact ⟨hm, by rw [hbuf]; rfl⟩
  · rintro e t ⟨-, -, -, hzero, -⟩
    exact absurd hzero (by decide)

end Efiks.Vsfs

import Efiks.Vsfs.Bitmap
import Efiks.Vsfs.Read

/-!
# Bits of a bitmap

Bit `k` of a bitmap block is bit `k % 8` of its byte `k / 8`. `allocate_bitmap_bit` sets the
smallest clear bit of its range and nothing else on the disk, and `free_bitmap_bit` clears a
bit that is set, whatever the block holds.

## Main definitions

* `bitAt`, `putBit` — a bitmap block as a map from numbers to bits.
* `BitmapRun` — any calls on one bitmap, with the bits that were handed out.
* `BitmapOk` — what the two functions do.
-/
namespace Efiks.Vsfs
open Lib Lib.RustM Vfs

section Bytes

theorem toBitVec_bitMask (k : ℕ) : (bitMask k).toBitVec = 1#8 <<< (k % 8) := by
  have hk : k % 8 < 8 := Nat.mod_lt _ (by decide)
  rw [bitMask]
  generalize k % 8 = i at hk
  interval_cases i <;> rfl

/-- The test of both functions reads one bit. -/
theorem and_bitMask_eq_zero (x : UInt8) (k : ℕ) :
    x &&& bitMask k = 0 ↔ x.toBitVec.getLsbD (k % 8) = false := by
  have hk : k % 8 < 8 := Nat.mod_lt _ (by decide)
  rw [← UInt8.toBitVec_inj, UInt8.toBitVec_and, toBitVec_bitMask]
  constructor
  · intro h
    have := congrArg (fun v : BitVec 8 => v.getLsbD (k % 8)) h
    simpa [hk] using this
  · intro h
    apply BitVec.eq_of_getLsbD_eq
    intro j hj
    by_cases hjk : j = k % 8
    · simp [hjk, h]
    · have hne : j < k % 8 ∨ j - k % 8 ≠ 0 := by omega
      rcases hne with hne | hne <;> simp [BitVec.getLsbD_one, hne]

theorem getLsbD_or_bitMask (x : UInt8) (k : ℕ) {j : ℕ} (hj : j < 8) :
    (x ||| bitMask k).toBitVec.getLsbD j = (x.toBitVec.getLsbD j || j == k % 8) := by
  rw [UInt8.toBitVec_or, toBitVec_bitMask, BitVec.getLsbD_or, BitVec.getLsbD_shiftLeft]
  by_cases hjk : j = k % 8
  · simp [hjk]
    omega
  · have hne : j < k % 8 ∨ j - k % 8 ≠ 0 := by omega
    rcases hne with hne | hne <;> simp [BitVec.getLsbD_one, hne, hjk]

theorem getLsbD_and_not_bitMask (x : UInt8) (k : ℕ) {j : ℕ} (hj : j < 8) :
    (x &&& ~~~bitMask k).toBitVec.getLsbD j = (x.toBitVec.getLsbD j && j != k % 8) := by
  rw [UInt8.toBitVec_and, UInt8.toBitVec_not, toBitVec_bitMask, BitVec.getLsbD_and,
    BitVec.getLsbD_not, BitVec.getLsbD_shiftLeft]
  by_cases hjk : j = k % 8
  · simp [hjk]
  · have hne : j < k % 8 ∨ j - k % 8 ≠ 0 := by omega
    rcases hne with hne | hne <;> simp [BitVec.getLsbD_one, hne, hjk, hj]

/-- Setting a clear bit and clearing it again. -/
theorem or_and_not_bitMask {x : UInt8} {k : ℕ} (h : x.toBitVec.getLsbD (k % 8) = false) :
    (x ||| bitMask k) &&& ~~~bitMask k = x := by
  rw [← UInt8.toBitVec_inj]
  apply BitVec.eq_of_getLsbD_eq
  intro j hj
  rw [getLsbD_and_not_bitMask _ _ hj, getLsbD_or_bitMask _ _ hj]
  by_cases hjk : j = k % 8
  · rw [hjk, h, bne_self_eq_false, Bool.and_false]
  · rw [beq_eq_false_iff_ne.mpr hjk, bne_iff_ne.mpr hjk, Bool.or_false, Bool.and_true]

end Bytes

section Bits

/-- The byte of the disk that holds bit `k` of the bitmap block. -/
def bitByte (block : UInt32) (k : ℕ) : ℕ := blockSize * block.toNat + k / 8

/-- Bit `k` of the bitmap block. -/
def bitAt (disk : Mem) (block : UInt32) (k : ℕ) : Bool :=
  (disk (bitByte block k)).toBitVec.getLsbD (k % 8)

/-- The disk with bit `k` of the bitmap block set to `b`. -/
def putBit (disk : Mem) (block : UInt32) (k : ℕ) (b : Bool) : Mem :=
  Function.update disk (bitByte block k)
    (if b then disk (bitByte block k) ||| bitMask k else disk (bitByte block k) &&& ~~~bitMask k)

/-- Exactly one bit of the block changes. -/
theorem bitAt_putBit (disk : Mem) (block : UInt32) (k j : ℕ) (b : Bool) :
    bitAt (putBit disk block k b) block j = if j = k then b else bitAt disk block j := by
  have hj : j % 8 < 8 := Nat.mod_lt _ (by decide)
  by_cases hbyte : j / 8 = k / 8
  · have hmod : (j % 8 = k % 8) = (j = k) := by
      apply propext
      omega
    rw [bitAt, putBit, show bitByte block j = bitByte block k by simp [bitByte, hbyte],
      Function.update_self]
    cases b with
    | true =>
      rw [if_pos rfl, getLsbD_or_bitMask _ _ hj]
      by_cases hjk : j = k
      · simp [hjk]
      · simp [hmod, hjk, bitAt, bitByte, hbyte]
    | false =>
      rw [if_neg (by decide), getLsbD_and_not_bitMask _ _ hj]
      by_cases hjk : j = k
      · simp [hjk]
      · simp [hmod, hjk, bitAt, bitByte, hbyte]
  · have hne : j ≠ k := fun h => hbyte (by rw [h])
    have haddr : bitByte block j ≠ bitByte block k := by
      unfold bitByte
      omega
    rw [if_neg hne, bitAt, putBit, Function.update_of_ne haddr, bitAt]

theorem putBit_putBit {disk : Mem} {block : UInt32} {k : ℕ} (h : bitAt disk block k = false) :
    putBit (putBit disk block k true) block k false = disk := by
  rw [putBit, if_neg (by decide), putBit, Function.update_self, if_pos rfl,
    or_and_not_bitMask h]
  simp

/-- Writing a changed byte of a sector of the bitmap back. -/
theorem putSector_update (disk : Mem) (block : UInt32) {sectorOffset localBit : ℕ}
    (hbit : localBit < bitsPerSector) (x : UInt8) :
    putSector disk (block.toNat * sectorsPerBlock + sectorOffset)
      (Function.update (sectorAt disk (block.toNat * sectorsPerBlock + sectorOffset))
        (localBit / 8) x) =
      Function.update disk (bitByte block (sectorOffset * bitsPerSector + localBit)) x := by
  have hbyte : bitByte block (sectorOffset * bitsPerSector + localBit) =
      sectorSize * (block.toNat * sectorsPerBlock + sectorOffset) + localBit / 8 := by
    unfold bitByte bitsPerSector blockSize sectorSize sectorsPerBlock
    omega
  have hin : localBit / 8 < sectorSize := by
    unfold bitsPerSector at hbit
    unfold sectorSize
    omega
  rw [hbyte]
  funext y
  rw [putSector]
  by_cases hy : sectorSize * (block.toNat * sectorsPerBlock + sectorOffset) ≤ y ∧
      y < sectorSize * (block.toNat * sectorsPerBlock + sectorOffset) + sectorSize
  · rw [Mem.blit_of_mem hy.1 hy.2]
    by_cases hyb : y = sectorSize * (block.toNat * sectorsPerBlock + sectorOffset) + localBit / 8
    · rw [hyb, Function.update_self, Nat.add_sub_cancel_left, Function.update_self]
    · rw [Function.update_of_ne hyb, Function.update_of_ne (by omega), sectorAt, if_pos (by omega)]
      congr 1
      omega
  · rw [Mem.blit_of_notMem (by omega), Function.update_of_ne (by omega)]

/-- A byte of a sector of the bitmap is the byte of its bits. -/
theorem sectorAt_bitByte (disk : Mem) (block : UInt32) {sectorOffset localBit : ℕ}
    (hbit : localBit < bitsPerSector) :
    sectorAt disk (block.toNat * sectorsPerBlock + sectorOffset) (localBit / 8) =
      disk (bitByte block (sectorOffset * bitsPerSector + localBit)) := by
  unfold bitsPerSector at *
  rw [sectorAt, if_pos (by unfold sectorSize; omega), bitByte]
  unfold blockSize sectorSize sectorsPerBlock
  congr 1
  omega

theorem bitMask_add (sectorOffset localBit : ℕ) :
    bitMask (sectorOffset * bitsPerSector + localBit) = bitMask localBit := by
  unfold bitMask bitsPerSector
  rw [show (sectorOffset * 4096 + localBit) % 8 = localBit % 8 by omega]

/-- The test in a sector reads a bit of the block. -/
theorem sector_and_bitMask (disk : Mem) (block : UInt32) (sectorOffset : ℕ) {localBit : ℕ}
    (hbit : localBit < bitsPerSector) :
    sectorAt disk (block.toNat * sectorsPerBlock + sectorOffset) (localBit / 8) &&&
        bitMask localBit = 0 ↔
      bitAt disk block (sectorOffset * bitsPerSector + localBit) = false := by
  rw [sectorAt_bitByte disk block hbit, ← bitMask_add sectorOffset localBit, and_bitMask_eq_zero]
  rfl

end Bits

section Calls
variable {s : Mounted} {E : VfsError → Mounted → Prop} {N : Panic → Prop}

/-- The first clear bit of a sector, or none. -/
theorem wp_scanSector (disk : Mem) (block : UInt32) (sectorOffset : ℕ)
    {Q : Option ℕ → Mounted → Prop} (n : ℕ) : ∀ localBit, localBit + n ≤ bitsPerSector →
    (∀ b, localBit ≤ b → b < localBit + n →
      bitAt disk block (sectorOffset * bitsPerSector + b) = false →
      (∀ j, localBit ≤ j → j < b → bitAt disk block (sectorOffset * bitsPerSector + j) = true) →
      Q (some b) s) →
    ((∀ j, localBit ≤ j → j < localBit + n →
      bitAt disk block (sectorOffset * bitsPerSector + j) = true) → Q none s) →
    wp (scanSector (sectorAt disk (block.toNat * sectorsPerBlock + sectorOffset)) localBit n)
      Q E N s := by
  induction n with
  | zero =>
    intro localBit _ _ hnone
    rw [scanSector, wp_pure]
    exact hnone fun j hj hj' => by omega
  | succ n ih =>
    intro localBit hle hsome hnone
    have hbit : localBit < bitsPerSector := by omega
    have hin : localBit / 8 + 1 ≤ sectorSize := by
      unfold bitsPerSector at hbit
      unfold sectorSize
      omega
    rw [scanSector, wp_bind, wp_inBounds]
    refine ⟨fun _ => ?_, fun h => absurd hin h.not_ge⟩
    rw [wp_ite, sector_and_bitMask disk block sectorOffset hbit]
    refine ⟨fun hclear => ?_, fun hset => ?_⟩
    · rw [wp_pure]
      exact hsome localBit le_rfl (by omega) hclear fun j hj hj' => by omega
    · rw [Bool.not_eq_false] at hset
      refine ih (localBit + 1) (by omega) (fun b hb hb' hclear hbelow => ?_) fun hall => ?_
      · refine hsome b (by omega) (by omega) hclear fun j hj hj' => ?_
        by_cases hjl : j = localBit
        · rwa [hjl]
        · exact hbelow j (by omega) hj'
      · refine hnone fun j hj hj' => ?_
        by_cases hjl : j = localBit
        · rwa [hjl]
        · exact hall j (by omega) (by omega)

/-- The bits of the sectors from `sectorOffset` on that the search looks at. -/
def Searched (startBit endBit sectorOffset n j : ℕ) : Prop :=
  startBit ≤ j ∧ sectorOffset * bitsPerSector ≤ j ∧ j < endBit ∧
    j < (sectorOffset + n) * bitsPerSector

theorem wp_scanBitmap (block : UInt32) (startBit endBit n : ℕ) : ∀ (s : Mounted) (sectorOffset : ℕ),
    s.NoFaults → startBit < (sectorOffset + 1) * bitsPerSector →
    sectorOffset + n ≤ sectorsPerBlock →
    (n ≠ 0 → (sectorOffset + n) * bitsPerSector < endBit + bitsPerSector) →
    wp (scanBitmap block startBit endBit sectorOffset n)
      (fun k s' => Searched startBit endBit sectorOffset n k ∧ bitAt s.disk block k = false ∧
        (∀ j, Searched startBit endBit sectorOffset n j → j < k → bitAt s.disk block j = true) ∧
        ∃ ops, s' = { s with ops := ops, disk := putBit s.disk block k true })
      (fun e s' => e = .fs ∧ (∃ ops, s' = { s with ops := ops }) ∧
        ∀ j, Searched startBit endBit sectorOffset n j → bitAt s.disk block j = true)
      (fun _ => False) s := by
  induction n with
  | zero =>
    intro s sectorOffset _ _ _ _
    rw [scanBitmap, wp_fail]
    refine ⟨rfl, ⟨s.ops, rfl⟩, ?_⟩
    intro j ⟨_, hj, _, hj'⟩
    rw [Nat.add_zero] at hj'
    omega
  | succ n ih =>
    intro s sectorOffset hs hstart hle hend
    have hbits : bitsPerSector = 4096 := rfl
    have hsectors : sectorsPerBlock = 8 := rfl
    have e₀ : sectorOffset * bitsPerSector = 4096 * sectorOffset := by rw [hbits]; omega
    have e₁ : (sectorOffset + 1) * bitsPerSector = 4096 * sectorOffset + 4096 := by
      rw [hbits]; omega
    have e₁' : (sectorOffset + 1 + 1) * bitsPerSector = 4096 * sectorOffset + 8192 := by
      rw [hbits]; omega
    have e₂ : (sectorOffset + (n + 1)) * bitsPerSector = 4096 * sectorOffset + 4096 * n + 4096 := by
      rw [hbits]; omega
    have hrest : sectorOffset + 1 + n = sectorOffset + (n + 1) := by omega
    have hend' := hend (Nat.succ_ne_zero n)
    have hlt : sectorOffset * bitsPerSector < endBit ∧ sectorOffset < 8 := by omega
    have hmul : sectorOffset * bitsPerSector < 2 ^ 63 := by omega
    have hsec : sectorOffset < 2 ^ 32 := by omega
    rw [scanBitmap, wp_bind, wp_blockSector block hsec, wp_bind, wp_readSector hs, wp_bind,
      wp_mulUsize]
    refine ⟨fun _ => ?_, fun h => by omega⟩
    dsimp only
    rw [wp_bind, wp_subUsize]
    refine ⟨fun _ => ?_, fun h => by omega⟩
    rw [wp_bind]
    refine wp_scanSector s.disk block sectorOffset _ _ (by omega) ?_ ?_
    · intro b hb hb' hclear hbelow
      have hb4 : b < bitsPerSector := by omega
      dsimp only
      rw [wp_bind, wp_blockSector block hsec, wp_bind, wp_writeSector (by exact hs),
        wp_addUsize]
      refine ⟨fun _ => ⟨⟨by omega, by omega, by omega, by omega⟩, hclear, ?_, ?_⟩, fun h => by omega⟩
      · intro j ⟨hj, hj', _, _⟩ hjk
        have := hbelow (j - sectorOffset * bitsPerSector) (by omega) (by omega)
        rwa [Nat.add_sub_cancel' hj'] at this
      · refine ⟨s.ops + 1 + 1, ?_⟩
        rw [putSector_update s.disk block hb4, sectorAt_bitByte s.disk block hb4,
          ← bitMask_add sectorOffset b]
        rfl
    · intro hall
      have hfirst : ∀ j, startBit ≤ j → sectorOffset * bitsPerSector ≤ j → j < endBit →
          j < (sectorOffset + 1) * bitsPerSector → bitAt s.disk block j = true := by
        intro j h₁ h₂ h₃ h₄
        have := hall (j - sectorOffset * bitsPerSector) (by omega) (by omega)
        rwa [Nat.add_sub_cancel' h₂] at this
      refine wp_mono (ih { s with ops := s.ops + 1 } (sectorOffset + 1) hs (by omega) (by omega)
        fun _ => hrest ▸ hend') ?_ ?_ (fun _ => id)
      · intro k s' ⟨⟨h₁, h₂, h₃, h₄⟩, hclear, hbelow, ops, hs'⟩
        refine ⟨⟨h₁, by omega, h₃, hrest ▸ h₄⟩, hclear, ?_, ops, hs'⟩
        intro j ⟨hj₁, hj₂, hj₃, hj₄⟩ hjk
        by_cases hj : j < (sectorOffset + 1) * bitsPerSector
        · exact hfirst j hj₁ hj₂ hj₃ hj
        · exact hbelow j ⟨hj₁, by omega, hj₃, hrest ▸ hj₄⟩ hjk
      · intro e s' ⟨he, ⟨ops, hs'⟩, hset⟩
        refine ⟨he, ⟨ops, hs'⟩, ?_⟩
        intro j ⟨hj₁, hj₂, hj₃, hj₄⟩
        by_cases hj : j < (sectorOffset + 1) * bitsPerSector
        · exact hfirst j hj₁ hj₂ hj₃ hj
        · exact hset j ⟨hj₁, by omega, hj₃, hrest ▸ hj₄⟩

theorem wp_allocateBitmapBit (block : UInt32) (startBit endBit : ℕ) (hs : s.NoFaults) :
    wp (allocateBitmapBit block startBit endBit)
      (fun k s' => startBit ≤ k ∧ k < endBit ∧ endBit ≤ 8 * blockSize ∧
        bitAt s.disk block k = false ∧
        (∀ j, startBit ≤ j → j < k → bitAt s.disk block j = true) ∧
        ∃ ops, s' = { s with ops := ops, disk := putBit s.disk block k true })
      (fun e s' => e = .fs ∧ (∃ ops, s' = { s with ops := ops }) ∧
        (endBit ≤ 8 * blockSize →
          ∀ j, startBit ≤ j → j < endBit → bitAt s.disk block j = true))
      (fun _ => False) s := by
  have hbits : bitsPerSector = 4096 := rfl
  have hblock : blockSize = 4096 := rfl
  have hsectors : sectorsPerBlock = 8 := rfl
  have hceil : endBit ≤ (endBit / bitsPerSector +
        if endBit % bitsPerSector > 0 then 1 else 0) * bitsPerSector ∧
      (endBit / bitsPerSector + if endBit % bitsPerSector > 0 then 1 else 0) * bitsPerSector <
        endBit + bitsPerSector := by
    rw [hbits]
    split <;> omega
  rw [allocateBitmapBit]
  generalize endBit / bitsPerSector + (if endBit % bitsPerSector > 0 then 1 else 0) = endSector
    at hceil ⊢
  obtain ⟨hceil, hceil'⟩ := hceil
  rw [hbits] at hceil hceil'
  rw [wp_ite]
  refine ⟨fun hin => ?_, fun hin => ?_⟩
  · rw [wp_fail]
    exact ⟨rfl, ⟨s.ops, rfl⟩, fun h => by omega⟩
  · by_cases hrange : startBit / bitsPerSector < endSector
    · have hsum : startBit / bitsPerSector + (endSector - startBit / bitsPerSector) = endSector := by
        omega
      have hstart : startBit / bitsPerSector * bitsPerSector ≤ startBit := Nat.div_mul_le_self _ _
      refine wp_mono (wp_scanBitmap block startBit endBit (endSector - startBit / bitsPerSector) s
        (startBit / bitsPerSector) hs (by rw [hbits]; omega) (by omega)
        (fun _ => by rw [hsum, hbits]; omega)) ?_ ?_ (fun _ => id)
      · intro k s' ⟨⟨h₁, _, h₃, _⟩, hclear, hbelow, hs'⟩
        refine ⟨h₁, h₃, by omega, hclear, fun j hj hjk => ?_, hs'⟩
        exact hbelow j ⟨hj, by omega, by omega, by rw [hsum, hbits]; omega⟩ hjk
      · intro e s' ⟨he, hs', hset⟩
        exact ⟨he, hs', fun _ j hj hj' =>
          hset j ⟨hj, by omega, hj', by rw [hsum, hbits]; omega⟩⟩
    · have hnone : endSector - startBit / bitsPerSector = 0 := by omega
      rw [hnone, scanBitmap, wp_fail]
      refine ⟨rfl, ⟨s.ops, rfl⟩, fun _ j hj hj' => ?_⟩
      rw [hbits] at hrange
      omega

/-- **A bit that is set is cleared**, and nothing happens for any other. -/
theorem wp_freeBitmapBit (block : UInt32) (bit : ℕ) (hs : s.NoFaults) :
    wp (freeBitmapBit block bit)
      (fun _ s' => bit < 8 * blockSize ∧ bitAt s.disk block bit = true ∧
        ∃ ops, s' = { s with ops := ops, disk := putBit s.disk block bit false })
      (fun e s' => e = .fs ∧ (∃ ops, s' = { s with ops := ops }) ∧
        (bit < 8 * blockSize → bitAt s.disk block bit = false))
      (fun _ => False) s := by
  have hbits : bitsPerSector = 4096 := rfl
  have hblock : blockSize = 4096 := rfl
  have hsectors : sectorsPerBlock = 8 := rfl
  have hbit : bit % bitsPerSector < bitsPerSector := Nat.mod_lt _ (by decide)
  have hsplit : bit / bitsPerSector * bitsPerSector + bit % bitsPerSector = bit :=
    Nat.div_add_mod' _ _
  rw [freeBitmapBit, wp_ite]
  refine ⟨fun hfar => ?_, fun hin => ?_⟩
  · rw [wp_fail]
    rw [hbits] at hfar
    exact ⟨rfl, ⟨s.ops, rfl⟩, fun h => by omega⟩
  · have hsec : bit / bitsPerSector < 2 ^ 32 := by omega
    have hlt : bit < 8 * blockSize := by
      rw [hbits] at hin
      omega
    have hbyte : bit % bitsPerSector / 8 + 1 ≤ sectorSize := by
      rw [hbits]
      unfold sectorSize
      omega
    have hmask : bitMask bit = bitMask (bit % bitsPerSector) := by
      rw [← bitMask_add (bit / bitsPerSector) (bit % bitsPerSector), hsplit]
    have htest := sector_and_bitMask s.disk block (bit / bitsPerSector) hbit
    rw [hsplit] at htest
    rw [wp_bind, wp_blockSector block hsec, wp_bind, wp_readSector hs, wp_bind, wp_inBounds]
    refine ⟨fun _ => ?_, fun h => absurd hbyte h.not_ge⟩
    rw [wp_ite, hmask, htest]
    refine ⟨fun hclear => ?_, fun hset => ?_⟩
    · rw [wp_fail]
      exact ⟨rfl, ⟨s.ops + 1, rfl⟩, fun _ => hclear⟩
    · rw [wp_writeSector (by exact hs), putSector_update s.disk block hbit,
        sectorAt_bitByte s.disk block hbit, hsplit, ← hmask]
      exact ⟨hlt, by simpa using hset, s.ops + 1 + 1, rfl⟩

end Calls

section Runs

/-- Any calls on one bitmap of a device without errors, with the bits that were handed out and
not freed since. -/
inductive BitmapRun (block : UInt32) : Mounted → Finset ℕ → Prop
  | start {s : Mounted} (hs : s.NoFaults) : BitmapRun block s ∅
  | alloc {s s' : Mounted} {out : Finset ℕ} {startBit endBit k : ℕ} (hr : BitmapRun block s out)
      (h : allocateBitmapBit block startBit endBit s = .ok k s') : BitmapRun block s' (insert k out)
  | refused {s s' : Mounted} {out : Finset ℕ} {startBit endBit : ℕ} {e : VfsError}
      (hr : BitmapRun block s out) (h : allocateBitmapBit block startBit endBit s = .err e s') :
      BitmapRun block s' out
  | free {s s' : Mounted} {out : Finset ℕ} {bit : ℕ} (hr : BitmapRun block s out)
      (h : freeBitmapBit block bit s = .ok () s') : BitmapRun block s' (out.erase bit)
  | unfreed {s s' : Mounted} {out : Finset ℕ} {bit : ℕ} {e : VfsError} (hr : BitmapRun block s out)
      (h : freeBitmapBit block bit s = .err e s') : BitmapRun block s' out

/-- What the two functions do to a bitmap whose bits `out` are handed out. -/
structure BitmapOk (block : UInt32) (s : Mounted) (out : Finset ℕ) : Prop where
  /-- The smallest clear bit of the range is set, and freeing it undoes this. -/
  alloc_least : ∀ startBit endBit k, endBit ≤ 8 * blockSize → startBit ≤ k → k < endBit →
    bitAt s.disk block k = false → (∀ j, startBit ≤ j → j < k → bitAt s.disk block j = true) →
    k ∉ out ∧ ∃ s', allocateBitmapBit block startBit endBit s = .ok k s' ∧
      (∀ j, bitAt s'.disk block j = if j = k then true else bitAt s.disk block j) ∧
      (∀ a, a ≠ bitByte block k → s'.disk a = s.disk a) ∧
      ∃ s'', freeBitmapBit block k s' = .ok () s'' ∧ s''.disk = s.disk
  /-- Without a clear bit, or for a range that leaves the block, nothing changes. -/
  alloc_none : ∀ startBit endBit, (8 * blockSize < endBit ∨
      ∀ j, startBit ≤ j → j < endBit → bitAt s.disk block j = true) →
    ∃ e ops, allocateBitmapBit block startBit endBit s = .err e { s with ops := ops }
  /-- A bit of the block that is set is cleared. -/
  free_set : ∀ bit, bit < 8 * blockSize → bitAt s.disk block bit = true →
    ∃ s', freeBitmapBit block bit s = .ok () s' ∧
      (∀ j, bitAt s'.disk block j = if j = bit then false else bitAt s.disk block j) ∧
      ∀ a, a ≠ bitByte block bit → s'.disk a = s.disk a
  /-- For any other nothing changes. -/
  free_none : ∀ bit, (8 * blockSize ≤ bit ∨ bitAt s.disk block bit = false) →
    ∃ e ops, freeBitmapBit block bit s = .err e { s with ops := ops }

variable {block : UInt32} {s s' : Mounted} {out : Finset ℕ}

/-- The bits that are handed out are set. -/
theorem BitmapRun.bits_set (hr : BitmapRun block s out) :
    s.NoFaults ∧ ∀ k ∈ out, bitAt s.disk block k = true := by
  induction hr with
  | start hs => exact ⟨hs, by simp⟩
  | alloc _ h ih =>
    obtain ⟨hs, hset⟩ := ih
    obtain ⟨-, -, -, -, -, ops, rfl⟩ := wp_of_ok (wp_allocateBitmapBit block _ _ hs) h
    refine ⟨hs, fun j hj => ?_⟩
    rw [bitAt_putBit]
    split
    · rfl
    · next hne => exact hset j ((Finset.mem_insert.mp hj).resolve_left hne)
  | refused _ h ih =>
    obtain ⟨hs, hset⟩ := ih
    obtain ⟨-, ⟨ops, rfl⟩, -⟩ := wp_of_err (wp_allocateBitmapBit block _ _ hs) h
    exact ⟨hs, hset⟩
  | free _ h ih =>
    obtain ⟨hs, hset⟩ := ih
    obtain ⟨-, -, ops, rfl⟩ := wp_of_ok (wp_freeBitmapBit block _ hs) h
    refine ⟨hs, fun j hj => ?_⟩
    rw [bitAt_putBit, if_neg (Finset.ne_of_mem_erase hj)]
    exact hset j (Finset.mem_of_mem_erase hj)
  | unfreed _ h ih =>
    obtain ⟨hs, hset⟩ := ih
    obtain ⟨-, ⟨ops, rfl⟩, -⟩ := wp_of_err (wp_freeBitmapBit block _ hs) h
    exact ⟨hs, hset⟩

theorem putBit_of_ne {disk : Mem} {k a : ℕ} (b : Bool) (ha : a ≠ bitByte block k) :
    putBit disk block k b a = disk a := Function.update_of_ne ha ..

/-- Freeing a bit that is set. -/
theorem freeBitmapBit_run (block : UInt32) {s : Mounted} (bit : ℕ) (hs : s.NoFaults) (hbit : bit < 8 * blockSize)
    (hset : bitAt s.disk block bit = true) : ∃ ops, freeBitmapBit block bit s =
      .ok () { s with ops := ops, disk := putBit s.disk block bit false } := by
  have hwp := wp_freeBitmapBit block bit hs
  cases hrun : freeBitmapBit block bit s with
  | ok u s' =>
    obtain ⟨-, -, ops, rfl⟩ := wp_of_ok hwp hrun
    exact ⟨ops, rfl⟩
  | err e s' =>
    have := (wp_of_err hwp hrun).2.2 hbit
    rw [hset] at this
    cases this
  | panic p => exact (wp_of_panic hwp hrun).elim

/-- **Allocation of bits on the disk**, after any calls on any bitmap. -/
theorem bitmap_allocation (hr : BitmapRun block s out) : BitmapOk block s out := by
  obtain ⟨hs, hset⟩ := hr.bits_set
  constructor
  case alloc_least =>
    intro startBit endBit k hend hk hk' hclear hbelow
    have hwp := wp_allocateBitmapBit block startBit endBit hs
    refine ⟨fun hmem => ?_, ?_⟩
    · rw [hset k hmem] at hclear
      cases hclear
    cases hrun : allocateBitmapBit block startBit endBit s with
    | ok k' s' =>
      obtain ⟨h₁, h₂, -, hclear', hbelow', ops, rfl⟩ := wp_of_ok hwp hrun
      -- both are the smallest clear bit of the range
      obtain rfl : k' = k := by
        rcases lt_trichotomy k' k with hlt | heq | hlt
        · rw [hbelow k' h₁ hlt] at hclear'
          cases hclear'
        · exact heq
        · rw [hbelow' k hk hlt] at hclear
          cases hclear
      refine ⟨_, rfl, fun j => bitAt_putBit .., fun a ha => putBit_of_ne true ha, ?_⟩
      obtain ⟨ops', hfree⟩ := freeBitmapBit_run block k'
        (s := { s with ops := ops, disk := putBit s.disk block k' true }) hs (by omega)
        (by rw [bitAt_putBit, if_pos rfl])
      exact ⟨_, hfree, putBit_putBit hclear⟩
    | err e s' =>
      rw [(wp_of_err hwp hrun).2.2 hend k hk hk'] at hclear
      cases hclear
    | panic p => exact (wp_of_panic hwp hrun).elim
  case alloc_none =>
    intro startBit endBit hnone
    have hwp := wp_allocateBitmapBit block startBit endBit hs
    cases hrun : allocateBitmapBit block startBit endBit s with
    | ok k s' =>
      obtain ⟨h₁, h₂, h₃, hclear, -⟩ := wp_of_ok hwp hrun
      rcases hnone with hfar | hall
      · omega
      · rw [hall k h₁ h₂] at hclear
        cases hclear
    | err e s' =>
      obtain ⟨-, ⟨ops, rfl⟩, -⟩ := wp_of_err hwp hrun
      exact ⟨e, ops, rfl⟩
    | panic p => exact (wp_of_panic hwp hrun).elim
  case free_set =>
    intro bit hbit hone
    obtain ⟨ops, hrun⟩ := freeBitmapBit_run block bit hs hbit hone
    exact ⟨_, hrun, fun j => bitAt_putBit .., fun a ha => putBit_of_ne false ha⟩
  case free_none =>
    intro bit hnone
    have hwp := wp_freeBitmapBit block bit hs
    cases hrun : freeBitmapBit block bit s with
    | ok u s' =>
      obtain ⟨hlt, hone, -⟩ := wp_of_ok hwp hrun
      rcases hnone with hfar | hclear
      · omega
      · rw [hone] at hclear
        cases hclear
    | err e s' =>
      obtain ⟨-, ⟨ops, rfl⟩, -⟩ := wp_of_err hwp hrun
      exact ⟨e, ops, rfl⟩
    | panic p => exact (wp_of_panic hwp hrun).elim

/-- A file system on a disk of zeros. -/
def zeroMounted : Mounted where
  disk := fun _ => 0
  fault := fun _ => .none
  ops := 0
  superblock := .decode (fun _ => 0) 0
  cache := fun _ => none
  inodes := fun _ => ⟨0, .decode (fun _ => 0) 0⟩
  next := 0

/-- The first bit of an empty bitmap is handed out. -/
theorem bitmap_allocation_first : ∃ s, BitmapRun 1 s {1} ∧ BitmapOk 1 s {1} := by
  have hr : BitmapRun 1 zeroMounted ∅ := .start fun _ => rfl
  obtain ⟨-, s', hrun, -⟩ := (bitmap_allocation hr).alloc_least 1 80 1 (by decide) (by decide)
    (by decide) (by decide) (fun j hj hj' => by omega)
  have hr' : BitmapRun 1 s' {1} := hr.alloc hrun
  exact ⟨s', hr', bitmap_allocation hr'⟩

end Runs

end Efiks.Vsfs

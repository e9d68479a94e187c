import Mathlib

/-!
# Sv39 page table entries and virtual addresses

An entry is a 64-bit word with eight flag bits and a 44-bit frame number at bit
10. The functions are the bit operations of the source; the lemmas read them as
single bits and as the frame number `ppn`.

## Main definitions

* `PteFlags` — the flag bits, and `PteFlags.contains`.
* `PageTableEntry.isValid`, `isLeaf`, `isUser`, `isWritable`, `physicalAddress`,
  `setFlags`, `unsetFlags`, `setPhysicalAddress`.
* `vpn2`, `vpn1`, `vpn0`, `isCanonical` — virtual addresses.
-/
namespace Efiks.Mm

/-- `PteFlags`: a set of the eight flag bits. -/
abbrev PteFlags := BitVec 8

namespace PteFlags
def V : PteFlags := 1#8 <<< 0
def R : PteFlags := 1#8 <<< 1
def W : PteFlags := 1#8 <<< 2
def X : PteFlags := 1#8 <<< 3
def U : PteFlags := 1#8 <<< 4
def G : PteFlags := 1#8 <<< 5
def A : PteFlags := 1#8 <<< 6
def D : PteFlags := 1#8 <<< 7
def RW : PteFlags := (1#8 <<< 2) ||| (1#8 <<< 1)
def RX : PteFlags := (1#8 <<< 3) ||| (1#8 <<< 1)
def RWX : PteFlags := (1#8 <<< 1) ||| (1#8 <<< 2) ||| (1#8 <<< 3)

/-- The flags as a word. -/
def bits (flags : PteFlags) : BitVec 64 := flags.setWidth 64

/-- Every flag of `other` is in `flags`. -/
def contains (flags other : PteFlags) : Bool := flags &&& other == other

end PteFlags

/-- `PageTableEntry(usize)`. -/
abbrev PageTableEntry := BitVec 64

namespace PageTableEntry
open PteFlags

/-- `((1usize << 44) - 1) << 10`. -/
def maskPpn : BitVec 64 := ((1#64 <<< 44) - 1#64) <<< 10

def empty : PageTableEntry := 0#64

def isWritable (e : PageTableEntry) : Bool := e &&& W.bits != 0#64

def isUser (e : PageTableEntry) : Bool := e &&& U.bits != 0#64

/-- The physical address of the frame the entry points to. -/
def physicalAddress (e : PageTableEntry) : ℕ := ((e &&& maskPpn) <<< 2).toNat

def isValid (e : PageTableEntry) : Bool := e &&& V.bits == 1#64

def isLeaf (e : PageTableEntry) : Bool := e.isValid && (e &&& RWX.bits != 0#64)

def setFlags (e : PageTableEntry) (flags : PteFlags) : PageTableEntry :=
  e ||| flags.bits

def unsetFlags (e : PageTableEntry) (flags : PteFlags) : PageTableEntry :=
  e &&& ~~~flags.bits

/-- A non-leaf valid entry. -/
def newValid : PageTableEntry := setFlags empty V

/-- Replace the frame number by bits 55..12 of `addr`. -/
def setPhysicalAddress (e : PageTableEntry) (addr : ℕ) : PageTableEntry :=
  (~~~maskPpn &&& e) ||| ((BitVec.ofNat 64 (addr >>> 12) <<< 10) &&& maskPpn)

end PageTableEntry

/-- Bits 38..30 of a virtual address. -/
def vpn2 (va : ℕ) : Fin 512 := ⟨(va >>> 30) % 512, Nat.mod_lt _ (by norm_num)⟩
/-- Bits 29..21 of a virtual address. -/
def vpn1 (va : ℕ) : Fin 512 := ⟨(va >>> 21) % 512, Nat.mod_lt _ (by norm_num)⟩
/-- Bits 20..12 of a virtual address. -/
def vpn0 (va : ℕ) : Fin 512 := ⟨(va >>> 12) % 512, Nat.mod_lt _ (by norm_num)⟩

/-- Bits 63..39 repeat bit 38. -/
def isCanonical (va : ℕ) : Bool :=
  let sign := (va >>> 38) % 2
  let upper := va >>> 39
  (sign == 0 && upper == 0) || (sign == 1 && upper == 2 ^ 25 - 1)

namespace PageTableEntry
open PteFlags
variable {e : PageTableEntry} {flags : PteFlags}

/-- The frame number of an entry. -/
def ppn (e : PageTableEntry) : ℕ := (e.extractLsb' 10 44).toNat

theorem ppn_lt (e : PageTableEntry) : e.ppn < 2 ^ 44 := (e.extractLsb' 10 44).isLt

theorem getLsbD_maskPpn (i : ℕ) : maskPpn.getLsbD i = (decide (10 ≤ i) && decide (i < 54)) := by
  by_cases hi : i < 64
  · revert i
    decide
  · rw [BitVec.getLsbD_of_ge _ _ (by omega)]
    simp; omega

theorem physicalAddress_eq (e : PageTableEntry) : e.physicalAddress = 4096 * e.ppn := by
  have h : (e &&& maskPpn) <<< 2 = ((e.extractLsb' 10 44).setWidth 64) <<< 12 := by
    apply BitVec.eq_of_getLsbD_eq
    intro i hi
    simp only [BitVec.getLsbD_shiftLeft, BitVec.getLsbD_and, getLsbD_maskPpn,
      BitVec.getLsbD_setWidth, BitVec.getLsbD_extractLsb']
    by_cases h12 : i < 12
    · simp [h12]; omega
    · have hidx : 10 + (i - 12) = i - 2 := by omega
      have hlt : (i - 2 < 54) = (i - 12 < 44) := propext (by omega)
      simp only [hidx, hlt, hi, h12, show ¬ i < 2 by omega, show 10 ≤ i - 2 by omega,
        show i - 12 < 64 by omega, decide_true, decide_false, Bool.not_false, Bool.true_and]
      rw [Bool.and_comm]
  rw [physicalAddress, h, BitVec.toNat_shiftLeft, BitVec.toNat_setWidth, ← ppn,
    Nat.mod_eq_of_lt (lt_trans (ppn_lt e) (by norm_num)), Nat.shiftLeft_eq, Nat.mod_eq_of_lt]
  · ring
  · have := ppn_lt e
    omega

section Bits
variable (e flags)

private theorem and_shiftLeft_one (k : ℕ) (hk : k < 64) :
    (e &&& (1#64 <<< k) != 0#64) = e.getLsbD k := by
  have h : e &&& (1#64 <<< k) = if e.getLsbD k then 1#64 <<< k else 0#64 := by
    apply BitVec.eq_of_getLsbD_eq
    intro i hi
    by_cases hik : i = k
    · subst hik
      rw [BitVec.getLsbD_and]
      cases h : e.getLsbD i <;> simp [hi]
    · have : i < k ∨ i - k ≠ 0 := by omega
      cases h : e.getLsbD k <;> rcases this with h' | h' <;> simp [h']
  have hne : (1#64 <<< k) ≠ 0#64 := by
    intro h0
    have := congrArg (fun v : BitVec 64 => v.getLsbD k) h0
    simp [hk] at this
  rw [h]
  cases e.getLsbD k <;> simp [hne]

theorem isWritable_eq : e.isWritable = e.getLsbD 2 := and_shiftLeft_one e 2 (by norm_num)

theorem isUser_eq : e.isUser = e.getLsbD 4 := and_shiftLeft_one e 4 (by norm_num)

theorem isValid_eq : e.isValid = e.getLsbD 0 := by
  rw [← and_shiftLeft_one e 0 (by norm_num)]
  have h : e &&& V.bits = 0#64 ∨ e &&& V.bits = 1#64 := by
    have : V.bits = 1#64 := rfl
    rw [this, BitVec.and_one_eq_setWidth_ofBool_getLsbD]
    cases e.getLsbD 0 <;> simp
  have hV : (1#64 <<< 0 : BitVec 64) = V.bits := rfl
  rw [isValid, hV]
  rcases h with h | h <;> simp [h]

theorem getLsbD_bits (i : ℕ) : flags.bits.getLsbD i = flags.getLsbD i := by
  rw [bits, BitVec.getLsbD_setWidth]
  by_cases hi : i < 64
  · simp [hi]
  · rw [BitVec.getLsbD_of_ge flags i (by omega)]
    simp

theorem isLeaf_eq :
    e.isLeaf = (e.getLsbD 0 && (e.getLsbD 1 || e.getLsbD 2 || e.getLsbD 3)) := by
  have hbit : ∀ i, (e &&& RWX.bits).getLsbD i = (e.getLsbD i && RWX.getLsbD i) := fun i => by
    rw [BitVec.getLsbD_and, getLsbD_bits]
  have hRWX : ∀ i, RWX.getLsbD i = true ↔ i = 1 ∨ i = 2 ∨ i = 3 := by
    intro i
    by_cases h8 : i < 8
    · revert i
      decide
    · rw [BitVec.getLsbD_of_ge _ _ (by omega), Bool.false_eq_true, false_iff]
      omega
  have h : (e &&& RWX.bits != 0#64) = (e.getLsbD 1 || e.getLsbD 2 || e.getLsbD 3) := by
    rw [Bool.eq_iff_iff, bne_iff_ne, Bool.or_eq_true, Bool.or_eq_true]
    constructor
    · intro hne
      by_contra hno
      apply hne
      apply BitVec.eq_of_getLsbD_eq
      intro i _
      rw [hbit, BitVec.getLsbD_zero, Bool.and_eq_false_iff, or_iff_not_imp_right,
        Bool.not_eq_false, hRWX]
      rintro (rfl | rfl | rfl) <;> rw [← Bool.not_eq_true] <;> tauto
    · intro hor h0
      have hno : ∀ i, e.getLsbD i = true → i = 1 ∨ i = 2 ∨ i = 3 → False := by
        intro i hi hR
        have := hbit i
        rw [h0, hi, (hRWX i).mpr hR, BitVec.getLsbD_zero] at this
        cases this
      rcases hor with (h | h) | h
      · exact hno 1 h (by simp)
      · exact hno 2 h (by simp)
      · exact hno 3 h (by simp)
  rw [isLeaf, isValid_eq, h]

theorem getLsbD_setFlags (i : ℕ) :
    (e.setFlags flags).getLsbD i = (e.getLsbD i || flags.getLsbD i) := by
  rw [setFlags, BitVec.getLsbD_or, getLsbD_bits]

theorem getLsbD_unsetFlags {i : ℕ} (hi : i < 64) :
    (e.unsetFlags flags).getLsbD i = (e.getLsbD i && !flags.getLsbD i) := by
  rw [unsetFlags, BitVec.getLsbD_and, BitVec.getLsbD_not, getLsbD_bits]
  simp [hi]

/-- The flag bits survive a change of the frame number. -/
theorem getLsbD_setPhysicalAddress (addr : ℕ) {i : ℕ} (hi : i < 10) :
    (e.setPhysicalAddress addr).getLsbD i = e.getLsbD i := by
  rw [setPhysicalAddress, BitVec.getLsbD_or, BitVec.getLsbD_and, BitVec.getLsbD_not,
    BitVec.getLsbD_and, getLsbD_maskPpn]
  simp [show ¬ 10 ≤ i by omega, show i < 64 by omega]

end Bits

/-- Two entries that agree on bits 10..53 point to the same frame. -/
theorem ppn_congr {e' : PageTableEntry} (h : ∀ i, 10 ≤ i → i < 54 → e'.getLsbD i = e.getLsbD i) :
    e'.ppn = e.ppn := by
  unfold ppn
  congr 1
  apply BitVec.eq_of_getLsbD_eq
  intro i hi
  rw [BitVec.getLsbD_extractLsb', BitVec.getLsbD_extractLsb', h (10 + i) (by omega) (by omega)]

@[simp] theorem ppn_setFlags : (e.setFlags flags).ppn = e.ppn :=
  ppn_congr fun i h10 _ => by
    rw [getLsbD_setFlags, BitVec.getLsbD_of_ge flags i (by omega), Bool.or_false]

@[simp] theorem ppn_unsetFlags : (e.unsetFlags flags).ppn = e.ppn :=
  ppn_congr fun i h10 h54 => by
    rw [getLsbD_unsetFlags _ _ (by omega), BitVec.getLsbD_of_ge flags i (by omega)]
    simp

theorem ppn_setPhysicalAddress {n : ℕ} (hn : n < 2 ^ 44) :
    (e.setPhysicalAddress (4096 * n)).ppn = n := by
  have hshift : (4096 * n) >>> 12 = n := by rw [Nat.shiftRight_eq_div_pow]; omega
  have h : (e.setPhysicalAddress (4096 * n)).extractLsb' 10 44 = BitVec.ofNat 44 n := by
    apply BitVec.eq_of_getLsbD_eq
    intro i hi
    rw [BitVec.getLsbD_extractLsb', setPhysicalAddress, hshift, BitVec.getLsbD_or,
      BitVec.getLsbD_and, BitVec.getLsbD_not, BitVec.getLsbD_and, BitVec.getLsbD_shiftLeft,
      BitVec.getLsbD_ofNat, BitVec.getLsbD_ofNat, getLsbD_maskPpn]
    simp [hi, show 10 + i < 54 by omega, show 10 + i < 64 by omega, show i < 64 by omega]
  rw [ppn, h, BitVec.toNat_ofNat, Nat.mod_eq_of_lt hn]

end PageTableEntry
end Efiks.Mm

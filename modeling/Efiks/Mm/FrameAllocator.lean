import Efiks.Lib.RustM

/-!
# The frame allocator

`FrameAllocator N` hands out 4 KiB frames from a bitmap of `N` 64-bit words,
always the lowest frame whose bit is clear. The frames are numbered from the
start address; `isSet` reads the bit of a frame number.

## Main definitions

* `FrameAllocator.alloc`, `FrameAllocator.free` — the operations.
* `FrameAllocator.isSet` — the bitmap as a predicate on frame numbers.

## Main results

* `FrameAllocator.alloc_spec` — `alloc` sets the lowest clear bit.
* `FrameAllocator.free_spec` — `free` clears one bit.
-/
namespace Efiks.Mm
open Lib Lib.RustM

/-- `Errno`, as far as the modelled code returns it. -/
inductive Errno
  | eNoEnt
  | eIo
  | eNoExec
  | eBusy
  | eOverflow
  deriving DecidableEq, Repr

/-- The kernel's error type, as far as the modelled code uses it. -/
inductive Error
  | oom
  | overflow
  | unmapped
  | notFound
  | unaligned
  | errno (e : Errno)
  deriving DecidableEq, Repr

/-- `frame_allocator::FrameAllocator<N>`. -/
structure FrameAllocator (N : ℕ) where
  startAddr : ℕ
  pages : Fin N → BitVec 64

namespace FrameAllocator
variable {N : ℕ}

/-- Nothing is allocated. -/
def new (startAddr : ℕ) : FrameAllocator N := ⟨startAddr, fun _ => 0⟩

/-- The two nested loops of `alloc`: the first word and bit that are clear. -/
def findClear (fa : FrameAllocator N) : Option (Fin N × Fin 64) :=
  (List.finRange N).findSome? fun page =>
    (List.finRange 64).findSome? fun i =>
      if (fa.pages page >>> i.val) &&& 1#64 = 0#64 then some (page, i) else none

/-- `self.pages[page] = word`. -/
def setPage (page : Fin N) (word : BitVec 64) (fa : FrameAllocator N) : FrameAllocator N :=
  { fa with pages := Function.update fa.pages page word }

/-- Allocate a single page and return its start address. -/
def alloc : RustM (FrameAllocator N) Error ℕ := do
  let fa ← gets id
  match fa.findClear with
  | none => fail .oom
  | some (page, i) => do
      modify (setPage page (fa.pages page ||| 1#64 <<< i.val))
      addUsize fa.startAddr ((page.val * 64 + i.val) * 4096)

/-- Clear the bit of the page at `ptr`. -/
def free (ptr : ℕ) : RustM (FrameAllocator N) Error Unit := do
  let fa ← gets id
  let off ← subUsize ptr fa.startAddr
  let x := off / 4096
  if h : x / 64 < N then
    modify (setPage ⟨x / 64, h⟩ (fa.pages ⟨x / 64, h⟩ &&& ~~~(1#64 <<< (x % 64))))
  else panic (.explicit "index out of bounds")

/-- The bit of frame number `k`. -/
def isSet (fa : FrameAllocator N) (k : ℕ) : Bool :=
  if h : k / 64 < N then (fa.pages ⟨k / 64, h⟩).getLsbD (k % 64) else false

theorem lt_of_isSet {fa : FrameAllocator N} {k : ℕ} (h : fa.isSet k = true) : k < 64 * N := by
  unfold isSet at h
  split at h
  · omega
  · cases h

/-- A scan of `0..n` stops at the first index that gives a result. -/
private theorem findSome?_finRange {β : Type} {n : ℕ} {f : Fin n → Option β} {b : β}
    (h : (List.finRange n).findSome? f = some b) :
    ∃ a, f a = some b ∧ ∀ x < a, f x = none := by
  obtain ⟨l₁, a, l₂, hl, ha, hbefore⟩ := List.findSome?_eq_some_iff.mp h
  refine ⟨a, ha, fun x hx => hbefore x ?_⟩
  have hmem : x ∈ l₁ ++ a :: l₂ := hl ▸ List.mem_finRange x
  have hsorted : (l₁ ++ a :: l₂).Pairwise (· < ·) := hl ▸ List.pairwise_lt_finRange n
  rcases List.mem_append.mp hmem with hl₁ | htail
  · exact hl₁
  · rcases List.mem_cons.mp htail with rfl | hl₂
    · exact absurd hx (lt_irrefl _)
    · have := (List.pairwise_cons.mp (List.pairwise_append.mp hsorted).2.1).1 x hl₂
      exact absurd this (lt_asymm hx)

/-- The test of the inner loop reads one bit. -/
theorem shiftRight_and_one_eq_zero (w : BitVec 64) {i : ℕ} (hi : i < 64) :
    (w >>> i) &&& 1#64 = 0#64 ↔ w.getLsbD i = false := by
  constructor
  · intro h
    have := congrArg (fun v : BitVec 64 => v.getLsbD 0) h
    simpa [hi] using this
  · intro h
    apply BitVec.eq_of_getLsbD_eq
    intro j hj
    by_cases h0 : j = 0
    · simp [h0, h]
    · simp [BitVec.getLsbD_one, h0]

private theorem isSet_word (fa : FrameAllocator N) (page : Fin N) (i : Fin 64) :
    fa.isSet (page.val * 64 + i.val) = (fa.pages page).getLsbD i.val := by
  have hdiv : (page.val * 64 + i.val) / 64 = page.val := by omega
  have hmod : (page.val * 64 + i.val) % 64 = i.val := by omega
  simp only [isSet, hdiv, hmod, page.isLt, dite_true]

theorem isSet_setPage (fa : FrameAllocator N) (page : Fin N) (w : BitVec 64) (k : ℕ) :
    (fa.setPage page w).isSet k =
      if k / 64 = page.val then w.getLsbD (k % 64) else fa.isSet k := by
  unfold isSet setPage
  by_cases hk : k / 64 = page.val
  · have : (⟨k / 64, hk ▸ page.isLt⟩ : Fin N) = page := Fin.ext hk
    simp [hk]
  · by_cases hN : k / 64 < N
    · have : (⟨k / 64, hN⟩ : Fin N) ≠ page := fun h => hk (congrArg Fin.val h)
      simp [hk, hN, this]
    · simp [hk, hN]

theorem findClear_eq_none {fa : FrameAllocator N} (h : fa.findClear = none) {k : ℕ}
    (hk : k < 64 * N) : fa.isSet k = true := by
  have hpage : k / 64 < N := by omega
  have hrow := List.findSome?_eq_none_iff.mp h ⟨k / 64, hpage⟩ (List.mem_finRange _)
  have hbit := List.findSome?_eq_none_iff.mp hrow ⟨k % 64, by omega⟩ (List.mem_finRange _)
  simp only [shiftRight_and_one_eq_zero _ (show k % 64 < 64 by omega), ite_eq_right_iff,
    reduceCtorEq, imp_false, Bool.not_eq_false] at hbit
  simpa [isSet, hpage] using hbit

theorem findClear_eq_some {fa : FrameAllocator N} {page : Fin N} {i : Fin 64}
    (h : fa.findClear = some (page, i)) :
    fa.isSet (page.val * 64 + i.val) = false ∧
      ∀ k < page.val * 64 + i.val, fa.isSet k = true := by
  obtain ⟨a, hrow, hrows⟩ := findSome?_finRange h
  obtain ⟨b, hbit, hbits⟩ := findSome?_finRange hrow
  have hclear := Option.ite_none_right_eq_some.mp hbit
  obtain ⟨rfl, rfl⟩ : a = page ∧ b = i := by simpa using hclear.2
  refine ⟨?_, fun k hk => ?_⟩
  · rw [isSet_word]
    exact (shiftRight_and_one_eq_zero _ b.isLt).mp hclear.1
  · have hpage : k / 64 < N := by omega
    have hk' : k = (⟨k / 64, hpage⟩ : Fin N).val * 64 + (⟨k % 64, by omega⟩ : Fin 64).val := by
      simp only
      omega
    have hnone : (if (fa.pages ⟨k / 64, hpage⟩ >>> (k % 64)) &&& 1#64 = 0#64 then
        some ((⟨k / 64, hpage⟩ : Fin N), (⟨k % 64, by omega⟩ : Fin 64)) else none) = none := by
      by_cases hlt : k / 64 < a.val
      · exact List.findSome?_eq_none_iff.mp (hrows ⟨k / 64, hpage⟩ hlt) ⟨k % 64, by omega⟩
          (List.mem_finRange _)
      · have ha : (⟨k / 64, hpage⟩ : Fin N) = a := Fin.ext (by simp only; omega)
        have := hbits ⟨k % 64, by omega⟩ (by rw [Fin.lt_def]; simp only; omega)
        rwa [← ha] at this
    rw [hk', isSet_word]
    by_contra hb
    rw [Bool.not_eq_true, ← shiftRight_and_one_eq_zero _ (show k % 64 < 64 by omega)] at hb
    rw [if_pos hb] at hnone
    cases hnone

/-- Setting a bit of a word marks one frame. -/
theorem isSet_mark (fa : FrameAllocator N) (page : Fin N) (i : Fin 64) (j : ℕ) :
    (fa.setPage page (fa.pages page ||| 1#64 <<< i.val)).isSet j =
      (fa.isSet j || j == page.val * 64 + i.val) := by
  rw [isSet_setPage]
  by_cases hj : j / 64 = page.val
  · have hjw : j = page.val * 64 + j % 64 := by omega
    have hset : fa.isSet j = (fa.pages page).getLsbD (j % 64) := by
      conv_lhs => rw [hjw]
      exact isSet_word fa page ⟨j % 64, by omega⟩
    by_cases hji : j % 64 = i.val
    · have heq : (j == page.val * 64 + i.val) = true := beq_iff_eq.mpr (by omega)
      rw [heq, Bool.or_true, if_pos hj, hji]
      simp
    · have hne : j ≠ page.val * 64 + i.val := by omega
      have hsub : j % 64 < i.val ∨ j % 64 - i.val ≠ 0 := by omega
      simp only [hj, if_true, hset, BitVec.getLsbD_or, BitVec.getLsbD_shiftLeft,
        BitVec.getLsbD_one, beq_eq_false_iff_ne.mpr hne, Bool.or_false]
      rcases hsub with h | h <;> simp [h]
  · have hne : j ≠ page.val * 64 + i.val := by omega
    simp [hj, hne]

/-- Clearing a bit of a word unmarks one frame. -/
theorem isSet_unmark (fa : FrameAllocator N) {k : ℕ} (hpage : k / 64 < N) (j : ℕ) :
    (fa.setPage ⟨k / 64, hpage⟩ (fa.pages ⟨k / 64, hpage⟩ &&& ~~~(1#64 <<< (k % 64)))).isSet j =
      (fa.isSet j && j != k) := by
  rw [isSet_setPage]
  by_cases hj : j / 64 = k / 64
  · have hset : fa.isSet j = (fa.pages ⟨k / 64, hpage⟩).getLsbD (j % 64) := by
      simp only [isSet, hj, hpage, dite_true]
    have hjlt : j % 64 < 64 := by omega
    by_cases hji : j = k
    · simp [hji, Nat.mod_lt]
    · have hsub : j % 64 < k % 64 ∨ j % 64 - k % 64 ≠ 0 := by omega
      simp only [hj, if_true, hset, BitVec.getLsbD_and, BitVec.getLsbD_not,
        BitVec.getLsbD_shiftLeft, BitVec.getLsbD_one, bne_iff_ne.mpr hji, Bool.and_true]
      rcases hsub with h | h <;> simp [h, hjlt]
  · have hne : j ≠ k := fun h => hj (by rw [h])
    simp [hj, hne]

/-- The addresses the allocator can hand out fit a word. -/
def InRange (fa : FrameAllocator N) : Prop := fa.startAddr + 64 * N * 4096 ≤ 2 ^ 64

/-- **Allocation is first fit.** -/
theorem alloc_spec {fa : FrameAllocator N} (hr : fa.InRange) :
    wp alloc
      (fun pa fa' => ∃ k < 64 * N, fa.isSet k = false ∧ (∀ j < k, fa.isSet j = true) ∧
        pa = fa.startAddr + k * 4096 ∧ fa'.startAddr = fa.startAddr ∧
        ∀ j, fa'.isSet j = (fa.isSet j || j == k))
      (fun e fa' => e = .oom ∧ fa' = fa ∧ ∀ k < 64 * N, fa.isSet k = true)
      (fun _ => False) fa := by
  simp only [alloc, wp_bind, wp_gets, id]
  cases hf : fa.findClear with
  | none =>
      rw [wp_fail]
      exact ⟨rfl, rfl, fun k hk => findClear_eq_none hf hk⟩
  | some p =>
      obtain ⟨page, i⟩ := p
      obtain ⟨hclear, hbelow⟩ := findClear_eq_some hf
      have hlt : page.val * 64 + i.val < 64 * N := by omega
      have hfit : fa.startAddr + (page.val * 64 + i.val) * 4096 < 2 ^ 64 := by
        have := hr
        unfold InRange at this
        omega
      simp only [wp_bind, wp_modify, wp_addUsize]
      exact ⟨fun _ => ⟨_, hlt, hclear, hbelow, rfl, rfl, isSet_mark fa page i⟩, fun h => by omega⟩

/-- **Freeing clears one bit**, for an address the allocator can hand out. -/
theorem free_spec {fa : FrameAllocator N} {k : ℕ} (hk : k < 64 * N) :
    wp (free (fa.startAddr + k * 4096))
      (fun _ fa' => fa'.startAddr = fa.startAddr ∧
        ∀ j, fa'.isSet j = (fa.isSet j && j != k))
      (fun _ _ => False) (fun _ => False) fa := by
  have hx : (fa.startAddr + k * 4096 - fa.startAddr) / 4096 = k := by omega
  have hpage : k / 64 < N := by omega
  simp only [free, wp_bind, wp_gets, id, wp_subUsize, hx, hpage, dite_true, wp_modify]
  exact ⟨fun _ => ⟨rfl, isSet_unmark fa hpage⟩, fun h => by omega⟩

end FrameAllocator
end Efiks.Mm

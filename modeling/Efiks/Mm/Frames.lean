import Efiks.Mm.PageTable

/-!
# Frames in use

`MemState.used` reads the bitmap by physical frame number. `Allocated` and `Freed`
say what one allocation or one free does to the memory state, and `Counted` what
the metadata operations do; every later proof works from these.

## Main definitions

* `MemState.used`, `MemState.Placed`.
* `MemState.freeFrames` — the free frames, in the order of the allocator; `Taken`.
* `OutOfMemory` — the panics of `alloc_frame().unwrap()` and `.expect("NoMem")`.

## Main results

* `wp_allocFrameUnwrap`, `wp_allocFrameExpect`, `wp_freeFrame`.
-/
namespace Efiks.Mm
open Lib Lib.RustM

variable {s s' : MemState} {n m : ℕ}

/-- The frame number of the first frame the allocator manages. -/
def MemState.start (s : MemState) : ℕ := s.frames.startAddr / pageSize

/-- Frame `n` is marked allocated. -/
def MemState.used (s : MemState) (n : ℕ) : Prop :=
  s.start ≤ n ∧ s.frames.isSet (n - s.start) = true

/-- Where the linker script and `early_init` put the managed memory: page aligned,
above zero and below 4 GiB. -/
structure MemState.Placed (s : MemState) : Prop where
  aligned : s.frames.startAddr % 4096 = 0
  pos : 0 < s.frames.startAddr
  below : s.frames.startAddr < 2 ^ 32

/-- The allocator ran out of frames. -/
def OutOfMemory (p : Panic) : Prop :=
  p = .explicit "called Result::unwrap() on an Err value: Oom" ∨ p = .explicit "NoMem: Oom"

theorem MemState.Placed.startAddr_eq (h : s.Placed) : s.frames.startAddr = 4096 * s.start := by
  have := h.aligned
  unfold MemState.start pageSize
  omega

theorem MemState.Placed.congr (h : s.Placed) (hs : s'.frames.startAddr = s.frames.startAddr) :
    s'.Placed :=
  ⟨hs ▸ h.aligned, hs ▸ h.pos, hs ▸ h.below⟩

/-- The frames that can be in use. -/
theorem MemState.Placed.range (h : s.Placed) (hn : s.used n) :
    0 < n ∧ n < 2 ^ 20 + 4096 := by
  have hlt := FrameAllocator.lt_of_isSet hn.2
  have := h.startAddr_eq
  have := h.pos
  have := h.below
  have := hn.1
  omega

/-- One frame was taken, the lowest that was free. -/
structure Allocated (s : MemState) (n : ℕ) (s' : MemState) : Prop where
  fresh : ¬ s.used n
  lowest : ∀ m, s.start ≤ m → m < n → s.used m
  start_le : s.start ≤ n
  used : ∀ m, s'.used m ↔ s.used m ∨ m = n
  mem_eq : s'.mem = s.mem
  meta_eq : s'.pageMeta = s.pageMeta
  addr_eq : s'.frames.startAddr = s.frames.startAddr

/-- One frame was given back. -/
structure Freed (s : MemState) (n : ℕ) (s' : MemState) : Prop where
  used : ∀ m, s'.used m ↔ s.used m ∧ m ≠ n
  mem_eq : s'.mem = s.mem
  meta_eq : s'.pageMeta = s.pageMeta
  addr_eq : s'.frames.startAddr = s.frames.startAddr

theorem Allocated.placed (h : Allocated s n s') (hp : s.Placed) : s'.Placed := hp.congr h.addr_eq

theorem Allocated.used_self (h : Allocated s n s') : s'.used n := (h.used n).mpr (Or.inr rfl)

theorem wp_allocFrame (hp : s.Placed) :
    wp allocFrame (fun pa s' => ∃ n, pa = 4096 * n ∧ Allocated s n s')
      (fun e s' => e = .oom ∧ s' = s ∧ ∀ k < 4096, s.used (s.start + k)) (fun _ => False) s := by
  have hstart := hp.startAddr_eq
  have hr : s.frames.InRange := by
    have := hp.below
    unfold FrameAllocator.InRange
    omega
  rw [allocFrame, wp_zoom]
  refine wp_mono (FrameAllocator.alloc_spec hr) ?_ ?_ (fun _ h => h)
  · rintro pa fa' ⟨k, hk, hclear, hlow, rfl, hsa, hset⟩
    refine ⟨s.start + k, by omega, ?_, ?_, by omega, fun m => ?_, rfl, rfl, hsa⟩
    · rintro ⟨-, h⟩
      rw [Nat.add_sub_cancel_left, hclear] at h
      cases h
    · intro m hm hmk
      exact ⟨hm, hlow (m - s.start) (by omega)⟩
    · unfold MemState.used MemState.start
      simp only [hsa, hset, Bool.or_eq_true, beq_iff_eq]
      constructor
      · rintro ⟨h₁, h₂ | h₂⟩
        · exact Or.inl ⟨h₁, h₂⟩
        · exact Or.inr (by omega)
      · rintro (⟨h₁, h₂⟩ | rfl)
        · exact ⟨h₁, Or.inl h₂⟩
        · exact ⟨by omega, Or.inr (by omega)⟩
  · rintro e fa' ⟨rfl, rfl, hall⟩
    exact ⟨rfl, rfl, fun k hk => ⟨by omega, by rw [Nat.add_sub_cancel_left]; exact hall k hk⟩⟩

/-- The free frames in the order the allocator hands them out. -/
def MemState.freeFrames (s : MemState) : List ℕ :=
  ((List.range (64 * 64)).filter fun k => !s.frames.isSet k).map (s.start + ·)

/-- The frames `ns` were allocated, in this order. -/
structure Taken (s : MemState) (ns : List ℕ) (t : MemState) : Prop where
  free_eq : s.freeFrames = ns ++ t.freeFrames
  used : ∀ n, t.used n ↔ s.used n ∨ n ∈ ns
  mem_eq : t.mem = s.mem
  meta_eq : t.pageMeta = s.pageMeta
  addr_eq : t.frames.startAddr = s.frames.startAddr

section Taken
variable {t u : MemState} {ns ms : List ℕ}

theorem mem_freeFrames : n ∈ s.freeFrames ↔ s.start ≤ n ∧ n < s.start + 64 * 64 ∧ ¬ s.used n := by
  simp only [MemState.freeFrames, List.mem_map, List.mem_filter, List.mem_range, MemState.used]
  constructor
  · rintro ⟨k, ⟨hk, hset⟩, rfl⟩
    refine ⟨by omega, by omega, ?_⟩
    rintro ⟨-, h⟩
    rw [Nat.add_sub_cancel_left] at h
    rw [h] at hset
    cases hset
  · rintro ⟨hle, hlt, hfree⟩
    refine ⟨n - s.start, ⟨by omega, ?_⟩, by omega⟩
    rw [Bool.not_eq_true']
    exact Bool.eq_false_iff.mpr fun h => hfree ⟨hle, h⟩

theorem freeFrames_sorted (s : MemState) : s.freeFrames.Pairwise (· < ·) := by
  refine List.Pairwise.map _ (fun a b h => Nat.add_lt_add_left h s.start) ?_
  exact List.Pairwise.filter _ List.pairwise_lt_range

/-- Strictly increasing lists with the same members are equal. -/
theorem eq_of_pairwise_lt {l l' : List ℕ} (hl : l.Pairwise (· < ·)) (hl' : l'.Pairwise (· < ·))
    (h : ∀ n, n ∈ l ↔ n ∈ l') : l = l' := by
  have hperm : l.Perm l' :=
    (List.perm_ext_iff_of_nodup (hl.imp fun h => h.ne) (hl'.imp fun h => h.ne)).mpr h
  exact hperm.eq_of_pairwise (fun a b _ _ h₁ h₂ => absurd h₁ (by omega)) hl hl'

/-- An allocation takes the first free frame. -/
theorem Allocated.taken (h : Allocated s n t) : Taken s [n] t where
  free_eq := by
    have hstart : t.start = s.start := by rw [MemState.start, h.addr_eq, MemState.start]
    have hrange : n < s.start + 64 * 64 := by
      have := FrameAllocator.lt_of_isSet (h.used_self).2
      have := h.start_le
      omega
    have hlow : ∀ m ∈ t.freeFrames, n < m := by
      intro m hm
      obtain ⟨hle, -, hfree⟩ := mem_freeFrames.mp hm
      rw [h.used, not_or] at hfree
      by_contra hlt
      exact hfree.1 (h.lowest m (hstart ▸ hle) (by omega))
    rw [List.singleton_append]
    refine eq_of_pairwise_lt (freeFrames_sorted s)
      (List.pairwise_cons.mpr ⟨hlow, freeFrames_sorted t⟩) fun m => ?_
    rw [List.mem_cons, mem_freeFrames, mem_freeFrames, hstart, h.used]
    constructor
    · rintro ⟨h₁, h₂, h₃⟩
      by_cases hmn : m = n
      · exact Or.inl hmn
      · exact Or.inr ⟨h₁, h₂, not_or.mpr ⟨h₃, hmn⟩⟩
    · rintro (rfl | ⟨h₁, h₂, h₃⟩)
      · exact ⟨h.start_le, hrange, h.fresh⟩
      · exact ⟨h₁, h₂, (not_or.mp h₃).1⟩
  used m := by rw [h.used, List.mem_singleton]
  mem_eq := h.mem_eq
  meta_eq := h.meta_eq
  addr_eq := h.addr_eq

theorem Taken.trans (h : Taken s ns t) (h' : Taken t ms u) : Taken s (ns ++ ms) u where
  free_eq := by rw [h.free_eq, h'.free_eq, List.append_assoc]
  used m := by rw [h'.used, h.used, List.mem_append, or_assoc]
  mem_eq := h'.mem_eq.trans h.mem_eq
  meta_eq := h'.meta_eq.trans h.meta_eq
  addr_eq := h'.addr_eq.trans h.addr_eq

theorem Taken.placed (h : Taken s ns t) (hp : s.Placed) : t.Placed := hp.congr h.addr_eq

theorem Taken.fresh (h : Taken s ns t) (hn : n ∈ ns) : ¬ s.used n :=
  (mem_freeFrames.mp (h.free_eq ▸ List.mem_append_left _ hn)).2.2

theorem Taken.sorted (h : Taken s ns t) : ns.Pairwise (· < ·) := by
  have := freeFrames_sorted s
  rw [h.free_eq, List.pairwise_append] at this
  exact this.1

theorem Taken.getElem? (h : Taken s ns t) {k : ℕ} (hk : k < ns.length) :
    s.freeFrames[k]? = ns[k]? := by
  rw [h.free_eq, List.getElem?_append_left hk]

theorem freeFrames_eq_nil (h : ∀ k < 4096, s.used (s.start + k)) : s.freeFrames = [] := by
  rw [List.eq_nil_iff_forall_not_mem]
  intro n hn
  obtain ⟨hle, hlt, hfree⟩ := mem_freeFrames.mp hn
  have hused := h (n - s.start) (by omega)
  rw [Nat.add_sub_cancel' hle] at hused
  exact hfree hused

end Taken

section Unwrap
variable {Q : ℕ → MemState → Prop} {E : Error → MemState → Prop} {N : Panic → Prop}

theorem wp_allocFrameUnwrap (hp : s.Placed) (hN : ∀ p, OutOfMemory p → N p)
    (h : ∀ n s', Allocated s n s' → Q (4096 * n) s') : wp allocFrameUnwrap Q E N s := by
  rw [allocFrameUnwrap, wp_expectOk]
  refine wp_mono (wp_allocFrame hp) ?_ ?_ (fun _ hf => hf.elim)
  · rintro pa s' ⟨n, rfl, hn⟩
    exact h n s' hn
  · exact fun _ _ _ => hN _ (Or.inl rfl)

theorem wp_allocFrameExpect (hp : s.Placed) (hN : s.freeFrames = [] → ∀ p, OutOfMemory p → N p)
    (h : ∀ n s', Allocated s n s' → Q (4096 * n) s') : wp allocFrameExpect Q E N s := by
  rw [allocFrameExpect, wp_expectOk]
  refine wp_mono (wp_allocFrame hp) ?_ ?_ (fun _ hf => hf.elim)
  · rintro pa s' ⟨n, rfl, hn⟩
    exact h n s' hn
  · rintro e s' ⟨-, -, hall⟩
    exact hN (freeFrames_eq_nil hall) _ (Or.inr rfl)

theorem wp_freeFrame {Q : Unit → MemState → Prop} (hp : s.Placed) (hn : s.used n)
    (h : ∀ s', Freed s n s' → Q () s') : wp (freeFrame (4096 * n)) Q E N s := by
  have hstart := hp.startAddr_eq
  obtain ⟨hle, hset⟩ := hn
  have hk : n - s.start < 64 * 64 := FrameAllocator.lt_of_isSet hset
  have haddr : 4096 * n = s.frames.startAddr + (n - s.start) * 4096 := by omega
  rw [freeFrame, wp_zoom, haddr]
  refine wp_mono (FrameAllocator.free_spec hk) ?_ (fun _ _ hf => hf.elim) (fun _ hf => hf.elim)
  rintro - fa' ⟨hsa, hbits⟩
  refine h _ ⟨fun m => ?_, rfl, rfl, hsa⟩
  unfold MemState.used MemState.start at *
  simp only [hsa, hbits, Bool.and_eq_true, bne_iff_ne]
  constructor
  · rintro ⟨h₁, h₂, h₃⟩
    exact ⟨⟨h₁, h₂⟩, by omega⟩
  · rintro ⟨⟨h₁, h₂⟩, h₃⟩
    exact ⟨h₁, h₂, by omega⟩

end Unwrap

section Metadata
variable {E : Error → MemState → Prop} {N : Panic → Prop} {addr : ℕ}

/-- The count `page::add` leaves. -/
def Page.bump : Option UInt16 → UInt16
  | none => 1
  | some c => c + 1

/-- Adding one to a count that is not full does not wrap. -/
theorem toNat_bump {o : Option UInt16} (h : o.elim 0 UInt16.toNat + 1 < 2 ^ 16) :
    (Page.bump o).toNat = o.elim 0 UInt16.toNat + 1 := by
  cases o with
  | none => rfl
  | some c =>
      simp only [Option.elim_some] at h ⊢
      rw [Page.bump, UInt16.toNat_add]
      exact Nat.mod_eq_of_lt h

theorem wp_pageAdd {Q : Unit → MemState → Prop} :
    wp (Page.add addr) Q E N s ↔ Q () (Page.set addr (some (Page.bump (s.pageMeta addr))) s) := by
  unfold Page.add
  rw [wp_bind, wp_gets]
  cases s.pageMeta addr with
  | none => exact wp_modify _
  | some c => exact wp_modify _

/-- The entry `page::remove` leaves. -/
def Page.drop (c : UInt16) : Option UInt16 := if c - 1 = 0 then none else some (c - 1)

theorem wp_pageRemove {Q : UInt16 → MemState → Prop} {c : UInt16} (h : s.pageMeta addr = some c)
    (hc : c ≠ 0) : wp (Page.remove addr) Q E N s ↔ Q (c - 1) (Page.set addr (Page.drop c) s) := by
  simp only [Page.remove, wp_bind, wp_gets, h, if_neg hc, wp_modify, wp_pure]
  rfl

@[simp] theorem pageSet_mem (c : Option UInt16) : (Page.set addr c s).mem = s.mem := rfl
@[simp] theorem pageSet_frames (c : Option UInt16) : (Page.set addr c s).frames = s.frames := rfl
@[simp] theorem pageSet_used (c : Option UInt16) : (Page.set addr c s).used m ↔ s.used m := Iff.rfl
@[simp] theorem pageSet_self (c : Option UInt16) : (Page.set addr c s).pageMeta addr = c :=
  Function.update_self ..
theorem pageSet_of_ne {a : ℕ} (c : Option UInt16) (h : a ≠ addr) :
    (Page.set addr c s).pageMeta a = s.pageMeta a := Function.update_of_ne h ..

end Metadata

section Contents

@[simp] theorem setFrame_frames (f : Frame) : (s.setFrame n f).frames = s.frames := rfl
@[simp] theorem setFrame_pageMeta (f : Frame) : (s.setFrame n f).pageMeta = s.pageMeta := rfl
@[simp] theorem setFrame_start (f : Frame) : (s.setFrame n f).start = s.start := rfl
@[simp] theorem setFrame_used (f : Frame) : (s.setFrame n f).used m ↔ s.used m := Iff.rfl
@[simp] theorem setFrame_self (f : Frame) : (s.setFrame n f).mem n = f := Function.update_self ..
theorem setFrame_of_ne (f : Frame) (h : m ≠ n) : (s.setFrame n f).mem m = s.mem m :=
  Function.update_of_ne h ..

variable {i j : Fin 512} {e : PageTableEntry}

@[simp] theorem setEntry_frames : (s.setEntry n i e).frames = s.frames := rfl
@[simp] theorem setEntry_pageMeta : (s.setEntry n i e).pageMeta = s.pageMeta := rfl
@[simp] theorem setEntry_start : (s.setEntry n i e).start = s.start := rfl
@[simp] theorem setEntry_used : (s.setEntry n i e).used m ↔ s.used m := Iff.rfl
@[simp] theorem setEntry_self : (s.setEntry n i e).mem n i = e := by
  rw [MemState.setEntry, setFrame_self, Function.update_self]
theorem setEntry_of_ne_index (h : j ≠ i) : (s.setEntry n i e).mem n j = s.mem n j := by
  rw [MemState.setEntry, setFrame_self, Function.update_of_ne h]
theorem setEntry_of_ne (h : m ≠ n) : (s.setEntry n i e).mem m = s.mem m := setFrame_of_ne _ h

end Contents
end Efiks.Mm

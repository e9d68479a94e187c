import Efiks.Lib.SharedFrames
import Efiks.Mm.KernelStack
import Efiks.Mm.Machine
import Efiks.Mm.Regions

/-!
# The invariant of the machine

`Machine.abs` reads a machine as address spaces over shared frames: the leaf
entries are the mappings, the tables and the kernel stack are the private frames,
and the metadata are the reference counts. `Inv` says that every address space is
well shaped and that the abstract state keeps the invariant of sharing.

Two switches say how much is kept. With `legal` the permission bits stay in the
combinations the architecture defines: a writable page is readable. With `recorded`
the region of a page has every permission its entry has. With `track` a kernel stack
owns the frames of the range it records, which is so when it got
consecutive frames; without, its frames are only known to stay in use.

## Main definitions

* `SpaceOk`, `Machine.abs`, `Inv`.
* `Rep` — every process sees the memory of the machine without sharing.
* `StepOk` — what a step of the machine keeps.
-/
namespace Efiks.Mm
open Lib Lib.RustM PageTableEntry

/-- The frame of the root table. -/
def MemoryManager.rootFrame (mm : MemoryManager) : ℕ := mm.rootPt / 4096

/-- Writable implies readable, in a set of flags. -/
def LegalFlags (flags : PteFlags) : Prop := flags.getLsbD 2 = true → flags.getLsbD 1 = true

/-- Writable implies readable, in an entry. -/
def LegalEntry (e : PageTableEntry) : Prop := e.getLsbD 2 = true → e.getLsbD 1 = true

/-- The permissions of a space are legal, in its regions and in its entries, and a
page is readable when its region is. -/
structure LegalSpace (s : MemState) (mm : MemoryManager) : Prop where
  region : ∀ x ∈ mm.regions, LegalFlags x.flags
  entry : ∀ v, LegalEntry (pteAt s mm.rootFrame v)
  readable : ∀ x ∈ mm.regions, pteAt s mm.rootFrame (vpn x.start) ≠ 0 →
    x.flags.getLsbD 1 = true → (pteAt s mm.rootFrame (vpn x.start)).getLsbD 1 = true

/-- The flags of an access, in a region, include those of an entry. -/
def Recorded (flags : PteFlags) (e : PageTableEntry) : Prop :=
  ∀ i, 1 ≤ i → i ≤ 3 → e.getLsbD i = true → flags.getLsbD i = true

/-- What is kept of permissions. -/
structure Perm where
  /-- They are legal. -/
  legal : Prop
  /-- The regions record them. -/
  recorded : Prop

/-- An address space as the kernel keeps it. -/
structure SpaceOk (perm : Perm) (s : MemState) (mm : MemoryManager) : Prop where
  root : mm.rootPt = 4096 * mm.rootFrame
  shape : Shape s mm.rootFrame
  regions : RegionsOk mm.regions
  covered : ∀ v, pteAt s mm.rootFrame v ≠ 0 → ∃ x ∈ mm.regions, vpn x.start = v
  stack : mm.kernelStack = .empty ∨
    ∃ g b, 0 < g ∧ g < b ∧ mm.kernelStack = stackRegion g b
  permissions : perm.legal → LegalSpace s mm
  recorded : perm.recorded → ∀ x ∈ mm.regions, Recorded x.flags (pteAt s mm.rootFrame (vpn x.start))

/-- A private frame of a space: a table, by its path, or a frame of the kernel stack. -/
abbrev Slot := List (Fin 512) ⊕ Fin (kernelStackPages + 1)

/-- The guard frame and the frames of the kernel stack. -/
def stackFrame (stack : KernelStackRegion) (k : Fin (kernelStackPages + 1)) : Option ℕ :=
  if stack.guard = 0 then none
  else if k.val = 0 then some (stack.guard / 4096)
  else some (virtToPhys stack.bottom / 4096 + (k.val - 1))

def privFrame (track : Bool) (s : MemState) (mm : MemoryManager) : Slot → Option ℕ
  | .inl path => tableAt s mm.rootFrame path
  | .inr k => if track then stackFrame mm.kernelStack k else none

/-- The frame an entry maps, and whether it is writable. -/
def pageOf (e : PageTableEntry) : Option (ℕ × Bool) :=
  if e = 0 then none else some (e.ppn, e.isWritable)

/-- The recorded count of a frame. -/
def MemState.refs (s : MemState) (f : ℕ) : ℕ := (s.pageMeta (4096 * f)).elim 0 UInt16.toNat

/-- The machine as address spaces over shared frames. -/
def Machine.abs (track : Bool) (σ : Machine) : Frames ℕ Vpn Slot ℕ (Fin 4096 → UInt8) where
  live := σ.live
  solo p := (σ.proc p).loading = true
  used := σ.sys.used
  refs := σ.sys.refs
  map p v := if p ∈ σ.live then pageOf (pteAt σ.sys (σ.proc p).mm.rootFrame v) else none
  priv p x := if p ∈ σ.live then privFrame track σ.sys (σ.proc p).mm x else none
  data f := frameByte (σ.sys.mem f)

/-- **The invariant of the machine**; `boot` are the frames in use for other ends. -/
structure Inv (perm : Perm) (track : Bool) (boot : ℕ → Prop) (σ : Machine) : Prop where
  placed : σ.sys.Placed
  space : ∀ p ∈ σ.live, SpaceOk perm σ.sys (σ.proc p).mm
  counted : ∀ f, σ.sys.pageMeta (4096 * f) ≠ some 0
  sharing : Frames.Sharing boot (σ.abs track)

/-- The address of the first byte of a page. -/
def pageAddr (v : Vpn) : ℕ := v.1.val * 2 ^ 30 + v.2.1.val * 2 ^ 21 + v.2.2.val * 2 ^ 12

/-- The pages of the private memories. -/
def refPages (ref : Ref) (p : ℕ) (v : Vpn) (k : Fin 4096) : UInt8 := ref p (pageAddr v + k)

/-- Every process sees its private memory. -/
def Rep (track : Bool) (σ : Machine) (ref : Ref) : Prop :=
  Frames.Represents (fun _ => 0) (σ.abs track) (refPages ref)

/-- What a step from `σ` to `σ'` keeps, when it changes the private memories by `g`. -/
structure StepOk (perm : Perm) (track : Bool) (boot : ℕ → Prop) (σ σ' : Machine) (g : Ref → Ref) :
    Prop where
  inv : Inv perm track boot σ'
  fresh : ∀ p x f, (σ'.abs track).priv p x = some f →
    (σ.abs track).priv p x = some f ∨ ¬ σ.sys.used f
  rep : ∀ ref, Rep track σ ref → Rep track σ' (g ref)

section Abs
variable {track : Bool} {σ : Machine} {p f : ℕ} {v : Vpn} {b : Bool} {e : PageTableEntry}

@[simp] theorem pageOf_zero : pageOf 0 = none := rfl

theorem pageOf_of_ne (h : e ≠ 0) : pageOf e = some (e.ppn, e.isWritable) := if_neg h

theorem pageOf_eq_some : pageOf e = some (f, b) ↔ e ≠ 0 ∧ e.ppn = f ∧ e.isWritable = b := by
  by_cases h : e = 0
  · subst h
    rw [pageOf_zero]
    exact ⟨fun h => (nomatch h), fun h => absurd rfl h.1⟩
  · rw [pageOf_of_ne h, Option.some.injEq, Prod.mk.injEq]
    exact ⟨fun h' => ⟨h, h'⟩, And.right⟩

theorem pageOf_eq_none : pageOf e = none ↔ e = 0 := by
  by_cases h : e = 0
  · exact ⟨fun _ => h, fun h => h ▸ pageOf_zero⟩
  · rw [pageOf_of_ne h]
    exact ⟨fun h' => (nomatch h'), fun h' => absurd h' h⟩

theorem abs_map (hp : p ∈ σ.live) (v : Vpn) :
    (σ.abs track).map p v = pageOf (pteAt σ.sys (σ.proc p).mm.rootFrame v) := if_pos hp

theorem abs_map_dead (hp : p ∉ σ.live) (v : Vpn) : (σ.abs track).map p v = none := if_neg hp

theorem abs_priv (hp : p ∈ σ.live) (x : Slot) :
    (σ.abs track).priv p x = privFrame track σ.sys (σ.proc p).mm x := if_pos hp

theorem abs_priv_dead (hp : p ∉ σ.live) (x : Slot) : (σ.abs track).priv p x = none := if_neg hp

theorem abs_map_eq_some : (σ.abs track).map p v = some (f, b) ↔
    p ∈ σ.live ∧ pteAt σ.sys (σ.proc p).mm.rootFrame v ≠ 0 ∧
      (pteAt σ.sys (σ.proc p).mm.rootFrame v).ppn = f ∧
      (pteAt σ.sys (σ.proc p).mm.rootFrame v).isWritable = b := by
  by_cases hp : p ∈ σ.live
  · rw [abs_map hp, pageOf_eq_some]
    exact ⟨fun h => ⟨hp, h⟩, And.right⟩
  · rw [abs_map_dead hp]
    exact ⟨fun h => (nomatch h), fun h => absurd h.1 hp⟩

theorem abs_maps : (σ.abs track).Maps p f ↔
    p ∈ σ.live ∧ ∃ v, pteAt σ.sys (σ.proc p).mm.rootFrame v ≠ 0 ∧
      (pteAt σ.sys (σ.proc p).mm.rootFrame v).ppn = f := by
  constructor
  · rintro ⟨v, b, h⟩
    obtain ⟨hp, hne, hf, -⟩ := abs_map_eq_some.mp h
    exact ⟨hp, v, hne, hf⟩
  · rintro ⟨hp, v, hne, hf⟩
    exact ⟨v, _, abs_map_eq_some.mpr ⟨hp, hne, hf, rfl⟩⟩

/-- A count that is recorded is the number of references. -/
theorem refs_of_meta {s : MemState} {c : UInt16} (h : s.pageMeta (4096 * f) = some c) :
    s.refs f = c.toNat := by
  rw [MemState.refs, h]
  rfl

theorem refs_of_none {s : MemState} (h : s.pageMeta (4096 * f) = none) : s.refs f = 0 := by
  rw [MemState.refs, h]
  rfl

theorem refs_congr {s s' : MemState} (h : s'.pageMeta (4096 * f) = s.pageMeta (4096 * f)) :
    s'.refs f = s.refs f := by
  rw [MemState.refs, MemState.refs, h]

end Abs

section Stack
variable {g b n : ℕ}

/-- The frames of a recorded stack, slot by slot. -/
theorem stackFrame_eq (hg : 0 < g) (k : Fin (kernelStackPages + 1)) :
    stackFrame (stackRegion g b) k = some (if k.val = 0 then g else b + (k.val - 1)) := by
  have hg0 : 4096 * g ≠ 0 := by omega
  have hb : virtToPhys (physToVirt (4096 * b)) / 4096 = b := by
    unfold virtToPhys physToVirt
    omega
  simp only [stackFrame, stackRegion, if_neg hg0, hb]
  by_cases hk : k.val = 0
  · rw [if_pos hk, if_pos hk, Nat.mul_div_cancel_left g (by norm_num)]
  · rw [if_neg hk, if_neg hk]

theorem stackFrame_empty (k : Fin (kernelStackPages + 1)) : stackFrame .empty k = none := rfl

theorem exists_stackFrame (hg : 0 < g) :
    (∃ k, stackFrame (stackRegion g b) k = some n) ↔ StackFrames g b n := by
  unfold StackFrames
  constructor
  · rintro ⟨k, hk⟩
    rw [stackFrame_eq hg, Option.some.injEq] at hk
    have := k.isLt
    split at hk <;> omega
  · rintro (rfl | ⟨h₁, h₂⟩)
    · exact ⟨⟨0, by omega⟩, by rw [stackFrame_eq hg, if_pos rfl]⟩
    · refine ⟨⟨n - b + 1, by omega⟩, ?_⟩
      rw [stackFrame_eq hg, if_neg (Nat.succ_ne_zero _), Nat.add_sub_cancel, Nat.add_sub_cancel' h₁]

theorem stackFrame_inj (hg : 0 < g) (hgb : g < b) {j k : Fin (kernelStackPages + 1)}
    (hj : stackFrame (stackRegion g b) j = some n) (hk : stackFrame (stackRegion g b) k = some n) :
    j = k := by
  rw [stackFrame_eq hg, Option.some.injEq] at hj hk
  apply Fin.ext
  split at hj <;> split at hk <;> omega

end Stack

section Facts
variable {perm : Perm} {track : Bool} {boot : ℕ → Prop} {σ : Machine} {p q f n : ℕ} {v w : Vpn}
variable {path path' : List (Fin 512)}

theorem Inv.table_priv (hp : p ∈ σ.live)
    (ht : tableAt σ.sys (σ.proc p).mm.rootFrame path = some n) :
    (σ.abs track).priv p (.inl path) = some n := by
  rw [abs_priv hp]
  exact ht

/-- A table has one place, in one space. -/
theorem Inv.table_inj (h : Inv perm track boot σ) (hp : p ∈ σ.live) (hq : q ∈ σ.live)
    (ht : tableAt σ.sys (σ.proc p).mm.rootFrame path = some n)
    (ht' : tableAt σ.sys (σ.proc q).mm.rootFrame path' = some n) : p = q ∧ path = path' := by
  obtain ⟨hpq, hx⟩ := h.sharing.priv_inj (Inv.table_priv hp ht) (Inv.table_priv hq ht')
  exact ⟨hpq, Sum.inl.inj hx⟩

/-- The tables of another space are none of `p`'s. -/
theorem Inv.table_other (h : Inv perm track boot σ) (hp : p ∈ σ.live) (hq : q ∈ σ.live)
    (hqp : q ≠ p) (ht : tableAt σ.sys (σ.proc q).mm.rootFrame path = some n)
    (path' : List (Fin 512)) : tableAt σ.sys (σ.proc p).mm.rootFrame path' ≠ some n :=
  fun ht' => hqp (h.table_inj hq hp ht ht').1

/-- A user frame is no table. -/
theorem Inv.maps_not_table (h : Inv perm track boot σ) (hm : (σ.abs track).Maps q f)
    (hp : p ∈ σ.live) (path : List (Fin 512)) :
    tableAt σ.sys (σ.proc p).mm.rootFrame path ≠ some f :=
  fun ht => h.sharing.priv_map (Inv.table_priv hp ht) hm

theorem Inv.table_used (h : Inv perm track boot σ) (hp : p ∈ σ.live)
    (ht : tableAt σ.sys (σ.proc p).mm.rootFrame path = some n) : σ.sys.used n :=
  (h.space p hp).shape.used path n ht

theorem Inv.maps_of_pteAt (hp : p ∈ σ.live) (hne : pteAt σ.sys (σ.proc p).mm.rootFrame v ≠ 0) :
    (σ.abs track).Maps p (pteAt σ.sys (σ.proc p).mm.rootFrame v).ppn :=
  abs_maps.mpr ⟨hp, v, hne, rfl⟩

/-- Two pages of a space never share a frame. -/
theorem Inv.page_inj (h : Inv perm track boot σ) (hp : p ∈ σ.live)
    (hv : pteAt σ.sys (σ.proc p).mm.rootFrame v ≠ 0)
    (hw : pteAt σ.sys (σ.proc p).mm.rootFrame w ≠ 0)
    (hf : (pteAt σ.sys (σ.proc p).mm.rootFrame v).ppn =
      (pteAt σ.sys (σ.proc p).mm.rootFrame w).ppn) : v = w :=
  h.sharing.map_inj (p := p) (f := (pteAt σ.sys (σ.proc p).mm.rootFrame v).ppn)
    (abs_map_eq_some.mpr ⟨hp, hv, rfl, rfl⟩) (abs_map_eq_some.mpr ⟨hp, hw, hf.symm, rfl⟩)

theorem Inv.live_abs : (σ.abs track).live = σ.live := rfl

/-- The metadata of a mapped frame is its count, and positive. -/
theorem Inv.exists_meta (h : Inv perm track boot σ) (hm : (σ.abs track).Maps p f) :
    ∃ c, σ.sys.pageMeta (4096 * f) = some c ∧ c ≠ 0 ∧ c.toNat = (σ.abs track).refs f := by
  have hpos := h.sharing.refs_pos hm
  cases hc : σ.sys.pageMeta (4096 * f) with
  | none => exact absurd (refs_of_none hc) (Nat.pos_iff_ne_zero.mp hpos)
  | some c => exact ⟨c, rfl, fun h0 => h.counted f (h0 ▸ hc), (refs_of_meta hc).symm⟩

/-- A frame nobody maps has no metadata. -/
theorem Inv.meta_eq_none (h : Inv perm track boot σ) (hm : ∀ p, ¬ (σ.abs track).Maps p f) :
    σ.sys.pageMeta (4096 * f) = none := by
  have hzero : (σ.abs track).refs f = 0 := by
    rw [h.sharing.refs_eq, Finset.card_eq_zero, Finset.eq_empty_iff_forall_notMem]
    exact fun p hp => hm p (Frames.mem_mappers.mp hp).2
  cases hc : σ.sys.pageMeta (4096 * f) with
  | none => rfl
  | some c =>
      have hc0 : c.toNat = 0 := (refs_of_meta hc).symm.trans hzero
      have : c = 0 := UInt16.toNat_inj.mp hc0
      exact absurd (this ▸ hc) (h.counted f)

theorem Inv.meta_of_free (h : Inv perm track boot σ) (hf : ¬ σ.sys.used f) :
    σ.sys.pageMeta (4096 * f) = none :=
  h.meta_eq_none fun _ hm => hf (h.sharing.used_of_maps hm)

/-- There are at most as many processes as frames: each has a root table of its own. -/
theorem Inv.card_live (h : Inv perm track boot σ) : σ.live.card ≤ 4096 := by
  have hinj : Set.InjOn (fun p => (σ.proc p).mm.rootFrame) σ.live := by
    intro p hp q hq hpq
    have hroot : tableAt σ.sys (σ.proc p).mm.rootFrame [] = some (σ.proc p).mm.rootFrame := rfl
    have hroot' : tableAt σ.sys (σ.proc q).mm.rootFrame [] = some (σ.proc p).mm.rootFrame :=
      congrArg some hpq.symm
    exact (h.table_inj hp hq hroot hroot').1
  have hsub : σ.live.image (fun p => (σ.proc p).mm.rootFrame) ⊆
      Finset.Ico σ.sys.start (σ.sys.start + 4096) := by
    intro n hn
    obtain ⟨p, hp, rfl⟩ := Finset.mem_image.mp hn
    have hroot : tableAt σ.sys (σ.proc p).mm.rootFrame [] = some (σ.proc p).mm.rootFrame := rfl
    have hu := h.table_used hp hroot
    have hlt := FrameAllocator.lt_of_isSet hu.2
    rw [Finset.mem_Ico]
    exact ⟨hu.1, by have := hu.1; omega⟩
  have hcard := Finset.card_le_card hsub
  rw [Finset.card_image_of_injOn hinj, Nat.card_Ico] at hcard
  omega

end Facts
end Efiks.Mm

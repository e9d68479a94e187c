import Efiks.Mm.NewSpace

/-!
# Code that frees nothing

Building an address space allocates frames and writes to memory and to the metadata,
but no frame is given back. A property that survives allocation and writing, such as
that a frame is in use, then holds of the state in which any such code returns or fails.

## Main definitions

* `Growing` — a property of the memory that allocation and writing keep.

## Main results

* `Growing.mapVm` — mapping a page keeps such a property, and never fails.
* `Growing.createUserStack`, `Growing.createKernelStack` — so do the stacks.
* `growing_used` — that a frame is in use is such a property.
-/
namespace Efiks.Mm
open Lib Lib.RustM

/-- Allocation and writing keep `P`. -/
structure Growing (P : MemState → Prop) : Prop where
  alloc : Keeps P True allocFrame
  setFrame : ∀ n f s, P s → P (s.setFrame n f)
  setMeta : ∀ a c s, P s → P (Page.set a c s)

theorem growing_true : Growing fun _ => True where
  alloc s _ := by
    exact wp_run ⟨fun _ _ _ => trivial, fun _ _ _ => ⟨trivial, trivial⟩, fun _ _ => trivial⟩
  setFrame _ _ _ h := h
  setMeta _ _ _ h := h

/-- A frame in use stays in use. -/
theorem growing_used (n : ℕ) : Growing fun s => s.Placed ∧ s.used n where
  alloc s h := by
    refine wp_mono (wp_allocFrame h.1) (fun pa s' h' => ?_) (fun e s' h' => ?_) fun _ _ => trivial
    · obtain ⟨m, -, hm⟩ := h'
      exact ⟨hm.placed h.1, (hm.used n).mpr (Or.inl h.2)⟩
    · rw [h'.2.1]
      exact ⟨trivial, h⟩
  setFrame _ _ _ h := ⟨h.1.congr rfl, h.2⟩
  setMeta _ _ _ h := ⟨h.1.congr rfl, h.2⟩

namespace Growing
variable {P : MemState → Prop} {err : Prop} (hP : Growing P)
include hP

section Tables

theorem setEntry (n : ℕ) (i : Fin 512) (e : PageTableEntry) (s : MemState) (h : P s) :
    P (s.setEntry n i e) := hP.setFrame _ _ s h

theorem allocFrameUnwrap : Keeps P err Mm.allocFrameUnwrap := hP.alloc.expectOk _

theorem zeroFrame (pa : ℕ) : Keeps P err (Mm.zeroFrame pa) :=
  Keeps.modify fun s h => hP.setFrame _ _ s h

theorem add (addr : ℕ) : Keeps P err (Page.add addr) := by
  refine (Keeps.gets _).bind fun c => ?_
  cases c with
  | none => exact Keeps.modify fun s h => hP.setMeta _ _ s h
  | some c => exact Keeps.modify fun s h => hP.setMeta _ _ s h

omit hP in
theorem setPhysicalAddress (e : PageTableEntry) (addr : ℕ) :
    Keeps P err (PageTable.setPhysicalAddress e addr) :=
  (Keeps.assert _ _).bind fun _ => Keeps.pure _

theorem mapLeaf (table : ℕ) (i : Fin 512) (pa : Option ℕ) (flags : PteFlags) :
    Keeps P err (PageTable.mapLeaf table i pa flags) := by
  refine (Keeps.gets _).bind fun pte => Keeps.ite (Keeps.panic _) (Keeps.ite ?_ ?_)
  · cases pa with
    | none => exact Keeps.panic _
    | some pa =>
        exact (setPhysicalAddress _ _).bind fun e => Keeps.modify fun s h => hP.setEntry _ _ _ s h
  · exact Keeps.modify fun s h => hP.setEntry _ _ _ s h

theorem getOrCreateNextTable (table : ℕ) (i : Fin 512) :
    Keeps P err (PageTable.getOrCreateNextTable table i) := by
  refine (Keeps.gets _).bind fun pte =>
    Keeps.ite (Keeps.ite (Keeps.panic _) (Keeps.pure _)) ?_
  refine hP.allocFrameUnwrap.bind fun pa => (Keeps.assert _ _).bind fun _ => ?_
  refine (hP.zeroFrame _).bind fun _ => (setPhysicalAddress _ _).bind fun e => ?_
  exact (Keeps.modify fun s h => hP.setEntry _ _ _ s h).bind fun _ => Keeps.pure _

theorem mapMemory (rootPt va pa : ℕ) (flags : PteFlags) (size : PageSize) :
    Keeps P err (PageTable.mapMemory rootPt va pa flags size) := by
  refine ((Keeps.assert _ _).bind fun _ => Keeps.assert _ _).bind fun _ => ?_
  cases size with
  | size1G => exact hP.mapLeaf _ _ _ _
  | size2M => exact (hP.getOrCreateNextTable _ _).bind fun l1 => hP.mapLeaf _ _ _ _
  | size4K =>
      exact (hP.getOrCreateNextTable _ _).bind fun l1 =>
        (hP.getOrCreateNextTable _ _).bind fun l0 => hP.mapLeaf _ _ _ _

/-- Mapping a page keeps `P`, and never fails. -/
theorem mapVm (rootPt va pa : ℕ) (flags : PteFlags) :
    Keeps P err (PageTable.mapVm rootPt va pa flags) := hP.mapMemory _ _ _ _ _

theorem remapVm (rootPt va : ℕ) (flags : PteFlags) :
    Keeps P err (PageTable.remapVm rootPt va flags) := by
  refine (Keeps.gets _).bind fun e2 => Keeps.ite (Keeps.panic _) (Keeps.ite ?_ ?_)
  · exact hP.mapLeaf _ _ _ _
  · refine (Keeps.gets _).bind fun e1 => Keeps.ite (Keeps.panic _) (Keeps.ite ?_ ?_)
    · exact hP.mapLeaf _ _ _ _
    · exact (Keeps.gets _).bind fun e0 => Keeps.ite (Keeps.panic _) (hP.mapLeaf _ _ _ _)

end Tables

section Methods

omit hP in
theorem sys {α : Type} {m : KM α} (h : Keeps P err m) :
    Keeps (fun sp : Space => P sp.sys) err (Mm.sys m) :=
  h.zoom (fun _ h => h) fun _ _ h _ => h

omit hP in
theorem virtualAddress (va : ℕ) : Keeps (fun sp : Space => P sp.sys) err (Mm.virtualAddress va) :=
  Keeps.assert _ _

omit hP in
theorem insertMapping (start endAddr : ℕ) (flags : PteFlags) :
    Keeps (fun sp : Space => P sp.sys) err (MemoryManager.insertMapping start endAddr flags) := by
  refine (Keeps.gets _).bind fun regions => ?_
  split
  · exact Keeps.panic _
  · exact Keeps.modify fun sp h => h

theorem mapAllocatePage (va : ℕ) (flags : PteFlags) :
    Keeps (fun sp : Space => P sp.sys) True (MemoryManager.mapAllocatePage va flags) := by
  refine (sys hP.allocFrameUnwrap).bind fun pa => (sys (hP.zeroFrame pa)).bind fun _ => ?_
  refine (virtualAddress va).bind fun _ => (Keeps.gets _).bind fun rootPt => ?_
  refine (sys (hP.mapVm _ _ _ _)).bind fun _ => (Keeps.okOr trivial _ _).bind fun endAddr => ?_
  refine (insertMapping _ _ _).bind fun _ => (sys (hP.add pa)).bind fun _ => Keeps.pure _

theorem remapPage (va : ℕ) (flags : PteFlags) :
    Keeps (fun sp : Space => P sp.sys) True (MemoryManager.remapPage va flags) :=
  (virtualAddress va).bind fun _ => (Keeps.gets _).bind fun _ => sys (hP.remapVm _ _ _)

omit hP in
theorem translate (va : ℕ) :
    Keeps (fun sp : Space => P sp.sys) err (MemoryManager.translate va) :=
  (virtualAddress va).bind fun _ => Keeps.gets _

theorem createUserStack :
    Keeps (fun sp : Space => P sp.sys) True MemoryManager.createUserStack :=
  (Keeps.foldM (fun _ _ => (Keeps.okOr trivial _ _).bind fun _ =>
    (hP.mapAllocatePage _ _).bind fun _ => Keeps.pure _) _ _).bind fun _ => Keeps.okOr trivial _ _

theorem createKernelStack :
    Keeps (fun sp : Space => P sp.sys) True MemoryManager.createKernelStack := by
  refine (sys hP.allocFrameUnwrap).bind fun guard => (sys hP.allocFrameUnwrap).bind fun start => ?_
  refine (Keeps.foldM (fun _ _ => (sys hP.allocFrameUnwrap).bind fun _ => Keeps.pure _) _ _).bind
    fun _ => (Keeps.okOr trivial _ _).bind fun _ => (Keeps.expect _ _).bind fun _ => ?_
  refine Keeps.bind (Keeps.modify ?_) fun _ => Keeps.pure _
  exact fun sp h => h

end Methods
end Growing
end Efiks.Mm

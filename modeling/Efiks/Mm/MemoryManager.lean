import Efiks.Lib.Align
import Efiks.Mm.PageTable

/-!
# The memory manager of an address space

A `MemoryManager` is one address space: its root table, the sorted list of its
regions, its kernel stack and its break. Methods run on a `Space`, the shared
memory state together with the manager they are called on; `new`, `fork` and
`free` are the operations that begin and end an address space.

## Main definitions

* `VmRegion`, `KernelStackRegion`, `MemoryManager`, `Space`.
* `MemoryManager.new`, `fork`, `doBrk`, `createUserStack`, `createKernelStack`,
  `setInitialBrk`, `mapAllocatePage`, `handlePageFault`, `remapPage`, `free`.
-/
namespace Efiks.Mm
open Lib Lib.RustM

/-- A mapped region of user memory and its permissions. -/
structure VmRegion where
  start : ℕ
  endAddr : ℕ
  flags : PteFlags
  deriving DecidableEq

structure KernelStackRegion where
  guard : ℕ
  bottom : ℕ
  top : ℕ
  deriving DecidableEq

def KernelStackRegion.empty : KernelStackRegion := ⟨0, 0, 0⟩

structure MemoryManager where
  rootPt : ℕ
  /-- Sorted mapped regions. -/
  regions : List VmRegion
  kernelStack : KernelStackRegion
  startBrk : ℕ
  brk : ℕ
  deriving DecidableEq

/-- A memory manager with the state it shares with the others. -/
structure Space where
  sys : MemState
  mm : MemoryManager

/-- Methods of a memory manager. -/
abbrev MmM := RustM Space Error

/-- Run code that does not touch the manager. -/
def sys {α : Type} (m : KM α) : MmM α := zoom Space.sys (fun s sp => { sp with sys := s }) m

/-- Run a method on the manager `mm`, and return what it became. -/
def withMm {α : Type} (mm : MemoryManager) (m : MmM α) : KM (α × MemoryManager) := fun s =>
  match m ⟨s, mm⟩ with
  | .ok a sp => .ok (a, sp.mm) sp.sys
  | .err e sp => .err e sp.sys
  | .panic p => .panic p

def kernelStackPages : ℕ := 16

/-- `1 << 30`. -/
def GB : ℕ := 1073741824

/-- Bound on the recursion over page tables: every call works on a frame of its
own, and there are `64 * 64` frames. -/
def tableFuel : ℕ := 64 * 64 + 1

/-- The direct mapping of all memory and the kernel image, in 1 GiB pages. -/
def kvmFullMap (rootPt : ℕ) : KM Unit := do
  let directMappingSize := kernelImageStartVa - kernelDirectMappingBase
  assert (directMappingSize % GB == 0) "assertion failed: direct_mapping_size % GB == 0"
  foldM (fun _ i => do
    let va ← expect (offsetBy kernelDirectMappingBase (i * GB : ℕ)) "this is already a bounded op"
    PageTable.mapVm1g rootPt va (i * GB) PteFlags.RW) (List.range (directMappingSize / GB)) ()
  foldM (fun _ i => do
    let va ← expect (offsetBy kernelImageStartVa (i * GB : ℕ)) "this is already a bounded op"
    let pa ← expect (offsetBy kernelImageStartPa (i * GB : ℕ)) "already a bounded op"
    PageTable.mapVm1g rootPt va pa PteFlags.RWX) (List.range 2) ()

/-- `helper::align_up`. -/
def alignUp {σ : Type} (addr align : ℕ) : RustM σ Error ℕ := do
  let x ← addUsize addr align
  let x ← subUsize x 1
  pure (maskDown x align)

/-- `helper::align_down`. -/
def alignDown (addr align : ℕ) : ℕ := maskDown addr align

/-- The conversion of a `VirtAddr` into an Sv39 virtual address asserts that it is
canonical. -/
def virtualAddress {σ : Type} (va : ℕ) : RustM σ Error Unit :=
  assert (isCanonical va) "assertion failed: VirtualAddress::from_raw_unchecked"

/-- `binary_search_by_key(&addr, |r| r.start)` on the sorted regions: the index of
the region that starts at `addr`, or as an error where it would be inserted. -/
def binarySearch (regions : List VmRegion) (addr : ℕ) : Except ℕ ℕ :=
  let i := (regions.takeWhile fun r => r.start < addr).length
  if (regions[i]?.map VmRegion.start) = some addr then .ok i else .error i

namespace MemoryManager

def empty : MemoryManager := ⟨0, [], .empty, 0, 0⟩

/-- A new address space with the kernel mappings. -/
def new : KM MemoryManager := do
  let rootPt ← allocFrameUnwrap
  zeroFrame rootPt
  kvmFullMap rootPt
  pure { empty with rootPt := rootPt }

/-- `self.translate(va)`. -/
def translate (va : ℕ) : MmM (Option ℕ) := do
  virtualAddress va
  gets fun sp => PageTable.translate sp.sys.mem sp.mm.rootPt va

/-- Allocate a guard frame and the frames of a kernel stack. -/
def createKernelStack : MmM ℕ := do
  let guard ← sys allocFrameUnwrap
  let kernelStackStart ← sys allocFrameUnwrap
  foldM (fun _ _ => do
    let _ ← sys allocFrameUnwrap
    pure ()) (List.range (kernelStackPages - 1)) ()
  let stackSize := kernelStackPages * pageSize
  let stackStartVa := physToVirt kernelStackStart
  let stackEndVa ← okOr (offsetBy stackStartVa stackSize) Error.overflow
  let kernelStackTop ← expect (offsetBy kernelStackStart stackSize)
    "called Option::unwrap() on a None value"
  modify fun sp =>
    { sp with mm := { sp.mm with kernelStack := ⟨guard, stackStartVa, stackEndVa⟩ } }
  pure kernelStackTop

/-- A copy of the address space that shares the user frames. -/
def fork (self : MemoryManager) : KM MemoryManager := do
  let rootPt ← PageTable.fork tableFuel self.rootPt
  let mm : MemoryManager :=
    { rootPt := rootPt, regions := self.regions, kernelStack := .empty,
      startBrk := self.startBrk, brk := self.brk }
  let (_, mm) ← withMm mm createKernelStack
  pure mm

/-- `regions.insert(i, r)`. -/
def insertRegion (i : ℕ) (r : VmRegion) : MmM Unit :=
  modify fun sp => { sp with mm := { sp.mm with regions := sp.mm.regions.insertIdx i r } }

/-- Insert a mapping in a sorted way. -/
def insertMapping (start endAddr : ℕ) (flags : PteFlags) : MmM Unit := do
  let regions ← gets (·.mm.regions)
  match binarySearch regions start with
  | .ok _ => panic (.explicit "Mapping an already existing entry again must be handled.")
  | .error i => insertRegion i ⟨start, endAddr, flags⟩

/-- The region `addr` lies in, given where the search for `addr` ended. -/
def regionBefore (regions : List VmRegion) (addr i : ℕ) : Option VmRegion :=
  if 0 < i then (regions[i - 1]?).filter fun r => addr < r.endAddr else none

def mapPageIfNotExist (addr : ℕ) (flags : PteFlags) : MmM Bool := do
  let regions ← gets (·.mm.regions)
  match binarySearch regions addr with
  | .ok _ => pure false
  | .error i =>
      if (regionBefore regions addr i).isSome then pure false
      else do
        let endAddr ← okOr (offsetBy addr pageSize) Error.overflow
        insertRegion i ⟨addr, endAddr, flags⟩
        pure true

/-- The loop of `brk`. -/
def mapPagesUpTo : ℕ → ℕ → ℕ → MmM Unit
  | 0, _, _ => panic .diverges
  | fuel + 1, addr, newMappedEnd =>
      if addr < newMappedEnd then do
        let _ ← mapPageIfNotExist addr (PteFlags.RW ||| PteFlags.U)
        let addr ← okOr (offsetBy addr pageSize) Error.overflow
        mapPagesUpTo fuel addr newMappedEnd
      else pure ()

def setBrk (newBrk : ℕ) : MmM Unit := modify fun sp => { sp with mm := { sp.mm with brk := newBrk } }

/-- Move the break; new pages are recorded and mapped when first touched. -/
def doBrk (newBrk : ℕ) : MmM ℕ := do
  let mm ← gets (·.mm)
  if mm.startBrk ≥ newBrk then pure mm.brk
  else if newBrk < mm.brk then do
    setBrk newBrk
    pure newBrk
  else if newBrk > mm.brk then do
    let addr ← alignUp mm.brk pageSize
    let newMappedEnd ← alignUp newBrk pageSize
    mapPagesUpTo (newMappedEnd / pageSize + 1) addr newMappedEnd
    setBrk newBrk
    pure newBrk
  else pure mm.brk

def setInitialBrk (brk : ℕ) : MmM Unit :=
  modify fun sp => { sp with mm := { sp.mm with startBrk := brk, brk := brk } }

/-- Allocate a frame, map `va` to it and record the region. -/
def mapAllocatePage (va : ℕ) (flags : PteFlags) : MmM ℕ := do
  let pa ← sys allocFrameUnwrap
  sys (zeroFrame pa)
  virtualAddress va
  let rootPt ← gets (·.mm.rootPt)
  sys (PageTable.mapVm rootPt va pa flags)
  let endAddr ← okOr (offsetBy va pageSize) Error.overflow
  insertMapping va endAddr flags
  sys (Page.add pa)
  pure pa

/-- Eight pages of user stack; returns the initial stack pointer. -/
def createUserStack : MmM ℕ := do
  let va ← foldM (fun va _ => do
    let va ← okOr (offsetBy va pageSize) Error.overflow
    let _ ← mapAllocatePage va (PteFlags.RW ||| PteFlags.U)
    pure va) (List.range 8) 0x3fff_0000
  okOr (offsetBy va ((pageSize : ℤ) - 0x60)) Error.overflow

/-- Record a page without mapping it. -/
def mapPage (va : ℕ) (flags : PteFlags) : MmM Unit := do
  let endAddr ← okOr (offsetBy va pageSize) Error.overflow
  insertMapping va endAddr flags

/-- The permissions recorded for `addr`. -/
def regionFlags (regions : List VmRegion) (addr : ℕ) : Option PteFlags :=
  match binarySearch regions addr with
  | .ok i => (regions[i]?).map VmRegion.flags
  | .error i => (regionBefore regions addr i).map VmRegion.flags

/-- Handle a page fault at `addr`: copy on write, or map a zero page. -/
def handlePageFault (addr : ℕ) (accessFlags : PteFlags) : MmM Unit := do
  let addr := alignDown addr pageSize
  let regions ← gets (·.mm.regions)
  let flags ← okOr (regionFlags regions addr) Error.unmapped
  if !flags.contains accessFlags then fail .unmapped
  else do
    let found ← translate addr
    let rootPt ← gets (·.mm.rootPt)
    if found.isSome then
      if accessFlags.contains PteFlags.W then sys (PageTable.copyOnWrite rootPt addr)
      else fail .unmapped
    else do
      let pa ← sys allocFrameUnwrap
      sys (zeroFrame pa)
      sys (PageTable.mapVm rootPt addr pa flags)
      sys (Page.add pa)

/-- Add flags to a page that is mapped. -/
def remapPage (va : ℕ) (flags : PteFlags) : MmM Unit := do
  virtualAddress va
  let rootPt ← gets (·.mm.rootPt)
  sys (PageTable.remapVm rootPt va flags)

/-- The loop of `free_kernel_stack`. -/
def freeStackPages : ℕ → ℕ → ℕ → KM Unit
  | 0, _, _ => panic .diverges
  | fuel + 1, va, top =>
      if va < top then do
        let pa ← subUsize va kernelDirectMappingBase
        freeFrame pa
        let va ← expect (offsetBy va pageSize) "called Option::unwrap() on a None value"
        freeStackPages fuel va top
      else pure ()

def freeKernelStack (self : MemoryManager) : KM Unit := do
  let stack := self.kernelStack
  if stack.guard = 0 then
    assert (self.rootPt == 0) "assertion `left == right` failed"
  else do
    freeFrame stack.guard
    freeStackPages ((stack.top - stack.bottom) / pageSize + 2) stack.bottom stack.top

/-- One turn of the loop of `free`: drop the page of a region. -/
def freeRegion (self : MemoryManager) (r : VmRegion) : KM Unit := do
  if r.start > kernelDirectMappingBase then pure ()
  else do
    virtualAddress r.start
    let found ← gets fun s => PageTable.translate s.mem self.rootPt r.start
    match found with
    | none => pure ()
    | some pa => do
        let refcount ← expectOk (Page.remove pa) "this should always exist"
        if refcount = 0 then freeFrame pa else pure ()

/-- Free all memory of the address space. -/
def free (self : MemoryManager) : KM Unit := do
  foldM (fun _ r => freeRegion self r) self.regions ()
  freeKernelStack self
  PageTable.traverseFree tableFuel self.rootPt

end MemoryManager
end Efiks.Mm

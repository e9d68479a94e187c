import Efiks.Mm.FrameAllocator
import Efiks.Mm.PageTableEntry

/-!
# Physical memory, page metadata and page tables

Physical memory is a map from frame numbers to frames of 512 words; a page table
is a frame read as entries. The kernel reaches a frame through the direct mapping,
so a table pointer of the source is a physical address here. Allocation, freeing,
the metadata table and the tables themselves are functions on `MemState`.

## Main definitions

* `MemState` — frame allocator, page metadata and physical memory.
* `Page.add`, `Page.remove` — reference counts of user frames.
* `PageTable.mapVm`, `remapVm`, `translate`, `traverseFree`, `fork`, `copyOnWrite`.
-/
namespace Efiks.Mm
open Lib Lib.RustM

/-- The contents of a frame: 512 words, named as the entries of a table. -/
abbrev Frame := Fin 512 → PageTableEntry

/-- What memory management shares between address spaces. -/
structure MemState where
  frames : FrameAllocator 64
  /-- `PAGE_METADATA_TABLE`: the reference count of a physical address. -/
  pageMeta : ℕ → Option UInt16
  /-- Physical memory by frame number. -/
  mem : ℕ → Frame

/-- Memory management code. -/
abbrev KM := RustM MemState Error

/-- `mm::PAGE_SIZE`. -/
def pageSize : ℕ := 4096

/-- The start of the direct mapping of physical memory. -/
def kernelDirectMappingBase : ℕ := 0xffff_ffd6_0000_0000
/-- The start of the kernel image. -/
def kernelImageStartVa : ℕ := 0xffff_ffff_8000_0000
def kernelImageStartPa : ℕ := 0x8000_0000

def physToVirt (phys : ℕ) : ℕ := kernelDirectMappingBase + phys
def virtToPhys (virt : ℕ) : ℕ := virt - kernelDirectMappingBase

/-- `VirtAddr::offset_by` and `PhysAddr::offset_by`: checked. -/
def offsetBy (addr : ℕ) (amount : ℤ) : Option ℕ :=
  if 0 ≤ (addr : ℤ) + amount ∧ (addr : ℤ) + amount < 2 ^ 64 then some ((addr : ℤ) + amount).toNat
  else none

section Frames

/-- Allocate a single 4k page. -/
def allocFrame : KM ℕ :=
  zoom MemState.frames (fun fa s => { s with frames := fa }) FrameAllocator.alloc

/-- Free a single 4k page. -/
def freeFrame (pa : ℕ) : KM Unit :=
  zoom MemState.frames (fun fa s => { s with frames := fa }) (FrameAllocator.free pa)

/-- `alloc_frame().unwrap()`. -/
def allocFrameUnwrap : KM ℕ := expectOk allocFrame "called Result::unwrap() on an Err value: Oom"

/-- `alloc_frame().expect("NoMem")`. -/
def allocFrameExpect : KM ℕ := expectOk allocFrame "NoMem: Oom"

/-- Overwrite frame `n`. -/
def MemState.setFrame (n : ℕ) (f : Frame) (s : MemState) : MemState :=
  { s with mem := Function.update s.mem n f }

/-- Overwrite word `i` of frame `n`. -/
def MemState.setEntry (n : ℕ) (i : Fin 512) (e : PageTableEntry) (s : MemState) : MemState :=
  s.setFrame n (Function.update (s.mem n) i e)

/-- `zero_frame(pa)`. -/
def zeroFrame (pa : ℕ) : KM Unit := modify (MemState.setFrame (pa / pageSize) fun _ => 0)

/-- `copy_nonoverlapping` of a whole frame. -/
def copyFrame (src dst : ℕ) : KM Unit :=
  modify fun s => s.setFrame (dst / pageSize) (s.mem (src / pageSize))

end Frames

namespace Page

/-- Set the metadata of `addr`. -/
def set (addr : ℕ) (c : Option UInt16) (s : MemState) : MemState :=
  { s with pageMeta := Function.update s.pageMeta addr c }

/-- `page::add`: a new entry starts at one, an old one is incremented (wrapping). -/
def add (addr : ℕ) : KM Unit := do
  let c ← gets (·.pageMeta addr)
  match c with
  | none => modify (set addr (some 1))
  | some c => modify (set addr (some (c + 1)))

/-- `page::remove`: decrement, and drop the entry at zero. -/
def remove (addr : ℕ) : KM UInt16 := do
  let c ← gets (·.pageMeta addr)
  match c with
  | none => fail .notFound
  | some c =>
      if c = 0 then panic .overflow
      else do
        modify (set addr (if c - 1 = 0 then none else some (c - 1)))
        pure (c - 1)

end Page

/-- The sizes a leaf entry can map, by level. -/
inductive PageSize
  | size4K
  | size2M
  | size1G
  deriving DecidableEq, Repr

def PageSize.bytes : PageSize → ℕ
  | .size4K => 4096
  | .size2M => 2097152
  | .size1G => 1073741824

namespace PageTable
open PageTableEntry PteFlags

/-- `pte.set_physical_address(addr)` with its alignment assertion. -/
def setPhysicalAddress (e : PageTableEntry) (addr : ℕ) : KM PageTableEntry := do
  assert (addr % 4096 == 0) "Physical address must be 4K-aligned"
  pure (e.setPhysicalAddress addr)

/-- Follow the entries of `indices` from the table in frame `table` to a leaf. -/
def walk (mem : ℕ → Frame) : List (Fin 512 × PageSize) → ℕ → Option (ℕ × Fin 512 × PageSize)
  | [], _ => none
  | (i, size) :: rest, table =>
      let pte := mem table i
      if !pte.isValid then none
      else if pte.isLeaf then some (table, i, size)
      else walk mem rest (pte.physicalAddress / pageSize)

/-- Where the leaf entry of `va` is, and the size of the page it maps. -/
def translateToPtePtr (mem : ℕ → Frame) (rootPt va : ℕ) : Option (ℕ × Fin 512 × PageSize) :=
  walk mem [(vpn2 va, .size1G), (vpn1 va, .size2M), (vpn0 va, .size4K)] (rootPt / pageSize)

/-- The physical address `va` is mapped to. -/
def translate (mem : ℕ → Frame) (rootPt va : ℕ) : Option ℕ :=
  (translateToPtePtr mem rootPt va).map fun (table, i, size) =>
    (mem table i).physicalAddress + va % size.bytes

/-- Turn entry `i` of `table` into a leaf, or add flags to a leaf. -/
def mapLeaf (table : ℕ) (i : Fin 512) (pa : Option ℕ) (flags : PteFlags) : KM Unit := do
  let pte ← gets (·.mem table i)
  if pte.isValid && !pte.isLeaf then
    panic (.explicit "trying to replace a page table with a leaf mapping")
  else if !pte.isValid then
    match pa with
    | none => panic (.explicit "trying to remap a vm with pa = None")
    | some pa => do
        let pte ← setPhysicalAddress pte pa
        modify (MemState.setEntry table i (pte.setFlags (flags ||| V ||| A ||| D)))
  else modify (MemState.setEntry table i (pte.setFlags (flags ||| V ||| A ||| D)))

/-- The table entry `i` of `table` points to, made first when the entry is empty. -/
def getOrCreateNextTable (table : ℕ) (i : Fin 512) : KM ℕ := do
  let pte ← gets (·.mem table i)
  if pte.isValid then
    if pte.isLeaf then
      panic (.explicit "trying to create a child page table under a leaf mapping")
    else pure (pte.physicalAddress / pageSize)
  else do
    let pa ← allocFrameUnwrap
    assert (isCanonical (physToVirt pa)) "called Result::unwrap() on an Err value: ()"
    zeroFrame pa
    let pte ← setPhysicalAddress newValid pa
    modify (MemState.setEntry table i pte)
    pure (pa / pageSize)

/-- `check_mapping_alignment` for a mapping with an address. -/
def checkMappingAlignment (va pa : ℕ) (size : PageSize) : KM Unit := do
  assert (va % size.bytes == 0)
    "assertion failed: va.raw() & (page_size.bytes() - 1) == 0"
  assert (pa % size.bytes == 0)
    (match size with
    | .size4K => "assertion failed: pa.is_4k_page_aligned()"
    | .size2M => "assertion failed: pa.is_2m_page_aligned()"
    | .size1G => "assertion failed: pa.is_1g_page_aligned()")

/-- Map `va` to `pa` with a page of the given size. -/
def mapMemory (rootPt va pa : ℕ) (flags : PteFlags) (size : PageSize) : KM Unit := do
  checkMappingAlignment va pa size
  match size with
  | .size1G => mapLeaf (rootPt / pageSize) (vpn2 va) (some pa) flags
  | .size2M => do
      let l1 ← getOrCreateNextTable (rootPt / pageSize) (vpn2 va)
      mapLeaf l1 (vpn1 va) (some pa) flags
  | .size4K => do
      let l1 ← getOrCreateNextTable (rootPt / pageSize) (vpn2 va)
      let l0 ← getOrCreateNextTable l1 (vpn1 va)
      mapLeaf l0 (vpn0 va) (some pa) flags

/-- `map_vm_with_page_size`: the tables are reached through the direct mapping. -/
def mapVmWithPageSize (rootPt va pa : ℕ) (flags : PteFlags) (size : PageSize) : KM Unit :=
  mapMemory rootPt va pa flags size

/-- Map a 4 KiB page. -/
def mapVm (rootPt va pa : ℕ) (flags : PteFlags) : KM Unit := mapMemory rootPt va pa flags .size4K

/-- Map a 1 GiB page. -/
def mapVm1g (rootPt va pa : ℕ) (flags : PteFlags) : KM Unit := mapMemory rootPt va pa flags .size1G

/-- Add flags to the leaf entry of `va`. -/
def remapVm (rootPt va : ℕ) (flags : PteFlags) : KM Unit := do
  let unmapped : KM Unit := panic (.explicit "trying to remap an unmapped vm")
  let l2 := rootPt / pageSize
  let e2 ← gets (·.mem l2 (vpn2 va))
  if !e2.isValid then unmapped
  else if e2.isLeaf then mapLeaf l2 (vpn2 va) none flags
  else do
    let l1 := e2.physicalAddress / pageSize
    let e1 ← gets (·.mem l1 (vpn1 va))
    if !e1.isValid then unmapped
    else if e1.isLeaf then mapLeaf l1 (vpn1 va) none flags
    else do
      let l0 := e1.physicalAddress / pageSize
      let e0 ← gets (·.mem l0 (vpn0 va))
      if !e0.isValid || !e0.isLeaf then unmapped
      else mapLeaf l0 (vpn0 va) none flags

/-- Free every table under `rootPt`, and `rootPt` itself. The recursion of the
source has no bound of its own, so it carries fuel. -/
def traverseFree : ℕ → ℕ → KM Unit
  | 0, _ => panic .diverges
  | fuel + 1, rootPt => do
      let root ← gets (·.mem (rootPt / pageSize))
      foldM (fun _ i =>
        let pte := root i
        if !pte.isValid || pte.isLeaf then pure ()
        else traverseFree fuel pte.physicalAddress) (List.finRange 512) ()
      freeFrame rootPt

/-- One turn of the loop of `fork`: `root` is the table being copied and `copy`
the copy, both frame numbers; `forkChild` copies a child table. -/
def forkEntry (forkChild : ℕ → KM ℕ) (root copy : ℕ) (i : Fin 512) : KM Unit := do
  let parentPte ← gets (·.mem root i)
  if !parentPte.isValid then pure ()
  else if parentPte.isLeaf then
    if parentPte.isUser then do
      Page.add parentPte.physicalAddress
      if parentPte.isWritable then do
        modify (MemState.setEntry root i (parentPte.unsetFlags W))
        modify fun s => s.setEntry copy i ((s.mem copy i).unsetFlags W)
      else pure ()
    else pure ()
  else do
    let pa ← forkChild parentPte.physicalAddress
    let childPte ← gets (·.mem copy i)
    let childPte ← setPhysicalAddress childPte pa
    modify (MemState.setEntry copy i childPte)

/-- Copy the tables under `rootPt`, sharing the user frames read-only. -/
def fork : ℕ → ℕ → KM ℕ
  | 0, _ => panic .diverges
  | fuel + 1, rootPt => do
      let copyPa ← allocFrameExpect
      copyFrame rootPt copyPa
      foldM (fun _ i => forkEntry (fork fuel) (rootPt / pageSize) (copyPa / pageSize) i)
        (List.finRange 512) ()
      pure copyPa

/-- Give `va` a frame of its own with the old contents, and make it writable. -/
def copyOnWrite (rootPt va : ℕ) : KM Unit := do
  let found ← gets (fun s => translateToPtePtr s.mem rootPt va)
  let (table, i, size) ← expect found "we shouldn't go into path when the page does not exist"
  if size ≠ .size4K then
    panic (.explicit ("Our kernel cannot handle CoW on pages larger than 4k as of now because " ++
      "the author is lazy."))
  else do
    let oldPa ← gets (fun s => (s.mem table i).physicalAddress)
    let newPa ← allocFrameExpect
    copyFrame oldPa newPa
    Page.add newPa
    let pte ← gets (·.mem table i)
    let pte ← setPhysicalAddress pte newPa
    modify (MemState.setEntry table i (pte.setFlags W))
    let c ← expectOk (Page.remove oldPa) "mapped user pages have metadata"
    if c = 0 then freeFrame oldPa else pure ()

end PageTable
end Efiks.Mm

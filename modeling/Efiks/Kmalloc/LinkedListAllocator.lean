import Efiks.Lib.Align
import Efiks.Lib.Bytes
import Efiks.Lib.RustM

/-!
# The linked list allocator of the kernel heap

The heap is a run of blocks, each beginning with a `Header` that records its
size, whether it is free and where the next header is. A pointer handed to a
client is preceded by a back offset word that leads from it to its header:

`[ header ][ maybe padding ][ back offset ][ data ]`

The model works on bytes: `readHeader` and the write functions fix the `repr(C)`
layout of `Header` on a 64-bit target, so a client that wrote outside its data
would damage the chain here as it would on the machine. Arithmetic is checked, as
in the documented debug build.

## Main definitions

* `LinkedListAllocator.new`, `LinkedListAllocator.alloc`,
  `LinkedListAllocator.dealloc` — the operations.
* `Step`, `Reachable` — runs of allocations, deallocations and client writes.
-/
namespace Efiks.Kmalloc
open Lib Lib.RustM

/-- `core::alloc::Layout`: the alignment is a power of two, and the size rounded
up to it does not exceed `isize::MAX`. -/
structure Layout where
  size : ℕ
  align : ℕ
  align_pow : ∃ k, align = 2 ^ k
  size_le : size + (align - 1) ≤ 2 ^ 63 - 1
  deriving DecidableEq

/-- A block header. -/
structure Header where
  sz : ℕ
  free : Bool
  next : Option ℕ
  deriving DecidableEq, Repr

/-- `size_of::<Header>()`: the size word, the flag with its padding, and the two
words of `Option<*mut Header>`. -/
def headerSize : ℕ := 32
/-- `align_of::<Header>()`. -/
def headerAlign : ℕ := 8
/-- `size_of::<usize>()`. -/
def wordSize : ℕ := 8

/-- Read the header at `h`. `Option<*mut Header>` is a tag word followed by the
pointer. -/
def readHeader (m : Mem) (h : ℕ) : Header where
  sz := m.load h 8
  free := m (h + 8) != 0
  next := if m.load (h + 16) 8 = 0 then none else some (m.load (h + 24) 8)

/-- `header.sz = sz`. -/
def writeSz (h sz : ℕ) (m : Mem) : Mem := m.store h 8 sz
/-- `header.free = free`. -/
def writeFree (h : ℕ) (free : Bool) (m : Mem) : Mem := m.store (h + 8) 1 free.toNat
/-- `header.next = next`. `None` leaves the pointer word as it was. -/
def writeNext (h : ℕ) (next : Option ℕ) (m : Mem) : Mem :=
  match next with
  | none => m.store (h + 16) 8 0
  | some p => (m.store (h + 16) 8 1).store (h + 24) 8 p
/-- `*(h as *mut Header) = hd`. The padding after the flag is not written. -/
def writeHeader (h : ℕ) (hd : Header) (m : Mem) : Mem :=
  writeNext h hd.next (writeFree h hd.free (writeSz h hd.sz m))

/-- The allocator object; its state is the memory it manages. -/
structure LinkedListAllocator where
  startAddr : ℕ
  endAddr : ℕ
  head : ℕ
  deriving DecidableEq, Repr

/-- Heap code runs on memory; `Err(())` is its only error. -/
abbrev HeapM := RustM Mem Unit

/-- `(addr + align - 1) & !(align - 1)`. -/
def alignUp (addr align : ℕ) : HeapM ℕ := do
  let x ← addUsize addr align
  let x ← subUsize x 1
  pure (maskDown x align)

namespace LinkedListAllocator

/-- One free block over the whole range. -/
def new (startAddr endAddr : ℕ) : HeapM LinkedListAllocator := do
  let firstEnd ← okOr (if startAddr + headerSize < 2 ^ 64 then some (startAddr + headerSize)
    else none) ()
  if firstEnd > endAddr then fail ()
  else if startAddr = 0 then fail ()
  else do
    let sz ← subUsize endAddr startAddr
    modify (writeSz startAddr sz)
    modify (writeFree startAddr true)
    modify (writeNext startAddr none)
    pure ⟨startAddr, endAddr, startAddr⟩

/-- Cut `allocSize` bytes off the block at `cur`, whose size was `prevSz`, or take
the whole block when the rest could not hold a header, a back offset and a byte. -/
def take (cur prevSz allocSize dataStart : ℕ) : HeapM Unit := do
  let backOffset ← subUsize dataStart cur
  let backOffsetPos ← subUsize dataStart wordSize
  let remaining ← subUsize prevSz allocSize
  let smallest ← alignUp (headerSize + wordSize + 1) headerAlign
  if remaining ≥ smallest then do
    modify (writeSz cur allocSize)
    modify (writeFree cur false)
    modify (fun m => m.store backOffsetPos wordSize backOffset)
    let next ← gets (fun m => (readHeader m cur).next)
    let nextNode ← addUsize cur allocSize
    modify (writeHeader nextNode ⟨remaining, true, next⟩)
    modify (writeNext cur (some nextNode))
  else do
    modify (writeFree cur false)
    modify (fun m => m.store backOffsetPos wordSize backOffset)

/-- The search loop of `alloc` from the header at `cur`; each turn uses one unit
of fuel. -/
def allocFrom (layout : Layout) : ℕ → ℕ → HeapM ℕ
  | 0, _ => panic .diverges
  | fuel + 1, cur => do
      assert (cur != 0) "called `Option::unwrap()` on a `None` value"
      let node ← gets (readHeader · cur)
      let afterHeader ← addUsize cur headerSize
      let afterWord ← addUsize afterHeader wordSize
      let dataStart ← alignUp afterWord layout.align
      let backOffset ← subUsize dataStart cur
      let used ← addUsize backOffset layout.size
      let allocSize ← alignUp used headerAlign
      if node.free && decide (node.sz ≥ allocSize) then do
        take cur node.sz allocSize dataStart
        pure dataStart
      else match node.next with
        | some next => allocFrom layout fuel next
        | none => panic (.explicit "kernel ran out of memory")

/-- `GlobalAlloc::alloc`. Headers are at least `headerSize` bytes apart, so the
length of the heap bounds the length of the chain. -/
def alloc (a : LinkedListAllocator) (layout : Layout) : HeapM ℕ :=
  allocFrom layout (a.endAddr - a.startAddr) a.head

/-- `ptr.byte_sub(n)`, on 64-bit addresses. -/
def byteSub (ptr n : ℕ) : ℕ := (ptr + 2 ^ 64 - n) % 2 ^ 64

/-- `GlobalAlloc::dealloc`. -/
def dealloc (_a : LinkedListAllocator) (ptr : ℕ) (_layout : Layout) : HeapM Unit := do
  let backOffsetPtr := byteSub ptr wordSize
  if backOffsetPtr = 0 then pure ()
  else do
    let backOffset ← gets (fun m => m.load backOffsetPtr wordSize)
    let header := byteSub ptr backOffset
    if header = 0 then pure ()
    else modify (writeFree header true)

end LinkedListAllocator

/-- Memory and the allocations clients still hold. -/
structure HeapState where
  mem : Mem
  live : List (ℕ × Layout)

/-- What can happen to a heap: an `alloc` that returns, a `dealloc` of a live
pointer, and a client storing one byte inside its own data. -/
inductive Step (a : LinkedListAllocator) (s : HeapState) : HeapState → Prop
  | alloc {layout p m'} (h : a.alloc layout s.mem = .ok p m') :
      Step a s ⟨m', (p, layout) :: s.live⟩
  | dealloc {p layout before after m'} (hlive : s.live = before ++ (p, layout) :: after)
      (h : a.dealloc p layout s.mem = .ok () m') :
      Step a s ⟨m', before ++ after⟩
  | write {p layout x b} (hlive : (p, layout) ∈ s.live) (hx : p ≤ x) (hx' : x < p + layout.size) :
      Step a s ⟨Function.update s.mem x b, s.live⟩

/-- The states a heap can get into after `new`. -/
inductive Reachable (a : LinkedListAllocator) (m : Mem) : HeapState → Prop
  | init : Reachable a m ⟨m, []⟩
  | step {s s'} (h : Reachable a m s) (hs : Step a s s') : Reachable a m s'

end Efiks.Kmalloc

import Efiks.Lib.Align
import Efiks.Lib.Bytes

/-!
# The virtqueue in memory

A split virtqueue is three areas in one block of memory: a table of 16 descriptors, the
ring of available entries, which the driver writes, and the ring of used ones, which the
device writes. `init` lays them out one after the other in a block of 4096 bytes. The
block comes from the heap as it is: its bytes are whatever was there before.

Addresses are physical. The driver reaches them through the direct mapping, where
`virt_to_phys` is a subtraction.

## Main definitions

* `Queue`, `init` — the three areas.
* `Descriptor`, `Header` — records in memory, with `put` and reading back.
* `availIdx`, `availRing`, `usedIdx` — the fields of the rings.
-/
namespace Efiks.Driver
open Lib

def queueSize : ℕ := 16

/-- `size_of::<Descriptor>()` and `size_of::<AvailableRing<QUEUE_SIZE>>()`. -/
def descriptorSize : ℕ := 16
def availableRingSize : ℕ := 36

/-- The areas of the queue. -/
structure Queue where
  desc : ℕ
  avail : ℕ
  used : ℕ

/-- `align_up` on the small offsets used here. -/
def alignUp (addr align : ℕ) : ℕ := maskDown (addr + align - 1) align

/-- The address and the offset of an area; nothing if the assertion on the alignment fails. -/
def saveToVirtqueue (virtqueueBase alignmentBase align : ℕ) : Option (ℕ × ℕ) :=
  let offset := alignUp alignmentBase align
  let ptr := virtqueueBase + offset
  if ptr % align = 0 then some (ptr, offset) else none

/-- The part of `init` that lays out the queue in the block at `base`. -/
def init (base : ℕ) : Option Queue := do
  let (desc, descStart) ← saveToVirtqueue base 0 16
  let (avail, availStart) ← saveToVirtqueue base (descStart + descriptorSize * queueSize) 2
  let (used, _) ← saveToVirtqueue base (availStart + availableRingSize) 4
  some ⟨desc, avail, used⟩

/-- The block is aligned as its layout asks, so the areas are. -/
theorem init_eq {base : ℕ} (h : base % 16 = 0) :
    init base = some ⟨base, base + 256, base + 292⟩ := by
  have hdesc : saveToVirtqueue base 0 16 = some (base, 0) := by
    have hoff : alignUp 0 16 = 0 := by decide
    rw [saveToVirtqueue, hoff, Nat.add_zero, if_pos h]
  have havail : saveToVirtqueue base (0 + descriptorSize * queueSize) 2 = some (base + 256, 256) := by
    have hoff : alignUp (0 + descriptorSize * queueSize) 2 = 256 := by decide
    rw [saveToVirtqueue, hoff, if_pos (by omega)]
  have hused : saveToVirtqueue base (256 + availableRingSize) 4 = some (base + 292, 292) := by
    have hoff : alignUp (256 + availableRingSize) 4 = 292 := by decide
    rw [saveToVirtqueue, hoff, if_pos (by omega)]
  simp only [init, hdesc, havail, hused, Option.bind_eq_bind, Option.bind_some]

theorem eq_of_init {base : ℕ} {q : Queue} (h : init base = some q) :
    q = ⟨base, base + 256, base + 292⟩ := by
  by_cases hbase : base % 16 = 0
  · rw [init_eq hbase] at h
    exact (Option.some.inj h).symm
  · have hdesc : saveToVirtqueue base 0 16 = none := by
      have hoff : alignUp 0 16 = 0 := by decide
      rw [saveToVirtqueue, hoff, Nat.add_zero, if_neg hbase]
    simp [init, hdesc] at h

/-! ## Records -/

/-- A descriptor; the flags are `NEXT` (1), `WRITE` (2) and `INDIRECT` (4). -/
structure Descriptor where
  addr : ℕ
  len : ℕ
  flags : ℕ
  next : ℕ
  deriving DecidableEq

/-- The header of a block request. -/
structure Header where
  ty : ℕ
  sector : ℕ
  deriving DecidableEq

def descriptorAt (m : Mem) (a : ℕ) : Descriptor :=
  ⟨m.load a 8, m.load (a + 8) 4, m.load (a + 12) 2, m.load (a + 14) 2⟩

def putDescriptor (m : Mem) (a : ℕ) (d : Descriptor) : Mem :=
  (((m.store a 8 d.addr).store (a + 8) 4 d.len).store (a + 12) 2 d.flags).store (a + 14) 2 d.next

def headerAt (m : Mem) (a : ℕ) : Header := ⟨m.load a 4, m.load (a + 8) 8⟩

/-- The reserved word between type and sector is zero. -/
def putHeader (m : Mem) (a : ℕ) (h : Header) : Mem :=
  ((m.store a 4 h.ty).store (a + 4) 4 0).store (a + 8) 8 h.sector

/-! ## Rings -/

def availIdx (m : Mem) (q : Queue) : ℕ := m.load (q.avail + 2) 2
def availRing (m : Mem) (q : Queue) (slot : ℕ) : ℕ := m.load (q.avail + 4 + 2 * slot) 2
def usedIdx (m : Mem) (q : Queue) : ℕ := m.load (q.used + 2) 2

/-- Offer the chain that starts at descriptor `head`: the ring first, then the index. -/
def putAvail (m : Mem) (q : Queue) (head : ℕ) : Mem :=
  let slot := availIdx m q % queueSize
  (m.store (q.avail + 4 + 2 * slot) 2 head).store (q.avail + 2) 2 ((availIdx m q + 1) % 2 ^ 16)

/-- The device's entry for a finished chain, and its new index. -/
def putUsed (m : Mem) (q : Queue) (idx head len : ℕ) : Mem :=
  let slot := idx % queueSize
  ((m.store (q.used + 4 + 8 * slot) 4 head).store (q.used + 8 + 8 * slot) 4 len).store
    (q.used + 2) 2 ((idx + 1) % 2 ^ 16)

/-! ## Reading back -/

section Records
variable {m w : Mem} {a b : ℕ}

theorem descriptorAt_congr (h : ∀ x, a ≤ x → x < a + 16 → m x = w x) :
    descriptorAt m a = descriptorAt w a := by
  rw [descriptorAt, descriptorAt, Mem.load_congr fun x hx hx' => h x hx (by omega),
    Mem.load_congr (a := a + 8) fun x hx hx' => h x (by omega) (by omega),
    Mem.load_congr (a := a + 12) fun x hx hx' => h x (by omega) (by omega),
    Mem.load_congr (a := a + 14) fun x hx hx' => h x (by omega) (by omega)]

theorem headerAt_congr (h : ∀ x, a ≤ x → x < a + 16 → m x = w x) :
    headerAt m a = headerAt w a := by
  rw [headerAt, headerAt, Mem.load_congr fun x hx hx' => h x hx (by omega),
    Mem.load_congr (a := a + 8) fun x hx hx' => h x (by omega) (by omega)]

theorem putDescriptor_of_notMem {d : Descriptor} {x : ℕ} (h : x < a ∨ a + 16 ≤ x) :
    putDescriptor m a d x = m x := by
  rw [putDescriptor, Mem.store_of_notMem (by omega), Mem.store_of_notMem (by omega),
    Mem.store_of_notMem (by omega), Mem.store_of_notMem (by omega)]

theorem putHeader_of_notMem {h : Header} {x : ℕ} (hx : x < a ∨ a + 16 ≤ x) :
    putHeader m a h x = m x := by
  rw [putHeader, Mem.store_of_notMem (by omega), Mem.store_of_notMem (by omega),
    Mem.store_of_notMem (by omega)]

/-- The values fit their fields. -/
def Descriptor.Fits (d : Descriptor) : Prop :=
  d.addr < 2 ^ 64 ∧ d.len < 2 ^ 32 ∧ d.flags < 2 ^ 16 ∧ d.next < 2 ^ 16

theorem descriptorAt_put {d : Descriptor} (h : d.Fits) :
    descriptorAt (putDescriptor m a d) a = d := by
  obtain ⟨haddr, hlen, hflags, hnext⟩ := h
  rw [descriptorAt, putDescriptor, Mem.load_store_same, Mem.load_store_of_disjoint (by omega),
    Mem.load_store_of_disjoint (by omega), Mem.load_store_of_disjoint (by omega),
    Mem.load_store_same, Mem.load_store_of_disjoint (by omega),
    Mem.load_store_of_disjoint (by omega), Mem.load_store_same,
    Mem.load_store_of_disjoint (by omega), Mem.load_store_same, Nat.mod_eq_of_lt (by omega),
    Nat.mod_eq_of_lt (by omega), Nat.mod_eq_of_lt (by omega), Nat.mod_eq_of_lt (by omega)]

theorem descriptorAt_put_of_disjoint {d : Descriptor} (h : a + 16 ≤ b ∨ b + 16 ≤ a) :
    descriptorAt (putDescriptor m b d) a = descriptorAt m a :=
  descriptorAt_congr fun _ _ _ => putDescriptor_of_notMem (by omega)

theorem headerAt_put {h : Header} (hty : h.ty < 2 ^ 32) (hsector : h.sector < 2 ^ 64) :
    headerAt (putHeader m a h) a = h := by
  rw [headerAt, putHeader, Mem.load_store_same, Mem.load_store_of_disjoint (by omega),
    Mem.load_store_of_disjoint (by omega), Mem.load_store_same, Nat.mod_eq_of_lt (by omega),
    Nat.mod_eq_of_lt (by omega)]

end Records

end Efiks.Driver

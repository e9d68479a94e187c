import Efiks.Driver.Virtqueue

/-!
# The block driver and its device

The driver has one request at a time. It writes the header, the status byte and three
descriptors, offers the chain in the available ring and notifies the device; then it
waits until the used index differs from the last one it saw, and returns the status byte.

The device runs on its own. Once notified it serves the entries from its own index up to
the available index, one after the other: it follows the chain, moves the 512 bytes
between the data buffer and its sectors, writes the status and advances the used index.
Which requests fail is up to the device; a failed one moves no data.

The rest of the kernel may write anything anywhere, except the queue and the buffers of
the request under way.

## Main definitions

* `Request`, `prepare`, `publish` — the driver up to the notification.
* `Device.serve` — one chain.
* `System`, `Step`, `Runs` — driver, device and the rest of the kernel.
-/
namespace Efiks.Driver
open Lib

/-- `VirtioBlkReqType`: `In` reads a sector, `Out` writes one. -/
inductive ReqType
  | input
  | output
  deriving DecidableEq

def ReqType.code : ReqType → ℕ
  | .input => 0
  | .output => 1

/-- A call of `read_sector` or `write_sector`: the sector, and where the header, the caller's
buffer and the status byte are. -/
structure Request where
  ty : ReqType
  sector : ℕ
  header : ℕ
  data : ℕ
  status : ℕ

/-- `x` lies in one of the buffers of the request. -/
def Request.Owns (r : Request) (x : ℕ) : Prop :=
  (r.header ≤ x ∧ x < r.header + 16) ∨ (r.data ≤ x ∧ x < r.data + 512) ∨ x = r.status

/-- The header and the status are new boxes and the buffer belongs to the caller: they are
apart from each other and from the block of the queue. -/
structure Request.Placed (r : Request) (base : ℕ) : Prop where
  sector_lt : r.sector < 2 ^ 64
  header_le : r.header + 16 ≤ 2 ^ 64
  data_le : r.data + 512 ≤ 2 ^ 64
  status_lt : r.status < 2 ^ 64
  header_data : r.header + 16 ≤ r.data ∨ r.data + 512 ≤ r.header
  header_status : r.status < r.header ∨ r.header + 16 ≤ r.status
  data_status : r.status < r.data ∨ r.data + 512 ≤ r.status
  header_queue : r.header + 16 ≤ base ∨ base + 4096 ≤ r.header
  data_queue : r.data + 512 ≤ base ∨ base + 4096 ≤ r.data
  status_queue : r.status < base ∨ base + 4096 ≤ r.status

/-! ## Driver -/

/-- The descriptors of a request. -/
def Request.headerDesc (r : Request) : Descriptor := ⟨r.header, 16, 1, 1⟩
def Request.dataDesc (r : Request) : Descriptor :=
  ⟨r.data, 512, match r.ty with | .input => 3 | .output => 1, 2⟩
def Request.statusDesc (r : Request) : Descriptor := ⟨r.status, 1, 2, 0⟩

/-- `read` and `write` up to `operate`: the boxes, then the descriptors. -/
def prepare (m : Mem) (q : Queue) (r : Request) : Mem :=
  let m := putHeader m r.header ⟨r.ty.code, r.sector⟩
  let m := m.store r.status 1 0xff
  let m := putDescriptor m q.desc r.headerDesc
  let m := putDescriptor m (q.desc + descriptorSize) r.dataDesc
  putDescriptor m (q.desc + 2 * descriptorSize) r.statusDesc

/-- The first half of `operate`: offer the chain at descriptor 0. -/
def publish (m : Mem) (q : Queue) : Mem := putAvail m q 0

/-- The bytes of a buffer. -/
def bytesAt (m : Mem) (a n : ℕ) : List UInt8 := (List.range n).map fun i => m (a + i)

/-! ## Device -/

/-- A request as it was carried out. -/
structure Transfer where
  ty : ℕ
  sector : ℕ
  status : UInt8
  data : List UInt8

/-- The contents of the sectors. -/
abbrev Sectors := ℕ → ℕ → UInt8

structure Device where
  availIdx : ℕ
  usedIdx : ℕ
  notified : Bool
  sectors : Sectors
  /-- The requests served so far. -/
  served : List Transfer

/-- The chain is a header, a buffer in the right direction and a status byte. -/
def chainOk (header data status : Descriptor) (ty : ℕ) : Bool :=
  header.len == 16 && header.flags == 1 && data.len == 512 &&
    data.flags == (if ty = 0 then 3 else 1) && status.len == 1 && status.flags == 2

/-- The status of a request: `S_OK`, `S_IOERR` or `S_UNSUPP`. -/
def requestStatus (ty : ℕ) (chain fails : Bool) : UInt8 :=
  if ty > 1 then 2 else if chain && !fails then 0 else 1

/-- Serve the next available entry. `fails n` says whether the `n`-th request fails. -/
def Device.serve (fails : ℕ → Bool) (q : Queue) (dev : Device) (m : Mem) : Device × Mem :=
  let head := availRing m q (dev.availIdx % queueSize)
  let hd := descriptorAt m (q.desc + descriptorSize * head)
  let dd := descriptorAt m (q.desc + descriptorSize * hd.next)
  let sd := descriptorAt m (q.desc + descriptorSize * dd.next)
  let header := headerAt m hd.addr
  let status := requestStatus header.ty (chainOk hd dd sd header.ty) (fails dev.served.length)
  let moved := if status = 0 ∧ header.ty = 0 then m.blit dd.addr 512 (dev.sectors header.sector)
    else m
  let sectors := if status = 0 ∧ header.ty = 1
    then Function.update dev.sectors header.sector fun i => m (dd.addr + i) else dev.sectors
  let done := moved.store sd.addr 1 status.toNat
  let written := if header.ty = 0 then 513 else 1
  ({ dev with
      availIdx := (dev.availIdx + 1) % 2 ^ 16
      usedIdx := (dev.usedIdx + 1) % 2 ^ 16
      sectors := sectors
      served := dev.served ++ [⟨header.ty, header.sector, status, bytesAt moved dd.addr 512⟩] },
    putUsed done q dev.usedIdx head written)

/-! ## The system -/

/-- Where the driver is. -/
inductive Phase
  | idle
  /-- The descriptors are written. -/
  | prepared (r : Request)
  /-- The available index is advanced. -/
  | published (r : Request)
  /-- The device is notified, the driver spins. -/
  | waiting (r : Request)
  /-- The driver saw a new used index. -/
  | acquired (r : Request)

/-- The request under way. -/
def Phase.request : Phase → Option Request
  | .idle => none
  | .prepared r | .published r | .waiting r | .acquired r => some r

structure System where
  mem : Mem
  lastUsedIdx : ℕ
  phase : Phase
  dev : Device
  /-- What the calls returned. -/
  results : List Transfer

/-- The system before the first call: the driver and the device start at index 0. -/
def start (m : Mem) (sectors : Sectors) : System where
  mem := m
  lastUsedIdx := 0
  phase := .idle
  dev := ⟨0, 0, false, sectors, []⟩
  results := []

/-- Only the driver and the device write these. -/
def System.Kept (base : ℕ) (σ : System) (x : ℕ) : Prop :=
  (base ≤ x ∧ x < base + 4096) ∨ ∃ r, σ.phase.request = some r ∧ r.Owns x

/-- One step of the driver, the device or the rest of the kernel. -/
inductive Step (fails : ℕ → Bool) (base : ℕ) (q : Queue) : System → System → Prop
  | call {σ : System} {r : Request} : σ.phase = .idle → r.Placed base →
      Step fails base q σ { σ with phase := .prepared r, mem := prepare σ.mem q r }
  | publish {σ : System} {r : Request} : σ.phase = .prepared r →
      Step fails base q σ { σ with phase := .published r, mem := publish σ.mem q }
  | notify {σ : System} {r : Request} : σ.phase = .published r →
      Step fails base q σ { σ with phase := .waiting r, dev := { σ.dev with notified := true } }
  | acquire {σ : System} {r : Request} : σ.phase = .waiting r → usedIdx σ.mem q ≠ σ.lastUsedIdx →
      Step fails base q σ { σ with phase := .acquired r }
  | finish {σ : System} {r : Request} : σ.phase = .acquired r →
      Step fails base q σ { σ with
        phase := .idle
        lastUsedIdx := usedIdx σ.mem q
        results := σ.results ++
          [⟨r.ty.code, r.sector, σ.mem r.status, bytesAt σ.mem r.data 512⟩] }
  | serve {σ : System} : σ.dev.notified = true → σ.dev.availIdx ≠ availIdx σ.mem q →
      Step fails base q σ { σ with
        dev := (σ.dev.serve fails q σ.mem).1
        mem := (σ.dev.serve fails q σ.mem).2 }
  | rest {σ : System} : σ.dev.notified = true → σ.dev.availIdx = availIdx σ.mem q →
      Step fails base q σ { σ with dev := { σ.dev with notified := false } }
  | other {σ : System} {m : Mem} : (∀ x, σ.Kept base x → m x = σ.mem x) →
      Step fails base q σ { σ with mem := m }

/-- Everything the system can do from `σ`. -/
def Runs (fails : ℕ → Bool) (base : ℕ) (q : Queue) : System → System → Prop :=
  Relation.ReflTransGen (Step fails base q)

end Efiks.Driver

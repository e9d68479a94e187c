import Efiks.Lib.Bytes
import Efiks.Lib.Checked
import Efiks.Mm.Machine

/-!
# Access to user memory from the kernel

System calls read and write the memory of their caller through the addresses they are
given. They run in supervisor mode with `SUM` set, on the page table of the caller: an
access succeeds when the entry it finds has the flag of the access, whether the page
belongs to user mode or not. Otherwise it traps, and `task::on_page_fault` either makes
the page accessible, and the access is tried again, or ends the task.

`UserBuf`, `UserBufMut` and `UserPtr` hold an address and nothing else, so they are
addresses here. Every physical address answers.

The run of a call keeps the copies into user memory it made and the stores it executed
for them. A panic ends the kernel, but the stores before it have happened: it is one of
the ways to stop.

## Main definitions

* `Machine.kernelAccess` — what supervisor mode reaches.
* `World`, `SysM` — the state of a system call, and computations on it.
* `copyIntoUser`, `copyFromUser`, `copyFromUserUntil`, `copyFromUserManyUntil`.
-/
namespace Efiks

/-- The physical address supervisor mode reaches at `va`. -/
def Mm.Machine.kernelAccess (σ : Machine) (p va : ℕ) (access : PteFlags) : Option ℕ :=
  if isCanonical va then
    match PageTable.translateToPtePtr σ.sys.mem (σ.proc p).mm.rootPt va with
    | some (table, i, size) =>
        let pte := σ.sys.mem table i
        if (entryFlags pte).contains access then some (pte.physicalAddress + va % size.bytes)
        else none
    | none => none
  else none

namespace Syscall
open Lib Lib.RustM Mm

/-- `efiks_types::Errno`. -/
inductive Errno
  | eNoEnt
  | eIo
  | eNoExec
  | eBadF
  | eChild
  | eNoMem
  | eFault
  | eBusy
  | eExist
  | eInval
  | eSPipe
  | eNoTty
  | eNoSys
  | eOverflow
  deriving DecidableEq, Repr

/-- `Errno as isize`. -/
def Errno.code : Errno → ℤ
  | .eNoEnt => 2
  | .eIo => 5
  | .eNoExec => 8
  | .eBadF => 9
  | .eChild => 10
  | .eNoMem => 12
  | .eFault => 14
  | .eBusy => 16
  | .eExist => 17
  | .eInval => 22
  | .eSPipe => 29
  | .eNoTty => 25
  | .eNoSys => 38
  | .eOverflow => 75

/-- `Into::<Errno>::into` of the errors the lower layers return. -/
def errnoOf : Error → Errno
  | .oom => .eNoMem
  | .overflow => .eOverflow
  | .unmapped => .eFault
  | .notFound => .eNoEnt
  | .unaligned => .eInval
  | .errno .eNoEnt => .eNoEnt
  | .errno .eIo => .eIo
  | .errno .eNoExec => .eNoExec
  | .errno .eBusy => .eBusy
  | .errno .eOverflow => .eOverflow

/-- How a system call stops without a value. -/
inductive Stop
  | err (e : Errno)
  /-- The task has ended. -/
  | ended
  | halted
  | panicked (p : Panic)
  deriving DecidableEq

/-- A call of `copy_into_user`. -/
structure Copy where
  addr : ℕ
  bytes : List UInt8

/-- A store that was executed: the machine before it, where it went, and the byte. -/
structure Store where
  before : Machine
  va : ℕ
  pa : ℕ
  byte : UInt8

def Store.after (e : Store) : Machine := { e.before with sys := e.before.sys.writeByte e.pa e.byte }

/-- The state of a system call. The files, the tasks and whatever else the kernel keeps
are `κ`. -/
structure World (κ : Type) where
  machine : Machine
  rest : κ
  copies : List Copy
  stores : List Store

/-- Computations of a system call. -/
abbrev SysM (κ : Type) := RustM (World κ) Stop

variable {κ α : Type}

/-- Code of the kernel below the system calls. -/
def service (m : RustM (Machine × κ) Errno α) : SysM κ α :=
  embed (fun w => (w.machine, w.rest)) (fun s w => { w with machine := s.1, rest := s.2 })
    .err .panicked m

def onMachine (m : MachineM α) : SysM κ α :=
  embed World.machine (fun σ w => { w with machine := σ }) (fun e => .err (errnoOf e)) .panicked m

/-- `a + b` on addresses, checked. -/
def addAddr (a b : ℕ) : SysM κ ℕ :=
  if a + b < 2 ^ 64 then pure (a + b) else fail (.panicked .overflow)

/-- How often an access is tried: the handler makes the page accessible the first time. -/
def accessFuel : ℕ := 2

/-- Where an access goes, after the faults it takes. -/
def reach (p va : ℕ) (access : PteFlags) : ℕ → SysM κ ℕ
  | 0 => fail (.panicked .diverges)
  | fuel + 1 => do
      let found ← gets fun w => w.machine.kernelAccess p va access
      match found with
      | some pa => pure pa
      | none => do
          let ev ← onMachine (Machine.onPageFault p va access)
          if ev = .killed then fail .ended else reach p va access fuel

def loadByte (p va : ℕ) : SysM κ UInt8 := do
  let pa ← reach p va PteFlags.R accessFuel
  gets fun w => w.machine.sys.readByte pa

/-- The store instruction, with a record of it. -/
def execStore (va pa : ℕ) (b : UInt8) (w : World κ) : World κ :=
  let e : Store := ⟨w.machine, va, pa, b⟩
  { w with machine := e.after, stores := w.stores ++ [e] }

def storeByte (p va : ℕ) (b : UInt8) : SysM κ Unit := do
  let pa ← reach p va PteFlags.W accessFuel
  modify (execStore va pa b)

/-- The loop of `copy_into_user`, from the address of its next byte on. -/
def storeBytes (p addr : ℕ) : List UInt8 → ℕ → SysM κ Unit
  | [], _ => pure ()
  | b :: bs, i => do
      let va ← addAddr addr i
      storeByte p va b
      storeBytes p addr bs (i + 1)

/-- `UserBufMut::copy_into_user` and, with the bytes of a value, `UserPtr::copy_into_user`. -/
def copyIntoUser (p addr : ℕ) (src : List UInt8) : SysM κ Unit := do
  modify fun w => { w with copies := w.copies ++ [⟨addr, src⟩] }
  storeBytes p addr src 0

/-- The loop of `UserBuf::copy_from_user_until` over a buffer with room for `n` more bytes:
what was read before the byte that stops it, or nothing when the buffer is full. -/
def copyFromUserUntil (p addr : ℕ) (shouldStop : UInt8 → Bool) :
    ℕ → ℕ → List UInt8 → SysM κ (Option (List UInt8))
  | 0, _, _ => pure none
  | n + 1, i, read => do
      let va ← addAddr addr i
      let b ← loadByte p va
      if shouldStop b then pure (some read)
      else copyFromUserUntil p addr shouldStop n (i + 1) (read ++ [b])

/-- `copy_from_user` of `n` bytes. -/
def copyFromUser (p addr : ℕ) : ℕ → ℕ → List UInt8 → SysM κ (List UInt8)
  | 0, _, read => pure read
  | n + 1, i, read => do
      let va ← addAddr addr i
      let b ← loadByte p va
      copyFromUser p addr n (i + 1) (read ++ [b])

/-- `UserPtr::<u8>::copy_from_user_many_until`: the predicate loads the byte, and then it
is loaded once more. -/
def copyFromUserManyUntil (p : ℕ) (shouldStop : UInt8 → Bool) :
    ℕ → ℕ → List UInt8 → SysM κ (Option (List UInt8))
  | 0, _, _ => pure none
  | n + 1, cur, read => do
      let item ← loadByte p cur
      if shouldStop item then pure (some read)
      else do
        let b ← loadByte p cur
        let next ← addAddr cur 1
        copyFromUserManyUntil p shouldStop n next (read ++ [b])

/-- The bytes of an integer of `n` bytes. -/
def bytesOf (n v : ℕ) : List UInt8 := (List.range n).map (Mem.digit v)

/-- The integer with the given bytes. -/
def ofBytes : List UInt8 → ℕ
  | [] => 0
  | b :: bs => b.toNat + 256 * ofBytes bs

/-- The `usize` with the given bytes. -/
def usizeOf (bs : List UInt8) : ℕ := ofBytes bs % 2 ^ 64

theorem usizeOf_lt (bs : List UInt8) : usizeOf bs < 2 ^ 64 := Nat.mod_lt _ (by norm_num)

end Syscall
end Efiks

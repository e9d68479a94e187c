import Efiks.Syscall.UserMemory
import Efiks.Vfs.Error

/-!
# The system calls

`dispatch_syscall` decodes the registers of the caller, runs the call with that number and
leaves its result, or a negative error number, in `a0`.

The files, the tasks and the scheduler are below the system calls: `Services` has the
functions they offer, for the task that made the call.

## Main definitions

* `Services`, `TrapFrame`.
* `sysOpen`, `sysRead`, `sysWrite`, `sysReadv`, `sysWritev`, `sysWait`, `sysSpawn`, …
* `dispatchSyscall`.
-/
namespace Efiks.Syscall
open Lib Lib.RustM Mm Vfs

/-- What the system calls of a task use of the rest of the kernel. -/
structure Services (κ : Type) where
  /-- `file_table.get_file(fd)` finds a file. -/
  hasFile : κ → ℕ → Bool
  /-- `file_table.close_file(fd)`, and whether there was a file. -/
  closeFile : ℕ → RustM (Machine × κ) Errno Bool
  addFile : ℕ → RustM (Machine × κ) Errno ℕ
  /-- `vfs::open`, with a name for the file. -/
  openFile : List UInt8 → RustM (Machine × κ) Errno (Except VfsError ℕ)
  createFile : List UInt8 → RustM (Machine × κ) Errno (Except VfsError ℕ)
  /-- `Vec::resize` to the given length. -/
  reserve : ℕ → RustM (Machine × κ) Errno Unit
  /-- What `File::read` puts into a buffer of the given length. -/
  readFile : ℕ → ℕ → RustM (Machine × κ) Errno (List UInt8)
  writeFile : ℕ → List UInt8 → RustM (Machine × κ) Errno ℕ
  /-- `task::exit` of the caller. -/
  exit : ℤ → RustM (Machine × κ) Errno Unit
  readCurrentTime : κ → ℕ
  /-- Put the caller to sleep until the given time. -/
  sleepUntil : ℕ → RustM (Machine × κ) Errno Unit
  fork : RustM (Machine × κ) Errno ℕ
  wait : RustM (Machine × κ) Errno (ℕ × UInt8)
  spawn : List UInt8 → List (List UInt8) → RustM (Machine × κ) Errno ℕ

/-- The registers `a0` to `a7` of the caller. -/
structure TrapFrame where
  a : Fin 8 → UInt64

def TrapFrame.getArg (tf : TrapFrame) (i : Fin 8) : ℕ := (tf.a i).toNat

def TrapFrame.getSyscall (tf : TrapFrame) : ℕ := tf.getArg 7

/-- `ret as usize` into `a0`. -/
def TrapFrame.setSyscallReturnValue (tf : TrapFrame) (ret : ℤ) : TrapFrame :=
  ⟨Function.update tf.a 0 (UInt64.ofNat (ret % 2 ^ 64).toNat)⟩

variable {κ α : Type}

/-- `Err(e)`. -/
def refuse (e : Errno) : SysM κ α := fail (.err e)

/-- `get_arg_as` for a type whose largest value is `max`. -/
def argUpTo (tf : TrapFrame) (i : Fin 8) (max : ℕ) : SysM κ ℕ :=
  if tf.getArg i ≤ max then pure (tf.getArg i) else refuse .eInval

/-- `UserBuf::new(addr).ok_or(Error::InvalidArgs)?`. -/
def userBuf (addr : ℕ) : SysM κ ℕ := if addr ≠ 0 then pure addr else refuse .eInval

/-- `UserPtr::offset(1)` for elements of `size` bytes. -/
def offsetOne (addr size : ℕ) : Option ℕ := if addr + size < 2 ^ 64 then some (addr + size) else none

/-- The result of a call as a value. -/
def result (m : SysM κ α) : SysM κ (Except Errno α) :=
  catchErr (Except.ok <$> m) fun stop =>
    match stop with
    | .err e => pure (.error e)
    | .ended => fail .ended
    | .halted => fail .halted
    | .panicked q => fail (.panicked q)

namespace OpenFlags

/-- The bits `Flags::from_bits` knows. -/
def all : BitVec 32 := 0o37777703

def creat : BitVec 32 := 0o100
def excl : BitVec 32 := 0o200

end OpenFlags

/-- `vfs::MAX_FILE_PATH_LENGTH`. -/
def maxFilePathLength : ℕ := 255

/-- `Arch::CPU_HERTZ`. -/
def cpuHertz : ℕ := 10_000_000

section Calls
variable (svc : Services κ) (p : ℕ)

def sysOpen (path flags : ℕ) : SysM κ ℕ := do
  let flags := BitVec.ofNat 32 flags
  if flags &&& ~~~OpenFlags.all ≠ 0 then refuse .eInval
  else do
    let read ← copyFromUserUntil p path (· == 0) maxFilePathLength 0 []
    let kpath ← okOr read (.err .eInval)
    if kpath = [] then refuse .eInval
    else do
      let opened ← service (svc.openFile kpath)
      match opened with
      | .ok file =>
          if flags &&& (OpenFlags.creat ||| OpenFlags.excl) = OpenFlags.creat ||| OpenFlags.excl then
            refuse .eExist
          else service (svc.addFile file)
      | .error .notFound =>
          if flags &&& OpenFlags.creat ≠ OpenFlags.creat then refuse .eNoEnt
          else do
            let created ← service (svc.createFile kpath)
            match created with
            | .ok file => service (svc.addFile file)
            | .error e => refuse (errnoOf e.into)
      | .error e => refuse (errnoOf e.into)

def sysClose (fd : ℕ) : SysM κ Unit := do
  let found ← service (svc.closeFile fd)
  if found then pure () else refuse .eBadF

def sysRead (fd buf count : ℕ) : SysM κ ℕ := do
  if count = 0 then pure 0
  else do
    let found ← gets fun w => svc.hasFile w.rest fd
    if !found then refuse .eNoEnt
    else do
      service (svc.reserve count)
      let kbuf ← service (svc.readFile fd count)
      copyIntoUser p buf kbuf
      pure kbuf.length

def sysWrite (fd buf count : ℕ) : SysM κ ℕ := do
  if count = 0 then pure 0
  else do
    let found ← gets fun w => svc.hasFile w.rest fd
    if !found then refuse .eNoEnt
    else do
      service (svc.reserve count)
      let kbuf ← copyFromUser p buf count 0 []
      service (svc.writeFile fd kbuf)

/-- `size_of::<IoVecIn>()`. -/
def ioVecSize : ℕ := 16

/-- The loop of `sys_readv` and `sys_writev`, with `len` vectors to go and `done` bytes moved:
`move` is the call made for each of them. -/
def vectorLoop (move : ℕ → ℕ → SysM κ ℕ) : ℕ → ℕ → ℕ → SysM κ ℕ
  | 0, _, done => pure done
  | len + 1, ioVec, done => do
      let kvec ← copyFromUser p ioVec ioVecSize 0 []
      let base := usizeOf (kvec.take 8)
      let requested := usizeOf (kvec.drop 8)
      let moved ← result (move base requested)
      match moved with
      | .error e => if done ≠ 0 then pure done else refuse e
      | .ok n =>
          if 2 ^ 64 ≤ done + n then refuse .eOverflow
          else if n < requested ∨ len = 0 then pure (done + n)
          else do
            let next ← okOr (offsetOne ioVec ioVecSize) (.err .eInval)
            vectorLoop move len next (done + n)

def sysReadv (fd ioVec len : ℕ) : SysM κ ℕ := vectorLoop p (sysRead svc p fd) len ioVec 0

def sysWritev (fd ioVec len : ℕ) : SysM κ ℕ := vectorLoop p (sysWrite svc p fd) len ioVec 0

def sysExit (exitCode : ℤ) : SysM κ α := do
  service (svc.exit exitCode)
  fail .ended

/-- `nanos_to_ticks`. -/
def nanosToTicks (nanos : ℕ) : SysM κ ℕ :=
  if nanos * cpuHertz < 2 ^ 64 then pure (nanos * cpuHertz / 1_000_000_000)
  else fail (.panicked .overflow)

/-- `sched::sleep_current_task`. -/
def sysSleepMs (timeMs : ℕ) : SysM κ Unit := do
  let now ← gets fun w => svc.readCurrentTime w.rest
  let nanos := if timeMs * 1_000_000 < 2 ^ 64 then timeMs * 1_000_000 else 0
  let ticks ← nanosToTicks nanos
  let wakeUpAt := if now + ticks < 2 ^ 64 then now + ticks else 0
  service (svc.sleepUntil wakeUpAt)

def sysBrk (brk : ℕ) : SysM κ ℕ := onMachine (Machine.onSpace p (MemoryManager.doBrk brk))

/-- `WaitStatus::Exited(exit_code).into()`. -/
def rawWaitStatus (exitCode : UInt8) : ℕ := exitCode.toNat * 2 ^ 8

def sysWait (outWstatus : ℕ) : SysM κ ℕ := do
  let (pid, exitCode) ← service svc.wait
  copyIntoUser p outWstatus (bytesOf 4 (rawWaitStatus exitCode))
  pure pid

/-- The loop over `argv`: it ends at a null pointer, or at the end of the address space. -/
def readArgv : ℕ → ℕ → List (List UInt8) → SysM κ (List (List UInt8))
  | 0, _, _ => fail (.panicked .diverges)
  | fuel + 1, cur, kargv =>
      match offsetOne cur 8 with
      | none => pure kargv
      | some next => do
          let ptr ← copyFromUser p cur 8 0 []
          let currentArg := usizeOf ptr
          if currentArg = 0 then pure kargv
          else do
            let read ← copyFromUserManyUntil p (· == 0) 128 currentArg []
            let karg ← okOr read (.err .eInval)
            readArgv fuel next (kargv ++ [karg])

def sysSpawn (path argv outPid : ℕ) : SysM κ Unit := do
  let read ← copyFromUserUntil p path (· == 0) maxFilePathLength 0 []
  let kpath ← okOr read (.err .eInval)
  if kpath = [] then refuse .eInval
  else do
    let kargv ← readArgv p ((2 ^ 64 - argv) / 8 + 1) argv []
    let pid ← service (svc.spawn kpath kargv)
    copyIntoUser p outPid (bytesOf 8 pid)

/-- `do_dispatch_syscall`. -/
def doDispatchSyscall (tf : TrapFrame) : SysM κ ℤ :=
  match tf.getSyscall with
  -- ioctl
  | 29 => refuse .eNoTty
  -- open
  | 56 => do
      let path ← userBuf (tf.getArg 1)
      let flags ← argUpTo tf 2 (2 ^ 32 - 1)
      Int.ofNat <$> sysOpen svc p path flags
  -- close
  | 57 => do
      let fd ← argUpTo tf 0 (2 ^ 32 - 1)
      sysClose svc fd
      pure 0
  -- read
  | 63 => do
      let fd ← argUpTo tf 0 (2 ^ 32 - 1)
      let buf ← userBuf (tf.getArg 1)
      Int.ofNat <$> sysRead svc p fd buf (tf.getArg 2)
  -- write
  | 64 => do
      let fd ← argUpTo tf 0 (2 ^ 32 - 1)
      let buf ← userBuf (tf.getArg 1)
      Int.ofNat <$> sysWrite svc p fd buf (tf.getArg 2)
  -- readv
  | 65 => do
      let fd ← argUpTo tf 0 (2 ^ 32 - 1)
      let iovcnt ← argUpTo tf 2 (2 ^ 32 - 1)
      Int.ofNat <$> sysReadv svc p fd (tf.getArg 1) iovcnt
  -- writev
  | 66 => do
      let fd ← argUpTo tf 0 (2 ^ 32 - 1)
      let iovcnt ← argUpTo tf 2 (2 ^ 32 - 1)
      Int.ofNat <$> sysWritev svc p fd (tf.getArg 1) iovcnt
  -- preadv, pwritev
  | 69 | 70 => refuse .eSPipe
  -- exit, with an exit code that fits an `i8`
  | 93 => do
      let exitCode ← argUpTo tf 0 127
      sysExit svc exitCode
  -- sleep_ms
  | 101 => do
      sysSleepMs svc (tf.getArg 0)
      pure 0
  -- gettid
  | 178 => pure p
  -- brk
  | 214 => Int.ofNat <$> sysBrk p (tf.getArg 0)
  -- clone, which is fork: `SIGCHLD` and no new stack
  | 220 => if tf.getArg 0 ≠ 17 ∨ tf.getArg 1 ≠ 0 then refuse .eInval
      else Int.ofNat <$> service svc.fork
  -- wait; the pid and the flags are decoded and not used
  | 260 => do
      let _ ← argUpTo tf 0 (2 ^ 63 - 1)
      let _ ← argUpTo tf 2 (2 ^ 32 - 1)
      Int.ofNat <$> sysWait svc p (tf.getArg 1)
  -- shutdown
  | 5 => fail .halted
  -- spawn
  | 6 => do
      let path ← userBuf (tf.getArg 1)
      sysSpawn svc p path (tf.getArg 2) (tf.getArg 0)
      pure 0
  | n => fail (.panicked (.explicit s!"unsupported syscall: {n}"))

/-- The registers after the call, if it comes back to the caller. -/
def dispatchSyscall (tf : TrapFrame) : SysM κ TrapFrame := do
  let ret ← result (doDispatchSyscall svc p tf)
  match ret with
  | .ok ret => pure (tf.setSyscallReturnValue ret)
  | .error e => pure (tf.setSyscallReturnValue (-e.code))

end Calls

end Efiks.Syscall

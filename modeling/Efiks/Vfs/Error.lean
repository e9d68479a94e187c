import Efiks.Mm.FrameAllocator

/-!
# Errors of the file system layer
-/
namespace Efiks.Vfs
open Mm

/-- `VfsError`. -/
inductive VfsError
  | deviceIo
  | fs
  | alreadyMounted
  | outOfBounds
  | notFound
  | unknown
  deriving DecidableEq

def VfsError.toErrno : VfsError → Errno
  | .deviceIo | .fs | .unknown => .eIo
  | .outOfBounds => .eOverflow
  | .notFound => .eNoEnt
  | .alreadyMounted => .eBusy

/-- `.into()` of an error of the file system. -/
def VfsError.into (e : VfsError) : Error := .errno e.toErrno

end Efiks.Vfs

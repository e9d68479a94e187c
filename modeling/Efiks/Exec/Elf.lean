import Efiks.Mm.Machine
import Efiks.Vfs.Error

/-!
# Loading executables

`load_executable` reads the headers of an ELF file, maps the pages of its loadable
segments and copies their contents through the direct mapping. Segments may share
a page: the first one maps it, the later ones add their flags.

The file is what `vfs::open` returns for the path, and the parsers of the `elf`
crate are parameters; both are outside the kernel.

## Main definitions

* `File`, `ElfCrate`, `Elf.loadFromFile` — reading the headers.
* `mapSegment`, `copySegment`, `loadExecutable` — the loader.
-/
namespace Efiks.Exec
open Lib Lib.RustM Mm Vfs

/-- `exec::elf::Error`. -/
inductive ElfError
  | unsupported
  | sizeOverflow
  | noProgramHeadersFound
  | invalidProgramHeader
  | invalidVirtualAddress
  | parse
  deriving DecidableEq

def ElfError.toErrno : ElfError → Errno
  | .sizeOverflow => .eOverflow
  | .unsupported | .noProgramHeadersFound | .invalidProgramHeader | .invalidVirtualAddress
  | .parse => .eNoExec

/-- `.into()` of an error of the loader. -/
def ElfError.into (e : ElfError) : Error := .errno e.toErrno

/-- An open file: its size, and what one `read` at an offset with a buffer of the given
length returns. -/
structure File where
  sz : ℕ
  read : ℕ → ℕ → Except VfsError (List UInt8)

structure FileHeader where
  eType : ℕ
  eEntry : ℕ
  ePhoff : ℕ
  ePhentsize : ℕ
  ePhnum : ℕ

structure ProgramHeader where
  pType : ℕ
  pOffset : ℕ
  pVaddr : ℕ
  pFilesz : ℕ
  pMemsz : ℕ
  pFlags : BitVec 32

/-- The parsers of the `elf` crate. -/
structure ElfCrate where
  parseIdent : List UInt8 → Bool
  parseTail : List UInt8 → List UInt8 → Option FileHeader
  parseAt : ℕ → List UInt8 → Option ProgramHeader

def ET_EXEC : ℕ := 2
def PT_LOAD : ℕ := 1
def PN_XNUM : ℕ := 0xffff
def EI_NIDENT : ℕ := 16
def ELF64_EHDR_TAILSIZE : ℕ := 48

/-- The loop of `read_exact_at`. -/
def readLoop (file : File) (offset len : ℕ) : ℕ → List UInt8 → Except Error (List UInt8)
  | 0, buf => .ok buf
  | fuel + 1, buf =>
      if buf.length < len then
        match file.read (offset + buf.length) (len - buf.length) with
        | .error e => .error e.into
        | .ok bytes =>
            -- the buffer has room for the rest only
            let bytes := bytes.take (len - buf.length)
            if bytes.length = 0 then .error VfsError.fs.into
            else readLoop file offset len fuel (buf ++ bytes)
      else .ok buf

def readExactAt (file : File) (offset len : ℕ) : Except Error (List UInt8) :=
  if offset > file.sz then .error VfsError.outOfBounds.into
  else readLoop file offset len len []

structure Elf where
  file : File
  header : FileHeader
  programHeaders : List ProgramHeader

namespace Elf

def readElfHeader (crate : ElfCrate) (file : File) : Except Error FileHeader := do
  let identBuf ← readExactAt file 0 EI_NIDENT
  if crate.parseIdent identBuf then do
    let tailBuf ← readExactAt file EI_NIDENT ELF64_EHDR_TAILSIZE
    match crate.parseTail identBuf tailBuf with
    | some header => pure header
    | none => .error VfsError.fs.into
  else .error VfsError.fs.into

/-- One turn of the loop over the headers. -/
def readProgramHeader (crate : ElfCrate) (phBuf : List UInt8) (at_ : ℕ) :
    Except Error ProgramHeader :=
  match crate.parseAt at_ phBuf with
  | none => .error ElfError.parse.into
  | some header =>
      if header.pFilesz > header.pMemsz then .error ElfError.invalidProgramHeader.into
      else .ok header

def readProgramHeaders (crate : ElfCrate) (file : File) (header : FileHeader) :
    Except Error (List ProgramHeader) :=
  if header.ePhoff = 0 ∨ header.ePhnum = 0 then .error ElfError.noProgramHeadersFound.into
  else if header.ePhnum = PN_XNUM then .error ElfError.unsupported.into
  else if header.ePhentsize * header.ePhnum ≥ 2 ^ 16 then .error ElfError.sizeOverflow.into
  else do
    let phBuf ← readExactAt file header.ePhoff (header.ePhentsize * header.ePhnum)
    (List.range header.ePhnum).mapM fun i => readProgramHeader crate phBuf (i * header.ePhentsize)

/-- The headers of the file that was opened. -/
def loadFromFile (crate : ElfCrate) (opened : Except VfsError File) : Except Error Elf :=
  match opened with
  | .error e => .error e.into
  | .ok file => do
      let header ← readElfHeader crate file
      if header.eType ≠ ET_EXEC then .error ElfError.unsupported.into
      else do
        let programHeaders ← readProgramHeaders crate file header
        pure ⟨file, header, programHeaders⟩

end Elf

/-- `result?`. -/
def liftExcept {σ α : Type} : Except Error α → RustM σ Error α
  | .ok a => pure a
  | .error e => fail e

def convertElfFlagToPte (elfFlag : BitVec 32) : PteFlags :=
  PteFlags.U ||| (if elfFlag &&& 4#32 ≠ 0 then PteFlags.R else 0)
    ||| (if elfFlag &&& 2#32 ≠ 0 then PteFlags.W else 0)
    ||| (if elfFlag &&& 1#32 ≠ 0 then PteFlags.X else 0)

/-- `n as isize`. -/
def toIsize (n : ℕ) : ℤ := if n < 2 ^ 63 then n else (n : ℤ) - 2 ^ 64

/-- `mapped_pages`: the flags of the pages mapped so far. -/
abbrev MappedPages := ℕ → Option PteFlags

/-- Map or remap one page of a segment. -/
def mapSegmentPage (pages : MappedPages) (va : ℕ) (flags : PteFlags) : MmM MappedPages :=
  match pages va with
  | none => do
      let _ ← MemoryManager.mapAllocatePage va flags
      pure (Function.update pages va (some flags))
  | some old => do
      MemoryManager.remapPage va (old ||| flags)
      pure (Function.update pages va (some (old ||| flags)))

/-- The pages of a segment, from `va` up to `endVa`. -/
def mapSegment (flags : PteFlags) (endVa : ℕ) : ℕ → MappedPages → ℕ → MmM MappedPages
  | 0, _, _ => panic .diverges
  | fuel + 1, pages, va =>
      if va < endVa then do
        let pages ← mapSegmentPage pages va flags
        let va ← okOr (offsetBy va pageSize) Error.overflow
        mapSegment flags endVa fuel pages va
      else pure pages

/-- `copy_nonoverlapping` of bytes to a physical address. -/
def writeBytes (pa : ℕ) (bytes : List UInt8) (s : MemState) : MemState :=
  (bytes.zipIdx).foldl (fun s b => s.writeByte (pa + b.2) b.1) s

/-- The contents of a segment, from byte `copied` on. -/
def copySegment (file : File) (ph : ProgramHeader) : ℕ → ℕ → MmM Unit
  | 0, _ => panic .diverges
  | fuel + 1, copied =>
      if copied < ph.pFilesz then do
        let copyVaddr ← okOr (if ph.pVaddr + copied < 2 ^ 64 then some (ph.pVaddr + copied) else none)
          ElfError.sizeOverflow.into
        let pageVa := alignDown copyVaddr pageSize
        let pageOffset := copyVaddr - pageVa
        let found ← MemoryManager.translate pageVa
        let pagePa ← expect found "this is already mapped"
        let copyLen := min (pageSize - pageOffset) (ph.pFilesz - copied)
        let bytes ← liftExcept (readExactAt file (ph.pOffset + copied) copyLen)
        sys (modify (writeBytes (pagePa + pageOffset) bytes))
        copySegment file ph fuel (copied + copyLen)
      else pure ()

/-- One turn of the loop over the program headers, with the highest end so far. -/
def loadSegment (file : File) (acc : MappedPages × ℕ) (ph : ProgramHeader) :
    MmM (MappedPages × ℕ) := do
  if ph.pType ≠ PT_LOAD then pure acc
  else do
    let fileEnd ← okOr
      (if ph.pOffset + ph.pFilesz < 2 ^ 64 then some (ph.pOffset + ph.pFilesz) else none)
      ElfError.sizeOverflow.into
    if fileEnd > file.sz then fail ElfError.invalidProgramHeader.into
    else do
      let vaddrEnd ← okOr (offsetBy ph.pVaddr (toIsize ph.pMemsz)) Error.overflow
      let alignedEnd ← alignUp vaddrEnd pageSize
      let aligned := alignDown ph.pVaddr pageSize
      let pages ← mapSegment (convertElfFlagToPte ph.pFlags) alignedEnd
        ((alignedEnd - aligned) / pageSize + 1) acc.1 aligned
      copySegment file ph (ph.pFilesz + 1) 0
      pure (pages, max acc.2 alignedEnd)

/-- Load the file that was opened, and return the entry point. -/
def loadExecutable (crate : ElfCrate) (opened : Except VfsError File) : MmM ℕ := do
  let loader ← liftExcept (Elf.loadFromFile crate opened)
  let acc ← foldM (loadSegment loader.file) loader.programHeaders ((fun _ => none), 0)
  MemoryManager.setInitialBrk acc.2
  pure loader.header.eEntry

end Efiks.Exec

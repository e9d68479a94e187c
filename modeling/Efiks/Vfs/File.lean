import Efiks.Lib.Cursor
import Efiks.Vsfs.Write

/-!
# Open files

`File` is an inode with an offset. Reading and writing start at the offset and move it by what was
transferred; seeking computes the new offset in the arithmetic of the machine and refuses one that
is beyond the end of the file. Over a regular file of a well-formed disk an open file is a cursor
over its contents: every sequence of calls returns what the cursor returns, and the disk it leaves
depends on the contents of the cursor alone.

## Main definitions

* `File.read`, `File.write`, `File.seek` — the methods, over an inode of the file system.
* `File.run` — a sequence of calls, and `cursorRun` the same on a cursor.
* `Holds` — a mounted disk on which the file has the contents of a cursor.

## Main results

* `file_is_cursor` — an open file is a cursor over its contents.
-/
namespace Efiks.Vfs
open Lib Lib.RustM Vsfs

/-- An open file description. -/
structure File where
  inode : ℕ
  offset : ℕ

/-- Methods of an open file. -/
abbrev FileM := RustM (Mounted × File) VfsError

inductive SeekFrom
  | start (offset : ℕ)
  | current (offset : ℤ)
  /-- `End`. -/
  | fromEnd (offset : ℤ)

namespace File

/-- A method of the inode. -/
def onInode {α : Type} (m : FM α) : FileM α := zoom Prod.fst (fun s t => (s, t.2)) m

/-- A method of the inode that fills the buffer `buf`. -/
def onBuffer {α : Type} (buf : Mem) (m : RustM (Mounted × Mem) VfsError α) : FileM (α × Mem) :=
  fun t => match m (t.1, buf) with
    | .ok a r => .ok (a, r.2) (r.1, t.2)
    | .err e r => .err e (r.1, t.2)
    | .panic p => .panic p

def setOffset (offset : ℕ) : FileM Unit := modify fun t => (t.1, { t.2 with offset := offset })

/-- Read into a buffer of length `len`. -/
def read (buf : Mem) (len : ℕ) : FileM (ℕ × Mem) := do
  let self ← gets Prod.snd
  let (nRead, buf) ← onBuffer buf (Vsfs.read self.inode self.offset len)
  let offset ← addUsize self.offset nRead
  setOffset offset
  pure (nRead, buf)

/-- Write the first `len` bytes of a buffer. -/
def write (buf : Mem) (len : ℕ) : FileM ℕ := do
  let self ← gets Prod.snd
  let nWritten ← onInode (Vsfs.write self.inode self.offset buf len)
  let offset ← addUsize self.offset nWritten
  setOffset offset
  pure nWritten

def checkedOffset (start : ℕ) (offset : ℤ) : Option ℕ :=
  if offset ≥ 0 then
    if start + offset.toNat < 2 ^ 64 then some (start + offset.toNat) else none
  else if offset.natAbs ≤ start then some (start - offset.natAbs) else none

def seek (offset : SeekFrom) : FileM Unit := do
  let self ← gets Prod.snd
  let fileSize ← onInode (Vsfs.sz self.inode)
  let newOffset ← okOr (match offset with
    | .start offset => some offset
    | .current offset => checkedOffset self.offset offset
    | .fromEnd offset => checkedOffset fileSize offset) VfsError.outOfBounds
  let fileSize ← onInode (Vsfs.sz self.inode)
  if newOffset > fileSize then fail .outOfBounds else setOffset newOffset

end File

/-- A call on an open file; buffers are given with their contents. -/
inductive FileOp
  | read (buf : Mem) (len : ℕ)
  | write (bytes : List UInt8)
  | seek (offset : SeekFrom)

/-- What a call returns. -/
inductive FileResult
  | read (n : ℕ) (buf : Mem)
  | written (n : ℕ)
  | sought (r : Except VfsError Unit)

/-- The buffer that holds a list of bytes. -/
def bufOf (bytes : List UInt8) : Mem := fun i => bytes.getD i 0

/-- One call. -/
def File.call : FileOp → FileM FileResult
  | .read buf len => do
      let r ← File.read buf len
      pure (.read r.1 r.2)
  | .write bytes => do
      let n ← File.write (bufOf bytes) bytes.length
      pure (.written n)
  | .seek offset => do
      let r ← attempt (File.seek offset)
      pure (.sought r)

/-- Several calls, with their results. -/
def File.run : List FileOp → FileM (List FileResult)
  | [] => pure []
  | op :: ops => do
      let r ← File.call op
      let rs ← File.run ops
      pure (r :: rs)

/-! ### The cursor -/

/-- The place that is sought, in exact arithmetic. -/
def SeekFrom.target (c : Cursor UInt8) : SeekFrom → ℤ
  | .start offset => offset
  | .current offset => c.pos + offset
  | .fromEnd offset => c.data.length + offset

/-- The call on a cursor. -/
def cursorCall (c : Cursor UInt8) : FileOp → FileResult × Cursor UInt8
  | .read buf len =>
      (.read (c.room len) (buf.blit 0 (c.room len) (bufOf (c.read len).1)), (c.read len).2)
  | .write bytes => (.written (c.write bytes).1, (c.write bytes).2)
  | .seek offset =>
      match c.seek (offset.target c) with
      | some c' => (.sought (.ok ()), c')
      | none => (.sought (.error .outOfBounds), c)

def cursorRun (c : Cursor UInt8) : List FileOp → List FileResult × Cursor UInt8
  | [] => ([], c)
  | op :: ops =>
      ((cursorCall c op).1 :: (cursorRun (cursorCall c op).2 ops).1, (cursorRun (cursorCall c op).2 ops).2)

/-! ### The disk behind the cursor -/

/-- The contents of a file. -/
def contents (s : Mounted) (inum : ℕ) : List UInt8 :=
  (List.range (inodeAt s.disk s.superblock inum).metadata.sz.toNat).map
    (fileByte s.disk (inodeAt s.disk s.superblock inum))

/-- `s` is `s₀` with `data` as the contents of file `inum`. -/
def Holds (s₀ : Mounted) (inum : ℕ) (data : List UInt8) (s : Mounted) : Prop :=
  ∃ k, s = { s₀ with
    ops := k
    disk := patchFile s₀.disk (inodeAt s₀.disk s₀.superblock inum) 0 data.length (bufOf data) }

section Patch
variable {disk disk' : Mem} {inode : INodeInner} {offset n i : ℕ} {f g : Mem}

theorem bufOf_eq_getD (bytes : List UInt8) (i : ℕ) : bufOf bytes i = bytes[i]?.getD 0 :=
  List.getD_eq_getElem?_getD

theorem bufOf_eq {bytes : List UInt8} (h : i < bytes.length) : bufOf bytes i = bytes[i] := by
  simp [bufOf, h]

/-- The byte at a place of the file. -/
theorem patchFile_at (h : FileOk disk inode) (hn : offset + n ≤ inode.metadata.sz.toNat)
    (hi : i < n) : patchFile disk inode offset n f (fileAddr disk inode (offset + i)) = f i := by
  have hinj := h.places_inj fun i (hi : i < n) => (by omega : offset + i < inode.metadata.sz.toNat)
  have hat : disk.overwrite (fun i => fileAddr disk inode (offset + i)) n f
      (fileAddr disk inode (offset + i)) = f i := Mem.overwrite_at hinj hi
  exact hat

theorem patchFile_of_ne {a : ℕ} (h : ∀ i < n, fileAddr disk inode (offset + i) ≠ a) :
    patchFile disk inode offset n f a = disk a := Mem.overwrite_of_ne h

/-- What is at the places of the file decides the whole disk. -/
theorem patchFile_ext (h : FileOk disk inode)
    (hin : ∀ i < inode.metadata.sz.toNat, disk' (fileAddr disk inode i) = f i)
    (hout : ∀ a, (∀ i < inode.metadata.sz.toNat, fileAddr disk inode i ≠ a) → disk' a = disk a) :
    disk' = patchFile disk inode 0 inode.metadata.sz.toNat f := by
  funext a
  by_cases ha : ∃ i < inode.metadata.sz.toNat, fileAddr disk inode i = a
  · obtain ⟨i, hi, rfl⟩ := ha
    have hat := patchFile_at (f := f) h (Nat.zero_add _).le hi
    rw [Nat.zero_add] at hat
    rw [hin i hi, hat]
  · have hne : ∀ i < inode.metadata.sz.toNat, fileAddr disk inode (0 + i) ≠ a := by
      intro i hi heq
      rw [Nat.zero_add] at heq
      exact ha ⟨i, hi, heq⟩
    rw [patchFile_of_ne hne]
    exact hout a fun i hi heq => ha ⟨i, hi, heq⟩

/-- A write over given contents gives new contents. -/
theorem patchFile_patchFile (h : FileOk disk inode)
    (haddr : ∀ i < inode.metadata.sz.toNat,
      fileAddr (patchFile disk inode 0 inode.metadata.sz.toNat f) inode i = fileAddr disk inode i)
    {f' : Mem} (hn : offset + n ≤ inode.metadata.sz.toNat)
    (hg : ∀ i < inode.metadata.sz.toNat,
      g i = if offset ≤ i ∧ i < offset + n then f' (i - offset) else f i) :
    patchFile (patchFile disk inode 0 inode.metadata.sz.toNat f) inode offset n f' =
      patchFile disk inode 0 inode.metadata.sz.toNat g := by
  have hsame : patchFile (patchFile disk inode 0 inode.metadata.sz.toNat f) inode offset n f' =
      (patchFile disk inode 0 inode.metadata.sz.toNat f).overwrite
        (fun i => fileAddr disk inode (offset + i)) n f' :=
    Mem.overwrite_congr fun i hi => haddr (offset + i) (by omega)
  rw [hsame]
  refine patchFile_ext h (fun i hi => ?_) fun a ha => ?_
  · rw [hg i hi]
    by_cases hin : offset ≤ i ∧ i < offset + n
    · obtain ⟨j, rfl⟩ : ∃ j, i = offset + j := ⟨i - offset, by omega⟩
      have hinj := h.places_inj fun i (hi : i < n) => (by omega : offset + i < inode.metadata.sz.toNat)
      rw [if_pos hin, Nat.add_sub_cancel_left]
      exact Mem.overwrite_at hinj (by omega)
    · rw [if_neg hin, Mem.overwrite_of_ne fun j hj heq => ?_]
      · have hat := patchFile_at (f := f) h (Nat.zero_add _).le hi
        rwa [Nat.zero_add] at hat
      · have := h.fileAddr_inj (by omega) hi heq
        omega
  · rw [Mem.overwrite_of_ne fun i hi => ha _ (by omega), patchFile_of_ne fun i hi => ?_]
    rw [Nat.zero_add]
    exact ha i hi

end Patch

section Holds
variable {s₀ s : Mounted} {id inum : ℕ} {data : List UInt8}

/-- The facts about a disk that holds given contents. -/
structure OpenOn (s₀ s : Mounted) (id inum : ℕ) (data : List UInt8) : Prop where
  noFaults : s.NoFaults
  wellFormed : WellFormed s.disk s.superblock
  opened : Opened s id inum
  inode_eq : inodeAt s.disk s.superblock inum = inodeAt s₀.disk s₀.superblock inum
  addr_eq : ∀ i < (inodeAt s₀.disk s₀.superblock inum).metadata.sz.toNat,
    fileAddr s.disk (inodeAt s₀.disk s₀.superblock inum) i =
      fileAddr s₀.disk (inodeAt s₀.disk s₀.superblock inum) i
  byte_eq : ∀ i < (inodeAt s₀.disk s₀.superblock inum).metadata.sz.toNat,
    fileByte s.disk (inodeAt s₀.disk s₀.superblock inum) i = bufOf data i

theorem Holds.openOn (hs : s₀.NoFaults) (hwf : WellFormed s₀.disk s₀.superblock)
    (ho : Opened s₀ id inum)
    (hlen : data.length = (inodeAt s₀.disk s₀.superblock inum).metadata.sz.toNat)
    (h : Holds s₀ inum data s) : OpenOn s₀ s id inum data := by
  obtain ⟨k, rfl⟩ := h
  rw [hlen]
  have hfile := hwf.fileOk ho.reach
  have honly := hwf.onlyContents (bufOf data) ho.reach
    fun i (hi : i < (inodeAt s₀.disk s₀.superblock inum).metadata.sz.toNat) =>
      (by omega : 0 + i < (inodeAt s₀.disk s₀.superblock inum).metadata.sz.toNat)
  have haddr : ∀ i < (inodeAt s₀.disk s₀.superblock inum).metadata.sz.toNat,
      fileAddr (patchFile s₀.disk (inodeAt s₀.disk s₀.superblock inum) 0
        (inodeAt s₀.disk s₀.superblock inum).metadata.sz.toNat (bufOf data))
          (inodeAt s₀.disk s₀.superblock inum) i =
        fileAddr s₀.disk (inodeAt s₀.disk s₀.superblock inum) i := fun i hi =>
    fileAddr_congr (fun lb _ => honly.pointerOf_eq hwf ho.reach lb) hi
  refine ⟨hs, honly.wellFormed hwf ho.file, ho.onlyContents hwf honly ho.file,
    honly.inodeAt_eq hwf (hwf.inum_range inum ho.reach).2, haddr, fun i hi => ?_⟩
  have hat := patchFile_at (f := bufOf data) hfile (Nat.zero_add _).le hi
  rw [Nat.zero_add] at hat
  rw [fileByte, haddr i hi]
  exact hat

/-- A disk holds the contents of its own file. -/
theorem holds_contents (hwf : WellFormed s₀.disk s₀.superblock) (ho : Opened s₀ id inum) :
    Holds s₀ inum (contents s₀ inum) s₀ := by
  have hlen : (contents s₀ inum).length = (inodeAt s₀.disk s₀.superblock inum).metadata.sz.toNat := by
    simp [contents]
  refine ⟨s₀.ops, ?_⟩
  rw [hlen, ← patchFile_ext (hwf.fileOk ho.reach) (fun i hi => ?_) fun _ _ => rfl]
  rw [bufOf_eq (by omega)]
  simp [contents, fileByte]

end Holds

/-- The open file is the cursor. -/
def IsCursor (s₀ : Mounted) (id inum : ℕ) (c : Cursor UInt8) (t : Mounted × File) : Prop :=
  t.2 = ⟨id, c.pos⟩ ∧ Holds s₀ inum c.data t.1 ∧
    c.data.length = (inodeAt s₀.disk s₀.superblock inum).metadata.sz.toNat

/-! ### The calls -/

section Calls
variable {s₀ : Mounted} {id inum : ℕ} {c : Cursor UInt8} {t : Mounted × File}

theorem addUsize_run {σ ε : Type} {a b : ℕ} (h : a + b < 2 ^ 64) (s : σ) :
    (addUsize a b : RustM σ ε ℕ) s = .ok (a + b) s := by
  rw [addUsize, if_pos h, pure_run]

theorem File.read_run {s s' : Mounted} {f : File} {buf buf' : Mem} {len n : ℕ}
    (h : Vsfs.read f.inode f.offset len (s, buf) = .ok n (s', buf')) (hlt : f.offset + n < 2 ^ 64) :
    File.read buf len (s, f) = .ok (n, buf') (s', ⟨f.inode, f.offset + n⟩) := by
  have hbuf : File.onBuffer buf (Vsfs.read f.inode f.offset len) (s, f) =
      .ok (n, buf') (s', f) := by rw [File.onBuffer, h]
  rw [File.read, bind_run_of_ok (gets_run _), bind_run_of_ok hbuf]
  dsimp only
  rw [bind_run_of_ok (addUsize_run hlt _)]
  rfl

theorem File.write_run {s s' : Mounted} {f : File} {buf : Mem} {len n : ℕ}
    (h : Vsfs.write f.inode f.offset buf len s = .ok n s') (hlt : f.offset + n < 2 ^ 64) :
    File.write buf len (s, f) = .ok n (s', ⟨f.inode, f.offset + n⟩) := by
  have hinode : File.onInode (Vsfs.write f.inode f.offset buf len) (s, f) = .ok n (s', f) := by
    rw [File.onInode, zoom, h]
  rw [File.write, bind_run_of_ok (gets_run _), bind_run_of_ok hinode,
    bind_run_of_ok (addUsize_run hlt _)]
  rfl

theorem IsCursor.openOn (hs : s₀.NoFaults) (hwf : WellFormed s₀.disk s₀.superblock)
    (ho : Opened s₀ id inum) (h : IsCursor s₀ id inum c t) : OpenOn s₀ t.1 id inum c.data :=
  h.2.1.openOn hs hwf ho h.2.2

theorem IsCursor.lt (h : IsCursor s₀ id inum c t) : c.data.length < 2 ^ 32 := by
  rw [h.2.2]
  exact UInt32.toNat_lt _

/-- What is transferred is what the cursor has room for. -/
theorem OpenOn.transferred_eq {s : Mounted} (ho : OpenOn s₀ s id inum c.data)
    (h : c.data.length = (inodeAt s₀.disk s₀.superblock inum).metadata.sz.toNat) (len : ℕ) :
    transferred (inodeAt s.disk s.superblock inum) c.pos len = c.room len := by
  rw [ho.inode_eq, transferred, ← h, Cursor.room]

theorem IsCursor.read_run (hs : s₀.NoFaults) (hwf : WellFormed s₀.disk s₀.superblock)
    (ho : Opened s₀ id inum) (h : IsCursor s₀ id inum c t) (buf : Mem) (len : ℕ) :
    ∃ t', File.read buf len t =
        .ok (c.room len, buf.blit 0 (c.room len) (bufOf (c.read len).1)) t' ∧
      IsCursor s₀ id inum (c.read len).2 t' := by
  obtain ⟨s, f⟩ := t
  obtain rfl : f = ⟨id, c.pos⟩ := h.1
  have hon : OpenOn s₀ s id inum c.data := h.openOn hs hwf ho
  have hlen := h.2.2
  have hend := c.pos_add_room len
  have hlt := h.lt
  obtain ⟨k, hread⟩ := hon.opened.read_run hon.noFaults hon.wellFormed c.pos len buf
  have hbuf : (buf.blit 0 (c.room len) fun i =>
      fileByte s.disk (inodeAt s₀.disk s₀.superblock inum) (c.pos + i)) =
        buf.blit 0 (c.room len) (bufOf (c.read len).1) := by
    refine Mem.blit_congr fun i hi => ?_
    rw [hon.byte_eq _ (by omega), bufOf_eq_getD, bufOf_eq_getD, c.getElem?_read hi]
  rw [hon.transferred_eq hlen, hon.inode_eq, hbuf] at hread
  refine ⟨_, File.read_run hread (by dsimp only; omega), rfl, ?_, hlen⟩
  obtain ⟨k', rfl⟩ := h.2.1
  exact ⟨k, rfl⟩

theorem IsCursor.write_run (hs : s₀.NoFaults) (hwf : WellFormed s₀.disk s₀.superblock)
    (ho : Opened s₀ id inum) (h : IsCursor s₀ id inum c t) (bytes : List UInt8) :
    ∃ t', File.write (bufOf bytes) bytes.length t = .ok (c.room bytes.length) t' ∧
      IsCursor s₀ id inum (c.write bytes).2 t' := by
  obtain ⟨s, f⟩ := t
  obtain rfl : f = ⟨id, c.pos⟩ := h.1
  have hon : OpenOn s₀ s id inum c.data := h.openOn hs hwf ho
  have hlen := h.2.2
  have hend := c.pos_add_room bytes.length
  have hlt := h.lt
  obtain ⟨k, hwrite⟩ := hon.opened.write_run hon.noFaults hon.wellFormed c.pos bytes.length
    (bufOf bytes)
  have hpatch : patchFile s.disk (inodeAt s₀.disk s₀.superblock inum) c.pos (c.room bytes.length)
      (bufOf bytes) = patchFile s₀.disk (inodeAt s₀.disk s₀.superblock inum) 0
        (c.patch bytes).length (bufOf (c.patch bytes)) := by
    have haddr := hon.addr_eq
    obtain ⟨k', rfl⟩ := h.2.1
    rw [c.length_patch, hlen]
    simp only [hlen] at haddr ⊢
    refine patchFile_patchFile (hwf.fileOk ho.reach) haddr (hlen ▸ hend) fun i hi => ?_
    rw [bufOf_eq_getD, bufOf_eq_getD, bufOf_eq_getD, c.getElem?_patch]
    split_ifs <;> rfl
  rw [hon.transferred_eq hlen, hon.inode_eq, hpatch] at hwrite
  refine ⟨_, File.write_run hwrite (by dsimp only; omega), rfl, ?_,
    (c.length_patch bytes).trans hlen⟩
  obtain ⟨k', rfl⟩ := h.2.1
  exact ⟨k, rfl⟩

/-- The checked arithmetic is exact below the size of a file. -/
theorem File.checkedOffset_eq_some {start n : ℕ} {offset : ℤ} (hn : n < 2 ^ 64) :
    File.checkedOffset start offset = some n ↔ (n : ℤ) = start + offset := by
  unfold File.checkedOffset
  split_ifs with hpos hlt hle <;> simp only [Option.some.injEq, false_iff] <;> omega

/-- The rest of a seek after the new offset has been computed. -/
theorem File.seek_tail {s : Mounted} {f : File} {size : ℕ} {o : Option ℕ} {target : ℤ}
    (hsize : (s.inodes f.inode).inner.metadata.sz.toNat = size)
    (ho : ∀ n ≤ size, o = some n ↔ (n : ℤ) = target) :
    (do
      let newOffset ← okOr o VfsError.outOfBounds
      let fileSize ← File.onInode (Vsfs.sz f.inode)
      if newOffset > fileSize then fail .outOfBounds else File.setOffset newOffset : FileM Unit)
        (s, f) = if 0 ≤ target ∧ target ≤ size then .ok () (s, ⟨f.inode, target.toNat⟩)
          else .err .outOfBounds (s, f) := by
  have hsz : File.onInode (Vsfs.sz f.inode) (s, f) = .ok size (s, f) := by
    rw [← hsize]
    rfl
  have hin (h : 0 ≤ target ∧ target ≤ size) : o = some target.toNat :=
    (ho _ (by omega)).mpr (by omega)
  by_cases h : 0 ≤ target ∧ target ≤ size
  · rw [if_pos h, hin h, bind_run_of_ok (okOr_run rfl _), bind_run_of_ok hsz,
      if_neg (by omega)]
    rfl
  · rw [if_neg h]
    cases o with
    | none => rfl
    | some n =>
        have hn : n > size := by
          by_contra hle
          have := (ho n (by omega)).mp rfl
          omega
        rw [bind_run_of_ok (okOr_run rfl _), bind_run_of_ok hsz, if_pos hn]
        rfl

/-- A seek succeeds for the places of the file. -/
theorem IsCursor.seek_run (hs : s₀.NoFaults) (hwf : WellFormed s₀.disk s₀.superblock)
    (ho : Opened s₀ id inum) (h : IsCursor s₀ id inum c t) (offset : SeekFrom) :
    File.seek offset t =
      if 0 ≤ offset.target c ∧ offset.target c ≤ c.data.length then
        .ok () (t.1, ⟨id, (offset.target c).toNat⟩) else .err .outOfBounds t := by
  obtain ⟨s, f⟩ := t
  obtain rfl : f = ⟨id, c.pos⟩ := h.1
  have hon : OpenOn s₀ s id inum c.data := h.openOn hs hwf ho
  have hlt := h.lt
  have hsize : (s.inodes id).inner.metadata.sz.toNat = c.data.length := by
    rw [hon.opened.inode_eq, h.2.2, ← hon.inode_eq]
  have hsz : File.onInode (Vsfs.sz id) (s, ⟨id, c.pos⟩) = .ok c.data.length (s, ⟨id, c.pos⟩) := by
    rw [← hsize]
    rfl
  rw [File.seek, bind_run_of_ok (gets_run _), bind_run_of_ok hsz]
  refine File.seek_tail hsize fun n hn => ?_
  cases offset with
  | start offset => simp [SeekFrom.target, eq_comm]
  | current offset => exact File.checkedOffset_eq_some (by omega)
  | fromEnd offset => exact File.checkedOffset_eq_some (by omega)

/-- Every call is the call on the cursor. -/
theorem IsCursor.call (hs : s₀.NoFaults) (hwf : WellFormed s₀.disk s₀.superblock)
    (ho : Opened s₀ id inum) (h : IsCursor s₀ id inum c t) (op : FileOp) :
    ∃ t', File.call op t = .ok (cursorCall c op).1 t' ∧
      IsCursor s₀ id inum (cursorCall c op).2 t' := by
  cases op with
  | read buf len =>
      obtain ⟨t', hrun, hc⟩ := h.read_run hs hwf ho buf len
      refine ⟨t', ?_, hc⟩
      rw [File.call, bind_run_of_ok hrun]
      rfl
  | write bytes =>
      obtain ⟨t', hrun, hc⟩ := h.write_run hs hwf ho bytes
      refine ⟨t', ?_, hc⟩
      rw [File.call, bind_run_of_ok hrun]
      rfl
  | seek offset =>
      have hrun := h.seek_run hs hwf ho offset
      by_cases hin : 0 ≤ offset.target c ∧ offset.target c ≤ c.data.length
      · rw [if_pos hin] at hrun
        refine ⟨(t.1, ⟨id, (offset.target c).toNat⟩), ?_, ?_⟩
        · simp only [File.call, bind_run, attempt, hrun, cursorCall, Cursor.seek, dif_pos hin]
          rfl
        · simp only [cursorCall, Cursor.seek, dif_pos hin]
          exact ⟨rfl, h.2⟩
      · rw [if_neg hin] at hrun
        refine ⟨t, ?_, ?_⟩
        · simp only [File.call, bind_run, attempt, hrun, cursorCall, Cursor.seek, dif_neg hin]
          rfl
        · simp only [cursorCall, Cursor.seek, dif_neg hin]
          exact h

/-- Every sequence of calls is the sequence of calls on the cursor. -/
theorem IsCursor.run (hs : s₀.NoFaults) (hwf : WellFormed s₀.disk s₀.superblock)
    (ho : Opened s₀ id inum) (ops : List FileOp) (h : IsCursor s₀ id inum c t) :
    ∃ t', File.run ops t = .ok (cursorRun c ops).1 t' ∧
      IsCursor s₀ id inum (cursorRun c ops).2 t' := by
  induction ops generalizing c t with
  | nil => exact ⟨t, rfl, h⟩
  | cons op ops ih =>
      obtain ⟨t₁, hcall, h₁⟩ := h.call hs hwf ho op
      obtain ⟨t₂, hrun, h₂⟩ := ih h₁
      refine ⟨t₂, ?_, h₂⟩
      rw [File.run, bind_run_of_ok hcall, bind_run_of_ok hrun]
      rfl

end Calls

/-! ### Cutting a transfer into pieces -/

/-- The bytes that a call delivered. -/
def FileResult.bytes : FileResult → List UInt8
  | .read n buf => (List.range n).map buf
  | .written _ => []
  | .sought _ => []

/-- The number of bytes that a call reports. -/
def FileResult.count : FileResult → ℕ
  | .read n _ => n
  | .written n => n
  | .sought _ => 0

/-- The transfer `op` is cut into the consecutive transfers `parts`. -/
inductive Splits : FileOp → List FileOp → Prop
  | read (buf : Mem) (parts : List (Mem × ℕ)) :
      Splits (.read buf (parts.map Prod.snd).sum) (parts.map fun p => .read p.1 p.2)
  | write (parts : List (List UInt8)) : Splits (.write parts.flatten) (parts.map .write)

/-- The same disk, the same inodes and the same open file, after any number of transfers. -/
def SameFile (t t' : Mounted × File) : Prop := ∃ k, t' = ({ t.1 with ops := k }, t.2)

section Cut
variable {c : Cursor UInt8}

theorem bytes_cursorCall_read (c : Cursor UInt8) (buf : Mem) (len : ℕ) :
    (cursorCall c (.read buf len)).1.bytes = (c.read len).1 := by
  refine List.ext_getElem (by simp [cursorCall, FileResult.bytes, c.length_read]) fun i hi hi' => ?_
  have hroom : i < c.room len := c.length_read len ▸ hi'
  simp [cursorCall, FileResult.bytes, Mem.blit_of_mem, hroom, bufOf_eq hi']

theorem length_cursorRun (c : Cursor UInt8) (ops : List FileOp) :
    (cursorRun c ops).1.length = ops.length := by
  induction ops generalizing c with
  | nil => rfl
  | cons op ops ih => simp only [cursorRun, List.length_cons, ih]

theorem cursorRun_append (c : Cursor UInt8) (xs ys : List FileOp) :
    cursorRun c (xs ++ ys) = ((cursorRun c xs).1 ++ (cursorRun (cursorRun c xs).2 ys).1,
      (cursorRun (cursorRun c xs).2 ys).2) := by
  induction xs generalizing c with
  | nil => rfl
  | cons x xs ih => simp only [List.cons_append, cursorRun, ih]

theorem cursorRun_reads (c : Cursor UInt8) (parts : List (Mem × ℕ)) :
    ((cursorRun c (parts.map fun p => .read p.1 p.2)).1.flatMap FileResult.bytes,
      (cursorRun c (parts.map fun p => .read p.1 p.2)).2) = c.readAll (parts.map Prod.snd) := by
  induction parts generalizing c with
  | nil => rfl
  | cons p parts ih =>
      simp only [List.map_cons, cursorRun, Cursor.readAll, List.flatMap_cons, ← ih,
        bytes_cursorCall_read]
      rfl

theorem cursorRun_reads_count (c : Cursor UInt8) (parts : List (Mem × ℕ)) :
    ((cursorRun c (parts.map fun p => .read p.1 p.2)).1.map FileResult.count).sum =
      ((cursorRun c (parts.map fun p => .read p.1 p.2)).1.flatMap FileResult.bytes).length := by
  induction parts generalizing c with
  | nil => rfl
  | cons p parts ih =>
      simp only [List.map_cons, cursorRun, List.flatMap_cons, List.sum_cons, List.length_append, ih,
        bytes_cursorCall_read, c.length_read]
      rfl

theorem cursorRun_writes (c : Cursor UInt8) (parts : List (List UInt8)) :
    (((cursorRun c (parts.map .write)).1.map FileResult.count).sum,
      (cursorRun c (parts.map .write)).2) = c.writeAll parts ∧
      (cursorRun c (parts.map .write)).1.flatMap FileResult.bytes = [] := by
  induction parts generalizing c with
  | nil => exact ⟨rfl, rfl⟩
  | cons p parts ih =>
      obtain ⟨hcount, hbytes⟩ := ih (c.write p).2
      constructor
      · rw [Cursor.writeAll, ← hcount]
        rfl
      · simp only [List.map_cons, cursorRun, List.flatMap_cons]
        exact hbytes

/-- A transfer that is cut into pieces on a cursor. -/
theorem Splits.cursor {op : FileOp} {parts : List FileOp} (h : Splits op parts)
    (c : Cursor UInt8) : (cursorRun c parts).1.flatMap FileResult.bytes = (cursorCall c op).1.bytes ∧
      ((cursorRun c parts).1.map FileResult.count).sum = (cursorCall c op).1.count ∧
      (cursorRun c parts).2 = (cursorCall c op).2 := by
  cases h with
  | read buf parts =>
      have hparts := cursorRun_reads c parts
      rw [Cursor.readAll_eq] at hparts
      have hbytes : (cursorRun c (parts.map fun p => .read p.1 p.2)).1.flatMap FileResult.bytes =
          (c.read (parts.map Prod.snd).sum).1 := congrArg Prod.fst hparts
      refine ⟨hbytes.trans (bytes_cursorCall_read c buf _).symm, ?_, congrArg Prod.snd hparts⟩
      rw [cursorRun_reads_count, hbytes, c.length_read]
      rfl
  | write parts =>
      obtain ⟨hparts, hbytes⟩ := cursorRun_writes c parts
      rw [Cursor.writeAll_eq] at hparts
      exact ⟨hbytes, congrArg Prod.fst hparts, congrArg Prod.snd hparts⟩

theorem IsCursor.sameFile {s₀ : Mounted} {id inum : ℕ} {t t' : Mounted × File}
    (h : IsCursor s₀ id inum c t) (h' : IsCursor s₀ id inum c t') : SameFile t t' := by
  obtain ⟨s, f⟩ := t
  obtain ⟨s', f'⟩ := t'
  obtain ⟨rfl, ⟨k, rfl⟩, -⟩ := h
  obtain ⟨rfl, ⟨k', rfl⟩, -⟩ := h'
  exact ⟨k', rfl⟩

end Cut

/-- The cursor of a file that was just opened. -/
def cursorAt (s : Mounted) (inum : ℕ) : Cursor UInt8 := ⟨contents s inum, 0, Nat.zero_le _⟩

/-- An open file of a well-formed disk without faults is a cursor over its contents: every
sequence of calls returns what the cursor returns and leaves the disk with the contents of the
cursor, the offset never leaves the file, and cutting a transfer into pieces changes neither the
bytes nor the final state. -/
theorem file_is_cursor (s : Mounted) (id inum : ℕ) (hs : s.NoFaults)
    (hwf : WellFormed s.disk s.superblock) (ho : Opened s id inum) :
    (∀ ops, ∃ t, File.run ops (s, ⟨id, 0⟩) = .ok (cursorRun (cursorAt s inum) ops).1 t ∧
      IsCursor s id inum (cursorRun (cursorAt s inum) ops).2 t ∧
      t.2.offset ≤ (inodeAt s.disk s.superblock inum).metadata.sz.toNat) ∧
    ∀ before op parts after, Splits op parts → ∃ xs r rs ys t t',
      File.run (before ++ op :: after) (s, ⟨id, 0⟩) = .ok (xs ++ r :: ys) t ∧
      File.run (before ++ (parts ++ after)) (s, ⟨id, 0⟩) = .ok (xs ++ (rs ++ ys)) t' ∧
      xs.length = before.length ∧ rs.length = parts.length ∧
      rs.flatMap FileResult.bytes = r.bytes ∧ (rs.map FileResult.count).sum = r.count ∧
      SameFile t t' := by
  have h₀ : IsCursor s id inum (cursorAt s inum) (s, ⟨id, 0⟩) :=
    ⟨rfl, holds_contents hwf ho, by simp [cursorAt, contents]⟩
  refine ⟨fun ops => ?_, fun before op parts after hsplit => ?_⟩
  · obtain ⟨t, hrun, hc⟩ := h₀.run hs hwf ho ops
    refine ⟨t, hrun, hc, ?_⟩
    have hle := (cursorRun (cursorAt s inum) ops).2.le
    rwa [hc.1, ← hc.2.2]
  · obtain ⟨t, hrun, hc⟩ := h₀.run hs hwf ho (before ++ op :: after)
    obtain ⟨t', hrun', hc'⟩ := h₀.run hs hwf ho (before ++ (parts ++ after))
    obtain ⟨hbytes, hcount, hcur⟩ := hsplit.cursor (cursorRun (cursorAt s inum) before).2
    rw [cursorRun_append, cursorRun] at hrun hc
    rw [cursorRun_append, cursorRun_append, hcur] at hrun' hc'
    exact ⟨_, _, _, _, t, t', hrun, hrun', length_cursorRun _ _, length_cursorRun _ _, hbytes,
      hcount, hc.sameFile hc'⟩

/-- In a file of five bytes: a seek from the end, a write and a seek beyond the end. -/
theorem file_is_cursor_small : ∃ t,
    File.run [.seek (.fromEnd (-3)), .write [7], .seek (.start 9)] (smallMounted, ⟨2, 0⟩) =
      .ok [.sought (.ok ()), .written 1, .sought (.error .outOfBounds)] t ∧ t.2.offset = 3 := by
  have hlen : (contents smallMounted 2).length = 5 := by decide +kernel
  obtain ⟨t, hrun, hc, -⟩ := (file_is_cursor smallMounted 2 2 (fun _ => rfl) wellFormed_small
    opened_small).1 [.seek (.fromEnd (-3)), .write [7], .seek (.start 9)]
  have hcursor : (cursorRun (cursorAt smallMounted 2)
      [.seek (.fromEnd (-3)), .write [7], .seek (.start 9)]).1 =
        [.sought (.ok ()), .written 1, .sought (.error .outOfBounds)] ∧
      (cursorRun (cursorAt smallMounted 2)
        [.seek (.fromEnd (-3)), .write [7], .seek (.start 9)]).2.pos = 3 := by
    simp [cursorRun, cursorCall, cursorAt, Cursor.seek, Cursor.write, Cursor.room, SeekFrom.target,
      Cursor.length_patch, hlen]
  rw [hcursor.1] at hrun
  refine ⟨t, hrun, ?_⟩
  rw [hc.1, hcursor.2]

end Efiks.Vfs

import Efiks.Kmalloc.LinkedListAllocator
import Efiks.Mm.Faults
import Efiks.Syscall.UserAccess

/-!
# Vectored input and output

`sys_readv` and `sys_writev` make the plain call for every vector and stop at the first that comes
short. On an open regular file this is the plain call for all the vectors at once: the file is a
cursor, and how its data is cut does not matter.

What does matter is the kernel buffer. The plain call makes one for the whole length, the vectored
call one for every vector, and the heap may hold these and not that, or, since it never joins its
free blocks again, that and not these. When it cannot hold a buffer the kernel panics.

## Main definitions

* `OpenFiles`, `fileServices` — the file table and the open files below the system calls.
* `Serves` — the heap holds buffers of the given lengths, one after the other.
* `SameRead`, `SameWrite` — the vectored call does what the plain call does.

## Main results

* `vectored_eq_plain_iff` — exactly when the heap serves both.
-/
namespace Efiks.Syscall
open Lib Lib.RustM Mm Vfs Vsfs

/-! ### Open files below the system calls -/

/-- The file table of the caller, the open files it names, the mounted file system, and the
kernel heap. -/
structure OpenFiles (η : Type) where
  table : ℕ → Option ℕ
  files : ℕ → File
  mounted : Mounted
  heap : η

section Services
variable {η α : Type}

/-- A method of an open file. -/
def onFile (file : ℕ) (m : FileM α) : RustM (Machine × OpenFiles η) Errno α := fun s =>
  match m (s.2.mounted, s.2.files file) with
  | .ok a t => .ok a (s.1, { s.2 with
      mounted := t.1
      files := Function.update s.2.files file t.2 })
  | .err e t => .err (errnoOf e.into) (s.1, { s.2 with
      mounted := t.1
      files := Function.update s.2.files file t.2 })
  | .panic p => .panic p

/-- The file that `get_file` finds. -/
def onDescriptor (fd : ℕ) (f : ℕ → RustM (Machine × OpenFiles η) Errno α) :
    RustM (Machine × OpenFiles η) Errno α := do
  let found ← gets fun s => s.2.table fd
  let file ← okOr found .eNoEnt
  f file

/-- The services of the file table and the open files. `take n` is the heap after a vector of `n`
bytes has been made and dropped, if it has room for one; `base` has the services that reading and
writing do not use. -/
def fileServices (take : ℕ → η → Option η) (base : Services (OpenFiles η)) :
    Services (OpenFiles η) :=
  { base with
    hasFile := fun k fd => (k.table fd).isSome
    reserve := fun count s =>
      match take count s.2.heap with
      | some heap => .ok () (s.1, { s.2 with heap := heap })
      | none => .panic (.explicit "kernel ran out of memory")
    readFile := fun fd count => onDescriptor fd fun file => do
      let r ← onFile file (File.read (fun _ => 0) count)
      pure ((List.range r.1).map r.2)
    writeFile := fun fd bytes => onDescriptor fd fun file =>
      onFile file (File.write (bufOf bytes) bytes.length) }

end Services

/-! ### Vectors in user memory -/

/-- The vector at address `a`: a base and a length. -/
def entryOf (view : Mem) (a : ℕ) : ℕ × ℕ :=
  let kvec := (List.range ioVecSize).map fun i => view (a + i)
  (usizeOf (kvec.take 8), usizeOf (kvec.drop 8))

/-- The `n` vectors from address `a` on. -/
def iovecs (view : Mem) : ℕ → ℕ → List (ℕ × ℕ)
  | _, 0 => []
  | a, n + 1 => entryOf view a :: iovecs view (a + ioVecSize) n

/-- The summed length. -/
def total (iov : List (ℕ × ℕ)) : ℕ := (iov.map Prod.snd).sum

/-- The bytes of a buffer. -/
def bytesAt (view : Mem) (e : ℕ × ℕ) : List UInt8 := (List.range e.2).map fun i => view (e.1 + i)

/-- The concatenated buffers. -/
def gather (view : Mem) (iov : List (ℕ × ℕ)) : List UInt8 := iov.flatMap (bytesAt view)

/-- The memory after `bytes` have been scattered over the buffers in order. -/
def scatter (view : Mem) : List (ℕ × ℕ) → List UInt8 → Mem
  | [], _ => view
  | e :: iov, bytes =>
      scatter (view.blit e.1 (min e.2 bytes.length) (bufOf bytes)) iov (bytes.drop e.2)

/-! ### Buffers in the kernel heap -/

section Heap
variable {η : Type} (take : ℕ → η → Option η)

/-- The heap after a call for `n` bytes; a call for none makes no buffer. -/
def heapAfter (n : ℕ) (heap : η) : Option η := if n = 0 then some heap else take n heap

/-- The heap has room for calls of the given lengths, one after the other. -/
def Serves : List ℕ → η → Prop
  | [], _ => True
  | n :: ns, heap => ∃ heap', heapAfter take n heap = some heap' ∧ Serves ns heap'

end Heap

/-- The lengths that are asked for until one is more than is left of the file. -/
def asked : ℕ → List ℕ → List ℕ
  | _, [] => []
  | left, n :: ns => n :: if n ≤ left then asked (left - n) ns else []

/-! ### The calls on a cursor -/

inductive Direction
  | read
  | write

/-- What the calls change: the caller's memory, the file and the heap. -/
structure CallState (η : Type) where
  view : Mem
  cursor : Cursor UInt8
  heap : η

section Abstract
variable {η : Type} (take : ℕ → η → Option η)

/-- A plain call. -/
def CallState.call (st : CallState η) (e : ℕ × ℕ) : Direction → Option (CallState η)
  | .read => (heapAfter take e.2 st.heap).map fun heap =>
      ⟨st.view.blit e.1 (st.cursor.room e.2) (bufOf (st.cursor.read e.2).1),
        (st.cursor.read e.2).2, heap⟩
  | .write => (heapAfter take e.2 st.heap).map fun heap =>
      ⟨st.view, (st.cursor.write (bytesAt st.view e)).2, heap⟩

/-- A vectored call after `done` bytes. -/
def CallState.vectored (dir : Direction) :
    List (ℕ × ℕ) → CallState η → ℕ → Option (ℕ × CallState η)
  | [], st, done => some (done, st)
  | e :: iov, st, done =>
      match st.call take e dir with
      | none => none
      | some st' =>
          if st.cursor.room e.2 < e.2 then some (done + st.cursor.room e.2, st')
          else CallState.vectored dir iov st' (done + st.cursor.room e.2)

end Abstract

section AbstractRuns
variable {η : Type} {take : ℕ → η → Option η} {st st' : CallState η} {e : ℕ × ℕ} {dir : Direction}

theorem length_bytesAt (view : Mem) (e : ℕ × ℕ) : (bytesAt view e).length = e.2 := by
  simp [bytesAt]

theorem CallState.call_eq_none (dir : Direction) :
    st.call take e dir = none ↔ heapAfter take e.2 st.heap = none := by
  cases dir <;> exact Option.map_eq_none_iff

theorem CallState.heap_of_call (h : st.call take e dir = some st') :
    heapAfter take e.2 st.heap = some st'.heap := by
  cases dir <;> (obtain ⟨heap, hheap, rfl⟩ := Option.map_eq_some_iff.mp h; exact hheap)

theorem CallState.pos_of_call (h : st.call take e dir = some st') :
    st'.cursor.pos = st.cursor.pos + st.cursor.room e.2 ∧
      st'.cursor.data.length = st.cursor.data.length := by
  cases dir with
  | read =>
      obtain ⟨heap, -, rfl⟩ := Option.map_eq_some_iff.mp h
      exact ⟨rfl, rfl⟩
  | write =>
      obtain ⟨heap, -, rfl⟩ := Option.map_eq_some_iff.mp h
      refine ⟨?_, Cursor.length_patch _ _⟩
      rw [Cursor.write_pos, length_bytesAt]

/-- A vectored call that the heap cannot serve. -/
theorem CallState.vectored_eq_none (iov : List (ℕ × ℕ)) (st : CallState η) (done : ℕ)
    (h : ¬Serves take (asked (st.cursor.data.length - st.cursor.pos) (iov.map Prod.snd)) st.heap) :
    st.vectored take dir iov done = none := by
  induction iov generalizing st done with
  | nil => exact absurd trivial h
  | cons e iov ih =>
      rw [CallState.vectored]
      cases hcall : st.call take e dir with
      | none => rfl
      | some st' =>
          have hheap := heap_of_call hcall
          obtain ⟨hpos, hlen⟩ := pos_of_call hcall
          dsimp only
          by_cases hshort : st.cursor.room e.2 < e.2
          · refine absurd ⟨st'.heap, hheap, ?_⟩ h
            rw [if_neg (by simp only [Cursor.room] at hshort; omega)]
            trivial
          · have hfull : st.cursor.room e.2 = e.2 := by
              have := st.cursor.room_le e.2
              omega
            have hle : e.2 ≤ st.cursor.data.length - st.cursor.pos := by
              simp only [Cursor.room] at hfull
              omega
            rw [if_neg hshort]
            refine ih st' _ fun hserves => h ⟨st'.heap, hheap, ?_⟩
            rw [if_pos hle]
            rwa [hlen, hpos, hfull, Nat.sub_add_eq] at hserves

theorem room_add_of_full {c : Cursor UInt8} {n : ℕ} (h : c.room n = n) (m : ℕ) :
    c.room (n + m) = n + (c.read n).2.room m := by
  simp only [Cursor.room, Cursor.read_data, Cursor.read_pos] at h ⊢
  omega

theorem room_add_of_short {c : Cursor UInt8} {n : ℕ} (h : c.room n < n) (m : ℕ) :
    c.room (n + m) = c.room n := by
  simp only [Cursor.room] at h ⊢
  omega

theorem scatter_nil (view : Mem) (iov : List (ℕ × ℕ)) : scatter view iov [] = view := by
  induction iov generalizing view with
  | nil => rfl
  | cons e iov ih => rw [scatter, List.length_nil, Nat.min_zero, Mem.blit_zero, List.drop_nil, ih]

/-- The bytes of a read that are beyond the first vector. -/
theorem drop_read (c : Cursor UInt8) (n m : ℕ) :
    (c.read (n + m)).1.drop n = ((c.read n).2.read m).1 := by
  have hlen := c.length_read n
  rw [Cursor.read_add]
  by_cases hshort : c.room n < n
  · rw [c.read_read_of_short hshort, List.append_nil]
    exact List.drop_eq_nil_of_le (hlen.trans_le (c.room_le n))
  · have hfull : (c.read n).1.length = n := by
      have := c.room_le n
      omega
    exact List.drop_left' hfull

/-- The first vector gets the first bytes of a read. -/
theorem blit_read (view : Mem) (c : Cursor UInt8) (a n m : ℕ) :
    view.blit a (min n (c.read (n + m)).1.length) (bufOf (c.read (n + m)).1) =
      view.blit a (c.room n) (bufOf (c.read n).1) := by
  have hmin : min n (c.read (n + m)).1.length = c.room n := by
    rw [c.length_read]
    simp only [Cursor.room]
    omega
  rw [hmin]
  refine Mem.blit_congr fun i hi => ?_
  have hlt : i < c.room (n + m) := by
    simp only [Cursor.room] at hi ⊢
    omega
  rw [bufOf_eq_getD, bufOf_eq_getD, c.getElem?_read hi, c.getElem?_read hlt]

/-- A vectored read is one read. -/
theorem CallState.vectored_read (iov : List (ℕ × ℕ)) (st : CallState η) (done : ℕ)
    (h : Serves take (asked (st.cursor.data.length - st.cursor.pos) (iov.map Prod.snd)) st.heap) :
    ∃ heap, st.vectored take .read iov done = some (done + st.cursor.room (total iov),
      ⟨scatter st.view iov (st.cursor.read (total iov)).1, (st.cursor.read (total iov)).2, heap⟩) := by
  induction iov generalizing st done with
  | nil =>
      refine ⟨st.heap, ?_⟩
      rw [total, List.map_nil, List.sum_nil, st.cursor.read_of_room st.cursor.room_zero,
        st.cursor.room_zero]
      rfl
  | cons e iov ih =>
      obtain ⟨heap, hheap, hserves⟩ := h
      have htotal : total (e :: iov) = e.2 + total iov := List.sum_cons
      have hcall : st.call take e .read =
          some ⟨st.view.blit e.1 (st.cursor.room e.2) (bufOf (st.cursor.read e.2).1),
            (st.cursor.read e.2).2, heap⟩ := by
        rw [CallState.call, hheap, Option.map_some]
      rw [CallState.vectored, hcall, htotal, scatter, blit_read, drop_read]
      dsimp only
      by_cases hshort : st.cursor.room e.2 < e.2
      · rw [if_pos hshort, st.cursor.read_of_short hshort, st.cursor.read_read_of_short hshort,
          scatter_nil, room_add_of_short hshort]
        exact ⟨heap, rfl⟩
      · have hfull : st.cursor.room e.2 = e.2 := by
          have := st.cursor.room_le e.2
          omega
        have hle : e.2 ≤ st.cursor.data.length - st.cursor.pos := by
          simp only [Cursor.room] at hfull
          omega
        rw [if_pos hle] at hserves
        obtain ⟨heap', hrun⟩ := ih ⟨st.view.blit e.1 (st.cursor.room e.2)
          (bufOf (st.cursor.read e.2).1), (st.cursor.read e.2).2, heap⟩ (done + st.cursor.room e.2) (by
            rw [Cursor.read_data, Cursor.read_pos, hfull, Nat.sub_add_eq]
            exact hserves)
        refine ⟨heap', ?_⟩
        rw [if_neg hshort, hrun, room_add_of_full hfull, st.cursor.read_add, hfull, Nat.add_assoc]

/-- A vectored write is one write. -/
theorem CallState.vectored_write (iov : List (ℕ × ℕ)) (st : CallState η) (done : ℕ)
    (h : Serves take (asked (st.cursor.data.length - st.cursor.pos) (iov.map Prod.snd)) st.heap) :
    ∃ heap, st.vectored take .write iov done = some (done + st.cursor.room (total iov),
      ⟨st.view, (st.cursor.write (gather st.view iov)).2, heap⟩) := by
  induction iov generalizing st done with
  | nil =>
      refine ⟨st.heap, ?_⟩
      rw [total, List.map_nil, List.sum_nil, st.cursor.room_zero, gather, List.flatMap_nil,
        st.cursor.write_of_room (l := []) st.cursor.room_zero]
      rfl
  | cons e iov ih =>
      obtain ⟨heap, hheap, hserves⟩ := h
      have htotal : total (e :: iov) = e.2 + total iov := List.sum_cons
      have hcall : st.call take e .write =
          some ⟨st.view, (st.cursor.write (bytesAt st.view e)).2, heap⟩ := by
        rw [CallState.call, hheap, Option.map_some]
      have hlen := length_bytesAt st.view e
      rw [CallState.vectored, hcall, htotal, gather, List.flatMap_cons]
      dsimp only
      by_cases hshort : st.cursor.room e.2 < e.2
      · rw [if_pos hshort, st.cursor.write_of_short (by rwa [hlen]), room_add_of_short hshort]
        exact ⟨heap, rfl⟩
      · have hfull : st.cursor.room e.2 = e.2 := by
          have := st.cursor.room_le e.2
          omega
        have hle : e.2 ≤ st.cursor.data.length - st.cursor.pos := by
          simp only [Cursor.room] at hfull
          omega
        rw [if_pos hle] at hserves
        obtain ⟨heap', hrun⟩ := ih ⟨st.view, (st.cursor.write (bytesAt st.view e)).2, heap⟩
          (done + st.cursor.room e.2) (by
            rw [Cursor.write_data, Cursor.length_patch, Cursor.write_pos, hlen, hfull,
              Nat.sub_add_eq]
            exact hserves)
        refine ⟨heap', ?_⟩
        have hroom : (st.cursor.write (bytesAt st.view e)).2.room (total iov) =
            (st.cursor.read e.2).2.room (total iov) := by
          simp only [Cursor.room, Cursor.write_data, Cursor.length_patch, Cursor.write_pos, hlen,
            Cursor.read_data, Cursor.read_pos]
        rw [if_neg hshort, hrun, hroom, room_add_of_full hfull, st.cursor.write_append, hfull,
          Nat.add_assoc, gather]

end AbstractRuns

/-! ### The calls on an open file -/

/-- The open file `file` is a cursor over file `inum` of the disk `s₀`; everything else is as in
`k₀`. -/
structure FilesAt {η : Type} (s₀ : Mounted) (id inum file : ℕ) (k₀ : OpenFiles η)
    (c : Cursor UInt8) (heap : η) (k : OpenFiles η) : Prop where
  heap_eq : k.heap = heap
  table : k.table = k₀.table
  others : ∀ g ≠ file, k.files g = k₀.files g
  cursor : IsCursor s₀ id inum c (k.mounted, k.files file)

/-- A call in the abstract state `st`. -/
def InState {η : Type} (p : ℕ) (R W : ℕ → Prop) (s₀ : Mounted) (id inum file : ℕ)
    (k₀ : OpenFiles η) (st : CallState η) (w : World (OpenFiles η)) : Prop :=
  ∃ k, UserState p R W st.view k w ∧ FilesAt s₀ id inum file k₀ st.cursor st.heap k

/-- The call ends in the given abstract state, or panics when there is none. -/
inductive EndsIn {η : Type} (p : ℕ) (R W : ℕ → Prop) (s₀ : Mounted) (id inum file : ℕ)
    (k₀ : OpenFiles η) (m : SysM (OpenFiles η) ℕ) (w : World (OpenFiles η)) :
    Option (ℕ × CallState η) → Prop
  | ok {n : ℕ} {st : CallState η} {w' : World (OpenFiles η)} (hrun : m w = .ok n w')
      (hin : InState p R W s₀ id inum file k₀ st w') :
      EndsIn p R W s₀ id inum file k₀ m w (some (n, st))
  | panics {q : Panic} {w' : World (OpenFiles η)} (hrun : m w = .err (.panicked q) w') :
      EndsIn p R W s₀ id inum file k₀ m w none

/-- The plain call. -/
def plain {κ : Type} (svc : Services κ) (p fd : ℕ) : Direction → ℕ → ℕ → SysM κ ℕ
  | .read => sysRead svc p fd
  | .write => sysWrite svc p fd

/-- What the plain call does to its buffer. -/
def Direction.allowed (R W : ℕ → Prop) : Direction → ℕ → Prop
  | .read => W
  | .write => R

section Concrete
variable {η : Type} {take : ℕ → η → Option η} {base : Services (OpenFiles η)}
variable {p fd file id inum : ℕ} {R W : ℕ → Prop} {s₀ : Mounted} {k₀ k : OpenFiles η}
variable {st st' : CallState η} {e : ℕ × ℕ} {dir : Direction} {w : World (OpenFiles η)}
variable {c c' : Cursor UInt8} {heap heap' : η} {view : Mem}

theorem onFile_run {α : Type} {m : FileM α} {a : α} {t : Mounted × File} {σ : Machine}
    (h : m (k.mounted, k.files file) = .ok a t) : onFile file m (σ, k) =
      .ok a (σ, { k with mounted := t.1, files := Function.update k.files file t.2 }) := by
  rw [onFile, h]

theorem onDescriptor_run {α : Type} {f : ℕ → RustM (Machine × OpenFiles η) Errno α} {σ : Machine}
    (h : k.table fd = some file) : onDescriptor fd f (σ, k) = f file (σ, k) := by
  rw [onDescriptor, bind_run_of_ok (gets_run _), bind_run_of_ok (okOr_run h _)]

theorem FilesAt.moved (h : FilesAt s₀ id inum file k₀ c heap k) {t : Mounted × File}
    (ht : IsCursor s₀ id inum c' t) : FilesAt s₀ id inum file k₀ c' heap
      { k with mounted := t.1, files := Function.update k.files file t.2 } where
  heap_eq := h.heap_eq
  table := h.table
  others g hg := (Function.update_of_ne hg _ _).trans (h.others g hg)
  cursor := by
    dsimp only
    rwa [Function.update_self]

theorem FilesAt.hasFile (take : ℕ → η → Option η) (base : Services (OpenFiles η))
    (hk : FilesAt s₀ id inum file k₀ c heap k) (hfd : k₀.table fd = some file)
    (hrest : w.rest = k) : (fileServices take base).hasFile w.rest fd = true := by
  change (w.rest.table fd).isSome = true
  rw [hrest, hk.table, hfd, Option.isSome_some]

theorem reserve_run (base : Services (OpenFiles η)) {n : ℕ} (h : UserState p R W view k w)
    (hk : FilesAt s₀ id inum file k₀ c heap k) (htake : take n heap = some heap') :
    ∃ k' w', service ((fileServices take base).reserve n) w = .ok () w' ∧
      UserState p R W view k' w' ∧ FilesAt s₀ id inum file k₀ c heap' k' := by
  have hrun : (fileServices take base).reserve n (w.machine, k) =
      .ok () (w.machine, { k with heap := heap' }) := by
    simp only [fileServices, hk.heap_eq, htake]
  obtain ⟨w', hw, h'⟩ := service_run h hrun
  exact ⟨_, w', hw, h', rfl, hk.table, hk.others, hk.cursor⟩

section Open
variable (take base)
variable (hs : s₀.NoFaults) (hwf : WellFormed s₀.disk s₀.superblock) (ho : Opened s₀ id inum)
variable (hfd : k₀.table fd = some file)
include hs hwf ho hfd

theorem readFile_run (n : ℕ) (h : UserState p R W view k w)
    (hk : FilesAt s₀ id inum file k₀ c heap k) :
    ∃ k' w', service ((fileServices take base).readFile fd n) w = .ok (c.read n).1 w' ∧
      UserState p R W view k' w' ∧ FilesAt s₀ id inum file k₀ (c.read n).2 heap k' := by
  obtain ⟨t, hread, ht⟩ := hk.cursor.read_run hs hwf ho (fun _ => 0) n
  have hbytes : (List.range (c.room n)).map
      (Mem.blit (fun _ => 0) 0 (c.room n) (bufOf (c.read n).1)) = (c.read n).1 :=
    bytes_cursorCall_read c (fun _ => 0) n
  have hrun : (fileServices take base).readFile fd n (w.machine, k) = .ok (c.read n).1
      (w.machine, { k with mounted := t.1, files := Function.update k.files file t.2 }) := by
    change onDescriptor fd _ _ = _
    rw [onDescriptor_run (hk.table ▸ hfd), bind_run_of_ok (onFile_run hread), pure_run, hbytes]
  obtain ⟨w', hw, h'⟩ := service_run h hrun
  exact ⟨_, w', hw, h', hk.moved ht⟩

theorem writeFile_run (bytes : List UInt8) (h : UserState p R W view k w)
    (hk : FilesAt s₀ id inum file k₀ c heap k) :
    ∃ k' w', service ((fileServices take base).writeFile fd bytes) w =
        .ok (c.room bytes.length) w' ∧
      UserState p R W view k' w' ∧ FilesAt s₀ id inum file k₀ (c.write bytes).2 heap k' := by
  obtain ⟨t, hwrite, ht⟩ := hk.cursor.write_run hs hwf ho bytes
  have hrun : (fileServices take base).writeFile fd bytes (w.machine, k) =
      .ok (c.room bytes.length)
        (w.machine, { k with mounted := t.1, files := Function.update k.files file t.2 }) := by
    change onDescriptor fd _ _ = _
    rw [onDescriptor_run (hk.table ▸ hfd), onFile_run hwrite]
  obtain ⟨w', hw, h'⟩ := service_run h hrun
  exact ⟨_, w', hw, h', hk.moved ht⟩

theorem sysRead_run {buf count : ℕ} (h : InState p R W s₀ id inum file k₀ st w)
    (hbuf : ∀ i < count, W (buf + i)) (hheap : heapAfter take count st.heap = some heap') :
    ∃ w', sysRead (fileServices take base) p fd buf count w = .ok (st.cursor.room count) w' ∧
      InState p R W s₀ id inum file k₀
        ⟨st.view.blit buf (st.cursor.room count) (bufOf (st.cursor.read count).1),
          (st.cursor.read count).2, heap'⟩ w' := by
  obtain ⟨k, hu, hk⟩ := h
  by_cases hz : count = 0
  · rw [heapAfter, if_pos hz, Option.some.injEq] at hheap
    have hroom : st.cursor.room count = 0 := hz ▸ st.cursor.room_zero
    rw [hroom, Mem.blit_zero, st.cursor.read_of_room hroom, ← hheap]
    refine ⟨w, ?_, k, hu, hk⟩
    rw [sysRead, if_pos hz, pure_run]
  · rw [heapAfter, if_neg hz] at hheap
    have hlen := st.cursor.length_read count
    have hle := st.cursor.room_le count
    obtain ⟨k₁, w₁, hreserve, hu₁, hk₁⟩ := reserve_run base hu hk hheap
    obtain ⟨k₂, w₂, hread, hu₂, hk₂⟩ := readFile_run take base hs hwf ho hfd count hu₁ hk₁
    obtain ⟨w₃, hcopy, hu₃⟩ := copyIntoUser_run hu₂ (st.cursor.read count).1 fun j hj =>
      hbuf j (by omega)
    rw [hlen] at hu₃
    refine ⟨w₃, ?_, k₂, hu₃, hk₂⟩
    rw [sysRead, if_neg hz, bind_run_of_ok (gets_run _), hk.hasFile take base hfd hu.rest,
      Bool.not_true, if_neg Bool.false_ne_true, bind_run_of_ok hreserve, bind_run_of_ok hread,
      bind_run_of_ok hcopy, pure_run, hlen]

theorem sysWrite_run (h : InState p R W s₀ id inum file k₀ st w)
    (hbuf : ∀ i < e.2, R (e.1 + i)) (hheap : heapAfter take e.2 st.heap = some heap') :
    ∃ w', sysWrite (fileServices take base) p fd e.1 e.2 w = .ok (st.cursor.room e.2) w' ∧
      InState p R W s₀ id inum file k₀
        ⟨st.view, (st.cursor.write (bytesAt st.view e)).2, heap'⟩ w' := by
  obtain ⟨k, hu, hk⟩ := h
  have hlen := length_bytesAt st.view e
  by_cases hz : e.2 = 0
  · rw [heapAfter, if_pos hz, Option.some.injEq] at hheap
    have hroom : st.cursor.room e.2 = 0 := hz ▸ st.cursor.room_zero
    rw [hroom, st.cursor.write_of_room (by rwa [hlen]), ← hheap]
    refine ⟨w, ?_, k, hu, hk⟩
    rw [sysWrite, if_pos hz, pure_run]
  · rw [heapAfter, if_neg hz] at hheap
    obtain ⟨k₁, w₁, hreserve, hu₁, hk₁⟩ := reserve_run base hu hk hheap
    obtain ⟨w₂, hcopy, hu₂⟩ := copyFromUser_run hu₁ (i := 0) hbuf []
    obtain ⟨k₃, w₃, hwrite, hu₃, hk₃⟩ :=
      writeFile_run take base hs hwf ho hfd (bytesAt st.view e) hu₂ hk₁
    rw [hlen] at hwrite
    refine ⟨w₃, ?_, k₃, hu₃, hk₃⟩
    rw [sysWrite, if_neg hz, bind_run_of_ok (gets_run _), hk.hasFile take base hfd hu.rest,
      Bool.not_true, if_neg Bool.false_ne_true, bind_run_of_ok hreserve, bind_run_of_ok hcopy]
    exact hwrite

/-- A plain call does what the call on the cursor does. -/
theorem plain_run (h : InState p R W s₀ id inum file k₀ st w)
    (hbuf : ∀ i < e.2, dir.allowed R W (e.1 + i)) (hcall : st.call take e dir = some st') :
    ∃ w', plain (fileServices take base) p fd dir e.1 e.2 w = .ok (st.cursor.room e.2) w' ∧
      InState p R W s₀ id inum file k₀ st' w' := by
  cases dir with
  | read =>
      obtain ⟨heap', hheap, rfl⟩ := Option.map_eq_some_iff.mp hcall
      exact sysRead_run take base hs hwf ho hfd h hbuf hheap
  | write =>
      obtain ⟨heap', hheap, rfl⟩ := Option.map_eq_some_iff.mp hcall
      exact sysWrite_run take base hs hwf ho hfd h hbuf hheap

omit hs hwf ho in
/-- A plain call panics when the heap has no room for its buffer. -/
theorem plain_panics (h : InState p R W s₀ id inum file k₀ st w)
    (hcall : st.call take e dir = none) : ∃ q w',
      plain (fileServices take base) p fd dir e.1 e.2 w = .err (.panicked q) w' := by
  obtain ⟨k, hu, hk⟩ := h
  have hheap := (CallState.call_eq_none dir).mp hcall
  have hz : e.2 ≠ 0 := by
    intro hz
    rw [heapAfter, if_pos hz] at hheap
    cases hheap
  rw [heapAfter, if_neg hz] at hheap
  have hreserve : service ((fileServices take base).reserve e.2) w =
      .err (.panicked (.explicit "kernel ran out of memory")) w := by
    rw [service, embed]
    simp only [fileServices, hu.rest, hk.heap_eq, hheap]
  refine ⟨.explicit "kernel ran out of memory", w, ?_⟩
  cases dir with
  | read =>
      rw [plain, sysRead, if_neg hz, bind_run_of_ok (gets_run _), hk.hasFile take base hfd hu.rest,
        Bool.not_true, if_neg Bool.false_ne_true, bind_run, hreserve]
  | write =>
      rw [plain, sysWrite, if_neg hz, bind_run_of_ok (gets_run _), hk.hasFile take base hfd hu.rest,
        Bool.not_true, if_neg Bool.false_ne_true, bind_run, hreserve]

end Open

end Concrete

/-! ### The loop -/

/-- A buffer that a vectored call may use, apart from the addresses `A` of the vectors. -/
structure Buffer (dir : Direction) (R W A : ℕ → Prop) (e : ℕ × ℕ) : Prop where
  allowed : ∀ i < e.2, dir.allowed R W (e.1 + i)
  apart : ∀ i < e.2, ¬A (e.1 + i)

section Loop
variable {η : Type} {p fd file id inum : ℕ} {R W A : ℕ → Prop} {s₀ : Mounted} {k₀ k : OpenFiles η}
variable {st st' : CallState η} {e : ℕ × ℕ} {dir : Direction} {w : World (OpenFiles η)} {view : Mem}

section Turn
variable {κ α : Type} {m : SysM κ α} {move : ℕ → ℕ → SysM κ ℕ} {w w₁ w₂ : World κ}
variable {a len done n : ℕ}

theorem result_ok {x : α} (h : m w = .ok x w₁) : result m w = .ok (.ok x) w₁ := by
  have hmap : (Except.ok <$> m : SysM κ (Except Errno α)) w = .ok (.ok x) w₁ := bind_run_of_ok h _
  rw [result, catchErr, hmap]

theorem result_err {stop : Stop} (h : m w = .err stop w₁) :
    result m w = match stop with
      | .err e => .ok (.error e) w₁
      | stop => .err stop w₁ := by
  have hmap : (Except.ok <$> m : SysM κ (Except Errno α)) w = .err stop w₁ := by
    change (m >>= fun x => pure (Except.ok x)) w = _
    rw [bind_run, h]
  rw [result, catchErr, hmap]
  cases stop <;> rfl

variable (hload : copyFromUser p a ioVecSize 0 [] w =
  .ok ((List.range ioVecSize).map fun i => view (a + i)) w₁)
include hload

/-- A turn of the loop that is the last. -/
theorem vectorLoop_last (hrun : move (entryOf view a).1 (entryOf view a).2 w₁ = .ok n w₂)
    (hlt : done + n < 2 ^ 64) (hlast : n < (entryOf view a).2 ∨ len = 0) :
    vectorLoop p move (len + 1) a done w = .ok (done + n) w₂ := by
  simp only [entryOf] at hrun hlast
  rw [vectorLoop, bind_run_of_ok hload, bind_run_of_ok (result_ok hrun)]
  dsimp only
  rw [if_neg (Nat.not_le.mpr hlt), if_pos hlast, pure_run]

/-- A turn of the loop with another one after it. -/
theorem vectorLoop_next (hrun : move (entryOf view a).1 (entryOf view a).2 w₁ = .ok n w₂)
    (hlt : done + n < 2 ^ 64) (hnext : ¬(n < (entryOf view a).2 ∨ len = 0))
    (ha : a + ioVecSize < 2 ^ 64) : vectorLoop p move (len + 1) a done w =
      vectorLoop p move len (a + ioVecSize) (done + n) w₂ := by
  simp only [entryOf] at hrun hnext
  have hoffset : offsetOne a ioVecSize = some (a + ioVecSize) := if_pos ha
  rw [vectorLoop, bind_run_of_ok hload, bind_run_of_ok (result_ok hrun)]
  dsimp only
  rw [if_neg (Nat.not_le.mpr hlt), if_neg hnext, bind_run_of_ok (okOr_run hoffset _)]

/-- The first error is returned. -/
theorem vectorLoop_fails {e : Errno}
    (hrun : move (entryOf view a).1 (entryOf view a).2 w₁ = .err (.err e) w₂) :
    vectorLoop p move (len + 1) a 0 w = .err (.err e) w₂ := by
  simp only [entryOf] at hrun
  rw [vectorLoop, bind_run_of_ok hload, bind_run_of_ok (result_err hrun)]
  rfl

theorem vectorLoop_panics {q : Panic}
    (hrun : move (entryOf view a).1 (entryOf view a).2 w₁ = .err (.panicked q) w₂) :
    vectorLoop p move (len + 1) a done w = .err (.panicked q) w₂ := by
  simp only [entryOf] at hrun
  rw [vectorLoop, bind_run_of_ok hload, bind_run, result_err hrun]

end Turn

theorem iovecs_congr {view view' : Mem} {a n : ℕ}
    (h : ∀ i < ioVecSize * n, view' (a + i) = view (a + i)) :
    iovecs view' a n = iovecs view a n := by
  induction n generalizing a with
  | zero => rfl
  | succ n ih =>
      have hkvec : (List.range ioVecSize).map (fun i => view' (a + i)) =
          (List.range ioVecSize).map fun i => view (a + i) :=
        List.map_congr_left fun i hi => h i (by
          have := List.mem_range.mp hi
          unfold ioVecSize at *
          omega)
      have hrest : iovecs view' (a + ioVecSize) n = iovecs view (a + ioVecSize) n :=
        ih fun i hi => by
          have := h (ioVecSize + i) (by unfold ioVecSize at *; omega)
          rwa [← Nat.add_assoc] at this
      simp only [iovecs, entryOf, hkvec, hrest]

/-- The call does not change the vectors. -/
theorem CallState.view_of_call {take : ℕ → η → Option η} (hcall : st.call take e dir = some st')
    (hbuf : Buffer dir R W A e) {x : ℕ} (hx : A x) : st'.view x = st.view x := by
  cases dir with
  | read =>
      obtain ⟨heap, -, rfl⟩ := Option.map_eq_some_iff.mp hcall
      have hle := st.cursor.room_le e.2
      refine Mem.blit_of_notMem ?_
      by_contra hin
      refine hbuf.apart (x - e.1) (by omega) ?_
      rwa [Nat.add_sub_of_le (by omega)]
  | write =>
      obtain ⟨heap, -, rfl⟩ := Option.map_eq_some_iff.mp hcall
      rfl

theorem EndsIn.congr {m m' : SysM (OpenFiles η) ℕ} {w' : World (OpenFiles η)}
    {o : Option (ℕ × CallState η)} (h : EndsIn p R W s₀ id inum file k₀ m w o)
    (heq : m' w' = m w) : EndsIn p R W s₀ id inum file k₀ m' w' o := by
  cases h with
  | ok hrun hin => exact .ok (heq.trans hrun) hin
  | panics hrun => exact .panics (heq.trans hrun)

section Open
variable (take : ℕ → η → Option η) (base : Services (OpenFiles η))
variable (hs : s₀.NoFaults) (hwf : WellFormed s₀.disk s₀.superblock) (ho : Opened s₀ id inum)
variable (hfd : k₀.table fd = some file)
include hs hwf ho hfd

/-- The loop of a vectored call does what the vectored call on the cursor does. -/
theorem vectorLoop_run (hA : ∀ x, A x → R x) (len a done : ℕ) (st : CallState η)
    (w : World (OpenFiles η)) (h : InState p R W s₀ id inum file k₀ st w)
    (harr : ∀ i < ioVecSize * len, A (a + i))
    (hbuf : ∀ e ∈ iovecs st.view a len, Buffer dir R W A e) (hdone : done ≤ st.cursor.pos) :
    EndsIn p R W s₀ id inum file k₀
      (vectorLoop p (plain (fileServices take base) p fd dir) len a done) w
      (st.vectored take dir (iovecs st.view a len) done) := by
  induction len generalizing a done st w with
  | zero => exact .ok rfl h
  | succ len ih =>
      have hfirst : ∀ i < ioVecSize, A (a + i) := fun i hi =>
        harr i (by unfold ioVecSize at *; omega)
      obtain ⟨k, hu, hk⟩ := h
      obtain ⟨w₁, hload, hu₁⟩ := copyFromUser_run hu (i := 0)
        (fun j hj => hA _ (hfirst j hj)) []
      rw [List.nil_append, Nat.add_zero] at hload
      have hin₁ : InState p R W s₀ id inum file k₀ st w₁ := ⟨k, hu₁, hk⟩
      have hbuf₁ : Buffer dir R W A (entryOf st.view a) := hbuf _ List.mem_cons_self
      have hrest : ∀ i < ioVecSize * len, A (a + ioVecSize + i) := fun i hi => by
        rw [Nat.add_assoc]
        exact harr _ (by unfold ioVecSize at *; omega)
      rw [iovecs, CallState.vectored]
      cases hcall : st.call take (entryOf st.view a) dir with
      | none =>
          obtain ⟨q, w', hrun⟩ := plain_panics take base hfd hin₁ hcall
          exact .panics (vectorLoop_panics hload hrun)
      | some st' =>
          obtain ⟨w₂, hrun, hin₂⟩ := plain_run take base hs hwf ho hfd hin₁ hbuf₁.allowed hcall
          obtain ⟨hpos, -⟩ := CallState.pos_of_call hcall
          have hend := st.cursor.pos_add_room (entryOf st.view a).2
          have hsize := hk.cursor.lt
          have hlt : done + st.cursor.room (entryOf st.view a).2 < 2 ^ 64 := by omega
          have hsame : iovecs st'.view (a + ioVecSize) len =
              iovecs st.view (a + ioVecSize) len :=
            iovecs_congr fun i hi => CallState.view_of_call hcall hbuf₁ (hrest i hi)
          have hnext := ih (a + ioVecSize) (done + st.cursor.room (entryOf st.view a).2) st' w₂ hin₂
            hrest (fun e he => hbuf e (List.mem_cons_of_mem _ (hsame ▸ he))) (by omega)
          rw [hsame] at hnext
          dsimp only
          by_cases hlast : st.cursor.room (entryOf st.view a).2 < (entryOf st.view a).2 ∨ len = 0
          · have hdone : (if st.cursor.room (entryOf st.view a).2 < (entryOf st.view a).2 then
                some (done + st.cursor.room (entryOf st.view a).2, st')
              else st'.vectored take dir (iovecs st.view (a + ioVecSize) len)
                (done + st.cursor.room (entryOf st.view a).2)) =
                  some (done + st.cursor.room (entryOf st.view a).2, st') := by
              rcases hlast with hshort | rfl
              · rw [if_pos hshort]
              · exact ite_self _
            rw [hdone]
            exact .ok (vectorLoop_last hload hrun hlt hlast) hin₂
          · have ha : a + ioVecSize < 2 ^ 64 := by
              have hmore := hu.valid.user _ (.inl (hA _ (hrest 0 (by unfold ioVecSize; omega))))
              omega
            rw [if_neg (not_or.mp hlast).1]
            exact hnext.congr (vectorLoop_next hload hrun hlt hlast ha)

end Open

/-! A descriptor without a file -/

section Bad
variable (take : ℕ → η → Option η) (base : Services (OpenFiles η))

theorem plain_zero (hz : e.2 = 0) : plain (fileServices take base) p fd dir e.1 e.2 w = .ok 0 w := by
  cases dir with
  | read => rw [plain, sysRead, if_pos hz, pure_run]
  | write => rw [plain, sysWrite, if_pos hz, pure_run]

theorem plain_bad (hbad : w.rest.table fd = none) (hz : e.2 ≠ 0) :
    plain (fileServices take base) p fd dir e.1 e.2 w = .err (.err .eNoEnt) w := by
  have hfound : (fileServices take base).hasFile w.rest fd = false := by
    change (w.rest.table fd).isSome = false
    rw [hbad, Option.isSome_none]
  cases dir with
  | read =>
      rw [plain, sysRead, if_neg hz, bind_run_of_ok (gets_run _), hfound]
      rfl
  | write =>
      rw [plain, sysWrite, if_neg hz, bind_run_of_ok (gets_run _), hfound]
      rfl

/-- The empty vectors before the first that is not empty do not look at the descriptor. -/
theorem vectorLoop_bad (len a : ℕ) (w : World (OpenFiles η)) (h : UserState p R W view k w)
    (hbad : k.table fd = none) (harr : ∀ i < ioVecSize * len, R (a + i))
    (htotal : total (iovecs view a len) ≠ 0) : ∃ w',
      vectorLoop p (plain (fileServices take base) p fd dir) len a 0 w =
        .err (.err .eNoEnt) w' := by
  induction len generalizing a w with
  | zero => exact absurd rfl htotal
  | succ len ih =>
      obtain ⟨w₁, hload, h₁⟩ := copyFromUser_run h (n := ioVecSize) (i := 0)
        (fun j hj => harr j (by unfold ioVecSize at *; omega)) []
      rw [List.nil_append, Nat.add_zero] at hload
      by_cases hz : (entryOf view a).2 = 0
      · have htotal' : total (iovecs view (a + ioVecSize) len) ≠ 0 := by
          simpa [iovecs, total, hz] using htotal
        have hlen : len ≠ 0 := by
          rintro rfl
          exact htotal' rfl
        have hrest : ∀ i < ioVecSize * len, R (a + ioVecSize + i) := fun i hi => by
          rw [Nat.add_assoc]
          exact harr _ (by unfold ioVecSize at *; omega)
        have ha : a + ioVecSize < 2 ^ 64 := by
          have hmore := h.valid.user _ (.inl (hrest 0 (by unfold ioVecSize; omega)))
          omega
        have hrun : plain (fileServices take base) p fd dir (entryOf view a).1 (entryOf view a).2 w₁ =
            .ok 0 w₁ := plain_zero take base hz
        rw [vectorLoop_next hload hrun (by norm_num) (by omega) ha]
        exact ih (a + ioVecSize) w₁ h₁ hrest htotal'
      · exact ⟨w₁, vectorLoop_fails hload (plain_bad take base (h₁.rest ▸ hbad) hz)⟩

end Bad

end Loop

/-! ### The comparison -/

/-- Descriptor `fd` is open on the regular file `inum` of a well-formed disk without faults. -/
structure FileOpen {η : Type} (k : OpenFiles η) (fd file inum : ℕ) : Prop where
  descriptor : k.table fd = some file
  noFaults : k.mounted.NoFaults
  wellFormed : WellFormed k.mounted.disk k.mounted.superblock
  opened : Opened k.mounted (k.files file).inode inum
  offset : (k.files file).offset ≤
    (inodeAt k.mounted.disk k.mounted.superblock inum).metadata.sz.toNat

/-- The same file table, the same open files and the same disk. -/
def SameFiles {η : Type} (k k' : OpenFiles η) : Prop :=
  k'.table = k.table ∧ k'.files = k.files ∧ ∃ ops, k'.mounted = { k.mounted with ops := ops }

section Compare
variable {η : Type} (svc : Services (OpenFiles η)) (p fd ioVec len buf : ℕ) (view : Mem)
variable (w : World (OpenFiles η))

/-- `sys_readv` returns what one `sys_read` of the summed length into `buf` returns, leaves the
same file, and scatters the same bytes over the buffers. -/
def SameRead : Prop :=
  ∃ n bytes w₁ w₂, sysReadv svc p fd ioVec len w = .ok n w₁ ∧
    sysRead svc p fd buf (total (iovecs view ioVec len)) w = .ok n w₂ ∧ bytes.length = n ∧
    Sees p (scatter view (iovecs view ioVec len) bytes) w₁.machine ∧
    Sees p (view.blit buf n (bufOf bytes)) w₂.machine ∧ SameFiles w₁.rest w₂.rest

/-- `sys_writev` returns what one `sys_write` of the summed length from `buf` returns and leaves
the same file on the same disk. -/
def SameWrite : Prop :=
  ∃ n w₁ w₂, sysWritev svc p fd ioVec len w = .ok n w₁ ∧
    sysWrite svc p fd buf (total (iovecs view ioVec len)) w = .ok n w₂ ∧
    Sees p view w₁.machine ∧ Sees p view w₂.machine ∧ SameFiles w₁.rest w₂.rest

end Compare

section Main
variable {η : Type} {p fd file id inum : ℕ} {R W : ℕ → Prop} {s₀ : Mounted} {k₀ k k' : OpenFiles η}
variable {c : Cursor UInt8} {heap heap' : η} {w : World (OpenFiles η)} {view : Mem}

theorem FilesAt.sameFiles (h : FilesAt s₀ id inum file k₀ c heap k)
    (h' : FilesAt s₀ id inum file k₀ c heap' k') : SameFiles k k' := by
  obtain ⟨ops, heq⟩ := h.cursor.sameFile h'.cursor
  rw [Prod.mk.injEq] at heq
  refine ⟨h'.table.trans h.table.symm, funext fun g => ?_, ops, heq.1⟩
  by_cases hg : g = file
  · rw [hg, heq.2]
  · rw [h'.others g hg, h.others g hg]

/-- The cursor of the open file. -/
def FileOpen.cursor (h : FileOpen k fd file inum) : Cursor UInt8 :=
  ⟨contents k.mounted inum, (k.files file).offset, by simpa [contents] using h.offset⟩

theorem FileOpen.length_data (h : FileOpen k fd file inum) : h.cursor.data.length =
    (inodeAt k.mounted.disk k.mounted.superblock inum).metadata.sz.toNat := by
  simp [FileOpen.cursor, contents]

theorem FileOpen.inState (h : FileOpen w.rest fd file inum) (hu : UserState p R W view w.rest w) :
    InState p R W w.rest.mounted (w.rest.files file).inode inum file w.rest
      ⟨view, h.cursor, w.rest.heap⟩ w :=
  ⟨w.rest, hu, rfl, rfl, fun _ _ => rfl, rfl, holds_contents h.wellFormed h.opened, h.length_data⟩

/-- The heap has room for the buffers of both calls. -/
def Served (take : ℕ → η → Option η) (k : OpenFiles η) (file inum : ℕ) (iov : List (ℕ × ℕ)) : Prop :=
  Serves take [total iov] k.heap ∧
    Serves take (asked ((inodeAt k.mounted.disk k.mounted.superblock inum).metadata.sz.toNat -
      (k.files file).offset) (iov.map Prod.snd)) k.heap

section Calls
variable (take : ℕ → η → Option η) (base : Services (OpenFiles η)) {ioVec len buf : ℕ} {A : ℕ → Prop}
variable {dir : Direction}

/-- A vectored call from an open file. -/
theorem FileOpen.vectored_ends (h : FileOpen w.rest fd file inum)
    (hu : UserState p R W view w.rest w) (hA : ∀ x, A x → R x)
    (harr : ∀ i < ioVecSize * len, A (ioVec + i))
    (hbufs : ∀ e ∈ iovecs view ioVec len, Buffer dir R W A e) :
    EndsIn p R W w.rest.mounted (w.rest.files file).inode inum file w.rest
      (vectorLoop p (plain (fileServices take base) p fd dir) len ioVec 0) w
      (CallState.vectored take dir (iovecs view ioVec len) ⟨view, h.cursor, w.rest.heap⟩ 0) :=
  vectorLoop_run take base h.noFaults h.wellFormed h.opened h.descriptor hA len ioVec 0 _ w
    (h.inState hu) harr hbufs (Nat.zero_le _)

/-- A vectored read that the heap serves. -/
theorem FileOpen.readv_run (h : FileOpen w.rest fd file inum)
    (hu : UserState p R W view w.rest w) (hA : ∀ x, A x → R x)
    (harr : ∀ i < ioVecSize * len, A (ioVec + i))
    (hbufs : ∀ e ∈ iovecs view ioVec len, Buffer .read R W A e)
    (hserves : Serves take (asked (h.cursor.data.length - h.cursor.pos)
      ((iovecs view ioVec len).map Prod.snd)) w.rest.heap) :
    ∃ w' heap, sysReadv (fileServices take base) p fd ioVec len w =
        .ok (h.cursor.room (total (iovecs view ioVec len))) w' ∧
      InState p R W w.rest.mounted (w.rest.files file).inode inum file w.rest
        ⟨scatter view (iovecs view ioVec len) (h.cursor.read (total (iovecs view ioVec len))).1,
          (h.cursor.read (total (iovecs view ioVec len))).2, heap⟩ w' := by
  have hvec := h.vectored_ends take base hu hA harr hbufs
  obtain ⟨heap, hread⟩ := CallState.vectored_read (iovecs view ioVec len)
    ⟨view, h.cursor, w.rest.heap⟩ 0 hserves
  rw [hread, Nat.zero_add] at hvec
  cases hvec with
  | ok hrun hin => exact ⟨_, heap, hrun, hin⟩

/-- A vectored write that the heap serves. -/
theorem FileOpen.writev_run (h : FileOpen w.rest fd file inum)
    (hu : UserState p R W view w.rest w) (hA : ∀ x, A x → R x)
    (harr : ∀ i < ioVecSize * len, A (ioVec + i))
    (hbufs : ∀ e ∈ iovecs view ioVec len, Buffer .write R W A e)
    (hserves : Serves take (asked (h.cursor.data.length - h.cursor.pos)
      ((iovecs view ioVec len).map Prod.snd)) w.rest.heap) :
    ∃ w' heap, sysWritev (fileServices take base) p fd ioVec len w =
        .ok (h.cursor.room (total (iovecs view ioVec len))) w' ∧
      InState p R W w.rest.mounted (w.rest.files file).inode inum file w.rest
        ⟨view, (h.cursor.write (gather view (iovecs view ioVec len))).2, heap⟩ w' := by
  have hvec := h.vectored_ends take base hu hA harr hbufs
  obtain ⟨heap, hwrite⟩ := CallState.vectored_write (iovecs view ioVec len)
    ⟨view, h.cursor, w.rest.heap⟩ 0 hserves
  rw [hwrite, Nat.zero_add] at hvec
  cases hvec with
  | ok hrun hin => exact ⟨_, heap, hrun, hin⟩

/-- A plain call without room for its buffer. -/
theorem FileOpen.panics (dir : Direction) (h : FileOpen w.rest fd file inum)
    (hu : UserState p R W view w.rest w) {count : ℕ} (hheap : heapAfter take count w.rest.heap = none) : ∃ q w',
      plain (fileServices take base) p fd dir buf count w = .err (.panicked q) w' :=
  plain_panics take base h.descriptor (h.inState hu) (e := (buf, count))
    ((CallState.call_eq_none dir).mpr hheap)

/-- Calls that return have had their buffers. -/
theorem FileOpen.served_of_ok (h : FileOpen w.rest fd file inum)
    (hu : UserState p R W view w.rest w) (hA : ∀ x, A x → R x)
    (harr : ∀ i < ioVecSize * len, A (ioVec + i))
    (hbufs : ∀ e ∈ iovecs view ioVec len, Buffer dir R W A e) {n n' : ℕ}
    {w₁ w₂ : World (OpenFiles η)}
    (hvec : vectorLoop p (plain (fileServices take base) p fd dir) len ioVec 0 w = .ok n w₁)
    (hplain : plain (fileServices take base) p fd dir buf (total (iovecs view ioVec len)) w =
      .ok n' w₂) : Served take w.rest file inum (iovecs view ioVec len) := by
  constructor
  · cases hheap : heapAfter take (total (iovecs view ioVec len)) w.rest.heap with
    | none =>
        obtain ⟨q, w', hpanic⟩ := h.panics take base dir hu hheap
        exact nomatch hpanic.symm.trans hplain
    | some heap => exact ⟨heap, hheap, trivial⟩
  · by_contra hno
    rw [← h.length_data] at hno
    have hnone : CallState.vectored take dir (iovecs view ioVec len)
        ⟨view, h.cursor, w.rest.heap⟩ 0 = none :=
      CallState.vectored_eq_none _ ⟨view, h.cursor, w.rest.heap⟩ 0 hno
    have hends := h.vectored_ends take base hu hA harr hbufs
    rw [hnone] at hends
    cases hends with
    | panics hpanic => exact nomatch hpanic.symm.trans hvec

end Calls

end Main

/-- The kernel heap after a vector of `n` bytes has been made and dropped. `Vec` allocates at
least eight. -/
def vecHeap (a : Kmalloc.LinkedListAllocator) (n : ℕ) (m : Mem) : Option Mem :=
  if h : max 8 n ≤ 2 ^ 63 - 1 then
    let layout : Kmalloc.Layout := ⟨max 8 n, 1, ⟨0, rfl⟩, h⟩
    match (do
        let ptr ← a.alloc layout
        a.dealloc ptr layout : Kmalloc.HeapM Unit) m with
    | .ok _ m' => some m'
    | _ => none
  else none

/-- The 192 KiB of the kernel heap. -/
def kernelHeap : Kmalloc.LinkedListAllocator := ⟨0x1000, 0x31000, 0x1000⟩

/-- The heap when it is made, and when all but 48 bytes of it are in use. -/
def heaps : Option (Mem × Mem) :=
  match Kmalloc.LinkedListAllocator.new 0x1000 0x31000 fun _ => 0 with
  | .ok a m =>
      match a.alloc ⟨196520, 1, ⟨0, rfl⟩, by norm_num⟩ m with
      | .ok _ m' => some (m, m')
      | _ => none
  | _ => none

/-- A page with two vectors of eight bytes. -/
def twoVectors : List Op :=
  [.new 0, .mapAllocatePage 0 0x1000 (PteFlags.RW ||| PteFlags.U), .store 0 0x1001 0x11,
    .store 0 0x1008 8, .store 0 0x1011 0x12, .store 0 0x1018 8]

/-- Descriptor 3 is open on the small file. -/
def smallFiles (heap : Mem) : OpenFiles Mem where
  table fd := if fd = 3 then some 0 else none
  files _ := ⟨2, 0⟩
  mounted := smallMounted
  heap := heap

def InPage (a : ℕ) : Prop := a / 4096 = 1

theorem smallFiles_open (heap : Mem) : FileOpen (smallFiles heap) 3 0 2 :=
  ⟨rfl, fun _ => rfl, wellFormed_small, opened_small, Nat.zero_le _⟩

theorem smallFiles_left (heap : Mem) :
    (inodeAt (smallFiles heap).mounted.disk (smallFiles heap).mounted.superblock 2).metadata.sz.toNat -
      ((smallFiles heap).files 0).offset = 5 := by
  have hsize : (inodeAt smallDisk smallSuper 2).metadata.sz.toNat = 5 := by decide +kernel
  change (inodeAt smallDisk smallSuper 2).metadata.sz.toNat - 0 = 5
  rw [hsize]

theorem twoVectors_buffers {e : ℕ × ℕ} (he : e ∈ [(0x1100, 8), (0x1200, 8)]) :
    Buffer .read InPage InPage (fun x => 0x1000 ≤ x ∧ x < 0x1000 + ioVecSize * 2) e := by
  have hcases : e = (0x1100, 8) ∨ e = (0x1200, 8) := by simpa using he
  rcases hcases with rfl | rfl
  · refine ⟨fun i hi => ?_, fun i hi => ?_⟩ <;>
      simp only [Direction.allowed, InPage, ioVecSize] at hi ⊢ <;> omega
  · refine ⟨fun i hi => ?_, fun i hi => ?_⟩ <;>
      simp only [Direction.allowed, InPage, ioVecSize] at hi ⊢ <;> omega

theorem inPage_array : ∀ i < ioVecSize * 2, InPage (0x1000 + i) := fun i hi => by
  simp only [InPage, ioVecSize] at hi ⊢
  omega

theorem inPage_buffer : ∀ i < total [(0x1100, 8), (0x1200, 8)], InPage (0x1300 + i) := fun i hi => by
  simp only [InPage, total, List.map_cons, List.map_nil, List.sum_cons, List.sum_nil] at hi ⊢
  omega

theorem heaps_eq : heaps.map (fun h => ((vecHeap kernelHeap 16 h.1).isSome,
    (vecHeap kernelHeap 8 h.1).isSome, (vecHeap kernelHeap 16 h.2).isNone,
      (vecHeap kernelHeap 8 h.2).isSome)) = some (true, true, true, true) := by
  decide +kernel

theorem exists_twoVectors : ∃ σ ref, Reach (fun _ op => Lays UserPage op) bootMachine σ ref ∧
    iovecs (ref 0) 0x1000 2 = [(0x1100, 8), (0x1200, 8)] ∧
      ∀ heap, UserState 0 InPage InPage (ref 0) (smallFiles heap)
        ⟨σ, smallFiles heap, [], []⟩ := by
  have hrun : ((runOps (fun _ op => Lays UserPage op) twoVectors (bootMachine, fun _ _ => 0)).map
      fun s => (decide (0 ∈ s.1.live), iovecs (s.2 0) 0x1000 2,
        decide (pteAt s.1.sys (s.1.proc 0).mm.rootFrame (vpn 0x1000) ≠ 0),
        (Machine.entryFlags (pteAt s.1.sys (s.1.proc 0).mm.rootFrame (vpn 0x1000))).contains
          PteFlags.R,
        (Machine.entryFlags (pteAt s.1.sys (s.1.proc 0).mm.rootFrame (vpn 0x1000))).contains
          PteFlags.W)) =
      some (true, [(0x1100, 8), (0x1200, 8)], true, true, true) := by decide +kernel
  obtain ⟨s, hs, hfacts⟩ := Option.map_eq_some_iff.mp hrun
  simp only [Prod.mk.injEq] at hfacts
  obtain ⟨hlive, hiov, hne, hR, hW⟩ := hfacts
  have hreach : Reach (fun _ op => Lays UserPage op) bootMachine s.1 s.2 :=
    Reach.of_runOps twoVectors (Reach.start booted_bootMachine) hs
  obtain ⟨boot, -, -, hinv, hrep⟩ :=
    hreach.inv ⟨False, False⟩ false fun _ hlays => opOk_of_lays hlays
  have hsees : Sees 0 (s.2 0) s.1 := ⟨of_decide_eq_true hlive, boot, s.2, hinv, hrep, rfl⟩
  have hpage : ∀ a, InPage a → a < 2 ^ 38 ∧ vpn a = vpn 0x1000 := fun a ha => by
    have hlt : a < 2 ^ 38 := by
      unfold InPage at ha
      omega
    exact ⟨hlt, (vpn_eq_iff hlt (by norm_num)).mpr ha⟩
  have hpresent : ∀ access, (Machine.entryFlags (pteAt s.1.sys (s.1.proc 0).mm.rootFrame
      (vpn 0x1000))).contains access = true → ∀ a, InPage a → a < 2 ^ 38 ∧ Present s.1 0 a access :=
    fun access hacc a ha => by
      obtain ⟨hlt, hvpn⟩ := hpage a ha
      refine ⟨hlt, ?_, ?_⟩
      · rw [hvpn]
        exact of_decide_eq_true hne
      · rwa [hvpn]
  exact ⟨s.1, s.2, hreach, hiov, fun heap => ⟨hsees, hsees.valid (hpresent _ hR) (hpresent _ hW), rfl⟩⟩

end Efiks.Syscall

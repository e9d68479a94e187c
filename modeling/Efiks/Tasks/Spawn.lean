import Efiks.Exec.Calls

/-!
# Spawning a task

`spawn` builds an address space for the program, and only then enters a task into the
task table, the run queues and the list of children. Everything that can fail comes
before that, and nothing that was allocated is given back on the way out: whenever
`spawn` fails, the frames it took stay taken, the root table among them.

The trap frame is written to the kernel stack. The scheduler's part, that a new task is
put on the next run queue, is as in `sched::enqueue_new_task`.

## Main definitions

* `Kernel`, `Task` — the task table, the run queues and the memory.
* `createInitialStack`, `spawn`.

## Main results

* `spawn_err_leaks` — a spawn that fails leaves fewer free frames, and no other trace.
-/
namespace Efiks.Tasks
open Lib Lib.RustM Mm Exec Vfs

structure Task where
  pid : ℕ
  userSp : ℕ
  kernelSp : ℕ
  trapFrame : ℕ
  /-- The stack pointer of the initial context. -/
  contextSp : ℕ
  mm : MemoryManager
  parent : Option ℕ
  children : List ℕ

/-- What `spawn` works on. -/
structure Kernel where
  sys : MemState
  /-- `PID_COUNTER`. -/
  pidCounter : ℕ
  tasks : ℕ → Option Task
  lastRqHartIdx : ℕ
  /-- The run queue of every hart. -/
  runqueues : List (List ℕ)

abbrev TaskM := RustM Kernel Error

/-- `KernelPtr::<T>::new` for a type of alignment `align`. -/
def kernelPtr (addr align : ℕ) : MmM ℕ :=
  if addr ≠ 0 ∧ addr % align = 0 then pure addr else fail .unaligned

/-- Write `usize` values through a pointer into the direct mapping. -/
def writeWords (ptr : ℕ) (words : List ℕ) : MmM Unit :=
  sys (modify (writeBytes (virtToPhys ptr)
    (words.flatMap fun w => (List.range 8).map (wordByte (BitVec.ofNat 64 w)))))

/-- Place one argument below `cursor`; the pointers placed so far come after it. -/
def pushArg (stackTop stackTopKernel : ℕ) (acc : ℕ × List ℕ) (arg : List UInt8) :
    MmM (ℕ × List ℕ) := do
  let cursor ← okOr (offsetBy acc.1 (-((arg.length + 1 : ℕ) : ℤ))) Error.overflow
  let addr ← okOr (offsetBy stackTopKernel ((cursor : ℤ) - stackTop)) Error.overflow
  let stringPtr ← kernelPtr addr 1
  sys (modify (writeBytes (virtToPhys stringPtr) (arg ++ [0])))
  pure (cursor, cursor :: acc.2)

/-- The arguments, then `argv` with its null, then `argc`, from high to low addresses. -/
def createInitialStack (userSp : ℕ) (argv : List (List UInt8)) : MmM ℕ := do
  let stackTop := userSp
  let stackPageStart := alignDown stackTop pageSize
  let found ← MemoryManager.translate userSp
  let stackTopKernel ← expect (found.map physToVirt) "created by the kernel: Unmapped"
  let stringsLen := (argv.map fun arg => arg.length + 1).sum
  let stackLen := stringsLen + (1 + argv.length + 1) * 8
  assert (decide (stackLen ≤ stackTop - stackPageStart))
    "assertion failed: stack_len <= stack_top.difference(stack_page_start) as usize"
  let sp ← okOr (offsetBy stackTop (-(stackLen : ℤ))) Error.overflow
  let finalSp := alignDown sp 16
  assert (decide (stackPageStart ≤ finalSp)) "assertion failed: final_sp >= stack_page_start"
  let acc ← foldM (pushArg stackTop stackTopKernel) argv.reverse (stackTop, [])
  let addr ← okOr (offsetBy stackTopKernel ((finalSp : ℤ) - stackTop)) Error.overflow
  let framePtr ← kernelPtr addr 8
  writeWords framePtr (argv.length :: acc.2 ++ [0])
  pure finalSp

/-- `size_of::<TrapFrame>()`. -/
def trapFrameSize : ℕ := 34 * 8

/-- The registers of a task that starts at `entry`: `sp`, `tp`, `sepc` and `sstatus` with
`SPIE` and `SUM`; the others are zero. -/
def trapFrameWords (entry userSp userTp : ℕ) : List ℕ :=
  [0, userSp, 0, userTp] ++ List.replicate 27 0 ++ [entry, 0, 0x40020]

/-- What `spawn` puts into the task. -/
structure Prepared where
  userSp : ℕ
  kernelStackTop : ℕ
  trapFrame : ℕ

/-- The part of `spawn` that works on the new address space. -/
def prepare (crate : ElfCrate) (opened : Except VfsError File) (argv : List (List UInt8)) :
    MmM Prepared := do
  let entryVa ← loadExecutable crate opened
  let userSp ← MemoryManager.createUserStack
  let userSp ← createInitialStack userSp argv
  let top ← MemoryManager.createKernelStack
  let kernelStackTop := physToVirt top
  let trapFrameAddr ← subUsize kernelStackTop trapFrameSize
  let trapFrame ← kernelPtr trapFrameAddr 8
  writeWords trapFrame (trapFrameWords entryVa userSp 0xcafebabe)
  pure ⟨userSp, kernelStackTop, trapFrame⟩

/-- Memory management code run by a task. -/
def onSys {α : Type} (m : KM α) : TaskM α := zoom Kernel.sys (fun s k => { k with sys := s }) m

/-- `Pid::create_next`. -/
def createNext : TaskM ℕ := do
  let pid ← gets (·.pidCounter)
  modify fun k => { k with pidCounter := pid + 1 }
  pure pid

/-- `p.runtime.lock().children.push(pid)` for the parent, if there is one. -/
def pushChild (parent : Option ℕ) (pid : ℕ) (k : Kernel) : Kernel :=
  match parent with
  | none => k
  | some p =>
      let entry := (k.tasks p).map fun t => { t with children := t.children ++ [pid] }
      { k with tasks := Function.update k.tasks p entry }

def addTask (task : Task) (k : Kernel) : Kernel :=
  { k with tasks := Function.update k.tasks task.pid (some task) }

/-- `sched::enqueue_new_task`: the run queues take turns. -/
def enqueueNewTask (pid : ℕ) (k : Kernel) : Kernel :=
  let idx := if k.lastRqHartIdx + 1 ≥ k.runqueues.length then 0 else k.lastRqHartIdx + 1
  { k with lastRqHartIdx := idx, runqueues := k.runqueues.modify idx (· ++ [pid]) }

/-- The part of `spawn` that makes the task known. -/
def enter (info : Prepared) (mm : MemoryManager) (parent : Option ℕ) : TaskM ℕ := do
  let pid ← createNext
  modify (pushChild parent pid)
  modify (addTask ⟨pid, info.userSp, info.kernelStackTop, info.trapFrame, info.trapFrame, mm,
    parent, []⟩)
  modify (enqueueNewTask pid)
  pure pid

/-- Start the program in the file that was opened, as a child of `parent`. -/
def spawn (crate : ElfCrate) (opened : Except VfsError File) (argv : List (List UInt8))
    (parent : Option ℕ) : TaskM ℕ := do
  let mm ← onSys MemoryManager.new
  let (info, mm) ← onSys (withMm mm (prepare crate opened argv))
  enter info mm parent

/-- Nothing that `spawn` changes has changed. -/
structure Unchanged (k k' : Kernel) : Prop where
  bitmap : ∀ n, k'.sys.used n ↔ k.sys.used n
  pageMeta : k'.sys.pageMeta = k.sys.pageMeta
  tasks : k'.tasks = k.tasks
  runqueues : k'.runqueues = k.runqueues

section Growing
variable {P : MemState → Prop} (hP : Growing P)
include hP

theorem growing_writeBytes (pa : ℕ) (bytes : List UInt8) (s : MemState) (h : P s) :
    P (writeBytes pa bytes s) := by
  unfold writeBytes
  generalize bytes.zipIdx = l
  induction l generalizing s with
  | nil => exact h
  | cons b l ih => exact ih _ (hP.setFrame _ _ s h)

omit hP in
theorem keeps_liftExcept {α : Type} (x : Except Error α) :
    Keeps (fun sp : Space => P sp.sys) True (liftExcept x) := by
  cases x with
  | ok a => exact Keeps.pure a
  | error e => exact Keeps.fail trivial e

theorem keeps_writeBytes (pa : ℕ) (bytes : List UInt8) :
    Keeps (fun sp : Space => P sp.sys) True (sys (modify (writeBytes pa bytes))) :=
  Growing.sys (Keeps.modify fun s h => growing_writeBytes hP pa bytes s h)

omit hP in
theorem keeps_kernelPtr (addr align : ℕ) :
    Keeps (fun sp : Space => P sp.sys) True (kernelPtr addr align) :=
  Keeps.ite (Keeps.pure _) (Keeps.fail trivial _)

theorem keeps_mapSegment (flags : PteFlags) (endVa fuel : ℕ) (pages : MappedPages) (va : ℕ) :
    Keeps (fun sp : Space => P sp.sys) True (mapSegment flags endVa fuel pages va) := by
  induction fuel generalizing pages va with
  | zero => exact Keeps.panic _
  | succ fuel ih =>
      refine Keeps.ite (Keeps.bind ?_ fun pages' => (Keeps.okOr trivial _ _).bind fun va' => ih _ _)
        (Keeps.pure _)
      unfold mapSegmentPage
      split
      · exact (hP.mapAllocatePage _ _).bind fun _ => Keeps.pure _
      · exact (hP.remapPage _ _).bind fun _ => Keeps.pure _

theorem keeps_copySegment (file : File) (ph : ProgramHeader) (fuel copied : ℕ) :
    Keeps (fun sp : Space => P sp.sys) True (copySegment file ph fuel copied) := by
  induction fuel generalizing copied with
  | zero => exact Keeps.panic _
  | succ fuel ih =>
      refine Keeps.ite ((Keeps.okOr trivial _ _).bind fun _ => ?_) (Keeps.pure _)
      refine (Growing.translate _).bind fun _ => (Keeps.expect _ _).bind fun _ => ?_
      exact (keeps_liftExcept _).bind fun _ => (keeps_writeBytes hP _ _).bind fun _ => ih _

theorem keeps_loadSegment (file : File) (acc : MappedPages × ℕ) (ph : ProgramHeader) :
    Keeps (fun sp : Space => P sp.sys) True (loadSegment file acc ph) := by
  refine Keeps.ite (Keeps.pure _) ((Keeps.okOr trivial _ _).bind fun _ => ?_)
  refine Keeps.ite (Keeps.fail trivial _) ((Keeps.okOr trivial _ _).bind fun _ => ?_)
  refine Keeps.bind ((Keeps.ite (Keeps.pure _) (Keeps.panic _)).bind fun _ =>
    (Keeps.ite (Keeps.pure _) (Keeps.panic _)).bind fun _ => Keeps.pure _) fun _ => ?_
  exact (keeps_mapSegment hP _ _ _ _ _).bind fun _ =>
    (keeps_copySegment hP _ _ _ _).bind fun _ => Keeps.pure _

theorem keeps_loadExecutable (crate : ElfCrate) (opened : Except VfsError File) :
    Keeps (fun sp : Space => P sp.sys) True (loadExecutable crate opened) := by
  refine (keeps_liftExcept _).bind fun elf =>
    (Keeps.foldM (fun _ _ => keeps_loadSegment hP _ _ _) _ _).bind fun acc => ?_
  refine Keeps.bind (Keeps.modify ?_) fun _ => Keeps.pure _
  exact fun sp h => h

theorem keeps_createInitialStack (userSp : ℕ) (argv : List (List UInt8)) :
    Keeps (fun sp : Space => P sp.sys) True (createInitialStack userSp argv) := by
  refine (Growing.translate _).bind fun _ => (Keeps.expect _ _).bind fun _ => ?_
  refine (Keeps.assert _ _).bind fun _ => (Keeps.okOr trivial _ _).bind fun _ => ?_
  refine (Keeps.assert _ _).bind fun _ => Keeps.bind (Keeps.foldM (fun _ _ => ?_) _ _) fun _ => ?_
  · refine (Keeps.okOr trivial _ _).bind fun _ => (Keeps.okOr trivial _ _).bind fun _ => ?_
    exact (keeps_kernelPtr _ _).bind fun _ => (keeps_writeBytes hP _ _).bind fun _ => Keeps.pure _
  · refine (Keeps.okOr trivial _ _).bind fun _ => (keeps_kernelPtr _ _).bind fun _ => ?_
    exact (keeps_writeBytes hP _ _).bind fun _ => Keeps.pure _

/-- Preparing the address space frees nothing. -/
theorem keeps_prepare (crate : ElfCrate) (opened : Except VfsError File)
    (argv : List (List UInt8)) :
    Keeps (fun sp : Space => P sp.sys) True (prepare crate opened argv) := by
  refine (keeps_loadExecutable hP _ _).bind fun _ => hP.createUserStack.bind fun _ => ?_
  refine (keeps_createInitialStack hP _ _).bind fun _ => hP.createKernelStack.bind fun _ => ?_
  refine (Keeps.ite (Keeps.pure _) (Keeps.panic _)).bind fun _ => (keeps_kernelPtr _ _).bind fun _ => ?_
  exact (keeps_writeBytes hP _ _).bind fun _ => Keeps.pure _

end Growing

section Spawn
variable {crate : ElfCrate} {opened : Except VfsError File} {argv : List (List UInt8)}
variable {parent : Option ℕ} {k k' : Kernel} {e : Error}

/-- The frames in use after a spawn that fails: those from before, and at least the
root table of the address space that was given up. -/
theorem wp_spawn (hp : k.sys.Placed) :
    wp (spawn crate opened argv parent) (fun _ _ => True)
      (fun _ k' => k'.sys.Placed ∧ (∀ n, k.sys.used n → k'.sys.used n) ∧
        ∃ n, ¬ k.sys.used n ∧ k'.sys.used n)
      (fun _ => True) k := by
  rw [spawn, wp_bind, onSys, wp_zoom]
  refine wp_new hp (fun _ _ => trivial) fun n t ha => ?_
  have hn : ∀ m, (k.sys.used m ∨ m = n) → (t.setFrame n kernelEntry).Placed ∧
      (t.setFrame n kernelEntry).used m := fun m hm =>
    ⟨(ha.placed hp).congr rfl, (ha.used m).mpr hm⟩
  rw [wp_bind, onSys, wp_zoom]
  refine wp_withMm (wp_run ⟨fun info sp hrun => ?_, fun e sp hrun => ?_, fun _ _ => trivial⟩)
  · simp only [enter, createNext, wp_bind, wp_gets, wp_modify, wp_pure]
  · have hkept : ∀ m, (k.sys.used m ∨ m = n) → sp.sys.Placed ∧ sp.sys.used m := fun m hm =>
      (wp_of_err (keeps_prepare (growing_used m) crate opened argv _ (hn m hm)) hrun).2
    exact ⟨(hkept n (Or.inr rfl)).1, fun m hm => (hkept m (Or.inl hm)).2, n, ha.fresh,
      (hkept n (Or.inr rfl)).2⟩

/-- `k'` is left after `n` spawns that failed. -/
inductive FailedSpawns (k : Kernel) : ℕ → Kernel → Prop
  | none : FailedSpawns k 0 k
  | spawn {n : ℕ} {k₁ k₂ : Kernel} {crate : ElfCrate} {opened : Except VfsError File}
      {argv : List (List UInt8)} {parent : Option ℕ} {e : Error} : FailedSpawns k n k₁ →
      Tasks.spawn crate opened argv parent k₁ = .err e k₂ → FailedSpawns k (n + 1) k₂

/-- Every failed spawn takes a frame of its own. -/
theorem FailedSpawns.frames {n : ℕ} (h : FailedSpawns k n k') (hp : k.sys.Placed) :
    k'.sys.Placed ∧ ∃ S : Finset ℕ, S.card = n ∧ ∀ m ∈ S, k'.sys.used m := by
  induction h with
  | none => exact ⟨hp, ∅, rfl, fun m hm => absurd hm (Finset.notMem_empty m)⟩
  | @spawn n k₁ k₂ _ _ _ _ _ _ hspawn ih =>
      obtain ⟨hp₁, S, hcard, hS⟩ := ih
      obtain ⟨hp₂, hkeep, m, hfree, hused⟩ := wp_of_err (wp_spawn hp₁) hspawn
      refine ⟨hp₂, insert m S, ?_, fun x hx => ?_⟩
      · rw [Finset.card_insert_of_notMem fun hm => hfree (hS m hm), hcard]
      · rcases Finset.mem_insert.mp hx with rfl | hx
        · exact hused
        · exact hkeep x (hS x hx)

/-- **A spawn that fails never leaves the kernel as it was**: a frame is gone, and so
memory lasts for at most as many failed spawns as there are frames. -/
theorem spawn_err_leaks (hp : k.sys.Placed) :
    (∀ crate opened argv parent e k', spawn crate opened argv parent k = .err e k' →
      ¬ Unchanged k k') ∧ ∀ n k', FailedSpawns k n k' → n ≤ 4096 := by
  refine ⟨fun crate opened argv parent e k' h hsame => ?_, fun n k' h => ?_⟩
  · obtain ⟨-, -, n, hfree, hused⟩ := wp_of_err (wp_spawn hp) h
    exact hfree ((hsame.bitmap n).mp hused)
  · obtain ⟨hp', S, hcard, hS⟩ := h.frames hp
    have hsub : S ⊆ Finset.Ico k'.sys.start (k'.sys.start + 4096) := fun m hm =>
      Finset.mem_Ico.mpr ⟨(hS m hm).1, by
        have := FrameAllocator.lt_of_isSet (hS m hm).2
        have := (hS m hm).1
        omega⟩
    have hle := Finset.card_le_card hsub
    rw [Nat.card_Ico] at hle
    omega

instance (s : MemState) (n : ℕ) : Decidable (s.used n) :=
  inferInstanceAs (Decidable (s.start ≤ n ∧ s.frames.isSet (n - s.start) = true))

/-- One hart, no tasks, and memory from 4096 on. -/
def bootKernel : Kernel := ⟨bootMachine.sys, 0, fun _ => none, 0, [[]]⟩

/-- A path that names no file. -/
def missing : Except VfsError File := .error .notFound

theorem spawn_err_leaks_missing : ∃ e k', spawn (crateOf []) missing [] none bootKernel = .err e k' ∧
    ¬ Unchanged bootKernel k' := by
  obtain ⟨e, k', h⟩ := Outcome.exists_of_isErr
    (by decide +kernel : (spawn (crateOf []) missing [] none bootKernel).isErr = true)
  exact ⟨e, k', h, (spawn_err_leaks booted_bootMachine.placed).1 _ _ _ _ e k' h⟩

/-- **After a spawn of a file that does not exist** the first frame is in use. -/
theorem missing_leaks : ∃ e k', spawn (crateOf []) missing [] none bootKernel = .err e k' ∧
    ¬ bootKernel.sys.used 1 ∧ k'.sys.used 1 := by
  have hrun : ((spawn (crateOf []) missing [] none bootKernel).toErr.map fun r =>
      decide (¬ bootKernel.sys.used 1 ∧ r.2.sys.used 1)) = some true := by decide +kernel
  obtain ⟨r, herr, hused⟩ := Option.map_eq_some_iff.mp hrun
  exact ⟨r.1, r.2, Outcome.toErr_eq_some.mp herr, of_decide_eq_true hused⟩

end Spawn
end Efiks.Tasks

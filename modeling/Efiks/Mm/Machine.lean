import Efiks.Mm.MemoryManager

/-!
# Processes and their memory

The machine the memory manager is part of: physical memory and its bookkeeping,
shared, and one address space for each process. A process loads and stores bytes;
an access its page tables do not permit traps into `handle_page_fault`, and the
process is killed when that returns an error. The kernel starts processes, forks
and frees them. A process is `loading` while `spawn` still fills its pages from
the executable, before it has run or been forked.

`refStep` is the machine without sharing: every process owns a map from addresses
to bytes, copied in full when it forks.

## Main definitions

* `Process`, `Machine`, `Op`, `Event`, `exec` — the machine and its steps.
* `Enabled` — what the callers of an operation promise.
* `Ref`, `refStep` — private memory.
-/
namespace Efiks.Mm
open Lib Lib.RustM

section Bytes

/-- Byte `k` of a word, in the order of memory. -/
def wordByte (w : BitVec 64) (k : ℕ) : UInt8 := UInt8.ofBitVec ((w >>> (8 * k)).setWidth 8)

/-- Replace byte `k` of a word. -/
def setWordByte (w : BitVec 64) (k : ℕ) (b : UInt8) : BitVec 64 :=
  (w &&& ~~~(0xff#64 <<< (8 * k))) ||| (b.toBitVec.setWidth 64 <<< (8 * k))

/-- The word byte `k` of a frame lies in. -/
def wordIndex (k : Fin 4096) : Fin 512 := ⟨k.val / 8, by omega⟩

def frameByte (f : Frame) (k : Fin 4096) : UInt8 := wordByte (f (wordIndex k)) (k.val % 8)

def setFrameByte (f : Frame) (k : Fin 4096) (b : UInt8) : Frame :=
  Function.update f (wordIndex k) (setWordByte (f (wordIndex k)) (k.val % 8) b)

theorem getLsbD_setWordByte (w : BitVec 64) {k : ℕ} (hk : k < 8) (b : UInt8) {i : ℕ} (hi : i < 64) :
    (setWordByte w k b).getLsbD i =
      if 8 * k ≤ i ∧ i < 8 * k + 8 then b.toBitVec.getLsbD (i - 8 * k) else w.getLsbD i := by
  have hff : ∀ j < 64, (0xff#64).getLsbD j = decide (j < 8) := by decide
  simp only [setWordByte, BitVec.getLsbD_or, BitVec.getLsbD_and, BitVec.getLsbD_not,
    BitVec.getLsbD_shiftLeft, BitVec.getLsbD_setWidth, hi, decide_true, Bool.true_and]
  by_cases hlow : i < 8 * k
  · rw [if_neg (by omega)]
    simp [hlow]
  · rw [hff (i - 8 * k) (by omega)]
    by_cases hin : i < 8 * k + 8
    · rw [if_pos ⟨by omega, hin⟩]
      simp [hlow, show i - 8 * k < 8 by omega, show i - 8 * k < 64 by omega]
    · rw [if_neg (by omega), BitVec.getLsbD_of_ge b.toBitVec (i - 8 * k) (by omega)]
      simp [show ¬ i - 8 * k < 8 by omega]

theorem wordByte_setWordByte (w : BitVec 64) {j k : ℕ} (hj : j < 8) (hk : k < 8) (b : UInt8) :
    wordByte (setWordByte w k b) j = if j = k then b else wordByte w j := by
  have hbit : ∀ (x : BitVec 64) {i}, i < 8 →
      ((x >>> (8 * j)).setWidth 8).getLsbD i = x.getLsbD (8 * j + i) := by
    intro x i hi
    rw [BitVec.getLsbD_setWidth, BitVec.getLsbD_ushiftRight, decide_eq_true hi, Bool.true_and]
  apply UInt8.toBitVec_inj.mp
  apply BitVec.eq_of_getLsbD_eq
  intro i hi
  split
  · rename_i hjk
    subst hjk
    change ((setWordByte w j b >>> (8 * j)).setWidth 8).getLsbD i = _
    rw [hbit _ hi, getLsbD_setWordByte w hk b (by omega), if_pos (by omega),
      Nat.add_sub_cancel_left]
  · change ((setWordByte w k b >>> (8 * j)).setWidth 8).getLsbD i =
      ((w >>> (8 * j)).setWidth 8).getLsbD i
    rw [hbit _ hi, hbit _ hi, getLsbD_setWordByte w hk b (by omega), if_neg (by omega)]

/-- A byte write changes one byte. -/
theorem frameByte_setFrameByte (f : Frame) (j k : Fin 4096) (b : UInt8) :
    frameByte (setFrameByte f k b) j = if j = k then b else frameByte f j := by
  unfold frameByte setFrameByte
  by_cases hw : wordIndex j = wordIndex k
  · rw [hw, Function.update_self, wordByte_setWordByte _ (by omega) (by omega)]
    have hiff : j.val % 8 = k.val % 8 ↔ j = k := by
      have hdiv : j.val / 8 = k.val / 8 := congrArg Fin.val hw
      refine ⟨fun h => Fin.ext (by omega), fun h => by rw [h]⟩
    exact if_congr hiff rfl rfl
  · rw [Function.update_of_ne hw, if_neg fun h : j = k => hw (by rw [h])]

@[simp] theorem frameByte_zero (k : Fin 4096) : frameByte (fun _ => 0) k = 0 := by
  simp [frameByte, wordByte]

end Bytes

/-- The place of an address in its page. -/
def pageOffset (a : ℕ) : Fin 4096 := ⟨a % 4096, Nat.mod_lt _ (by norm_num)⟩

/-- The byte at a physical address. -/
def MemState.readByte (s : MemState) (pa : ℕ) : UInt8 := frameByte (s.mem (pa / 4096)) (pageOffset pa)

def MemState.writeByte (pa : ℕ) (b : UInt8) (s : MemState) : MemState :=
  s.setFrame (pa / 4096) (setFrameByte (s.mem (pa / 4096)) (pageOffset pa) b)

/-- A write changes one byte. -/
theorem MemState.readByte_writeByte (s : MemState) (pa : ℕ) (b : UInt8) (x : ℕ) :
    (MemState.writeByte pa b s).readByte x = if x = pa then b else s.readByte x := by
  unfold MemState.writeByte MemState.readByte MemState.setFrame
  by_cases hf : x / 4096 = pa / 4096
  · have hiff : pageOffset x = pageOffset pa ↔ x = pa := by
      refine ⟨fun h => ?_, fun h => by rw [h]⟩
      have hmod : x % 4096 = pa % 4096 := congrArg Fin.val h
      omega
    dsimp only
    rw [hf, Function.update_self, frameByte_setFrameByte]
    exact if_congr hiff rfl rfl
  · dsimp only
    rw [Function.update_of_ne hf, if_neg fun h : x = pa => hf (by rw [h])]

/-- A process: its address space, whether `spawn` is still filling it, and whether
it was killed. -/
structure Process where
  mm : MemoryManager
  loading : Bool
  killed : Bool

/-- Physical memory with its bookkeeping, and the processes that have an address space. -/
structure Machine where
  sys : MemState
  live : Finset ℕ
  proc : ℕ → Process

/-- The steps of the machine. -/
inductive Op
  /-- `MemoryManager::new` for process `p`. -/
  | new (p : ℕ)
  | mapAllocatePage (p va : ℕ) (flags : PteFlags)
  | remapPage (p va : ℕ) (flags : PteFlags)
  /-- `load_executable` and `create_initial_stack` write a byte through the direct mapping. -/
  | copyIn (p va : ℕ) (b : UInt8)
  | setInitialBrk (p brk : ℕ)
  | createKernelStack (p : ℕ)
  | fork (p q : ℕ)
  /-- User mode of `p` loads the byte at `va`, or traps. -/
  | load (p va : ℕ)
  | store (p va : ℕ) (b : UInt8)
  | brk (p newBrk : ℕ)
  | handlePageFault (p va : ℕ) (access : PteFlags)
  | copyOnWrite (p va : ℕ)
  | free (p : ℕ)

/-- What a step shows. -/
inductive Event
  | done
  | loaded (b : UInt8)
  | stored
  /-- The access trapped, and the fault was handled. -/
  | trapped
  | killed
  deriving DecidableEq

/-- Computations on the machine. -/
abbrev MachineM := RustM Machine Error

namespace Machine

/-- Code that works on no particular address space. -/
def onSys {α : Type} (m : KM α) : MachineM α := zoom Machine.sys (fun s σ => { σ with sys := s }) m

/-- The address space of `p` with the shared state. -/
def space (σ : Machine) (p : ℕ) : Space := ⟨σ.sys, (σ.proc p).mm⟩

def setSpace (p : ℕ) (sp : Space) (σ : Machine) : Machine :=
  { σ with sys := sp.sys, proc := Function.update σ.proc p { σ.proc p with mm := sp.mm } }

/-- A method of the memory manager of `p`. -/
def onSpace {α : Type} (p : ℕ) (m : MmM α) : MachineM α :=
  zoom (fun σ => σ.space p) (fun sp σ => σ.setSpace p sp) m

/-- `p` becomes a process. -/
def addProcess (p : ℕ) (x : Process) (σ : Machine) : Machine :=
  { σ with live := insert p σ.live, proc := Function.update σ.proc p x }

def setProcess (p : ℕ) (f : Process → Process) (σ : Machine) : Machine :=
  { σ with proc := Function.update σ.proc p (f (σ.proc p)) }

/-- The flags of an entry. -/
def entryFlags (e : PageTableEntry) : PteFlags := e.setWidth 8

/-- The physical address user mode reaches at `va`, if the entry found by
translation has `U` and the flag of the access. -/
def userAccess (σ : Machine) (p va : ℕ) (access : PteFlags) : Option ℕ :=
  if isCanonical va then
    match PageTable.translateToPtePtr σ.sys.mem (σ.proc p).mm.rootPt va with
    | some (table, i, size) =>
        let pte := σ.sys.mem table i
        if pte.isUser && (entryFlags pte).contains access then
          some (pte.physicalAddress + va % size.bytes)
        else none
    | none => none
  else none

/-- `task::on_page_fault`: the process ends when the fault cannot be handled. -/
def onPageFault (p va : ℕ) (access : PteFlags) : MachineM Event :=
  catchErr (do
      onSpace p (MemoryManager.handlePageFault va access)
      pure .trapped)
    fun _ => do
      modify (setProcess p fun x => { x with killed := true })
      pure .killed

/-- One step of the machine. -/
def exec : Op → MachineM Event
  | .new p => do
      let mm ← onSys MemoryManager.new
      modify (addProcess p ⟨mm, true, false⟩)
      pure .done
  | .mapAllocatePage p va flags => do
      let _ ← onSpace p (MemoryManager.mapAllocatePage va flags)
      pure .done
  | .remapPage p va flags => do
      onSpace p (MemoryManager.remapPage va flags)
      pure .done
  | .copyIn p va b => do
      let found ← onSpace p (MemoryManager.translate va)
      let pa ← expect found "this is already mapped"
      onSys (modify (MemState.writeByte pa b))
      pure .done
  | .setInitialBrk p brk => do
      onSpace p (MemoryManager.setInitialBrk brk)
      pure .done
  | .createKernelStack p => do
      let _ ← onSpace p MemoryManager.createKernelStack
      pure .done
  | .fork p q => do
      let mm ← gets fun σ => (σ.proc p).mm
      let child ← onSys (MemoryManager.fork mm)
      modify (setProcess p fun x => { x with loading := false })
      modify (addProcess q ⟨child, false, false⟩)
      pure .done
  | .load p va => do
      let found ← gets fun σ => σ.userAccess p va PteFlags.R
      match found with
      | some pa => gets fun σ => .loaded (σ.sys.readByte pa)
      | none => onPageFault p va PteFlags.R
  | .store p va b => do
      let found ← gets fun σ => σ.userAccess p va PteFlags.W
      match found with
      | some pa => do
          onSys (modify (MemState.writeByte pa b))
          pure .stored
      | none => onPageFault p va PteFlags.W
  | .brk p newBrk => do
      let _ ← onSpace p (MemoryManager.doBrk newBrk)
      pure .done
  | .handlePageFault p va access => do
      onSpace p (MemoryManager.handlePageFault va access)
      pure .done
  | .copyOnWrite p va => do
      let mm ← gets fun σ => (σ.proc p).mm
      onSys (PageTable.copyOnWrite mm.rootPt va)
      pure .done
  | .free p => do
      let mm ← gets fun σ => (σ.proc p).mm
      onSys (MemoryManager.free mm)
      modify fun σ => { σ with live := σ.live.erase p }
      pure .done

/-- Page `va` of process `p` is mapped. -/
def Mapped (σ : Machine) (p va : ℕ) : Prop :=
  (PageTable.translate σ.sys.mem (σ.proc p).mm.rootPt va).isSome = true

/-- What the callers of an operation promise: names of processes are fresh or in
use, pages are user pages of the lower half, only a process that is still loading
is remapped and filled, and a space is freed after it got its kernel stack. -/
def Enabled (σ : Machine) : Op → Prop
  | .new p => p ∉ σ.live
  | .mapAllocatePage p va flags => p ∈ σ.live ∧ va % 4096 = 0 ∧ va < 2 ^ 38 ∧ ¬ σ.Mapped p va ∧
      flags.contains PteFlags.U = true ∧ flags &&& PteFlags.RWX ≠ 0#8
  | .remapPage p va _ => p ∈ σ.live ∧ (σ.proc p).loading = true ∧ va < 2 ^ 38 ∧ σ.Mapped p va
  | .copyIn p va _ => p ∈ σ.live ∧ (σ.proc p).loading = true ∧ va < 2 ^ 38 ∧ σ.Mapped p va
  | .setInitialBrk p _ => p ∈ σ.live ∧ (σ.proc p).loading = true
  | .createKernelStack p => p ∈ σ.live ∧ (σ.proc p).mm.kernelStack = .empty
  | .fork p q => p ∈ σ.live ∧ q ∉ σ.live
  | .load p va => p ∈ σ.live ∧ (σ.proc p).killed = false ∧ va < 2 ^ 64
  | .store p va _ => p ∈ σ.live ∧ (σ.proc p).killed = false ∧ va < 2 ^ 64
  | .brk p newBrk => p ∈ σ.live ∧ newBrk ≤ 2 ^ 38
  | .handlePageFault p va _ => p ∈ σ.live ∧ va < 2 ^ 64
  | .copyOnWrite p va => p ∈ σ.live ∧ va < 2 ^ 38 ∧ σ.Mapped p va
  | .free p => p ∈ σ.live ∧ (σ.proc p).mm.kernelStack ≠ .empty

/-- The step's result: an error of a method is reported to its caller and the
machine goes on, a panic ends it. -/
def step (op : Op) (σ : Machine) : Option (Event × Machine) :=
  match exec op σ with
  | .ok ev σ' => some (ev, σ')
  | .err _ σ' => some (.done, σ')
  | .panic _ => none

end Machine

/-- Private memory: the byte each process holds at each address. -/
abbrev Ref := ℕ → ℕ → UInt8

/-- The machine without sharing. A new process holds zeros, a forked one a full copy. -/
def refStep : Op → Event → Ref → Ref
  | .new p, _, ref => Function.update ref p fun _ => 0
  | .fork p q, _, ref => Function.update ref q (ref p)
  | .copyIn p va b, _, ref => Function.update ref p (Function.update (ref p) va b)
  | .store p va b, .stored, ref => Function.update ref p (Function.update (ref p) va b)
  | _, _, ref => ref

end Efiks.Mm

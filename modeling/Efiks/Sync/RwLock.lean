import Mathlib.Data.List.Count
import Mathlib.Logic.Function.Basic
import Mathlib.Tactic

/-!
# The reader-writer lock

One word counts the readers, and its largest value stands for a writer. A reader
loads the word, looks at what it loaded and then tries to replace it by one more;
other threads run in between. The model has one transition for each access to the
word and one for the test between them, so that a run is any interleaving of them.

A guard is the right to drop it once. The live guards are a list with the thread
that owns each; a thread may hold several.

## Main definitions

* `RwLock`, `Pc` — the lock, and where a thread is inside `read_lock` or `write_lock`.
* `Step`, `Reachable` — the interleavings.
-/
namespace Efiks.Sync

/-- `NO_LOCK_HELD`. -/
def noLockHeld : ℕ := 0
/-- `WRITE_LOCK_HELD`, which is `usize::MAX`. -/
def writeLockHeld : ℕ := 2 ^ 64 - 1

/-- Where a thread is. -/
inductive Pc
  /-- Outside the lock functions. -/
  | idle
  /-- In `read_lock`, before the load. -/
  | readLoad
  /-- In `read_lock`, with the loaded value, before the test and the assertion. -/
  | readTest (readers : ℕ)
  /-- In `read_lock`, before the compare-exchange. -/
  | readExchange (readers : ℕ)
  /-- In `write_lock`, before the compare-exchange. -/
  | writeExchange
  /-- The assertion failed. -/
  | panicked
  deriving DecidableEq, Repr

/-- A guard and the thread that holds it. -/
inductive Guard (Tid : Type)
  | read (t : Tid)
  | write (t : Tid)
  deriving DecidableEq, Repr

/-- A read guard. -/
def Guard.isRead {Tid : Type} : Guard Tid → Bool
  | .read _ => true
  | .write _ => false

/-- The lock, the threads and the live guards. -/
structure RwLock (Tid : Type) where
  readers : ℕ
  pc : Tid → Pc
  guards : List (Guard Tid)

section
variable {Tid : Type} [DecidableEq Tid]

/-- `RwLock::new`, with every thread outside. -/
def RwLock.new : RwLock Tid := ⟨noLockHeld, fun _ => .idle, []⟩

/-- Thread `t` moves to `p`. -/
def RwLock.goto (s : RwLock Tid) (t : Tid) (p : Pc) : RwLock Tid :=
  { s with pc := Function.update s.pc t p }

/-- What `read_lock` does with a loaded value: a writer makes it load again. -/
def afterLoad (readers : ℕ) : Pc :=
  if readers = writeLockHeld then .readLoad
  else if readers < writeLockHeld - 1 then .readExchange readers
  else .panicked

/-- One step of thread `t`. -/
inductive Step (s : RwLock Tid) (t : Tid) : RwLock Tid → Prop
  /-- `read_lock` is called. -/
  | readLock (h : s.pc t = .idle) : Step s t (s.goto t .readLoad)
  /-- `self.readers.load(..)`. -/
  | load (h : s.pc t = .readLoad) : Step s t (s.goto t (.readTest s.readers))
  /-- The comparison with `usize::MAX` and the assertion. -/
  | test {r} (h : s.pc t = .readTest r) : Step s t (s.goto t (afterLoad r))
  /-- `compare_exchange_weak` succeeds, and `read_lock` returns. -/
  | readOk {r} (h : s.pc t = .readExchange r) (heq : s.readers = r) :
      Step s t { s.goto t .idle with readers := r + 1, guards := .read t :: s.guards }
  /-- `compare_exchange_weak` fails, with or without a reason. -/
  | readFail {r} (h : s.pc t = .readExchange r) : Step s t (s.goto t .readLoad)
  /-- `write_lock` is called. -/
  | writeLock (h : s.pc t = .idle) : Step s t (s.goto t .writeExchange)
  /-- `compare_exchange` succeeds, and `write_lock` returns. -/
  | writeOk (h : s.pc t = .writeExchange) (heq : s.readers = noLockHeld) :
      Step s t { s.goto t .idle with readers := writeLockHeld, guards := .write t :: s.guards }
  /-- `compare_exchange` fails, and the loop tries again. -/
  | writeFail (h : s.pc t = .writeExchange) (hne : s.readers ≠ noLockHeld) : Step s t s
  /-- A read guard is dropped: `fetch_sub`, which wraps. -/
  | dropRead (h : s.pc t = .idle) (hmem : .read t ∈ s.guards) :
      Step s t { s with readers := (s.readers + 2 ^ 64 - 1) % 2 ^ 64,
                        guards := s.guards.erase (.read t) }
  /-- A write guard is dropped: a plain store. -/
  | dropWrite (h : s.pc t = .idle) (hmem : .write t ∈ s.guards) :
      Step s t { s with readers := noLockHeld, guards := s.guards.erase (.write t) }

/-- The states of all runs. -/
inductive Reachable : RwLock Tid → Prop
  | new : Reachable RwLock.new
  | step {s s'} (h : Reachable s) {t} (hs : Step s t s') : Reachable s'

/-! ## The invariant -/

/-- The word agrees with the guards. -/
inductive Agrees : ℕ → List (Guard Tid) → Prop
  | written (t : Tid) : Agrees writeLockHeld [.write t]
  | shared (gs : List (Guard Tid)) (hread : ∀ g ∈ gs, g.isRead = true)
      (hlt : gs.length < writeLockHeld) : Agrees gs.length gs

/-- The word agrees with the guards, and no thread is about to store a value that stands
for a writer. -/
structure LockInv (s : RwLock Tid) : Prop where
  agrees : Agrees s.readers s.guards
  room : ∀ t r, s.pc t = .readExchange r → r < writeLockHeld - 1

variable {s s' : RwLock Tid} {t : Tid}

/-- Moving a thread keeps the invariant unless it goes to an exchange without room. -/
theorem LockInv.goto (h : LockInv s) {p : Pc} (hp : ∀ r, p = .readExchange r → r < writeLockHeld - 1) :
    LockInv (s.goto t p) := by
  refine ⟨h.agrees, fun t' r hr => ?_⟩
  simp only [RwLock.goto, Function.update_apply] at hr
  split at hr
  · exact hp r hr
  · exact h.room t' r hr

theorem afterLoad_room {n r : ℕ} (h : afterLoad n = .readExchange r) : r < writeLockHeld - 1 := by
  simp only [afterLoad] at h
  split at h
  · cases h
  · split at h
    · cases h
      assumption
    · cases h

omit [DecidableEq Tid] in
theorem Agrees.take_read {gs : List (Guard Tid)} {n : ℕ} (h : Agrees n gs)
    (hn : n < writeLockHeld - 1) (t : Tid) : Agrees (n + 1) (.read t :: gs) := by
  cases h with
  | written u => simp [writeLockHeld] at hn
  | shared gs hread hlt =>
      apply Agrees.shared (.read t :: gs)
      · intro g hg
        rcases List.mem_cons.mp hg with rfl | hg
        · rfl
        · exact hread g hg
      · simp only [List.length_cons]
        omega

omit [DecidableEq Tid] in
theorem Agrees.take_write {gs : List (Guard Tid)} (h : Agrees noLockHeld gs) (t : Tid) :
    Agrees writeLockHeld (.write t :: gs) := by
  generalize hn : noLockHeld = n at h
  cases h with
  | written u => simp [noLockHeld, writeLockHeld] at hn
  | shared gs _ _ =>
      obtain rfl : gs = [] := List.length_eq_zero_iff.mp hn.symm
      exact .written t

theorem Agrees.drop_read {gs : List (Guard Tid)} {n : ℕ} (h : Agrees n gs)
    (hmem : .read t ∈ gs) :
    Agrees ((n + 2 ^ 64 - 1) % 2 ^ 64) (gs.erase (.read t)) := by
  cases h with
  | written u => simp at hmem
  | shared gs hread hlt =>
      have hpos := List.length_pos_of_mem hmem
      have hlen : (gs.erase (.read t)).length = gs.length - 1 := List.length_erase_of_mem hmem
      -- there is a guard to drop, so the subtraction does not wrap
      have hval : (gs.length + 2 ^ 64 - 1) % 2 ^ 64 = (gs.erase (.read t)).length := by
        simp only [writeLockHeld] at hlt
        omega
      rw [hval]
      exact .shared _ (fun g hg => hread g (List.mem_of_mem_erase hg)) (by omega)

theorem Agrees.drop_write {gs : List (Guard Tid)} {n : ℕ} (h : Agrees n gs)
    (hmem : .write t ∈ gs) : Agrees noLockHeld (gs.erase (.write t)) := by
  cases h with
  | written u =>
      obtain rfl : t = u := by simpa using hmem
      rw [List.erase_cons_head]
      exact .shared [] (by simp) (by simp [writeLockHeld])
  | shared gs hread _ => exact absurd (hread _ hmem) (by simp [Guard.isRead])

/-- Every step keeps the invariant. -/
theorem LockInv.step (h : LockInv s) (hs : Step s t s') : LockInv s' := by
  cases hs with
  | readLock _ => exact h.goto (by simp)
  | load _ => exact h.goto (by simp)
  | test _ => exact h.goto fun r hr => afterLoad_room hr
  | readOk hpc heq =>
      have hroom := h.room t _ hpc
      refine ⟨?_, (h.goto (t := t) (p := .idle) (by simp)).room⟩
      exact (heq ▸ h.agrees).take_read hroom t
  | readFail _ => exact h.goto (by simp)
  | writeLock _ => exact h.goto (by simp)
  | writeOk _ heq =>
      refine ⟨?_, (h.goto (t := t) (p := .idle) (by simp)).room⟩
      exact (heq ▸ h.agrees).take_write t
  | writeFail _ _ => exact h
  | dropRead _ hmem => exact ⟨h.agrees.drop_read hmem, h.room⟩
  | dropWrite _ hmem => exact ⟨h.agrees.drop_write hmem, h.room⟩

theorem Reachable.inv (h : Reachable s) : LockInv s := by
  induction h with
  | new => exact ⟨.shared [] (by simp) (by simp [writeLockHeld]), by simp [RwLock.new]⟩
  | step _ hs ih => exact ih.step hs

/-- A thread that runs alone gets a read guard. -/
theorem Reachable.readLock (h : Reachable s) (hpc : s.pc t = .idle)
    (hlt : s.readers < writeLockHeld - 1) :
    Reachable { s with readers := s.readers + 1, guards := .read t :: s.guards } := by
  have hload := Reachable.step h (.readLock hpc)
  have htest := Reachable.step hload (.load (t := t) (by simp [RwLock.goto]))
  have hexch := Reachable.step htest
    (.test (t := t) (r := s.readers) (by simp [RwLock.goto]))
  have hafter : afterLoad s.readers = .readExchange s.readers := by
    rw [afterLoad, if_neg (by omega), if_pos hlt]
  rw [hafter] at hexch
  have hdone := Reachable.step hexch
    (.readOk (t := t) (r := s.readers) (by simp [RwLock.goto]) (by simp [RwLock.goto]))
  have hself : Function.update s.pc t .idle = s.pc := by rw [← hpc, Function.update_eq_self]
  simpa only [RwLock.goto, Function.update_idem, hself] using hdone

/-- The live read guards. -/
def RwLock.readGuards (s : RwLock Tid) : ℕ := s.guards.countP Guard.isRead
/-- The live write guards. -/
def RwLock.writeGuards (s : RwLock Tid) : ℕ := s.guards.countP (!·.isRead)

/-- **The lock excludes.** In every state of every run either there is one write guard, no read
guard, and the word is `usize::MAX`, or there is no write guard and the word is the number of
read guards, below `usize::MAX`. So a write guard is alone. -/
theorem rwLock_excludes (h : Reachable s) :
    ((s.writeGuards = 1 ∧ s.readGuards = 0 ∧ s.readers = writeLockHeld) ∨
      (s.writeGuards = 0 ∧ s.readers = s.readGuards ∧ s.readers < writeLockHeld)) ∧
    ∀ u, .write u ∈ s.guards → s.guards = [.write u] := by
  obtain ⟨readers, pc, guards⟩ := s
  have hagrees : Agrees readers guards := h.inv.agrees
  simp only [RwLock.writeGuards, RwLock.readGuards]
  cases hagrees with
  | written v =>
      refine ⟨Or.inl (by simp [Guard.isRead]), fun u hu => ?_⟩
      obtain rfl : u = v := by simpa using hu
      rfl
  | shared gs hread hlt =>
      have hcount : guards.countP Guard.isRead = guards.length := List.countP_eq_length.mpr hread
      have hnone : guards.countP (!·.isRead) = 0 := by
        rw [List.countP_eq_zero]
        intro g hg
        simp [hread g hg]
      refine ⟨Or.inr ⟨hnone, hcount.symm, hlt⟩, fun u hu => ?_⟩
      exact absurd (hread _ hu) (by simp [Guard.isRead])

end

/-- Two threads with a read guard each. -/
theorem rwLock_excludes_readers : ∃ s : RwLock Bool, Reachable s ∧ s.guards = [.read true, .read false] ∧
    s.readers = 2 ∧ ((s.writeGuards = 1 ∧ s.readGuards = 0 ∧ s.readers = writeLockHeld) ∨
      (s.writeGuards = 0 ∧ s.readers = s.readGuards ∧ s.readers < writeLockHeld)) := by
  have hone := Reachable.readLock (s := (RwLock.new : RwLock Bool)) .new (t := false) rfl (by decide)
  have htwo := hone.readLock (t := true) rfl (by decide)
  exact ⟨_, htwo, rfl, rfl, (rwLock_excludes htwo).1⟩

end Efiks.Sync

import Efiks.Sched.Sleep

/-!
# The call of `wait`

`SYS_WAIT` decodes its first argument as an `isize`, so every negative one is refused, and then
does not look at it. The call looks for a zombie among the children, and once more when it has
been blocked: what it returns depends on these two states only.

## Main definitions

* `reapZombieChild`, `taskWait`, `sysWait` — the call, from the states in which it looks.
* `WaitsForAsked` — the call returns what its argument asks for.
-/
namespace Efiks.Sched
open Syscall (Errno)

inductive WaitOutcome
  | failed (e : Errno)
  /-- The child that is returned, and the children that are left. -/
  | returned (c : Pid) (children : List Pid)
  | panicked
  deriving DecidableEq

/-- The child that `reap_zombie_child` takes, and the children it leaves. -/
def reapZombieChild (σ : System) (t : Pid) : Option (Pid × List Pid) :=
  (σ.zombieChild t).bind fun i =>
    (σ.task t).children[i]?.map fun c => (c, (σ.task t).children.eraseIdx i)

/-- `task::wait` of task `t`, which looks in the state `σ`, and in `τ` if it was blocked. -/
def taskWait (t : Pid) (σ τ : System) : WaitOutcome :=
  if (σ.task t).children = [] then .failed .eChild
  else
    match (reapZombieChild σ t).or (reapZombieChild τ t) with
    | some (c, children) => .returned c children
    | none => .panicked

/-- `SYS_WAIT` with the register `a0`. -/
def sysWait (a0 : UInt64) (t : Pid) (σ τ : System) : WaitOutcome :=
  if a0.toNat ≤ 2 ^ 63 - 1 then taskWait t σ τ else .failed .eInval

/-- The register as a signed number. -/
def signedWord (a0 : UInt64) : ℤ :=
  if a0.toNat ≤ 2 ^ 63 - 1 then a0.toNat else a0.toNat - 2 ^ 64

/-- What a call with this argument should come to: any child that has exited for -1, the
child that is named, and otherwise an error. -/
def WaitsForAsked (pid : ℤ) (t : Pid) (σ τ : System) (out : WaitOutcome) : Prop :=
  (pid = -1 → if (σ.task t).children = [] then out = .failed .eChild
    else ∃ c, out = .returned c ((σ.task t).children.erase c) ∧ c ∈ (σ.task t).children ∧
      ((σ.task c).state = .zombie ∨ (τ.task c).state = .zombie)) ∧
  ∀ c : Pid, 0 < c → pid = c → if c ∈ (σ.task t).children
    then ∃ children, out = .returned c children else out = .failed .eChild

variable {t : Pid} {σ τ : System}

theorem taskWait_eq_failed_iff {e : Errno} :
    taskWait t σ τ = .failed e ↔ (σ.task t).children = [] ∧ e = .eChild := by
  rw [taskWait]
  split
  · next h => simp [h, eq_comm]
  · next h => split <;> simp [h]

theorem taskWait_eq_returned_iff {c : Pid} {children : List Pid} :
    taskWait t σ τ = .returned c children ↔ (σ.task t).children ≠ [] ∧
      (reapZombieChild σ t).or (reapZombieChild τ t) = some (c, children) := by
  rw [taskWait]
  split
  · next h => simp [h]
  · next h =>
    split
    · next hreap => simp [h, hreap]
    · next hreap => simp [h, hreap]

/-- The shell makes two tasks and waits for one. -/
def waitForFirst : List Move :=
  steps 0 9 ++ [.act 0 .newTask] ++ steps 0 3 ++ [.act 0 .newTask] ++ steps 0 3 ++
    [.act 0 .wait] ++ steps 0 1

/-- The first child goes to sleep and the second one exits. -/
def secondExits : List Move :=
  steps 0 4 ++ [.act 0 (.sleep 1000)] ++ steps 0 5 ++ [.act 0 (.exit 0)] ++ steps 0 10

end Efiks.Sched

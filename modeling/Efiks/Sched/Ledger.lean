import Efiks.Sched.PlacedRuns

/-!
# What few steps change

Most steps of the machine move tasks between queues and change their states. The heaps of
sleeping tasks, the exit codes and the wake-up times are changed by few of them. `Ledger`
collects these data; every other step leaves it alone, and a step of one hart leaves the other
harts alone.

A dead task stays dead, where the tasks are in their places.

## Main definitions

* `Ledger`, `System.ledger` — the data that few steps change.
* `Pc.Quiet`, `Act.Quiet` — the steps that leave the ledger alone.
* `LedgerStep` — what a step does to the ledger.
-/
namespace Efiks.Sched

structure Ledger where
  sleepers : ℕ → List (ℕ × Pid)
  exitCode : Pid → ℤ
  wakeUpAt : Pid → ℕ

def System.ledger (σ : System) : Ledger where
  sleepers k := (σ.core k).sleepingTasks
  exitCode t := (σ.task t).exitCode
  wakeUpAt t := (σ.task t).wakeUpAt

section Updates

variable {σ : System} {h k : ℕ} {t : Pid} {pc : Pc}

@[simp] theorem setPc_task : (σ.setPc h pc).task = σ.task := rfl

@[simp] theorem setCore_task {f : Core → Core} : (σ.setCore k f).task = σ.task := rfl

@[simp] theorem setPc_hart_self : (σ.setPc h pc).hart h = ⟨(σ.hart h).tp, pc⟩ := by
  simp [System.setPc]

theorem setPc_hart_ne (hk : k ≠ h) : (σ.setPc h pc).hart k = σ.hart k := by
  simp [System.setPc, hk]

theorem ctx_setTask {f : Task → Task} (hf : (f (σ.task t)).perCpuCtx = (σ.task t).perCpuCtx) :
    (σ.setTask t f).ctx h = σ.ctx h := by
  by_cases ht : (σ.hart h).tp = t
  · simp [System.ctx, System.setTask, ht, hf]
  · simp [System.ctx, System.setTask, ht]

@[simp] theorem ledger_setPc : (σ.setPc h pc).ledger = σ.ledger := rfl

theorem ledger_setTask {f : Task → Task} (hf : (f (σ.task t)).exitCode = (σ.task t).exitCode ∧
    (f (σ.task t)).wakeUpAt = (σ.task t).wakeUpAt) : (σ.setTask t f).ledger = σ.ledger := by
  have htask : ∀ u, ((σ.setTask t f).task u).exitCode = (σ.task u).exitCode ∧
      ((σ.setTask t f).task u).wakeUpAt = (σ.task u).wakeUpAt := by
    intro u
    by_cases hu : u = t
    · subst hu
      simpa [System.setTask] using hf
    · simp [System.setTask, hu]
  simp only [System.ledger, htask]
  rfl

@[simp] theorem ledger_setState {s : TaskState} : (σ.setState t s).ledger = σ.ledger :=
  ledger_setTask ⟨rfl, rfl⟩

theorem ledger_setCore {f : Core → Core}
    (hf : (f (σ.core k)).sleepingTasks = (σ.core k).sleepingTasks) :
    (σ.setCore k f).ledger = σ.ledger := by
  have hcore : ∀ j, ((σ.setCore k f).core j).sleepingTasks = (σ.core j).sleepingTasks := by
    intro j
    by_cases hj : j = k
    · subst hj
      simpa [System.setCore] using hf
    · simp [System.setCore, hj]
  simp only [System.ledger, hcore]
  rfl

theorem ledger_withCtx {f : ℕ → System} (hf : ∀ ctx, (f ctx).ledger = σ.ledger) :
    (σ.withCtx h f).ledger = σ.ledger := by
  rw [System.withCtx]
  split
  · exact hf _
  · simp

end Updates

section Quiet

/-- The step at this place leaves the ledger alone. -/
def Pc.Quiet : Pc → Prop
  | .sleepTime _ _ _ | .sleepPush _ _ | .addTask _ _ => False
  | _ => True

/-- The call or interrupt leaves the ledger alone. -/
def Act.Quiet : Act → Prop
  | .timer _ | .exit _ => False
  | _ => True

variable {σ σ' : System} {h k : ℕ} {pc : Pc} {a : Act}

theorem ledger_scheduleLocked (r : Resume) : (scheduleLocked h r σ).ledger = σ.ledger := by
  refine ledger_withCtx fun ctx => ?_
  dsimp only
  split
  · rw [ledger_setPc, ledger_setCore rfl]
    split
    · rw [ledger_setCore rfl, ledger_setState, ledger_setState]
    · split <;> rw [ledger_setCore rfl, ledger_setState]
  · split
    · rw [ledger_setPc, ledger_setState, ledger_setCore rfl]
    · rw [ledger_setPc, ledger_setCore rfl, ledger_setState, ledger_setCore rfl]

theorem ledger_sleepCurrentTask (ms : ℕ) (r : Resume) :
    (sleepCurrentTask h ms r σ).ledger = σ.ledger :=
  ledger_withCtx fun _ => by simp

theorem ledger_enqueueForReaper (t : Pid) : (enqueueForReaper h t pc σ).ledger = σ.ledger :=
  ledger_withCtx fun _ => by rw [ledger_setPc, ledger_setCore rfl]

theorem ledger_removeChild (t : Pid) (i : ℕ) : (σ.removeChild t i).ledger = σ.ledger :=
  ledger_setTask ⟨rfl, rfl⟩

/-- **Most steps of the kernel** leave the ledger alone. -/
theorem ledger_kernelStep (hq : pc.Quiet) (hstep : kernelStep h σ pc = some σ') :
    σ'.ledger = σ.ledger := by
  cases pc with
  | run r =>
    cases r with
    | wait ctx =>
      obtain rfl := Option.some.inj hstep
      rw [reapFind]
      split <;> simp
    | reaper =>
      obtain rfl := Option.some.inj hstep
      refine ledger_withCtx fun ctx => ?_
      split
      · rw [ledger_setPc, ledger_setCore rfl]
        rfl
      · exact ledger_sleepCurrentTask _ _
    | _ => simp [kernelStep] at hstep
  | panicked => simp [kernelStep] at hstep
  | schedule r =>
    obtain rfl := Option.some.inj hstep
    exact ledger_scheduleLocked r
  | setCurrent ctx prev next r =>
    obtain rfl := Option.some.inj hstep
    rw [setCurrent, ledger_setPc, ledger_setCore rfl]
  | switchTo prev next r =>
    obtain rfl := Option.some.inj hstep
    change ((σ.setTask prev fun x => { x with context := r, saved := true }).setTask next
      fun x => { x with saved := false }).ledger = σ.ledger
    rw [ledger_setTask ⟨rfl, rfl⟩, ledger_setTask ⟨rfl, rfl⟩]
  | enqueueIdx t k | irqPush ctx | cleanupFree t | cleanupRemove t =>
    obtain rfl := Option.some.inj hstep
    rfl
  | enqueuePush t idx k =>
    obtain rfl := Option.some.inj hstep
    rw [enqueuePush, ledger_setPc, ledger_setCore rfl, ledger_setTask ⟨rfl, rfl⟩]
  | irqReady t r =>
    obtain rfl := Option.some.inj hstep
    simp [irqReady]
  | timerCheck ctx now last woke r =>
    obtain rfl := Option.some.inj hstep
    rw [timerCheck]
    split <;> simp
  | exitZombie ctx =>
    obtain rfl := Option.some.inj hstep
    simp [exitZombie]
  | exitChildren ctx =>
    obtain rfl := Option.some.inj hstep
    rw [exitChildren, ledger_setPc, ledger_setTask ⟨rfl, rfl⟩]
  | exitNotify ctx =>
    obtain rfl := Option.some.inj hstep
    rw [exitNotify]
    split
    · split <;> simp
    · simp
  | exitRemove parent =>
    obtain rfl := Option.some.inj hstep
    rw [exitRemove]
    split <;> rfl
  | exitReady parent =>
    obtain rfl := Option.some.inj hstep
    simp [exitReady]
  | exitCleanup ctx => exact Option.some.inj hstep ▸ ledger_enqueueForReaper _
  | reapQueue c => exact Option.some.inj hstep ▸ ledger_enqueueForReaper _
  | waitBlocked ctx =>
    obtain rfl := Option.some.inj hstep
    simp [waitBlocked]
  | waitCheck ctx =>
    obtain rfl := Option.some.inj hstep
    rw [waitCheck]
    split
    · rw [ledger_enqueueForReaper, ledger_setState, ledger_removeChild]
    · rfl
  | waitRunning ctx =>
    obtain rfl := Option.some.inj hstep
    simp [waitRunning]
  | reapRemove ctx i =>
    obtain rfl := Option.some.inj hstep
    rw [reapRemove]
    split
    · dsimp only
      split <;> rw [ledger_setPc, ledger_removeChild]
    · rfl
  | reapExited c =>
    obtain rfl := Option.some.inj hstep
    simp [reapExited]
  | cleanupExited t =>
    obtain rfl := Option.some.inj hstep
    simp [cleanupExited]
  | sleepTime | sleepPush | addTask => exact hq.elim

theorem ledger_event {r : Resume} (hq : a.Quiet) (hstep : event h σ r a = some σ') :
    σ'.ledger = σ.ledger := by
  cases a with
  | next => simp [event] at hstep
  | timer order => exact hq.elim
  | exit code => exact hq.elim
  | externalIrq irq =>
    simp only [event] at hstep
    split at hstep
    · obtain rfl := Option.some.inj hstep
      rw [irqPop]
      split
      · rfl
      · dsimp only
        split <;> rfl
    · simp at hstep
  | newTask =>
    simp only [event] at hstep
    split at hstep
    · obtain rfl := Option.some.inj hstep
      refine ledger_withCtx fun ctx => ?_
      dsimp only
      rw [ledger_setPc, ledger_setTask ⟨rfl, rfl⟩]
      rfl
    · simp at hstep
  | wait =>
    simp only [event] at hstep
    split at hstep
    · obtain rfl := Option.some.inj hstep
      refine ledger_withCtx fun ctx => ?_
      split <;> rfl
    · simp at hstep
  | sleep ms =>
    simp only [event] at hstep
    split at hstep
    · exact Option.some.inj hstep ▸ ledger_sleepCurrentTask _ _
    · simp at hstep
  | console ready =>
    simp only [event] at hstep
    split at hstep
    · obtain rfl := Option.some.inj hstep
      split
      · rfl
      · exact ledger_withCtx fun ctx => by simp
    · simp at hstep

end Quiet

section Elsewhere

/-- Nothing but hart `h` has moved on, and no time has passed. -/
structure Elsewhere (h : ℕ) (σ σ' : System) : Prop where
  hart : ∀ k, k ≠ h → σ'.hart k = σ.hart k
  harts : σ'.harts = σ.harts
  time : σ'.time = σ.time

variable {σ σ' τ : System} {h : ℕ} {pc : Pc} {a : Act}

theorem Elsewhere.refl : Elsewhere h σ σ := ⟨fun _ _ => rfl, rfl, rfl⟩

theorem Elsewhere.setPc (hart : τ.hart = σ.hart) (harts : τ.harts = σ.harts)
    (time : τ.time = σ.time) : Elsewhere h σ (τ.setPc h pc) :=
  ⟨fun k hk => by rw [setPc_hart_ne hk, hart], harts, time⟩

theorem Elsewhere.withCtx {f : ℕ → System} (hf : ∀ ctx, Elsewhere h σ (f ctx)) :
    Elsewhere h σ (σ.withCtx h f) := by
  rw [System.withCtx]
  split
  · exact hf _
  · exact .setPc rfl rfl rfl

theorem elsewhere_scheduleLocked (r : Resume) : Elsewhere h σ (scheduleLocked h r σ) := by
  refine .withCtx fun ctx => ?_
  dsimp only
  split
  · refine .setPc ?_ ?_ ?_ <;> split <;> first | rfl | (split <;> rfl)
  · split <;> exact .setPc rfl rfl rfl

theorem elsewhere_enqueueForReaper (t : Pid) (pc : Pc) (hart : τ.hart = σ.hart)
    (harts : τ.harts = σ.harts) (time : τ.time = σ.time) :
    Elsewhere h σ (enqueueForReaper h t pc τ) := by
  rw [enqueueForReaper, System.withCtx]
  split
  · exact .setPc hart harts time
  · exact .setPc hart harts time

theorem elsewhere_kernelStep (hstep : kernelStep h σ pc = some σ') : Elsewhere h σ σ' := by
  cases pc with
  | run r =>
    cases r with
    | wait ctx =>
      obtain rfl := Option.some.inj hstep
      rw [reapFind]
      split <;> exact .setPc rfl rfl rfl
    | reaper =>
      obtain rfl := Option.some.inj hstep
      refine .withCtx fun ctx => ?_
      split
      · exact .setPc rfl rfl rfl
      · exact .withCtx fun _ => .setPc rfl rfl rfl
    | _ => simp [kernelStep] at hstep
  | panicked => simp [kernelStep] at hstep
  | schedule r => exact Option.some.inj hstep ▸ elsewhere_scheduleLocked r
  | switchTo prev next r =>
    obtain rfl := Option.some.inj hstep
    exact ⟨fun k hk => by simp [switchTo, hk, System.setTask], rfl, rfl⟩
  | sleepTime ctx ms r =>
    obtain rfl := Option.some.inj hstep
    rw [sleepTime]
    cases sleepUntil σ.time ms <;> exact .setPc rfl rfl rfl
  | timerCheck ctx now last woke r =>
    obtain rfl := Option.some.inj hstep
    rw [timerCheck]
    split <;> exact .setPc rfl rfl rfl
  | exitNotify ctx =>
    obtain rfl := Option.some.inj hstep
    rw [exitNotify]
    split
    · split <;> exact .setPc rfl rfl rfl
    · exact .setPc rfl rfl rfl
  | exitRemove parent =>
    obtain rfl := Option.some.inj hstep
    rw [exitRemove]
    split <;> exact .setPc rfl rfl rfl
  | waitCheck ctx =>
    obtain rfl := Option.some.inj hstep
    rw [waitCheck]
    split
    · exact elsewhere_enqueueForReaper _ _ rfl rfl rfl
    · exact .setPc rfl rfl rfl
  | reapRemove ctx i =>
    obtain rfl := Option.some.inj hstep
    rw [reapRemove]
    split
    · dsimp only
      split <;> exact .setPc rfl rfl rfl
    · exact .setPc rfl rfl rfl
  | exitCleanup ctx =>
    exact Option.some.inj hstep ▸ elsewhere_enqueueForReaper _ _ rfl rfl rfl
  | reapQueue c => exact Option.some.inj hstep ▸ elsewhere_enqueueForReaper _ _ rfl rfl rfl
  | _ =>
    obtain rfl := Option.some.inj hstep
    exact .setPc rfl rfl rfl

theorem elsewhere_event {r : Resume} (hstep : event h σ r a = some σ') : Elsewhere h σ σ' := by
  cases a with
  | next => simp [event] at hstep
  | timer order =>
    simp only [event] at hstep
    split at hstep
    · split at hstep
      · split at hstep
        · exact Option.some.inj hstep ▸ .setPc rfl rfl rfl
        · simp at hstep
      · exact Option.some.inj hstep ▸ .setPc rfl rfl rfl
    · simp at hstep
  | externalIrq irq =>
    simp only [event] at hstep
    split at hstep
    · obtain rfl := Option.some.inj hstep
      rw [irqPop]
      split
      · exact .refl
      · dsimp only
        split
        · exact .setPc rfl rfl rfl
        · exact ⟨fun _ _ => rfl, rfl, rfl⟩
    · simp at hstep
  | newTask =>
    simp only [event] at hstep
    split at hstep
    · exact Option.some.inj hstep ▸ .withCtx fun _ => .setPc rfl rfl rfl
    · simp at hstep
  | exit code =>
    simp only [event] at hstep
    split at hstep
    · obtain rfl := Option.some.inj hstep
      refine .withCtx fun ctx => ?_
      dsimp only
      split
      · exact .refl
      · exact .setPc rfl rfl rfl
    · simp at hstep
  | wait =>
    simp only [event] at hstep
    split at hstep
    · obtain rfl := Option.some.inj hstep
      refine .withCtx fun ctx => ?_
      split
      · exact .refl
      · exact .setPc rfl rfl rfl
    · simp at hstep
  | sleep ms =>
    simp only [event] at hstep
    split at hstep
    · exact Option.some.inj hstep ▸ .withCtx fun _ => .setPc rfl rfl rfl
    · simp at hstep
  | console ready =>
    simp only [event] at hstep
    split at hstep
    · obtain rfl := Option.some.inj hstep
      split
      · exact .setPc rfl rfl rfl
      · exact .withCtx fun _ => .setPc rfl rfl rfl
    · simp at hstep

/-- A step is one of the kernel, or an interrupt or a system call in user code. -/
theorem step_cases (hstep : step h a σ = some σ') : h < σ.harts ∧
    (a = .next ∧ kernelStep h σ (σ.hart h).pc = some σ' ∨
      ∃ r, (σ.hart h).pc = .run r ∧ event h σ r a = some σ') := by
  refine ⟨lt_harts_of_step hstep, ?_⟩
  have hh := lt_harts_of_step hstep
  rw [step, if_neg (by omega)] at hstep
  split at hstep
  · next ha => exact Or.inl ⟨ha, hstep⟩
  · split at hstep
    · next r hpc => exact Or.inr ⟨r, hpc, hstep⟩
    · simp at hstep

theorem elsewhere_step (hstep : step h a σ = some σ') : Elsewhere h σ σ' := by
  obtain ⟨-, ⟨-, hk⟩ | ⟨r, -, he⟩⟩ := step_cases hstep
  · exact elsewhere_kernelStep hk
  · exact elsewhere_event he

theorem Reach.harts_eq {ok : System → ℕ → Act → Prop} {n : ℕ} (hreach : Reach ok n σ) :
    σ.harts = n := by
  induction hreach with
  | boot => rfl
  | step _ _ hstep ih => rw [(elsewhere_step hstep).harts, ih]
  | tick _ _ ih => exact ih

end Elsewhere

section Entries

/-- What a step of hart `h` does to the ledger. -/
inductive LedgerStep (σ : System) (h : ℕ) : Ledger → Prop
  | same : LedgerStep σ h σ.ledger
  | time {ctx ms : ℕ} {r : Resume} {w : ℕ} (hpc : (σ.hart h).pc = .sleepTime ctx ms r)
      (hw : sleepUntil σ.time ms = some w) : LedgerStep σ h
        { σ.ledger with wakeUpAt := Function.update σ.ledger.wakeUpAt (σ.hart h).tp w }
  | push {ctx : ℕ} {r : Resume} (hpc : (σ.hart h).pc = .sleepPush ctx r) : LedgerStep σ h
      ⟨Function.update σ.ledger.sleepers h
          (σ.ledger.sleepers h ++ [(σ.ledger.wakeUpAt (σ.hart h).tp, (σ.hart h).tp)]),
        σ.ledger.exitCode, σ.ledger.wakeUpAt⟩
  | add {pid parent : Pid} (hpc : (σ.hart h).pc = .addTask pid parent) : LedgerStep σ h
      ⟨σ.ledger.sleepers, Function.update σ.ledger.exitCode pid (-1),
        Function.update σ.ledger.wakeUpAt pid 0⟩
  | wake {r : Resume} (order : List (ℕ × Pid)) (hpc : (σ.hart h).pc = .run r)
      (horder : HeapOrder (σ.ledger.sleepers h) order) : LedgerStep σ h
        ⟨Function.update σ.ledger.sleepers h (order.dropWhile fun x => x.1 ≤ σ.time),
          σ.ledger.exitCode, σ.ledger.wakeUpAt⟩
  | exit {r : Resume} (code : ℤ) (hpc : (σ.hart h).pc = .run r) : LedgerStep σ h
      { σ.ledger with exitCode := Function.update σ.ledger.exitCode (σ.hart h).tp code }

variable {σ σ' : System} {loc : Pid → Loc} {h k : ℕ} {a : Act} {t : Pid}

theorem ledger_setTask_eq (f : Task → Task) : (σ.setTask t f).ledger = { σ.ledger with
    exitCode := Function.update σ.ledger.exitCode t (f (σ.task t)).exitCode
    wakeUpAt := Function.update σ.ledger.wakeUpAt t (f (σ.task t)).wakeUpAt } := by
  have hcode : ∀ u, ((σ.setTask t f).task u).exitCode =
      Function.update σ.ledger.exitCode t (f (σ.task t)).exitCode u :=
    Function.apply_update (fun _ (x : Task) => x.exitCode) σ.task t _
  have htime : ∀ u, ((σ.setTask t f).task u).wakeUpAt =
      Function.update σ.ledger.wakeUpAt t (f (σ.task t)).wakeUpAt u :=
    Function.apply_update (fun _ (x : Task) => x.wakeUpAt) σ.task t _
  rw [System.ledger, funext hcode, funext htime]
  rfl

theorem ledger_setCore_eq (f : Core → Core) : (σ.setCore k f).ledger = { σ.ledger with
    sleepers := Function.update σ.ledger.sleepers k (f (σ.core k)).sleepingTasks } := by
  have hcore : ∀ j, ((σ.setCore k f).core j).sleepingTasks =
      Function.update σ.ledger.sleepers k (f (σ.core k)).sleepingTasks j :=
    Function.apply_update (fun _ (x : Core) => x.sleepingTasks) σ.core k _
  rw [System.ledger, funext hcore]
  rfl

theorem ledger_wake (woken : List Pid) : ({ σ with
    task := fun t => if t ∈ woken then { σ.task t with state := .ready } else σ.task t } :
      System).ledger = σ.ledger := by
  have hcode : ∀ t, (if t ∈ woken then { σ.task t with state := .ready } else σ.task t).exitCode =
      (σ.task t).exitCode := fun t => by split <;> rfl
  have htime : ∀ t, (if t ∈ woken then { σ.task t with state := .ready } else σ.task t).wakeUpAt =
      (σ.task t).wakeUpAt := fun t => by split <;> rfl
  simp only [System.ledger, hcode, htime]

/-- **What a step does to the ledger.** -/
theorem ledgerStep (P : Placed True none σ loc) (hstep : step h a σ = some σ') :
    LedgerStep σ h σ'.ledger := by
  obtain ⟨hh, ⟨-, hk⟩ | ⟨r, hpc, he⟩⟩ := step_cases hstep
  · cases hpc : (σ.hart h).pc with
    | sleepTime ctx ms r =>
      have hat := P.at hh hpc
      rw [hpc] at hk
      obtain rfl := Option.some.inj hk
      rw [sleepTime]
      cases hw : sleepUntil σ.time ms with
      | none => exact .same
      | some w =>
        have hcur : σ.current ctx = (σ.hart h).tp := by
          rw [show ctx = h from hat.here]
          exact hat.current
        rw [Option.elim_some, ledger_setPc, ledger_setTask_eq, hcur]
        have hsame : Function.update σ.ledger.exitCode (σ.hart h).tp
            (σ.task (σ.hart h).tp).exitCode = σ.ledger.exitCode := Function.update_eq_self _ _
        rw [hsame]
        exact .time hpc hw
    | sleepPush ctx r =>
      have hat := P.at hh hpc
      rw [hpc] at hk
      obtain rfl := Option.some.inj hk
      have hctx : ctx = h := hat.here
      have hcur : σ.current h = (σ.hart h).tp := hat.current
      rw [sleepPush, ledger_setPc, ledger_setCore_eq, hctx, hcur]
      exact .push hpc
    | addTask pid parent =>
      rw [hpc] at hk
      obtain rfl := Option.some.inj hk
      rw [addTask, ledger_setPc, ledger_setTask_eq]
      exact .add hpc
    | _ =>
      have hq : (σ.hart h).pc.Quiet := by simp [hpc, Pc.Quiet]
      exact ledger_kernelStep hq hk ▸ .same
  · cases a with
    | timer order =>
      simp only [event, P.ctx_eq hh] at he
      split at he
      · split at he
        · next horder =>
          obtain rfl := Option.some.inj he
          rw [timerLocked, ledger_setPc, ledger_setCore_eq, ledger_wake]
          exact .wake order hpc horder
        · simp at he
      · simp at he
    | exit code =>
      simp only [event] at he
      split at he
      · obtain rfl := Option.some.inj he
        rw [exitCode, P.withCtx_eq hh, (P.at hh hpc).current]
        dsimp only
        split
        · exact .same
        · rw [ledger_setPc, ledger_setTask_eq]
          have hsame : Function.update σ.ledger.wakeUpAt (σ.hart h).tp
              (σ.task (σ.hart h).tp).wakeUpAt = σ.ledger.wakeUpAt := Function.update_eq_self _ _
          dsimp only [Pc.current]
          rw [hsame]
          exact .exit code hpc
      · simp at he
    | _ => exact ledger_event (by trivial) he ▸ .same

end Entries

section Dead

variable {σ σ' : System} {loc : Pid → Loc} {h : ℕ} {pc : Pc} {a : Act} {t : Pid}

theorem setState_state_ne {u : Pid} {s : TaskState} (hu : t ≠ u) :
    ((σ.setState u s).task t).state = (σ.task t).state := by
  simp [System.setState, System.setTask, hu]

theorem dead_setTask {u : Pid} {f : Task → Task} (hf : (f (σ.task u)).state = (σ.task u).state)
    (hd : Dead (σ.task t).state) : Dead ((σ.setTask u f).task t).state := by
  by_cases hu : t = u
  · subst hu
    simpa [System.setTask, hf] using hd
  · simpa [System.setTask, hu] using hd

/-- Marking a dead task as dead, or marking another task. -/
theorem dead_setState {u : Pid} {s : TaskState} (hs : t = u → Dead s)
    (hd : Dead (σ.task t).state) : Dead ((σ.setState u s).task t).state := by
  by_cases hu : t = u
  · subst hu
    rw [setState_state]
    exact hs rfl
  · rwa [setState_state_ne hu]

theorem ne_of_dead {u : Pid} {s : TaskState} (hd : Dead (σ.task t).state)
    (hs : Near True (σ.task u).state s) (hlive : ¬ Dead s) : t ≠ u := by
  rintro rfl
  exact hs.not_dead trivial hlive hd

theorem ne_of_runnable {u : Pid} (hd : Dead (σ.task t).state) (hs : Runnable (σ.task u).state) :
    t ≠ u := by
  rintro rfl
  exact hs.not_dead hd

variable (P : Placed True none σ loc) (hh : h < σ.harts) (hc : (loc t).Created)
  (hd : Dead (σ.task t).state)
include P hh hd

/-- A task that a hart carries to a run queue is not dead. -/
theorem Placed.ne_carried {u : Pid} (hpc : (σ.hart h).pc = pc)
    (hhold : pc.hold = some (.carried, u)) : t ≠ u := by
  have hok := P.task u
  rw [P.loc_of_hold hh hpc hhold] at hok
  rintro rfl
  exact hok.2.2 trivial hd

theorem dead_scheduleLocked (r : Resume) : Dead ((scheduleLocked h r σ).task t).state := by
  rw [scheduleLocked, P.withCtx_eq hh, P.idleTask h]
  have hidle : t ≠ 2 * h := ne_of_runnable hd (P.idle h hh).2
  dsimp only
  split
  · next new queue hpop =>
    obtain ⟨-, -, hready, -⟩ := popReady_eq_some hpop
    have hnew : t ≠ new := ne_of_runnable hd (Or.inl hready)
    have hd' : Dead ((σ.setState new .running).task t).state := by
      rwa [setState_state_ne hnew]
    split
    · next hc => exact dead_setState (fun ht => absurd ht (ne_of_runnable hd' (Or.inr hc.2))) hd'
    · split <;> exact hd'
  · split
    · next hc => exact dead_setState (fun ht => absurd ht (ne_of_runnable hd hc)) hd
    · exact dead_setState (fun ht => absurd ht hidle) hd

theorem dead_sleepCurrentTask (ms : ℕ) {r : Resume} (hpc : (σ.hart h).pc = .run r) :
    Dead ((sleepCurrentTask h ms r σ).task t).state := by
  have hat := P.at hh hpc
  rw [sleepCurrentTask, P.withCtx_eq hh, hat.current]
  exact dead_setState (fun ht => absurd ht (ne_of_dead hd hat.stage.2 (by simp [Dead]))) hd

omit P hh in
theorem dead_enqueueForReaper (u : Pid) (pc : Pc) :
    Dead ((enqueueForReaper h u pc σ).task t).state := by
  rw [enqueueForReaper, System.withCtx]
  split <;> exact hd

include hc

/-- A dead task stays dead in a step of the kernel. -/
theorem dead_kernelStep (hpc : (σ.hart h).pc = pc) (hstep : kernelStep h σ pc = some σ') :
    Dead (σ'.task t).state := by
  have hat := P.at hh hpc
  cases pc with
  | run r =>
    cases r with
    | wait ctx =>
      obtain rfl := Option.some.inj hstep
      rw [reapFind]
      split <;> exact hd
    | reaper =>
      obtain rfl := Option.some.inj hstep
      rw [reaperLoop, P.withCtx_eq hh]
      split
      · exact hd
      · exact dead_sleepCurrentTask P hh hd 5000 hpc
    | _ => simp [kernelStep] at hstep
  | panicked => simp [kernelStep] at hstep
  | schedule r => exact Option.some.inj hstep ▸ dead_scheduleLocked P hh hd r
  | switchTo prev next r =>
    obtain rfl := Option.some.inj hstep
    rw [switchTo]
    dsimp only
    apply dead_setTask rfl
    exact dead_setTask rfl hd
  | irqReady x r =>
    obtain rfl := Option.some.inj hstep
    exact dead_setState (fun ht => absurd ht (P.ne_carried hh hd hpc rfl)) hd
  | exitReady x =>
    obtain rfl := Option.some.inj hstep
    exact dead_setState (fun ht => absurd ht (P.ne_carried hh hd hpc rfl)) hd
  | enqueuePush x idx k =>
    obtain rfl := Option.some.inj hstep
    rw [enqueuePush, setPc_task, setCore_task]
    exact dead_setTask rfl hd
  | waitBlocked ctx =>
    obtain rfl := Option.some.inj hstep
    rw [waitBlocked, show ctx = h from hat.here, hat.current]
    exact dead_setState (fun ht => absurd ht (ne_of_dead hd hat.stage.2 (by simp [Dead]))) hd
  | waitRunning ctx =>
    obtain rfl := Option.some.inj hstep
    rw [waitRunning, show ctx = h from hat.here, hat.current]
    exact dead_setState (fun ht => absurd ht (ne_of_dead hd hat.stage.2 (by simp [Dead]))) hd
  | addTask pid parent =>
    obtain rfl := Option.some.inj hstep
    have hne : t ≠ pid := by
      rintro rfl
      rw [P.loc_of_hold hh hpc rfl] at hc
      exact hc
    rw [addTask]
    simpa [System.setPc, System.setTask, hne] using hd
  | exitZombie ctx =>
    obtain rfl := Option.some.inj hstep
    exact dead_setState (fun _ => Or.inl rfl) hd
  | reapExited c | cleanupExited c =>
    obtain rfl := Option.some.inj hstep
    exact dead_setState (fun _ => Or.inr rfl) hd
  | sleepTime ctx ms r =>
    obtain rfl := Option.some.inj hstep
    rw [sleepTime]
    cases sleepUntil σ.time ms with
    | none => exact hd
    | some wakeUpAt =>
      rw [Option.elim_some, setPc_task]
      exact dead_setTask rfl hd
  | timerCheck ctx now last woke r =>
    obtain rfl := Option.some.inj hstep
    rw [timerCheck]
    split <;> exact hd
  | exitChildren ctx =>
    obtain rfl := Option.some.inj hstep
    rw [exitChildren, setPc_task]
    exact dead_setTask rfl hd
  | exitNotify ctx =>
    obtain rfl := Option.some.inj hstep
    rw [exitNotify]
    split
    · split <;> exact hd
    · exact hd
  | exitRemove parent =>
    obtain rfl := Option.some.inj hstep
    rw [exitRemove]
    split <;> exact hd
  | exitCleanup ctx => exact Option.some.inj hstep ▸ dead_enqueueForReaper hd _ _
  | reapQueue c => exact Option.some.inj hstep ▸ dead_enqueueForReaper hd _ _
  | waitCheck ctx =>
    obtain rfl := Option.some.inj hstep
    rw [waitCheck]
    split
    · exact dead_enqueueForReaper (dead_setState (fun _ => Or.inr rfl) (dead_setTask rfl hd)) _ _
    · exact hd
  | reapRemove ctx i =>
    obtain rfl := Option.some.inj hstep
    rw [reapRemove]
    split
    · have hd' : Dead ((σ.removeChild (σ.current ctx) i).task t).state := dead_setTask rfl hd
      dsimp only
      split <;> exact hd'
    · exact hd
  | setCurrent | enqueueIdx | irqPush | sleepPush | cleanupFree | cleanupRemove =>
    obtain rfl := Option.some.inj hstep
    exact hd

omit hc in
theorem dead_event {r : Resume} (hpc : (σ.hart h).pc = .run r)
    (hstep : event h σ r a = some σ') : Dead (σ'.task t).state := by
  have hat := P.at hh hpc
  cases a with
  | next => simp [event] at hstep
  | timer order =>
    simp only [event, P.ctx_eq hh] at hstep
    split at hstep
    · split at hstep
      · next horder =>
        obtain rfl := Option.some.inj hstep
        change Dead (if t ∈ σ.toWakeUp order then { σ.task t with state := .ready }
          else σ.task t).state
        rw [if_neg]
        · exact hd
        · intro ht
          exact ne_of_dead hd (P.state_of_toWakeUp hh hpc horder ht) (by simp [Dead]) rfl
      · simp at hstep
    · simp at hstep
  | externalIrq irq =>
    simp only [event] at hstep
    split at hstep
    · obtain rfl := Option.some.inj hstep
      rw [irqPop]
      split
      · exact hd
      · dsimp only
        split <;> exact hd
    · simp at hstep
  | newTask =>
    simp only [event] at hstep
    split at hstep
    · obtain rfl := Option.some.inj hstep
      rw [newTask, P.withCtx_eq hh]
      dsimp only
      rw [setPc_task]
      exact dead_setTask rfl hd
    · simp at hstep
  | exit code =>
    simp only [event] at hstep
    split at hstep
    · obtain rfl := Option.some.inj hstep
      rw [exitCode, P.withCtx_eq hh]
      dsimp only
      split
      · exact hd
      · rw [setPc_task]
        exact dead_setTask rfl hd
    · simp at hstep
  | wait =>
    simp only [event] at hstep
    split at hstep
    · obtain rfl := Option.some.inj hstep
      rw [wait, P.withCtx_eq hh]
      split <;> exact hd
    · simp at hstep
  | sleep ms =>
    simp only [event] at hstep
    split at hstep
    · next hr => exact Option.some.inj hstep ▸ dead_sleepCurrentTask P hh hd ms (hr ▸ hpc)
    · simp at hstep
  | console ready =>
    simp only [event] at hstep
    split at hstep
    · obtain rfl := Option.some.inj hstep
      split
      · exact hd
      · rw [blockOnExternalIrq, P.withCtx_eq hh, hat.current]
        exact dead_setState (fun ht => absurd ht (ne_of_dead hd hat.stage.2 (by simp [Dead]))) hd
    · simp at hstep

omit hh in
/-- **A dead task stays dead.** -/
theorem dead_step (hstep : step h a σ = some σ') : Dead (σ'.task t).state := by
  obtain ⟨hh, ⟨-, hk⟩ | ⟨r, hpc, he⟩⟩ := step_cases hstep
  · exact dead_kernelStep P hh hc hd rfl hk
  · exact dead_event P hh hd hpc he

end Dead

end Efiks.Sched

import Mathlib

/-!
# The scheduler on several harts

The scheduler and the life of a task, `sched::sched`, `sched::reaper_task_main` and
`task::task`, as a machine whose harts take turns. One step is a section that runs under a
lock, or the store of a task's state; plain reads and writes belong to the step that comes
next. A hart is interrupted only while it runs user code or the idle loop.

`ctx.current_task` is a field of the core's context, and the functions that take a task take
a reference to that field. What a hart executes is the task its register `tp` points to, and
the context it works on is the one this task's `per_cpu_ctx` names; the model keeps the two
apart from the number of the hart.

Memory, files and the terminal are left out: a spawn that fails does nothing here, and
whether a character is there to be read is an input.

## Main definitions

* `Task`, `Core`, `Hart`, `System` — the state.
* `Pc`, `Resume` — where a hart is in the kernel, and where `schedule` returns to.
* `kernelStep`, `event`, `step` — the steps.
* `boot`, `Reach` — runs of the machine.
* `trace` — a run that is written out.
-/
namespace Efiks.Sched

abbrev Pid := ℕ

inductive TaskState
  | sleeping
  | running
  | ready
  | blocked
  | zombie
  | exited
  deriving DecidableEq

/-- What a task goes on with when `schedule` returns to it. -/
inductive Resume
  | user
  | idle
  /-- The loop of `reaper_task_main`. -/
  | reaper
  /-- The end of `task::wait`, which refers to `current_task` of the core `ctx`. -/
  | wait (ctx : ℕ)
  /-- The loop of `ConsoleVNode::read`. -/
  | console
  deriving DecidableEq

/-- What follows a call of `enqueue_new_task`. -/
inductive After
  | ret (r : Resume)
  | schedule
  deriving DecidableEq

/-- Where a hart is. `ctx` is the core whose context the function has loaded. -/
inductive Pc
  /-- Outside of `schedule`, about to go on at `r`. -/
  | run (r : Resume)
  | schedule (r : Resume)
  | setCurrent (ctx : ℕ) (prev next : Pid) (r : Resume)
  | switchTo (prev next : Pid) (r : Resume)
  | enqueueIdx (t : Pid) (k : After)
  | enqueuePush (t : Pid) (idx : ℕ) (k : After)
  | irqReady (t : Pid) (r : Resume)
  | irqPush (ctx : ℕ)
  | sleepTime (ctx ms : ℕ) (r : Resume)
  | sleepPush (ctx : ℕ) (r : Resume)
  | timerCheck (ctx now last : ℕ) (woke : Bool) (r : Resume)
  | addTask (pid parent : Pid)
  | exitZombie (ctx : ℕ)
  | exitChildren (ctx : ℕ)
  | exitNotify (ctx : ℕ)
  | exitRemove (parent : Pid)
  | exitReady (parent : Pid)
  | exitCleanup (ctx : ℕ)
  | waitBlocked (ctx : ℕ)
  | waitCheck (ctx : ℕ)
  | waitRunning (ctx : ℕ)
  | reapRemove (ctx idx : ℕ)
  | reapExited (c : Pid)
  | reapQueue (c : Pid)
  | cleanupExited (t : Pid)
  | cleanupFree (t : Pid)
  | cleanupRemove (t : Pid)
  | panicked
  deriving DecidableEq

structure Task where
  state : TaskState
  parent : Option Pid
  children : List Pid
  exitCode : ℤ
  wakeUpAt : ℕ
  /-- `thread_info.per_cpu_ctx`, null until the task is enqueued. -/
  perCpuCtx : Option ℕ
  /-- Where the saved registers go on. -/
  context : Resume
  /-- The context was saved after the task last ran. -/
  saved : Bool

/-- `PerCoreContext`, with its scheduler and its reaper's queue. -/
structure Core where
  runqueue : List Pid
  /-- Wake-up times and tasks, as they lie in the heap. -/
  sleepingTasks : List (ℕ × Pid)
  lastEntranceTime : ℕ
  currentTask : Pid
  idleTask : Pid
  cleanupQueue : List Pid

/-- The task pointer of a hart and what it executes. -/
structure Hart where
  tp : Pid
  pc : Pc

structure System where
  /-- `get_core_count`. -/
  harts : ℕ
  hart : ℕ → Hart
  core : ℕ → Core
  task : Pid → Task
  /-- The task table. -/
  table : Finset Pid
  pidCounter : ℕ
  lastRqHartIdx : ℕ
  irqWaitQueue : ℕ → List Pid
  waitingTasks : Finset Pid
  time : ℕ
  /-- The tasks that were passed to `task::cleanup`. -/
  cleaned : List Pid

namespace System

def setPc (h : ℕ) (pc : Pc) (σ : System) : System :=
  { σ with hart := Function.update σ.hart h { σ.hart h with pc := pc } }

def setTask (t : Pid) (f : Task → Task) (σ : System) : System :=
  { σ with task := Function.update σ.task t (f (σ.task t)) }

def setState (t : Pid) (s : TaskState) (σ : System) : System :=
  σ.setTask t fun x => { x with state := s }

def setCore (k : ℕ) (f : Core → Core) (σ : System) : System :=
  { σ with core := Function.update σ.core k (f (σ.core k)) }

/-- The core whose context `load_core_ctx` returns on hart `h`. -/
def ctx (σ : System) (h : ℕ) : Option ℕ := (σ.task (σ.hart h).tp).perCpuCtx

/-- Go on with the core's context; a null pointer is unwrapped. -/
def withCtx (h : ℕ) (σ : System) (f : ℕ → System) : System :=
  match σ.ctx h with
  | some ctx => f ctx
  | none => σ.setPc h .panicked

/-- `ctx.current_task`. -/
def current (σ : System) (ctx : ℕ) : Pid := (σ.core ctx).currentTask

end System

/-- The tasks the local variables of the kernel own. -/
def Pc.owned : Pc → List Pid
  | .setCurrent _ _ next _ | .switchTo _ next _ => [next]
  | .enqueueIdx t _ | .enqueuePush t _ _ | .irqReady t _ => [t]
  | .exitRemove p | .exitReady p => [p]
  | .reapExited c | .reapQueue c | .cleanupExited c | .cleanupFree c | .cleanupRemove c => [c]
  | _ => []

/-- `Weak::upgrade`: some owner of the task is left. -/
def System.upgrade (σ : System) (t : Pid) : Bool :=
  decide (t ∈ σ.table) || (List.range σ.harts).any fun k =>
    decide (t ∈ (σ.core k).runqueue ∨ t ∈ (σ.core k).cleanupQueue ∨ (σ.core k).currentTask = t ∨
      (σ.core k).idleTask = t ∨ t ∈ (σ.hart k).pc.owned)

section Schedule

/-- The loop of `schedule`: entries that are not ready are discarded. -/
def popReady (task : Pid → Task) : List Pid → Option (Pid × List Pid)
  | [] => none
  | t :: queue => if (task t).state = .ready then some (t, queue) else popReady task queue

/-- `schedule`, as far as it holds the lock of the core's scheduler. -/
def scheduleLocked (h : ℕ) (r : Resume) (σ : System) : System := σ.withCtx h fun ctx =>
  let cur := σ.current ctx
  let idle := (σ.core ctx).idleTask
  match popReady σ.task (σ.core ctx).runqueue with
  | some (new, queue) =>
      let σ := σ.setState new .running
      let σ₁ :=
        if cur ≠ idle ∧ (σ.task cur).state = .running then
          (σ.setState cur .ready).setCore ctx fun c => { c with runqueue := queue ++ [cur] }
        else if cur ≠ idle ∧ (σ.task cur).state = .ready then
          σ.setCore ctx fun c => { c with runqueue := queue ++ [cur] }
        else σ.setCore ctx fun c => { c with runqueue := queue }
      (σ₁.setCore ctx fun c => { c with lastEntranceTime := σ.time }).setPc h
        (.setCurrent ctx cur new r)
  | none =>
      let σ := σ.setCore ctx fun c => { c with runqueue := [] }
      if (σ.task cur).state = .ready ∨ (σ.task cur).state = .running then
        (σ.setState cur .running).setPc h (.run r)
      else
        ((σ.setState idle .running).setCore ctx fun c =>
          { c with currentTask := idle, lastEntranceTime := σ.time }).setPc h (.switchTo cur idle r)

/-- `ctx.current_task = new_task`. -/
def setCurrent (h ctx : ℕ) (prev next : Pid) (r : Resume) (σ : System) : System :=
  (σ.setCore ctx fun c => { c with currentTask := next }).setPc h (.switchTo prev next r)

/-- `switch_to`: the registers are saved to `prev` and loaded from `next`. -/
def switchTo (h : ℕ) (prev next : Pid) (r : Resume) (σ : System) : System :=
  let σ := σ.setTask prev fun x => { x with context := r, saved := true }
  let σ := σ.setTask next fun x => { x with saved := false }
  { σ with hart := Function.update σ.hart h ⟨next, .run (σ.task next).context⟩ }

/-- Where a hart goes on after `enqueue_new_task`. -/
def After.pc : After → Pc
  | .ret r => .run r
  | .schedule => .schedule .user

/-- `enqueue_new_task`: the choice of a run queue. -/
def enqueueIdx (h : ℕ) (t : Pid) (k : After) (σ : System) : System :=
  let idx := if σ.lastRqHartIdx + 1 ≥ σ.harts then 0 else σ.lastRqHartIdx + 1
  ({ σ with lastRqHartIdx := idx } : System).setPc h (.enqueuePush t idx k)

/-- `enqueue_new_task`: the task is pushed. -/
def enqueuePush (h : ℕ) (t : Pid) (idx : ℕ) (k : After) (σ : System) : System :=
  ((σ.setTask t fun x => { x with perCpuCtx := some idx }).setCore idx fun c =>
    { c with runqueue := c.runqueue ++ [t] }).setPc h k.pc

end Schedule

section Interrupts

def CPU_HERTZ : ℕ := 10000000

/-- `nanos * CPU_HERTZ / 1_000_000_000`, which panics when the product overflows. -/
def nanosToTicks (nanos : ℕ) : Option ℕ :=
  if nanos * CPU_HERTZ < 2 ^ 64 then some (nanos * CPU_HERTZ / 1000000000) else none

/-- The heap yields its nodes in the order of their times, equal times in any order. -/
def HeapOrder (heap order : List (ℕ × Pid)) : Prop :=
  order.Perm heap ∧ order.Pairwise fun x y => x.1 ≤ y.1

instance (heap order : List (ℕ × Pid)) : Decidable (HeapOrder heap order) :=
  inferInstanceAs (Decidable (_ ∧ _))

/-- The tasks of the nodes whose time has come, those that are left of them. -/
def System.toWakeUp (σ : System) (order : List (ℕ × Pid)) : List Pid :=
  ((order.takeWhile fun x => x.1 ≤ σ.time).map Prod.snd).filter σ.upgrade

/-- `on_timer_interrupt`, as far as it holds the lock of the core's scheduler. -/
def timerLocked (h ctx : ℕ) (order : List (ℕ × Pid)) (r : Resume) (σ : System) : System :=
  let woken := σ.toWakeUp order
  let last := (σ.core ctx).lastEntranceTime
  (({ σ with
      task := fun t => if t ∈ woken then { σ.task t with state := .ready } else σ.task t } :
    System).setCore ctx fun c => { c with
      runqueue := c.runqueue ++ woken
      sleepingTasks := order.dropWhile fun x => x.1 ≤ σ.time }).setPc h
    (.timerCheck ctx σ.time last (!woken.isEmpty) r)

/-- `on_timer_interrupt`: whether it calls `schedule`. -/
def timerCheck (h ctx now last : ℕ) (woke : Bool) (r : Resume) (σ : System) : System :=
  let core := σ.core ctx
  if (core.currentTask ≠ core.idleTask ∧ (nanosToTicks (32 * 1000000)).any (· < now - last)) ∨
      woke ∨ (core.currentTask = core.idleTask ∧ core.runqueue ≠ []) then
    σ.setPc h (.schedule r)
  else σ.setPc h (.run r)

/-- `on_external_irq`: a task is taken from the queue of the interrupt. -/
def irqPop (h irq : ℕ) (r : Resume) (σ : System) : System :=
  match σ.irqWaitQueue irq with
  | [] => σ
  | t :: queue =>
      let σ₁ := { σ with irqWaitQueue := Function.update σ.irqWaitQueue irq queue }
      if σ.upgrade t then σ₁.setPc h (.irqReady t r) else σ₁

def irqReady (h : ℕ) (t : Pid) (r : Resume) (σ : System) : System :=
  (σ.setState t .ready).setPc h (.enqueueIdx t (.ret r))

/-- `UART0_IRQ`. -/
def uart0Irq : ℕ := 10

/-- `block_on_external_irq(UART0_IRQ)`: the task is marked. -/
def blockOnExternalIrq (h : ℕ) (σ : System) : System := σ.withCtx h fun ctx =>
  (σ.setState (σ.current ctx) .blocked).setPc h (.irqPush ctx)

/-- `block_on_external_irq(UART0_IRQ)`: the task is put into the queue. -/
def irqPush (h ctx : ℕ) (σ : System) : System :=
  let queue := σ.irqWaitQueue uart0Irq ++ [σ.current ctx]
  ({ σ with irqWaitQueue := Function.update σ.irqWaitQueue uart0Irq queue } : System).setPc h
    (.schedule .console)

/-- `sleep_current_task`: the task is marked. -/
def sleepCurrentTask (h ms : ℕ) (r : Resume) (σ : System) : System := σ.withCtx h fun ctx =>
  (σ.setState (σ.current ctx) .sleeping).setPc h (.sleepTime ctx ms r)

/-- The time at which a task that goes to sleep now for `ms` milliseconds is woken up. A
duration that does not fit in nanoseconds, and a time that does not fit, count as 0. -/
def sleepUntil (now ms : ℕ) : Option ℕ :=
  (nanosToTicks (if ms * 1000000 < 2 ^ 64 then ms * 1000000 else 0)).map fun ticks =>
    if now + ticks < 2 ^ 64 then now + ticks else 0

/-- `sleep_current_task`: the time is set. -/
def sleepTime (h ctx ms : ℕ) (r : Resume) (σ : System) : System :=
  (sleepUntil σ.time ms).elim (σ.setPc h .panicked) fun wakeUpAt =>
    (σ.setTask (σ.current ctx) fun x => { x with wakeUpAt := wakeUpAt }).setPc h (.sleepPush ctx r)

/-- `sleep_current_task`: the task is put into the heap. -/
def sleepPush (h ctx : ℕ) (r : Resume) (σ : System) : System :=
  let t := σ.current ctx
  (σ.setCore ctx fun c =>
    { c with sleepingTasks := c.sleepingTasks ++ [((σ.task t).wakeUpAt, t)] }).setPc h (.schedule r)

end Interrupts

section Life

/-- `spawn` and `fork`, after everything that can fail: the child gets its number and is
entered into the parent's list. -/
def newTask (h : ℕ) (σ : System) : System := σ.withCtx h fun ctx =>
  let pid := σ.pidCounter
  let parent := σ.current ctx
  (({ σ with pidCounter := pid + 1 } : System).setTask parent fun x =>
    { x with children := x.children ++ [pid] }).setPc h (.addTask pid parent)

/-- `task::add_task`. -/
def addTask (h : ℕ) (pid parent : Pid) (σ : System) : System :=
  (({ σ with table := insert pid σ.table } : System).setTask pid fun _ =>
    { state := .ready, parent := some parent, children := [], exitCode := -1, wakeUpAt := 0,
      perCpuCtx := none, context := .user, saved := true }).setPc h (.enqueueIdx pid (.ret .user))

/-- `task::exit`: the check and the exit code. -/
def exitCode (h : ℕ) (code : ℤ) (σ : System) : System := σ.withCtx h fun ctx =>
  let t := σ.current ctx
  if (σ.task t).state = .exited then σ
  else (σ.setTask t fun x => { x with exitCode := code }).setPc h (.exitZombie ctx)

def exitZombie (h ctx : ℕ) (σ : System) : System :=
  (σ.setState (σ.current ctx) .zombie).setPc h (.exitChildren ctx)

def exitChildren (h ctx : ℕ) (σ : System) : System :=
  (σ.setTask (σ.current ctx) fun x => { x with children := [] }).setPc h (.exitNotify ctx)

/-- `on_task_exit`: the parent is looked up. -/
def exitNotify (h ctx : ℕ) (σ : System) : System :=
  match (σ.task (σ.current ctx)).parent with
  | some p => if p ∈ σ.table then σ.setPc h (.exitRemove p) else σ.setPc h (.exitCleanup ctx)
  | none => σ.setPc h (.exitCleanup ctx)

/-- `on_task_exit`: the parent is taken from `waiting_tasks`. -/
def exitRemove (h : ℕ) (parent : Pid) (σ : System) : System :=
  if parent ∈ σ.waitingTasks then
    ({ σ with waitingTasks := σ.waitingTasks.erase parent } : System).setPc h (.exitReady parent)
  else σ.setPc h (.schedule .user)

def exitReady (h : ℕ) (parent : Pid) (σ : System) : System :=
  (σ.setState parent .ready).setPc h (.enqueueIdx parent .schedule)

/-- `cleanup_queue.push_back` of the reaper of the core of hart `h`. -/
def enqueueForReaper (h : ℕ) (t : Pid) (pc : Pc) (σ : System) : System := σ.withCtx h fun ctx =>
  (σ.setCore ctx fun c => { c with cleanupQueue := c.cleanupQueue ++ [t] }).setPc h pc

/-- `on_task_exit` without a parent. -/
def exitCleanup (h ctx : ℕ) (σ : System) : System :=
  enqueueForReaper h (σ.current ctx) (.schedule .user) σ

/-- The first child of `t` that is a zombie, as in `reap_zombie_child`. -/
def System.zombieChild (σ : System) (t : Pid) : Option ℕ :=
  (σ.task t).children.findIdx? fun c => decide (c ∈ σ.table ∧ (σ.task c).state = .zombie)

/-- `task::wait`: the check for children. -/
def wait (h : ℕ) (σ : System) : System := σ.withCtx h fun ctx =>
  if (σ.task (σ.current ctx)).children = [] then σ else σ.setPc h (.waitBlocked ctx)

def waitBlocked (h ctx : ℕ) (σ : System) : System :=
  (σ.setState (σ.current ctx) .blocked).setPc h (.waitCheck ctx)

/-- Take the child with index `i` from the list of `t`. -/
def System.removeChild (t : Pid) (i : ℕ) (σ : System) : System :=
  σ.setTask t fun x => { x with children := x.children.eraseIdx i }

/-- `block_on_wait`, as far as it holds the lock: a zombie is reaped, or the task is
entered into `waiting_tasks`. -/
def waitCheck (h ctx : ℕ) (σ : System) : System :=
  let t := σ.current ctx
  match (σ.zombieChild t).bind fun i => ((σ.task t).children[i]?).map (Prod.mk i) with
  | some (i, c) =>
      enqueueForReaper h c (.waitRunning ctx) ((σ.removeChild t i).setState c .exited)
  | none =>
      ({ σ with waitingTasks := insert t σ.waitingTasks } : System).setPc h (.schedule (.wait ctx))

def waitRunning (h ctx : ℕ) (σ : System) : System :=
  (σ.setState (σ.current ctx) .running).setPc h (.run .user)

/-- `task::wait`, after it was blocked: `reap_zombie_child` looks for a zombie. -/
def reapFind (h ctx : ℕ) (σ : System) : System :=
  match σ.zombieChild (σ.current ctx) with
  | some i => σ.setPc h (.reapRemove ctx i)
  | none => σ.setPc h .panicked

/-- `reap_zombie_child`: the child is taken from the list and looked up. -/
def reapRemove (h ctx i : ℕ) (σ : System) : System :=
  match (σ.task (σ.current ctx)).children[i]? with
  | some c =>
      let σ₁ := σ.removeChild (σ.current ctx) i
      if c ∈ σ.table then σ₁.setPc h (.reapExited c) else σ₁.setPc h .panicked
  | none => σ.setPc h .panicked

def reapExited (h : ℕ) (c : Pid) (σ : System) : System :=
  (σ.setState c .exited).setPc h (.reapQueue c)

/-- The loop of `reaper_task_main`. -/
def reaperLoop (h : ℕ) (σ : System) : System := σ.withCtx h fun ctx =>
  match (σ.core ctx).cleanupQueue with
  | t :: queue =>
      (({ σ with cleaned := σ.cleaned ++ [t] } : System).setCore ctx fun c =>
        { c with cleanupQueue := queue }).setPc h (.cleanupExited t)
  | [] => sleepCurrentTask h 5000 .reaper σ

def cleanupExited (h : ℕ) (t : Pid) (σ : System) : System :=
  (σ.setState t .exited).setPc h (.cleanupFree t)

/-- `task.mm.free()`. -/
def cleanupFree (h : ℕ) (t : Pid) (σ : System) : System := σ.setPc h (.cleanupRemove t)

/-- `task::remove_task`. -/
def cleanupRemove (h : ℕ) (t : Pid) (σ : System) : System :=
  ({ σ with table := σ.table.erase t } : System).setPc h (.run .reaper)

end Life

/-- What a hart does next. -/
inductive Act
  /-- The next step of the kernel code the hart is in. -/
  | next
  /-- A timer interrupt; the heap yields its nodes in this order. -/
  | timer (order : List (ℕ × Pid))
  | externalIrq (irq : ℕ)
  /-- `spawn` or `fork`. -/
  | newTask
  | exit (code : ℤ)
  | wait
  | sleep (ms : ℕ)
  /-- `read` of the console; whether the characters it asks for are there. -/
  | console (ready : Bool)
  deriving DecidableEq

/-- The next step inside of the kernel. -/
def kernelStep (h : ℕ) (σ : System) : Pc → Option System
  | .run .reaper => some (reaperLoop h σ)
  | .run (.wait ctx) => some (reapFind h ctx σ)
  | .run _ | .panicked => none
  | .schedule r => some (scheduleLocked h r σ)
  | .setCurrent ctx prev next r => some (setCurrent h ctx prev next r σ)
  | .switchTo prev next r => some (switchTo h prev next r σ)
  | .enqueueIdx t k => some (enqueueIdx h t k σ)
  | .enqueuePush t idx k => some (enqueuePush h t idx k σ)
  | .irqReady t r => some (irqReady h t r σ)
  | .irqPush ctx => some (irqPush h ctx σ)
  | .sleepTime ctx ms r => some (sleepTime h ctx ms r σ)
  | .sleepPush ctx r => some (sleepPush h ctx r σ)
  | .timerCheck ctx now last woke r => some (timerCheck h ctx now last woke r σ)
  | .addTask pid parent => some (addTask h pid parent σ)
  | .exitZombie ctx => some (exitZombie h ctx σ)
  | .exitChildren ctx => some (exitChildren h ctx σ)
  | .exitNotify ctx => some (exitNotify h ctx σ)
  | .exitRemove parent => some (exitRemove h parent σ)
  | .exitReady parent => some (exitReady h parent σ)
  | .exitCleanup ctx => some (exitCleanup h ctx σ)
  | .waitBlocked ctx => some (waitBlocked h ctx σ)
  | .waitCheck ctx => some (waitCheck h ctx σ)
  | .waitRunning ctx => some (waitRunning h ctx σ)
  | .reapRemove ctx i => some (reapRemove h ctx i σ)
  | .reapExited c => some (reapExited h c σ)
  | .reapQueue c => some (enqueueForReaper h c (.run .user) σ)
  | .cleanupExited t => some (cleanupExited h t σ)
  | .cleanupFree t => some (cleanupFree h t σ)
  | .cleanupRemove t => some (cleanupRemove h t σ)

/-- An interrupt or a system call, while the hart is outside of the kernel. -/
def event (h : ℕ) (σ : System) (r : Resume) : Act → Option System
  | .next => none
  | .timer order =>
      if r = .user ∨ r = .idle then
        match σ.ctx h with
        | some ctx =>
            if HeapOrder (σ.core ctx).sleepingTasks order then some (timerLocked h ctx order r σ)
            else none
        | none => some (σ.setPc h .panicked)
      else none
  | .externalIrq irq => if r = .user ∨ r = .idle then some (irqPop h irq r σ) else none
  | .newTask => if r = .user then some (newTask h σ) else none
  | .exit code => if r = .user then some (exitCode h code σ) else none
  | .wait => if r = .user then some (wait h σ) else none
  | .sleep ms => if r = .user then some (sleepCurrentTask h ms .user σ) else none
  | .console ready =>
      if r = .user ∨ r = .console then
        some (if ready then σ.setPc h (.run .user) else blockOnExternalIrq h σ)
      else none

/-- One step of hart `h`. -/
def step (h : ℕ) (a : Act) (σ : System) : Option System :=
  if σ.harts ≤ h then none
  else if a = .next then kernelStep h σ (σ.hart h).pc
  else match (σ.hart h).pc with
    | .run r => event h σ r a
    | _ => none

/-- A task as `create_kernel_task` makes it. -/
def kernelTask (ctx : ℕ) (context : Resume) (saved : Bool) : Task :=
  { state := .ready, parent := none, children := [], exitCode := -1, wakeUpAt := 0,
    perCpuCtx := some ctx, context := context, saved := saved }

/-- The machine with `n` harts that are about to call `schedule` for the first time. Core `k`
has the idle task `2 * k` and the reaper `2 * k + 1`; the shell comes last. -/
def boot (n : ℕ) : System where
  harts := n
  hart k := ⟨2 * k, .schedule .idle⟩
  core k :=
    { runqueue := if k = 1 % n then [2 * k + 1, 2 * n] else if k < n then [2 * k + 1] else []
      sleepingTasks := []
      lastEntranceTime := 0
      currentTask := 2 * k
      idleTask := 2 * k
      cleanupQueue := [] }
  task t :=
    if t < 2 * n then kernelTask (t / 2) (if t % 2 = 0 then .idle else .reaper) (t % 2 = 1)
    else kernelTask (1 % n) .user true
  table := Finset.range (2 * n + 1)
  pidCounter := 2 * n + 1
  lastRqHartIdx := 1 % n
  irqWaitQueue _ := []
  waitingTasks := ∅
  time := 0
  cleaned := []

/-- The states of `n` harts after steps that meet `ok`; time passes in between. -/
inductive Reach (ok : System → ℕ → Act → Prop) (n : ℕ) : System → Prop
  | boot : Reach ok n (boot n)
  | step {σ σ' : System} {h : ℕ} {a : Act} : Reach ok n σ → ok σ h a → step h a σ = some σ' →
      Reach ok n σ'
  | tick {σ : System} (d : ℕ) : Reach ok n σ → Reach ok n { σ with time := σ.time + d }

section Traces

/-- An entry of a run that is written out. -/
inductive Move
  | act (h : ℕ) (a : Act)
  | tick (d : ℕ)

variable (ok : System → ℕ → Act → Prop) [∀ σ h a, Decidable (ok σ h a)]

/-- The state after the moves, if all of them are possible and meet `ok`. -/
def trace : List Move → System → Option System
  | [], σ => some σ
  | .act h a :: moves, σ => if ok σ h a then (step h a σ).bind (trace moves) else none
  | .tick d :: moves, σ => trace moves { σ with time := σ.time + d }

/-- The hart takes `m` steps of the kernel. -/
def steps (h m : ℕ) : List Move := List.replicate m (.act h .next)

variable {ok}

theorem reach_trace {n : ℕ} {moves : List Move} {σ σ' : System} (hreach : Reach ok n σ)
    (h : trace ok moves σ = some σ') : Reach ok n σ' := by
  induction moves generalizing σ with
  | nil => exact Option.some.inj h ▸ hreach
  | cons move moves ih =>
    cases move with
    | act k a =>
      rw [trace] at h
      split at h
      · next hok =>
        obtain ⟨τ, hτ, h⟩ := Option.bind_eq_some_iff.1 h
        exact ih (.step hreach hok hτ) h
      · simp at h
    | tick d => exact ih (.tick d hreach) h

end Traces

end Efiks.Sched

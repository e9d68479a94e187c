import Efiks.Sched.Harts
import Mathlib.Tactic.Common

/-!
# Where every task is

The scheduler keeps no table of who has a task at hand. This file says it: at every step a
task is executed by one hart, or it lies in one queue, or a local variable of one hart holds
it, or it is left alone; while a hart puts its task away, the task is in the queue already and
still on the hart. `Placed` ties such an assignment to the state of the machine, with one hart
left out while it is in the middle of a step.

A task that a wait has taken for a zombie may be anything when the wait has gone on on
another core. `strict` leaves this out; without it a task's state may be `exited` wherever the
task is.

## Main definitions

* `Queue`, `Hold`, `Loc` — where a task can be.
* `TaskOk`, `HartOk` — what the place says about the task, and the program counter about the
  hart.
* `Placed` — every task is in its place.
-/
namespace Efiks.Sched

section Places

/-- The containers of the tasks that do not run. -/
inductive Queue
  | run (k : ℕ)
  | sleep (k : ℕ)
  | irq (i : ℕ)
  | wait
  deriving DecidableEq

/-- The state of the tasks in a queue. -/
def Queue.state : Queue → TaskState
  | .run _ => .ready
  | .sleep _ => .sleeping
  | .irq _ | .wait => .blocked

/-- A task in a queue of a core belongs to that core. -/
def Queue.Home (n : ℕ) (ctx : Option ℕ) : Queue → Prop
  | .run k | .sleep k => ctx = some k ∧ k < n
  | .irq _ | .wait => True

/-- How often a task lies in a queue. -/
def System.occ (σ : System) (t : Pid) : Queue → ℕ
  | .run k => (σ.core k).runqueue.count t
  | .sleep k => ((σ.core k).sleepingTasks.map Prod.snd).count t
  | .irq i => (σ.irqWaitQueue i).count t
  | .wait => if t ∈ σ.waitingTasks then 1 else 0

/-- What a local variable of the kernel holds a task for. -/
inductive Hold
  /-- A number that no task has yet. -/
  | reserved
  /-- A task that is on its way to a run queue. -/
  | carried
  /-- The task that the hart is switching to. -/
  | chosen
  deriving DecidableEq

inductive Loc
  | absent
  /-- The idle task of a core, while its hart executes another one. -/
  | idle (k : ℕ)
  /-- Executed by a hart, and in a queue already. -/
  | on (h : ℕ) (q : Option Queue)
  | queued (q : Queue)
  | held (h : ℕ) (x : Hold)
  /-- Nobody will run the task again. -/
  | lost
  deriving DecidableEq

namespace Loc

def queue : Loc → Option Queue
  | .on _ q => q
  | .queued q => some q
  | _ => none

/-- The task is made. -/
def Created : Loc → Prop
  | .absent | .held _ .reserved => False
  | _ => True

theorem Created.ne_absent {l : Loc} (h : l.Created) : l ≠ .absent := by
  rintro rfl
  exact h

/-- No hart but `h` has the task at hand. -/
def Own (h : ℕ) : Loc → Prop
  | .idle k | .on k _ | .held k _ => k = h
  | _ => True

/-- Where the idle task of core `k` can be. -/
def IsIdle (k : ℕ) (l : Loc) : Prop :=
  l = .idle k ∨ l = .on k none ∨ l = .held k .chosen

end Loc

def Runnable (s : TaskState) : Prop := s = .ready ∨ s = .running

def Dead (s : TaskState) : Prop := s = .zombie ∨ s = .exited

theorem Runnable.not_dead {s : TaskState} (hs : Runnable s) : ¬ Dead s := by
  rcases hs with rfl | rfl <;> simp [Dead]

/-- The state is as expected, or a wait has taken the task for a zombie. -/
def Near (strict : Prop) (s s' : TaskState) : Prop := s = s' ∨ ¬ strict ∧ s = .exited

theorem Queue.not_dead (q : Queue) : ¬ Dead q.state := by
  cases q <;> simp [Queue.state, Dead]

/-- A state that is as expected is not dead where none is expected. -/
theorem Near.not_dead {strict : Prop} {s s' : TaskState} (hn : Near strict s s') (st : strict)
    (hs : ¬ Dead s') : ¬ Dead s := by
  rcases hn with rfl | ⟨hn, -⟩
  · exact hs
  · exact absurd st hn

end Places

section Counters

/-- What the local variables of a hart hold. -/
def Pc.hold : Pc → Option (Hold × Pid)
  | .addTask pid _ => some (.reserved, pid)
  | .enqueueIdx t _ | .enqueuePush t _ _ | .irqReady t _ | .exitReady t => some (.carried, t)
  | .setCurrent _ _ next _ | .switchTo _ next _ => some (.chosen, next)
  | _ => none

/-- The task that is being marked or taken apart. -/
def Pc.doomed : Pc → Option Pid
  | .reapExited c | .reapQueue c | .cleanupExited c | .cleanupFree c | .cleanupRemove c => some c
  | _ => none

/-- A task that is ready and about to be pushed. -/
def Pc.pushes : Pc → Option Pid
  | .enqueueIdx t _ | .enqueuePush t _ _ => some t
  | _ => none

/-- The current task of the core, when its hart executes `tp`. -/
def Pc.current (tp : Pid) : Pc → Pid
  | .switchTo _ next _ => next
  | _ => tp

/-- Where the task goes on, where that is decided. -/
def Pc.resume : Pc → Option Resume
  | .run r | .schedule r | .setCurrent _ _ _ r | .switchTo _ _ r | .enqueueIdx _ (.ret r)
  | .enqueuePush _ _ (.ret r) | .irqReady _ r | .sleepTime _ _ r | .sleepPush _ r
  | .timerCheck _ _ _ _ r => some r
  | .panicked => none
  | _ => some .user

/-- The function works on the context of the hart's own core. -/
def Pc.Here (n h : ℕ) : Pc → Prop
  | .setCurrent ctx _ _ _ | .irqPush ctx | .sleepTime ctx _ _ | .sleepPush ctx _
  | .timerCheck ctx _ _ _ _ | .exitZombie ctx | .exitChildren ctx | .exitNotify ctx
  | .exitCleanup ctx | .waitBlocked ctx | .waitCheck ctx | .waitRunning ctx => ctx = h
  | .enqueuePush _ idx _ => idx < n
  | _ => True

/-- The state of the task in the middle of a function. -/
def Pc.StateOk (strict : Prop) (s : TaskState) : Pc → Prop
  | .sleepTime _ _ _ | .sleepPush _ _ => Near strict s .sleeping
  | .irqPush _ | .waitCheck _ | .waitRunning _ => Near strict s .blocked
  | .exitChildren _ | .exitNotify _ | .exitRemove _ | .exitReady _ | .exitCleanup _
  | .enqueueIdx _ .schedule | .enqueuePush _ _ .schedule => Dead s
  | _ => Near strict s .running

/-- The place of the task that hart `h` executes. -/
def StageOk (strict : Prop) (h : ℕ) (t : Pid) (s : TaskState) (l : Loc) : Pc → Prop
  | .panicked => True
  | .schedule _ => (l = .on h none ∧ (Runnable s ∨ Dead s)) ∨
      ∃ q, l = .on h (some q) ∧ ∀ k, q ≠ .run k
  | .setCurrent _ prev _ _ | .switchTo prev _ _ =>
      prev = t ∧ ((l = .on h none ∧ (t = 2 * h ∨ Dead s)) ∨ ∃ q, l = .on h (some q))
  | pc => l = .on h none ∧ pc.StateOk strict s

end Counters

/-- What the place of a task says about the task. -/
def TaskOk (strict : Prop) (n : ℕ) (t : Pid) (x : Task) : Loc → Prop
  | .absent | .held _ .reserved => True
  | .idle k => t = 2 * k ∧ k < n ∧ x.saved = true ∧ x.perCpuCtx = some k ∧ x.context = .idle
  | .on h q => x.saved = false ∧ x.perCpuCtx = some h ∧
      ∀ q' ∈ q, q'.Home n x.perCpuCtx ∧ Near strict x.state q'.state
  | .queued q => x.saved = true ∧ x.context ≠ .idle ∧ q.Home n x.perCpuCtx ∧
      Near strict x.state q.state
  | .held _ .carried => x.saved = true ∧ x.context ≠ .idle ∧ (strict → ¬ Dead x.state)
  | .held h .chosen => x.saved = true ∧ x.perCpuCtx = some h ∧ (x.context = .idle ↔ t = 2 * h) ∧
      Near strict x.state .running
  | .lost => x.saved = true ∧ (strict → Dead x.state)

/-- What the program counter says about the hart. -/
structure HartOk (strict : Prop) (n h : ℕ) (task : Pid → Task) (loc : Pid → Loc)
    (current tp : Pid) (pc : Pc) : Prop where
  current : current = pc.current tp
  resume : ∀ r ∈ pc.resume, r = .idle ↔ tp = 2 * h
  here : pc.Here n h
  stage : StageOk strict h tp (task tp).state (loc tp) pc
  pushes : ∀ t ∈ pc.pushes, Near strict (task t).state .ready

/-- A task that may be marked as exited and taken apart. -/
def Doomed (strict : Prop) (n : ℕ) (task : Pid → Task) (loc : Pid → Loc) (t : Pid) : Prop :=
  (∀ k < n, t ≠ 2 * k) ∧ (loc t).Created ∧ (strict → Dead (task t).state)

/-- Every task is in its place; the hart `e`, if any, is in the middle of a step. -/
structure Placed (strict : Prop) (e : Option ℕ) (σ : System) (loc : Pid → Loc) : Prop where
  occ : ∀ q t, σ.occ t q = if (loc t).queue = some q then 1 else 0
  task : ∀ t, TaskOk strict σ.harts t (σ.task t) (loc t)
  tp : ∀ h < σ.harts, some h ≠ e → ∃ q, loc (σ.hart h).tp = .on h q
  on : ∀ t h q, some h ≠ e → loc t = .on h q → h < σ.harts ∧ (σ.hart h).tp = t
  held : ∀ t h x, some h ≠ e →
    (loc t = .held h x ↔ h < σ.harts ∧ (σ.hart h).pc.hold = some (x, t))
  hart : ∀ h < σ.harts, some h ≠ e →
    HartOk strict σ.harts h σ.task loc (σ.current h) (σ.hart h).tp (σ.hart h).pc
  idle : ∀ k < σ.harts, (loc (2 * k)).IsIdle k ∧ Runnable (σ.task (2 * k)).state
  idleTask : ∀ k, (σ.core k).idleTask = 2 * k
  absent : ∀ t, loc t = .absent ↔ σ.pidCounter ≤ t
  counter : 2 * σ.harts < σ.pidCounter
  child : ∀ t, ∀ c ∈ (σ.task t).children, 2 * σ.harts < c
  cleanup : ∀ k, ∀ t ∈ (σ.core k).cleanupQueue, Doomed strict σ.harts σ.task loc t
  doomed : ∀ h < σ.harts, some h ≠ e → ∀ t ∈ (σ.hart h).pc.doomed,
    Doomed strict σ.harts σ.task loc t
  table : ∀ t ∈ σ.table, (loc t).Created
  live : strict → ∀ t, (loc t).Created → ¬ Dead (σ.task t).state → t ∈ σ.table

section Frame

variable {strict : Prop} {n h : ℕ} {σ σ' : System} {loc loc' : Pid → Loc}

/-- Hart `h` moves a task that nobody else has at hand. -/
structure Moves (strict : Prop) (n h : ℕ) (t : Pid) (x x' : Task) (l l' : Loc) : Prop where
  own : l.Own h
  own' : l'.Own h
  ok : TaskOk strict n t x' l'
  created : l.Created → l'.Created
  dead : strict → l.Created → Dead x.state → Dead x'.state
  idle : t = 2 * h → l'.IsIdle h ∧ Runnable x'.state

/-- Nothing but hart `h` can see the change. -/
def Moved (strict : Prop) (n h : ℕ) (t : Pid) (x x' : Task) (l l' : Loc) : Prop :=
  (x' = x ∧ l' = l) ∨ Moves strict n h t x x' l l'

/-- A change of queues, tasks and the current task of core `h` only, which may make tasks. -/
structure SameCores (h : ℕ) (σ σ' : System) : Prop where
  harts : σ'.harts = σ.harts
  hart : σ'.hart = σ.hart
  core : ∀ k, (σ'.core k).idleTask = (σ.core k).idleTask ∧
    (σ'.core k).cleanupQueue = (σ.core k).cleanupQueue ∧
    (k ≠ h → (σ'.core k).currentTask = (σ.core k).currentTask)

/-- A change of queues, tasks and the current task of core `h` only. -/
structure SameRest (h : ℕ) (σ σ' : System) : Prop extends SameCores h σ σ' where
  counter : σ'.pidCounter = σ.pidCounter
  table : σ'.table = σ.table
  children : ∀ t, (σ'.task t).children = (σ.task t).children

theorem Placed.enter (P : Placed strict none σ loc) (h : ℕ) : Placed strict (some h) σ loc :=
  { P with
    tp := fun k hk _ => P.tp k hk (by simp)
    on := fun t k q _ => P.on t k q (by simp)
    held := fun t k x _ => P.held t k x (by simp)
    hart := fun k hk _ => P.hart k hk (by simp)
    doomed := fun k hk _ => P.doomed k hk (by simp) }

theorem Moved.eq_of_on {t : Pid} {x x' : Task} {l l' : Loc} {k : ℕ} {q : Option Queue}
    (hm : Moved strict n h t x x' l l') (hl : l = .on k q) (hk : k ≠ h) : x' = x ∧ l' = l := by
  rcases hm with he | hm
  · exact he
  · have ho := hm.own
    rw [hl] at ho
    exact absurd ho hk

theorem Moved.eq_of_held {t : Pid} {x x' : Task} {l l' : Loc} {k : ℕ} {y : Hold}
    (hm : Moved strict n h t x x' l l') (hl : l = .held k y) (hk : k ≠ h) : x' = x ∧ l' = l := by
  rcases hm with he | hm
  · exact he
  · have ho := hm.own
    rw [hl] at ho
    exact absurd ho hk

/-- What another hart has at hand is not moved. -/
theorem Moved.iff_of_ne {t : Pid} {x x' : Task} {l l' m : Loc}
    (hm : Moved strict n h t x x' l l') (ho : ¬ m.Own h) : l' = m ↔ l = m := by
  rcases hm with ⟨-, rfl⟩ | hm
  · rfl
  · constructor
    · rintro rfl
      exact absurd hm.own' ho
    · rintro rfl
      exact absurd hm.own ho

theorem Moved.doomed {t : Pid} (hm : Moved strict n h t (σ.task t) (σ'.task t) (loc t) (loc' t))
    (hd : Doomed strict n σ.task loc t) : Doomed strict n σ'.task loc' t := by
  obtain ⟨hidle, hc, hs⟩ := hd
  rcases hm with ⟨hx, hl⟩ | hm
  · refine ⟨hidle, ?_, ?_⟩
    · rw [hl]
      exact hc
    · rw [hx]
      exact hs
  · exact ⟨hidle, hm.created hc, fun st => hm.dead st hc (hs st)⟩

/-- What a hart knows holds on when another one moves something. -/
theorem HartOk.frame {k : ℕ} (P : Placed strict (some h) σ loc) (hk : k < σ.harts) (hne : k ≠ h)
    (hm : ∀ t, Moved strict σ.harts h t (σ.task t) (σ'.task t) (loc t) (loc' t)) :
    HartOk strict σ.harts k σ'.task loc' (σ.current k) (σ.hart k).tp (σ.hart k).pc := by
  have hne' : some k ≠ some h := by simpa using hne
  obtain ⟨hcur, hres, hhere, hstage, hpush⟩ := P.hart k hk hne'
  obtain ⟨q, hq⟩ := P.tp k hk hne'
  obtain ⟨hx, hl⟩ := (hm _).eq_of_on hq hne
  refine ⟨hcur, hres, hhere, ?_, ?_⟩
  · rw [hx, hl]
    exact hstage
  · intro t ht
    -- the task that the other hart is pushing is in its hand
    have hhold : (σ.hart k).pc.hold = some (.carried, t) := by
      revert ht
      cases (σ.hart k).pc <;> simp [Pc.pushes, Pc.hold]
    have hheld := (P.held t k .carried hne').2 ⟨hk, hhold⟩
    rw [((hm t).eq_of_held hheld hne).1]
    exact hpush t ht

/-- A hart in the middle of a step makes tasks, or moves tasks that nobody else has at hand. -/
theorem Placed.rearrange (P : Placed strict (some h) σ loc) (hrest : SameCores h σ σ')
    (hocc : ∀ q t, σ'.occ t q = if (loc' t).queue = some q then 1 else 0)
    (hm : ∀ t, Moved strict σ.harts h t (σ.task t) (σ'.task t) (loc t) (loc' t))
    (habsent : ∀ t, loc' t = .absent ↔ σ'.pidCounter ≤ t) (hcount : σ.pidCounter ≤ σ'.pidCounter)
    (hchild : ∀ t, ∀ c ∈ (σ'.task t).children, c ∈ (σ.task t).children ∨ 2 * σ.harts < c)
    (htable : ∀ t ∈ σ'.table, t ∈ σ.table ∨ (loc' t).Created)
    (hlive : strict → ∀ t, (loc' t).Created → ¬ Dead (σ'.task t).state →
      (loc t).Created ∧ ¬ Dead (σ.task t).state ∧ σ.table ⊆ σ'.table ∨ t ∈ σ'.table) :
    Placed strict (some h) σ' loc' where
  occ := hocc
  task t := by
    rw [hrest.harts]
    rcases hm t with ⟨hx, hl⟩ | hm
    · rw [hx, hl]
      exact P.task t
    · exact hm.ok
  tp k hk hne := by
    rw [hrest.harts] at hk
    obtain ⟨q, hq⟩ := P.tp k hk hne
    refine ⟨q, ?_⟩
    rw [hrest.hart, ((hm _).eq_of_on hq (by simpa using hne)).2]
    exact hq
  on t k q hne hl := by
    have hne' : k ≠ h := by simpa using hne
    rw [hrest.harts, hrest.hart]
    exact P.on t k q hne (((hm t).iff_of_ne (by simpa [Loc.Own] using hne')).1 hl)
  held t k x hne := by
    have hne' : k ≠ h := by simpa using hne
    rw [hrest.harts, hrest.hart, (hm t).iff_of_ne (by simpa [Loc.Own] using hne')]
    exact P.held t k x hne
  hart k hk hne := by
    have hne' : k ≠ h := by simpa using hne
    rw [hrest.harts] at hk
    rw [hrest.harts, hrest.hart, System.current, (hrest.core k).2.2 hne']
    exact HartOk.frame P hk hne' hm
  idle k hk := by
    rw [hrest.harts] at hk
    rcases hm (2 * k) with ⟨hx, hl⟩ | hm
    · rw [hx, hl]
      exact P.idle k hk
    · have ho := hm.own
      have hkh : k = h := by
        rcases (P.idle k hk).1 with hl | hl | hl <;> rw [hl] at ho <;> exact ho
      subst hkh
      exact hm.idle rfl
  idleTask k := by
    rw [(hrest.core k).1]
    exact P.idleTask k
  absent := habsent
  counter := by
    rw [hrest.harts]
    exact P.counter.trans_le hcount
  child t c hc := by
    rw [hrest.harts]
    exact (hchild t c hc).elim (P.child t c) id
  cleanup k t ht := by
    rw [hrest.harts]
    rw [(hrest.core k).2.1] at ht
    exact (hm t).doomed (P.cleanup k t ht)
  doomed k hk hne t ht := by
    rw [hrest.harts] at hk ⊢
    rw [hrest.hart] at ht
    exact (hm t).doomed (P.doomed k hk hne t ht)
  table t ht := by
    rcases htable t ht with ht | ht
    · rcases hm t with ⟨-, hl⟩ | hm
      · rw [hl]
        exact P.table t ht
      · exact hm.created (P.table t ht)
    · exact ht
  live st t hc hd := by
    rcases hlive st t hc hd with ⟨hc', hd', hsub⟩ | ht
    · exact hsub (P.live st t hc' hd')
    · exact ht

/-- A hart in the middle of a step moves tasks that nobody else has at hand. -/
theorem Placed.relocate (P : Placed strict (some h) σ loc) (hrest : SameRest h σ σ')
    (hocc : ∀ q t, σ'.occ t q = if (loc' t).queue = some q then 1 else 0)
    (hm : ∀ t, Moved strict σ.harts h t (σ.task t) (σ'.task t) (loc t) (loc' t))
    (hcreated : ∀ t, (loc' t).Created → (loc t).Created)
    (habsent : ∀ t, loc' t = .absent ↔ loc t = .absent) :
    Placed strict (some h) σ' loc' := by
  apply P.rearrange hrest.toSameCores hocc hm
  · intro t
    rw [habsent, hrest.counter]
    exact P.absent t
  · rw [hrest.counter]
  · intro t c hc
    rw [hrest.children] at hc
    exact Or.inl hc
  · intro t ht
    rw [hrest.table] at ht
    exact Or.inl ht
  · intro st t hc hd
    refine Or.inl ⟨hcreated t hc, fun hd' => hd ?_, by rw [hrest.table]⟩
    rcases hm t with ⟨hx, -⟩ | hm
    · rwa [hx]
    · exact hm.dead st (hcreated t hc) hd'

/-- A hart in the middle of a step moves one task. -/
theorem Placed.move (P : Placed strict (some h) σ loc) (hrest : SameRest h σ σ') {x : Pid}
    {l : Loc} (hne : ∀ t ≠ x, σ'.task t = σ.task t ∧ ∀ q, σ'.occ t q = σ.occ t q)
    (hocc : ∀ q, σ'.occ x q = if l.queue = some q then 1 else 0)
    (hm : Moves strict σ.harts h x (σ.task x) (σ'.task x) (loc x) l)
    (hcreated : (loc x).Created) (hl : l.Created) :
    Placed strict (some h) σ' (Function.update loc x l) := by
  apply P.relocate hrest
  · intro q t
    by_cases ht : t = x
    · subst ht
      simpa using hocc q
    · rw [Function.update_of_ne ht, (hne t ht).2]
      exact P.occ q t
  · intro t
    by_cases ht : t = x
    · subst ht
      exact Or.inr (by simpa using hm)
    · exact Or.inl ⟨(hne t ht).1, Function.update_of_ne ht _ _⟩
  · intro t ht
    by_cases htx : t = x
    · rwa [htx]
    · rwa [Function.update_of_ne htx] at ht
  · intro t
    by_cases ht : t = x
    · subst ht
      rw [Function.update_self]
      exact iff_of_false hl.ne_absent hcreated.ne_absent
    · rw [Function.update_of_ne ht]

/-- The step of hart `h` is over: it executes `tp` and is at `pc`. -/
theorem Placed.close (P : Placed strict (some h) σ loc) (hh : h < σ.harts) {tp : Pid} {pc : Pc}
    (htp : ∃ q, loc tp = .on h q) (hon : ∀ t q, loc t = .on h q → tp = t)
    (hheld : ∀ t x, loc t = .held h x ↔ pc.hold = some (x, t))
    (hok : HartOk strict σ.harts h σ.task loc (σ.current h) tp pc)
    (hdoomed : ∀ t ∈ pc.doomed, Doomed strict σ.harts σ.task loc t) :
    Placed strict none { σ with hart := Function.update σ.hart h ⟨tp, pc⟩ } loc where
  occ := P.occ
  task := P.task
  tp k hk _ := by
    by_cases hkh : k = h
    · subst hkh
      simpa using htp
    · simpa [Function.update_of_ne hkh] using P.tp k hk (by simpa using hkh)
  on t k q _ hl := by
    by_cases hkh : k = h
    · subst hkh
      exact ⟨hh, by simpa using hon t q hl⟩
    · simpa [Function.update_of_ne hkh] using P.on t k q (by simpa using hkh) hl
  held t k x _ := by
    by_cases hkh : k = h
    · subst hkh
      simp [hheld, hh]
    · simpa [Function.update_of_ne hkh] using P.held t k x (by simpa using hkh)
  hart k hk _ := by
    by_cases hkh : k = h
    · subst hkh
      simpa [System.current] using hok
    · simpa [Function.update_of_ne hkh, System.current] using P.hart k hk (by simpa using hkh)
  idle := P.idle
  idleTask := P.idleTask
  absent := P.absent
  counter := P.counter
  child := P.child
  cleanup := P.cleanup
  doomed k hk _ t ht := by
    by_cases hkh : k = h
    · subst hkh
      exact hdoomed t (by simpa using ht)
    · exact P.doomed k hk (by simpa using hkh) t (by simpa [Function.update_of_ne hkh] using ht)
  table := P.table
  live := P.live

/-- The fields of a task that its place speaks about. -/
def Task.view (x : Task) : TaskState × Option ℕ × Bool × Resume :=
  (x.state, x.perCpuCtx, x.saved, x.context)

theorem TaskOk.congr {t : Pid} {x x' : Task} {l : Loc} (hv : x'.view = x.view)
    (ht : TaskOk strict n t x l) : TaskOk strict n t x' l := by
  simp only [Task.view, Prod.mk.injEq] at hv
  obtain ⟨h₁, h₂, h₃, h₄⟩ := hv
  revert ht
  cases l with
  | held k x => cases x <;> simp [TaskOk, h₁, h₂, h₃, h₄]
  | _ => simp [TaskOk, h₁, h₂, h₃, h₄]

theorem Doomed.congr {task task' : Pid → Task} {t : Pid}
    (hs : (task' t).state = (task t).state) (hd : Doomed strict n task loc t) :
    Doomed strict n task' loc t := by
  rwa [Doomed, hs]

/-- A change of what the places do not speak about. -/
theorem Placed.data {e : Option ℕ} (P : Placed strict e σ loc) (σ' : System)
    (hharts : σ'.harts = σ.harts)
    (hhart : σ'.hart = σ.hart) (hcount : σ'.pidCounter = σ.pidCounter)
    (hocc : ∀ q t, σ'.occ t q = σ.occ t q)
    (hcore : ∀ k, (σ'.core k).idleTask = (σ.core k).idleTask ∧
      (σ'.core k).currentTask = (σ.core k).currentTask ∧
      ∀ t ∈ (σ'.core k).cleanupQueue, t ∈ (σ.core k).cleanupQueue ∨
        Doomed strict σ.harts σ.task loc t)
    (htask : ∀ t, (σ'.task t).view = (σ.task t).view ∧
      ∀ c ∈ (σ'.task t).children, c ∈ (σ.task t).children ∨ 2 * σ.harts < c)
    (htable : ∀ t ∈ σ'.table, t ∈ σ.table)
    (hlive : strict → ∀ t ∈ σ.table, ¬ Dead (σ.task t).state → t ∈ σ'.table) :
    Placed strict e σ' loc := by
  have hstate : ∀ t, (σ'.task t).state = (σ.task t).state := fun t =>
    congrArg Prod.fst (htask t).1
  constructor
  case occ =>
    intro q t
    rw [hocc]
    exact P.occ q t
  case task =>
    intro t
    rw [hharts]
    exact (P.task t).congr (htask t).1
  case tp =>
    rw [hharts, hhart]
    exact P.tp
  case on =>
    rw [hharts, hhart]
    exact P.on
  case held =>
    rw [hharts, hhart]
    exact P.held
  case hart =>
    intro k hk hne
    rw [hharts] at hk
    obtain ⟨h₁, h₂, h₃, h₄, h₅⟩ := P.hart k hk hne
    rw [hharts, hhart, System.current, (hcore k).2.1]
    refine ⟨h₁, h₂, h₃, ?_, ?_⟩
    · rw [hstate]
      exact h₄
    · intro t ht
      rw [hstate]
      exact h₅ t ht
  case idle =>
    intro k hk
    rw [hharts] at hk
    rw [hstate]
    exact P.idle k hk
  case idleTask =>
    intro k
    rw [(hcore k).1]
    exact P.idleTask k
  case absent =>
    rw [hcount]
    exact P.absent
  case counter =>
    rw [hharts, hcount]
    exact P.counter
  case child =>
    intro t c hc
    rw [hharts]
    exact ((htask t).2 c hc).elim (P.child t c) id
  case cleanup =>
    intro k t ht
    rw [hharts]
    exact (((hcore k).2.2 t ht).elim (P.cleanup k t) id).congr (hstate t)
  case doomed =>
    intro k hk hne t ht
    rw [hharts] at hk ⊢
    rw [hhart] at ht
    exact (P.doomed k hk hne t ht).congr (hstate t)
  case table => exact fun t ht => P.table t (htable t ht)
  case live =>
    intro st t hc hd
    rw [hstate] at hd
    exact hlive st t (P.live st t hc hd) hd

/-- What a state is expected to be allows for a task that is marked as exited. -/
theorem Near.kill {s s' : TaskState} (hd : strict → Dead s) (hs : ¬ Dead s')
    (hn : Near strict s s') : Near strict .exited s' := by
  by_cases st : strict
  · rcases hn with rfl | ⟨hn, -⟩
    · exact absurd (hd st) hs
    · exact absurd st hn
  · exact Or.inr ⟨st, rfl⟩

/-- A dead task stays so; without `strict` every task may be marked as exited. -/
theorem TaskOk.kill {t : Pid} {x : Task} {l : Loc} (hd : strict → Dead x.state)
    (ht : TaskOk strict n t x l) : TaskOk strict n t { x with state := .exited } l := by
  cases l with
  | absent => trivial
  | idle k => exact ht
  | on k q =>
    obtain ⟨h₁, h₂, h₃⟩ := ht
    exact ⟨h₁, h₂, fun q' hq' => ⟨(h₃ q' hq').1, Near.kill hd q'.not_dead (h₃ q' hq').2⟩⟩
  | queued q =>
    obtain ⟨h₁, h₂, h₃, h₄⟩ := ht
    exact ⟨h₁, h₂, h₃, Near.kill hd q.not_dead h₄⟩
  | held k x =>
    cases x with
    | reserved => trivial
    | carried => exact ⟨ht.1, ht.2.1, fun st => absurd (hd st) (ht.2.2 st)⟩
    | chosen =>
      obtain ⟨h₁, h₂, h₃, h₄⟩ := ht
      exact ⟨h₁, h₂, h₃, Near.kill hd (by simp [Dead]) h₄⟩
  | lost => exact ⟨ht.1, fun _ => Or.inr rfl⟩

theorem StageOk.kill {k : ℕ} {t : Pid} {s : TaskState} {l : Loc} {pc : Pc}
    (hd : strict → Dead s) (hs : StageOk strict k t s l pc) :
    StageOk strict k t .exited l pc := by
  have hdead : Dead .exited := Or.inr rfl
  cases pc with
  | panicked => trivial
  | schedule r => exact hs.imp (fun hs => ⟨hs.1, Or.inr hdead⟩) id
  | setCurrent ctx prev next r => exact ⟨hs.1, hs.2.imp (fun hs => ⟨hs.1, Or.inr hdead⟩) id⟩
  | switchTo prev next r => exact ⟨hs.1, hs.2.imp (fun hs => ⟨hs.1, Or.inr hdead⟩) id⟩
  | enqueueIdx t k =>
    cases k with
    | ret r => exact ⟨hs.1, Near.kill hd (by simp [Dead]) hs.2⟩
    | schedule => exact ⟨hs.1, hdead⟩
  | enqueuePush t idx k =>
    cases k with
    | ret r => exact ⟨hs.1, Near.kill hd (by simp [Dead]) hs.2⟩
    | schedule => exact ⟨hs.1, hdead⟩
  | exitChildren | exitNotify | exitRemove | exitReady | exitCleanup => exact ⟨hs.1, hdead⟩
  | _ => exact ⟨hs.1, Near.kill hd (by simp [Dead]) hs.2⟩

/-- A doomed task is marked as exited. -/
theorem Placed.kill {e : Option ℕ} {c : Pid} (P : Placed strict e σ loc)
    (hc : Doomed strict σ.harts σ.task loc c) : Placed strict e (σ.setState c .exited) loc := by
  obtain ⟨hidle, hmade, hdead⟩ := hc
  have hself : (σ.setState c .exited).task c = { σ.task c with state := .exited } := by
    simp [System.setState, System.setTask]
  have hne : ∀ t, t ≠ c → (σ.setState c .exited).task t = σ.task t := by
    intro t ht
    simp [System.setState, System.setTask, Function.update_of_ne ht]
  have hdoomed : ∀ t, Doomed strict σ.harts σ.task loc t →
      Doomed strict σ.harts (σ.setState c .exited).task loc t := by
    intro t ⟨h₁, h₂, h₃⟩
    refine ⟨h₁, h₂, fun st => ?_⟩
    by_cases ht : t = c
    · rw [ht, hself]
      exact Or.inr rfl
    · rw [hne t ht]
      exact h₃ st
  constructor
  case occ => exact P.occ
  case task =>
    intro t
    by_cases ht : t = c
    · rw [ht, hself]
      exact (P.task c).kill hdead
    · rw [hne t ht]
      exact P.task t
  case tp => exact P.tp
  case on => exact P.on
  case held => exact P.held
  case hart =>
    intro k hk hk'
    obtain ⟨h₁, h₂, h₃, h₄, h₅⟩ := P.hart k hk hk'
    refine ⟨h₁, h₂, h₃, ?_, ?_⟩
    · by_cases ht : (σ.hart k).tp = c
      · have h₄' := h₄.kill (by rwa [ht])
        rw [show ((σ.setState c .exited).hart k).tp = c from ht, hself]
        rwa [ht] at h₄'
      · rw [show (σ.setState c .exited).hart = σ.hart from rfl, hne _ ht]
        exact h₄
    · intro t ht
      by_cases htc : t = c
      · rw [htc, hself]
        exact Near.kill hdead (by simp [Dead]) (htc ▸ h₅ t ht)
      · rw [hne t htc]
        exact h₅ t ht
  case idle =>
    intro k hk
    rw [hne _ fun h => hidle k hk h.symm]
    exact P.idle k hk
  case idleTask => exact P.idleTask
  case absent => exact P.absent
  case counter => exact P.counter
  case child =>
    intro t d hd
    by_cases ht : t = c
    · rw [ht, hself] at hd
      exact P.child c d hd
    · rw [hne t ht] at hd
      exact P.child t d hd
  case cleanup => exact fun k t ht => hdoomed t (P.cleanup k t ht)
  case doomed => exact fun k hk hk' t ht => hdoomed t (P.doomed k hk hk' t ht)
  case table => exact P.table
  case live =>
    intro st t ht hd
    by_cases htc : t = c
    · rw [htc, hself] at hd
      exact absurd (Or.inr rfl) hd
    · rw [hne t htc] at hd
      exact P.live st t ht hd

end Frame

end Efiks.Sched

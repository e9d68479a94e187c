import Efiks.Sched.Kin
import Efiks.Sched.OneHart

/-!
# The scheduler keeps the families

`System.kin` forgets the scheduler. Every step of the machine is one of the abstract steps, as
long as no task is woken up or reaped while a hart executes it, so the machine keeps the
families and gives every task to a reaper at most once.

## Main definitions

* `Pc.stage`, `System.kin` — what the abstract state is.
* `kinStep_of_step` — the machine is one of the abstract steps.
-/
namespace Efiks.Sched

section View

def TaskState.life : TaskState → Life
  | .zombie => .zombie
  | .exited => .exited
  | _ => .live

theorem life_eq_live {s : TaskState} : s.life = .live ↔ ¬ Dead s := by
  cases s <;> simp [TaskState.life, Dead]

theorem Near.life_eq_live {s s' : TaskState} (hs : Near True s s') (hd : ¬ Dead s') :
    s.life = .live :=
  Sched.life_eq_live.2 (hs.not_dead trivial hd)

theorem life_ne_live {s : TaskState} : s.life ≠ .live ↔ Dead s := by
  cases s <;> simp [TaskState.life, Dead]

def Pc.stage : Pc → Stage
  | .schedule _ | .setCurrent _ _ _ _ | .switchTo _ _ _ | .panicked => .leave
  | .addTask c p => .birth c p
  | .exitZombie _ => .exiting
  | .exitChildren _ => .dying
  | .exitNotify _ => .notify
  | .exitRemove p => .tell p
  | .exitCleanup _ => .orphan
  | .reapExited c | .reapQueue c => .reap c
  | .waitRunning _ => .taken
  | .cleanupExited t | .cleanupFree t | .cleanupRemove t => .cleanup t
  | _ => .busy

def System.kin (σ : System) : Kin where
  harts := σ.harts
  tp k := (σ.hart k).tp
  stage k := (σ.hart k).pc.stage
  life t := (σ.task t).state.life
  parent t := (σ.task t).parent
  children t := (σ.task t).children
  table := σ.table
  pidCounter := σ.pidCounter
  waiting := σ.waitingTasks
  queue k := (σ.core k).cleanupQueue
  cleaned := σ.cleaned

variable {σ : System} {h k : ℕ} {t : Pid} {pc : Pc}

theorem Kin.setStage_self {K : Kin} {s : Stage} (hs : K.stage h = s) : K.setStage h s = K := by
  subst hs
  simp [Kin.setStage]

theorem Kin.setLife_self {K : Kin} {l : Life} (hl : K.life t = l) : K.setLife t l = K := by
  subst hl
  simp [Kin.setLife]

theorem kin_setHart : ({ σ with hart := Function.update σ.hart h ⟨t, pc⟩ } : System).kin =
    { σ.kin.setStage h pc.stage with tp := Function.update σ.kin.tp h t } := by
  have htp : (fun k => (Function.update σ.hart h ⟨t, pc⟩ k).tp) =
      Function.update (fun k => (σ.hart k).tp) h t :=
    funext fun k => Function.apply_update (fun _ => Hart.tp) ..
  have hstage : (fun k => (Function.update σ.hart h ⟨t, pc⟩ k).pc.stage) =
      Function.update (fun k => (σ.hart k).pc.stage) h pc.stage :=
    funext fun k => Function.apply_update (fun _ (x : Hart) => x.pc.stage) ..
  simp only [System.kin, htp, hstage]
  rfl

theorem kin_setPc : (σ.setPc h pc).kin = σ.kin.setStage h pc.stage := by
  have hself : Function.update σ.kin.tp h (σ.hart h).tp = σ.kin.tp := Function.update_eq_self h _
  refine kin_setHart.trans ?_
  rw [hself]
  rfl

/-- What a change of one task does to the families. -/
theorem kin_setTask_eq (f : Task → Task) : (σ.setTask t f).kin = { σ.kin with
    life := Function.update σ.kin.life t (f (σ.task t)).state.life
    parent := Function.update σ.kin.parent t (f (σ.task t)).parent
    children := Function.update σ.kin.children t (f (σ.task t)).children } := by
  have hlife : (fun u => ((σ.setTask t f).task u).state.life) =
      Function.update (fun u => (σ.task u).state.life) t (f (σ.task t)).state.life :=
    funext fun u => Function.apply_update (fun _ (x : Task) => x.state.life) ..
  have hparent : (fun u => ((σ.setTask t f).task u).parent) =
      Function.update (fun u => (σ.task u).parent) t (f (σ.task t)).parent :=
    funext fun u => Function.apply_update (fun _ => Task.parent) ..
  have hchildren : (fun u => ((σ.setTask t f).task u).children) =
      Function.update (fun u => (σ.task u).children) t (f (σ.task t)).children :=
    funext fun u => Function.apply_update (fun _ => Task.children) ..
  simp only [System.kin, hlife, hparent, hchildren]
  rfl

theorem kin_setTask {f : Task → Task} (hf : (f (σ.task t)).parent = (σ.task t).parent ∧
    (f (σ.task t)).children = (σ.task t).children ∧ (f (σ.task t)).state = (σ.task t).state) :
    (σ.setTask t f).kin = σ.kin := by
  rw [kin_setTask_eq, hf.1, hf.2.1, hf.2.2]
  simp [System.kin]

theorem kin_setState {s : TaskState} : (σ.setState t s).kin = σ.kin.setLife t s.life := by
  rw [System.setState, kin_setTask_eq]
  simp [System.kin, Kin.setLife]

/-- Marking a live task as live. -/
theorem kin_setState_live {s : TaskState} (hs : s.life = .live)
    (hl : (σ.task t).state.life = .live) : (σ.setState t s).kin = σ.kin := by
  rw [kin_setState, hs]
  exact Kin.setLife_self hl

theorem kin_setChildren (f : Task → List Pid) :
    (σ.setTask t fun x => { x with children := f x }).kin =
      { σ.kin with children := Function.update σ.kin.children t (f (σ.task t)) } := by
  rw [kin_setTask_eq]
  simp [System.kin]

theorem kin_removeChild {i : ℕ} : (σ.removeChild t i).kin = σ.kin.removeChild t i :=
  kin_setChildren fun x => x.children.eraseIdx i

theorem kin_addTask {parent : Pid} :
    (addTask h t parent σ).kin = σ.kin.addTask h t parent := by
  rw [addTask, kin_setPc, kin_setTask_eq]
  rfl

theorem kin_setCore_eq (f : Core → Core) : (σ.setCore k f).kin =
    { σ.kin with queue := Function.update σ.kin.queue k (f (σ.core k)).cleanupQueue } := by
  have hqueue : (fun j => ((σ.setCore k f).core j).cleanupQueue) =
      Function.update (fun j => (σ.core j).cleanupQueue) k (f (σ.core k)).cleanupQueue :=
    funext fun j => Function.apply_update (fun _ => Core.cleanupQueue) ..
  simp only [System.kin, hqueue]
  rfl

theorem kin_setCore {f : Core → Core} (hf : ∀ c, (f c).cleanupQueue = c.cleanupQueue) :
    (σ.setCore k f).kin = σ.kin := by
  rw [kin_setCore_eq, hf]
  simp [System.kin]

/-- Live tasks are marked as ready. -/
theorem kin_wake {l : List Pid} (hl : ∀ t ∈ l, (σ.task t).state.life = .live) :
    ({ σ with task := fun t => if t ∈ l then { σ.task t with state := .ready } else σ.task t } :
      System).kin = σ.kin := by
  have hlife : ∀ t, (if t ∈ l then { σ.task t with state := .ready } else σ.task t).state.life =
      (σ.task t).state.life := by
    intro t
    split
    · next ht => exact (hl t ht).symm
    · rfl
  have hparent : ∀ t, (if t ∈ l then { σ.task t with state := .ready } else σ.task t).parent =
      (σ.task t).parent := fun t => by split <;> rfl
  have hchildren : ∀ t, (if t ∈ l then { σ.task t with state := .ready } else σ.task t).children =
      (σ.task t).children := fun t => by split <;> rfl
  simp only [System.kin, hlife, hparent, hchildren]

theorem kin_enqueueForReaper (hctx : σ.ctx h = some h) :
    (enqueueForReaper h t pc σ).kin = (σ.kin.push h t).setStage h pc.stage := by
  rw [enqueueForReaper, System.withCtx, hctx]
  dsimp only
  rw [kin_setPc, kin_setCore_eq]
  rfl

end View

section Simulation

variable {σ σ' : System} {loc : Pid → Loc} {home : Prop} {h : ℕ} {pc : Pc} {a : Act}

/-- A wait goes on on the core where its task was blocked. -/
def HomeOk (σ : System) (h : ℕ) (a : Act) : Prop :=
  ∀ ctx, a = .next → (σ.hart h).pc = .run (.wait ctx) ∨ (∃ i, (σ.hart h).pc = .reapRemove ctx i) →
    ctx = h

/-- The numbers that have a task. -/
theorem Placed.created_iff {strict : Prop} (P : Placed strict none σ loc) {t : Pid} :
    σ.kin.Created t ↔ (loc t).Created := by
  constructor
  · rintro ⟨hlt, hb⟩
    cases hl : loc t with
    | absent => exact absurd hlt (Nat.not_lt.2 ((P.absent t).1 hl))
    | held k x =>
      cases x with
      | reserved =>
        obtain ⟨hk, hhold⟩ := (P.held t k .reserved (by simp)).1 hl
        exfalso
        cases hpc : (σ.hart k).pc <;> simp [hpc, Pc.hold] at hhold
        next c p =>
          subst hhold
          exact hb k hk p (congrArg Pc.stage hpc)
      | carried | chosen => trivial
    | _ => trivial
  · intro hc
    refine ⟨?_, fun k hk p hkp => ?_⟩
    · by_contra hlt
      exact hc.ne_absent ((P.absent t).2 (Nat.not_lt.1 hlt))
    · have hpc : (σ.hart k).pc = .addTask t p := by
        have hst : (σ.hart k).pc.stage = .birth t p := hkp
        cases hpc : (σ.hart k).pc <;> simp [hpc, Pc.stage] at hst
        obtain ⟨rfl, rfl⟩ := hst
        rfl
      rw [P.loc_of_hold hk hpc rfl] at hc
      exact hc

theorem Placed.queue_of_waiting {strict : Prop} (P : Placed strict none σ loc) {t : Pid}
    (ht : t ∈ σ.waitingTasks) : (loc t).queue = some .wait := by
  have hocc := P.occ .wait t
  simp only [System.occ, if_pos ht] at hocc
  by_contra hq
  simp [hq] at hocc

/-- A step that leaves the families alone and goes on to `pc`. -/
theorem kinStep_setPc {τ : System} (hk : τ.kin = σ.kin)
    (hs : KinStep home h σ.kin (σ.kin.setStage h pc.stage)) : KinStep home h σ.kin (τ.setPc h pc).kin := by
  rw [kin_setPc, hk]
  exact hs

theorem kinStep_stay {τ : System} (hk : τ.kin = σ.kin)
    (hs : (σ.hart h).pc.stage = pc.stage) : KinStep home h σ.kin (τ.setPc h pc).kin := by
  refine kinStep_setPc hk ?_
  rw [Kin.setStage_self hs]
  exact .stay

/-- A busy hart goes on with its task, or leaves it. -/
theorem kinStep_busy {τ : System} (hk : τ.kin = σ.kin) (hb : (σ.hart h).pc.stage = .busy)
    (hs : pc.stage = .busy ∨ pc.stage = .leave) : KinStep home h σ.kin (τ.setPc h pc).kin := by
  rcases hs with hs | hs
  · exact kinStep_stay hk (hb.trans hs.symm)
  · refine kinStep_setPc hk ?_
    rw [hs]
    exact .leave hb

variable (P : Placed True none σ loc) (hh : h < σ.harts)
include P hh

theorem kinStep_scheduleLocked {r : Resume} (hpc : (σ.hart h).pc = .schedule r) :
    KinStep home h σ.kin (scheduleLocked h r σ).kin := by
  have hat := P.at hh hpc
  have hst : (σ.hart h).pc.stage = .leave := congrArg Pc.stage hpc
  have hidle : (σ.task (2 * h)).state.life = .live :=
    life_eq_live.2 (P.idle h hh).2.not_dead
  have hrq : ∀ (τ : System) (rq : List Pid),
      (τ.setCore h fun c => { c with runqueue := rq }).kin = τ.kin :=
    fun _ _ => kin_setCore fun _ => rfl
  have htime : ∀ (τ : System) (now : ℕ),
      (τ.setCore h fun c => { c with lastEntranceTime := now }).kin = τ.kin :=
    fun _ _ => kin_setCore fun _ => rfl
  have hcur : ∀ (τ : System) (now t : ℕ), (τ.setCore h fun c =>
      { c with currentTask := t, lastEntranceTime := now }).kin = τ.kin :=
    fun _ _ _ => kin_setCore fun _ => rfl
  rw [scheduleLocked, P.withCtx_eq hh, P.idleTask h]
  dsimp only
  split
  · next new queue hpop =>
    obtain ⟨-, -, hready, -⟩ := popReady_eq_some hpop
    have hnew : (σ.setState new .running).kin = σ.kin :=
      kin_setState_live rfl (by simp [hready, TaskState.life])
    refine kinStep_stay ?_ hst
    rw [htime]
    split
    · next hc =>
      rw [hrq, kin_setState_live rfl, hnew]
      rw [hc.2]
      rfl
    · split <;> rw [hrq, hnew]
  · split
    · next hc =>
      have hlive : (σ.task (σ.current h)).state.life = .live :=
        life_eq_live.2 (Runnable.not_dead hc)
      refine kinStep_setPc (Eq.trans (kin_setState_live ?_ hlive) (hrq σ [])) (.goOn hst ?_ ?_)
      · rfl
      · rw [hat.current] at hlive
        exact hlive
      · -- a task that waits is blocked
        intro hw
        have hq : (loc (σ.hart h).tp).queue = some .wait := P.queue_of_waiting hw
        obtain ⟨q, hon⟩ := P.tp h hh (by simp)
        have hok := P.task (σ.hart h).tp
        rw [hon] at hok hq
        have hblocked := (hok.2.2 .wait hq).2.resolve_right fun hn => hn.1 trivial
        have hcur' : σ.current h = (σ.hart h).tp := hat.current
        rw [setCore_task, hcur', hblocked] at hc
        simp [Queue.state] at hc
    · refine kinStep_stay ?_ hst
      rw [hcur]
      refine Eq.trans (kin_setState_live ?_ hidle) (hrq σ [])
      rfl

theorem kinStep_switchTo {prev next : Pid} {r : Resume}
    (hpc : (σ.hart h).pc = .switchTo prev next r) :
    KinStep home h σ.kin (switchTo h prev next r σ).kin := by
  have hloc := P.loc_of_hold hh hpc rfl
  have hok := P.task next
  rw [hloc] at hok
  have hkin : (switchTo h prev next r σ).kin = { σ.kin.setStage h .busy with
      tp := Function.update σ.kin.tp h next } := by
    refine kin_setHart.trans ?_
    rw [kin_setTask, kin_setTask]
    · rfl
    · exact ⟨rfl, rfl, rfl⟩
    · exact ⟨rfl, rfl, rfl⟩
  rw [hkin]
  refine .switch next (congrArg Pc.stage hpc) (P.created_iff.2 ?_) ?_ (fun k hk htp => ?_) ?_
  · rw [hloc]
    trivial
  · exact hok.2.2.2.life_eq_live (by simp [Dead])
  · obtain ⟨q, hq⟩ := P.tp k hk (by simp)
    rw [show (σ.hart k).tp = next from htp, hloc] at hq
    simp at hq
  · intro hw
    have hq := P.queue_of_waiting hw
    simp [hloc, Loc.queue] at hq

theorem kinStep_sleepCurrentTask (ms : ℕ) {r : Resume} (hpc : (σ.hart h).pc = .run r) :
    KinStep home h σ.kin (sleepCurrentTask h ms r σ).kin := by
  have hat := P.at hh hpc
  rw [sleepCurrentTask, P.withCtx_eq hh, hat.current]
  refine kinStep_stay (kin_setState_live rfl (hat.stage.2.life_eq_live (by simp [Dead]))) ?_
  rw [hpc]
  rfl

theorem kinStep_waitCheck {ctx : ℕ} (hpc : (σ.hart h).pc = .waitCheck ctx)
    (hreap : ReapOk σ h .next) : KinStep home h σ.kin (waitCheck h ctx σ).kin := by
  have hat := P.at hh hpc
  have hst : (σ.hart h).pc.stage = .busy := congrArg Pc.stage hpc
  have hcur : σ.current h = (σ.hart h).tp := hat.current
  rw [waitCheck, show ctx = h from hat.here, hcur]
  split
  · next i c hfind =>
    obtain ⟨j, hj, hc⟩ := Option.bind_eq_some_iff.1 hfind
    obtain ⟨c', hc', hjc⟩ := Option.map_eq_some_iff.1 hc
    obtain ⟨rfl, rfl⟩ : j = i ∧ c' = c := by simpa using hjc
    have hreaped : c' ∈ reaped σ h .next := by
      simp [reaped, hpc, show ctx = h from hat.here, hcur, hj, hc']
    obtain ⟨hzombie, hoff⟩ := hreap c' hreaped
    obtain ⟨c'', hget, htable, -⟩ := zombieChild_eq_some hj
    obtain rfl : c'' = c' := Option.some.inj (hget.symm.trans hc')
    rw [kin_enqueueForReaper, kin_setState, kin_removeChild]
    · refine .take j c'' hst ⟨hc', ?_, fun k hk htp => hoff ⟨k, hk, htp⟩⟩ htable
      simp [System.kin, hzombie, TaskState.life]
    · rw [System.setState, ctx_setTask rfl, System.removeChild, ctx_setTask rfl, P.ctx_eq hh]
  · next hnone =>
    rw [kin_setPc]
    refine .block hst (hat.stage.2.life_eq_live (by simp [Dead])) fun c hc htable hzombie => ?_
    cases hfind : σ.zombieChild (σ.hart h).tp with
    | none =>
      rw [System.zombieChild, List.findIdx?_eq_none_iff] at hfind
      have hz : (σ.task c).state = .zombie := by
        have hl : (σ.task c).state.life = .zombie := hzombie
        cases hs : (σ.task c).state <;> simp [hs, TaskState.life] at hl ⊢
      have := hfind c hc
      simp [hz] at this
      exact this htable
    | some i =>
      obtain ⟨c', hget, -⟩ := zombieChild_eq_some hfind
      simp [hfind, hget] at hnone

/-- **A step of the kernel** is one of the abstract steps. -/
theorem kinStep_kernelStep (hpc : (σ.hart h).pc = pc) (hreap : ReapOk σ h .next)
    (hhome : home → HomeOk σ h .next) (hstep : kernelStep h σ pc = some σ') : KinStep home h σ.kin σ'.kin := by
  have hat := P.at hh hpc
  have hst : (σ.hart h).pc.stage = pc.stage := congrArg Pc.stage hpc
  have hctx := P.ctx_eq hh
  cases pc with
  | run r =>
    cases r with
    | wait ctx =>
      obtain rfl := Option.some.inj hstep
      rw [reapFind]
      split
      · exact kinStep_busy rfl hst (Or.inl rfl)
      · exact kinStep_busy rfl hst (Or.inr rfl)
    | reaper =>
      obtain rfl := Option.some.inj hstep
      rw [reaperLoop, P.withCtx_eq hh]
      split
      · next t queue hq =>
        rw [kin_setPc, kin_setCore_eq]
        exact .pop t queue hst hq
      · exact kinStep_sleepCurrentTask P hh 5000 hpc
    | _ => simp [kernelStep] at hstep
  | panicked => simp [kernelStep] at hstep
  | schedule r => exact Option.some.inj hstep ▸ kinStep_scheduleLocked P hh hpc
  | setCurrent ctx prev next r =>
    obtain rfl := Option.some.inj hstep
    exact kinStep_stay (kin_setCore fun _ => rfl) hst
  | switchTo prev next r => exact Option.some.inj hstep ▸ kinStep_switchTo P hh hpc
  | enqueueIdx t k =>
    obtain rfl := Option.some.inj hstep
    exact kinStep_stay rfl hst
  | enqueuePush t idx k =>
    obtain rfl := Option.some.inj hstep
    refine kinStep_busy ?_ hst (by cases k <;> simp [After.pc, Pc.stage])
    refine Eq.trans (kin_setCore ?_) (kin_setTask ?_)
    · exact fun _ => rfl
    · exact ⟨rfl, rfl, rfl⟩
  | irqReady t r =>
    obtain rfl := Option.some.inj hstep
    have hok := P.task t
    rw [P.loc_of_hold hh hpc rfl] at hok
    exact kinStep_stay (kin_setState_live rfl (life_eq_live.2 (hok.2.2 trivial))) hst
  | irqPush ctx =>
    obtain rfl := Option.some.inj hstep
    exact kinStep_busy rfl hst (Or.inr rfl)
  | sleepTime ctx ms r =>
    obtain rfl := Option.some.inj hstep
    rw [sleepTime]
    cases sleepUntil σ.time ms with
    | none => exact kinStep_busy rfl hst (Or.inr rfl)
    | some wakeUpAt => exact kinStep_stay (kin_setTask ⟨rfl, rfl, rfl⟩) hst
  | sleepPush ctx r =>
    obtain rfl := Option.some.inj hstep
    exact kinStep_busy (kin_setCore fun _ => rfl) hst (Or.inr rfl)
  | timerCheck ctx now last woke r =>
    obtain rfl := Option.some.inj hstep
    rw [timerCheck]
    split
    · exact kinStep_busy rfl hst (Or.inr rfl)
    · exact kinStep_busy rfl hst (Or.inl rfl)
  | addTask pid parent =>
    obtain rfl := Option.some.inj hstep
    rw [kin_addTask]
    exact .birth pid parent hst
  | exitZombie ctx =>
    obtain rfl := Option.some.inj hstep
    rw [exitZombie, show ctx = h from hat.here, hat.current, kin_setPc, kin_setState]
    exact .die hst (hat.stage.2.life_eq_live (by simp [Dead]))
  | exitChildren ctx =>
    obtain rfl := Option.some.inj hstep
    rw [exitChildren, show ctx = h from hat.here, hat.current, kin_setPc, kin_setChildren]
    exact .disown hst (life_ne_live.2 hat.stage.2)
  | exitNotify ctx =>
    obtain rfl := Option.some.inj hstep
    rw [exitNotify, show ctx = h from hat.here, hat.current]
    split
    · next p hp =>
      split
      · next htable => exact kinStep_setPc rfl (.notify p hst hp htable)
      · next htable =>
        refine kinStep_setPc rfl (.orphan hst fun q hq => ?_)
        obtain rfl : p = q := Option.some.inj (hp.symm.trans hq)
        exact htable
    · next hp =>
      refine kinStep_setPc rfl (.orphan hst fun q hq => ?_)
      exact absurd (hp.symm.trans hq) (by simp)
  | exitRemove parent =>
    obtain rfl := Option.some.inj hstep
    rw [exitRemove]
    split
    · next hp =>
      rw [kin_setPc]
      exact .wake parent hst hp
    · next hp => exact kinStep_setPc rfl (.told parent hst hp)
  | exitReady parent =>
    obtain rfl := Option.some.inj hstep
    have hok := P.task parent
    rw [P.loc_of_hold hh hpc rfl] at hok
    exact kinStep_stay (kin_setState_live rfl (life_eq_live.2 (hok.2.2 trivial))) hst
  | exitCleanup ctx =>
    obtain rfl := Option.some.inj hstep
    rw [exitCleanup, show ctx = h from hat.here, hat.current, kin_enqueueForReaper hctx]
    exact .abandon hst (life_ne_live.2 hat.stage.2)
  | waitBlocked ctx =>
    obtain rfl := Option.some.inj hstep
    rw [waitBlocked, show ctx = h from hat.here, hat.current]
    exact kinStep_stay (kin_setState_live rfl (hat.stage.2.life_eq_live (by simp [Dead]))) hst
  | waitCheck ctx =>
    obtain rfl := Option.some.inj hstep
    exact kinStep_waitCheck P hh hpc hreap
  | waitRunning ctx =>
    obtain rfl := Option.some.inj hstep
    rw [waitRunning, show ctx = h from hat.here, hat.current]
    refine kinStep_setPc ?_ (.goBack hst)
    exact kin_setState_live rfl (hat.stage.2.life_eq_live (by simp [Dead]))
  | reapRemove ctx i =>
    obtain rfl := Option.some.inj hstep
    rw [reapRemove]
    split
    · next c hc =>
      dsimp only
      obtain ⟨hzombie, hoff⟩ := hreap c (by simp [reaped, hpc, hc])
      have hreapable : σ.kin.Reapable (σ.current ctx) i c :=
        ⟨hc, by simp [System.kin, hzombie, TaskState.life], fun k hk htp => hoff ⟨k, hk, htp⟩⟩
      split
      · next htable =>
        rw [kin_setPc, kin_removeChild]
        refine .reap _ i c hst (fun hm => ?_) hreapable htable
        rw [hhome hm ctx rfl (Or.inr ⟨i, hpc⟩)]
        exact hat.current
      · next htable =>
        rw [kin_setPc, kin_removeChild]
        exact .lose _ i c hst hreapable htable
    · exact kinStep_busy rfl hst (Or.inr rfl)
  | reapExited c =>
    obtain rfl := Option.some.inj hstep
    rw [reapExited, kin_setPc, kin_setState, Kin.setStage_self hst]
    exact .mark c hst
  | reapQueue c =>
    obtain rfl := Option.some.inj hstep
    rw [kin_enqueueForReaper hctx]
    exact .hand c hst
  | cleanupExited t =>
    obtain rfl := Option.some.inj hstep
    rw [cleanupExited, kin_setPc, kin_setState, Kin.setStage_self hst]
    exact .finish t hst
  | cleanupFree t =>
    obtain rfl := Option.some.inj hstep
    exact kinStep_stay rfl hst
  | cleanupRemove t =>
    obtain rfl := Option.some.inj hstep
    rw [cleanupRemove, kin_setPc]
    exact .remove t hst

/-- So is an interrupt or a system call. -/
theorem kinStep_event {r : Resume} (hpc : (σ.hart h).pc = .run r)
    (hstep : event h σ r a = some σ') : KinStep home h σ.kin σ'.kin := by
  have hat := P.at hh hpc
  have hst : (σ.hart h).pc.stage = .busy := congrArg Pc.stage hpc
  have hcur : σ.current h = (σ.hart h).tp := hat.current
  have hlive : (σ.task (σ.hart h).tp).state.life = .live :=
    hat.stage.2.life_eq_live (by simp [Dead])
  cases a with
  | next => simp [event] at hstep
  | timer order =>
    simp only [event, P.ctx_eq hh] at hstep
    split at hstep
    · split at hstep
      · next horder =>
        obtain rfl := Option.some.inj hstep
        refine kinStep_stay ((kin_setCore ?_).trans (kin_wake ?_)) hst
        · exact fun _ => rfl
        · intro t ht
          exact (P.state_of_toWakeUp hh hpc horder ht).life_eq_live (by simp [Dead])
      · simp at hstep
    · simp at hstep
  | externalIrq irq =>
    simp only [event] at hstep
    split at hstep
    · obtain rfl := Option.some.inj hstep
      rw [irqPop]
      split
      · exact .stay
      · dsimp only
        split
        · exact kinStep_stay rfl hst
        · exact .stay
    · simp at hstep
  | newTask =>
    simp only [event] at hstep
    split at hstep
    · obtain rfl := Option.some.inj hstep
      rw [newTask, P.withCtx_eq hh]
      dsimp only
      rw [hcur, kin_setPc, kin_setChildren]
      exact .fork hst hlive
    · simp at hstep
  | exit code =>
    simp only [event] at hstep
    split at hstep
    · obtain rfl := Option.some.inj hstep
      rw [exitCode, P.withCtx_eq hh]
      dsimp only
      split
      · exact .stay
      · exact kinStep_setPc (kin_setTask ⟨rfl, rfl, rfl⟩) (.exit hst)
    · simp at hstep
  | wait =>
    simp only [event] at hstep
    split at hstep
    · obtain rfl := Option.some.inj hstep
      rw [wait, P.withCtx_eq hh]
      split
      · exact .stay
      · exact kinStep_stay rfl hst
    · simp at hstep
  | sleep ms =>
    simp only [event] at hstep
    split at hstep
    · next hr => exact Option.some.inj hstep ▸ kinStep_sleepCurrentTask P hh ms (hr ▸ hpc)
    · simp at hstep
  | console ready =>
    simp only [event] at hstep
    split at hstep
    · obtain rfl := Option.some.inj hstep
      split
      · exact kinStep_stay rfl hst
      · rw [blockOnExternalIrq, P.withCtx_eq hh, hcur]
        exact kinStep_stay (kin_setState_live rfl hlive) hst
    · simp at hstep

omit hh in
/-- **Every step of the machine** is one of the abstract steps. -/
theorem kinStep_of_step (hreap : ReapOk σ h a) (hhome : home → HomeOk σ h a)
    (hstep : step h a σ = some σ') : KinStep home h σ.kin σ'.kin := by
  obtain ⟨hh, ⟨rfl, hk⟩ | ⟨r, hpc, he⟩⟩ := step_cases hstep
  · exact kinStep_kernelStep P hh rfl hreap hhome hk
  · exact kinStep_event P hh hpc he

end Simulation

end Efiks.Sched

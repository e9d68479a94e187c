import Efiks.Sched.PlacedSwitch

/-!
# Every task stays in its place

The tasks of a machine that has booted are in their places, and every step keeps them there,
as long as no wake-up finds its task still on a hart. `WakeOk` says this of one step. With
`ReapOk`, which says that a wait takes only zombies that have left their harts, the state of
every task is as its place says.

## Main definitions

* `woken`, `WakeOk` — the task that a step wakes up, and the condition on it.
* `reaped`, `ReapOk` — the child that a step takes, and the condition on it.
-/
namespace Efiks.Sched

/-- A hart executes the task. -/
def System.Executes (σ : System) (t : Pid) : Prop := ∃ k < σ.harts, (σ.hart k).tp = t

/-- The task that a step takes from `waiting_tasks` or from the queue of an interrupt. -/
def woken (σ : System) (h : ℕ) (a : Act) : Option Pid :=
  match a, (σ.hart h).pc with
  | .externalIrq irq, _ => (σ.irqWaitQueue irq).head?
  | .next, .exitRemove p => if p ∈ σ.waitingTasks then some p else none
  | _, _ => none

theorem mem_woken {σ : System} {h : ℕ} {a : Act} {t : Pid} (ht : t ∈ woken σ h a) :
    (∃ irq, a = .externalIrq irq ∧ t ∈ σ.irqWaitQueue irq) ∨
      (a = .next ∧ (σ.hart h).pc = .exitRemove t ∧ t ∈ σ.waitingTasks) := by
  unfold woken at ht
  split at ht
  · next _ irq => exact Or.inl ⟨irq, rfl, List.mem_of_mem_head? ht⟩
  · next p hpc =>
    obtain ⟨hp, rfl⟩ : p ∈ σ.waitingTasks ∧ p = t := by simpa using ht
    exact Or.inr ⟨rfl, hpc, hp⟩
  · simp at ht

instance (σ : System) (t : Pid) : Decidable (σ.Executes t) :=
  inferInstanceAs (Decidable (∃ k < σ.harts, (σ.hart k).tp = t))

/-- No task is woken up while a hart executes it. -/
def WakeOk (σ : System) (h : ℕ) (a : Act) : Prop := ∀ t ∈ woken σ h a, ¬ σ.Executes t

instance (σ : System) (h : ℕ) (a : Act) : Decidable (WakeOk σ h a) :=
  inferInstanceAs (Decidable (∀ t ∈ woken σ h a, ¬ σ.Executes t))

/-- The child that a step of `reap_zombie_child` takes from the list. -/
def reaped (σ : System) (h : ℕ) (a : Act) : Option Pid :=
  match a, (σ.hart h).pc with
  | .next, .waitCheck ctx =>
      (σ.zombieChild (σ.current ctx)).bind fun i => (σ.task (σ.current ctx)).children[i]?
  | .next, .reapRemove ctx i => (σ.task (σ.current ctx)).children[i]?
  | _, _ => none

theorem mem_reaped {σ : System} {h : ℕ} {a : Act} {c : Pid} (hc : c ∈ reaped σ h a) :
    a = .next ∧ ∃ ctx i, (σ.task (σ.current ctx)).children[i]? = some c ∧
      ((σ.hart h).pc = .waitCheck ctx ∧ σ.zombieChild (σ.current ctx) = some i ∨
        (σ.hart h).pc = .reapRemove ctx i) := by
  unfold reaped at hc
  split at hc
  · next ctx hpc =>
    obtain ⟨i, hi, hc⟩ := Option.bind_eq_some_iff.1 hc
    exact ⟨rfl, ctx, i, hc, Or.inl ⟨hpc, hi⟩⟩
  · next ctx i hpc => exact ⟨rfl, ctx, i, hc, Or.inr hpc⟩
  · simp at hc

/-- A child is taken only when it is a zombie and has left its hart. -/
def ReapOk (σ : System) (h : ℕ) (a : Act) : Prop :=
  ∀ c ∈ reaped σ h a, (σ.task c).state = .zombie ∧ ¬ σ.Executes c

instance (σ : System) (h : ℕ) (a : Act) : Decidable (ReapOk σ h a) :=
  inferInstanceAs (Decidable (∀ c ∈ reaped σ h a, (σ.task c).state = .zombie ∧ ¬ σ.Executes c))

section Step

variable {strict : Prop} {h : ℕ} {σ σ' : System} {loc : Pid → Loc} {a : Act}

theorem Placed.console (P : Placed strict none σ loc) (hh : h < σ.harts) {r : Resume}
    (hr : r ≠ .idle) (hpc : (σ.hart h).pc = .run r) (ready : Bool) :
    Placed strict none (if ready then σ.setPc h (.run .user)
      else Sched.blockOnExternalIrq h σ) loc := by
  obtain ⟨hcur, hres, -, hstage, -⟩ := P.at hh hpc
  have htp : (σ.hart h).tp ≠ 2 * h := fun ht => hr ((hres r rfl).2 ht)
  split
  · refine P.setPc hh (hpc ▸ rfl) ⟨hcur, ?_, trivial, hstage, by simp [Pc.pushes]⟩
      (by simp [Pc.doomed])
    simpa [Pc.resume] using htp
  · exact P.blockOnExternalIrq hh hr hpc

/-- A step inside of the kernel keeps every task in its place. -/
theorem Placed.kernelStep (P : Placed strict none σ loc) (hh : h < σ.harts) {pc : Pc}
    (hpc : (σ.hart h).pc = pc) (hstep : kernelStep h σ pc = some σ') (hwake : WakeOk σ h .next)
    (hreap : strict → ReapOk σ h .next) : ∃ loc', Placed strict none σ' loc' := by
  have hsame : ∀ τ, some τ = some σ' → Placed strict none τ loc →
      ∃ loc', Placed strict none σ' loc' := by
    intro τ hτ P'
    exact ⟨loc, Option.some.inj hτ ▸ P'⟩
  have hmoved : ∀ τ, some τ = some σ' → (∃ loc', Placed strict none τ loc') →
      ∃ loc', Placed strict none σ' loc' := fun τ hτ P' => Option.some.inj hτ ▸ P'
  cases pc with
  | run r =>
    cases r with
    | reaper => exact hsame _ hstep (P.reaperLoop hh hpc)
    | wait ctx => exact hsame _ hstep (P.reapFind hh hpc)
    | _ => simp [Sched.kernelStep] at hstep
  | panicked => simp [Sched.kernelStep] at hstep
  | schedule r => exact hmoved _ hstep (P.scheduleLocked hh hpc)
  | setCurrent ctx prev next r => exact hsame _ hstep (P.setCurrent hh hpc)
  | switchTo prev next r => exact hmoved _ hstep (P.switchTo hh hpc)
  | enqueueIdx t k => exact hsame _ hstep (P.enqueueIdx hh hpc)
  | enqueuePush t idx k => exact hmoved _ hstep (P.enqueuePush hh hpc)
  | irqReady t r => exact hsame _ hstep (P.irqReady hh hpc)
  | irqPush ctx => exact hmoved _ hstep (P.irqPush hh hpc)
  | sleepTime ctx ms r => exact hsame _ hstep (P.sleepTime hh hpc)
  | sleepPush ctx r => exact hmoved _ hstep (P.sleepPush hh hpc)
  | timerCheck ctx now last woke r => exact hsame _ hstep (P.timerCheck hh hpc)
  | addTask pid parent => exact hmoved _ hstep (P.addTask hh hpc)
  | exitZombie ctx => exact hsame _ hstep (P.exitZombie hh hpc)
  | exitChildren ctx => exact hsame _ hstep (P.exitChildren hh hpc)
  | exitNotify ctx => exact hsame _ hstep (P.exitNotify hh hpc)
  | exitRemove parent =>
    refine hmoved _ hstep (P.exitRemove hh hpc fun hp k hk ht => ?_)
    exact hwake parent (by simp [woken, hpc, hp]) ⟨k, hk, ht⟩
  | exitReady parent => exact hsame _ hstep (P.exitReady hh hpc)
  | exitCleanup ctx => exact hsame _ hstep (P.exitCleanup hh hpc)
  | waitBlocked ctx => exact hsame _ hstep (P.waitBlocked hh hpc)
  | waitCheck ctx => exact hmoved _ hstep (P.waitCheck hh hpc)
  | waitRunning ctx => exact hsame _ hstep (P.waitRunning hh hpc)
  | reapRemove ctx i =>
    refine hsame _ hstep (P.reapRemove hh hpc fun st c hc _ => ?_)
    exact Or.inl (hreap st c (by simp [reaped, hpc, hc])).1
  | reapExited c => exact hsame _ hstep (P.reapExited hh hpc)
  | reapQueue c => exact hsame _ hstep (P.reapQueue hh hpc)
  | cleanupExited t => exact hsame _ hstep (P.cleanupExited hh hpc)
  | cleanupFree t => exact hsame _ hstep (P.cleanupFree hh hpc)
  | cleanupRemove t => exact hsame _ hstep (P.cleanupRemove hh hpc)

/-- So does an interrupt or a system call. -/
theorem Placed.event (P : Placed strict none σ loc) (hh : h < σ.harts) {r : Resume}
    (hpc : (σ.hart h).pc = .run r) (hstep : event h σ r a = some σ') (hwake : WakeOk σ h a) :
    ∃ loc', Placed strict none σ' loc' := by
  cases a with
  | next => simp [Sched.event] at hstep
  | timer order =>
    simp only [Sched.event, P.ctx_eq hh] at hstep
    split at hstep
    · split at hstep
      · next horder => exact Option.some.inj hstep ▸ P.timerLocked hh hpc horder
      · simp at hstep
    · simp at hstep
  | externalIrq irq =>
    simp only [Sched.event] at hstep
    split at hstep
    · refine Option.some.inj hstep ▸ P.irqPop hh hpc fun t ht k hk htp => ?_
      exact hwake t (by simpa [woken] using ht) ⟨k, hk, htp⟩
    · simp at hstep
  | newTask =>
    simp only [Sched.event] at hstep
    split at hstep
    · next hr => exact Option.some.inj hstep ▸ P.newTask hh (hr ▸ hpc)
    · simp at hstep
  | exit code =>
    simp only [Sched.event] at hstep
    split at hstep
    · next hr => exact ⟨loc, Option.some.inj hstep ▸ P.exitCode hh code (hr ▸ hpc)⟩
    · simp at hstep
  | wait =>
    simp only [Sched.event] at hstep
    split at hstep
    · next hr => exact ⟨loc, Option.some.inj hstep ▸ P.wait hh (hr ▸ hpc)⟩
    · simp at hstep
  | sleep ms =>
    simp only [Sched.event] at hstep
    split at hstep
    · next hr => exact ⟨loc, Option.some.inj hstep ▸ P.sleepCurrentTask hh ms (by simp) (hr ▸ hpc)⟩
    · simp at hstep
  | console ready =>
    simp only [Sched.event] at hstep
    split at hstep
    · next hr =>
      refine ⟨loc, Option.some.inj hstep ▸ P.console hh ?_ hpc ready⟩
      rcases hr with rfl | rfl <;> simp
    · simp at hstep

theorem lt_harts_of_step (hstep : step h a σ = some σ') : h < σ.harts := by
  rw [step] at hstep
  split at hstep
  · simp at hstep
  · omega

/-- **Every step** keeps every task in its place, as long as no wake-up comes too early. -/
theorem Placed.step (P : Placed strict none σ loc) (hstep : step h a σ = some σ')
    (hwake : WakeOk σ h a) (hreap : strict → ReapOk σ h a) :
    ∃ loc', Placed strict none σ' loc' := by
  have hh := lt_harts_of_step hstep
  rw [Sched.step, if_neg (by omega)] at hstep
  split at hstep
  · next ha =>
    subst ha
    exact P.kernelStep hh rfl hstep hwake hreap
  · split at hstep
    · next r hpc => exact P.event hh hpc hstep hwake
    · simp at hstep

end Step

section Runs

variable {strict : Prop} {n : ℕ} {σ : System} {ok : System → ℕ → Act → Prop}

/-- Where the tasks are when the machine starts. -/
def bootLoc (n t : ℕ) : Loc :=
  if 2 * n < t then .absent
  else if t = 2 * n then .queued (.run (1 % n))
  else if t % 2 = 0 then .on (t / 2) none
  else .queued (.run (t / 2))

theorem bootLoc_even {k : ℕ} (hk : k < n) : bootLoc n (2 * k) = .on k none := by
  rw [bootLoc, if_neg (by omega), if_neg (by omega), if_pos (by omega)]
  congr
  omega

theorem bootLoc_odd {k : ℕ} (hk : k < n) : bootLoc n (2 * k + 1) = .queued (.run k) := by
  rw [bootLoc, if_neg (by omega), if_neg (by omega), if_neg (by omega)]
  congr
  omega

theorem bootLoc_last : bootLoc n (2 * n) = .queued (.run (1 % n)) := by
  rw [bootLoc, if_neg (by omega), if_pos rfl]

theorem bootLoc_absent {t : ℕ} (ht : 2 * n < t) : bootLoc n t = .absent := if_pos ht

/-- The tasks at boot: idle tasks, reapers, the shell and those that do not exist. -/
theorem boot_cases (n t : ℕ) : (∃ k < n, t = 2 * k) ∨ (∃ k < n, t = 2 * k + 1) ∨ t = 2 * n ∨
    2 * n < t := by
  by_cases h₁ : 2 * n < t
  · exact Or.inr (Or.inr (Or.inr h₁))
  · by_cases h₂ : t = 2 * n
    · exact Or.inr (Or.inr (Or.inl h₂))
    · by_cases h₃ : t % 2 = 0
      · exact Or.inl ⟨t / 2, by omega, by omega⟩
      · exact Or.inr (Or.inl ⟨t / 2, by omega, by omega⟩)

theorem boot_count (hn : 0 < n) (k t : ℕ) : ((boot n).core k).runqueue.count t =
    if (bootLoc n t).queue = some (.run k) then 1 else 0 := by
  have hmod : 1 % n < n := Nat.mod_lt 1 hn
  have hq : ((boot n).core k).runqueue =
      if k = 1 % n then [2 * k + 1, 2 * n] else if k < n then [2 * k + 1] else [] := rfl
  rw [hq]
  rcases boot_cases n t with ⟨j, hj, rfl⟩ | ⟨j, hj, rfl⟩ | rfl | ht
  · rw [bootLoc_even hj]
    grind [Loc.queue]
  · rw [bootLoc_odd hj]
    grind [Loc.queue]
  · rw [bootLoc_last]
    grind [Loc.queue]
  · rw [bootLoc_absent ht]
    grind [Loc.queue]

theorem boot_task_even {k : ℕ} (hk : k < n) :
    (boot n).task (2 * k) = kernelTask k .idle false := by
  have hlt : 2 * k < 2 * n := by omega
  simp [boot, hlt]

theorem boot_task_odd {k : ℕ} (hk : k < n) :
    (boot n).task (2 * k + 1) = kernelTask k .reaper true := by
  have hlt : 2 * k + 1 < 2 * n := by omega
  have hdiv : (2 * k + 1) / 2 = k := by omega
  simp [boot, hlt, hdiv]

theorem boot_task_last : (boot n).task (2 * n) = kernelTask (1 % n) .user true := by
  simp [boot]

/-- When the machine starts, every task is in its place. -/
theorem placed_boot (strict : Prop) (hn : 0 < n) : Placed strict none (boot n) (bootLoc n) where
  occ q t := by
    cases q with
    | run k => exact boot_count hn k t
    | _ =>
      rcases boot_cases n t with ⟨j, hj, rfl⟩ | ⟨j, hj, rfl⟩ | rfl | ht
      · simp [System.occ, boot, bootLoc_even hj, Loc.queue]
      · simp [System.occ, boot, bootLoc_odd hj, Loc.queue]
      · simp [System.occ, boot, bootLoc_last, Loc.queue]
      · simp [System.occ, boot, bootLoc_absent ht, Loc.queue]
  task t := by
    rcases boot_cases n t with ⟨j, hj, rfl⟩ | ⟨j, hj, rfl⟩ | rfl | ht
    · rw [bootLoc_even hj, boot_task_even hj]
      exact ⟨rfl, rfl, by simp⟩
    · rw [bootLoc_odd hj, boot_task_odd hj]
      exact ⟨rfl, by simp [kernelTask], ⟨rfl, hj⟩, Or.inl rfl⟩
    · rw [bootLoc_last, boot_task_last]
      exact ⟨rfl, by simp [kernelTask], ⟨rfl, Nat.mod_lt 1 hn⟩, Or.inl rfl⟩
    · rw [bootLoc_absent ht]
      trivial
  tp k hk _ := ⟨none, bootLoc_even hk⟩
  on t k q _ hl := by
    rcases boot_cases n t with ⟨j, hj, rfl⟩ | ⟨j, hj, rfl⟩ | rfl | ht
    · rw [bootLoc_even hj] at hl
      obtain ⟨rfl, -⟩ : j = k ∧ none = q := by simpa using hl
      exact ⟨hj, rfl⟩
    · simp [bootLoc_odd hj] at hl
    · simp [bootLoc_last] at hl
    · simp [bootLoc_absent ht] at hl
  held t k x _ := by
    refine iff_of_false (fun hl => ?_) (by simp [boot, Pc.hold])
    rcases boot_cases n t with ⟨j, hj, rfl⟩ | ⟨j, hj, rfl⟩ | rfl | ht
    · simp [bootLoc_even hj] at hl
    · simp [bootLoc_odd hj] at hl
    · simp [bootLoc_last] at hl
    · simp [bootLoc_absent ht] at hl
  hart k hk _ := by
    refine ⟨rfl, by simp [boot, Pc.resume], trivial, ?_, by simp [boot, Pc.pushes]⟩
    refine Or.inl ⟨bootLoc_even hk, Or.inl ?_⟩
    exact Or.inl (congrArg Task.state (boot_task_even hk))
  idle k hk := by
    refine ⟨Or.inr (Or.inl (bootLoc_even hk)), ?_⟩
    exact Or.inl (congrArg Task.state (boot_task_even hk))
  idleTask k := rfl
  absent t := by
    change _ ↔ 2 * n + 1 ≤ t
    rcases boot_cases n t with ⟨j, hj, rfl⟩ | ⟨j, hj, rfl⟩ | rfl | ht
    · simp [bootLoc_even hj]
      omega
    · simp [bootLoc_odd hj]
      omega
    · simp [bootLoc_last]
    · simp [bootLoc_absent ht]
      omega
  counter := Nat.lt_succ_self _
  child t c hc := by
    change c ∈ (if t < 2 * n then kernelTask _ _ _ else kernelTask _ _ _).children at hc
    split at hc <;> simp [kernelTask] at hc
  cleanup k t ht := by simp [boot] at ht
  doomed k hk _ t ht := by simp [boot, Pc.doomed] at ht
  table t ht := by
    have hlt : t < 2 * n + 1 := Finset.mem_range.1 ht
    rcases boot_cases n t with ⟨j, hj, rfl⟩ | ⟨j, hj, rfl⟩ | rfl | ht
    · simp [bootLoc_even hj, Loc.Created]
    · simp [bootLoc_odd hj, Loc.Created]
    · simp [bootLoc_last, Loc.Created]
    · exact absurd hlt (Nat.not_lt.2 ht)
  live _ t hc _ := by
    refine Finset.mem_range.2 ?_
    by_contra hlt
    rw [bootLoc_absent (by omega)] at hc
    exact hc

theorem Placed.tick {loc : Pid → Loc} (P : Placed strict none σ loc) (d : ℕ) :
    Placed strict none { σ with time := σ.time + d } loc :=
  P.data _ rfl rfl rfl (fun _ _ => rfl) (fun _ => ⟨rfl, rfl, fun _ => Or.inl⟩)
    (fun _ => ⟨rfl, fun _ => Or.inl⟩) (fun _ => id) fun _ _ ht _ => ht

/-- In every run whose wake-ups all come late enough, every task is in its place. -/
theorem Reach.placed (hn : 0 < n) (hwake : ∀ σ h a, ok σ h a → WakeOk σ h a)
    (hreap : strict → ∀ σ h a, ok σ h a → ReapOk σ h a) (hreach : Reach ok n σ) :
    ∃ loc, Placed strict none σ loc := by
  induction hreach with
  | boot => exact ⟨_, placed_boot strict hn⟩
  | step _ hok hstep ih =>
    obtain ⟨loc, P⟩ := ih
    exact P.step hstep (hwake _ _ _ hok) fun st => hreap st _ _ _ hok
  | tick d _ ih =>
    obtain ⟨loc, P⟩ := ih
    exact ⟨loc, P.tick d⟩

/-- Where the current task of a core is: on its hart, or in the hart's hand. -/
theorem Placed.loc_current {loc : Pid → Loc} (P : Placed strict none σ loc) {h : ℕ}
    (hh : h < σ.harts) : (∃ q, loc (σ.current h) = .on h q) ∨ loc (σ.current h) = .held h .chosen := by
  rw [(P.hart h hh (by simp)).current]
  cases hpc : (σ.hart h).pc with
  | switchTo prev next r => exact Or.inr (P.loc_of_hold hh hpc rfl)
  | _ => exact Or.inl (P.tp h hh (by simp))

/-- **A task runs on at most one hart.** In every run in which no task is woken up while a hart
executes it, no task is current on two harts, and a hart switches only to a task of its own
core that nobody executes and whose registers have been saved. -/
theorem runs_on_one_hart (hn : 0 < n) (hreach : Reach WakeOk n σ) :
    (∀ h < σ.harts, ∀ k < σ.harts, σ.current h = σ.current k → h = k) ∧
      ∀ h < σ.harts, ∀ prev next r, (σ.hart h).pc = .switchTo prev next r →
        (σ.task next).saved = true ∧ (σ.task next).perCpuCtx = some h ∧ ¬ σ.Executes next := by
  obtain ⟨loc, P⟩ := hreach.placed hn (fun _ _ _ hw => hw) fun hf : False => hf.elim
  constructor
  · intro h hh k hk hcur
    have hloc := P.loc_current hk
    rw [← hcur] at hloc
    rcases P.loc_current hh with ⟨q, hq⟩ | hq <;> rw [hq] at hloc <;> simpa using hloc
  · intro h hh prev next r hpc
    have hloc := P.loc_of_hold hh hpc (x := next) (y := .chosen) rfl
    have hok := P.task next
    rw [hloc] at hok
    refine ⟨hok.1, hok.2.1, ?_⟩
    rintro ⟨k, hk, htp⟩
    obtain ⟨q, hq⟩ := P.tp k hk (by simp)
    rw [htp, hloc] at hq
    simp at hq

/-- The first of two harts is about to switch to its reaper. -/
theorem runs_on_one_hart_reaper : ∃ σ, Reach WakeOk 2 σ ∧ (σ.hart 0).pc = .switchTo 0 1 .idle ∧
    σ.current 0 ≠ σ.current 1 ∧ (σ.task 1).saved = true := by
  have hrun : ((trace WakeOk (steps 0 2) (boot 2)).map fun σ => ((σ.hart 0).pc, σ.harts)) =
      some (.switchTo 0 1 .idle, 2) := by decide +kernel
  obtain ⟨σ, hσ, hpc⟩ := Option.map_eq_some_iff.1 hrun
  obtain ⟨hpc, hharts⟩ : (σ.hart 0).pc = .switchTo 0 1 .idle ∧ σ.harts = 2 := by simpa using hpc
  have hreach : Reach WakeOk 2 σ := reach_trace .boot hσ
  obtain ⟨hone, hsaved⟩ := runs_on_one_hart Nat.two_pos hreach
  refine ⟨σ, hreach, hpc, fun hc => ?_, (hsaved 0 (by omega) _ _ _ hpc).1⟩
  exact absurd (hone 0 (by omega) 1 (by omega) hc) Nat.zero_ne_one

end Runs

end Efiks.Sched

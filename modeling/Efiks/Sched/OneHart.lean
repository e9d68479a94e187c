import Efiks.Sched.Ledger

/-!
# One hart

On one hart the kernel runs from one `schedule` to the next without anything in between. A
wake-up then never finds its task on the hart, and a wait takes only zombies that have left it,
so every run meets the conditions that runs of several harts need. Outside of the kernel every
task is where its state says.

## Main definitions

* `Fair` — the conditions on a step.
* `Solo` — what a single hart knows about a wait in progress.
-/
namespace Efiks.Sched

/-- No task is woken up or reaped while a hart executes it. -/
def Fair (σ : System) (h : ℕ) (a : Act) : Prop := WakeOk σ h a ∧ ReapOk σ h a

instance (σ : System) (h : ℕ) (a : Act) : Decidable (Fair σ h a) :=
  inferInstanceAs (Decidable (_ ∧ _))

theorem Reach.placed_of_fair {n : ℕ} {σ : System} (hn : 0 < n) (hreach : Reach Fair n σ) :
    ∃ loc, Placed True none σ loc :=
  hreach.placed hn (fun _ _ _ h => h.1) fun _ _ _ _ h => h.2

section Waits

/-- The task `t` goes on in a wait that was called on core `ctx`. -/
def System.Waits (σ : System) (t : Pid) (ctx : ℕ) : Prop :=
  (∃ k < σ.harts, (σ.hart k).tp = t ∧ (σ.hart k).pc.resume = some (.wait ctx)) ∨
    ¬ σ.Executes t ∧ (σ.task t).context = .wait ctx

/-- The reasons for which a step of hart `h` panics. -/
inductive Panics (σ : System) (h : ℕ) : Prop
  | find (ctx : ℕ) : (σ.hart h).pc = .run (.wait ctx) → σ.zombieChild (σ.current ctx) = none →
      Panics σ h
  | remove (ctx i : ℕ) : (σ.hart h).pc = .reapRemove ctx i →
      (∀ c ∈ (σ.task (σ.current ctx)).children[i]?, c ∉ σ.table) → Panics σ h
  | sleep (ctx ms : ℕ) (r : Resume) : (σ.hart h).pc = .sleepTime ctx ms r →
      sleepUntil σ.time ms = none → Panics σ h

/-- What a step does to the waits in progress, and when it panics. -/
structure WaitStep (h : ℕ) (σ σ' : System) : Prop where
  waits : ∀ t ctx, σ'.Waits t ctx → σ.Waits t ctx ∨ ctx = h ∧ t ∈ σ'.waitingTasks
  find : ∀ ctx i, (σ'.hart h).pc = .reapRemove ctx i → (σ.hart h).pc = .run (.wait ctx) ∧
    σ.zombieChild (σ.current ctx) = some i ∧ σ' = σ.setPc h (.reapRemove ctx i)
  panics : (σ'.hart h).pc = .panicked → Panics σ h

variable {σ σ' τ : System} {loc : Pid → Loc} {a : Act} {h : ℕ} {pc : Pc}

/-- A task keeps its context, unless it is switched from or made. -/
theorem context_setTask {u t : Pid} {f : Task → Task}
    (hf : (f (σ.task u)).context = (σ.task u).context) :
    ((σ.setTask u f).task t).context = (σ.task t).context := by
  by_cases hu : t = u
  · subst hu
    simp [System.setTask, hf]
  · simp [System.setTask, hu]

theorem context_setState {u t : Pid} {s : TaskState} :
    ((σ.setState u s).task t).context = (σ.task t).context :=
  context_setTask rfl

/-- A hart goes on with what it was told to go on with. -/
theorem waits_setPc (hart : τ.hart = σ.hart) (harts : τ.harts = σ.harts)
    {t : Pid} {ctx : ℕ}
    (hc : (τ.task t).context = .wait ctx → (σ.task t).context = .wait ctx)
    (hr : (σ.hart h).tp = t → pc.resume = some (.wait ctx) →
      (σ.hart h).pc.resume = some (.wait ctx))
    (ht : (τ.setPc h pc).Waits t ctx) : σ.Waits t ctx := by
  have htp : ∀ k, ((τ.setPc h pc).hart k).tp = (σ.hart k).tp := by
    intro k
    by_cases hk : k = h
    · subst hk
      simp [hart]
    · rw [setPc_hart_ne hk, hart]
  rcases ht with ⟨k, hk, hkt, hres⟩ | ⟨hoff, hctx⟩
  · refine Or.inl ⟨k, harts ▸ hk, (htp k).symm.trans hkt, ?_⟩
    by_cases hkh : k = h
    · subst hkh
      exact hr ((htp k).symm.trans hkt) (by simpa using hres)
    · rwa [setPc_hart_ne hkh, hart] at hres
  · refine Or.inr ⟨?_, hc hctx⟩
    rintro ⟨k, hk, hkt⟩
    exact hoff ⟨k, harts.symm ▸ hk, (htp k).trans hkt⟩

/-- The hart goes on to a place that keeps no wait in progress. -/
theorem WaitStep.setPc (hart : τ.hart = σ.hart) (harts : τ.harts = σ.harts)
    (hc : ∀ t, (τ.task t).context = (σ.task t).context)
    (hr : ∀ ctx, pc.resume = some (.wait ctx) → (σ.hart h).pc.resume = some (.wait ctx))
    (hp : ∀ ctx i, pc ≠ .reapRemove ctx i) (hn : pc = .panicked → Panics σ h) :
    WaitStep h σ (τ.setPc h pc) where
  waits t ctx ht := Or.inl (waits_setPc hart harts (hc t).symm.trans (fun _ => hr ctx) ht)
  find ctx i hpc := absurd (by simpa using hpc) (hp ctx i)
  panics hpc := hn (by simpa using hpc)

theorem WaitStep.enqueueForReaper (hctx : τ.ctx h = some h) (hart : τ.hart = σ.hart)
    (harts : τ.harts = σ.harts) (hc : ∀ t, (τ.task t).context = (σ.task t).context) {u : Pid}
    (hr : ∀ ctx, pc.resume = some (.wait ctx) → (σ.hart h).pc.resume = some (.wait ctx))
    (hp : ∀ ctx i, pc ≠ .reapRemove ctx i) (hn : pc ≠ .panicked) :
    WaitStep h σ (enqueueForReaper h u pc τ) := by
  rw [Sched.enqueueForReaper, System.withCtx, hctx]
  exact .setPc hart harts hc hr hp fun he => absurd he hn

variable (P : Placed True none σ loc) (hh : h < σ.harts)
include P hh

/-- A wait goes on on another hart, or is left. -/
theorem WaitStep.switchTo {prev next : Pid} {r : Resume}
    (hpc : (σ.hart h).pc = .switchTo prev next r) :
    WaitStep h σ (switchTo h prev next r σ) := by
  have hprev : prev = (σ.hart h).tp := (P.at hh hpc).stage.1
  have hloc := P.loc_of_hold hh hpc (x := next) (y := .chosen) rfl
  have hoff : ¬ σ.Executes next := by
    rintro ⟨k, hk, hkn⟩
    obtain ⟨q, hq⟩ := P.tp k hk (by simp)
    rw [hkn, hloc] at hq
    simp at hq
  have hne : next ≠ prev := by
    rintro rfl
    exact hoff ⟨h, hh, hprev.symm⟩
  have hcontext : ∀ t, t ≠ prev →
      ((Sched.switchTo h prev next r σ).task t).context = (σ.task t).context := by
    intro t ht
    by_cases htn : t = next
    · subst htn
      simp [Sched.switchTo, System.setTask, ht]
    · simp [Sched.switchTo, System.setTask, ht, htn]
  have hself : ((Sched.switchTo h prev next r σ).task prev).context = r := by
    simp [Sched.switchTo, System.setTask, hne.symm]
  have hhart : (Sched.switchTo h prev next r σ).hart h = ⟨next, .run (σ.task next).context⟩ := by
    rw [← hcontext next hne]
    simp [Sched.switchTo, System.setTask]
  have hk : kernelStep h σ (.switchTo prev next r) = some (Sched.switchTo h prev next r σ) := rfl
  have hother := (elsewhere_kernelStep hk).hart
  refine ⟨fun t ctx ht => Or.inl ?_, by simp [hhart], by simp [hhart]⟩
  rcases ht with ⟨k, hk, hkt, hres⟩ | ⟨hoff', hctx⟩
  · by_cases hkh : k = h
    · subst hkh
      rw [hhart] at hkt hres
      subst hkt
      exact Or.inr ⟨hoff, by simpa [Pc.resume] using hres⟩
    · rw [hother k hkh] at hkt hres
      exact Or.inl ⟨k, hk, hkt, hres⟩
  · by_cases ht : t = prev
    · subst ht
      rw [hself] at hctx
      exact Or.inl ⟨h, hh, hprev.symm, by rw [hpc, hctx]; rfl⟩
    · refine Or.inr ⟨?_, (hcontext t ht).symm.trans hctx⟩
      rintro ⟨k, hk, hkt⟩
      have hkh : k ≠ h := by
        rintro rfl
        exact ht (hkt.symm.trans hprev.symm)
      exact hoff' ⟨k, hk, by rw [hother k hkh, hkt]⟩

/-- **A step of the kernel** goes on with the waits in progress. -/
theorem waitStep_kernelStep (hpc : (σ.hart h).pc = pc) (hstep : kernelStep h σ pc = some σ') :
    WaitStep h σ σ' := by
  have hat := P.at hh hpc
  have hctx := P.ctx_eq hh
  have hkeep : ∀ ctx, pc.resume = some (.wait ctx) → (σ.hart h).pc.resume = some (.wait ctx) :=
    fun ctx hr => hpc ▸ hr
  cases pc with
  | run r =>
    cases r with
    | wait ctx =>
      obtain rfl := Option.some.inj hstep
      rw [reapFind]
      split
      · next i hi =>
        refine ⟨fun t ctx ht => Or.inl ?_, fun ctx' j hj => ?_, by simp⟩
        · exact waits_setPc rfl rfl id (by simp [Pc.resume]) ht
        · obtain ⟨rfl, rfl⟩ : ctx = ctx' ∧ i = j := by simpa using hj
          exact ⟨hpc, hi, rfl⟩
      · next hi =>
        exact .setPc rfl rfl (fun _ => rfl) (by simp [Pc.resume]) (by simp)
          fun _ => .find ctx hpc hi
    | reaper =>
      obtain rfl := Option.some.inj hstep
      rw [reaperLoop, P.withCtx_eq hh]
      split
      · exact .setPc rfl rfl (fun _ => rfl) (by simp [Pc.resume]) (by simp) (by simp)
      · rw [sleepCurrentTask, P.withCtx_eq hh]
        exact .setPc rfl rfl (fun _ => context_setState) (by simp [Pc.resume]) (by simp) (by simp)
    | _ => simp [Sched.kernelStep] at hstep
  | panicked => simp [Sched.kernelStep] at hstep
  | schedule r =>
    obtain rfl := Option.some.inj hstep
    rw [scheduleLocked, P.withCtx_eq hh]
    dsimp only
    split
    · refine .setPc ?_ ?_ (fun t => ?_) hkeep (by simp) (by simp)
      · split <;> first | rfl | (split <;> rfl)
      · split <;> first | rfl | (split <;> rfl)
      · split
        · exact context_setState.trans context_setState
        · split <;> exact context_setState
    · split
      · exact .setPc rfl rfl (fun _ => context_setState) hkeep (by simp) (by simp)
      · exact .setPc rfl rfl (fun _ => context_setState) hkeep (by simp) (by simp)
  | setCurrent ctx prev next r =>
    obtain rfl := Option.some.inj hstep
    exact .setPc rfl rfl (fun _ => rfl) hkeep (by simp) (by simp)
  | switchTo prev next r => exact Option.some.inj hstep ▸ .switchTo P hh hpc
  | enqueueIdx t k =>
    obtain rfl := Option.some.inj hstep
    refine .setPc rfl rfl (fun _ => rfl) ?_ (by simp) (by simp)
    cases k <;> exact hkeep
  | enqueuePush t idx k =>
    obtain rfl := Option.some.inj hstep
    refine .setPc rfl rfl (fun u => ?_) ?_ (by cases k <;> simp [After.pc])
      (by cases k <;> simp [After.pc])
    · rw [setCore_task]
      exact context_setTask rfl
    · cases k with
      | ret r => exact hkeep
      | schedule => simp [After.pc, Pc.resume]
  | irqReady t r =>
    obtain rfl := Option.some.inj hstep
    exact .setPc rfl rfl (fun _ => context_setState) hkeep (by simp) (by simp)
  | irqPush ctx =>
    obtain rfl := Option.some.inj hstep
    exact .setPc rfl rfl (fun _ => rfl) (by simp [Pc.resume]) (by simp) (by simp)
  | sleepTime ctx ms r =>
    obtain rfl := Option.some.inj hstep
    rw [sleepTime]
    cases hu : sleepUntil σ.time ms with
    | none =>
      exact .setPc rfl rfl (fun _ => rfl) (by simp [Pc.resume]) (by simp)
        fun _ => .sleep ctx ms r hpc hu
    | some wakeUpAt =>
      exact .setPc rfl rfl (fun _ => context_setTask rfl) hkeep (by simp) (by simp)
  | sleepPush ctx r =>
    obtain rfl := Option.some.inj hstep
    exact .setPc rfl rfl (fun _ => rfl) hkeep (by simp) (by simp)
  | timerCheck ctx now last woke r =>
    obtain rfl := Option.some.inj hstep
    rw [timerCheck]
    split <;> exact .setPc rfl rfl (fun _ => rfl) hkeep (by simp) (by simp)
  | addTask pid parent =>
    obtain rfl := Option.some.inj hstep
    refine ⟨fun t ctx ht => Or.inl ?_, by simp [addTask], by simp [addTask]⟩
    rw [addTask] at ht
    refine waits_setPc ?_ ?_ (fun hc => ?_) ?_ ht
    · rfl
    · rfl
    · by_cases hp : t = pid
      · simp [System.setTask, hp] at hc
      · simpa [System.setTask, hp] using hc
    · simp [Pc.resume]
  | exitZombie ctx =>
    obtain rfl := Option.some.inj hstep
    exact .setPc rfl rfl (fun _ => context_setState) (by simp [Pc.resume]) (by simp) (by simp)
  | exitChildren ctx =>
    obtain rfl := Option.some.inj hstep
    exact .setPc rfl rfl (fun _ => context_setTask rfl) (by simp [Pc.resume]) (by simp) (by simp)
  | exitNotify ctx =>
    obtain rfl := Option.some.inj hstep
    rw [exitNotify]
    split
    · split <;> exact .setPc rfl rfl (fun _ => rfl) (by simp [Pc.resume]) (by simp) (by simp)
    · exact .setPc rfl rfl (fun _ => rfl) (by simp [Pc.resume]) (by simp) (by simp)
  | exitRemove parent =>
    obtain rfl := Option.some.inj hstep
    rw [exitRemove]
    split <;> exact .setPc rfl rfl (fun _ => rfl) (by simp [Pc.resume]) (by simp) (by simp)
  | exitReady parent =>
    obtain rfl := Option.some.inj hstep
    exact .setPc rfl rfl (fun _ => context_setState) (by simp [Pc.resume]) (by simp) (by simp)
  | exitCleanup ctx =>
    obtain rfl := Option.some.inj hstep
    exact .enqueueForReaper hctx rfl rfl (fun _ => rfl) (by simp [Pc.resume]) (by simp) (by simp)
  | waitBlocked ctx =>
    obtain rfl := Option.some.inj hstep
    exact .setPc rfl rfl (fun _ => context_setState) (by simp [Pc.resume]) (by simp) (by simp)
  | waitCheck ctx =>
    obtain rfl := Option.some.inj hstep
    rw [waitCheck, show ctx = h from hat.here]
    split
    · apply WaitStep.enqueueForReaper
      · rw [System.setState, ctx_setTask rfl, System.removeChild, ctx_setTask rfl, hctx]
      · rfl
      · rfl
      · exact fun _ => context_setState.trans (context_setTask rfl)
      · simp [Pc.resume]
      · simp
      · simp
    · refine ⟨fun t ctx ht => ?_, by simp, by simp⟩
      by_cases hnew : (σ.hart h).tp = t ∧ ctx = h
      · refine Or.inr ⟨hnew.2, Finset.mem_insert.2 (Or.inl ?_)⟩
        exact (hat.current.trans hnew.1).symm
      · refine Or.inl (waits_setPc rfl rfl id (fun htp hres => ?_) ht)
        exact absurd ⟨htp, by simpa [Pc.resume, eq_comm] using hres⟩ hnew
  | waitRunning ctx =>
    obtain rfl := Option.some.inj hstep
    exact .setPc rfl rfl (fun _ => context_setState) (by simp [Pc.resume]) (by simp) (by simp)
  | reapRemove ctx i =>
    obtain rfl := Option.some.inj hstep
    rw [reapRemove]
    split
    · next c hc =>
      dsimp only
      split
      · exact .setPc rfl rfl (fun _ => context_setTask rfl) (by simp [Pc.resume]) (by simp)
          (by simp)
      · next htable =>
        refine .setPc rfl rfl (fun _ => context_setTask rfl) (by simp [Pc.resume]) (by simp)
          fun _ => .remove ctx i hpc ?_
        simpa [hc] using htable
    · next hc =>
      exact .setPc rfl rfl (fun _ => rfl) (by simp [Pc.resume]) (by simp)
        fun _ => .remove ctx i hpc (by simp [hc])
  | reapExited c =>
    obtain rfl := Option.some.inj hstep
    exact .setPc rfl rfl (fun _ => context_setState) (by simp [Pc.resume]) (by simp) (by simp)
  | reapQueue c =>
    obtain rfl := Option.some.inj hstep
    exact .enqueueForReaper hctx rfl rfl (fun _ => rfl) (by simp [Pc.resume]) (by simp) (by simp)
  | cleanupExited t =>
    obtain rfl := Option.some.inj hstep
    exact .setPc rfl rfl (fun _ => context_setState) (by simp [Pc.resume]) (by simp) (by simp)
  | cleanupFree t =>
    obtain rfl := Option.some.inj hstep
    exact .setPc rfl rfl (fun _ => rfl) (by simp [Pc.resume]) (by simp) (by simp)
  | cleanupRemove t =>
    obtain rfl := Option.some.inj hstep
    exact .setPc rfl rfl (fun _ => rfl) (by simp [Pc.resume]) (by simp) (by simp)

theorem waitStep_event {r : Resume} (hpc : (σ.hart h).pc = .run r)
    (hstep : event h σ r a = some σ') : WaitStep h σ σ' := by
  have hkeep : ∀ ctx, (Pc.run r).resume = some (.wait ctx) →
      (σ.hart h).pc.resume = some (.wait ctx) := fun ctx hr => hpc ▸ hr
  have hsame : WaitStep h σ σ :=
    ⟨fun _ _ => Or.inl, by simp [hpc], by simp [hpc]⟩
  cases a with
  | next => simp [event] at hstep
  | timer order =>
    simp only [event, P.ctx_eq hh] at hstep
    split at hstep
    · split at hstep
      · obtain rfl := Option.some.inj hstep
        refine .setPc rfl rfl (fun t => ?_) hkeep (by simp) (by simp)
        change (if t ∈ σ.toWakeUp order then { σ.task t with state := .ready }
          else σ.task t).context = _
        split <;> rfl
      · simp at hstep
    · simp at hstep
  | externalIrq irq =>
    simp only [event] at hstep
    split at hstep
    · obtain rfl := Option.some.inj hstep
      rw [irqPop]
      split
      · exact hsame
      · dsimp only
        split
        · exact .setPc rfl rfl (fun _ => rfl) hkeep (by simp) (by simp)
        · exact ⟨fun _ _ => Or.inl, by simp [hpc], by simp [hpc]⟩
    · simp at hstep
  | newTask =>
    simp only [event] at hstep
    split at hstep
    · obtain rfl := Option.some.inj hstep
      rw [newTask, P.withCtx_eq hh]
      exact .setPc rfl rfl (fun _ => context_setTask rfl) (by simp [Pc.resume]) (by simp) (by simp)
    · simp at hstep
  | exit code =>
    simp only [event] at hstep
    split at hstep
    · obtain rfl := Option.some.inj hstep
      rw [exitCode, P.withCtx_eq hh]
      dsimp only
      split
      · exact hsame
      · exact .setPc rfl rfl (fun _ => context_setTask rfl) (by simp [Pc.resume]) (by simp)
          (by simp)
    · simp at hstep
  | wait =>
    simp only [event] at hstep
    split at hstep
    · obtain rfl := Option.some.inj hstep
      rw [wait, P.withCtx_eq hh]
      split
      · exact hsame
      · exact .setPc rfl rfl (fun _ => rfl) (by simp [Pc.resume]) (by simp) (by simp)
    · simp at hstep
  | sleep ms =>
    simp only [event] at hstep
    split at hstep
    · obtain rfl := Option.some.inj hstep
      rw [sleepCurrentTask, P.withCtx_eq hh]
      exact .setPc rfl rfl (fun _ => context_setState) (by simp [Pc.resume]) (by simp) (by simp)
    · simp at hstep
  | console ready =>
    simp only [event] at hstep
    split at hstep
    · obtain rfl := Option.some.inj hstep
      split
      · exact .setPc rfl rfl (fun _ => rfl) (by simp [Pc.resume]) (by simp) (by simp)
      · rw [blockOnExternalIrq, P.withCtx_eq hh]
        exact .setPc rfl rfl (fun _ => context_setState) (by simp [Pc.resume]) (by simp) (by simp)
    · simp at hstep

omit hh in
/-- **Every step** goes on with the waits in progress. -/
theorem waitStep (hstep : step h a σ = some σ') : WaitStep h σ σ' := by
  obtain ⟨hh, ⟨-, hk⟩ | ⟨r, hpc, he⟩⟩ := step_cases hstep
  · exact waitStep_kernelStep P hh rfl hk
  · exact waitStep_event P hh hpc he

end Waits

section Solo

/-- On one hart a wait goes on where it was called, and has found what it takes. -/
structure Solo (σ : System) : Prop where
  waits : ∀ t ctx, σ.Waits t ctx → ctx = 0
  reap : ∀ ctx i, (σ.hart 0).pc = .reapRemove ctx i → ctx = 0 ∧
    ∃ c, (σ.task (σ.current 0)).children[i]? = some c ∧ c ∈ σ.table ∧ (σ.task c).state = .zombie

variable {σ σ' : System} {loc : Pid → Loc} {a : Act}

theorem Solo.step (S : Solo σ) (P : Placed True none σ loc) {h : ℕ} (hn : σ.harts = 1)
    (hstep : step h a σ = some σ') : Solo σ' := by
  obtain rfl : h = 0 := by
    have := lt_harts_of_step hstep
    omega
  have W := waitStep P hstep
  refine ⟨fun t ctx ht => ?_, fun ctx i hpc => ?_⟩
  · rcases W.waits t ctx ht with ht | ⟨rfl, -⟩
    · exact S.waits t ctx ht
    · rfl
  · obtain ⟨hrun, hfind, rfl⟩ := W.find ctx i hpc
    obtain rfl : ctx = 0 :=
      S.waits _ ctx (Or.inl ⟨0, by omega, rfl, by rw [hrun]; rfl⟩)
    exact ⟨rfl, zombieChild_eq_some hfind⟩

theorem not_waits_boot (n : ℕ) (t : Pid) (ctx : ℕ) : ¬ (boot n).Waits t ctx := by
  rintro (⟨k, -, -, hres⟩ | ⟨-, hc⟩)
  · simp [boot, Pc.resume] at hres
  · change (if t < 2 * n then kernelTask _ _ _ else kernelTask _ _ _).context = _ at hc
    split at hc
    · simp only [kernelTask] at hc
      split at hc <;> simp at hc
    · simp [kernelTask] at hc

theorem solo_boot : Solo (boot 1) :=
  ⟨fun t ctx ht => absurd ht (not_waits_boot 1 t ctx), by simp [boot]⟩

end Solo

section Fair

variable {σ : System} {loc : Pid → Loc} {h : ℕ} {a : Act}

/-- On one hart only its own task is executed. -/
theorem not_executes_of_ne (hn : σ.harts = 1) {t : Pid} (ht : (σ.hart 0).tp ≠ t) :
    ¬ σ.Executes t := by
  rintro ⟨k, hk, hkt⟩
  obtain rfl : k = 0 := by omega
  exact ht hkt

/-- A task that lies in a queue is not the one that a hart executes outside of `schedule`. -/
theorem Placed.tp_ne_of_occ {strict : Prop} (P : Placed strict none σ loc) {t : Pid} {q : Queue}
    (htp : loc (σ.hart h).tp = .on h none) (ht : σ.occ t q ≠ 0) : (σ.hart h).tp ≠ t := by
  rintro rfl
  exact ht (by rw [P.occ, htp]; rfl)

/-- **On one hart every step meets the conditions.** -/
theorem fair_of_solo (S : Solo σ) (P : Placed True none σ loc) {σ' : System} (hn : σ.harts = 1)
    (hstep : step h a σ = some σ') : Fair σ h a := by
  obtain ⟨hh, hcases⟩ := step_cases hstep
  obtain rfl : h = 0 := by omega
  constructor
  · intro t ht
    apply not_executes_of_ne hn
    rcases mem_woken ht with ⟨irq, rfl, hmem⟩ | ⟨rfl, hpc, hmem⟩
    · rcases hcases with ⟨ha, -⟩ | ⟨r, hpc, -⟩
      · simp at ha
      · refine P.tp_ne_of_occ (P.at hh hpc).stage.1 (q := .irq irq) ?_
        exact (List.count_pos_iff.2 hmem).ne'
    · refine P.tp_ne_of_occ (P.at hh hpc).stage.1 (q := .wait) ?_
      simp [System.occ, hmem]
  · intro c hc
    obtain ⟨rfl, ctx, i, hget, ⟨hpc, hi⟩ | hpc⟩ := mem_reaped hc
    · obtain ⟨c', hget', -, hzombie⟩ := zombieChild_eq_some hi
      obtain rfl : c' = c := Option.some.inj (hget'.symm.trans hget)
      refine ⟨hzombie, not_executes_of_ne hn (Ne.symm ?_)⟩
      exact ne_of_dead (Or.inl hzombie) (P.at hh hpc).stage.2 (by simp [Dead])
    · obtain ⟨rfl, c', hget', -, hzombie⟩ := S.reap ctx i hpc
      obtain rfl : c' = c := Option.some.inj (hget'.symm.trans hget)
      refine ⟨hzombie, not_executes_of_ne hn (Ne.symm ?_)⟩
      exact ne_of_dead (Or.inl hzombie) (P.at hh hpc).stage.2 (by simp [Dead])

/-- The runs of one hart are all fair. -/
theorem Reach.fair {ok : System → ℕ → Act → Prop} (hreach : Reach ok 1 σ) :
    Reach (fun σ h a => ok σ h a ∧ Fair σ h a) 1 σ ∧ Solo σ ∧ ∃ loc, Placed True none σ loc := by
  induction hreach with
  | boot => exact ⟨.boot, solo_boot, _, placed_boot True Nat.one_pos⟩
  | step hr hok hstep ih =>
    obtain ⟨hreach, S, loc, P⟩ := ih
    have hfair := fair_of_solo S P hr.harts_eq hstep
    exact ⟨.step hreach ⟨hok, hfair⟩ hstep, S.step P hr.harts_eq hstep,
      P.step hstep hfair.1 fun _ => hfair.2⟩
  | tick d _ ih =>
    obtain ⟨hreach, S, loc, P⟩ := ih
    exact ⟨.tick d hreach, ⟨S.waits, S.reap⟩, loc, P.tick d⟩

end Fair

section Bookkeeping

variable {σ : System} {loc : Pid → Loc} {r : Resume} {t : Pid}

/-- What the state of a task says about its place while the hart is outside of the kernel. -/
theorem Placed.settled (P : Placed True none σ loc) (hn : σ.harts = 1)
    (hpc : (σ.hart 0).pc = .run r) (ht : t < σ.pidCounter) (hidle : t ≠ 0) :
    ((σ.task t).state = .running ∧ σ.current 0 = t ∧ (loc t).queue = none) ∨
      (∃ q, (σ.task t).state = q.state ∧ σ.current 0 ≠ t ∧ (loc t).queue = some q ∧
        q.Home 1 (some 0)) ∨
      (Dead (σ.task t).state ∧ σ.current 0 ≠ t ∧ (loc t).queue = none) := by
  have hh : 0 < σ.harts := by omega
  have hat := P.at hh hpc
  have hcur : σ.current 0 = (σ.hart 0).tp := hat.current
  have hok := P.task t
  have hne : ∀ l, loc t = l → l ≠ .on 0 none → σ.current 0 ≠ t := by
    rintro l hl hno rfl
    rw [hcur, hat.stage.1] at hl
    exact hno hl.symm
  cases hl : loc t with
  | absent => exact absurd ((P.absent t).1 hl) (Nat.not_le.2 ht)
  | idle k =>
    rw [hl] at hok
    obtain ⟨rfl, hk, -⟩ := hok
    exact absurd (show 2 * k = 0 by omega) hidle
  | on k q =>
    obtain ⟨hk, htp⟩ := P.on t k q (by simp) hl
    obtain rfl : k = 0 := by omega
    have hstage := hat.stage
    rw [htp, hl] at hstage
    obtain ⟨hq, hs⟩ := hstage
    obtain rfl : q = none := by simpa using hq
    exact Or.inl ⟨hs.resolve_right fun h => h.1 trivial, hcur.trans htp, rfl⟩
  | queued q =>
    rw [hl] at hok
    obtain ⟨-, -, hhome, hs⟩ := hok
    refine Or.inr (Or.inl ⟨q, hs.resolve_right fun h => h.1 trivial, hne _ hl (by simp), rfl, ?_⟩)
    rw [hn] at hhome
    cases q with
    | run k | sleep k =>
      obtain ⟨-, hk⟩ := hhome
      obtain rfl : k = 0 := by omega
      exact ⟨rfl, hk⟩
    | irq | wait => trivial
  | held k x =>
    have hhold := ((P.held t k x (by simp)).1 hl)
    obtain rfl : k = 0 := by omega
    simp [hpc, Pc.hold] at hhold
  | lost =>
    rw [hl] at hok
    exact Or.inr (Or.inr ⟨hok.2 trivial, hne _ hl (by simp), rfl⟩)

/-- Every task but the idle one is where its state says and nowhere else: a running task is the
current one, a ready one lies once in the run queue, a sleeping one once in the heap, a blocked
one once in `waiting_tasks` or in the queue of one interrupt, and a dead one nowhere. -/
structure InPlace (σ : System) (t : Pid) : Prop where
  running : (σ.task t).state = .running ↔ σ.current 0 = t
  ready : (σ.task t).state = .ready ↔ (σ.core 0).runqueue.count t = 1
  sleeping : (σ.task t).state = .sleeping ↔ ((σ.core 0).sleepingTasks.map Prod.snd).count t = 1
  blocked : (σ.task t).state = .blocked ↔ (t ∈ σ.waitingTasks ∧ ∀ i, t ∉ σ.irqWaitQueue i) ∨
    (t ∉ σ.waitingTasks ∧
      ∃ i, (σ.irqWaitQueue i).count t = 1 ∧ ∀ j, j ≠ i → t ∉ σ.irqWaitQueue j)
  dead : Dead (σ.task t).state ↔ σ.current 0 ≠ t ∧ t ∉ (σ.core 0).runqueue ∧
    t ∉ (σ.core 0).sleepingTasks.map Prod.snd ∧ t ∉ σ.waitingTasks ∧ ∀ i, t ∉ σ.irqWaitQueue i

theorem Placed.inPlace (P : Placed True none σ loc) (hn : σ.harts = 1)
    (hpc : (σ.hart 0).pc = .run r) (ht : t < σ.pidCounter) (hidle : t ≠ 0) : InPlace σ t := by
  have hrun := P.occ (.run 0) t
  have hsleep := P.occ (.sleep 0) t
  have hirq := fun i => P.occ (.irq i) t
  have hwait := P.occ .wait t
  simp only [System.occ] at hrun hsleep hirq hwait
  have hmemrun : t ∈ (σ.core 0).runqueue ↔ (loc t).queue = some (.run 0) := by
    rw [← List.count_pos_iff, hrun]
    split <;> simp [*]
  have hmemsleep : t ∈ (σ.core 0).sleepingTasks.map Prod.snd ↔
      (loc t).queue = some (.sleep 0) := by
    rw [← List.count_pos_iff, hsleep]
    split <;> simp [*]
  have hmemirq : ∀ i, t ∈ σ.irqWaitQueue i ↔ (loc t).queue = some (.irq i) := by
    intro i
    rw [← List.count_pos_iff, hirq]
    split <;> simp [*]
  have hmemwait : t ∈ σ.waitingTasks ↔ (loc t).queue = some .wait := by
    by_cases hq : (loc t).queue = some .wait <;> simpa [hq] using hwait
  rcases P.settled hn hpc ht hidle with ⟨hs, hcur, hq⟩ | ⟨q, hs, hcur, hq, hhome⟩ | ⟨hs, hcur, hq⟩
  · constructor <;> simp [hs, hcur, hq, hrun, hsleep, hirq, hmemrun, hmemsleep, hmemirq, hmemwait,
      Dead]
  · have hcur' : ¬ σ.current 0 = t := hcur
    cases q with
    | run k =>
      obtain ⟨hk, -⟩ := hhome
      obtain rfl : 0 = k := by simpa using hk
      constructor <;> simp [hs, hcur', hq, hrun, hsleep, hirq, hmemrun, hmemsleep, hmemirq,
        hmemwait, Dead, Queue.state]
    | sleep k =>
      obtain ⟨hk, -⟩ := hhome
      obtain rfl : 0 = k := by simpa using hk
      constructor <;> simp [hs, hcur', hq, hrun, hsleep, hirq, hmemrun, hmemsleep, hmemirq,
        hmemwait, Dead, Queue.state]
    | irq i =>
      constructor <;> simp [hs, hcur', hq, hrun, hsleep, hirq, hmemrun, hmemsleep, hmemirq,
        hmemwait, Dead, Queue.state]
      exact fun j hj => Ne.symm hj
    | wait =>
      constructor <;> simp [hs, hcur', hq, hrun, hsleep, hirq, hmemrun, hmemsleep, hmemirq,
        hmemwait, Dead, Queue.state]
  · have hcur' : ¬ σ.current 0 = t := hcur
    constructor <;> rcases hs with hs | hs <;>
      simp [hs, hcur', hq, hrun, hsleep, hirq, hmemrun, hmemsleep, hmemirq, hmemwait, Dead]

end Bookkeeping

end Efiks.Sched

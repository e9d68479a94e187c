import Efiks.Sched.Placement

/-!
# Steps that leave every task where it is

One lemma for each step of the machine in which a hart marks a task, looks something up or
takes a dead task apart, but moves none.
-/
namespace Efiks.Sched

section Tools

variable {strict : Prop} {h : ℕ} {σ : System} {loc : Pid → Loc}

theorem Placed.ctx_eq (P : Placed strict none σ loc) (hh : h < σ.harts) : σ.ctx h = some h := by
  obtain ⟨q, hq⟩ := P.tp h hh (by simp)
  have ht := P.task (σ.hart h).tp
  rw [hq] at ht
  exact ht.2.1

theorem Placed.withCtx_eq (P : Placed strict none σ loc) (hh : h < σ.harts) (f : ℕ → System) :
    σ.withCtx h f = f h := by
  simp [System.withCtx, P.ctx_eq hh]

/-- What hart `h` knows at `pc`. -/
theorem Placed.at (P : Placed strict none σ loc) (hh : h < σ.harts) {pc : Pc}
    (hpc : (σ.hart h).pc = pc) :
    HartOk strict σ.harts h σ.task loc (σ.current h) (σ.hart h).tp pc := by
  rw [← hpc]
  exact P.hart h hh (by simp)

/-- The hart goes on to `pc` with its task. -/
theorem Placed.close_to (P : Placed strict none σ loc) (hh : h < σ.harts) {σ' : System}
    {loc' : Pid → Loc} (hrest : SameCores h σ σ') (P' : Placed strict (some h) σ' loc') {pc : Pc}
    (htp : ∃ q, loc' (σ.hart h).tp = .on h q)
    (hon : ∀ t q, loc' t = .on h q → t ≠ (σ.hart h).tp → ∃ q', loc t = .on h q')
    (hheld : ∀ t x, loc' t = .held h x ↔ pc.hold = some (x, t))
    (hok : HartOk strict σ.harts h σ'.task loc' (σ'.current h) (σ.hart h).tp pc)
    (hdoomed : ∀ t ∈ pc.doomed, Doomed strict σ.harts σ'.task loc' t) :
    Placed strict none (σ'.setPc h pc) loc' := by
  have hh' : h < σ'.harts := by rwa [hrest.harts]
  rw [← hrest.harts] at hok hdoomed
  rw [← hrest.hart] at hok htp
  refine P'.close hh' htp (fun t q hl => ?_) hheld hok hdoomed
  rw [hrest.hart]
  by_contra hne
  obtain ⟨q', hq'⟩ := hon t q hl (Ne.symm hne)
  exact hne (P.on t h q' (by simp) hq').2

/-- The hart goes on to `pc`, with the same task in its hands. -/
theorem Placed.close_same (P : Placed strict none σ loc) (hh : h < σ.harts) {σ' : System}
    (hrest : SameCores h σ σ') (P' : Placed strict (some h) σ' loc) {pc : Pc}
    (hhold : pc.hold = (σ.hart h).pc.hold)
    (hok : HartOk strict σ.harts h σ'.task loc (σ'.current h) (σ.hart h).tp pc)
    (hdoomed : ∀ t ∈ pc.doomed, Doomed strict σ.harts σ'.task loc t) :
    Placed strict none (σ'.setPc h pc) loc := by
  refine P.close_to hh hrest P' (P.tp h hh (by simp)) (fun t q hl _ => ⟨q, hl⟩) ?_ hok hdoomed
  intro t x
  rw [P.held t h x (by simp), hhold]
  simp [hh]

theorem SameRest.refl (σ : System) : SameRest h σ σ :=
  ⟨⟨rfl, rfl, fun _ => ⟨rfl, rfl, fun _ => rfl⟩⟩, rfl, rfl, fun _ => rfl⟩

theorem SameRest.trans {σ₁ σ₂ σ₃ : System} (h₁ : SameRest h σ₁ σ₂) (h₂ : SameRest h σ₂ σ₃) :
    SameRest h σ₁ σ₃ where
  harts := h₂.harts.trans h₁.harts
  hart := h₂.hart.trans h₁.hart
  core k := ⟨(h₂.core k).1.trans (h₁.core k).1, (h₂.core k).2.1.trans (h₁.core k).2.1,
    fun hk => ((h₂.core k).2.2 hk).trans ((h₁.core k).2.2 hk)⟩
  counter := h₂.counter.trans h₁.counter
  table := h₂.table.trans h₁.table
  children t := (h₂.children t).trans (h₁.children t)

theorem SameRest.symm {σ₁ σ₂ : System} (h₁ : SameRest h σ₁ σ₂) : SameRest h σ₂ σ₁ where
  harts := h₁.harts.symm
  hart := h₁.hart.symm
  core k := ⟨(h₁.core k).1.symm, (h₁.core k).2.1.symm, fun hk => ((h₁.core k).2.2 hk).symm⟩
  counter := h₁.counter.symm
  table := h₁.table.symm
  children t := (h₁.children t).symm

theorem SameRest.setTask (σ : System) (t : Pid) (f : Task → Task)
    (hf : ∀ x, (f x).children = x.children) : SameRest h σ (σ.setTask t f) := by
  refine ⟨⟨rfl, rfl, fun _ => ⟨rfl, rfl, fun _ => rfl⟩⟩, rfl, rfl, fun t' => ?_⟩
  by_cases ht : t' = t
  · subst ht
    simp [System.setTask, hf]
  · simp [System.setTask, Function.update_of_ne ht]

theorem SameRest.setState (σ : System) (t : Pid) (s : TaskState) :
    SameRest h σ (σ.setState t s) :=
  .setTask σ t _ fun _ => rfl

theorem SameRest.setCore (σ : System) (k : ℕ) (f : Core → Core)
    (hf : ∀ c, (f c).idleTask = c.idleTask ∧ (f c).cleanupQueue = c.cleanupQueue ∧
      (k ≠ h → (f c).currentTask = c.currentTask)) : SameRest h σ (σ.setCore k f) := by
  refine ⟨⟨rfl, rfl, fun j => ?_⟩, rfl, rfl, fun _ => rfl⟩
  by_cases hj : j = k
  · subst hj
    simpa [System.setCore] using hf (σ.core j)
  · simp [System.setCore, Function.update_of_ne hj]

theorem Placed.setPc (P : Placed strict none σ loc) (hh : h < σ.harts) {pc : Pc}
    (hhold : pc.hold = (σ.hart h).pc.hold)
    (hok : HartOk strict σ.harts h σ.task loc (σ.current h) (σ.hart h).tp pc)
    (hdoomed : ∀ t ∈ pc.doomed, Doomed strict σ.harts σ.task loc t) :
    Placed strict none (σ.setPc h pc) loc :=
  P.close_same hh (SameRest.refl σ).toSameCores (P.enter h) hhold hok hdoomed

/-- A core changes, but not in the queue `q`. -/
theorem occ_setCore {k : ℕ} {f : Core → Core} {t : Pid} {q : Queue}
    (hr : q = .run k → (f (σ.core k)).runqueue.count t = (σ.core k).runqueue.count t)
    (hs : q = .sleep k → ((f (σ.core k)).sleepingTasks.map Prod.snd).count t =
      ((σ.core k).sleepingTasks.map Prod.snd).count t) :
    (σ.setCore k f).occ t q = σ.occ t q := by
  cases q with
  | run j =>
    by_cases hj : j = k
    · subst hj
      simpa [System.occ, System.setCore] using hr rfl
    · simp [System.occ, System.setCore, hj]
  | sleep j =>
    by_cases hj : j = k
    · subst hj
      simpa [System.occ, System.setCore] using hs rfl
    · simp [System.occ, System.setCore, hj]
  | irq | wait => rfl

@[simp] theorem occ_setCore_run {k : ℕ} {f : Core → Core} {t : Pid} :
    (σ.setCore k f).occ t (.run k) = (f (σ.core k)).runqueue.count t := by
  simp [System.occ, System.setCore]

@[simp] theorem occ_setCore_sleep {k : ℕ} {f : Core → Core} {t : Pid} :
    (σ.setCore k f).occ t (.sleep k) = ((f (σ.core k)).sleepingTasks.map Prod.snd).count t := by
  simp [System.occ, System.setCore]

theorem setPc_self (σ : System) (h : ℕ) : σ.setPc h (σ.hart h).pc = σ := by
  simp [System.setPc]

@[simp] theorem setState_state (t : Pid) (s : TaskState) :
    ((σ.setState t s).task t).state = s := by
  simp [System.setState, System.setTask]

/-- The hart marks a task that nobody else has at hand. -/
theorem Placed.setState (P : Placed strict (some h) σ loc) {x : Pid} {s : TaskState}
    (hown : (loc x).Own h)
    (hok : TaskOk strict σ.harts x { σ.task x with state := s } (loc x))
    (hdead : strict → Dead (σ.task x).state → Dead s)
    (hidle : x = 2 * h → (loc x).IsIdle h ∧ Runnable s) :
    Placed strict (some h) (σ.setState x s) loc := by
  refine P.relocate (.setTask σ x _ fun _ => rfl) P.occ (fun t => ?_) (fun _ => id) fun _ => Iff.rfl
  by_cases ht : t = x
  · subst ht
    have hself : (σ.setState t s).task t = { σ.task t with state := s } := by
      simp [System.setState, System.setTask]
    rw [hself]
    exact Or.inr ⟨hown, hown, hok, id, fun st _ => hdead st, hidle⟩
  · exact Or.inl ⟨by simp [System.setState, System.setTask, Function.update_of_ne ht], rfl⟩

/-- The hart marks its own task. -/
theorem Placed.mark (P : Placed strict none σ loc) (hh : h < σ.harts) {s : TaskState} {pc : Pc}
    (hloc : loc (σ.hart h).tp = .on h none)
    (hdead : strict → Dead (σ.task (σ.hart h).tp).state → Dead s)
    (hidle : (σ.hart h).tp = 2 * h → Runnable s) (hhold : pc.hold = (σ.hart h).pc.hold)
    (hok : HartOk strict σ.harts h (σ.setState (σ.hart h).tp s).task loc (σ.current h)
      (σ.hart h).tp pc)
    (hdoomed : pc.doomed = none) :
    Placed strict none ((σ.setState (σ.hart h).tp s).setPc h pc) loc := by
  have htask := P.task (σ.hart h).tp
  have P' : Placed strict (some h) (σ.setState (σ.hart h).tp s) loc := by
    refine (P.enter h).setState ?_ ?_ hdead fun ht => ⟨?_, hidle ht⟩
    · simp [hloc, Loc.Own]
    · rw [hloc] at htask ⊢
      exact ⟨htask.1, htask.2.1, by simp⟩
    · simp [hloc, Loc.IsIdle]
  exact P.close_same hh (SameRest.setState σ _ s).toSameCores P' hhold hok (by simp [hdoomed])

/-- Data of a task that its place does not speak about. -/
theorem Placed.setTask {e : Option ℕ} (P : Placed strict e σ loc) {t : Pid} {f : Task → Task}
    (hv : (f (σ.task t)).view = (σ.task t).view)
    (hc : ∀ c ∈ (f (σ.task t)).children, c ∈ (σ.task t).children ∨ 2 * σ.harts < c) :
    Placed strict e (σ.setTask t f) loc := by
  refine P.data (σ.setTask t f) rfl rfl rfl (fun _ _ => rfl)
    (fun _ => ⟨rfl, rfl, fun _ => Or.inl⟩) (fun t' => ?_) (fun _ => id) (fun _ _ ht _ => ht)
  by_cases ht : t' = t
  · subst ht
    simpa [System.setTask] using ⟨hv, hc⟩
  · simp only [System.setTask, Function.update_of_ne ht, true_and]
    exact fun _ => Or.inl

/-- A doomed task is queued for the reaper of the hart's core. -/
theorem Placed.enqueueForReaper (P : Placed strict none σ loc) (hh : h < σ.harts) {t : Pid}
    {pc : Pc} (ht : Doomed strict σ.harts σ.task loc t) (hhold : pc.hold = (σ.hart h).pc.hold)
    (hok : HartOk strict σ.harts h σ.task loc (σ.current h) (σ.hart h).tp pc)
    (hdoomed : pc.doomed = none) :
    Placed strict none (enqueueForReaper h t pc σ) loc := by
  rw [Sched.enqueueForReaper, P.withCtx_eq hh]
  let σ' := σ.setCore h fun c => { c with cleanupQueue := c.cleanupQueue ++ [t] }
  have hcore : ∀ k, (σ'.core k).idleTask = (σ.core k).idleTask ∧
      (σ'.core k).currentTask = (σ.core k).currentTask ∧
      ∀ t' ∈ (σ'.core k).cleanupQueue,
        t' ∈ (σ.core k).cleanupQueue ∨ Doomed strict σ.harts σ.task loc t' := by
    intro k
    by_cases hk : k = h
    · subst hk
      simp only [σ', System.setCore, Function.update_self, List.mem_append, List.mem_singleton,
        true_and]
      rintro t' (ht' | rfl)
      · exact Or.inl ht'
      · exact Or.inr ht
    · simp only [σ', System.setCore, Function.update_of_ne hk, true_and]
      exact fun _ => Or.inl
  have hocc : ∀ q t', σ'.occ t' q = σ.occ t' q :=
    fun q t' => occ_setCore (fun _ => rfl) (fun _ => rfl)
  have P' := P.data σ' rfl rfl rfl hocc hcore (fun _ => ⟨rfl, fun _ => Or.inl⟩) (fun _ => id)
    (fun _ _ ht _ => ht)
  refine P'.setPc hh hhold ?_ (by simp [hdoomed])
  rw [show σ'.current h = σ.current h from (hcore h).2.1]
  exact hok

end Tools

section Life

variable {strict : Prop} {h : ℕ} {σ : System} {loc : Pid → Loc}
variable (P : Placed strict none σ loc) (hh : h < σ.harts)
include P hh

theorem Placed.exitCode (code : ℤ) (hpc : (σ.hart h).pc = .run .user) :
    Placed strict none (exitCode h code σ) loc := by
  rw [Sched.exitCode, P.withCtx_eq hh]
  dsimp only
  split
  · exact P
  · have P' : Placed strict none (σ.setTask (σ.current h) fun x => { x with exitCode := code })
        loc := P.setTask rfl fun _ => Or.inl
    obtain ⟨hcur, hres, -, hstage, -⟩ := P'.at hh hpc
    exact P'.setPc hh (hpc ▸ rfl) ⟨hcur, hres, rfl, hstage, by simp [Pc.pushes]⟩
      (by simp [Pc.doomed])

theorem Placed.exitZombie {ctx : ℕ} (hpc : (σ.hart h).pc = .exitZombie ctx) :
    Placed strict none (exitZombie h ctx σ) loc := by
  obtain ⟨hcur, hres, hctx, ⟨hloc, -⟩, -⟩ := P.at hh hpc
  have hdead : Dead .zombie := Or.inl rfl
  rw [Sched.exitZombie, show ctx = h from hctx, hcur]
  refine P.mark hh hloc (fun _ _ => hdead) ?_ (hpc ▸ rfl) ?_ rfl
  · intro ht
    exact absurd ((hres .user rfl).2 ht) (by simp)
  · exact ⟨hcur, hres, rfl, ⟨hloc, by rw [setState_state]; exact hdead⟩, by simp [Pc.pushes]⟩

theorem Placed.exitChildren {ctx : ℕ} (hpc : (σ.hart h).pc = .exitChildren ctx) :
    Placed strict none (exitChildren h ctx σ) loc := by
  have P' : Placed strict none (σ.setTask (σ.current ctx) fun x => { x with children := [] })
      loc := P.setTask rfl (by simp)
  obtain ⟨hcur, hres, hctx, hstage, -⟩ := P'.at hh hpc
  exact P'.setPc hh (hpc ▸ rfl) ⟨hcur, hres, hctx, hstage, by simp [Pc.pushes]⟩
    (by simp [Pc.doomed])

theorem Placed.exitNotify {ctx : ℕ} (hpc : (σ.hart h).pc = .exitNotify ctx) :
    Placed strict none (exitNotify h ctx σ) loc := by
  obtain ⟨hcur, hres, hctx, hstage, -⟩ := P.at hh hpc
  have hremove : ∀ p, Placed strict none (σ.setPc h (.exitRemove p)) loc := fun p =>
    P.setPc hh (hpc ▸ rfl) ⟨hcur, hres, trivial, hstage, by simp [Pc.pushes]⟩ (by simp [Pc.doomed])
  have hcleanup : Placed strict none (σ.setPc h (.exitCleanup ctx)) loc :=
    P.setPc hh (hpc ▸ rfl) ⟨hcur, hres, hctx, hstage, by simp [Pc.pushes]⟩ (by simp [Pc.doomed])
  rw [Sched.exitNotify]
  split
  · split
    · exact hremove _
    · exact hcleanup
  · exact hcleanup

/-- The task of a hart in its exit path may be taken apart. -/
theorem Placed.doomed_self {pc : Pc} (hpc : (σ.hart h).pc = pc) {q : Option Queue}
    (hloc : loc (σ.hart h).tp = .on h q) (hres : pc.resume = some .user)
    (hdead : Dead (σ.task (σ.hart h).tp).state) :
    Doomed strict σ.harts σ.task loc (σ.hart h).tp := by
  refine ⟨fun k hk ht => ?_, by simp [hloc, Loc.Created], fun _ => hdead⟩
  -- an idle task is executed by its own hart only, and never calls `exit`
  have hidle := (P.idle k hk).1
  rw [← ht, hloc] at hidle
  simp only [Loc.IsIdle, Loc.on.injEq, reduceCtorEq, or_false, false_or] at hidle
  obtain ⟨rfl, -⟩ := hidle
  exact absurd (((P.at hh hpc).resume .user hres).2 ht) (by simp)

theorem Placed.exitCleanup {ctx : ℕ} (hpc : (σ.hart h).pc = .exitCleanup ctx) :
    Placed strict none (exitCleanup h ctx σ) loc := by
  obtain ⟨hcur, hres, hctx, ⟨hloc, hdead⟩, -⟩ := P.at hh hpc
  rw [Sched.exitCleanup, show ctx = h from hctx, hcur]
  exact P.enqueueForReaper hh (P.doomed_self hh hpc hloc rfl hdead) (hpc ▸ rfl)
    ⟨hcur, hres, trivial, Or.inl ⟨hloc, Or.inr hdead⟩, by simp [Pc.pushes]⟩ rfl

theorem Placed.wait (hpc : (σ.hart h).pc = .run .user) : Placed strict none (wait h σ) loc := by
  obtain ⟨hcur, hres, -, hstage, -⟩ := P.at hh hpc
  rw [Sched.wait, P.withCtx_eq hh]
  split
  · exact P
  · exact P.setPc hh (hpc ▸ rfl) ⟨hcur, hres, rfl, hstage, by simp [Pc.pushes]⟩
      (by simp [Pc.doomed])

theorem Placed.waitBlocked {ctx : ℕ} (hpc : (σ.hart h).pc = .waitBlocked ctx) :
    Placed strict none (waitBlocked h ctx σ) loc := by
  obtain ⟨hcur, hres, hctx, ⟨hloc, hs⟩, -⟩ := P.at hh hpc
  rw [Sched.waitBlocked, show ctx = h from hctx, hcur]
  refine P.mark hh hloc ?_ ?_ (hpc ▸ rfl) ?_ rfl
  · exact fun st hd => absurd hd (hs.not_dead st (by simp [Dead]))
  · intro ht
    exact absurd ((hres .user rfl).2 ht) (by simp)
  · exact ⟨hcur, hres, rfl, ⟨hloc, by rw [setState_state]; exact Or.inl rfl⟩, by simp [Pc.pushes]⟩

theorem Placed.waitRunning {ctx : ℕ} (hpc : (σ.hart h).pc = .waitRunning ctx) :
    Placed strict none (waitRunning h ctx σ) loc := by
  obtain ⟨hcur, hres, hctx, ⟨hloc, hs⟩, -⟩ := P.at hh hpc
  rw [Sched.waitRunning, show ctx = h from hctx, hcur]
  refine P.mark hh hloc ?_ (fun _ => Or.inr rfl) (hpc ▸ rfl) ?_ rfl
  · exact fun st hd => absurd hd (hs.not_dead st (by simp [Dead]))
  · exact ⟨hcur, hres, trivial, ⟨hloc, by rw [setState_state]; exact Or.inl rfl⟩,
      by simp [Pc.pushes]⟩

theorem Placed.reapFind {ctx : ℕ} (hpc : (σ.hart h).pc = .run (.wait ctx)) :
    Placed strict none (reapFind h ctx σ) loc := by
  obtain ⟨hcur, hres, -, hstage, -⟩ := P.at hh hpc
  have hres' : ∀ r ∈ (Pc.reapRemove ctx 0).resume, r = .idle ↔ (σ.hart h).tp = 2 * h := by
    simpa [Pc.resume] using hres
  rw [Sched.reapFind]
  split
  · exact P.setPc hh (hpc ▸ rfl) ⟨hcur, hres', trivial, hstage, by simp [Pc.pushes]⟩
      (by simp [Pc.doomed])
  · exact P.setPc hh (hpc ▸ rfl) ⟨hcur, by simp [Pc.resume], trivial, trivial, by simp [Pc.pushes]⟩
      (by simp [Pc.doomed])

theorem Placed.reapExited {c : Pid} (hpc : (σ.hart h).pc = .reapExited c) :
    Placed strict none (reapExited h c σ) loc := by
  have P' := P.kill (P.doomed h hh (by simp) c (by simp [hpc, Pc.doomed]))
  obtain ⟨hcur, hres, -, hstage, -⟩ := P'.at hh hpc
  refine P'.setPc hh (hpc ▸ rfl) ⟨hcur, hres, trivial, hstage, by simp [Pc.pushes]⟩ fun t ht => ?_
  refine P'.doomed h hh (by simp) t ?_
  rw [show ((σ.setState c .exited).hart h).pc = .reapExited c from hpc]
  exact ht

theorem Placed.reapQueue {c : Pid} (hpc : (σ.hart h).pc = .reapQueue c) :
    Placed strict none (Sched.enqueueForReaper h c (.run .user) σ) loc := by
  obtain ⟨hcur, hres, -, hstage, -⟩ := P.at hh hpc
  exact P.enqueueForReaper hh (P.doomed h hh (by simp) c (by simp [hpc, Pc.doomed])) (hpc ▸ rfl)
    ⟨hcur, hres, trivial, hstage, by simp [Pc.pushes]⟩ rfl

theorem Placed.cleanupExited {t : Pid} (hpc : (σ.hart h).pc = .cleanupExited t) :
    Placed strict none (cleanupExited h t σ) loc := by
  have P' := P.kill (P.doomed h hh (by simp) t (by simp [hpc, Pc.doomed]))
  obtain ⟨hcur, hres, -, hstage, -⟩ := P'.at hh hpc
  refine P'.setPc hh (hpc ▸ rfl) ⟨hcur, hres, trivial, hstage, by simp [Pc.pushes]⟩ fun x hx => ?_
  refine P'.doomed h hh (by simp) x ?_
  rw [show ((σ.setState t .exited).hart h).pc = .cleanupExited t from hpc]
  exact hx

theorem Placed.cleanupFree {t : Pid} (hpc : (σ.hart h).pc = .cleanupFree t) :
    Placed strict none (cleanupFree h t σ) loc := by
  obtain ⟨hcur, hres, -, hstage, -⟩ := P.at hh hpc
  refine P.setPc hh (hpc ▸ rfl) ⟨hcur, hres, trivial, hstage, by simp [Pc.pushes]⟩ fun x hx => ?_
  refine P.doomed h hh (by simp) x ?_
  rw [hpc]
  exact hx

omit hh in
/-- A child in the table is a task, and not an idle one. -/
theorem Placed.doomed_child {t c : Pid} (hc : c ∈ (σ.task t).children) (htable : c ∈ σ.table)
    (hdead : strict → Dead (σ.task c).state) : Doomed strict σ.harts σ.task loc c := by
  refine ⟨fun k hk he => ?_, P.table c htable, hdead⟩
  have hlt := P.child t c hc
  rw [he] at hlt
  exact absurd hlt (by omega)

omit hh in
theorem Placed.removeChild (t : Pid) (i : ℕ) : Placed strict none (σ.removeChild t i) loc :=
  P.setTask rfl fun _ hc => Or.inl (List.mem_of_mem_eraseIdx hc)

omit P hh in
theorem removeChild_doomed {c : Pid} (u : Pid) (i : ℕ)
    (hd : Doomed strict σ.harts σ.task loc c) :
    Doomed strict σ.harts (σ.removeChild u i).task loc c := by
  refine hd.congr ?_
  by_cases hc : c = u
  · subst hc
    simp [System.removeChild, System.setTask]
  · simp [System.removeChild, System.setTask, Function.update_of_ne hc]

theorem Placed.reapRemove {ctx i : ℕ} (hpc : (σ.hart h).pc = .reapRemove ctx i)
    (hreap : strict → ∀ c, (σ.task (σ.current ctx)).children[i]? = some c → c ∈ σ.table →
      Dead (σ.task c).state) :
    Placed strict none (reapRemove h ctx i σ) loc := by
  have hpanic : ∀ {σ' : System}, Placed strict none σ' loc → h < σ'.harts →
      (σ'.hart h).pc = .reapRemove ctx i → Placed strict none (σ'.setPc h .panicked) loc := by
    intro σ' P' hh' hpc'
    exact P'.setPc hh' (hpc' ▸ rfl)
      ⟨(P'.at hh' hpc').current, by simp [Pc.resume], trivial, trivial, by simp [Pc.pushes]⟩
      (by simp [Pc.doomed])
  rw [Sched.reapRemove]
  split
  · next c hc =>
    have P' := P.removeChild (σ.current ctx) i
    dsimp only
    split
    · next htable =>
      obtain ⟨hcur, hres, -, hstage, -⟩ := P'.at hh hpc
      refine P'.setPc hh (hpc ▸ rfl) ⟨hcur, hres, trivial, hstage, by simp [Pc.pushes]⟩ ?_
      have hd := P.doomed_child (List.mem_of_getElem? hc) htable fun st => hreap st c hc htable
      intro t ht
      obtain rfl : c = t := by simpa [Pc.doomed] using ht
      exact removeChild_doomed (σ.current ctx) i hd
    · exact hpanic P' hh hpc
  · exact hpanic P hh hpc

omit P hh in
theorem zombieChild_eq_some {t : Pid} {i : ℕ} (hi : σ.zombieChild t = some i) :
    ∃ c, (σ.task t).children[i]? = some c ∧ c ∈ σ.table ∧ (σ.task c).state = .zombie := by
  rw [System.zombieChild, List.findIdx?_eq_some_iff_getElem] at hi
  obtain ⟨hlt, hc, -⟩ := hi
  exact ⟨_, List.getElem?_eq_getElem hlt, of_decide_eq_true hc⟩

theorem Placed.cleanupRemove {t : Pid} (hpc : (σ.hart h).pc = .cleanupRemove t) :
    Placed strict none (cleanupRemove h t σ) loc := by
  have hd := P.doomed h hh (by simp) t (by simp [hpc, Pc.doomed])
  have P' : Placed strict none { σ with table := σ.table.erase t } loc := by
    refine P.data _ rfl rfl rfl (fun _ _ => rfl) (fun _ => ⟨rfl, rfl, fun _ => Or.inl⟩)
      (fun _ => ⟨rfl, fun _ => Or.inl⟩) (fun x hx => Finset.mem_of_mem_erase hx) ?_
    intro st x hx hlive
    refine Finset.mem_erase.2 ⟨?_, hx⟩
    rintro rfl
    exact hlive (hd.2.2 st)
  obtain ⟨hcur, hres, -, hstage, -⟩ := P'.at hh hpc
  have hres' : ∀ r ∈ (Pc.run .reaper).resume, r = .idle ↔ (σ.hart h).tp = 2 * h := by
    simpa [Pc.resume] using hres
  exact P'.setPc hh (hpc ▸ rfl) ⟨hcur, hres', trivial, hstage, by simp [Pc.pushes]⟩
    (by simp [Pc.doomed])

theorem Placed.sleepCurrentTask (ms : ℕ) {r : Resume} (hr : r ≠ .idle)
    (hpc : (σ.hart h).pc = .run r) : Placed strict none (sleepCurrentTask h ms r σ) loc := by
  obtain ⟨hcur, hres, -, ⟨hloc, hs⟩, -⟩ := P.at hh hpc
  rw [Sched.sleepCurrentTask, P.withCtx_eq hh, hcur]
  refine P.mark hh hloc ?_ ?_ (hpc ▸ rfl) ?_ rfl
  · exact fun st hd => absurd hd (hs.not_dead st (by simp [Dead]))
  · intro ht
    exact absurd ((hres r rfl).2 ht) hr
  · exact ⟨hcur, hres, rfl, ⟨hloc, by rw [setState_state]; exact Or.inl rfl⟩, by simp [Pc.pushes]⟩

theorem Placed.reaperLoop (hpc : (σ.hart h).pc = .run .reaper) :
    Placed strict none (reaperLoop h σ) loc := by
  rw [Sched.reaperLoop, P.withCtx_eq hh]
  split
  · next t queue hq =>
    let σ' := ({ σ with cleaned := σ.cleaned ++ [t] } : System).setCore h fun c =>
      { c with cleanupQueue := queue }
    have hd := P.cleanup h t (by simp [hq])
    have hcore : ∀ k, (σ'.core k).idleTask = (σ.core k).idleTask ∧
        (σ'.core k).currentTask = (σ.core k).currentTask ∧
        ∀ t' ∈ (σ'.core k).cleanupQueue,
          t' ∈ (σ.core k).cleanupQueue ∨ Doomed strict σ.harts σ.task loc t' := by
      intro k
      by_cases hk : k = h
      · subst hk
        simp only [σ', System.setCore, Function.update_self, true_and]
        exact fun t' ht' => Or.inl (hq ▸ List.mem_cons_of_mem t ht')
      · simp only [σ', System.setCore, Function.update_of_ne hk, true_and]
        exact fun _ => Or.inl
    have hocc : ∀ q t', σ'.occ t' q = σ.occ t' q :=
      fun q t' => occ_setCore (fun _ => rfl) (fun _ => rfl)
    have P' := P.data σ' rfl rfl rfl hocc hcore (fun _ => ⟨rfl, fun _ => Or.inl⟩) (fun _ => id)
      (fun _ _ ht _ => ht)
    obtain ⟨hcur, hres, -, hstage, -⟩ := P'.at hh hpc
    have hres' : ∀ r ∈ (Pc.cleanupExited t).resume, r = .idle ↔ (σ'.hart h).tp = 2 * h := by
      simpa [Pc.resume] using hres
    refine P'.setPc hh (hpc ▸ rfl) ⟨hcur, hres', trivial, hstage, by simp [Pc.pushes]⟩ ?_
    intro t' ht'
    obtain rfl : t = t' := by simpa [Pc.doomed] using ht'
    exact hd
  · exact P.sleepCurrentTask hh 5000 (by simp) hpc

theorem Placed.sleepTime {ctx ms : ℕ} {r : Resume} (hpc : (σ.hart h).pc = .sleepTime ctx ms r) :
    Placed strict none (sleepTime h ctx ms r σ) loc := by
  rw [Sched.sleepTime]
  cases sleepUntil σ.time ms with
  | none =>
    exact P.setPc hh (hpc ▸ rfl)
      ⟨(P.at hh hpc).current, by simp [Pc.resume], trivial, trivial, by simp [Pc.pushes]⟩
      (by simp [Pc.doomed])
  | some wakeUpAt =>
    have P' : Placed strict none (σ.setTask (σ.current ctx) fun x =>
        { x with wakeUpAt := wakeUpAt }) loc := P.setTask rfl fun _ => Or.inl
    obtain ⟨hcur, hres, hctx, hstage, -⟩ := P'.at hh hpc
    exact P'.setPc hh (hpc ▸ rfl) ⟨hcur, hres, hctx, hstage, by simp [Pc.pushes]⟩
      (by simp [Pc.doomed])

theorem Placed.timerCheck {ctx now last : ℕ} {woke : Bool} {r : Resume}
    (hpc : (σ.hart h).pc = .timerCheck ctx now last woke r) :
    Placed strict none (timerCheck h ctx now last woke r σ) loc := by
  obtain ⟨hcur, hres, hctx, ⟨hloc, hs⟩, -⟩ := P.at hh hpc
  rw [Sched.timerCheck]
  split
  · refine P.setPc hh (hpc ▸ rfl) ⟨hcur, hres, trivial, Or.inl ⟨hloc, ?_⟩, by simp [Pc.pushes]⟩
      (by simp [Pc.doomed])
    exact hs.imp Or.inr fun hs => Or.inr hs.2
  · exact P.setPc hh (hpc ▸ rfl) ⟨hcur, hres, trivial, ⟨hloc, hs⟩, by simp [Pc.pushes]⟩
      (by simp [Pc.doomed])

theorem Placed.blockOnExternalIrq {r : Resume} (hr : r ≠ .idle) (hpc : (σ.hart h).pc = .run r) :
    Placed strict none (blockOnExternalIrq h σ) loc := by
  obtain ⟨hcur, hres, -, ⟨hloc, hs⟩, -⟩ := P.at hh hpc
  have htp : (σ.hart h).tp ≠ 2 * h := fun ht => hr ((hres r rfl).2 ht)
  rw [Sched.blockOnExternalIrq, P.withCtx_eq hh, hcur]
  refine P.mark hh hloc ?_ (fun ht => absurd ht htp) (hpc ▸ rfl) ?_ rfl
  · exact fun st hd => absurd hd (hs.not_dead st (by simp [Dead]))
  · exact ⟨hcur, by simpa [Pc.resume] using htp, rfl,
      ⟨hloc, by rw [setState_state]; exact Or.inl rfl⟩, by simp [Pc.pushes]⟩

theorem Placed.enqueueIdx {t : Pid} {k : After} (hpc : (σ.hart h).pc = .enqueueIdx t k) :
    Placed strict none (enqueueIdx h t k σ) loc := by
  rw [Sched.enqueueIdx]
  have P' : Placed strict none { σ with
      lastRqHartIdx := if σ.lastRqHartIdx + 1 ≥ σ.harts then 0 else σ.lastRqHartIdx + 1 } loc :=
    P.data _ rfl rfl rfl (fun _ _ => rfl) (fun _ => ⟨rfl, rfl, fun _ => Or.inl⟩)
      (fun _ => ⟨rfl, fun _ => Or.inl⟩) (fun _ => id) (fun _ _ ht _ => ht)
  obtain ⟨hcur, hres, -, hstage, hpush⟩ := P'.at hh hpc
  refine P'.setPc hh (hpc ▸ rfl) ⟨hcur, ?_, ?_, ?_, hpush⟩ (by simp [Pc.doomed])
  · cases k <;> exact hres
  · simp only [Pc.Here]
    split <;> omega
  · cases k <;> exact hstage

end Life

end Efiks.Sched

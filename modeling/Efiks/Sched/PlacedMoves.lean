import Efiks.Sched.PlacedSteps

/-!
# Steps that move tasks

One lemma for each step of the machine in which a task is made, put into a queue, taken out of
one, or switched to.
-/
namespace Efiks.Sched

section Queues

variable {strict : Prop} {h : ℕ} {σ σ' : System} {loc : Pid → Loc}
variable (P : Placed strict none σ loc) (hh : h < σ.harts)
include P hh

omit hh in
theorem Placed.ne_idle (hk : h < σ.harts) {x : Pid} (hx : ¬ (loc x).IsIdle h) : x ≠ 2 * h := by
  rintro rfl
  exact hx (P.idle h hk).1

theorem Placed.ne_tp {x : Pid} (hx : ∀ q, loc x ≠ .on h q) : (σ.hart h).tp ≠ x := by
  rintro rfl
  obtain ⟨q, hq⟩ := P.tp h hh (by simp)
  exact hx q hq

theorem Placed.loc_of_hold {x : Pid} {y : Hold} {pc : Pc} (hpc : (σ.hart h).pc = pc)
    (hhold : pc.hold = some (y, x)) : loc x = .held h y :=
  (P.held x h y (by simp)).2 ⟨hh, hpc ▸ hhold⟩

/-- The hart goes on to `pc` after it has moved the task `x` to `l`. -/
theorem Placed.close_move (hrest : SameCores h σ σ') {x : Pid} {l : Loc} {pc : Pc}
    (P' : Placed strict (some h) σ' (Function.update loc x l))
    (htp : x = (σ.hart h).tp ↔ ∃ q, l = .on h q)
    (hheld : ∀ y, l = .held h y ↔ pc.hold = some (y, x))
    (hheld' : ∀ t y, t ≠ x → (pc.hold = some (y, t) ↔ (σ.hart h).pc.hold = some (y, t)))
    (hok : HartOk strict σ.harts h σ'.task (Function.update loc x l) (σ'.current h)
      (σ.hart h).tp pc)
    (hdoomed : pc.doomed = none) :
    Placed strict none (σ'.setPc h pc) (Function.update loc x l) := by
  apply P.close_to hh hrest P' _ _ _ hok (by simp [hdoomed])
  · by_cases hx : x = (σ.hart h).tp
    · obtain ⟨q, hq⟩ := htp.1 hx
      exact ⟨q, by simp [← hx, hq]⟩
    · rw [Function.update_of_ne (Ne.symm hx)]
      exact P.tp h hh (by simp)
  · intro t q hl hne
    by_cases ht : t = x
    · subst ht
      rw [Function.update_self] at hl
      exact absurd (htp.2 ⟨q, hl⟩) hne
    · rw [Function.update_of_ne ht] at hl
      exact ⟨q, hl⟩
  · intro t y
    by_cases ht : t = x
    · subst ht
      rw [Function.update_self]
      exact hheld y
    · rw [Function.update_of_ne ht, hheld' t y ht, P.held t h y (by simp)]
      simp [hh]

/-- The hart puts its own task into a queue and is about to leave it. -/
theorem Placed.publish (hrest : SameRest h σ σ') (htask : σ'.task = σ.task)
    (hcur : σ'.current h = (σ.hart h).tp) {q : Queue} {r : Resume}
    (hloc : loc (σ.hart h).tp = .on h none) (htp : (σ.hart h).tp ≠ 2 * h) (hr : r ≠ .idle)
    (hhold : (σ.hart h).pc.hold = none) (hhome : q.Home σ.harts (some h))
    (hstate : Near strict (σ.task (σ.hart h).tp).state q.state) (hrun : ∀ k, q ≠ .run k)
    (hocc : ∀ q' t, σ'.occ t q' = σ.occ t q' + if t = (σ.hart h).tp ∧ q' = q then 1 else 0) :
    Placed strict none (σ'.setPc h (.schedule r))
      (Function.update loc (σ.hart h).tp (.on h (some q))) := by
  have hok := P.task (σ.hart h).tp
  rw [hloc] at hok
  obtain ⟨hsaved, hctx, -⟩ := hok
  have P' : Placed strict (some h) σ' (Function.update loc (σ.hart h).tp (.on h (some q))) := by
    refine (P.enter h).move hrest (fun t ht => ⟨by rw [htask], fun q' => ?_⟩) (fun q' => ?_) ?_
      (by simp [hloc, Loc.Created]) (by simp [Loc.Created])
    · simp [hocc, ht]
    · simp only [hocc, P.occ, hloc, Loc.queue]
      by_cases hq : q' = q
      · simp [hq]
      · simp [hq, Ne.symm hq]
    · refine ⟨by simp [hloc, Loc.Own], rfl, ?_, by simp [Loc.Created],
        fun _ _ => by rw [htask]; exact id, fun ht => absurd ht htp⟩
      rw [htask]
      refine ⟨hsaved, hctx, fun q' hq' => ?_⟩
      obtain rfl : q = q' := by simpa using hq'
      exact ⟨hctx ▸ hhome, hstate⟩
  refine P.close_move hh hrest.toSameCores P' (by simp) (by simp [Pc.hold]) ?_ ?_ rfl
  · intro t y _
    rw [hhold]
    simp [Pc.hold]
  refine ⟨hcur, ?_, trivial, ?_, by simp [Pc.pushes]⟩
  · simp [Pc.resume, hr, htp]
  · exact Or.inr ⟨q, Function.update_self _ _ _, hrun⟩

omit hh in
/-- A task in a queue that no hart executes is only in the queue. -/
theorem Placed.loc_of_occ {x : Pid} {q : Queue} (hx : σ.occ x q ≠ 0)
    (hout : ∀ k < σ.harts, (σ.hart k).tp ≠ x) : loc x = .queued q := by
  have hq : (loc x).queue = some q := by
    by_contra hq
    exact hx (by rw [P.occ, if_neg hq])
  cases hl : loc x with
  | on k q' =>
    obtain ⟨hk, htp⟩ := P.on x k q' (by simp) hl
    exact absurd htp (hout k hk)
  | queued q' =>
    rw [hl] at hq
    simpa [Loc.queue] using hq
  | _ => simp [hl, Loc.queue] at hq

/-- The hart takes a task that no hart executes out of a queue. -/
theorem Placed.take (hrest : SameRest h σ σ') (htask : σ'.task = σ.task)
    (hcur : σ'.current h = (σ.hart h).tp) {x : Pid} {q : Queue} {pc pc' : Pc}
    (hxloc : loc x = .queued q) (hpc : (σ.hart h).pc = pc) (hhold : pc.hold = none)
    (hhold' : pc'.hold = some (.carried, x)) (hdoomed : pc'.doomed = none)
    (hok : ∀ loc' : Pid → Loc, loc' (σ.hart h).tp = loc (σ.hart h).tp →
      HartOk strict σ.harts h σ.task loc' (σ.hart h).tp (σ.hart h).tp pc')
    (hocc : ∀ q' t, σ'.occ t q' + (if t = x ∧ q' = q then 1 else 0) = σ.occ t q') :
    Placed strict none (σ'.setPc h pc') (Function.update loc x (.held h .carried)) := by
  have hxok := P.task x
  have htp : (σ.hart h).tp ≠ x := P.ne_tp hh (by simp [hxloc])
  rw [hxloc] at hxok
  have P' : Placed strict (some h) σ' (Function.update loc x (.held h .carried)) := by
    refine (P.enter h).move hrest (fun t ht => ⟨by rw [htask], fun q' => ?_⟩) (fun q' => ?_) ?_
      (by simp [hxloc, Loc.Created]) (by simp [Loc.Created])
    · simpa [ht] using hocc q' t
    · have := hocc q' x
      simp only [P.occ, hxloc, Loc.queue] at this ⊢
      by_cases hq : q' = q
      · simpa [hq] using this
      · simpa [hq, Ne.symm hq] using this
    · refine ⟨by simp [hxloc, Loc.Own], rfl, ?_, by simp [Loc.Created],
        fun _ _ => by rw [htask]; exact id, fun ht => ?_⟩
      · rw [htask]
        exact ⟨hxok.1, hxok.2.1, fun st => hxok.2.2.2.not_dead st q.not_dead⟩
      · exact absurd ht (P.ne_idle hh (by simp [hxloc, Loc.IsIdle]))
  refine P.close_move hh hrest.toSameCores P' (by simp [Ne.symm htp]) ?_ ?_ ?_ hdoomed
  · intro y
    rw [hhold']
    simp [eq_comm]
  · intro t y ht
    rw [hhold', hpc, hhold]
    simp [Ne.symm ht]
  · rw [htask, hcur]
    exact hok _ (Function.update_of_ne htp _ _)

theorem Placed.irqPush {ctx : ℕ} (hpc : (σ.hart h).pc = .irqPush ctx) :
    ∃ loc', Placed strict none (irqPush h ctx σ) loc' := by
  obtain ⟨hcur, hres, hctx, ⟨hloc, hs⟩, -⟩ := P.at hh hpc
  have htp : (σ.hart h).tp ≠ 2 * h := fun ht => absurd ((hres .user rfl).2 ht) (by simp)
  rw [Sched.irqPush, show ctx = h from hctx, hcur]
  let queue := σ.irqWaitQueue uart0Irq ++ [(σ.hart h).tp]
  have hrest : SameRest h σ
      { σ with irqWaitQueue := Function.update σ.irqWaitQueue uart0Irq queue } :=
    ⟨⟨rfl, rfl, fun _ => ⟨rfl, rfl, fun _ => rfl⟩⟩, rfl, rfl, fun _ => rfl⟩
  refine ⟨_, P.publish hh hrest rfl hcur
    (q := .irq uart0Irq) (r := .console) hloc htp (by simp) (hpc ▸ rfl) trivial hs (by simp) ?_⟩
  intro q t
  cases q with
  | irq i =>
    by_cases hi : i = uart0Irq
    · subst hi
      simp [System.occ, queue, List.count_singleton, eq_comm (a := t)]
    · simp [System.occ, hi]
  | _ => simp [System.occ]

theorem Placed.sleepPush {ctx : ℕ} {r : Resume} (hpc : (σ.hart h).pc = .sleepPush ctx r) :
    ∃ loc', Placed strict none (sleepPush h ctx r σ) loc' := by
  obtain ⟨hcur, hres, hctx, ⟨hloc, hs⟩, -⟩ := P.at hh hpc
  have htp : (σ.hart h).tp ≠ 2 * h := by
    -- an idle task never sleeps
    intro ht
    have hrun := (P.idle h hh).2
    rw [← ht] at hrun
    rcases hs with hs | ⟨-, hs⟩ <;> simp [hs, Runnable] at hrun
  have hr : r ≠ .idle := fun hr => htp ((hres r rfl).1 hr)
  rw [Sched.sleepPush, show ctx = h from hctx, hcur]
  have hrest : SameRest h σ (σ.setCore h fun c => { c with sleepingTasks := c.sleepingTasks ++
      [((σ.task (σ.hart h).tp).wakeUpAt, (σ.hart h).tp)] }) :=
    .setCore σ h _ fun _ => ⟨rfl, rfl, fun _ => rfl⟩
  refine ⟨_, P.publish hh hrest rfl ?_
    (q := .sleep h) hloc htp hr (hpc ▸ rfl) ⟨rfl, hh⟩ hs (by simp) ?_⟩
  · simpa [System.setCore, System.current, Pc.current] using hcur
  · intro q t
    by_cases hq : q = .sleep h
    · subst hq
      simp [System.occ, System.setCore, List.count_singleton, eq_comm (a := t)]
    · rw [occ_setCore (fun _ => rfl) (absurd · hq)]
      simp [hq]

/-- A task that the hart carries is made ready. -/
theorem Placed.ready {x : Pid} {pc : Pc} {k : After} (hpc : (σ.hart h).pc = pc)
    (hhold : pc.hold = some (.carried, x)) (hres : (Pc.enqueueIdx x k).resume = pc.resume)
    (hstage : ∀ s l, StageOk strict h (σ.hart h).tp s l pc →
      StageOk strict h (σ.hart h).tp s l (.enqueueIdx x k))
    (hcurrent : pc.current (σ.hart h).tp = (σ.hart h).tp) :
    Placed strict none ((σ.setState x .ready).setPc h (.enqueueIdx x k)) loc := by
  have hx := P.loc_of_hold hh hpc hhold
  have htp : (σ.hart h).tp ≠ x := P.ne_tp hh (by simp [hx])
  have hok := P.task x
  rw [hx] at hok
  obtain ⟨hsaved, hcontext, hlive⟩ := hok
  have P' : Placed strict (some h) (σ.setState x .ready) loc := by
    refine (P.enter h).setState ?_ ?_ ?_ fun hidle => ?_
    · simp [hx, Loc.Own]
    · rw [hx]
      exact ⟨hsaved, hcontext, fun _ => by simp [Dead]⟩
    · exact fun st hd => absurd hd (hlive st)
    · exact absurd hidle (P.ne_idle hh (by simp [hx, Loc.IsIdle]))
  refine P.close_same hh (SameRest.setState σ x .ready).toSameCores P' ?_ ?_ (by simp [Pc.doomed])
  · rw [hpc, hhold]
    rfl
  · obtain ⟨hcur, hres', -, hst, -⟩ := P.at hh hpc
    refine ⟨hcur.trans hcurrent, hres ▸ hres', trivial, ?_, ?_⟩
    · simp only [System.setState, System.setTask, Function.update_of_ne htp]
      exact hstage _ _ hst
    · intro t ht
      obtain rfl : x = t := by simpa [Pc.pushes] using ht
      rw [setState_state]
      exact Or.inl rfl

theorem Placed.irqReady {x : Pid} {r : Resume} (hpc : (σ.hart h).pc = .irqReady x r) :
    Placed strict none (irqReady h x r σ) loc :=
  P.ready hh hpc rfl rfl (fun _ _ => id) rfl

theorem Placed.exitReady {x : Pid} (hpc : (σ.hart h).pc = .exitReady x) :
    Placed strict none (exitReady h x σ) loc :=
  P.ready hh hpc rfl rfl (fun _ _ => id) rfl

theorem Placed.enqueuePush {x : Pid} {idx : ℕ} {k : After}
    (hpc : (σ.hart h).pc = .enqueuePush x idx k) :
    ∃ loc', Placed strict none (enqueuePush h x idx k σ) loc' := by
  obtain ⟨hcur, hres, hidx, hstage, hpush⟩ := P.at hh hpc
  have hx : loc x = .held h .carried := P.loc_of_hold hh hpc rfl
  have htp : (σ.hart h).tp ≠ x := P.ne_tp hh (by simp [hx])
  have hok := P.task x
  rw [hx] at hok
  obtain ⟨hsaved, hcontext, hlive⟩ := hok
  let σ' := (σ.setTask x fun y => { y with perCpuCtx := some idx }).setCore idx fun c =>
    { c with runqueue := c.runqueue ++ [x] }
  have hrest : SameRest h σ σ' :=
    .trans (.setTask σ x (fun y => { y with perCpuCtx := some idx }) fun _ => rfl)
      (.setCore _ idx _ fun _ => ⟨rfl, rfl, fun _ => rfl⟩)
  have hself : σ'.task x = { σ.task x with perCpuCtx := some idx } := by
    simp [σ', System.setCore, System.setTask]
  have hother : ∀ t, t ≠ x → σ'.task t = σ.task t := by
    intro t ht
    simp [σ', System.setCore, System.setTask, Function.update_of_ne ht]
  have hocc : ∀ q t, σ'.occ t q = σ.occ t q + if t = x ∧ q = .run idx then 1 else 0 := by
    intro q t
    by_cases hq : q = .run idx
    · subst hq
      simp [σ', System.occ, System.setCore, System.setTask, List.count_singleton, eq_comm (a := t)]
    · rw [show σ'.occ t q = σ.occ t q from occ_setCore (absurd · hq) fun _ => rfl]
      simp [hq]
  have P' : Placed strict (some h) σ' (Function.update loc x (.queued (.run idx))) := by
    refine (P.enter h).move hrest (fun t ht => ⟨hother t ht, fun q => ?_⟩) (fun q => ?_) ?_
      (by simp [hx, Loc.Created]) (by simp [Loc.Created])
    · simp [hocc, ht]
    · simp [hocc, P.occ, hx, Loc.queue, eq_comm]
    · refine ⟨by simp [hx, Loc.Own], trivial, ?_, by simp [Loc.Created], ?_, fun hidle => ?_⟩
      · rw [hself]
        exact ⟨hsaved, hcontext, ⟨rfl, hidx⟩, hpush x rfl⟩
      · rw [hself]
        exact fun _ _ => id
      · exact absurd hidle (P.ne_idle hh (by simp [hx, Loc.IsIdle]))
  have hcur' : σ'.current h = (σ.hart h).tp := by
    refine Eq.trans ?_ hcur
    by_cases hj : h = idx
    · subst hj
      simp [σ', System.current, System.setCore, System.setTask]
    · simp [σ', System.current, System.setCore, System.setTask, hj]
  refine ⟨_, P.close_move hh hrest.toSameCores P' ?_ ?_ ?_ ?_ (by cases k <;> rfl)⟩
  · simp [Ne.symm htp]
  · intro y
    cases k <;> simp [After.pc, Pc.hold]
  · intro t y ht
    rw [hpc]
    cases k <;> simp [After.pc, Pc.hold, Ne.symm ht]
  · have hl : Function.update loc x (.queued (.run idx)) (σ.hart h).tp = loc (σ.hart h).tp :=
      Function.update_of_ne htp _ _
    cases k with
    | ret r =>
      refine ⟨hcur', hres, trivial, ?_, by simp [After.pc, Pc.pushes]⟩
      rw [hl, hother _ htp]
      exact hstage
    | schedule =>
      refine ⟨hcur', hres, trivial, ?_, by simp [After.pc, Pc.pushes]⟩
      rw [hl, hother _ htp]
      exact Or.inl ⟨hstage.1, Or.inr hstage.2⟩

theorem Placed.exitRemove {p : Pid} (hpc : (σ.hart h).pc = .exitRemove p)
    (hwake : p ∈ σ.waitingTasks → ∀ k < σ.harts, (σ.hart k).tp ≠ p) :
    ∃ loc', Placed strict none (exitRemove h p σ) loc' := by
  obtain ⟨hcur, hres, -, ⟨hloc, hdead⟩, -⟩ := P.at hh hpc
  rw [Sched.exitRemove]
  split
  · next hp =>
    have hxloc : loc p = .queued .wait := P.loc_of_occ (by simp [System.occ, hp]) (hwake hp)
    have hrest : SameRest h σ { σ with waitingTasks := σ.waitingTasks.erase p } :=
      ⟨⟨rfl, rfl, fun _ => ⟨rfl, rfl, fun _ => rfl⟩⟩, rfl, rfl, fun _ => rfl⟩
    refine ⟨_, P.take hh hrest rfl hcur hxloc hpc rfl rfl rfl (fun loc' hl => ?_) fun q t => ?_⟩
    · refine ⟨rfl, hres, trivial, ?_, by simp [Pc.pushes]⟩
      rw [hl]
      exact ⟨hloc, hdead⟩
    · cases q with
      | wait =>
        by_cases ht : t = p
        · simp [System.occ, ht, hp]
        · simp [System.occ, ht]
      | _ => simp [System.occ]
  · refine ⟨loc, P.setPc hh (hpc ▸ rfl) ⟨hcur, hres, trivial, ?_, by simp [Pc.pushes]⟩
      (by simp [Pc.doomed])⟩
    exact Or.inl ⟨hloc, Or.inr hdead⟩

omit hh in
/-- A task in a queue has owners, unless it was taken for a zombie. -/
theorem Placed.upgrade {x : Pid} {q : Queue} (hx : loc x = .queued q) (st : strict) :
    σ.upgrade x = true := by
  have hok := P.task x
  rw [hx] at hok
  have htable := P.live st x (by simp [hx, Loc.Created]) (hok.2.2.2.not_dead st q.not_dead)
  simp [System.upgrade, htable]

theorem Placed.irqPop {irq : ℕ} {r : Resume} (hpc : (σ.hart h).pc = .run r)
    (hwake : ∀ t ∈ (σ.irqWaitQueue irq).head?, ∀ k < σ.harts, (σ.hart k).tp ≠ t) :
    ∃ loc', Placed strict none (irqPop h irq r σ) loc' := by
  obtain ⟨hcur, hres, -, hstage, -⟩ := P.at hh hpc
  rw [Sched.irqPop]
  split
  · exact ⟨loc, P⟩
  · next t queue hq =>
    have hxloc : loc t = .queued (.irq irq) :=
      P.loc_of_occ (by simp [System.occ, hq]) (hwake t (by simp [hq]))
    let σ' : System := { σ with irqWaitQueue := Function.update σ.irqWaitQueue irq queue }
    have hrest : SameRest h σ σ' :=
      ⟨⟨rfl, rfl, fun _ => ⟨rfl, rfl, fun _ => rfl⟩⟩, rfl, rfl, fun _ => rfl⟩
    have hocc : ∀ q' t', σ'.occ t' q' + (if t' = t ∧ q' = .irq irq then 1 else 0) =
        σ.occ t' q' := by
      intro q' t'
      cases q' with
      | irq i =>
        by_cases hi : i = irq
        · subst hi
          simp [σ', System.occ, hq, List.count_cons, eq_comm (a := t')]
        · simp [σ', System.occ, hi]
      | _ => simp [σ', System.occ]
    split
    · refine ⟨_, P.take hh hrest rfl hcur hxloc hpc rfl rfl rfl (fun loc' hl => ?_) hocc⟩
      refine ⟨rfl, hres, trivial, ?_, by simp [Pc.pushes]⟩
      rw [hl]
      exact hstage
    · next hup =>
      -- nobody owns the task any more, so its entry is dropped
      have hst : ¬ strict := fun st => hup (P.upgrade hxloc st)
      have hok := P.task t
      rw [hxloc] at hok
      have htp : (σ.hart h).tp ≠ t := P.ne_tp hh (by simp [hxloc])
      have P' : Placed strict (some h) σ' (Function.update loc t .lost) := by
        refine (P.enter h).move hrest (fun t' ht => ⟨rfl, fun q' => ?_⟩) (fun q' => ?_) ?_
          (by simp [hxloc, Loc.Created]) (by simp [Loc.Created])
        · simpa [ht] using hocc q' t'
        · have := hocc q' t
          rw [P.occ, hxloc] at this
          by_cases hq' : q' = .irq irq
          · simpa [hq', Loc.queue] using this
          · simpa [hq', Ne.symm hq', Loc.queue] using this
        · exact ⟨by simp [hxloc, Loc.Own], trivial, ⟨hok.1, fun st => absurd st hst⟩,
            by simp [Loc.Created], fun _ _ => id,
            fun ht => absurd ht (P.ne_idle hh (by simp [hxloc, Loc.IsIdle]))⟩
      have hclose : Placed strict none (σ'.setPc h (.run r)) (Function.update loc t .lost) := by
        refine P.close_move hh hrest.toSameCores P' (by simp [Ne.symm htp]) (by simp [Pc.hold])
          (by simp [hpc, Pc.hold]) ⟨hcur, hres, trivial, ?_, by simp [Pc.pushes]⟩ rfl
        rw [Function.update_of_ne htp]
        exact hstage
      rw [← hpc, show σ'.setPc h (σ.hart h).pc = σ' from setPc_self σ' h] at hclose
      exact ⟨_, hclose⟩

theorem Placed.waitCheck {ctx : ℕ} (hpc : (σ.hart h).pc = .waitCheck ctx) :
    ∃ loc', Placed strict none (waitCheck h ctx σ) loc' := by
  obtain ⟨hcur, hres, hctx, ⟨hloc, hs⟩, -⟩ := P.at hh hpc
  rw [Sched.waitCheck]
  split
  · next i c hc =>
    obtain ⟨j, hj, hc'⟩ := Option.bind_eq_some_iff.1 hc
    obtain ⟨c', hget, htable, hzombie⟩ := zombieChild_eq_some hj
    obtain ⟨rfl, rfl⟩ : j = i ∧ c' = c := by simpa [hget] using hc'
    have hd : Doomed strict σ.harts σ.task loc c' :=
      P.doomed_child (List.mem_of_getElem? hget) htable fun _ => Or.inl hzombie
    have P₁ := P.removeChild (σ.current ctx) j
    have hd₁ : Doomed strict σ.harts (σ.removeChild (σ.current ctx) j).task loc c' :=
      removeChild_doomed _ _ hd
    have P₂ := P₁.kill hd₁
    obtain ⟨hcur₂, hres₂, hctx₂, hstage₂, -⟩ := P₂.at hh hpc
    refine ⟨loc, P₂.enqueueForReaper hh ?_ (hpc ▸ rfl)
      ⟨hcur₂, hres₂, hctx₂, hstage₂, by simp [Pc.pushes]⟩ rfl⟩
    exact ⟨hd₁.1, hd₁.2.1, fun _ => by rw [setState_state]; exact Or.inr rfl⟩
  · have htp : (σ.hart h).tp ≠ 2 * h := fun ht => absurd ((hres .user rfl).2 ht) (by simp)
    obtain rfl : ctx = h := hctx
    rw [hcur]
    have hrest : SameRest ctx σ
        { σ with waitingTasks := insert (σ.hart ctx).tp σ.waitingTasks } :=
      ⟨⟨rfl, rfl, fun _ => ⟨rfl, rfl, fun _ => rfl⟩⟩, rfl, rfl, fun _ => rfl⟩
    have hout : (σ.hart ctx).tp ∉ σ.waitingTasks := by
      have := P.occ .wait (σ.hart ctx).tp
      simpa [System.occ, hloc, Loc.queue] using this
    refine ⟨_, P.publish hh hrest rfl hcur (q := .wait) (r := .wait ctx) hloc htp (by simp)
      (hpc ▸ rfl) trivial hs (by simp) fun q t => ?_⟩
    cases q with
    | wait =>
      by_cases ht : t = (σ.hart ctx).tp
      · simp [System.occ, ht, hout]
      · simp [System.occ, ht]
    | _ => simp [System.occ]

end Queues

section Making

variable {strict : Prop} {h : ℕ} {σ : System} {loc : Pid → Loc}
variable (P : Placed strict none σ loc) (hh : h < σ.harts)
include P hh

theorem Placed.newTask (hpc : (σ.hart h).pc = .run .user) :
    ∃ loc', Placed strict none (newTask h σ) loc' := by
  obtain ⟨hcur, hres, -, hstage, -⟩ := P.at hh hpc
  have hcur' : σ.current h = (σ.hart h).tp := hcur
  rw [Sched.newTask, P.withCtx_eq hh, hcur']
  have hcounter := P.counter
  have habsent : loc σ.pidCounter = .absent := (P.absent _).2 le_rfl
  have htp : (σ.hart h).tp ≠ σ.pidCounter := P.ne_tp hh (by simp [habsent])
  let σ' := ({ σ with pidCounter := σ.pidCounter + 1 } : System).setTask (σ.hart h).tp fun x =>
    { x with children := x.children ++ [σ.pidCounter] }
  let loc' := Function.update loc σ.pidCounter (.held h .reserved)
  have hrest : SameCores h σ σ' := ⟨rfl, rfl, fun _ => ⟨rfl, rfl, fun _ => rfl⟩⟩
  have hself : σ'.task (σ.hart h).tp = { σ.task (σ.hart h).tp with
      children := (σ.task (σ.hart h).tp).children ++ [σ.pidCounter] } := by
    simp [σ', System.setTask]
  have hother : ∀ t, t ≠ (σ.hart h).tp → σ'.task t = σ.task t := by
    intro t ht
    simp [σ', System.setTask, Function.update_of_ne ht]
  have hview : ∀ t, (σ'.task t).view = (σ.task t).view := by
    intro t
    by_cases ht : t = (σ.hart h).tp
    · rw [ht, hself]
      rfl
    · rw [hother t ht]
  have hstate : ∀ t, (σ'.task t).state = (σ.task t).state := fun t => congrArg Prod.fst (hview t)
  have hloc : ∀ t, t ≠ σ.pidCounter → loc' t = loc t := fun t ht => Function.update_of_ne ht _ _
  have hlocSelf : loc' σ.pidCounter = .held h .reserved := Function.update_self _ _ _
  have hcreated : ∀ t, (loc' t).Created → (loc t).Created := by
    intro t hc
    by_cases ht : t = σ.pidCounter
    · rw [ht, hlocSelf] at hc
      exact hc.elim
    · rwa [hloc t ht] at hc
  have P' : Placed strict (some h) σ' loc' := by
    apply (P.enter h).rearrange hrest
    · intro q t
      refine Eq.trans (P.occ q t) ?_
      by_cases ht : t = σ.pidCounter
      · rw [ht, hlocSelf, habsent]
        rfl
      · rw [hloc t ht]
    · intro t
      by_cases ht : t = σ.pidCounter
      · subst ht
        rw [hlocSelf, habsent]
        refine Or.inr ⟨trivial, rfl, trivial, id, ?_, fun hidle => ?_⟩
        · rw [hother _ (Ne.symm htp)]
          exact fun _ _ => id
        · exact absurd hidle (Nat.ne_of_gt (by omega))
      · rw [hloc t ht]
        by_cases htp' : t = (σ.hart h).tp
        · subst htp'
          obtain ⟨q, hq⟩ := P.tp h hh (by simp)
          refine Or.inr ⟨by simp [hq, Loc.Own], by simp [hq, Loc.Own], (P.task _).congr (hview _),
            id, ?_, fun hidle => ?_⟩
          · rw [hstate]
            exact fun _ _ => id
          · rw [hstate, hidle]
            exact P.idle h hh
        · exact Or.inl ⟨hother t htp', rfl⟩
    · intro t
      change _ ↔ σ.pidCounter + 1 ≤ t
      by_cases ht : t = σ.pidCounter
      · rw [ht, hlocSelf]
        simp
      · rw [hloc t ht, P.absent]
        exact ⟨fun hle => Nat.lt_of_le_of_ne hle (Ne.symm ht), Nat.le_of_succ_le⟩
    · exact Nat.le_succ _
    · intro t c hc
      by_cases ht : t = (σ.hart h).tp
      · rw [ht, hself] at hc
        rcases List.mem_append.1 hc with hc | hc
        · exact Or.inl (ht ▸ hc)
        · rw [List.mem_singleton.1 hc]
          exact Or.inr hcounter
      · rw [hother t ht] at hc
        exact Or.inl hc
    · exact fun t ht => Or.inl ht
    · intro st t hc hd
      rw [hstate t] at hd
      exact Or.inl ⟨hcreated t hc, hd, Finset.Subset.refl _⟩
  refine ⟨_, P.close_move hh hrest P' (by simp [Ne.symm htp]) ?_ ?_ ?_ rfl⟩
  · simp [Pc.hold, eq_comm]
  · intro t y ht
    simp [hpc, Pc.hold, Ne.symm ht]
  · refine ⟨hcur, hres, trivial, ?_, by simp [Pc.pushes]⟩
    rw [Function.update_of_ne htp, hstate]
    exact hstage

theorem Placed.addTask {pid parent : Pid} (hpc : (σ.hart h).pc = .addTask pid parent) :
    ∃ loc', Placed strict none (addTask h pid parent σ) loc' := by
  obtain ⟨hcur, hres, -, hstage, -⟩ := P.at hh hpc
  have hx : loc pid = .held h .reserved := P.loc_of_hold hh hpc rfl
  have htp : (σ.hart h).tp ≠ pid := P.ne_tp hh (by simp [hx])
  let task : Task :=
    { state := .ready, parent := some parent, children := [], exitCode := -1, wakeUpAt := 0,
      perCpuCtx := none, context := .user, saved := true }
  let σ' := ({ σ with table := insert pid σ.table } : System).setTask pid fun _ => task
  let loc' := Function.update loc pid (.held h .carried)
  have hrest : SameCores h σ σ' := ⟨rfl, rfl, fun _ => ⟨rfl, rfl, fun _ => rfl⟩⟩
  have hself : σ'.task pid = task := by simp [σ', System.setTask]
  have hother : ∀ t, t ≠ pid → σ'.task t = σ.task t := by
    intro t ht
    simp [σ', System.setTask, Function.update_of_ne ht]
  have hloc : ∀ t, t ≠ pid → loc' t = loc t := fun t ht => Function.update_of_ne ht _ _
  have hlocSelf : loc' pid = .held h .carried := Function.update_self _ _ _
  have htable : ∀ t, t ∈ σ'.table ↔ t = pid ∨ t ∈ σ.table := fun t => Finset.mem_insert
  have P' : Placed strict (some h) σ' loc' := by
    apply (P.enter h).rearrange hrest
    · intro q t
      refine Eq.trans (P.occ q t) ?_
      by_cases ht : t = pid
      · rw [ht, hlocSelf, hx]
        rfl
      · rw [hloc t ht]
    · intro t
      by_cases ht : t = pid
      · rw [ht, hlocSelf, hself, hx]
        exact Or.inr ⟨rfl, rfl, ⟨rfl, by simp [task], fun _ => by simp [task, Dead]⟩,
          fun _ => trivial, fun _ hc => hc.elim,
          fun hidle => absurd hidle (P.ne_idle hh (by simp [hx, Loc.IsIdle]))⟩
      · exact Or.inl ⟨hother t ht, hloc t ht⟩
    · intro t
      by_cases ht : t = pid
      · have habsent := P.absent pid
        rw [hx] at habsent
        rw [ht, hlocSelf]
        exact Iff.trans (by simp) habsent
      · rw [hloc t ht]
        exact P.absent t
    · exact le_rfl
    · intro t c hc
      by_cases ht : t = pid
      · rw [ht, hself] at hc
        simp [task] at hc
      · rw [hother t ht] at hc
        exact Or.inl hc
    · intro t ht
      rcases (htable t).1 ht with ht | ht
      · rw [ht, hlocSelf]
        exact Or.inr trivial
      · exact Or.inl ht
    · intro st t hc hd
      by_cases ht : t = pid
      · exact Or.inr ((htable t).2 (Or.inl ht))
      · rw [hloc t ht] at hc
        rw [hother t ht] at hd
        exact Or.inl ⟨hc, hd, fun t ht => (htable t).2 (Or.inr ht)⟩
  refine ⟨_, P.close_move hh hrest P' (by simp [Ne.symm htp]) ?_ ?_ ?_ rfl⟩
  · simp [Pc.hold, eq_comm]
  · intro t y ht
    simp [hpc, Pc.hold, Ne.symm ht]
  · refine ⟨hcur, hres, trivial, ?_, ?_⟩
    · rw [Function.update_of_ne htp, hother _ htp]
      exact hstage
    · intro t ht
      obtain rfl : pid = t := by simpa [Pc.pushes] using ht
      rw [hself]
      exact Or.inl rfl

end Making

end Efiks.Sched

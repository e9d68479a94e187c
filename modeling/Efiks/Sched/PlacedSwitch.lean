import Efiks.Sched.PlacedMoves

/-!
# `schedule` and the timer keep the tasks in their places

`schedule` discards the entries of its run queue that are not ready, chooses a task, puts the
current one back and switches. The timer moves the tasks whose time has come from the heap to
the run queue.
-/
namespace Efiks.Sched

section Switch

variable {strict : Prop} {h : ℕ} {σ σ' : System} {loc : Pid → Loc}
variable (P : Placed strict none σ loc) (hh : h < σ.harts)
include P hh

theorem Placed.setCurrent {ctx : ℕ} {prev next : Pid} {r : Resume}
    (hpc : (σ.hart h).pc = .setCurrent ctx prev next r) :
    Placed strict none (setCurrent h ctx prev next r σ) loc := by
  obtain ⟨-, hres, hctx, hstage, -⟩ := P.at hh hpc
  rw [Sched.setCurrent, show ctx = h from hctx]
  let σ' := σ.setCore h fun c => { c with currentTask := next }
  have hrest : SameRest h σ σ' := .setCore σ h _ fun _ => ⟨rfl, rfl, fun hne => absurd rfl hne⟩
  have hocc : ∀ q t, σ'.occ t q = σ.occ t q :=
    fun q t => occ_setCore (fun _ => rfl) (fun _ => rfl)
  have P' : Placed strict (some h) σ' loc :=
    (P.enter h).relocate hrest (fun q t => (hocc q t).trans (P.occ q t))
      (fun _ => Or.inl ⟨rfl, rfl⟩) (fun _ => id) fun _ => Iff.rfl
  refine P.close_same hh hrest.toSameCores P' (hpc ▸ rfl) ?_ (by simp [Pc.doomed])
  refine ⟨?_, hres, trivial, hstage, by simp [Pc.pushes]⟩
  simp [σ', System.current, System.setCore, Pc.current]

/-- Where the task that a hart leaves is then. -/
theorem Placed.leave {prev next : Pid} {r : Resume} (hpc : (σ.hart h).pc = .switchTo prev next r) :
    ∃ l : Loc, TaskOk strict σ.harts prev { σ.task prev with context := r, saved := true } l ∧
      l.queue = (loc prev).queue ∧ l.Own h ∧ l.Created ∧ (∀ k q, l ≠ .on k q) ∧
      (∀ k y, l ≠ .held k y) ∧ (prev = 2 * h → l.IsIdle h) := by
  obtain ⟨-, hres, -, ⟨rfl, hstage⟩, -⟩ := P.at hh hpc
  have hidle : r = .idle ↔ (σ.hart h).tp = 2 * h := hres r rfl
  have hok := P.task (σ.hart h).tp
  rcases hstage with ⟨hl, ht | hd⟩ | ⟨q, hl⟩ <;> rw [hl] at hok ⊢
  · refine ⟨.idle h, ⟨ht, hh, rfl, hok.2.1, hidle.2 ht⟩, rfl, rfl, trivial, ?_⟩
    simp [Loc.IsIdle]
  · by_cases ht : (σ.hart h).tp = 2 * h
    · refine ⟨.idle h, ⟨ht, hh, rfl, hok.2.1, hidle.2 ht⟩, rfl, rfl, trivial, ?_⟩
      simp [Loc.IsIdle]
    · refine ⟨.lost, ⟨rfl, fun _ => hd⟩, rfl, trivial, trivial, ?_⟩
      simp [ht]
  · have ht : (σ.hart h).tp ≠ 2 * h := P.ne_idle hh (by simp [hl, Loc.IsIdle])
    obtain ⟨hhome, hstate⟩ := hok.2.2 q rfl
    refine ⟨.queued q, ⟨rfl, fun hr => ht (hidle.1 hr), hhome, hstate⟩, rfl, trivial, trivial, ?_⟩
    simp [ht]

theorem Placed.switchTo {prev next : Pid} {r : Resume}
    (hpc : (σ.hart h).pc = .switchTo prev next r) :
    ∃ loc', Placed strict none (switchTo h prev next r σ) loc' := by
  obtain ⟨hcur, -, -, ⟨hprev, -⟩, -⟩ := P.at hh hpc
  obtain ⟨l, hlok, hlqueue, hlown, hlcreated, hlon, hlheld, hlidle⟩ := P.leave hh hpc
  have hnext : loc next = .held h .chosen := P.loc_of_hold hh hpc rfl
  have hne : prev ≠ next := hprev ▸ P.ne_tp hh (by simp [hnext])
  obtain ⟨qprev, hqprev⟩ : ∃ q, loc prev = .on h q := hprev ▸ P.tp h hh (by simp)
  have hnextOk := P.task next
  rw [hnext] at hnextOk
  obtain ⟨hsaved, hctx, hcontext, hstate⟩ := hnextOk
  let σ' := (σ.setTask prev fun x => { x with context := r, saved := true }).setTask next fun x =>
    { x with saved := false }
  have hself : σ'.task next = { σ.task next with saved := false } := by
    simp [σ', System.setTask, Function.update_of_ne (Ne.symm hne)]
  have hold : σ'.task prev = { σ.task prev with context := r, saved := true } := by
    simp [σ', System.setTask, Function.update_of_ne hne]
  have hother : ∀ t, t ≠ prev → t ≠ next → σ'.task t = σ.task t := by
    intro t h₁ h₂
    simp [σ', System.setTask, Function.update_of_ne h₁, Function.update_of_ne h₂]
  let loc' := Function.update (Function.update loc prev l) next (.on h none)
  have hlnext : loc' next = .on h none := Function.update_self _ _ _
  have hlprev : loc' prev = l := by simp [loc', Function.update_of_ne hne]
  have hlother : ∀ t, t ≠ prev → t ≠ next → loc' t = loc t := by
    intro t h₁ h₂
    simp [loc', Function.update_of_ne h₁, Function.update_of_ne h₂]
  have hrest : SameRest h σ σ' :=
    .trans (.setTask σ prev (fun x => { x with context := r, saved := true }) fun _ => rfl)
      (.setTask _ next _ fun _ => rfl)
  have P' : Placed strict (some h) σ' loc' := by
    apply (P.enter h).relocate hrest
    · intro q t
      refine Eq.trans (P.occ q t) ?_
      by_cases h₁ : t = next
      · rw [h₁, hlnext, hnext]
        rfl
      · by_cases h₂ : t = prev
        · rw [h₂, hlprev, hlqueue]
        · rw [hlother t h₂ h₁]
    · intro t
      by_cases h₁ : t = next
      · rw [h₁, hlnext, hnext, hself]
        refine Or.inr ⟨rfl, rfl, ⟨rfl, hctx, by simp⟩, fun _ => trivial, fun _ _ => id, ?_⟩
        intro hidle
        refine ⟨Or.inr (Or.inl rfl), ?_⟩
        rw [hidle]
        exact (P.idle h hh).2
      · by_cases h₂ : t = prev
        · rw [h₂, hlprev, hold]
          refine Or.inr ⟨by simp [hqprev, Loc.Own], hlown, hlok, fun _ => hlcreated,
            fun _ _ => id, fun hidle => ⟨hlidle hidle, ?_⟩⟩
          rw [hidle]
          exact (P.idle h hh).2
        · exact Or.inl ⟨hother t h₂ h₁, hlother t h₂ h₁⟩
    · intro t ht
      by_cases h₁ : t = next
      · rw [h₁, hnext]
        trivial
      · by_cases h₂ : t = prev
        · rw [h₂, hqprev]
          trivial
        · rwa [hlother t h₂ h₁] at ht
    · intro t
      by_cases h₁ : t = next
      · rw [h₁, hnext, hlnext]
        simp
      · by_cases h₂ : t = prev
        · rw [h₂, hqprev, hlprev]
          exact iff_of_false hlcreated.ne_absent (by simp)
        · rw [hlother t h₂ h₁]
  refine ⟨loc', P'.close hh ⟨none, hlnext⟩ ?_ ?_ ?_ (by simp [Pc.doomed])⟩
  · intro t q hl
    by_contra hne'
    have h₁ : t ≠ next := Ne.symm hne'
    by_cases h₂ : t = prev
    · rw [h₂, hlprev] at hl
      exact hlon h q hl
    · rw [hlother t h₂ h₁] at hl
      exact h₂ ((P.on t h q (by simp) hl).2.symm.trans hprev.symm)
  · intro t x
    refine iff_of_false ?_ (by simp [Pc.hold])
    intro hl
    by_cases h₁ : t = next
    · rw [h₁, hlnext] at hl
      exact absurd hl (by simp)
    · by_cases h₂ : t = prev
      · rw [h₂, hlprev] at hl
        exact hlheld h x hl
      · rw [hlother t h₂ h₁] at hl
        have hhold := ((P.held t h x (by simp)).1 hl).2
        rw [hpc] at hhold
        simp only [Pc.hold, Option.some.injEq, Prod.mk.injEq] at hhold
        exact h₁ hhold.2.symm
  · refine ⟨hcur, ?_, trivial, ⟨hlnext, ?_⟩, by simp [Pc.pushes]⟩
    · rw [hself]
      simpa [Pc.resume] using hcontext
    · rw [hself]
      exact hstate

end Switch

section Queue

/-- What `schedule` takes from a run queue. -/
theorem popReady_eq_some {task : Pid → Task} {q : List Pid} {new : Pid} {queue : List Pid}
    (hq : popReady task q = some (new, queue)) :
    ∃ pre, q = pre ++ new :: queue ∧ (task new).state = .ready ∧
      ∀ t ∈ pre, (task t).state ≠ .ready := by
  induction q with
  | nil => simp [popReady] at hq
  | cons t q ih =>
    rw [popReady] at hq
    split at hq
    · next ht =>
      obtain ⟨rfl, rfl⟩ : t = new ∧ q = queue := by simpa using hq
      exact ⟨[], rfl, ht, by simp⟩
    · next ht =>
      obtain ⟨pre, rfl, hnew, hpre⟩ := ih hq
      refine ⟨t :: pre, rfl, hnew, ?_⟩
      simpa [ht] using hpre

theorem popReady_eq_none {task : Pid → Task} {q : List Pid} (hq : popReady task q = none) :
    ∀ t ∈ q, (task t).state ≠ .ready := by
  induction q with
  | nil => simp
  | cons t q ih =>
    rw [popReady] at hq
    split at hq
    · exact absurd hq (by simp)
    · next ht => simpa [ht] using ih hq

end Queue

section Schedule

variable {strict : Prop} {h : ℕ} {σ σ' : System} {loc : Pid → Loc}
variable (P : Placed strict none σ loc) (hh : h < σ.harts)
include P hh

/-- A task in a queue of the core is only there, unless the hart is about to leave it. -/
theorem Placed.loc_of_core {t : Pid} {q : Queue} (hq : q = .run h ∨ q = .sleep h)
    (ht : σ.occ t q ≠ 0) (htp : (loc (σ.hart h).tp).queue ≠ some q) : loc t = .queued q := by
  have hqueue : (loc t).queue = some q := by
    by_contra hne
    exact ht (by rw [P.occ, if_neg hne])
  cases hl : loc t with
  | on k q' =>
    have hok := P.task t
    rw [hl] at hqueue hok
    obtain rfl : q' = some q := hqueue
    have hhome := (hok.2.2 q rfl).1
    obtain rfl : k = h := by
      rcases hq with rfl | rfl <;> simpa [hok.2.1] using hhome.1
    rw [← (P.on t k _ (by simp) hl).2] at hl
    exact absurd (by rw [hl]; rfl) htp
  | queued q' =>
    rw [hl] at hqueue
    simpa [Loc.queue] using hqueue
  | _ => simp [hl, Loc.queue] at hqueue

/-- The task that calls `schedule` is not in the run queue. -/
theorem Placed.queue_schedule {r : Resume} (hpc : (σ.hart h).pc = .schedule r) :
    (loc (σ.hart h).tp).queue ≠ some (.run h) := by
  rcases (P.at hh hpc).stage with ⟨hl, -⟩ | ⟨q, hl, hq⟩
  · simp [hl, Loc.queue]
  · simpa [hl, Loc.queue] using hq h

/-- `schedule` discards entries that are not ready. -/
theorem Placed.discard {r : Resume} (hpc : (σ.hart h).pc = .schedule r) {pre rest : List Pid}
    (hq : (σ.core h).runqueue = pre ++ rest) (hpre : ∀ t ∈ pre, (σ.task t).state ≠ .ready) :
    Placed strict none (σ.setCore h fun c => { c with runqueue := rest })
      fun t => if t ∈ pre then .lost else loc t := by
  let σ' := σ.setCore h fun c => { c with runqueue := rest }
  let loc' : Pid → Loc := fun t => if t ∈ pre then .lost else loc t
  have hcount : ∀ t, pre.count t + rest.count t = σ.occ t (.run h) := by
    intro t
    rw [System.occ, hq, List.count_append]
  have hloc : ∀ t ∈ pre, loc t = .queued (.run h) := by
    intro t ht
    refine P.loc_of_core hh (Or.inl rfl) ?_ (P.queue_schedule hh hpc)
    have := List.count_pos_iff.2 ht
    rw [← hcount]
    omega
  have hrest : SameRest h σ σ' := .setCore σ h _ fun _ => ⟨rfl, rfl, fun _ => rfl⟩
  have hnot : (σ.hart h).tp ∉ pre := fun ht => P.ne_tp hh (by simp [hloc _ ht]) rfl
  have P' : Placed strict (some h) σ' loc' := by
    apply (P.enter h).relocate hrest
    · intro q t
      have hocc := P.occ q t
      by_cases hq : q = .run h
      · subst hq
        rw [← hcount] at hocc
        rw [show σ'.occ t (.run h) = rest.count t from occ_setCore_run]
        by_cases ht : t ∈ pre
        · have hpos := List.count_pos_iff.2 ht
          simp only [hloc t ht, Loc.queue, if_true] at hocc
          simp only [loc', ht, if_true, Loc.queue, reduceCtorEq, if_false]
          omega
        · simpa [loc', ht, List.count_eq_zero_of_not_mem ht] using hocc
      · rw [show σ'.occ t q = σ.occ t q from occ_setCore (absurd · hq) fun _ => rfl, hocc]
        by_cases ht : t ∈ pre
        · simp [loc', ht, hloc t ht, Loc.queue, Ne.symm hq]
        · simp [loc', ht]
    · intro t
      by_cases ht : t ∈ pre
      · have hok := P.task t
        rw [show loc' t = .lost from if_pos ht]
        rw [hloc t ht] at hok ⊢
        refine Or.inr ⟨trivial, trivial, ⟨hok.1, fun st => ?_⟩, fun _ => trivial, fun _ _ => id, ?_⟩
        · rcases hok.2.2.2 with hs | ⟨hs, -⟩
          · exact absurd hs (hpre t ht)
          · exact absurd st hs
        · exact fun hidle => absurd hidle (P.ne_idle hh (by simp [hloc t ht, Loc.IsIdle]))
      · exact Or.inl ⟨rfl, if_neg ht⟩
    · intro t ht
      by_cases htp : t ∈ pre
      · rw [hloc t htp]
        trivial
      · rwa [show loc' t = loc t from if_neg htp] at ht
    · intro t
      by_cases htp : t ∈ pre
      · rw [hloc t htp, show loc' t = .lost from if_pos htp]
        simp
      · rw [show loc' t = loc t from if_neg htp]
  have hkeep : ∀ t, loc' t ≠ .lost → loc' t = loc t := by
    intro t ht
    by_cases htp : t ∈ pre
    · exact absurd (if_pos htp) ht
    · exact if_neg htp
  obtain ⟨hcur, hres, -, hstage, -⟩ := P.at hh hpc
  have htp : loc' (σ.hart h).tp = loc (σ.hart h).tp := if_neg hnot
  have hclose : Placed strict none (σ'.setPc h (.schedule r)) loc' := by
    refine P.close_to hh hrest.toSameCores P' ?_ ?_ ?_ ⟨?_, hres, trivial, ?_, by simp [Pc.pushes]⟩
      (by simp [Pc.doomed])
    · rw [htp]
      exact P.tp h hh (by simp)
    · intro t q hl _
      exact ⟨q, (hkeep t (by simp [hl])).symm.trans hl⟩
    · intro t x
      refine iff_of_false (fun hl => ?_) (by simp [Pc.hold])
      have hhold := ((P.held t h x (by simp)).1 ((hkeep t (by simp [hl])).symm.trans hl)).2
      simp [hpc, Pc.hold] at hhold
    · simpa [σ', System.current, System.setCore] using hcur
    · rw [htp]
      exact hstage
  rw [← hpc, show σ'.setPc h (σ.hart h).pc = σ' from setPc_self σ' h] at hclose
  exact hclose

/-- A task that can still run when it calls `schedule` is in no queue. -/
theorem Placed.loc_of_runnable {r : Resume} (hpc : (σ.hart h).pc = .schedule r)
    (hrun : Runnable (σ.task (σ.hart h).tp).state) : loc (σ.hart h).tp = .on h none := by
  rcases (P.at hh hpc).stage with ⟨hl, -⟩ | ⟨q, hl, hq⟩
  · exact hl
  · have hok := P.task (σ.hart h).tp
    rw [hl] at hok
    have hstate := (hok.2.2 q rfl).2
    exfalso
    rcases hrun with hs | hs <;> rw [hs] at hstate <;>
      cases q <;> simp [Near, Queue.state] at hstate hq

/-- `schedule` chooses the first task of the queue, and puts its own task back if it can run. -/
theorem Placed.choose {r : Resume} (hpc : (σ.hart h).pc = .schedule r) {new : Pid}
    (queue : List Pid) (push : Bool) (hq : (σ.core h).runqueue = new :: queue)
    (hready : (σ.task new).state = .ready) (hrest : SameRest h σ σ')
    (hcur : σ'.current h = σ.current h)
    (hrq : (σ'.core h).runqueue = queue ++ if push then [(σ.hart h).tp] else [])
    (hocc : ∀ q t, q ≠ .run h → σ'.occ t q = σ.occ t q)
    (hnew : σ'.task new = { σ.task new with state := .running })
    (htp : σ'.task (σ.hart h).tp = if push then { σ.task (σ.hart h).tp with state := .ready }
      else σ.task (σ.hart h).tp)
    (hother : ∀ t, t ≠ new → t ≠ (σ.hart h).tp → σ'.task t = σ.task t)
    (hpush : push = true ↔ (σ.hart h).tp ≠ 2 * h ∧ Runnable (σ.task (σ.hart h).tp).state) :
    ∃ loc', Placed strict none (σ'.setPc h (.setCurrent h (σ.hart h).tp new r)) loc' := by
  obtain ⟨hcur', hres, -, hstage, -⟩ := P.at hh hpc
  have hloc : loc new = .queued (.run h) :=
    P.loc_of_core hh (Or.inl rfl) (by simp [System.occ, hq]) (P.queue_schedule hh hpc)
  have hne : (σ.hart h).tp ≠ new := P.ne_tp hh (by simp [hloc])
  have hnewOk := P.task new
  have htpOk := P.task (σ.hart h).tp
  obtain ⟨qtp, hqtp⟩ := P.tp h hh (by simp)
  rw [hloc] at hnewOk
  rw [hqtp] at htpOk
  let ltp : Loc := if push then .on h (some (.run h)) else loc (σ.hart h).tp
  have hltp : ∃ q, ltp = .on h q := by
    by_cases hp : push
    · exact ⟨_, if_pos hp⟩
    · exact ⟨qtp, (if_neg hp).trans hqtp⟩
  let loc' := Function.update (Function.update loc (σ.hart h).tp ltp) new (.held h .chosen)
  have hlnew : loc' new = .held h .chosen := Function.update_self _ _ _
  have hltp' : loc' (σ.hart h).tp = ltp := by simp [loc', Function.update_of_ne hne]
  have hlother : ∀ t, t ≠ new → t ≠ (σ.hart h).tp → loc' t = loc t := by
    intro t h₁ h₂
    simp [loc', Function.update_of_ne h₁, Function.update_of_ne h₂]
  have hnone : push = true → loc (σ.hart h).tp = .on h none := fun hp =>
    P.loc_of_runnable hh hpc (hpush.1 hp).2
  have P' : Placed strict (some h) σ' loc' := by
    apply (P.enter h).relocate hrest
    · intro q t
      have hold := P.occ q t
      by_cases hqr : q = .run h
      · subst hqr
        rw [System.occ, hq, List.count_cons] at hold
        rw [System.occ, hrq, List.count_append]
        by_cases h₁ : t = new
        · subst h₁
          simp only [hloc, Loc.queue, beq_self_eq_true, if_true] at hold
          rw [hlnew]
          cases push <;> simp [Loc.queue, hne] <;> omega
        · by_cases h₂ : t = (σ.hart h).tp
          · subst h₂
            rw [if_neg (P.queue_schedule hh hpc)] at hold
            rw [hltp']
            cases hp : push with
            | true => simp [ltp, hp, Loc.queue]; omega
            | false => simp [ltp, hp, P.queue_schedule hh hpc]; omega
          · rw [hlother t h₁ h₂, ← hold]
            cases push <;> simp [Ne.symm h₁, Ne.symm h₂]
      · rw [hocc q t hqr, hold]
        by_cases h₁ : t = new
        · rw [h₁, hlnew, hloc]
          simp [Loc.queue, Ne.symm hqr]
        · by_cases h₂ : t = (σ.hart h).tp
          · rw [h₂, hltp']
            cases hp : push with
            | true => simp [ltp, hp, hnone hp, Loc.queue, Ne.symm hqr]
            | false => simp [ltp, hp]
          · rw [hlother t h₁ h₂]
    · intro t
      by_cases h₁ : t = new
      · rw [h₁, hlnew, hnew, hloc]
        have hidle : new ≠ 2 * h := P.ne_idle hh (by simp [hloc, Loc.IsIdle])
        refine Or.inr ⟨trivial, rfl, ⟨hnewOk.1, hnewOk.2.2.1.1, ?_, Or.inl rfl⟩,
          fun _ => trivial, ?_, fun ht => absurd ht hidle⟩
        · exact iff_of_false hnewOk.2.1 hidle
        · rw [hready]
          exact fun _ _ hd => absurd hd (by simp [Dead])
      · by_cases h₂ : t = (σ.hart h).tp
        · rw [h₂, hltp', htp]
          cases hp : push with
          | true =>
            obtain ⟨hidle, hrun⟩ := hpush.1 hp
            simp only [ltp, hp, if_true, hnone hp]
            refine Or.inr ⟨rfl, rfl, ⟨htpOk.1, htpOk.2.1, ?_⟩, fun _ => trivial, ?_,
              fun ht => absurd ht hidle⟩
            · intro q' hq'
              obtain rfl : Queue.run h = q' := by simpa using hq'
              exact ⟨⟨htpOk.2.1, hh⟩, Or.inl rfl⟩
            · exact fun _ _ hd => absurd hd hrun.not_dead
          | false => exact Or.inl ⟨by simp, by simp [ltp, hp]⟩
        · exact Or.inl ⟨hother t h₁ h₂, hlother t h₁ h₂⟩
    · intro t ht
      by_cases h₁ : t = new
      · rw [h₁, hloc]
        trivial
      · by_cases h₂ : t = (σ.hart h).tp
        · rw [h₂, hqtp]
          trivial
        · rwa [hlother t h₁ h₂] at ht
    · intro t
      by_cases h₁ : t = new
      · rw [h₁, hloc, hlnew]
        simp
      · by_cases h₂ : t = (σ.hart h).tp
        · obtain ⟨q, hq⟩ := hltp
          rw [h₂, hqtp, hltp', hq]
          simp
        · rw [hlother t h₁ h₂]
  refine ⟨loc', P.close_to hh hrest.toSameCores P' ?_ ?_ ?_ ?_ (by simp [Pc.doomed])⟩
  · rw [hltp']
    exact hltp
  · intro t q hl hne'
    by_cases h₁ : t = new
    · rw [h₁, hlnew] at hl
      exact absurd hl (by simp)
    · exact ⟨q, (hlother t h₁ hne').symm.trans hl⟩
  · intro t x
    by_cases h₁ : t = new
    · rw [h₁, hlnew]
      simp [Pc.hold, eq_comm]
    · refine iff_of_false (fun hl => ?_) (by simp [Pc.hold, Ne.symm h₁])
      by_cases h₂ : t = (σ.hart h).tp
      · obtain ⟨q, hq⟩ := hltp
        rw [h₂, hltp', hq] at hl
        exact absurd hl (by simp)
      · have hhold := ((P.held t h x (by simp)).1 ((hlother t h₁ h₂).symm.trans hl)).2
        simp [hpc, Pc.hold] at hhold
  · refine ⟨hcur.trans hcur', hres, rfl, ⟨rfl, ?_⟩, by simp [Pc.pushes]⟩
    rw [hltp', htp]
    cases hp : push with
    | true => exact Or.inr ⟨.run h, by simp [ltp, hp]⟩
    | false =>
      simp only [ltp, hp, Bool.false_eq_true, if_false]
      rcases hstage with ⟨hl, hs⟩ | ⟨q, hl, -⟩
      · refine Or.inl ⟨hl, ?_⟩
        rcases hs with hs | hs
        · by_contra hno
          push Not at hno
          exact absurd (hpush.2 ⟨hno.1, hs⟩) (by simp [hp])
        · exact Or.inr hs
      · exact Or.inr ⟨q, hl⟩

/-- The core has nothing to run: the idle task is chosen. -/
theorem Placed.chooseIdle {r : Resume} (hpc : (σ.hart h).pc = .schedule r)
    (hrun : ¬ Runnable (σ.task (σ.hart h).tp).state) :
    ∃ loc', Placed strict none (((σ.setState (2 * h) .running).setCore h fun c =>
      { c with currentTask := 2 * h, lastEntranceTime := σ.time }).setPc h
        (.switchTo (σ.hart h).tp (2 * h) r)) loc' := by
  obtain ⟨-, hres, -, hstage, -⟩ := P.at hh hpc
  obtain ⟨hidle, hstate⟩ := P.idle h hh
  have hne : (σ.hart h).tp ≠ 2 * h := by
    intro ht
    rw [← ht] at hstate
    exact hrun hstate
  have hloc : loc (2 * h) = .idle h := by
    rcases hidle with hl | hl | hl
    · exact hl
    · exact absurd (P.on _ _ _ (by simp) hl).2 hne
    · have hhold := ((P.held _ h .chosen (by simp)).1 hl).2
      simp [hpc, Pc.hold] at hhold
  have hok := P.task (2 * h)
  rw [hloc] at hok
  let σ' := (σ.setState (2 * h) .running).setCore h fun c =>
    { c with currentTask := 2 * h, lastEntranceTime := σ.time }
  have hrest : SameRest h σ σ' :=
    .trans (.setState σ (2 * h) .running)
      (.setCore _ h _ fun _ => ⟨rfl, rfl, fun hne => absurd rfl hne⟩)
  have hself : σ'.task (2 * h) = { σ.task (2 * h) with state := .running } := by
    simp [σ', System.setCore, System.setState, System.setTask]
  have hother : ∀ t, t ≠ 2 * h → σ'.task t = σ.task t := by
    intro t ht
    simp [σ', System.setCore, System.setState, System.setTask, Function.update_of_ne ht]
  have hocc : ∀ q t, σ'.occ t q = σ.occ t q :=
    fun q t => occ_setCore (fun _ => rfl) (fun _ => rfl)
  have P' : Placed strict (some h) σ' (Function.update loc (2 * h) (.held h .chosen)) := by
    refine (P.enter h).move hrest (fun t ht => ⟨hother t ht, fun q => hocc q t⟩) (fun q => ?_) ?_
      (by simp [hloc, Loc.Created]) (by simp [Loc.Created])
    · rw [hocc, P.occ, hloc]
      rfl
    · rw [hloc, hself]
      exact ⟨rfl, rfl, ⟨hok.2.2.1, hok.2.2.2.1, iff_of_true hok.2.2.2.2 rfl, Or.inl rfl⟩,
        fun _ => trivial, fun _ _ hd => absurd hd hstate.not_dead,
        fun _ => ⟨Or.inr (Or.inr rfl), Or.inr rfl⟩⟩
  refine ⟨_, P.close_move hh hrest.toSameCores P' (by simp [Ne.symm hne]) ?_ ?_ ?_ rfl⟩
  · simp [Pc.hold, eq_comm]
  · intro t y ht
    simp [hpc, Pc.hold, Ne.symm ht]
  · refine ⟨?_, hres, trivial, ⟨rfl, ?_⟩, by simp [Pc.pushes]⟩
    · simp [σ', System.current, System.setCore, Pc.current]
    · rw [Function.update_of_ne hne, hother _ hne]
      rcases hstage with ⟨hl, hs | hs⟩ | ⟨q, hl, -⟩
      · exact absurd hs hrun
      · exact Or.inl ⟨hl, Or.inr hs⟩
      · exact Or.inr ⟨q, hl⟩

theorem Placed.scheduleLocked {r : Resume} (hpc : (σ.hart h).pc = .schedule r) :
    ∃ loc', Placed strict none (scheduleLocked h r σ) loc' := by
  obtain ⟨hcur, hres, -, -, -⟩ := P.at hh hpc
  have hcur' : σ.current h = (σ.hart h).tp := hcur
  rw [Sched.scheduleLocked, P.withCtx_eq hh, hcur', P.idleTask h]
  cases hpop : popReady σ.task (σ.core h).runqueue with
  | some res =>
    obtain ⟨new, queue⟩ := res
    obtain ⟨pre, hq, hready, hpre⟩ := popReady_eq_some hpop
    have P₁ := P.discard hh hpc hq hpre
    have hloc : loc new = .queued (.run h) :=
      P.loc_of_core hh (Or.inl rfl) (by simp [System.occ, hq]) (P.queue_schedule hh hpc)
    have hne : (σ.hart h).tp ≠ new := P.ne_tp hh (by simp [hloc])
    -- what the three ways to treat the current task have in common
    have hchoose : ∀ (push : Bool) (τ : System) (rq : List Pid), SameRest h σ τ →
        τ.core = σ.core → (∀ q t, τ.occ t q = σ.occ t q) →
        rq = queue ++ (if push then [(σ.hart h).tp] else []) →
        τ.task new = { σ.task new with state := .running } →
        τ.task (σ.hart h).tp = (if push then { σ.task (σ.hart h).tp with state := .ready }
          else σ.task (σ.hart h).tp) →
        (∀ t, t ≠ new → t ≠ (σ.hart h).tp → τ.task t = σ.task t) →
        (push = true ↔ (σ.hart h).tp ≠ 2 * h ∧ Runnable (σ.task (σ.hart h).tp).state) →
        ∃ loc', Placed strict none (((τ.setCore h fun c => { c with runqueue := rq }).setCore h
          fun c => { c with lastEntranceTime := σ.time }).setPc h
            (.setCurrent h (σ.hart h).tp new r)) loc' := by
      intro push τ rq hrest hcore hocc hrq hnew htp hother hpush
      have hrest₂ : SameRest h σ ((τ.setCore h fun c => { c with runqueue := rq }).setCore h
          fun c => { c with lastEntranceTime := σ.time }) :=
        hrest.trans (.trans (.setCore τ h (fun c => { c with runqueue := rq })
          fun _ => ⟨rfl, rfl, fun _ => rfl⟩) (.setCore _ h _ fun _ => ⟨rfl, rfl, fun _ => rfl⟩))
      have hrest₁ : SameRest h σ (σ.setCore h fun c => { c with runqueue := new :: queue }) :=
        .setCore σ h _ fun _ => ⟨rfl, rfl, fun _ => rfl⟩
      refine P₁.choose hh hpc queue push ?_ hready (hrest₁.symm.trans hrest₂) ?_ ?_ ?_ hnew htp hother
        hpush
      · simp [System.setCore]
      · simp [System.current, System.setCore, hcore]
      · simp [System.setCore, hrq]
      · intro q t hq'
        rw [occ_setCore (absurd · hq') fun _ => rfl, occ_setCore (absurd · hq') fun _ => rfl, hocc,
          occ_setCore (absurd · hq') fun _ => rfl]
    have htpState : ((σ.setState new .running).task (σ.hart h).tp).state =
        (σ.task (σ.hart h).tp).state := by
      simp [System.setState, System.setTask, Function.update_of_ne hne]
    dsimp only
    simp only [htpState]
    split
    · next hc =>
      refine hchoose true ((σ.setState new .running).setState (σ.hart h).tp .ready) _
        (.trans (.setState σ new .running) (.setState _ _ _)) rfl (fun _ _ => rfl) rfl ?_ ?_ ?_ ?_
      · simp [System.setState, System.setTask, Function.update_of_ne (Ne.symm hne)]
      · simp [System.setState, System.setTask, Function.update_of_ne hne]
      · intro t h₁ h₂
        simp [System.setState, System.setTask, Function.update_of_ne h₁, Function.update_of_ne h₂]
      · simp [hc.1, Runnable, hc.2]
    · split
      · next hc =>
        refine hchoose true (σ.setState new .running) _ (.setState σ new .running) rfl
          (fun _ _ => rfl) rfl (by simp [System.setState, System.setTask]) ?_ ?_ ?_
        · simp [System.setState, System.setTask, Function.update_of_ne hne, ← hc.2]
        · intro t h₁ _
          simp [System.setState, System.setTask, Function.update_of_ne h₁]
        · simp [hc.1, Runnable, hc.2]
      · next h₁ h₂ =>
        refine hchoose false (σ.setState new .running) _ (.setState σ new .running) rfl
          (fun _ _ => rfl) (by simp) (by simp [System.setState, System.setTask]) ?_ ?_ ?_
        · simp [System.setState, System.setTask, Function.update_of_ne hne]
        · intro t h₁ _
          simp [System.setState, System.setTask, Function.update_of_ne h₁]
        · refine iff_of_false (by simp) ?_
          rintro ⟨hne', hrun⟩
          exact hrun.elim (fun hs => h₂ ⟨hne', hs⟩) fun hs => h₁ ⟨hne', hs⟩
  | none =>
    have P₁ := P.discard hh hpc (List.append_nil _).symm (popReady_eq_none hpop)
    dsimp only
    split
    · next hrun =>
      have hrun₁ : Runnable (σ.task (σ.hart h).tp).state := hrun
      have hloc := P₁.loc_of_runnable hh hpc hrun₁
      refine ⟨_, P₁.mark hh hloc (fun _ hd => ?_) (fun _ => Or.inr rfl) (hpc ▸ rfl) ?_ rfl⟩
      · exact absurd hd hrun₁.not_dead
      · refine ⟨(P₁.at hh hpc).current, hres, trivial, ⟨hloc, ?_⟩, by simp [Pc.pushes]⟩
        rw [setState_state]
        exact Or.inl rfl
    · next hrun => exact P₁.chooseIdle hh hpc hrun

end Schedule

section Timer

variable {strict : Prop} {h : ℕ} {σ : System} {loc : Pid → Loc}
variable (P : Placed strict none σ loc) (hh : h < σ.harts)
include P hh

/-- The tasks of the nodes in the heap of the core lie only there. -/
theorem Placed.loc_of_order {order : List (ℕ × Pid)} {r : Resume} {t : Pid}
    (hpc : (σ.hart h).pc = .run r) (horder : HeapOrder (σ.core h).sleepingTasks order)
    (ht : t ∈ order.map Prod.snd) : loc t = .queued (.sleep h) := by
  have htp := (P.at hh hpc).stage.1
  refine P.loc_of_core hh (Or.inr rfl) ?_ (by simp [htp, Loc.queue])
  rw [System.occ, ← (horder.1.map Prod.snd).count_eq]
  exact (List.count_pos_iff.2 ht).ne'

theorem Placed.state_of_toWakeUp {order : List (ℕ × Pid)} {r : Resume} {t : Pid}
    (hpc : (σ.hart h).pc = .run r) (horder : HeapOrder (σ.core h).sleepingTasks order)
    (ht : t ∈ σ.toWakeUp order) : Near strict (σ.task t).state .sleeping := by
  have hmem : t ∈ order.map Prod.snd := by
    obtain ⟨x, hx, rfl⟩ := List.mem_map.1 (List.mem_of_mem_filter ht)
    exact List.mem_map_of_mem ((List.takeWhile_prefix _).subset hx)
  have hok := P.task t
  rw [P.loc_of_order hh hpc horder hmem] at hok
  exact hok.2.2.2

theorem Placed.timerLocked {order : List (ℕ × Pid)} {r : Resume}
    (hpc : (σ.hart h).pc = .run r) (horder : HeapOrder (σ.core h).sleepingTasks order) :
    ∃ loc', Placed strict none (timerLocked h h order r σ) loc' := by
  obtain ⟨hcur, hres, -, ⟨htploc, hs⟩, -⟩ := P.at hh hpc
  let due : ℕ × Pid → Bool := fun x => x.1 ≤ σ.time
  let taken := (order.takeWhile due).map Prod.snd
  let left := (order.dropWhile due).map Prod.snd
  have hwoken : σ.toWakeUp order = taken.filter σ.upgrade := rfl
  have hcount : ∀ t, taken.count t + left.count t = σ.occ t (.sleep h) := by
    intro t
    rw [← List.count_append, ← List.map_append, List.takeWhile_append_dropWhile, System.occ]
    exact (horder.1.map Prod.snd).count_eq t
  have hloc : ∀ t ∈ taken, loc t = .queued (.sleep h) := by
    intro t ht
    refine P.loc_of_order hh hpc horder ?_
    obtain ⟨x, hx, rfl⟩ := List.mem_map.1 ht
    exact List.mem_map_of_mem ((List.takeWhile_prefix _).subset hx)
  have hone : ∀ t ∈ taken, taken.count t = 1 ∧ left.count t = 0 := by
    intro t ht
    have hpos := List.count_pos_iff.2 ht
    have hocc := P.occ (.sleep h) t
    rw [hloc t ht, ← hcount] at hocc
    simp only [Loc.queue, if_true] at hocc
    omega
  have hnot : (σ.hart h).tp ∉ taken := fun ht => P.ne_tp hh (by simp [hloc _ ht]) rfl
  let σ' : System := ({ σ with task := fun t => if t ∈ σ.toWakeUp order then
      { σ.task t with state := .ready } else σ.task t } : System).setCore h fun c =>
    { c with runqueue := c.runqueue ++ σ.toWakeUp order, sleepingTasks := order.dropWhile due }
  let loc' : Pid → Loc := fun t =>
    if t ∈ taken then if σ.upgrade t then .queued (.run h) else .lost else loc t
  have hmem : ∀ t, t ∈ σ.toWakeUp order ↔ t ∈ taken ∧ σ.upgrade t = true := by
    intro t
    rw [hwoken, List.mem_filter]
  have hkeep : ∀ t, t ∉ taken → σ'.task t = σ.task t ∧ loc' t = loc t := by
    intro t ht
    exact ⟨if_neg fun hw => ht ((hmem t).1 hw).1, if_neg ht⟩
  have hrest : SameRest h σ σ' := by
    refine ⟨⟨rfl, rfl, fun k => ?_⟩, rfl, rfl, fun t => ?_⟩
    · by_cases hk : k = h
      · subst hk
        simp [σ', System.setCore]
      · simp [σ', System.setCore, Function.update_of_ne hk]
    · change (if t ∈ σ.toWakeUp order then _ else _ : Task).children = _
      split <;> rfl
  have P' : Placed strict (some h) σ' loc' := by
    apply (P.enter h).relocate hrest
    · intro q t
      have hocc := P.occ q t
      by_cases hqs : q = .sleep h
      · subst hqs
        rw [← hcount] at hocc
        rw [show σ'.occ t (.sleep h) = left.count t from occ_setCore_sleep]
        by_cases ht : t ∈ taken
        · rw [(hone t ht).2]
          cases hup : σ.upgrade t <;> simp [loc', ht, hup, Loc.queue]
        · rw [(hkeep t ht).2, ← hocc, List.count_eq_zero_of_not_mem ht, Nat.zero_add]
      · by_cases hqr : q = .run h
        · subst hqr
          rw [show σ'.occ t (.run h) = (σ.core h).runqueue.count t + (σ.toWakeUp order).count t from
            occ_setCore_run.trans List.count_append]
          rw [System.occ] at hocc
          by_cases ht : t ∈ taken
          · rw [hocc, hloc t ht]
            cases hup : σ.upgrade t with
            | true => simp [hwoken, List.count_filter hup, (hone t ht).1, loc', ht, hup, Loc.queue]
            | false =>
              have hno : t ∉ σ.toWakeUp order := fun hw => by simp [hmem, hup] at hw
              simp [List.count_eq_zero_of_not_mem hno, loc', ht, hup, Loc.queue]
          · have hno : t ∉ σ.toWakeUp order := fun hw => ht ((hmem t).1 hw).1
            rw [hocc, (hkeep t ht).2, List.count_eq_zero_of_not_mem hno, Nat.add_zero]
        · rw [show σ'.occ t q = σ.occ t q from occ_setCore (absurd · hqr) (absurd · hqs), hocc]
          by_cases ht : t ∈ taken
          · rw [hloc t ht]
            cases hup : σ.upgrade t <;>
              simp [loc', ht, hup, Loc.queue, Ne.symm hqs, Ne.symm hqr]
          · rw [(hkeep t ht).2]
    · intro t
      by_cases ht : t ∈ taken
      · have hok := P.task t
        have hidle : t ≠ 2 * h := P.ne_idle hh (by simp [hloc t ht, Loc.IsIdle])
        rw [hloc t ht] at hok ⊢
        obtain ⟨hsaved, hcontext, hhome, hstate⟩ := hok
        cases hup : σ.upgrade t with
        | true =>
          have htask : σ'.task t = { σ.task t with state := .ready } :=
            if_pos ((hmem t).2 ⟨ht, hup⟩)
          have hl : loc' t = .queued (.run h) := by simp [loc', ht, hup]
          rw [hl, htask]
          exact Or.inr ⟨trivial, trivial, ⟨hsaved, hcontext, hhome, Or.inl rfl⟩, fun _ => trivial,
            fun st _ hd => absurd hd (hstate.not_dead st (Queue.not_dead _)),
            fun hi => absurd hi hidle⟩
        | false =>
          -- nobody owns the task any more, so its node is dropped
          have hst : ¬ strict := fun st => by simp [P.upgrade (hloc t ht) st] at hup
          have htask : σ'.task t = σ.task t := if_neg fun hw => by simp [hmem, hup] at hw
          have hl : loc' t = .lost := by simp [loc', ht, hup]
          rw [hl, htask]
          exact Or.inr ⟨trivial, trivial, ⟨hsaved, fun st => absurd st hst⟩, fun _ => trivial,
            fun _ _ => id, fun hi => absurd hi hidle⟩
      · exact Or.inl (hkeep t ht)
    · intro t hc
      by_cases ht : t ∈ taken
      · rw [hloc t ht]
        trivial
      · rwa [(hkeep t ht).2] at hc
    · intro t
      by_cases ht : t ∈ taken
      · rw [hloc t ht]
        cases hup : σ.upgrade t <;> simp [loc', ht, hup]
      · rw [(hkeep t ht).2]
  have hsame : ∀ t, (∀ q, loc' t ≠ .queued q) → loc' t ≠ .lost → loc' t = loc t := by
    intro t hq hl
    by_cases ht : t ∈ taken
    · cases hup : σ.upgrade t <;> simp [loc', ht, hup] at hq hl
    · exact (hkeep t ht).2
  refine ⟨loc', P.close_to hh hrest.toSameCores P' ?_ ?_ ?_ ⟨?_, hres, rfl, ?_, ?_⟩ ?_⟩
  · exact ⟨none, (hkeep _ hnot).2.trans htploc⟩
  · intro t q hl _
    exact ⟨q, (hsame t (by simp [hl]) (by simp [hl])).symm.trans hl⟩
  · intro t x
    refine iff_of_false (fun hl => ?_) (by simp [Pc.hold])
    have hhold := ((P.held t h x (by simp)).1
      ((hsame t (by simp [hl]) (by simp [hl])).symm.trans hl)).2
    simp [hpc, Pc.hold] at hhold
  · simpa [σ', System.current, System.setCore, Pc.current] using hcur
  · rw [(hkeep _ hnot).1, (hkeep _ hnot).2]
    exact ⟨htploc, hs⟩
  · simp [Pc.pushes]
  · simp [Pc.doomed]

end Timer

end Efiks.Sched

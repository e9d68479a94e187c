import Efiks.Sched.ExitStatus
import Mathlib.Tactic.Linarith

/-!
# Sleeping

`sleep_current_task` computes the wake-up time and puts the task into the heap of its core; a
timer interrupt takes out the nodes whose time has come. The time is computed by way of
nanoseconds: the product with the frequency overflows for durations of half an hour and more,
and a duration that does not fit in nanoseconds counts as none at all.

## Main definitions

* `Wakes` — a timer interrupt on a hart makes a task ready.
* `SleepsLongEnough` — no sleep of this duration panics or ends early.
-/
namespace Efiks.Sched

section Times

variable {now ms : ℕ}

theorem sleepUntil_of_fits (hfits : ms * 10000000000000 < 2 ^ 64) : sleepUntil now ms =
    some (if now + ms * 10000 < 2 ^ 64 then now + ms * 10000 else 0) := by
  have hnanos : ms * 1000000 < 2 ^ 64 := by linarith
  have hproduct : ms * 1000000 * 10000000 < 2 ^ 64 := by linarith
  have hticks : ms * 1000000 * 10000000 / 1000000000 = ms * 10000 := by omega
  rw [sleepUntil, nanosToTicks, CPU_HERTZ, if_pos hnanos, if_pos hproduct, hticks,
    Option.map_some]

/-- A duration that does not fit in nanoseconds counts as none. -/
theorem sleepUntil_of_large (hlarge : 2 ^ 64 ≤ ms * 1000000) :
    sleepUntil now ms = sleepUntil now 0 := by
  rw [sleepUntil, sleepUntil, if_neg (Nat.not_lt.2 hlarge), Nat.zero_mul, ite_self]

theorem sleepUntil_eq_none (hlow : ms * 1000000 < 2 ^ 64)
    (hhigh : 2 ^ 64 ≤ ms * 10000000000000) : sleepUntil now ms = none := by
  have hproduct : ¬ ms * 1000000 * 10000000 < 2 ^ 64 := by linarith
  rw [sleepUntil, nanosToTicks, CPU_HERTZ, if_pos hlow, if_neg hproduct, Option.map_none]

end Times

section Asleep

/-- A timer interrupt on hart `h` makes the task ready. -/
def Wakes (σ : System) (h : ℕ) (t : Pid) : Prop :=
  ∃ order σ', step h (.timer order) σ = some σ' ∧ t ∈ σ.toWakeUp order

/-- The task is on its way into a heap, or in one, with a wake-up time that is not before `d`;
or this time has come. -/
def AsleepUntil (σ : System) (t : Pid) (d : ℕ) : Prop :=
  d ≤ σ.time ∨
    (∃ k < σ.harts, (σ.hart k).tp = t ∧ (∃ ctx r, (σ.hart k).pc = .sleepPush ctx r) ∧
      d ≤ (σ.task t).wakeUpAt) ∨
    ∃ k w, (w, t) ∈ (σ.core k).sleepingTasks ∧ d ≤ w

variable {σ σ' : System} {loc : Pid → Loc} {h k : ℕ} {a : Act} {t : Pid} {d : ℕ}

/-- A task in a heap has its place there. -/
theorem Placed.queue_of_sleeper {strict : Prop} (P : Placed strict none σ loc) {w : ℕ}
    (hk : (w, t) ∈ (σ.core k).sleepingTasks) : (loc t).queue = some (.sleep k) := by
  by_contra hq
  have hocc := P.occ (.sleep k) t
  rw [if_neg hq] at hocc
  exact List.count_eq_zero.1 hocc (List.mem_map.2 ⟨_, hk, rfl⟩)

/-- A task lies in one heap only, and there once. -/
theorem Placed.sleeper_unique {strict : Prop} (P : Placed strict none σ loc) {j w v : ℕ}
    (hj : (w, t) ∈ (σ.core j).sleepingTasks) (hk : (v, t) ∈ (σ.core k).sleepingTasks) : w = v := by
  have hjk : j = k := by
    have hq := (P.queue_of_sleeper hj).symm.trans (P.queue_of_sleeper hk)
    exact Queue.sleep.inj (Option.some.inj hq)
  subst hjk
  have hnodup : ((σ.core j).sleepingTasks.map Prod.snd).Nodup := by
    refine List.nodup_iff_count_le_one.2 fun u => ?_
    refine (P.occ (.sleep j) u).trans_le ?_
    split <;> omega
  exact congrArg Prod.fst (List.inj_on_of_nodup_map hnodup hj hk rfl)

variable (P : Placed True none σ loc)
include P

theorem AsleepUntil.step (A : AsleepUntil σ t d) (hstep : step h a σ = some σ') :
    AsleepUntil σ' t d := by
  have he := elsewhere_step hstep
  have hl := ledgerStep P hstep
  rcases A with htime | ⟨k, hk, htp, ⟨ctx, r, hpc⟩, hw⟩ | ⟨k, w, hmem, hw⟩
  · exact Or.inl (he.time ▸ htime)
  · by_cases hkh : k = h
    · -- the task is put into the heap
      subst hkh
      have hat := P.at hk hpc
      obtain ⟨-, ⟨-, hk'⟩ | ⟨r', hpc', -⟩⟩ := step_cases hstep
      · rw [hpc] at hk'
        obtain rfl := Option.some.inj hk'
        refine Or.inr (Or.inr ⟨ctx, (σ.task t).wakeUpAt, ?_, hw⟩)
        have hcur : σ.current ctx = t := by
          rw [show ctx = k from hat.here, ← htp]
          exact hat.current
        simp [sleepPush, System.setPc, System.setCore, hcur]
      · simp [hpc] at hpc'
    · refine Or.inr (Or.inl ⟨k, he.harts ▸ hk, ?_, ?_, ?_⟩)
      · rw [he.hart k hkh, htp]
      · rw [he.hart k hkh]
        exact ⟨ctx, r, hpc⟩
      · change d ≤ σ'.ledger.wakeUpAt t
        have hh := lt_harts_of_step hstep
        obtain ⟨q, hq⟩ := P.tp k hk (by simp)
        rw [htp] at hq
        generalize σ'.ledger = L at hl ⊢
        cases hl with
        | time hpc' hw' =>
          have hne : t ≠ (σ.hart h).tp := by
            rintro rfl
            obtain ⟨q', hq'⟩ := P.tp h hh (by simp)
            rw [hq] at hq'
            exact hkh (Loc.on.inj hq').1
          simp only [Function.update_of_ne hne]
          exact hw
        | @add pid parent hpc' =>
          have hne : t ≠ pid := by
            rintro rfl
            rw [P.loc_of_hold hh hpc' rfl] at hq
            simp at hq
          simp only [Function.update_of_ne hne]
          exact hw
        | _ => exact hw
  · by_cases hdue : d ≤ σ.time
    · exact Or.inl (he.time ▸ hdue)
    refine Or.inr (Or.inr ⟨k, w, ?_, hw⟩)
    change (w, t) ∈ σ'.ledger.sleepers k
    generalize σ'.ledger = L at hl ⊢
    cases hl with
    | push hpc =>
      by_cases hkh : k = h
      · subst hkh
        simp only [Function.update_self]
        exact List.mem_append_left _ hmem
      · simpa only [Function.update_of_ne hkh]
    | wake order hpc horder =>
      by_cases hkh : k = h
      · -- the task's time has not come, so the interrupt leaves it in the heap
        subst hkh
        simp only [Function.update_self]
        have hin := horder.1.symm.subset hmem
        rw [← List.takeWhile_append_dropWhile (p := fun x => x.1 ≤ σ.time) (l := order)] at hin
        refine (List.mem_append.1 hin).resolve_left fun htake => hdue ?_
        exact hw.trans (by simpa using List.mem_takeWhile_imp htake)
      · simpa only [Function.update_of_ne hkh]
    | _ => exact hmem

/-- A task that is asleep until `d` is not woken up before. -/
theorem AsleepUntil.le_time (A : AsleepUntil σ t d) (hwakes : Wakes σ h t) : d ≤ σ.time := by
  obtain ⟨order, σ', hstep, ht⟩ := hwakes
  obtain ⟨hh, ⟨ha, -⟩ | ⟨r, hpc, he⟩⟩ := step_cases hstep
  · simp at ha
  simp only [event, P.ctx_eq hh] at he
  split at he
  · split at he
    · next horder =>
      obtain ⟨⟨w, u⟩, hx, hu⟩ := List.mem_map.1 (List.mem_filter.1 ht).1
      obtain rfl : u = t := hu
      have hdue : w ≤ σ.time := by simpa using List.mem_takeWhile_imp hx
      have hmem := horder.1.subset ((List.takeWhile_prefix _).subset hx)
      rcases A with htime | ⟨k, hk, htp, ⟨ctx, r, hpc⟩, hw⟩ | ⟨k, v, hv, hw⟩
      · exact htime
      · have hq := P.queue_of_sleeper hmem
        have hloc : loc u = .on k none := htp ▸ (P.at hk hpc).stage.1
        simp [hloc, Loc.queue] at hq
      · rw [P.sleeper_unique hv hmem] at hw
        exact hw.trans hdue
    · simp at he
  · simp at he

end Asleep

section Enough

/-- A task that goes to sleep for `ms` milliseconds does not panic, and no timer interrupt makes
it ready before its time, which is counted in ticks of the 10 MHz clock. -/
def SleepsLongEnough (ms : ℕ) : Prop :=
  ∀ n σ h ctx r, 0 < n → Reach (InOrder n) n σ → h < n → (σ.hart h).pc = .sleepTime ctx ms r →
    ∀ σ₁, step h .next σ = some σ₁ → (σ₁.hart h).pc ≠ .panicked ∧
      (σ.time + ms * 10000 < 2 ^ 64 → ∀ σ₂, Run (InOrder n) σ₁ σ₂ →
        ∀ k, Wakes σ₂ k (σ.hart h).tp → σ.time + ms * 10000 ≤ σ₂.time)

variable {n : ℕ} {σ τ : System} {h ms : ℕ} {t : Pid} {d : ℕ}

theorem AsleepUntil.run (hn : 0 < n) (hreach : Reach (InOrder n) n σ) (A : AsleepUntil σ t d)
    (hrun : Run (InOrder n) σ τ) : AsleepUntil τ t d := by
  induction hrun with
  | refl => exact A
  | step hrun _ hstep ih =>
    obtain ⟨-, loc, P⟩ := ((hreach.run hrun).orderly (orderly_inOrder hn)).kin_ok hn
    exact ih.step P hstep
  | tick e _ ih => exact ih.imp (fun hd => hd.trans (Nat.le_add_right _ _)) id

/-- The step that computes the wake-up time. -/
theorem step_sleepTime {ctx : ℕ} {r : Resume} (hh : h < σ.harts)
    (hpc : (σ.hart h).pc = .sleepTime ctx ms r) :
    step h .next σ = some (sleepTime h ctx ms r σ) := by
  rw [step, if_neg (by omega), if_pos rfl, hpc]
  rfl

theorem sleepsLongEnough_of_fits (hfits : ms * 10000000000000 < 2 ^ 64) :
    SleepsLongEnough ms := by
  intro n σ h ctx r hn hreach hh hpc σ₁ hstep
  have hh' : h < σ.harts := hreach.harts_eq.symm ▸ hh
  have hreach₁ : Reach (InOrder n) n σ₁ := by
    refine .step hreach (Or.inr ⟨?_, ?_⟩) hstep
    · simp [WakeOk, woken, hpc]
    · simp [ReapOk, reaped, hpc]
  rw [step_sleepTime hh' hpc] at hstep
  obtain rfl := Option.some.inj hstep
  obtain ⟨-, loc, P⟩ := (hreach.orderly (orderly_inOrder hn)).kin_ok hn
  have hat := P.at hh' hpc
  have hcur : σ.current ctx = (σ.hart h).tp := by
    rw [show ctx = h from hat.here]
    exact hat.current
  rw [sleepTime, sleepUntil_of_fits hfits, Option.elim_some, hcur] at hreach₁ ⊢
  refine ⟨by simp, fun hd σ₂ hrun k hwakes => ?_⟩
  rw [if_pos hd] at hreach₁ hrun
  obtain ⟨-, loc₂, P₂⟩ := ((hreach₁.run hrun).orderly (orderly_inOrder hn)).kin_ok hn
  refine AsleepUntil.le_time P₂ (AsleepUntil.run hn hreach₁ ?_ hrun) hwakes
  refine Or.inr (Or.inl ⟨h, hh', ?_, ⟨ctx, r, ?_⟩, ?_⟩)
  · simp [System.setTask]
  · simp
  · simp [System.setTask]

theorem sleepsLongEnough_of_never (hnever : 2 ^ 64 ≤ ms * 10000) : SleepsLongEnough ms := by
  intro n σ h ctx r hn hreach hh hpc σ₁ hstep
  have hlarge : 2 ^ 64 ≤ ms * 1000000 := by linarith
  rw [step_sleepTime (hreach.harts_eq.symm ▸ hh) hpc] at hstep
  obtain rfl := Option.some.inj hstep
  rw [sleepTime, sleepUntil_of_large hlarge, sleepUntil_of_fits (by norm_num), Option.elim_some]
  exact ⟨by simp, fun hd => absurd hd (by linarith)⟩

/-- The shell runs, and goes to sleep. -/
theorem shell_sleeps (ms : ℕ) : ∃ σ, Reach (InOrder 1) 1 σ ∧
    σ.hart 0 = ⟨2, .sleepTime 0 ms .user⟩ := by
  obtain ⟨σ, hreach, hhart⟩ := shell_runs
  obtain ⟨-, loc, P⟩ := (hreach.orderly (Or.inl rfl)).kin_ok Nat.one_pos
  have hh : 0 < σ.harts := hreach.harts_eq.symm ▸ Nat.one_pos
  have hstep : step 0 (.sleep ms) σ = some (sleepCurrentTask 0 ms .user σ) := by
    simp [step, event, hhart, Nat.not_le.2 hh]
  refine ⟨_, .step hreach (Or.inl rfl) hstep, ?_⟩
  rw [sleepCurrentTask, P.withCtx_eq hh]
  simp [System.setState, System.setTask, hhart]

theorem sleep_overflows (hlow : ms * 1000000 < 2 ^ 64) (hhigh : 2 ^ 64 ≤ ms * 10000000000000) :
    ∃ σ σ₁, Reach (InOrder 1) 1 σ ∧ (σ.hart 0).pc = .sleepTime 0 ms .user ∧
      step 0 .next σ = some σ₁ ∧ (σ₁.hart 0).pc = .panicked := by
  obtain ⟨σ, hreach, hhart⟩ := shell_sleeps ms
  have hpc : (σ.hart 0).pc = .sleepTime 0 ms .user := by rw [hhart]
  refine ⟨σ, _, hreach, hpc, step_sleepTime (hreach.harts_eq.symm ▸ Nat.one_pos) hpc, ?_⟩
  rw [sleepTime, sleepUntil_eq_none hlow hhigh]
  simp

/-- Durations with the same wake-up time lead to the same state. -/
theorem sleepTime_congr {ctx ms' : ℕ} {r : Resume} (hctx : σ.ctx h = some ctx)
    (heq : sleepUntil σ.time ms = sleepUntil σ.time ms') :
    sleepTime h ctx ms r (sleepCurrentTask h ms r σ) =
      sleepTime h ctx ms' r (sleepCurrentTask h ms' r σ) := by
  have hstate : ∀ ms, sleepCurrentTask h ms r σ =
      (σ.setState (σ.current ctx) .sleeping).setPc h (.sleepTime ctx ms r) := by
    intro ms
    rw [sleepCurrentTask, System.withCtx, hctx]
  rw [hstate, hstate, sleepTime, sleepTime]
  change (sleepUntil σ.time ms).elim _ _ = (sleepUntil σ.time ms').elim _ _
  rw [heq]
  cases sleepUntil σ.time ms' <;> simp [System.setPc, System.setTask, System.setState, System.current]

/-- A long sleep of the shell counts as one of no duration: the next interrupt ends it. -/
theorem sleep_ends_early (hlarge : 2 ^ 64 ≤ ms * 1000000) :
    ∃ σ σ₁ σ₂, Reach (InOrder 1) 1 σ ∧ σ.hart 0 = ⟨2, .sleepTime 0 ms .user⟩ ∧ σ.time = 0 ∧
      step 0 .next σ = some σ₁ ∧ Run (InOrder 1) σ₁ σ₂ ∧ Wakes σ₂ 0 2 ∧ σ₂.time = 0 := by
  have hrun : ((trace (InOrder 1) (steps 0 9) (boot 1)).bind fun σ =>
      (trace (InOrder 1) (steps 0 3) (sleepTime 0 0 0 .user (sleepCurrentTask 0 0 .user σ))).map
        fun σ₂ => decide ((σ.hart 0).tp = 2 ∧ (σ.hart 0).pc = .run .user ∧ σ.ctx 0 = some 0 ∧
          σ.time = 0 ∧ σ₂.time = 0 ∧ (step 0 (.timer [(0, 2), (50000000, 1)]) σ₂).isSome ∧
          2 ∈ σ₂.toWakeUp [(0, 2), (50000000, 1)])) = some true := by decide +kernel
  obtain ⟨σ, hσ, hrun⟩ := Option.bind_eq_some_iff.1 hrun
  obtain ⟨σ₂, hσ₂, hfacts⟩ := Option.map_eq_some_iff.1 hrun
  obtain ⟨htp, hpc, hctx, htime, htime₂, hsome, hwoken⟩ := of_decide_eq_true hfacts
  obtain ⟨σ₃, hσ₃⟩ := Option.isSome_iff_exists.1 hsome
  have hreach : Reach (InOrder 1) 1 σ := reach_trace .boot hσ
  have hh : 0 < σ.harts := hreach.harts_eq.symm ▸ Nat.one_pos
  have hstep : step 0 (.sleep ms) σ = some (sleepCurrentTask 0 ms .user σ) := by
    simp [step, event, hpc, Nat.not_le.2 hh]
  have hhart : (sleepCurrentTask 0 ms .user σ).hart 0 = ⟨2, .sleepTime 0 ms .user⟩ := by
    rw [sleepCurrentTask, System.withCtx, hctx]
    simp [System.setState, System.setTask, htp]
  have hwake := sleepTime_congr (r := .user) hctx (sleepUntil_of_large hlarge)
  refine ⟨_, _, σ₂, .step hreach (Or.inl rfl) hstep, hhart, ?_, ?_, run_trace .refl hσ₂,
    ⟨_, σ₃, hσ₃, hwoken⟩, htime₂⟩
  · rw [(elsewhere_step hstep).time, htime]
  · rw [← hwake]
    exact step_sleepTime ((elsewhere_step hstep).harts ▸ hh) (by rw [hhart])

/-- **Sleeping never ends early and never panics** for durations up to half an hour, and for
those that no clock of 64 bits can measure. -/
theorem sleepsLongEnough_iff (ms : ℕ) :
    SleepsLongEnough ms ↔ ms * 10000000000000 < 2 ^ 64 ∨ 2 ^ 64 ≤ ms * 10000 := by
  refine ⟨fun henough => ?_, fun h => h.elim sleepsLongEnough_of_fits sleepsLongEnough_of_never⟩
  by_contra hno
  obtain ⟨hhigh, hlow⟩ := not_or.1 hno
  rw [not_lt] at hhigh
  rw [not_le] at hlow
  by_cases hnanos : ms * 1000000 < 2 ^ 64
  · obtain ⟨σ, σ₁, hreach, hpc, hstep, hpanic⟩ := sleep_overflows hnanos hhigh
    exact (henough 1 σ 0 0 .user Nat.one_pos hreach Nat.one_pos hpc σ₁ hstep).1 hpanic
  · obtain ⟨σ, σ₁, σ₂, hreach, hhart, htime, hstep, hrun, hwakes, htime₂⟩ :=
      sleep_ends_early (not_lt.1 hnanos)
    have hpc : (σ.hart 0).pc = .sleepTime 0 ms .user := by rw [hhart]
    have hlate := (henough 1 σ 0 0 .user Nat.one_pos hreach Nat.one_pos hpc σ₁ hstep).2
    rw [htime, Nat.zero_add, hhart] at hlate
    have hle := hlate hlow σ₂ hrun 0 hwakes
    rw [htime₂] at hle
    linarith

/-- A sleep of 1844675 milliseconds, a little more than half an hour, panics. -/
theorem sleep_panics : ∃ σ σ₁, Reach (InOrder 1) 1 σ ∧
    (σ.hart 0).pc = .sleepTime 0 1844675 .user ∧ step 0 .next σ = some σ₁ ∧
      (σ₁.hart 0).pc = .panicked :=
  sleep_overflows (by norm_num) (by norm_num)

end Enough

end Efiks.Sched

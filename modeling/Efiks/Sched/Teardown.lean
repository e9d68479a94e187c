import Efiks.Sched.Kinship
import Mathlib.Algebra.Order.BigOperators.Group.Finset

/-!
# Tearing tasks down

A task is given to a reaper at most once in a run, and when the reaper frees it no hart
executes it, it is current nowhere and it lies in no queue of the scheduler. On one hart this
holds of every run; on several harts it holds of the runs in which no task is woken up or
reaped while a hart executes it.
-/
namespace Efiks.Sched

variable {n : ℕ} {σ : System} {ok : System → ℕ → Act → Prop}

section Runs

theorem Reach.mono {ok' : System → ℕ → Act → Prop} (hok : ∀ σ h a, ok σ h a → ok' σ h a)
    (hreach : Reach ok n σ) : Reach ok' n σ := by
  induction hreach with
  | boot => exact .boot
  | step _ h hstep ih => exact .step ih (hok _ _ _ h) hstep
  | tick d _ ih => exact .tick d ih

/-- The runs in question: those of one hart, and the fair ones of several. -/
def Orderly (ok : System → ℕ → Act → Prop) (n : ℕ) : Prop :=
  n = 1 ∨ 0 < n ∧ ∀ σ h a, ok σ h a → Fair σ h a

theorem Orderly.pos (hok : Orderly ok n) : 0 < n := by
  rcases hok with rfl | ⟨hn, -⟩ <;> omega

theorem Reach.orderly (hok : Orderly ok n) (hreach : Reach ok n σ) :
    Reach (fun σ h a => ok σ h a ∧ Fair σ h a) n σ := by
  rcases hok with rfl | ⟨-, hfair⟩
  · exact hreach.fair.1
  · exact hreach.mono fun σ h a h' => ⟨h', hfair σ h a h'⟩

theorem kin_ok_boot (n : ℕ) : (boot n).kin.Ok := by
  have hlife : ∀ t, (boot n).kin.life t = .live := by
    intro t
    simp only [System.kin, boot]
    split <;> rfl
  have hchildren : ∀ t, (boot n).kin.children t = [] := by
    intro t
    simp only [System.kin, boot]
    split <;> rfl
  have hparent : ∀ t, (boot n).kin.parent t = none := by
    intro t
    simp only [System.kin, boot]
    split <;> rfl
  have hstage : ∀ k, (boot n).kin.stage k = .leave := fun _ => rfl
  have hcreated : ∀ t, (boot n).kin.Created t ↔ t < 2 * n + 1 := fun t =>
    ⟨And.left, fun ht => ⟨ht, fun k _ p => by simp [hstage]⟩⟩
  have htickets : ∀ t, (boot n).kin.tickets t = 0 := fun t =>
    Kin.tickets_eq_zero.2 ⟨List.not_mem_nil, fun _ _ => ⟨List.not_mem_nil, by simp [hstage]⟩⟩
  constructor
  · intro j _ k _ hjk
    have : 2 * j = 2 * k := hjk
    omega
  · intro k hk
    have : k < n := hk
    exact (hcreated _).2 (show 2 * k < 2 * n + 1 by omega)
  · exact fun t _ => hlife t
  · exact fun t ht => (hcreated t).2 (Finset.mem_range.1 ht)
  · simp [hstage]
  · simp [hparent]
  · simp [hchildren]
  · simp [hchildren]
  · simp [hlife]
  · simp [hstage]
  · exact fun t ht => Or.inl (Finset.mem_range.2 ((hcreated t).1 ht))
  · simp [htickets]
  · simp [System.kin, boot]
  · simp [hstage]
  · simp [System.kin, boot]
  · simp [hstage]

/-- **The families hold in every run.** -/
theorem Reach.kin_ok (hn : 0 < n) (hreach : Reach (fun σ h a => ok σ h a ∧ Fair σ h a) n σ) :
    σ.kin.Ok ∧ ∃ loc, Placed True none σ loc := by
  induction hreach with
  | boot => exact ⟨kin_ok_boot n, _, placed_boot True hn⟩
  | step hr hok hstep ih =>
    obtain ⟨O, loc, P⟩ := ih
    obtain ⟨-, hwake, hreap⟩ := hok
    have hkin := kinStep_of_step P hreap (fun hf : False => hf.elim) hstep
    exact ⟨O.step (lt_harts_of_step hstep) hkin, P.step hstep hwake fun _ => hreap⟩
  | tick d _ ih =>
    obtain ⟨O, loc, P⟩ := ih
    exact ⟨O, loc, P.tick d⟩

end Runs

section Teardown

/-- No hart executes the task or is about to, and it waits nowhere to be run again. -/
structure Detached (σ : System) (t : Pid) : Prop where
  off : ∀ k < σ.harts, (σ.hart k).tp ≠ t ∧ σ.current k ≠ t
  runqueue : ∀ k, t ∉ (σ.core k).runqueue
  sleeping : ∀ k, t ∉ (σ.core k).sleepingTasks.map Prod.snd
  irq : ∀ i, t ∉ σ.irqWaitQueue i
  waiting : t ∉ σ.waitingTasks

/-- A dead task that no hart executes is detached. -/
theorem Placed.detached {loc : Pid → Loc} (P : Placed True none σ loc) {t : Pid}
    (hc : (loc t).Created) (hd : Dead (σ.task t).state) (hoff : ¬ σ.Executes t) :
    Detached σ t := by
  have hlost : loc t = .lost := by
    have hok := P.task t
    cases hl : loc t with
    | absent =>
      rw [hl] at hc
      exact hc.elim
    | idle k =>
      rw [hl] at hok
      obtain ⟨rfl, hk, -⟩ := hok
      exact absurd hd (P.idle k hk).2.not_dead
    | on k q =>
      obtain ⟨hk, htp⟩ := P.on t k q (by simp) hl
      exact absurd ⟨k, hk, htp⟩ hoff
    | queued q =>
      rw [hl] at hok
      exact absurd hd (hok.2.2.2.not_dead trivial q.not_dead)
    | held k x =>
      rw [hl] at hok hc
      cases x with
      | reserved => exact hc.elim
      | carried => exact absurd hd (hok.2.2 trivial)
      | chosen => exact absurd hd (hok.2.2.2.not_dead trivial (by simp [Dead]))
    | lost => rfl
  have hocc : ∀ q, σ.occ t q = 0 := fun q => by simp [P.occ, hlost, Loc.queue]
  refine ⟨fun k hk => ?_, fun k => ?_, fun k => ?_, fun i => ?_, ?_⟩
  · have htp : (σ.hart k).tp ≠ t := fun h => hoff ⟨k, hk, h⟩
    refine ⟨htp, ?_⟩
    rw [(P.hart k hk (by simp)).current]
    cases hpc : (σ.hart k).pc with
    | switchTo prev next r =>
      intro ht
      have hnext := P.loc_of_hold hk hpc (x := next) (y := .chosen) rfl
      rw [show next = t from ht, hlost] at hnext
      simp at hnext
    | _ => exact htp
  · exact List.count_eq_zero.1 (hocc (.run k))
  · exact List.count_eq_zero.1 (hocc (.sleep k))
  · exact List.count_eq_zero.1 (hocc (.irq i))
  · have := hocc .wait
    simpa [System.occ] using this

/-- **A reaper frees only detached tasks**: neither executed, nor current, nor queued. -/
theorem detached_of_cleanup (hok : Orderly ok n) (hreach : Reach ok n σ) {k : ℕ} (hk : k < n)
    {t : Pid} (hpc : (σ.hart k).pc = .cleanupFree t) : Detached σ t := by
  obtain ⟨O, loc, P⟩ := (hreach.orderly hok).kin_ok hok.pos
  have hk' : k < σ.kin.harts := by rwa [show σ.kin.harts = n from hreach.harts_eq]
  obtain ⟨hcr, hdead, hoff⟩ := O.cleaned t (O.cleanup k hk' t (congrArg Pc.stage hpc))
  refine P.detached (P.created_iff.1 hcr) (life_ne_live.1 hdead) ?_
  rintro ⟨j, hj, htp⟩
  exact hoff j hj htp

/-- The reaper sleeps, the shell exits, and the reaper is woken up by a timer. -/
def reapShell : List Move :=
  steps 0 9 ++ [.act 0 (.exit 3)] ++ steps 0 6 ++
    [.tick 60000000, .act 0 (.timer [(50000000, 1)])] ++ steps 0 6

/-- The reaper of one hart frees the shell after it has exited. -/
theorem detached_of_cleanup_shell : ∃ σ, Reach (fun _ _ _ => True) 1 σ ∧
    (σ.hart 0).pc = .cleanupFree 2 ∧ Detached σ 2 := by
  have hrun : ((trace (fun _ _ _ => True) reapShell (boot 1)).map fun σ => (σ.hart 0).pc) =
      some (.cleanupFree 2) := by decide +kernel
  obtain ⟨σ, hσ, hpc⟩ := Option.map_eq_some_iff.1 hrun
  have hreach := reach_trace (n := 1) .boot hσ
  exact ⟨σ, hreach, hpc, detached_of_cleanup (Or.inl rfl) hreach Nat.one_pos hpc⟩

/-- **Every task is given to a reaper at most once**, and passed to `task::cleanup` at most
once, in a whole run. -/
theorem cleaned_at_most_once (hok : Orderly ok n) (hreach : Reach ok n σ) (t : Pid) :
    σ.cleaned.count t + ∑ k ∈ Finset.range n, (σ.core k).cleanupQueue.count t ≤ 1 := by
  obtain ⟨O, -⟩ := (hreach.orderly hok).kin_ok hok.pos
  refine le_trans ?_ (O.single t)
  rw [Kin.tickets, show σ.kin.harts = n from hreach.harts_eq]
  refine Nat.add_le_add_left (Finset.sum_le_sum fun k _ => ?_) _
  exact Nat.le_add_right _ _

/-- After the shell has been cleaned up nobody gives it to a reaper again. -/
theorem cleaned_at_most_once_shell : ∃ σ, Reach (fun _ _ _ => True) 1 σ ∧
    σ.cleaned.count 2 = 1 ∧
    σ.cleaned.count 2 + ∑ k ∈ Finset.range 1, (σ.core k).cleanupQueue.count 2 ≤ 1 := by
  have hrun : ((trace (fun _ _ _ => True) reapShell (boot 1)).map fun σ => σ.cleaned.count 2) =
      some 1 := by decide +kernel
  obtain ⟨σ, hσ, hcount⟩ := Option.map_eq_some_iff.1 hrun
  have hreach := reach_trace (n := 1) .boot hσ
  exact ⟨σ, hreach, hcount, cleaned_at_most_once (Or.inl rfl) hreach 2⟩

end Teardown

end Efiks.Sched

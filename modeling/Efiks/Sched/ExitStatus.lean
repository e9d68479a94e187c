import Efiks.Sched.Handshake
import Efiks.Syscall.Dispatch

/-!
# The exit status

`SYS_EXIT` decodes its argument as an `i8` and calls `task::exit`; a wait of the parent reads
the code when it takes the zombie, and `sys_wait` encodes it. From the call on, the task never
runs again and its code is not changed. An argument that does not fit in an `i8` is refused,
and the task goes on.

## Main definitions

* `Run` — the steps that follow a state.
* `sysExit`, `waitResult`, `statusWord` — the two calls.
* `ExitReported` — the task ends, and its status reaches whoever waits for it.
-/
namespace Efiks.Sched

section Calls

/-- The states that follow `σ` in a run. -/
inductive Run (ok : System → ℕ → Act → Prop) (σ : System) : System → Prop
  | refl : Run ok σ σ
  | step {τ τ' : System} {h : ℕ} {a : Act} : Run ok σ τ → ok τ h a → step h a τ = some τ' →
      Run ok σ τ'
  | tick {τ : System} (d : ℕ) : Run ok σ τ → Run ok σ { τ with time := τ.time + d }

theorem Reach.run {ok : System → ℕ → Act → Prop} {n : ℕ} {σ τ : System} (hreach : Reach ok n σ)
    (hrun : Run ok σ τ) : Reach ok n τ := by
  induction hrun with
  | refl => exact hreach
  | step _ hok hstep ih => exact .step ih hok hstep
  | tick d _ ih => exact .tick d ih

theorem run_trace {ok : System → ℕ → Act → Prop} [∀ σ h a, Decidable (ok σ h a)]
    {moves : List Move} {ρ σ τ : System} (hrun : Run ok ρ σ) (h : trace ok moves σ = some τ) :
    Run ok ρ τ := by
  induction moves generalizing σ with
  | nil => exact Option.some.inj h ▸ hrun
  | cons move moves ih =>
    cases move with
    | act k a =>
      rw [trace] at h
      split at h
      · next hok =>
        obtain ⟨σ', hσ', h⟩ := Option.bind_eq_some_iff.1 h
        exact ih (.step hrun hok hσ') h
      · simp at h
    | tick d => exact ih (.tick d hrun) h

/-- `SYS_EXIT` with the argument `a0`. -/
def sysExit (h a0 : ℕ) (σ : System) : Option System :=
  if a0 ≤ 127 then step h (.exit a0) σ else some σ

/-- What `reap_zombie_child` returns when the step reads the code of a child. -/
def waitResult (σ : System) (h : ℕ) (a : Act) : Option (Pid × ℤ) :=
  match a, (σ.hart h).pc with
  | .next, .waitCheck ctx =>
      ((σ.zombieChild (σ.current ctx)).bind fun i => (σ.task (σ.current ctx)).children[i]?).map
        fun c => (c, (σ.task c).exitCode)
  | .next, .reapQueue c => some (c, (σ.task c).exitCode)
  | _, _ => none

/-- The status word `sys_wait` writes for an exit code. -/
def statusWord (exitCode : ℤ) : ℕ := Syscall.rawWaitStatus (UInt8.ofNat (exitCode % 256).toNat)

end Calls

section Code

variable {σ σ' : System} {loc : Pid → Loc} {h : ℕ} {a : Act} {t : Pid}

/-- The exit code of a task is set by its own call only. -/
theorem exitCode_step (P : Placed True none σ loc) (hc : (loc t).Created)
    (hrun : (σ.hart h).tp = t → ∀ r, (σ.hart h).pc ≠ .run r) (hstep : step h a σ = some σ') :
    (σ'.task t).exitCode = (σ.task t).exitCode := by
  change σ'.ledger.exitCode t = σ.ledger.exitCode t
  have hl := ledgerStep P hstep
  generalize σ'.ledger = L at hl ⊢
  cases hl with
  | add hpc =>
    refine Function.update_of_ne (fun ht => ?_) _ _
    rw [ht, P.loc_of_hold (lt_harts_of_step hstep) hpc rfl] at hc
    exact hc
  | exit code hpc => exact Function.update_of_ne (fun ht => hrun ht.symm _ hpc) _ _
  | _ => rfl

end Code

section Ended

/-- The task has called `task::exit` with this code. -/
structure Ended (σ : System) (t : Pid) (code : ℤ) : Prop where
  created : σ.kin.Created t
  exitCode : (σ.task t).exitCode = code
  ended : Dead (σ.task t).state ∨
    ∃ k < σ.harts, (σ.hart k).tp = t ∧ ∃ ctx, (σ.hart k).pc = .exitZombie ctx

variable {σ σ' : System} {loc : Pid → Loc} {h : ℕ} {a : Act} {t : Pid} {code : ℤ}

/-- A task that has ended runs nowhere. -/
theorem Ended.not_run (E : Ended σ t code) (P : Placed True none σ loc) (hh : h < σ.harts)
    (htp : (σ.hart h).tp = t) (r : Resume) : (σ.hart h).pc ≠ .run r := by
  intro hpc
  rcases E.ended with hd | ⟨k, hk, hkt, ctx, hkpc⟩
  · have hstage := (P.at hh hpc).stage.2
    rw [htp] at hstage
    exact hstage.not_dead trivial (by simp [Dead]) hd
  · obtain ⟨q, hq⟩ := P.tp h hh (by simp)
    have hkh : k = h := by
      obtain ⟨q', hq'⟩ := P.tp k hk (by simp)
      rw [hkt, ← htp, hq] at hq'
      exact (Loc.on.inj hq').1.symm
    subst hkh
    rw [hkpc] at hpc
    simp at hpc

/-- A task that has ended stays so, with its code. -/
theorem Ended.step (E : Ended σ t code) (P : Placed True none σ loc) (hreap : ReapOk σ h a)
    (hstep : step h a σ = some σ') : Ended σ' t code := by
  have hc := P.created_iff.1 E.created
  have hkin := kinStep_of_step P hreap (fun hf : False => hf.elim) hstep
  refine ⟨hkin.created E.created, ?_, ?_⟩
  · rw [← E.exitCode]
    exact exitCode_step P hc (E.not_run P (lt_harts_of_step hstep)) hstep
  · rcases E.ended with hd | ⟨k, hk, hkt, ctx, hkpc⟩
    · exact Or.inl (dead_step P hc hd hstep)
    · by_cases hkh : k = h
      · subst hkh
        have hat := P.at hk hkpc
        have hctx : ctx = k := hat.here
        left
        obtain ⟨-, ⟨-, hk'⟩ | ⟨r, hpc, -⟩⟩ := step_cases hstep
        · rw [hkpc] at hk'
          obtain rfl := Option.some.inj hk'
          have hcur : σ.current k = t := hat.current.trans hkt
          rw [exitZombie, setPc_task, hctx, hcur, setState_state]
          exact Or.inl rfl
        · rw [hkpc] at hpc
          simp at hpc
      · have he := elsewhere_step hstep
        refine Or.inr ⟨k, he.harts ▸ hk, ?_⟩
        rw [he.hart k hkh]
        exact ⟨hkt, ctx, hkpc⟩

/-- The call of `task::exit`. -/
theorem ended_exit (P : Placed True none σ loc) (hh : h < σ.harts)
    (hpc : (σ.hart h).pc = .run .user) (hstep : Sched.step h (.exit code) σ = some σ') :
    Ended σ' (σ.hart h).tp code := by
  have hat := P.at hh hpc
  have hcr : σ.kin.Created (σ.hart h).tp := by
    obtain ⟨q, hq⟩ := P.tp h hh (by simp)
    rw [P.created_iff, hq]
    trivial
  have hkin := kinStep_of_step P (a := .exit code) (by simp [ReapOk, reaped])
    (fun hf : False => hf.elim) hstep
  obtain ⟨-, ⟨ha, -⟩ | ⟨r, hpc', he⟩⟩ := step_cases hstep
  · simp at ha
  · obtain rfl : Resume.user = r := by simpa using hpc.symm.trans hpc'
    simp only [event, if_true, Option.some.injEq] at he
    have hlive : (σ.task (σ.hart h).tp).state ≠ .exited := fun hs =>
      hat.stage.2.not_dead trivial (by simp [Dead]) (Or.inr hs)
    rw [Sched.exitCode, P.withCtx_eq hh, hat.current] at he
    dsimp only [Pc.current] at he
    rw [if_neg hlive] at he
    refine ⟨hkin.created hcr, ?_, Or.inr ⟨h, ?_, ?_⟩⟩
    · rw [← he, setPc_task]
      simp [System.setTask]
    · exact (elsewhere_step hstep).harts ▸ hh
    · rw [← he]
      simp [System.setTask]

end Ended

section Reported

/-- On several harts, no task is woken up or reaped while a hart executes it. -/
def InOrder (n : ℕ) (σ : System) (h : ℕ) (a : Act) : Prop := n = 1 ∨ Fair σ h a

instance (n : ℕ) (σ : System) (h : ℕ) (a : Act) : Decidable (InOrder n σ h a) :=
  inferInstanceAs (Decidable (_ ∨ _))

theorem orderly_inOrder {n : ℕ} (hn : 0 < n) : Orderly (InOrder n) n := by
  by_cases h1 : n = 1
  · exact Or.inl h1
  · exact Or.inr ⟨hn, fun _ _ _ hok => hok.resolve_left h1⟩

/-- A task that calls `SYS_EXIT` with `a0` never runs again, and a wait that returns it writes
the low byte of `a0`. -/
def ExitReported (a0 : ℕ) : Prop :=
  ∀ n σ h, 0 < n → Reach (InOrder n) n σ → h < n → (σ.hart h).pc = .run .user →
    ∀ σ₁, sysExit h a0 σ = some σ₁ → ∀ σ₂, Run (InOrder n) σ₁ σ₂ →
      (∀ k < n, (σ₂.hart k).tp = (σ.hart h).tp → ∀ r, (σ₂.hart k).pc ≠ .run r) ∧
      ∀ k a code, waitResult σ₂ k a = some ((σ.hart h).tp, code) →
        statusWord code = a0 % 256 * 256

variable {n : ℕ} {σ τ : System} {t : Pid} {code : ℤ}

/-- The steps of an orderly run are fair. -/
theorem Orderly.fair {ok : System → ℕ → Act → Prop} (hok : Orderly ok n) (hreach : Reach ok n σ)
    {h : ℕ} {a : Act} (ha : ok σ h a) (hstep : step h a σ = some τ) : Fair σ h a := by
  rcases hok with rfl | ⟨-, hfair⟩
  · obtain ⟨-, S, loc, P⟩ := hreach.fair
    exact fair_of_solo S P hreach.harts_eq hstep
  · exact hfair σ h a ha

/-- The code that a wait returns is the one the child has. -/
theorem waitResult_eq {k : ℕ} {a : Act} (hres : waitResult σ k a = some (t, code)) :
    (σ.task t).exitCode = code := by
  unfold waitResult at hres
  split at hres
  · obtain ⟨c, -, hc⟩ := Option.map_eq_some_iff.1 hres
    obtain ⟨rfl, rfl⟩ := Prod.mk.inj hc
    rfl
  · obtain ⟨rfl, rfl⟩ := Prod.mk.inj (Option.some.inj hres)
    rfl
  · simp at hres

theorem Ended.run (hn : 0 < n) (hreach : Reach (InOrder n) n σ) (E : Ended σ t code)
    (hrun : Run (InOrder n) σ τ) : Ended τ t code := by
  induction hrun with
  | refl => exact E
  | @step τ τ' h a hrun hok hstep ih =>
    have hreach' := hreach.run hrun
    obtain ⟨-, loc, P⟩ := (hreach'.orderly (orderly_inOrder hn)).kin_ok hn
    exact ih.step P ((orderly_inOrder hn).fair hreach' hok hstep).2 hstep
  | tick d _ ih => exact ⟨ih.created, ih.exitCode, ih.ended⟩

theorem statusWord_natCast {a0 : ℕ} (ha : a0 ≤ 127) : statusWord (a0 : ℤ) = a0 % 256 * 256 := by
  have hmod : ((a0 : ℤ) % 256).toNat = a0 := by omega
  rw [statusWord, Syscall.rawWaitStatus, hmod, UInt8.toNat_ofNat']
  norm_num

theorem exitReported_of_le {a0 : ℕ} (ha : a0 ≤ 127) : ExitReported a0 := by
  intro n σ h hn hreach hh hpc σ₁ hexit σ₂ hrun
  rw [sysExit, if_pos ha] at hexit
  obtain ⟨-, loc, P⟩ := (hreach.orderly (orderly_inOrder hn)).kin_ok hn
  have hok : InOrder n σ h (.exit a0) := Or.inr ⟨by simp [WakeOk, woken], by simp [ReapOk, reaped]⟩
  have hreach₁ : Reach (InOrder n) n σ₁ := .step hreach hok hexit
  have E := (ended_exit P (hreach.harts_eq.symm ▸ hh) hpc hexit).run hn hreach₁ hrun
  have hreach₂ := hreach₁.run hrun
  obtain ⟨-, loc₂, P₂⟩ := (hreach₂.orderly (orderly_inOrder hn)).kin_ok hn
  refine ⟨fun k hk htp r => E.not_run P₂ (hreach₂.harts_eq.symm ▸ hk) htp r, ?_⟩
  intro k a code hres
  rw [← waitResult_eq hres, E.exitCode, statusWord_natCast ha]

/-- The shell runs user code. -/
theorem shell_runs : ∃ σ, Reach (InOrder 1) 1 σ ∧ σ.hart 0 = ⟨2, .run .user⟩ := by
  have hrun : ((trace (InOrder 1) (steps 0 9) (boot 1)).map fun σ =>
      ((σ.hart 0).tp, (σ.hart 0).pc)) = some (2, .run .user) := by decide +kernel
  obtain ⟨σ, hσ, hpc⟩ := Option.map_eq_some_iff.1 hrun
  simp only [Prod.mk.injEq] at hpc
  exact ⟨σ, reach_trace .boot hσ, by rw [← hpc.1, ← hpc.2]⟩

/-- **The exit status reaches the parent** when it fits in an `i8`; otherwise the task does not
even end. -/
theorem exitReported_iff (a0 : ℕ) : ExitReported a0 ↔ a0 ≤ 127 := by
  refine ⟨fun hreported => ?_, exitReported_of_le⟩
  by_contra ha
  obtain ⟨σ, hreach, hhart⟩ := shell_runs
  have hpc : (σ.hart 0).pc = .run .user := by rw [hhart]
  have hexit : sysExit 0 a0 σ = some σ := if_neg ha
  exact (hreported 1 σ 0 Nat.one_pos hreach Nat.one_pos hpc σ hexit σ .refl).1 0 Nat.one_pos rfl
    .user hpc

/-- The shell calls `exit(128)` and goes on. -/
theorem exit_refused : ∃ σ, Reach (InOrder 1) 1 σ ∧ σ.hart 0 = ⟨2, .run .user⟩ ∧
    sysExit 0 128 σ = some σ ∧ ¬ ExitReported 128 := by
  obtain ⟨σ, hreach, hhart⟩ := shell_runs
  refine ⟨σ, hreach, hhart, rfl, fun hreported => ?_⟩
  have hpc : (σ.hart 0).pc = .run .user := by rw [hhart]
  exact (hreported 1 σ 0 Nat.one_pos hreach Nat.one_pos hpc σ rfl σ .refl).1 0 Nat.one_pos rfl
    .user hpc

end Reported

end Efiks.Sched

import Efiks.Sched.Handshake

/-!
# Orphans

A task that exits forgets its children, and tells a parent that is still in the table even
when the parent is dead. Both lose zombies. In a run whose exits do neither, every zombie has
somebody to take it: its own exit, a reaper, or a live parent that lists it.

## Main definitions

* `ExitOk` — a task exits with no zombie to its name, and before its parent does.
* `Kin.Cared` — every zombie has somebody to take it.
-/
namespace Efiks.Sched

section Abstract

variable {K K' : Kin} {home : Prop} {h : ℕ}

/-- The task of hart `h` leaves no zombie behind and has no dead parent. -/
structure Kin.GoodDeath (K : Kin) (h : ℕ) : Prop where
  child : ∀ c ∈ K.children (K.tp h), K.life c ≠ .zombie
  parent : ∀ p, K.parent (K.tp h) = some p → p ∈ K.table → K.life p = .live

/-- A live parent lists the task. -/
def Kin.Wanted (K : Kin) (p c : ℕ) : Prop := c ∈ K.children p ∧ K.life p = .live

/-- Every zombie has somebody to take it. -/
def Kin.Cared (K : Kin) : Prop := ∀ c, K.life c = .zombie →
  (∃ k < K.harts, K.tp k = c ∧ (K.stage k = .dying ∨ K.stage k = .notify) ∧
    ∀ p, K.parent c = some p → p ∈ K.table → K.Wanted p c) ∨
  (∃ k < K.harts, K.tp k = c ∧ K.stage k = .orphan) ∨
  K.tickets c ≠ 0 ∨ ∃ p ∈ K.table, K.Wanted p c

theorem KinStep.cleaned_keep (hstep : KinStep home h K K') {t : ℕ} (ht : t ∈ K.cleaned) :
    t ∈ K'.cleaned := by
  cases hstep with
  | pop => exact List.mem_append_left _ ht
  | _ => exact ht

theorem KinStep.queue_keep (hstep : KinStep home h K K') {k t : ℕ} (ht : t ∈ K.queue k) :
    t ∈ K'.queue k ∨ t ∈ K'.cleaned := by
  have hpush : ∀ u, t ∈ (K.push h u).queue k := by
    intro u
    by_cases hk : k = h
    · subst hk
      simp [Kin.push, ht]
    · simpa [Kin.push, hk] using ht
  cases hstep with
  | abandon => exact Or.inl (hpush _)
  | take => exact Or.inl (hpush _)
  | hand => exact Or.inl (hpush _)
  | pop u queue hst hq =>
    by_cases hk : k = h
    · subst hk
      rw [hq] at ht
      rcases List.mem_cons.1 ht with rfl | ht
      · exact Or.inr (by simp)
      · exact Or.inl (by simpa using ht)
    · exact Or.inl (by simpa [hk] using ht)
  | _ => exact Or.inl ht

theorem KinStep.reap_keep (hstep : KinStep home h K K') {k t : ℕ} (ht : K.stage k = .reap t) :
    K'.stage k = .reap t ∨ t ∈ K'.queue k := by
  by_cases hk : k = h
  · subst hk
    cases hstep with
    | stay | mark => exact Or.inl ht
    | hand c hst =>
      obtain rfl : t = c := by simpa [ht] using hst
      exact Or.inr (by simp [Kin.setStage, Kin.push])
    | _ => simp_all
  · exact Or.inl ((hstep.frame hk).2.trans ht)

/-- A ticket is never lost. -/
theorem KinStep.tickets_keep (hstep : KinStep home h K K') {t : ℕ} (ht : K.tickets t ≠ 0) :
    K'.tickets t ≠ 0 := by
  intro hzero
  obtain ⟨hcleaned, hrest⟩ := Kin.tickets_eq_zero.1 hzero
  rw [hstep.harts] at hrest
  refine ht (Kin.tickets_eq_zero.2 ⟨mt hstep.cleaned_keep hcleaned, fun k hk => ⟨?_, ?_⟩⟩)
  · exact fun hq => (hstep.queue_keep hq).elim (hrest k hk).1 hcleaned
  · exact fun hr => (hstep.reap_keep hr).elim (hrest k hk).2 (hrest k hk).1

/-- A child that a live parent lists stays there, until it is taken. -/
theorem KinStep.wanted (O : K.Ok) (hh : h < K.harts) (hstep : KinStep home h K K')
    (hdeath : K.stage h = .exiting → K.GoodDeath h) {p c : ℕ}
    (hz : K.life c = .zombie) (hw : K.Wanted p c) :
    K'.Wanted p c ∨ K.Off c ∧ K'.tickets c ≠ 0 := by
  obtain ⟨hc, hlive⟩ := hw
  have hlive' : K'.life p = .live := by
    refine (hstep.live O hh hlive).resolve_right ?_
    rintro ⟨rfl, hexit⟩
    exact (hdeath hexit).child c hc hz
  rcases hstep.children_keep O hh hc with hc | hdead | ⟨-, hoff, -, ht⟩
  · exact Or.inl ⟨hc, hlive'⟩
  · exact absurd hlive hdead
  · exact Or.inr ⟨hoff, ht⟩

/-- A live task stays in the table. -/
theorem KinStep.table_keep (O : K.Ok) (hh : h < K.harts) (hstep : KinStep home h K K') {p : ℕ}
    (hp : p ∈ K.table) (hlive : K.life p = .live) : p ∈ K'.table := by
  cases hstep with
  | birth => exact Finset.mem_insert_of_mem hp
  | remove t hst =>
    refine Finset.mem_erase.2 ⟨?_, hp⟩
    rintro rfl
    exact (O.cleaned p (O.cleanup h hh p hst)).2.1 hlive
  | _ => exact hp

/-- A task that is there enters the table once. -/
theorem KinStep.table_back (hh : h < K.harts) (hstep : KinStep home h K K') {p : ℕ}
    (hp : p ∈ K'.table) (hcr : K.Created p) : p ∈ K.table := by
  cases hstep with
  | birth c q hst =>
    rcases Finset.mem_insert.1 hp with rfl | hp
    · exact absurd hst (hcr.2 h hh q)
    · exact hp
  | remove => exact Finset.mem_of_mem_erase hp
  | _ => exact hp

/-- **Every step** whose exits are good keeps the zombies cared for. -/
theorem Kin.Cared.step (C : K.Cared) (O : K.Ok) (B : K.Bonds) (hh : h < K.harts)
    (hstep : KinStep home h K K')
    (hdeath : K.stage h = .exiting → K.GoodDeath h) : K'.Cared := by
  intro c hz'
  rw [hstep.harts]
  rcases hstep.zombie_back hz' with hz | ⟨rfl, hexit, rfl⟩
  · have hcr : K.Created c := not_not.1 fun hn => by simp [O.unborn c hn] at hz
    rcases C c hz with ⟨k, hk, rfl, hst, hpar⟩ | ⟨k, hk, rfl, hst⟩ | ht | ⟨p, hp, hw⟩
    · by_cases hkh : k = h
      · subst hkh
        have hwanted : ∀ p, K.Wanted p (K.tp k) → K'.Wanted p (K.tp k) := fun p hw =>
          (hstep.wanted O hh hdeath hz hw).resolve_right fun hx => hx.1 k hk rfl
        cases hstep with
        | stay => exact Or.inl ⟨k, hk, rfl, hst, hpar⟩
        | disown hst' hdead =>
          exact Or.inl ⟨k, hk, rfl, by simp, fun p hp htable => hwanted p (hpar p hp htable)⟩
        | notify p hst' hp htable =>
          exact Or.inr (Or.inr (Or.inr ⟨p, htable, hwanted p (hpar p hp htable)⟩))
        | orphan hst' hp => exact Or.inr (Or.inl ⟨k, hk, rfl, by simp⟩)
        | _ => simp_all
      · obtain ⟨h₁, h₂⟩ := hstep.frame hkh
        refine Or.inl ⟨k, hk, h₁, h₂ ▸ hst, fun p hp htable => ?_⟩
        rw [hstep.parent_eq hcr hh] at hp
        have hw := hpar p hp (hstep.table_back hh htable (O.adopted _ p hp).1)
        refine (hstep.wanted O hh hdeath hz hw).resolve_right fun hx => hx.1 k hk rfl
    · by_cases hkh : k = h
      · subst hkh
        cases hstep with
        | stay => exact Or.inr (Or.inl ⟨k, hk, rfl, hst⟩)
        | abandon hst' hdead =>
          refine Or.inr (Or.inr (Or.inl fun hzero => ?_))
          have hq := ((Kin.tickets_eq_zero.1 hzero).2 k hk).1
          simp [Kin.setStage, Kin.push] at hq
        | _ => simp_all
      · obtain ⟨h₁, h₂⟩ := hstep.frame hkh
        exact Or.inr (Or.inl ⟨k, hk, h₁, h₂ ▸ hst⟩)
    · exact Or.inr (Or.inr (Or.inl (hstep.tickets_keep ht)))
    · rcases hstep.wanted O hh hdeath hz hw with hw' | ⟨-, ht⟩
      · exact Or.inr (Or.inr (Or.inr ⟨p, hstep.table_keep O hh hp hw.2, hw'⟩))
      · exact Or.inr (Or.inr (Or.inl ht))
  · refine Or.inl ⟨h, hh, rfl, by simp, fun p hp htable => ?_⟩
    have hlive := (hdeath hexit).parent p hp htable
    have hne : p ≠ K.tp h := (O.adopted _ p hp).2
    have hc := (B.listed _ p (O.run h hh) hp hlive).resolve_right fun hx => hx.2 h hh rfl
    exact ⟨hc, by simpa [Kin.setStage, Kin.setLife, hne] using hlive⟩

end Abstract

section Runs

variable {n : ℕ} {σ : System} {ok : System → ℕ → Act → Prop}

/-- The step marks the task as a zombie. -/
def Pc.dies : Pc → Bool
  | .exitZombie _ => true
  | _ => false

/-- A task becomes a zombie only when none of its children is one, and when its parent, if it
is still in the table, is not dead. -/
def ExitOk (σ : System) (h : ℕ) (_ : Act) : Prop :=
  (σ.hart h).pc.dies = true →
    (∀ c ∈ (σ.task (σ.hart h).tp).children, (σ.task c).state ≠ .zombie) ∧
      ∀ p ∈ (σ.task (σ.hart h).tp).parent, p ∈ σ.table → ¬ Dead (σ.task p).state

instance (s : TaskState) : Decidable (Dead s) :=
  inferInstanceAs (Decidable (s = .zombie ∨ s = .exited))

instance (σ : System) (h : ℕ) (a : Act) : Decidable (ExitOk σ h a) :=
  inferInstanceAs (Decidable (_ → _))

theorem ExitOk.goodDeath {h : ℕ} {a : Act} (hexit : ExitOk σ h a)
    (hst : (σ.hart h).pc.stage = .exiting) : σ.kin.GoodDeath h := by
  cases hpc : (σ.hart h).pc <;> simp [hpc, Pc.stage] at hst
  obtain ⟨hzombie, hparent⟩ := hexit (by rw [hpc]; rfl)
  refine ⟨fun c hc hz => hzombie c hc ?_, fun p hp htable => ?_⟩
  · have hl : (σ.task c).state.life = .zombie := hz
    cases hs : (σ.task c).state <;> simp [hs, TaskState.life] at hl ⊢
  · exact life_eq_live.2 (hparent p hp htable)

theorem Reach.cared (hn : 0 < n) (hreach : Reach (fun σ h a => ok σ h a ∧ Fair σ h a) n σ)
    (hexit : ∀ σ h a, ok σ h a → ExitOk σ h a) : σ.kin.Cared := by
  induction hreach with
  | boot =>
    intro c hc
    simp only [System.kin, Sched.boot] at hc
    split at hc <;> simp [kernelTask, TaskState.life] at hc
  | step hr hok hstep ih =>
    obtain ⟨O, loc, P⟩ := hr.kin_ok hn
    have hkin := kinStep_of_step P hok.2.2 (fun hf : False => hf.elim) hstep
    exact ih.step O (hr.bonds hn) (lt_harts_of_step hstep) hkin (hexit _ _ _ hok.1).goodDeath
  | tick d _ ih => exact ih

/-- **No zombie is orphaned**, as long as every task exits with no zombie to its name and
before its parent does: a zombie is in the middle of its own exit, or given to a reaper, or
listed by a parent that is in the table and alive. -/
theorem no_orphan (hok : Orderly ok n) (hexit : ∀ σ h a, ok σ h a → ExitOk σ h a)
    (hreach : Reach ok n σ) {c : Pid} (hz : (σ.task c).state = .zombie) :
    (∃ k < n, (σ.hart k).tp = c ∧ ∃ ctx, (σ.hart k).pc = .exitChildren ctx ∨
      (σ.hart k).pc = .exitNotify ctx ∨ (σ.hart k).pc = .exitCleanup ctx) ∨
    (c ∈ σ.cleaned ∨ ∃ k < n, c ∈ (σ.core k).cleanupQueue ∨ (σ.hart k).pc.doomed = some c) ∨
    ∃ p ∈ σ.table, c ∈ (σ.task p).children ∧ ¬ Dead (σ.task p).state := by
  have hfair := hreach.orderly hok
  have hn : σ.kin.harts = n := hreach.harts_eq
  have hlife : σ.kin.life c = .zombie := by simp [System.kin, hz, TaskState.life]
  rcases hfair.cared hok.pos hexit c hlife with
    ⟨k, hk, htp, hst, -⟩ | ⟨k, hk, htp, hst⟩ | ht | ⟨p, hp, hc, hl⟩
  · refine Or.inl ⟨k, hn ▸ hk, htp, ?_⟩
    have hst' : (σ.hart k).pc.stage = .dying ∨ (σ.hart k).pc.stage = .notify := hst
    cases hpc : (σ.hart k).pc <;> simp [hpc, Pc.stage] at hst' ⊢
  · refine Or.inl ⟨k, hn ▸ hk, htp, ?_⟩
    have hst' : (σ.hart k).pc.stage = .orphan := hst
    cases hpc : (σ.hart k).pc <;> simp [hpc, Pc.stage] at hst' ⊢
  · refine Or.inr (Or.inl ?_)
    by_contra hno
    obtain ⟨hcleaned, hrest⟩ := not_or.1 hno
    refine ht (Kin.tickets_eq_zero.2 ⟨hcleaned, fun k hk => ⟨fun hq => ?_, fun hr => ?_⟩⟩)
    · exact hrest ⟨k, hn ▸ hk, Or.inl hq⟩
    · refine hrest ⟨k, hn ▸ hk, Or.inr ?_⟩
      have hst' : (σ.hart k).pc.stage = .reap c := hr
      cases hpc : (σ.hart k).pc <;> simp [hpc, Pc.stage] at hst' <;> simp [Pc.doomed, hst']
  · exact Or.inr (Or.inr ⟨p, hp, hc, life_eq_live.1 hl⟩)

/-- The child of the shell is a zombie that the shell is about to take. -/
theorem no_orphan_shell : ∃ σ, Reach ExitOk 1 σ ∧ (σ.task 3).state = .zombie ∧
    ∃ p ∈ σ.table, 3 ∈ (σ.task p).children ∧ ¬ Dead (σ.task p).state := by
  have hrun : ((trace ExitOk (waitForChild ++ [.act 0 (.exit 7)] ++ steps 0 10) (boot 1)).map
      fun σ => ((σ.task 3).state, (σ.hart 0).pc, σ.cleaned, (σ.core 0).cleanupQueue)) =
      some (.zombie, .run (.wait 0), [], []) := by decide +kernel
  obtain ⟨σ, hσ, hst⟩ := Option.map_eq_some_iff.1 hrun
  obtain ⟨hz, hpc, hcleaned, hqueue⟩ : (σ.task 3).state = .zombie ∧
      (σ.hart 0).pc = .run (.wait 0) ∧ σ.cleaned = [] ∧ (σ.core 0).cleanupQueue = [] := by
    simpa using hst
  have hreach : Reach ExitOk 1 σ := reach_trace .boot hσ
  refine ⟨σ, hreach, hz, ?_⟩
  rcases no_orphan (Or.inl rfl) (fun _ _ _ h => h) hreach hz with ⟨k, hk, -, hx⟩ | hx | hx
  · obtain rfl : k = 0 := by omega
    simp [hpc] at hx
  · simp [hpc, hcleaned, hqueue, Pc.doomed] at hx
  · exact hx

end Runs

end Efiks.Sched

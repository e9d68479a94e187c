import Efiks.Sched.Teardown

/-!
# The handshake of wait and exit

A task that dies is a zombie first and tells its parent afterwards; a parent that waits looks
for zombies first and enters the set of those that wait afterwards. Both do so under one lock.
No wake-up is lost between the two: while a parent waits and a child of it is a zombie, this
child has not yet told it.

## Main definitions

* `Kin.Bonds` — what parents and children know about each other.
-/
namespace Efiks.Sched

section Inversion

variable {K K' : Kin} {home : Prop} {h : ℕ}

theorem KinStep.harts (hstep : KinStep home h K K') : K'.harts = K.harts := by
  cases hstep <;> rfl

/-- A step of hart `h` leaves the other harts alone. -/
theorem KinStep.frame (hstep : KinStep home h K K') {k : ℕ} (hk : k ≠ h) :
    K'.tp k = K.tp k ∧ K'.stage k = K.stage k := by
  cases hstep <;>
    simp [Kin.setStage, Kin.setLife, Kin.push, Kin.removeChild, Kin.fork, Kin.addTask, hk]

/-- A zombie was one before, or has just died. -/
theorem KinStep.zombie_back (hstep : KinStep home h K K') {c : ℕ} (hz : K'.life c = .zombie) :
    K.life c = .zombie ∨ K.tp h = c ∧ K.stage h = .exiting ∧
      K' = (K.setLife c .zombie).setStage h .dying := by
  cases hstep with
  | die hst hlive =>
    by_cases hc : c = K.tp h
    · subst hc
      exact Or.inr ⟨rfl, hst, rfl⟩
    · exact Or.inl (by simpa [Kin.setStage, Kin.setLife, hc] using hz)
  | birth c' p hst =>
    by_cases hc : c = c'
    · simp [Kin.addTask, hc] at hz
    · exact Or.inl (by simpa [Kin.addTask, hc] using hz)
  | mark c' hst | finish c' hst =>
    by_cases hc : c = c'
    · simp [Kin.setLife, hc] at hz
    · exact Or.inl (by simpa [Kin.setLife, hc] using hz)
  | take i c' hst hr htable =>
    by_cases hc : c = c'
    · simp [Kin.setStage, Kin.setLife, Kin.push, hc] at hz
    · exact Or.inl (by simpa [Kin.setStage, Kin.setLife, Kin.push, Kin.removeChild, hc] using hz)
  | _ => exact Or.inl hz

/-- A child was one before, or has just got its number. -/
theorem KinStep.mem_children (hstep : KinStep home h K K') {p c : ℕ} (hc : c ∈ K'.children p) :
    c ∈ K.children p ∨ c = K.pidCounter ∧ K'.life = K.life := by
  have herase : ∀ q i, c ∈ (K.removeChild q i).children p → c ∈ K.children p := by
    intro q i hc
    by_cases hp : p = q
    · subst hp
      simp only [Kin.removeChild, Function.update_self] at hc
      exact List.mem_of_mem_eraseIdx hc
    · simpa [Kin.removeChild, hp] using hc
  cases hstep with
  | fork hst hlive =>
    by_cases hp : p = K.tp h
    · subst hp
      simp only [Kin.fork, Function.update_self, List.mem_append, List.mem_singleton] at hc
      exact hc.imp_right fun hc => ⟨hc, rfl⟩
    · exact Or.inl (by simpa [Kin.fork, hp] using hc)
  | birth c' q hst =>
    by_cases hp : p = c'
    · simp [Kin.addTask, hp] at hc
    · exact Or.inl (by simpa [Kin.addTask, hp] using hc)
  | disown hst hdead =>
    by_cases hp : p = K.tp h
    · simp [hp] at hc
    · exact Or.inl (by simpa [hp] using hc)
  | take i c' hst hr htable => exact Or.inl (herase _ _ hc)
  | reap q i c' hst hhome hr htable => exact Or.inl (herase _ _ hc)
  | lose q i c' hst hr htable => exact Or.inl (herase _ _ hc)
  | _ => exact Or.inl hc

/-- A task that waits did so before, or has found no zombie. -/
theorem KinStep.mem_waiting (hstep : KinStep home h K K') {p : ℕ} (hp : p ∈ K'.waiting) :
    p ∈ K.waiting ∨ p = K.tp h ∧ K.NoZombie p ∧ K.life p = .live ∧ K'.children = K.children ∧
      K'.life = K.life ∧ K'.stage h = .leave ∧ K'.tp = K.tp := by
  cases hstep with
  | wake q hst hq => exact Or.inl (Finset.mem_of_mem_erase hp)
  | block hst hlive hno =>
    rcases Finset.mem_insert.1 hp with rfl | hp
    · exact Or.inr ⟨rfl, hno, hlive, rfl, rfl, by simp, rfl⟩
    · exact Or.inl hp
  | _ => exact Or.inl hp

/-- A hart that executes another task than before has left the old one for a live one. -/
theorem KinStep.tp_eq (hstep : KinStep home h K K') : K'.tp h = K.tp h ∨
    K.stage h = .leave ∧ K.life (K'.tp h) = .live ∧ K'.tp h ∉ K.waiting ∧ K'.stage h = .busy ∧
      K'.life = K.life := by
  cases hstep with
  | switch t hst hcr hlive hoff hno =>
    refine Or.inr ⟨hst, ?_, ?_, by simp, rfl⟩
    · simpa using hlive
    · simpa using hno
  | _ => exact Or.inl rfl

/-- A live task stays alive, unless it dies on its hart. -/
theorem KinStep.live (O : K.Ok) (hh : h < K.harts) (hstep : KinStep home h K K') {p : ℕ}
    (hlive : K.life p = .live) :
    K'.life p = .live ∨ K.tp h = p ∧ K.stage h = .exiting := by
  have hne : ∀ {c}, K.life c ≠ .live → p ≠ c := by
    rintro c hc rfl
    exact hc hlive
  cases hstep with
  | die hst hl =>
    by_cases hp : p = K.tp h
    · exact Or.inr ⟨hp.symm, hst⟩
    · exact Or.inl (by simpa [Kin.setStage, Kin.setLife, hp] using hlive)
  | birth c q hst =>
    by_cases hp : p = c
    · exact Or.inl (by simp [Kin.addTask, hp])
    · exact Or.inl (by simpa [Kin.addTask, hp] using hlive)
  | mark c hst =>
    have hp := hne (O.reap h hh c hst).2.1
    exact Or.inl (by simpa [Kin.setLife, hp] using hlive)
  | finish c hst =>
    have hp := hne (O.cleaned c (O.cleanup h hh c hst)).2.1
    exact Or.inl (by simpa [Kin.setLife, hp] using hlive)
  | take i c hst hr htable =>
    have hp := hne (c := c) (by simp [hr.zombie])
    exact Or.inl (by simpa [Kin.setStage, Kin.push, Kin.setLife, Kin.removeChild, hp] using hlive)
  | _ => exact Or.inl hlive

/-- A zombie that has not left its hart stays one. -/
theorem KinStep.zombie_keep (O : K.Ok) (hh : h < K.harts) (hstep : KinStep home h K K') {k : ℕ}
    (hz : K.life (K.tp k) = .zombie) (hk : k < K.harts) : K'.life (K.tp k) = .zombie := by
  have hoff : ∀ {c}, K.Off c → K.tp k ≠ c := fun ho => ho k hk
  cases hstep with
  | die hst hl =>
    by_cases hp : K.tp k = K.tp h
    · simp [Kin.setStage, Kin.setLife, hp]
    · simpa [Kin.setStage, Kin.setLife, hp] using hz
  | birth c q hst =>
    have hp : K.tp k ≠ c := by
      rintro rfl
      exact (O.run k hk).2 h hh q hst
    simpa [Kin.addTask, hp] using hz
  | mark c hst =>
    have hp := hoff (O.reap h hh c hst).2.2
    simpa [Kin.setLife, hp] using hz
  | finish c hst =>
    have hp := hoff (O.cleaned c (O.cleanup h hh c hst)).2.2
    simpa [Kin.setLife, hp] using hz
  | take i c hst hr htable =>
    have hp := hoff hr.off
    simpa [Kin.setStage, Kin.push, Kin.setLife, Kin.removeChild, hp] using hz
  | _ => exact hz

/-- A task that is there stays there. -/
theorem KinStep.created (hstep : KinStep home h K K') {t : ℕ} (hcr : K.Created t) :
    K'.Created t := by
  have hlt : K.pidCounter ≤ K'.pidCounter := by
    cases hstep <;> first | exact le_rfl | exact Nat.le_succ _
  refine ⟨hcr.1.trans_le hlt, fun k hk p hkp => ?_⟩
  rw [hstep.harts] at hk
  by_cases hkh : k = h
  · subst hkh
    have hold := hcr.2 k hk p
    cases hstep <;> simp_all [Kin.setStage, Kin.setLife, Kin.push, Kin.removeChild, Kin.fork,
      Kin.addTask]
    exact lt_irrefl _ (hkp.1 ▸ hcr.1)
  · exact hcr.2 k hk p ((hstep.frame hkh).2 ▸ hkp)

/-- A task is there because it was there before, or it has just been made. -/
theorem KinStep.created_back (hh : h < K.harts) (hstep : KinStep home h K K') {t : ℕ}
    (hcr : K'.Created t) : K.Created t ∨ ∃ p, K.stage h = .birth t p ∧ K' = K.addTask h t p := by
  have hlt : t < K.pidCounter := by
    cases hstep with
    | fork hst hlive =>
      have hne : t ≠ K.pidCounter := by
        rintro rfl
        exact hcr.2 h hh (K.tp h) (by simp [Kin.fork])
      exact lt_of_le_of_ne (Nat.lt_succ_iff.1 hcr.1) hne
    | _ => exact hcr.1
  by_cases hb : ∃ p, K.stage h = .birth t p
  · obtain ⟨p, hb⟩ := hb
    cases hstep with
    | stay => exact absurd hb (hcr.2 h hh p)
    | birth c q hst =>
      obtain ⟨rfl, rfl⟩ : t = c ∧ p = q := by simpa [hb] using hst
      exact Or.inr ⟨p, hb, rfl⟩
    | _ => simp_all
  · refine Or.inl ⟨hlt, fun k hk p hkp => ?_⟩
    by_cases hkh : k = h
    · exact hb ⟨p, hkh ▸ hkp⟩
    · exact hcr.2 k (hstep.harts.symm ▸ hk) p ((hstep.frame hkh).2.trans hkp)

theorem KinStep.parent_eq (hstep : KinStep home h K K') {t : ℕ} (hcr : K.Created t)
    (hh : h < K.harts) : K'.parent t = K.parent t := by
  cases hstep with
  | birth c p hst =>
    have hne : t ≠ c := by
      rintro rfl
      exact hcr.2 h hh p hst
    simp [Kin.addTask, hne]
  | _ => rfl

/-- A dead task stays dead. -/
theorem KinStep.dead_keep (hh : h < K.harts) (hstep : KinStep home h K K') {t : ℕ}
    (hdead : K.life t ≠ .live) (hcr : K.Created t) : K'.life t ≠ .live := by
  have hset : ∀ c l, l ≠ .live → (K.setLife c l).life t ≠ .live := by
    intro c l hl
    by_cases hc : t = c
    · simp [Kin.setLife, hc, hl]
    · simpa [Kin.setLife, hc] using hdead
  cases hstep with
  | die hst hl => exact hset _ _ (by simp)
  | mark c hst | finish c hst | take i c hst => exact hset _ _ (by simp)
  | birth c p hst =>
    have hne : t ≠ c := by
      rintro rfl
      exact hcr.2 h hh p hst
    simpa [Kin.addTask, hne] using hdead
  | _ => exact hdead

/-- A child stays in the list of its parent, unless the parent is dead or has taken it. -/
theorem KinStep.children_keep (O : K.Ok) (hh : h < K.harts) (hstep : KinStep home h K K')
    {p c : ℕ} (hc : c ∈ K.children p) : c ∈ K'.children p ∨ K.life p ≠ .live ∨
      K.life c = .zombie ∧ K.Off c ∧ K'.tp = K.tp ∧ K'.tickets c ≠ 0 := by
  have hp := O.created_parent hc
  have herase : ∀ q i c', K.Reapable q i c' → c ≠ c' → c ∈ (K.removeChild q i).children p := by
    intro q i c' hr hcc
    by_cases hpq : p = q
    · subst hpq
      simp only [Kin.removeChild, Function.update_self]
      obtain ⟨j, hj⟩ := List.mem_iff_getElem?.1 hc
      refine List.mem_eraseIdx_iff_getElem?.2 ⟨j, ?_, hj⟩
      rintro rfl
      exact hcc (Option.some.inj (hj.symm.trans hr.child))
    · simpa [Kin.removeChild, hpq] using hc
  cases hstep with
  | fork hst hlive =>
    by_cases hpt : p = K.tp h
    · subst hpt
      exact Or.inl (by simp [Kin.fork, hc])
    · exact Or.inl (by simpa [Kin.fork, hpt] using hc)
  | birth c' q hst =>
    have hpc : p ≠ c' := by
      rintro rfl
      exact hp.2 h hh q hst
    exact Or.inl (by simpa [Kin.addTask, hpc] using hc)
  | disown hst hdead =>
    by_cases hpt : p = K.tp h
    · subst hpt
      exact Or.inr (Or.inl hdead)
    · exact Or.inl (by simpa [hpt] using hc)
  | take i c' hst hr htable =>
    by_cases hcc : c = c'
    · subst hcc
      refine Or.inr (Or.inr ⟨hr.zombie, hr.off, rfl, fun hzero => ?_⟩)
      have hq := ((Kin.tickets_eq_zero.1 hzero).2 h hh).1
      simp [Kin.setStage, Kin.push] at hq
    · exact Or.inl (herase _ i c' hr hcc)
  | reap q i c' hst hhome hr htable =>
    by_cases hcc : c = c'
    · subst hcc
      refine Or.inr (Or.inr ⟨hr.zombie, hr.off, rfl, fun hzero => ?_⟩)
      exact ((Kin.tickets_eq_zero.1 hzero).2 h hh).2 (by simp)
    · exact Or.inl (herase q i c' hr hcc)
  | lose q i c' hst hr htable =>
    exact absurd (O.child_table (List.mem_of_getElem? hr.child) (by simp [hr.zombie])) htable
  | _ => exact Or.inl hc

end Inversion

section Bonds

/-- The stages of a task that is about to tell its parent. -/
def Stage.Telling (p : ℕ) (s : Stage) : Prop := s = .dying ∨ s = .notify ∨ s = .tell p

/-- `p` has a child that a wait can take. -/
def Kin.HasZombie (K : Kin) (p : ℕ) : Prop := ∃ c ∈ K.children p, K.life c = .zombie

structure Kin.Bonds (K : Kin) : Prop where
  birth : ∀ k < K.harts, ∀ c p, K.stage k = .birth c p → c ∈ K.children p ∧ K.life p = .live
  listed : ∀ c p, K.Created c → K.parent c = some p → K.life p = .live →
    c ∈ K.children p ∨ K.life c ≠ .live ∧ K.Off c
  blocked : ∀ p ∈ K.waiting, K.Created p ∧ K.life p = .live ∧
    ∀ k < K.harts, K.tp k = p → K.stage k = .leave
  zombie : ∀ k < K.harts, (∃ p, (K.stage k).Telling p) ∨ K.stage k = .orphan →
    K.life (K.tp k) = .zombie
  tell : ∀ k < K.harts, ∀ p, K.stage k = .tell p → K.parent (K.tp k) = some p
  told : ∀ p ∈ K.waiting, ∀ c ∈ K.children p, K.life c = .zombie →
    ∃ k < K.harts, K.tp k = c ∧ (K.stage k).Telling p

namespace Kin.Bonds

variable {K K' : Kin} {home : Prop} {h : ℕ} (O : K.Ok) (B : K.Bonds) (hh : h < K.harts)
  (hstep : KinStep home h K K')
include O B hh hstep

/-- The parent of a zombie child knows of it as long as it waits. -/
theorem telling {p : ℕ} (hp : p ∈ K'.waiting) (hpw : p ∈ K.waiting) (hc : K.tp h ∈ K.children p)
    (ht : (K.stage h).Telling p) : K'.tp h = K.tp h ∧ (K'.stage h).Telling p := by
  have hparent : K.parent (K.tp h) = some p := by
    rcases (O.child p _ hc).2.2 with ⟨k, hk, hkc⟩ | ⟨-, hparent⟩
    · exact absurd hkc ((O.run h hh).2 k hk p)
    · exact hparent
  cases hstep with
  | stay => exact ⟨rfl, ht⟩
  | disown hst hdead => exact ⟨rfl, by simp [Stage.Telling]⟩
  | notify q hst hq htable =>
    obtain rfl : p = q := Option.some.inj (hparent.symm.trans hq)
    exact ⟨rfl, by simp [Stage.Telling]⟩
  | orphan hst hq =>
    have hcr := (B.blocked p hpw).1
    have hcleaned := (O.kept p hcr).resolve_left (hq p hparent)
    exact absurd (B.blocked p hpw).2.1 (O.cleaned p hcleaned).2.1
  | wake q hst hq =>
    have : q = p := by simpa [Stage.Telling, hst] using ht
    subst this
    exact absurd hp (Finset.notMem_erase q _)
  | told q hst hq =>
    have : q = p := by simpa [Stage.Telling, hst] using ht
    subst this
    exact absurd hpw hq
  | mark c hst | finish c hst => simp [Stage.Telling, hst] at ht
  | _ => simp_all [Stage.Telling]

theorem told_step : ∀ p ∈ K'.waiting, ∀ c ∈ K'.children p, K'.life c = .zombie →
    ∃ k < K'.harts, K'.tp k = c ∧ (K'.stage k).Telling p := by
  intro p hp c hc hz
  rw [hstep.harts]
  rcases hstep.zombie_back hz with hz' | ⟨rfl, -, rfl⟩
  · rcases hstep.mem_waiting hp with hpw | ⟨rfl, hno, -, hchildren, -, -, -⟩
    · rcases hstep.mem_children hc with hc' | ⟨rfl, -⟩
      · obtain ⟨k, hk, rfl, ht⟩ := B.told p hpw c hc' hz'
        by_cases hkh : k = h
        · subst hkh
          exact ⟨k, hk, B.telling O hh hstep hp hpw hc' ht⟩
        · obtain ⟨h₁, h₂⟩ := hstep.frame hkh
          exact ⟨k, hk, h₁, h₂ ▸ ht⟩
      · -- a new child is not a zombie
        have hun : ¬ K.Created K.pidCounter := fun hcr => lt_irrefl _ hcr.1
        simp [O.unborn _ hun] at hz'
    · rw [hchildren] at hc
      exact absurd hz' (hno c hc (O.child_table hc (by simp [hz'])))
  · exact ⟨h, hh, rfl, Or.inl (by simp)⟩

theorem blocked_step : ∀ p ∈ K'.waiting, K'.Created p ∧ K'.life p = .live ∧
    ∀ k < K'.harts, K'.tp k = p → K'.stage k = .leave := by
  intro p hp
  rw [hstep.harts]
  rcases hstep.mem_waiting hp with hpw | ⟨rfl, -, hlive, -, hlife, hst, htp⟩
  · obtain ⟨hcr, hlive, hleave⟩ := B.blocked p hpw
    refine ⟨hstep.created hcr, ?_, fun k hk hkp => ?_⟩
    · refine (hstep.live O hh hlive).resolve_right ?_
      rintro ⟨htp, hexit⟩
      simp [hleave h hh htp] at hexit
    · by_cases hkh : k = h
      · subst hkh
        rcases hstep.tp_eq with htp | ⟨-, -, hno, -, -⟩
        · have hst := hleave k hk (htp.symm.trans hkp)
          have hw : K.tp k ∈ K.waiting := by rwa [← htp, hkp]
          cases hstep <;> simp_all
        · exact absurd (hkp ▸ hpw) hno
      · obtain ⟨h₁, h₂⟩ := hstep.frame hkh
        exact h₂.trans (hleave k hk (h₁.symm.trans hkp))
  · refine ⟨hstep.created (O.run h hh), ?_, fun k hk hkp => ?_⟩
    · rw [hlife]
      exact hlive
    · rw [htp] at hkp
      rw [O.inj k hk h hh hkp]
      exact hst

theorem birth_step : ∀ k < K'.harts, ∀ c p, K'.stage k = .birth c p →
    c ∈ K'.children p ∧ K'.life p = .live := by
  intro k hk c p hkc
  rw [hstep.harts] at hk
  by_cases hkh : k = h
  · subst hkh
    cases hstep with
    | fork hst hlive =>
      obtain ⟨rfl, rfl⟩ : K.pidCounter = c ∧ K.tp k = p := by simpa [Kin.fork] using hkc
      exact ⟨by simp [Kin.fork], hlive⟩
    | stay => exact B.birth k hk c p hkc
    | _ => simp_all [Kin.setLife, Kin.addTask, Kin.push]
  · have hst : K.stage k = .birth c p := (hstep.frame hkh).2 ▸ hkc
    obtain ⟨rfl, -, -⟩ := O.birth k hk c p hst
    obtain ⟨hc, hlive⟩ := B.birth k hk c _ hst
    refine ⟨?_, ?_⟩
    · rcases hstep.children_keep O hh hc with hc | hdead | ⟨hz, -, -⟩
      · exact hc
      · exact absurd hlive hdead
      · rw [O.unborn c fun hcr => hcr.2 k hk _ hst] at hz
        simp at hz
    · refine (hstep.live O hh hlive).resolve_right ?_
      rintro ⟨htp, -⟩
      exact hkh (O.inj h hh k hk htp).symm

theorem zombie_step : ∀ k < K'.harts, (∃ p, (K'.stage k).Telling p) ∨ K'.stage k = .orphan →
    K'.life (K'.tp k) = .zombie := by
  intro k hk hst
  rw [hstep.harts] at hk
  by_cases hkh : k = h
  · subst hkh
    have hold := B.zombie k hk
    cases hstep with
    | stay => exact hold hst
    | die => simp [Kin.setStage, Kin.setLife]
    | disown hst' | notify p hst' | orphan hst' =>
      exact hold (Or.inl ⟨0, by simp [Stage.Telling, hst']⟩)
    | fork | mark | finish | take => simp_all [Stage.Telling, Kin.fork, Kin.setLife, Kin.push]
    | _ => simp_all [Stage.Telling, Kin.addTask]
  · obtain ⟨h₁, h₂⟩ := hstep.frame hkh
    rw [h₂] at hst
    rw [h₁]
    refine hstep.zombie_keep O hh (B.zombie k hk hst) hk

theorem tell_step : ∀ k < K'.harts, ∀ p, K'.stage k = .tell p →
    K'.parent (K'.tp k) = some p := by
  intro k hk p hst
  rw [hstep.harts] at hk
  by_cases hkh : k = h
  · subst hkh
    cases hstep with
    | stay => exact B.tell k hk p hst
    | notify q hst' hq htable =>
      obtain rfl : q = p := by simpa using hst
      exact hq
    | _ => simp_all [Kin.setLife, Kin.addTask, Kin.push, Kin.fork]
  · obtain ⟨h₁, h₂⟩ := hstep.frame hkh
    rw [h₁, hstep.parent_eq (O.run k hk) hh]
    exact B.tell k hk p (h₂ ▸ hst)

theorem listed_step : ∀ c p, K'.Created c → K'.parent c = some p → K'.life p = .live →
    c ∈ K'.children p ∨ K'.life c ≠ .live ∧ K'.Off c := by
  intro c p hcr hpar hlive
  rcases hstep.created_back hh hcr with hcr | ⟨q, hst, rfl⟩
  · -- the task was there before, and so was its parent
    rw [hstep.parent_eq hcr hh] at hpar
    have hp := (O.adopted c p hpar).1
    have hlive' : K.life p = .live := by
      by_contra hdead
      exact (hstep.dead_keep hh hdead hp) hlive
    rcases B.listed c p hcr hpar hlive' with hc | ⟨hdead, hoff⟩
    · rcases hstep.children_keep O hh hc with hc | hdead | ⟨hz, hoff, htp, -⟩
      · exact Or.inl hc
      · exact absurd hlive' hdead
      · refine Or.inr ⟨hstep.dead_keep hh (by simp [hz]) hcr, fun k hk => ?_⟩
        rw [htp]
        exact hoff k (hstep.harts ▸ hk)
    · refine Or.inr ⟨hstep.dead_keep hh hdead hcr, fun k hk hkc => ?_⟩
      rw [hstep.harts] at hk
      by_cases hkh : k = h
      · subst hkh
        rcases hstep.tp_eq with htp | ⟨-, hl, -⟩
        · exact hoff k hk (htp.symm.trans hkc)
        · exact hdead (hkc ▸ hl)
      · exact hoff k hk ((hstep.frame hkh).1.symm.trans hkc)
  · obtain rfl : q = p := by simpa [Kin.addTask] using hpar
    refine Or.inl ?_
    have hne : q ≠ c := by
      intro hqc
      have hcr' := O.run h hh
      rw [← (O.birth h hh c q hst).1, hqc] at hcr'
      exact hcr'.2 h hh q hst
    simpa [Kin.addTask, hne] using (B.birth h hh c q hst).1

/-- **Every step** keeps the bonds. -/
theorem step : K'.Bonds :=
  ⟨B.birth_step O hh hstep, B.listed_step O hh hstep, B.blocked_step O hh hstep,
    B.zombie_step O hh hstep, B.tell_step O hh hstep, B.told_step O hh hstep⟩

omit B in
/-- A zombie child can be waited for, until its parent dies or takes a child. -/
theorem hasZombie_step (hhome : home) {p : ℕ} (hp : K.HasZombie p) :
    K'.HasZombie p ∨ p = K.tp h ∧ K'.tp h = K.tp h ∧
      (K'.stage h = .notify ∨ K'.stage h = .taken ∨ ∃ c, K'.stage h = .reap c) := by
  obtain ⟨c, hc, hz⟩ := hp
  have hticket := (O.child p c hc).2.1
  have hcreated := O.created_parent hc
  have hother : ∀ {q i c'}, K.Reapable q i c' → c' ∈ K.table → p ≠ q →
      c ∈ (K.removeChild q i).children p ∧ c ≠ c' := by
    intro q i c' hr htable hpq
    have hmem : c ∈ (K.removeChild q i).children p := by simpa [Kin.removeChild, hpq] using hc
    refine ⟨hmem, ?_⟩
    rintro rfl
    exact (O.loose hr htable).child p hmem
  cases hstep with
  | fork hst hlive =>
    left
    by_cases hpt : p = K.tp h
    · exact ⟨c, by simp [Kin.fork, ← hpt, hc], hz⟩
    · exact ⟨c, by simpa [Kin.fork, hpt] using hc, hz⟩
  | birth c' q hst =>
    have hpc : p ≠ c' := by
      rintro rfl
      exact hcreated.2 h hh q hst
    have hcc : c ≠ c' := by
      rintro rfl
      rw [O.unborn c fun hcr => hcr.2 h hh q hst] at hz
      simp at hz
    exact Or.inl ⟨c, by simpa [Kin.addTask, hpc] using hc, by simpa [Kin.addTask, hcc] using hz⟩
  | die hst hlive =>
    have hct : c ≠ K.tp h := by
      rintro rfl
      simp [hlive] at hz
    exact Or.inl ⟨c, hc, by simpa [Kin.setStage, Kin.setLife, hct] using hz⟩
  | disown hst hdead =>
    by_cases hpt : p = K.tp h
    · exact Or.inr ⟨hpt, rfl, Or.inl (by simp)⟩
    · exact Or.inl ⟨c, by simpa [hpt] using hc, hz⟩
  | take i c' hst hr htable =>
    by_cases hpt : p = K.tp h
    · exact Or.inr ⟨hpt, rfl, Or.inr (Or.inl (by simp))⟩
    · obtain ⟨hmem, hcc⟩ := hother hr htable hpt
      refine Or.inl ⟨c, hmem, ?_⟩
      simpa [Kin.setStage, Kin.push, Kin.setLife, Kin.removeChild, hcc] using hz
  | reap q i c' hst hq hr htable =>
    by_cases hpt : p = K.tp h
    · exact Or.inr ⟨hpt, rfl, Or.inr (Or.inr ⟨c', by simp⟩)⟩
    · exact Or.inl ⟨c, (hother hr htable (hq hhome ▸ hpt)).1, hz⟩
  | lose q i c' hst hr htable =>
    exact absurd (O.child_table (List.mem_of_getElem? hr.child) (by simp [hr.zombie])) htable
  | mark c' hst =>
    have hcc : c ≠ c' := by
      rintro rfl
      exact ((tickets_eq_zero.1 hticket).2 h hh).2 hst
    exact Or.inl ⟨c, hc, by simpa [Kin.setLife, hcc] using hz⟩
  | finish c' hst =>
    have hcc : c ≠ c' := by
      rintro rfl
      exact (tickets_eq_zero.1 hticket).1 (O.cleanup h hh c hst)
    exact Or.inl ⟨c, hc, by simpa [Kin.setLife, hcc] using hz⟩
  | _ => exact Or.inl ⟨c, hc, hz⟩

/-- A task that is taken from the set of those that wait has a zombie to take. -/
theorem waiting_step {p : ℕ} (hp : p ∈ K.waiting) : p ∈ K'.waiting ∨ K'.HasZombie p := by
  cases hstep with
  | wake q hst hq =>
    by_cases hpq : p = q
    · subst hpq
      right
      have hz := B.zombie h hh (Or.inl ⟨p, by simp [Stage.Telling, hst]⟩)
      have hc := B.listed (K.tp h) p (O.run h hh) (B.tell h hh p hst) (B.blocked p hp).2.1
      refine ⟨K.tp h, hc.resolve_right fun hx => hx.2 h hh rfl, hz⟩
    · exact Or.inl (Finset.mem_erase.2 ⟨hpq, hp⟩)
  | block => exact Or.inl (Finset.mem_insert_of_mem hp)
  | _ => exact Or.inl hp

end Kin.Bonds

end Bonds

section Runs

variable {n : ℕ} {σ σ' : System} {ok : System → ℕ → Act → Prop} {h : ℕ} {a : Act}

theorem bonds_boot (n : ℕ) : (boot n).kin.Bonds := by
  have hparent : ∀ t, (boot n).kin.parent t = none := by
    intro t
    simp only [System.kin, boot]
    split <;> rfl
  have hstage : ∀ k, (boot n).kin.stage k = .leave := fun _ => rfl
  constructor
  · simp [hstage]
  · simp [hparent]
  · exact fun p hp => absurd hp (Finset.notMem_empty p)
  · simp [hstage, Stage.Telling]
  · simp [hstage]
  · exact fun p hp => absurd hp (Finset.notMem_empty p)

theorem Reach.bonds (hn : 0 < n) (hreach : Reach (fun σ h a => ok σ h a ∧ Fair σ h a) n σ) :
    σ.kin.Bonds := by
  induction hreach with
  | boot => exact bonds_boot n
  | step hr hok hstep ih =>
    obtain ⟨O, loc, P⟩ := hr.kin_ok hn
    have hkin := kinStep_of_step P hok.2.2 (fun hf : False => hf.elim) hstep
    exact ih.step O (lt_harts_of_step hstep) hkin
  | tick d _ ih => exact ih

/-- **No wake-up is lost.** While a parent waits and a child of it is a zombie, this child is
still in its `exit` and has not yet looked whether its parent waits. -/
theorem no_lost_wakeup (hok : Orderly ok n) (hreach : Reach ok n σ) {p c : Pid}
    (hp : p ∈ σ.waitingTasks) (hc : c ∈ (σ.task p).children)
    (hz : (σ.task c).state = .zombie) : ∃ k < n, (σ.hart k).tp = c ∧
      ((∃ ctx, (σ.hart k).pc = .exitChildren ctx ∨ (σ.hart k).pc = .exitNotify ctx) ∨
        (σ.hart k).pc = .exitRemove p) := by
  have hfair := hreach.orderly hok
  have hlife : σ.kin.life c = .zombie := by simp [System.kin, hz, TaskState.life]
  obtain ⟨k, hk, htp, ht⟩ := (hfair.bonds hok.pos).told p hp c hc hlife
  refine ⟨k, hreach.harts_eq ▸ hk, htp, ?_⟩
  have hst : (σ.hart k).pc.stage.Telling p := ht
  cases hpc : (σ.hart k).pc <;> simp [hpc, Pc.stage, Stage.Telling] at hst ⊢
  exact hst

/-- The shell makes a child and waits for it. -/
def waitForChild : List Move :=
  steps 0 9 ++ [.act 0 .newTask] ++ steps 0 3 ++ [.act 0 .wait] ++ steps 0 5

/-- The child of the shell has just become a zombie, and the shell waits. -/
theorem no_lost_wakeup_shell : ∃ σ, Reach (fun _ _ _ => True) 1 σ ∧
    (2 ∈ σ.waitingTasks ∧ 3 ∈ (σ.task 2).children ∧ (σ.task 3).state = .zombie) ∧
    ∃ k < 1, (σ.hart k).tp = 3 := by
  have hrun : ((trace (fun _ _ _ => True) (waitForChild ++ [.act 0 (.exit 7)] ++ steps 0 1)
      (boot 1)).map fun σ => decide (2 ∈ σ.waitingTasks ∧ 3 ∈ (σ.task 2).children ∧
        (σ.task 3).state = .zombie)) = some true := by decide +kernel
  obtain ⟨σ, hσ, hst⟩ := Option.map_eq_some_iff.1 hrun
  obtain ⟨hp, hc, hz⟩ := of_decide_eq_true hst
  have hreach : Reach (fun _ _ _ => True) 1 σ := reach_trace .boot hσ
  obtain ⟨k, hk, htp, -⟩ := no_lost_wakeup (Or.inl rfl) hreach hp hc hz
  exact ⟨σ, hreach, ⟨hp, hc, hz⟩, k, hk, htp⟩

end Runs

section Panics

variable {n : ℕ} {σ σ' : System} {ok : System → ℕ → Act → Prop} {h : ℕ} {a : Act}

theorem homeOk_of_solo (S : Solo σ) (hn : σ.harts = 1) (hstep : step h a σ = some σ') :
    HomeOk σ h a := by
  have hh := lt_harts_of_step hstep
  obtain rfl : h = 0 := by omega
  rintro ctx - (hpc | ⟨i, hpc⟩)
  · exact S.waits _ ctx (Or.inl ⟨0, hh, rfl, by rw [hpc]; rfl⟩)
  · exact (S.reap ctx i hpc).1

/-- A task in a wait is still blocked, or has a zombie to take. -/
def Attended (σ : System) : Prop :=
  ∀ t ctx, σ.Waits t ctx → t ∈ σ.waitingTasks ∨ σ.kin.HasZombie t

theorem Attended.step {loc : Pid → Loc} (A : Attended σ) (O : σ.kin.Ok) (B : σ.kin.Bonds)
    (P : Placed True none σ loc) (hreap : ReapOk σ h a) (hhome : HomeOk σ h a)
    (hstep : step h a σ = some σ') : Attended σ' := by
  intro t ctx ht
  have hh : h < σ.kin.harts := lt_harts_of_step hstep
  have hkin := kinStep_of_step P hreap (fun _ : True => hhome) hstep
  rcases (waitStep P hstep).waits t ctx ht with hold | ⟨-, hw⟩
  · rcases A t ctx hold with hw | hz
    · exact B.waiting_step O hh hkin hw
    · rcases Kin.Bonds.hasZombie_step O hh hkin trivial hz with hz | ⟨rfl, htp, hst⟩
      · exact Or.inr hz
      · -- the task is in the middle of something else
        exfalso
        rcases ht with ⟨k, hk, hkt, hres⟩ | ⟨hoff, -⟩
        · obtain rfl : k = h := (O.step hh hkin).inj k hk h (hkin.harts.symm ▸ hh)
            (hkt.trans htp.symm)
          have hst' : (σ'.hart k).pc.stage = .notify ∨ (σ'.hart k).pc.stage = .taken ∨
            ∃ c, (σ'.hart k).pc.stage = .reap c := hst
          cases hpc : (σ'.hart k).pc <;> simp [hpc, Pc.stage, Pc.resume] at hst' hres
        · exact hoff ⟨h, (elsewhere_step hstep).harts.symm ▸ hh, htp⟩
  · exact Or.inl hw

/-- The durations of all sleeps fit. -/
def SleepOk (σ : System) (h : ℕ) (_ : Act) : Prop :=
  match (σ.hart h).pc with
  | .sleepTime _ ms _ => (sleepUntil σ.time ms).isSome
  | _ => True

instance (σ : System) (h : ℕ) (a : Act) : Decidable (SleepOk σ h a) := by
  unfold SleepOk
  split <;> infer_instance

/-- What holds of every run on one hart. -/
structure Alone (σ : System) (loc : Pid → Loc) : Prop where
  solo : Solo σ
  placed : Placed True none σ loc
  kin : σ.kin.Ok
  bonds : σ.kin.Bonds
  attended : Attended σ

theorem Reach.alone (hreach : Reach ok 1 σ) : ∃ loc, Alone σ loc := by
  induction hreach with
  | boot =>
    exact ⟨_, solo_boot, placed_boot True Nat.one_pos, kin_ok_boot 1, bonds_boot 1,
      fun t ctx ht => absurd ht (not_waits_boot 1 t ctx)⟩
  | step hr _ hstep ih =>
    obtain ⟨loc, S, P, O, B, A⟩ := ih
    have hh := lt_harts_of_step hstep
    obtain ⟨hwake, hreap⟩ := fair_of_solo S P hr.harts_eq hstep
    have hhome := homeOk_of_solo S hr.harts_eq hstep
    have hkin := kinStep_of_step P hreap (fun _ : True => hhome) hstep
    obtain ⟨loc', P'⟩ := P.step hstep hwake fun _ => hreap
    exact ⟨loc', S.step P hr.harts_eq hstep, P', O.step hh hkin, B.step O hh hkin,
      A.step O B P hreap hhome hstep⟩
  | tick d _ ih =>
    obtain ⟨loc, S, P, O, B, A⟩ := ih
    exact ⟨loc, ⟨S.waits, S.reap⟩, P.tick d, O, B, A⟩

/-- Only a sleep that is too long makes a single hart panic. -/
theorem Alone.not_panics {loc : Pid → Loc} (A : Alone σ loc) (hn : σ.harts = 1)
    (hsleep : SleepOk σ 0 a) : ¬ Panics σ 0 := by
  have hh : 0 < σ.harts := by omega
  rintro (⟨ctx, hpc, hfind⟩ | ⟨ctx, i, hpc, htable⟩ | ⟨ctx, ms, r, hpc, hnone⟩)
  · have hwaits : σ.Waits (σ.hart 0).tp ctx := Or.inl ⟨0, hh, rfl, by rw [hpc]; rfl⟩
    obtain rfl := A.solo.waits _ ctx hwaits
    rcases A.attended _ 0 hwaits with hw | ⟨c, hc, hz⟩
    · -- a task that waits is about to leave the hart
      have hst := (A.bonds.blocked _ hw).2.2 0 hh rfl
      simp [System.kin, hpc, Pc.stage] at hst
    · have htable : c ∈ σ.table := A.kin.child_table hc (by simp [hz])
      have hcur : σ.current 0 = (σ.hart 0).tp := (A.placed.at hh hpc).current
      rw [System.zombieChild, List.findIdx?_eq_none_iff, hcur] at hfind
      have hz' : (σ.task c).state = .zombie := by
        have hl : (σ.task c).state.life = .zombie := hz
        cases hs : (σ.task c).state <;> simp [hs, TaskState.life] at hl ⊢
      have := hfind c hc
      simp [htable, hz'] at this
  · obtain ⟨rfl, c, hget, hc, -⟩ := A.solo.reap ctx i hpc
    exact htable c hget hc
  · simp [SleepOk, hpc, hnone] at hsleep

/-- **A single hart never panics** in the scheduler: the context of the core is there, a wait
that goes on finds a zombie, and the child it takes is in the table. Only the duration of a
sleep can be too long. -/
theorem oneHart_never_panics (hreach : Reach SleepOk 1 σ) : (σ.hart 0).pc ≠ .panicked := by
  induction hreach with
  | boot => simp [boot]
  | @step σ σ' h a hr hok hstep ih =>
    obtain ⟨loc, A⟩ := hr.alone
    have hn := hr.harts_eq
    obtain rfl : h = 0 := by
      have := lt_harts_of_step hstep
      omega
    exact fun hpc => A.not_panics hn hok ((waitStep A.placed hstep).panics hpc)
  | tick d _ ih => exact ih

/-- The shell returns from a wait. -/
theorem oneHart_never_panics_shell : ∃ σ, Reach SleepOk 1 σ ∧ (σ.hart 0).tp = 2 ∧
    (σ.core 0).cleanupQueue = [3] ∧ (σ.hart 0).pc ≠ .panicked := by
  have hrun : ((trace SleepOk (waitForChild ++ [.act 0 (.exit 7)] ++ steps 0 14) (boot 1)).map
      fun σ => ((σ.hart 0).tp, (σ.core 0).cleanupQueue)) = some (2, [3]) := by decide +kernel
  obtain ⟨σ, hσ, hst⟩ := Option.map_eq_some_iff.1 hrun
  obtain ⟨htp, hq⟩ : (σ.hart 0).tp = 2 ∧ (σ.core 0).cleanupQueue = [3] := by simpa using hst
  have hreach : Reach SleepOk 1 σ := reach_trace .boot hσ
  exact ⟨σ, hreach, htp, hq, oneHart_never_panics hreach⟩

end Panics

end Efiks.Sched

import Mathlib.Algebra.BigOperators.Group.Finset.Basic
import Mathlib.Data.Finset.Range
import Mathlib.Data.List.Nodup
import Mathlib.Logic.Function.Basic
import Mathlib.Tactic.Common

/-!
# Parents, children and reapers

What the life of a task comes to when the scheduler is left out: harts execute tasks, a task
makes children, dies, tells its parent or the reaper of its core, and is taken by a wait or by
that reaper. `KinStep` has one constructor for each thing a hart does, under the guards that
the code has; that a child is taken only when it has left its hart is a guard as well.

A dead task owes its end to a *ticket*: an entry in the queue of a reaper, the local variable
of a wait that is about to put it there, or the list of those that a reaper has taken. No task
has two.

## Main definitions

* `Life`, `Stage`, `Kin` — the abstract state.
* `KinStep` — the abstract steps.
* `Kin.tickets` — how often a task was given to a reaper.
* `Kin.Ok` — the invariant.
-/
namespace Efiks.Sched

section Model

inductive Life
  | live
  | zombie
  | exited
  deriving DecidableEq

/-- What a hart is about to do to the family of its task. -/
inductive Stage
  | busy
  /-- In `schedule`, or stopped. -/
  | leave
  /-- The number `c` is taken and in the list of the parent `p`. -/
  | birth (c p : ℕ)
  /-- The exit code is set. -/
  | exiting
  /-- The task is a zombie and still has its children. -/
  | dying
  | notify
  /-- The parent `p` is about to be taken from the set of those that wait. -/
  | tell (p : ℕ)
  /-- No parent was found. -/
  | orphan
  /-- A wait has taken `c` from the list. -/
  | reap (c : ℕ)
  /-- A wait has taken a child and given it to a reaper. -/
  | taken
  | cleanup (t : ℕ)
  deriving DecidableEq

structure Kin where
  harts : ℕ
  tp : ℕ → ℕ
  stage : ℕ → Stage
  life : ℕ → Life
  parent : ℕ → Option ℕ
  children : ℕ → List ℕ
  table : Finset ℕ
  pidCounter : ℕ
  waiting : Finset ℕ
  queue : ℕ → List ℕ
  cleaned : List ℕ

namespace Kin

def setStage (K : Kin) (h : ℕ) (s : Stage) : Kin :=
  { K with stage := Function.update K.stage h s }

/-- The number has a task. -/
def Created (K : Kin) (t : ℕ) : Prop :=
  t < K.pidCounter ∧ ∀ k < K.harts, ∀ p, K.stage k ≠ .birth t p

/-- No hart executes the task. -/
def Off (K : Kin) (t : ℕ) : Prop := ∀ k < K.harts, K.tp k ≠ t

/-- A wait of `p` takes its child `c`, the one with index `i`. -/
structure Reapable (K : Kin) (p i c : ℕ) : Prop where
  child : (K.children p)[i]? = some c
  zombie : K.life c = .zombie
  off : K.Off c

/-- `p` has no zombie to wait for. -/
def NoZombie (K : Kin) (p : ℕ) : Prop :=
  ∀ c ∈ K.children p, c ∈ K.table → K.life c ≠ .zombie

/-- Take the child with index `i` from the list of `p`. -/
def removeChild (K : Kin) (p i : ℕ) : Kin :=
  { K with children := Function.update K.children p ((K.children p).eraseIdx i) }

/-- Give `t` to the reaper of core `h`. -/
def push (K : Kin) (h t : ℕ) : Kin :=
  { K with queue := Function.update K.queue h (K.queue h ++ [t]) }

def setLife (K : Kin) (t : ℕ) (l : Life) : Kin :=
  { K with life := Function.update K.life t l }

/-- The task of hart `h` takes a number for a child. -/
def fork (K : Kin) (h : ℕ) : Kin :=
  { K with
    stage := Function.update K.stage h (.birth K.pidCounter (K.tp h))
    pidCounter := K.pidCounter + 1
    children := Function.update K.children (K.tp h) (K.children (K.tp h) ++ [K.pidCounter]) }

/-- The child is made and entered into the table. -/
def addTask (K : Kin) (h c p : ℕ) : Kin :=
  { K with
    stage := Function.update K.stage h .busy
    life := Function.update K.life c .live
    table := insert c K.table
    parent := Function.update K.parent c (some p)
    children := Function.update K.children c [] }

end Kin

/-- A step of hart `h`. With `home`, a wait goes on where its task is. -/
inductive KinStep (home : Prop) (h : ℕ) (K : Kin) : Kin → Prop
  | stay : KinStep home h K K
  | leave : K.stage h = .busy → KinStep home h K (K.setStage h .leave)
  | goOn : K.stage h = .leave → K.life (K.tp h) = .live → K.tp h ∉ K.waiting →
      KinStep home h K (K.setStage h .busy)
  | switch (t : ℕ) : K.stage h = .leave → K.Created t → K.life t = .live → K.Off t →
      t ∉ K.waiting →
      KinStep home h K { K.setStage h .busy with tp := Function.update K.tp h t }
  | fork : K.stage h = .busy → K.life (K.tp h) = .live → KinStep home h K (K.fork h)
  | birth (c p : ℕ) : K.stage h = .birth c p → KinStep home h K (K.addTask h c p)
  | exit : K.stage h = .busy → KinStep home h K (K.setStage h .exiting)
  | die : K.stage h = .exiting → K.life (K.tp h) = .live →
      KinStep home h K ((K.setLife (K.tp h) .zombie).setStage h .dying)
  | disown : K.stage h = .dying → K.life (K.tp h) ≠ .live →
      KinStep home h K { K.setStage h .notify with
        children := Function.update K.children (K.tp h) [] }
  | notify (p : ℕ) : K.stage h = .notify → K.parent (K.tp h) = some p → p ∈ K.table →
      KinStep home h K (K.setStage h (.tell p))
  | orphan : K.stage h = .notify → (∀ p, K.parent (K.tp h) = some p → p ∉ K.table) →
      KinStep home h K (K.setStage h .orphan)
  | wake (p : ℕ) : K.stage h = .tell p → p ∈ K.waiting →
      KinStep home h K { K.setStage h .busy with waiting := K.waiting.erase p }
  | told (p : ℕ) : K.stage h = .tell p → p ∉ K.waiting → KinStep home h K (K.setStage h .leave)
  | abandon : K.stage h = .orphan → K.life (K.tp h) ≠ .live →
      KinStep home h K ((K.push h (K.tp h)).setStage h .leave)
  | block : K.stage h = .busy → K.life (K.tp h) = .live → K.NoZombie (K.tp h) →
      KinStep home h K { K.setStage h .leave with waiting := insert (K.tp h) K.waiting }
  | take (i c : ℕ) : K.stage h = .busy → K.Reapable (K.tp h) i c → c ∈ K.table →
      KinStep home h K ((((K.removeChild (K.tp h) i).setLife c .exited).push h c).setStage h .taken)
  | goBack : K.stage h = .taken → KinStep home h K (K.setStage h .busy)
  | reap (p i c : ℕ) : K.stage h = .busy → (home → p = K.tp h) → K.Reapable p i c → c ∈ K.table →
      KinStep home h K ((K.removeChild p i).setStage h (.reap c))
  | lose (p i c : ℕ) : K.stage h = .busy → K.Reapable p i c → c ∉ K.table →
      KinStep home h K ((K.removeChild p i).setStage h .leave)
  | mark (c : ℕ) : K.stage h = .reap c → KinStep home h K (K.setLife c .exited)
  | hand (c : ℕ) : K.stage h = .reap c → KinStep home h K ((K.push h c).setStage h .busy)
  | pop (t : ℕ) (queue : List ℕ) : K.stage h = .busy → K.queue h = t :: queue →
      KinStep home h K { K.setStage h (.cleanup t) with
        queue := Function.update K.queue h queue
        cleaned := K.cleaned ++ [t] }
  | finish (t : ℕ) : K.stage h = .cleanup t → KinStep home h K (K.setLife t .exited)
  | remove (t : ℕ) : K.stage h = .cleanup t →
      KinStep home h K { K.setStage h .busy with table := K.table.erase t }

end Model

section Tickets

/-- A wait holds `t`. -/
def Stage.owes (t : ℕ) (s : Stage) : ℕ := if s = .reap t then 1 else 0

theorem Stage.owes_eq_zero {t : ℕ} {s : Stage} : s.owes t = 0 ↔ s ≠ .reap t := by
  simp [Stage.owes]

namespace Kin

/-- What hart `k` and the reaper of its core owe to `t`. -/
def due (K : Kin) (t k : ℕ) : ℕ := (K.queue k).count t + (K.stage k).owes t

/-- How often `t` was given to a reaper. -/
def tickets (K : Kin) (t : ℕ) : ℕ := K.cleaned.count t + ∑ k ∈ Finset.range K.harts, K.due t k

variable {K : Kin} {h t : ℕ}

/-- A step of one hart changes the tickets by what it changes there. -/
theorem tickets_add (hh : h < K.harts) (K' : Kin) (harts : K'.harts = K.harts)
    (hdue : ∀ k, k ≠ h → K'.due t k = K.due t k) :
    K'.tickets t + (K.cleaned.count t + K.due t h) =
      K.tickets t + (K'.cleaned.count t + K'.due t h) := by
  have hmem : h ∈ Finset.range K.harts := Finset.mem_range.2 hh
  have hrest : ∑ k ∈ (Finset.range K.harts).erase h, K'.due t k =
      ∑ k ∈ (Finset.range K.harts).erase h, K.due t k :=
    Finset.sum_congr rfl fun k hk => hdue k (Finset.ne_of_mem_erase hk)
  have h₁ := Finset.add_sum_erase _ (K.due t) hmem
  have h₂ := Finset.add_sum_erase _ (K'.due t) hmem
  simp only [tickets, harts]
  omega

theorem tickets_setStage (hh : h < K.harts) (s : Stage) :
    (K.setStage h s).tickets t + (K.stage h).owes t = K.tickets t + s.owes t := by
  have hadd := tickets_add (t := t) hh (K.setStage h s) rfl fun k hk => by
    simp [due, setStage, hk]
  simp only [due, setStage, Function.update_self] at hadd
  simp only [setStage]
  omega

theorem tickets_push (hh : h < K.harts) (u : ℕ) :
    (K.push h u).tickets t = K.tickets t + if u = t then 1 else 0 := by
  have hadd := tickets_add (t := t) hh (K.push h u) rfl fun k hk => by
    simp [due, push, hk]
  simp only [due, push, Function.update_self, List.count_append, List.count_singleton,
    beq_iff_eq] at hadd
  simp only [push]
  omega

theorem tickets_eq_zero : K.tickets t = 0 ↔
    t ∉ K.cleaned ∧ ∀ k < K.harts, t ∉ K.queue k ∧ K.stage k ≠ .reap t := by
  simp only [tickets, due, Nat.add_eq_zero_iff, List.count_eq_zero, Finset.sum_eq_zero_iff,
    Finset.mem_range, Stage.owes_eq_zero]

end Kin

end Tickets

section Invariant

/-- The stages that ask for nothing. -/
def Stage.Plain : Stage → Prop
  | .busy | .leave | .exiting | .notify | .tell _ | .taken => True
  | _ => False

/-- Which tasks there are, who made them and who has taken them. -/
structure Kin.Ok (K : Kin) : Prop where
  inj : ∀ j < K.harts, ∀ k < K.harts, K.tp j = K.tp k → j = k
  run : ∀ k < K.harts, K.Created (K.tp k)
  unborn : ∀ t, ¬ K.Created t → K.life t = .live
  table : ∀ t ∈ K.table, K.Created t
  birth : ∀ k < K.harts, ∀ c p, K.stage k = .birth c p → p = K.tp k ∧ c < K.pidCounter ∧
    ∀ j < K.harts, ∀ p', K.stage j = .birth c p' → j = k
  adopted : ∀ t p, K.parent t = some p → K.Created p ∧ p ≠ t
  nodup : ∀ p, (K.children p).Nodup
  child : ∀ p, ∀ c ∈ K.children p, c < K.pidCounter ∧ K.tickets c = 0 ∧
    ((∃ k < K.harts, K.stage k = .birth c p) ∨ K.Created c ∧ K.parent c = some p)
  childless : ∀ p, K.life p ≠ .live →
    K.children p = [] ∨ ∃ k < K.harts, K.tp k = p ∧ K.stage k = .dying
  orphan : ∀ k < K.harts, K.stage k = .orphan → ∀ p, K.parent (K.tp k) = some p → p ∈ K.cleaned
  kept : ∀ t, K.Created t → t ∈ K.table ∨ t ∈ K.cleaned
  single : ∀ t, K.tickets t ≤ 1
  queued : ∀ k < K.harts, ∀ t ∈ K.queue k, K.Created t ∧ K.life t ≠ .live ∧
    ∀ j < K.harts, K.tp j = t → j = k ∧ K.stage j = .leave
  reap : ∀ k < K.harts, ∀ t, K.stage k = .reap t → K.Created t ∧ K.life t ≠ .live ∧ K.Off t
  cleaned : ∀ t ∈ K.cleaned, K.Created t ∧ K.life t ≠ .live ∧ K.Off t
  cleanup : ∀ k < K.harts, ∀ t, K.stage k = .cleanup t → t ∈ K.cleaned

namespace Kin

variable {K : Kin} {h t : ℕ} {s : Stage}

/-- A dead task that nobody lists, no hart executes and no reaper has. -/
structure Loose (K : Kin) (t : ℕ) : Prop where
  created : K.Created t
  dead : K.life t ≠ .live
  off : K.Off t
  tickets : K.tickets t = 0
  child : ∀ p, t ∉ K.children p

@[simp] theorem stage_removeChild {p i : ℕ} : (K.removeChild p i).stage = K.stage := rfl

@[simp] theorem stage_setStage_self : (K.setStage h s).stage h = s := by simp [setStage]

theorem stage_setStage_ne {k : ℕ} (hk : k ≠ h) : (K.setStage h s).stage k = K.stage k := by
  simp [setStage, hk]

theorem created_setStage (hs : ∀ p, s ≠ .birth t p) (hold : ∀ p, K.stage h ≠ .birth t p) :
    (K.setStage h s).Created t ↔ K.Created t := by
  refine and_congr_right fun _ => forall₂_congr fun k _ => forall_congr' fun p => ?_
  by_cases hk : k = h
  · subst hk
    simp [hs p, hold p]
  · rw [stage_setStage_ne hk]

namespace Ok

/-- A hart goes on to another stage; a child that it has taken is loose. -/
theorem setStage (O : K.Ok) (hh : h < K.harts) (hs : ∀ c p, s ≠ .birth c p)
    (hold : ∀ c p, K.stage h ≠ .birth c p)
    (hdying : K.stage h = .dying → K.children (K.tp h) = [])
    (hreap : ∀ t, s = .reap t → K.Loose t)
    (horphan : s = .orphan → ∀ p, K.parent (K.tp h) = some p → p ∈ K.cleaned)
    (hclean : ∀ t, s = .cleanup t → t ∈ K.cleaned)
    (hleave : K.stage h = .leave → s = .leave ∨ K.life (K.tp h) = .live) :
    (K.setStage h s).Ok := by
  have hcreated : ∀ t, (K.setStage h s).Created t ↔ K.Created t := fun t =>
    created_setStage (hs t) (hold t)
  have htickets := fun t => tickets_setStage (t := t) hh s
  have howes : ∀ t, s.owes t = 0 ∨ s.owes t = 1 ∧ K.Loose t := by
    intro t
    by_cases ht : s = .reap t
    · exact Or.inr ⟨if_pos ht, hreap t ht⟩
    · exact Or.inl (if_neg ht)
  constructor
  · exact O.inj
  · exact fun k hk => (hcreated _).2 (O.run k hk)
  · exact fun t ht => O.unborn t (mt (hcreated t).2 ht)
  · exact fun t ht => (hcreated t).2 (O.table t ht)
  · intro k hk c p hc
    have hother : ∀ j p', (K.setStage h s).stage j = .birth c p' → K.stage j = .birth c p' := by
      intro j p' hj
      refine (stage_setStage_ne ?_).symm.trans hj
      rintro rfl
      exact hs c p' (stage_setStage_self.symm.trans hj)
    obtain ⟨hp, hlt, hu⟩ := O.birth k hk c p (hother k p hc)
    exact ⟨hp, hlt, fun j hj p' hj' => hu j hj p' (hother j p' hj')⟩
  · exact fun t p ht => (O.adopted t p ht).imp_left (hcreated p).2
  · exact O.nodup
  · intro p c hc
    obtain ⟨hlt, ht, hb⟩ := O.child p c hc
    refine ⟨hlt, ?_, ?_⟩
    · rcases howes c with h0 | ⟨-, hl⟩
      · have := htickets c
        omega
      · exact absurd hc (hl.child p)
    · rcases hb with ⟨k, hk, hkc⟩ | ⟨hcr, hpar⟩
      · refine Or.inl ⟨k, hk, (stage_setStage_ne ?_).trans hkc⟩
        rintro rfl
        exact hold c p hkc
      · exact Or.inr ⟨(hcreated c).2 hcr, hpar⟩
  · intro p hp
    rcases O.childless p hp with he | ⟨k, hk, htp, hst⟩
    · exact Or.inl he
    · by_cases hkh : k = h
      · subst hkh
        exact Or.inl (htp ▸ hdying hst)
      · exact Or.inr ⟨k, hk, htp, (stage_setStage_ne hkh).trans hst⟩
  · intro k hk hst
    by_cases hkh : k = h
    · subst hkh
      exact horphan (stage_setStage_self.symm.trans hst)
    · exact O.orphan k hk ((stage_setStage_ne hkh).symm.trans hst)
  · exact fun t ht => O.kept t ((hcreated t).1 ht)
  · intro t
    have := htickets t
    have := O.single t
    rcases howes t with h0 | ⟨h1, hl⟩
    · omega
    · have := hl.tickets
      omega
  · intro k hk t ht
    obtain ⟨hcr, hl, hj⟩ := O.queued k hk t ht
    refine ⟨(hcreated t).2 hcr, hl, fun j hjn htp => ?_⟩
    obtain ⟨hjk, hst⟩ := hj j hjn htp
    refine ⟨hjk, ?_⟩
    by_cases hjh : j = h
    · subst hjh
      rw [stage_setStage_self]
      exact (hleave hst).resolve_right (by rw [show K.tp j = t from htp]; exact hl)
    · exact (stage_setStage_ne hjh).trans hst
  · intro k hk t hst
    by_cases hkh : k = h
    · subst hkh
      have hl := hreap t (stage_setStage_self.symm.trans hst)
      exact ⟨(hcreated t).2 hl.created, hl.dead, hl.off⟩
    · obtain ⟨hcr, hl, hoff⟩ := O.reap k hk t ((stage_setStage_ne hkh).symm.trans hst)
      exact ⟨(hcreated t).2 hcr, hl, hoff⟩
  · intro t ht
    obtain ⟨hcr, hl, hoff⟩ := O.cleaned t ht
    exact ⟨(hcreated t).2 hcr, hl, hoff⟩
  · intro k hk t hst
    by_cases hkh : k = h
    · subst hkh
      exact hclean t (stage_setStage_self.symm.trans hst)
    · exact O.cleanup k hk t ((stage_setStage_ne hkh).symm.trans hst)

theorem setPlain (O : K.Ok) (hh : h < K.harts) (hs : s.Plain)
    (hold : ∀ c p, K.stage h ≠ .birth c p)
    (hdying : K.stage h = .dying → K.children (K.tp h) = [])
    (hleave : K.stage h = .leave → s = .leave ∨ K.life (K.tp h) = .live) :
    (K.setStage h s).Ok := by
  cases s with
  | busy | leave | exiting | notify | tell p | taken =>
    exact O.setStage hh (by simp) hold hdying (by simp) (by simp) (by simp) hleave
  | birth | dying | orphan | reap | cleanup => exact hs.elim

/-- A hart that has left its task goes on with another one that is alive. -/
theorem setTp (O : K.Ok) (hst : K.stage h = .leave) (hcr : K.Created t) (hlive : K.life t = .live)
    (hoff : K.Off t) : ({ K with tp := Function.update K.tp h t } : Kin).Ok := by
  have hself : Function.update K.tp h t h = t := Function.update_self ..
  have hne : ∀ k, k ≠ h → Function.update K.tp h t k = K.tp k := fun k hk =>
    Function.update_of_ne hk ..
  -- a dead task is executed by no other hart than before
  have hback : ∀ k u, K.life u ≠ .live → Function.update K.tp h t k = u → K.tp k = u := by
    intro k u hu hk
    by_cases hkh : k = h
    · subst hkh
      exact absurd hlive (by rw [← hself, hk]; exact hu)
    · rwa [hne k hkh] at hk
  have hstage : ∀ k x, K.stage k = x → x ≠ .leave → Function.update K.tp h t k = K.tp k := by
    intro k x hk hx
    refine hne k fun hkh => hx ?_
    rw [← hk, hkh, hst]
  constructor
  · intro j hj k hk hjk
    by_cases hjh : j = h <;> by_cases hkh : k = h
    · exact hjh.trans hkh.symm
    · subst hjh
      exact absurd (by simpa [hkh] using hjk.symm) (hoff k hk)
    · subst hkh
      exact absurd (by simpa [hjh] using hjk) (hoff j hj)
    · exact O.inj j hj k hk (by simpa [hjh, hkh] using hjk)
  · intro k hk
    change K.Created (Function.update K.tp h t k)
    by_cases hkh : k = h
    · rw [hkh, hself]
      exact hcr
    · rw [hne k hkh]
      exact O.run k hk
  · exact O.unborn
  · exact O.table
  · intro k hk c p hc
    obtain ⟨hp, hrest⟩ := O.birth k hk c p hc
    exact ⟨hp.trans (hstage k _ hc (by simp)).symm, hrest⟩
  · exact O.adopted
  · exact O.nodup
  · exact O.child
  · intro p hp
    refine (O.childless p hp).imp_right ?_
    rintro ⟨k, hk, htp, hdy⟩
    exact ⟨k, hk, (hstage k _ hdy (by simp)).trans htp, hdy⟩
  · intro k hk hx p hp
    refine O.orphan k hk hx p ?_
    rwa [← hstage k _ hx (by simp)]
  · exact O.kept
  · exact O.single
  · intro k hk u hu
    obtain ⟨hc, hl, hj⟩ := O.queued k hk u hu
    exact ⟨hc, hl, fun j hjn htp => hj j hjn (hback j u hl htp)⟩
  · intro k hk u hu
    obtain ⟨hc, hl, ho⟩ := O.reap k hk u hu
    exact ⟨hc, hl, fun j hj htp => ho j hj (hback j u hl htp)⟩
  · intro u hu
    obtain ⟨hc, hl, ho⟩ := O.cleaned u hu
    exact ⟨hc, hl, fun j hj htp => ho j hj (hback j u hl htp)⟩
  · exact O.cleanup

/-- Children are taken from the lists. -/
theorem shrink (O : K.Ok) (children : ℕ → List ℕ)
    (hsub : ∀ p, (children p).Sublist (K.children p)) :
    ({ K with children := children } : Kin).Ok :=
  { O with
    nodup := fun p => (O.nodup p).sublist (hsub p)
    child := fun p c hc => O.child p c ((hsub p).subset hc)
    childless := fun p hp => (O.childless p hp).imp_left fun he => by
      have hnil := hsub p
      rw [show K.children p = [] from he] at hnil
      exact List.sublist_nil.1 hnil }

theorem removeChild (O : K.Ok) (p i : ℕ) : (K.removeChild p i).Ok := by
  refine O.shrink _ fun q => ?_
  by_cases hq : q = p
  · subst hq
    simp [List.eraseIdx_sublist]
  · simp [hq]

/-- A task that is dead, or about to disown its children, is marked as dead. -/
theorem setLife (O : K.Ok) {l : Life} (hl : l ≠ .live)
    (hd : K.life t ≠ .live ∨ ∃ k < K.harts, K.tp k = t ∧ K.stage k = .dying) :
    (K.setLife t l).Ok := by
  have hdead : ∀ u, K.life u ≠ .live → (K.setLife t l).life u ≠ .live := by
    intro u hu
    by_cases hut : u = t
    · subst hut
      simp [Kin.setLife, hl]
    · simp [Kin.setLife, hut, hu]
  exact
    { O with
      unborn := fun u hu => by
        have hut : u ≠ t := by
          rintro rfl
          rcases hd with hd | ⟨k, hk, rfl, -⟩
          · exact hd (O.unborn u hu)
          · exact hu (O.run k hk)
        simpa [Kin.setLife, hut] using O.unborn u hu
      childless := fun p hp => by
        by_cases hpt : p = t
        · subst hpt
          exact hd.elim (O.childless p) Or.inr
        · exact O.childless p (by simpa [Kin.setLife, hpt] using hp)
      queued := fun k hk u hu => (O.queued k hk u hu).imp_right (And.imp_left (hdead u))
      reap := fun k hk u hu => (O.reap k hk u hu).imp_right (And.imp_left (hdead u))
      cleaned := fun u hu => (O.cleaned u hu).imp_right (And.imp_left (hdead u)) }

/-- A task that is in no list is given to the reaper of the hart that leaves it. -/
theorem push (O : K.Ok) (hh : h < K.harts) (hcr : K.Created t) (hl : K.life t ≠ .live)
    (hno : K.tickets t = 0) (hchild : ∀ p, t ∉ K.children p)
    (htp : ∀ j < K.harts, K.tp j = t → j = h ∧ K.stage j = .leave) : (K.push h t).Ok :=
  { O with
    child := fun p c hc => by
      obtain ⟨hlt, ht, hb⟩ := O.child p c hc
      refine ⟨hlt, ?_, hb⟩
      rw [tickets_push hh, if_neg, ht]
      rintro rfl
      exact hchild p hc
    single := fun u => by
      rw [tickets_push hh]
      have := O.single u
      split
      · next he =>
        subst he
        omega
      · omega
    queued := fun k hk u hu => by
      by_cases hkh : k = h
      · subst hkh
        simp only [Kin.push, Function.update_self, List.mem_append, List.mem_singleton] at hu
        rcases hu with hu | rfl
        · exact O.queued k hk u hu
        · exact ⟨hcr, hl, htp⟩
      · simp only [Kin.push, Function.update_of_ne hkh] at hu
        exact O.queued k hk u hu }

/-- A reaper takes the first task of its queue. -/
theorem pop (O : K.Ok) (hh : h < K.harts) {queue : List ℕ} (hq : K.queue h = t :: queue)
    (hoff : K.Off t) : ({ K with
      queue := Function.update K.queue h queue
      cleaned := K.cleaned ++ [t] } : Kin).Ok := by
  have htickets : ∀ u, ({ K with
      queue := Function.update K.queue h queue
      cleaned := K.cleaned ++ [t] } : Kin).tickets u = K.tickets u := by
    intro u
    have hadd := tickets_add (t := u) hh { K with
      queue := Function.update K.queue h queue
      cleaned := K.cleaned ++ [t] } rfl fun k hk => by simp [due, hk]
    simp only [due, hq, Function.update_self, List.count_append, List.count_cons,
      List.count_nil] at hadd
    omega
  have hmem : ∀ k u, u ∈ Function.update K.queue h queue k → u ∈ K.queue k := by
    intro k u hu
    by_cases hk : k = h
    · subst hk
      rw [Function.update_self] at hu
      simp [hq, hu]
    · rwa [Function.update_of_ne hk] at hu
  have hcleaned : ∀ u ∈ K.cleaned, u ∈ K.cleaned ++ [t] := fun u hu =>
    List.mem_append_left _ hu
  exact
    { O with
      child := fun p c hc => by
        obtain ⟨hlt, ht, hb⟩ := O.child p c hc
        exact ⟨hlt, (htickets c).trans ht, hb⟩
      orphan := fun k hk hst p hp => hcleaned p (O.orphan k hk hst p hp)
      kept := fun u hu => (O.kept u hu).imp_right (hcleaned u)
      single := fun u => (htickets u).trans_le (O.single u)
      queued := fun k hk u hu => O.queued k hk u (hmem k u hu)
      cleaned := fun u hu => by
        rcases List.mem_append.1 hu with hu | hu
        · exact O.cleaned u hu
        · obtain rfl := List.mem_singleton.1 hu
          obtain ⟨hcr, hl, -⟩ := O.queued h hh u (by simp [hq])
          exact ⟨hcr, hl, hoff⟩
      cleanup := fun k hk u hst => hcleaned u (O.cleanup k hk u hst) }

theorem eraseTable (O : K.Ok) (ht : t ∈ K.cleaned) :
    ({ K with table := K.table.erase t } : Kin).Ok :=
  { O with
    table := fun u hu => O.table u (Finset.mem_of_mem_erase hu)
    kept := fun u hu => by
      by_cases hut : u = t
      · exact Or.inr (hut ▸ ht)
      · exact (O.kept u hu).imp_left fun h => Finset.mem_erase.2 ⟨hut, h⟩ }

theorem created_of_tickets (O : K.Ok) (ht : K.tickets t ≠ 0) : K.Created t := by
  rw [Ne, tickets_eq_zero] at ht
  by_contra hcr
  refine ht ⟨fun hc => hcr (O.cleaned t hc).1, fun k hk => ⟨fun hq => hcr (O.queued k hk t hq).1,
    fun hst => hcr (O.reap k hk t hst).1⟩⟩

/-- A hart that has not left its task keeps it from the reapers. -/
theorem tickets_tp (O : K.Ok) (hh : h < K.harts) (hst : K.stage h ≠ .leave) :
    K.tickets (K.tp h) = 0 := by
  refine tickets_eq_zero.2 ⟨fun hc => (O.cleaned _ hc).2.2 h hh rfl, fun k hk => ⟨fun hq => ?_,
    fun hr => (O.reap k hk _ hr).2.2 h hh rfl⟩⟩
  exact hst ((O.queued k hk _ hq).2.2 h hh rfl).2

theorem created_parent (O : K.Ok) {p c : ℕ} (hc : c ∈ K.children p) : K.Created p := by
  rcases (O.child p c hc).2.2 with ⟨k, hk, hkc⟩ | ⟨-, hpar⟩
  · exact (O.birth k hk c p hkc).1 ▸ O.run k hk
  · exact (O.adopted c p hpar).1

/-- A child is in the table, unless it is about to be made. -/
theorem child_table (O : K.Ok) {p c : ℕ} (hc : c ∈ K.children p) (hl : K.life c ≠ .live) :
    c ∈ K.table := by
  have hcr : K.Created c := not_not.1 fun hn => hl (O.unborn c hn)
  obtain ⟨-, htickets, -⟩ := O.child p c hc
  exact (O.kept c hcr).resolve_right (tickets_eq_zero.1 htickets).1

/-- A live task takes a number for a child. -/
theorem fork (O : K.Ok) (hh : h < K.harts) (hst : K.stage h = .busy)
    (hlive : K.life (K.tp h) = .live) : (K.fork h).Ok := by
  set K' := K.fork h with hK'
  have hself : K'.stage h = .birth K.pidCounter (K.tp h) := stage_setStage_self
  have hne : ∀ k, k ≠ h → K'.stage k = K.stage k := fun k hk => stage_setStage_ne hk
  have hcreated : ∀ t, K'.Created t ↔ K.Created t := by
    intro t
    constructor
    · rintro ⟨hlt, hb⟩
      have hnew : t ≠ K.pidCounter := by
        rintro rfl
        exact hb h hh _ hself
      refine ⟨by have : t < K.pidCounter + 1 := hlt; omega, fun k hk p hkp => ?_⟩
      refine hb k hk p ((hne k ?_).trans hkp)
      rintro rfl
      simp [hst] at hkp
    · rintro ⟨hlt, hb⟩
      refine ⟨Nat.lt_succ_of_lt hlt, fun k hk p hkp => ?_⟩
      by_cases hkh : k = h
      · subst hkh
        obtain ⟨rfl, -⟩ : K.pidCounter = t ∧ K.tp k = p := by simpa [hself] using hkp
        exact lt_irrefl _ hlt
      · exact hb k hk p ((hne k hkh).symm.trans hkp)
  have htickets : ∀ t, K'.tickets t = K.tickets t := by
    intro t
    have hadd := tickets_setStage (t := t) hh (.birth K.pidCounter (K.tp h))
    simp only [hst, Stage.owes, reduceCtorEq, if_false] at hadd
    exact hadd
  have hstage : ∀ k x, K'.stage k = x → (∀ c p, x ≠ .birth c p) → K.stage k = x := by
    intro k x hx hb
    refine (hne k ?_).symm.trans hx
    rintro rfl
    exact hb _ _ (hx.symm.trans hself)
  have hback : ∀ k x, K.stage k = x → x ≠ .busy → K'.stage k = x := by
    intro k x hx hb
    refine (hne k ?_).trans hx
    rintro rfl
    exact hb (hx.symm.trans hst)
  have hnew : K.tickets K.pidCounter = 0 := by
    by_contra hno
    exact lt_irrefl _ (O.created_of_tickets hno).1
  constructor
  · exact O.inj
  · exact fun k hk => (hcreated _).2 (O.run k hk)
  · exact fun t ht => O.unborn t (mt (hcreated t).2 ht)
  · exact fun t ht => (hcreated t).2 (O.table t ht)
  · intro k hk c p hc
    by_cases hkh : k = h
    · subst hkh
      obtain ⟨rfl, rfl⟩ : K.pidCounter = c ∧ K.tp k = p := by simpa [hself] using hc
      refine ⟨rfl, Nat.lt_succ_self _, fun j hj p' hj' => ?_⟩
      by_contra hjk
      exact lt_irrefl _ (O.birth j hj _ p' ((hne j hjk).symm.trans hj')).2.1
    · obtain ⟨hp, hlt, hu⟩ := O.birth k hk c p ((hne k hkh).symm.trans hc)
      refine ⟨hp, Nat.lt_succ_of_lt hlt, fun j hj p' hj' => ?_⟩
      by_cases hjh : j = h
      · subst hjh
        obtain ⟨rfl, -⟩ : K.pidCounter = c ∧ K.tp j = p' := by simpa [hself] using hj'
        exact absurd hlt (lt_irrefl _)
      · exact hu j hj p' ((hne j hjh).symm.trans hj')
  · exact fun t p ht => (O.adopted t p ht).imp_left (hcreated p).2
  · intro p
    by_cases hp : p = K.tp h
    · subst hp
      simp only [hK', Kin.fork, Function.update_self]
      refine List.nodup_append.2 ⟨O.nodup _, List.nodup_singleton _, fun a ha b hb hab => ?_⟩
      obtain rfl := List.mem_singleton.1 hb
      exact absurd (O.child _ a ha).1 (by omega)
    · simpa [hK', Kin.fork, hp] using O.nodup p
  · intro p c hc
    have hcase : c ∈ K.children p ∨ c = K.pidCounter ∧ p = K.tp h := by
      by_cases hp : p = K.tp h
      · subst hp
        simpa [hK', Kin.fork] using hc
      · exact Or.inl (by simpa [hK', Kin.fork, hp] using hc)
    rw [htickets c]
    rcases hcase with hc | ⟨rfl, rfl⟩
    · obtain ⟨hlt, ht, hb⟩ := O.child p c hc
      refine ⟨Nat.lt_succ_of_lt hlt, ht, ?_⟩
      rcases hb with ⟨k, hk, hkc⟩ | ⟨hcr, hpar⟩
      · exact Or.inl ⟨k, hk, hback k _ hkc (by simp)⟩
      · exact Or.inr ⟨(hcreated c).2 hcr, hpar⟩
    · exact ⟨Nat.lt_succ_self _, hnew, Or.inl ⟨h, hh, hself⟩⟩
  · intro p hp
    have hne' : p ≠ K.tp h := by
      rintro rfl
      exact hp hlive
    rcases O.childless p hp with he | ⟨k, hk, htp, hdy⟩
    · exact Or.inl (by simpa [hK', Kin.fork, hne'] using he)
    · exact Or.inr ⟨k, hk, htp, hback k _ hdy (by simp)⟩
  · exact fun k hk hx => O.orphan k hk (hstage k _ hx (by simp))
  · exact fun t ht => O.kept t ((hcreated t).1 ht)
  · exact fun t => (htickets t).trans_le (O.single t)
  · intro k hk t ht
    obtain ⟨hcr, hl, hj⟩ := O.queued k hk t ht
    refine ⟨(hcreated t).2 hcr, hl, fun j hjn htp => ?_⟩
    obtain ⟨hjk, hst⟩ := hj j hjn htp
    exact ⟨hjk, hback j _ hst (by simp)⟩
  · intro k hk t hx
    obtain ⟨hcr, hrest⟩ := O.reap k hk t (hstage k _ hx (by simp))
    exact ⟨(hcreated t).2 hcr, hrest⟩
  · intro t ht
    obtain ⟨hcr, hrest⟩ := O.cleaned t ht
    exact ⟨(hcreated t).2 hcr, hrest⟩
  · exact fun k hk t hx => O.cleanup k hk t (hstage k _ hx (by simp))

/-- The child is made and entered into the table. -/
theorem addTask (O : K.Ok) (hh : h < K.harts) {c p : ℕ} (hst : K.stage h = .birth c p) :
    (K.addTask h c p).Ok := by
  set K' := K.addTask h c p with hK'
  obtain ⟨hp, hclt, hu⟩ := O.birth h hh c p hst
  have hself : K'.stage h = .busy := stage_setStage_self
  have hne : ∀ k, k ≠ h → K'.stage k = K.stage k := fun k hk => stage_setStage_ne hk
  have hnc : ¬ K.Created c := fun hcr => hcr.2 h hh p hst
  have hstage : ∀ k x, K'.stage k = x → x ≠ .busy → K.stage k = x := by
    intro k x hx hb
    refine (hne k ?_).symm.trans hx
    rintro rfl
    exact hb (hx.symm.trans hself)
  have hback : ∀ k x, K.stage k = x → x ≠ .birth c p → K'.stage k = x := by
    intro k x hx hb
    refine (hne k ?_).trans hx
    rintro rfl
    exact hb (hx.symm.trans hst)
  have hcreated : ∀ t, K'.Created t ↔ K.Created t ∨ t = c := by
    intro t
    constructor
    · rintro ⟨hlt, hb⟩
      by_cases htc : t = c
      · exact Or.inr htc
      · refine Or.inl ⟨hlt, fun k hk q hkq => hb k hk q (hback k _ hkq ?_)⟩
        simp [htc]
    · rintro (⟨hlt, hb⟩ | rfl)
      · exact ⟨hlt, fun k hk q hkq => hb k hk q (hstage k _ hkq (by simp))⟩
      · refine ⟨hclt, fun k hk q hkq => ?_⟩
        have hk' := hu k hk q (hstage k _ hkq (by simp))
        rw [hk', hself] at hkq
        simp at hkq
  have htickets : ∀ t, K'.tickets t = K.tickets t := by
    intro t
    have hadd := tickets_setStage (t := t) hh .busy
    simp only [hst, Stage.owes, reduceCtorEq, if_false] at hadd
    exact hadd
  have hlife : ∀ t, t ≠ c → K'.life t = K.life t := fun t ht => by simp [hK', Kin.addTask, ht]
  have hdead : ∀ t, K.Created t → K.life t ≠ .live → K'.life t ≠ .live := by
    intro t hcr hl
    rwa [hlife t (by rintro rfl; exact hnc hcr)]
  have hparent : ∀ t, t ≠ c → K'.parent t = K.parent t := fun t ht => by simp [hK', Kin.addTask, ht]
  have hctp : ∀ k < K.harts, K.tp k ≠ c := fun k hk hkc => hnc (hkc ▸ O.run k hk)
  constructor
  · exact O.inj
  · exact fun k hk => (hcreated _).2 (Or.inl (O.run k hk))
  · intro t ht
    have htc : t ≠ c := fun h => ht ((hcreated t).2 (Or.inr h))
    rw [hlife t htc]
    exact O.unborn t fun h => ht ((hcreated t).2 (Or.inl h))
  · intro t ht
    rcases Finset.mem_insert.1 ht with rfl | ht
    · exact (hcreated t).2 (Or.inr rfl)
    · exact (hcreated t).2 (Or.inl (O.table t ht))
  · intro k hk c' p' hc
    obtain ⟨hp', hlt, hu'⟩ := O.birth k hk c' p' (hstage k _ hc (by simp))
    exact ⟨hp', hlt, fun j hj q hj' => hu' j hj q (hstage j _ hj' (by simp))⟩
  · intro t q ht
    by_cases htc : t = c
    · subst htc
      obtain rfl : p = q := by simpa [hK', Kin.addTask] using ht
      have hcr : K.Created p := hp ▸ O.run h hh
      refine ⟨(hcreated p).2 (Or.inl hcr), ?_⟩
      rintro rfl
      exact hnc hcr
    · exact (O.adopted t q ((hparent t htc).symm.trans ht)).imp_left fun hcr =>
        (hcreated q).2 (Or.inl hcr)
  · intro q
    by_cases hq : q = c
    · simp [hK', Kin.addTask, hq]
    · simpa [hK', Kin.addTask, hq] using O.nodup q
  · intro q c' hc'
    have hq : q ≠ c := by
      rintro rfl
      simp [hK', Kin.addTask] at hc'
    obtain ⟨hlt, ht, hb⟩ := O.child q c' (by simpa [hK', Kin.addTask, hq] using hc')
    refine ⟨hlt, (htickets c').trans ht, ?_⟩
    rcases hb with ⟨k, hk, hkc⟩ | ⟨hcr, hpar⟩
    · by_cases hkh : k = h
      · subst hkh
        obtain ⟨rfl, rfl⟩ : c = c' ∧ p = q := by simpa [hst] using hkc
        exact Or.inr ⟨(hcreated c).2 (Or.inr rfl), by simp [hK', Kin.addTask]⟩
      · exact Or.inl ⟨k, hk, (hne k hkh).trans hkc⟩
    · refine Or.inr ⟨(hcreated c').2 (Or.inl hcr), (hparent c' ?_).trans hpar⟩
      rintro rfl
      exact hnc hcr
  · intro q hq
    have hqc : q ≠ c := by
      rintro rfl
      exact hq (by simp [hK', Kin.addTask])
    rw [hlife q hqc] at hq
    rcases O.childless q hq with he | ⟨k, hk, htp, hdy⟩
    · exact Or.inl (by simpa [hK', Kin.addTask, hqc] using he)
    · exact Or.inr ⟨k, hk, htp, hback k _ hdy (by simp)⟩
  · intro k hk hx q hq
    refine O.orphan k hk (hstage k _ hx (by simp)) q ?_
    rwa [← hparent _ (hctp k hk)]
  · intro t ht
    rcases (hcreated t).1 ht with ht | rfl
    · exact (O.kept t ht).imp_left (Finset.mem_insert_of_mem)
    · exact Or.inl (Finset.mem_insert_self _ _)
  · exact fun t => (htickets t).trans_le (O.single t)
  · intro k hk t ht
    obtain ⟨hcr, hl, hj⟩ := O.queued k hk t ht
    refine ⟨(hcreated t).2 (Or.inl hcr), hdead t hcr hl, fun j hjn htp => ?_⟩
    obtain ⟨hjk, hx⟩ := hj j hjn htp
    exact ⟨hjk, hback j _ hx (by simp)⟩
  · intro k hk t hx
    obtain ⟨hcr, hl, ho⟩ := O.reap k hk t (hstage k _ hx (by simp))
    exact ⟨(hcreated t).2 (Or.inl hcr), hdead t hcr hl, ho⟩
  · intro t ht
    obtain ⟨hcr, hl, ho⟩ := O.cleaned t ht
    exact ⟨(hcreated t).2 (Or.inl hcr), hdead t hcr hl, ho⟩
  · exact fun k hk t hx => O.cleanup k hk t (hstage k _ hx (by simp))

/-- A child that a wait takes from the list is loose. -/
theorem loose (O : K.Ok) {p i c : ℕ} (hc : K.Reapable p i c) (htable : c ∈ K.table) :
    (K.removeChild p i).Loose c := by
  have hmem : c ∈ K.children p := List.mem_of_getElem? hc.child
  obtain ⟨-, htickets, hb⟩ := O.child p c hmem
  have hcr := O.table c htable
  have hpar : K.parent c = some p := by
    rcases hb with ⟨k, hk, hkc⟩ | ⟨-, hpar⟩
    · exact absurd hkc (hcr.2 k hk p)
    · exact hpar
  refine ⟨hcr, by simp [Kin.removeChild, hc.zombie], hc.off, htickets, fun q hq => ?_⟩
  by_cases hqp : q = p
  · subst hqp
    simp only [Kin.removeChild, Function.update_self] at hq
    obtain ⟨j, hj, hjc⟩ := List.mem_eraseIdx_iff_getElem?.1 hq
    refine hj ((List.getElem?_inj (List.getElem?_eq_some_iff.1 hjc).1 (O.nodup q)).1 ?_)
    exact hjc.trans hc.child.symm
  · simp only [Kin.removeChild, Function.update_of_ne hqp] at hq
    rcases (O.child q c hq).2.2 with ⟨k, hk, hkc⟩ | ⟨-, hq'⟩
    · exact hcr.2 k hk q hkc
    · exact hqp (Option.some.inj (hq'.symm.trans hpar))

/-- A task without a parent is given to the reaper of its core. -/
theorem abandon (O : K.Ok) (hh : h < K.harts) (hst : K.stage h = .orphan)
    (hdead : K.life (K.tp h) ≠ .live) : ((K.push h (K.tp h)).setStage h .leave).Ok := by
  have O' : (K.setStage h .leave).Ok := O.setPlain hh trivial (by simp [hst]) (by simp [hst])
    (by simp [hst])
  have hno : K.tickets (K.tp h) = 0 := O.tickets_tp hh (by simp [hst])
  refine O'.push hh (t := K.tp h) (O'.run h hh) hdead ?_ (fun p hp => ?_) fun j hj htp => ?_
  · have := tickets_setStage (t := K.tp h) hh .leave
    simp only [hst, Stage.owes] at this
    simpa [hno] using this
  · -- the parent would be gone, and a task that is gone has no children
    rcases (O.child p _ hp).2.2 with ⟨k, hk, hkc⟩ | ⟨-, hpar⟩
    · exact (O.run h hh).2 k hk p hkc
    · obtain ⟨-, hl, hoff⟩ := O.cleaned p (O.orphan h hh hst p hpar)
      have hp' : K.tp h ∈ K.children p := hp
      rcases O.childless p hl with he | ⟨k, hk, htp, -⟩
      · simp [he] at hp'
      · exact hoff k hk htp
  · obtain rfl : j = h := O.inj j hj h hh htp
    exact ⟨rfl, stage_setStage_self⟩

/-- A wait gives the child that it has taken to the reaper of its core. -/
theorem hand (O : K.Ok) (hh : h < K.harts) {c : ℕ} (hst : K.stage h = .reap c) :
    ((K.push h c).setStage h .busy).Ok := by
  have O' : (K.setStage h .busy).Ok := O.setPlain hh trivial (by simp [hst]) (by simp [hst])
    (by simp [hst])
  obtain ⟨hcr, hdead, hoff⟩ := O.reap h hh c hst
  have hold := tickets_setStage (t := c) hh .busy
  have hone := O.single c
  simp only [hst, Stage.owes, if_true] at hold
  refine O'.push hh ((created_setStage (by simp) (by simp [hst])).2 hcr) hdead ?_
    (fun p hp => ?_) fun j hj htp => absurd htp (hoff j hj)
  · simp at hold
    omega
  · have hzero := (O.child p c hp).2.1
    simp [hzero] at hold

/-- **Every step** keeps the families and the tickets. -/
theorem step (O : K.Ok) (hh : h < K.harts) {home : Prop} {K' : Kin}
    (hstep : KinStep home h K K') : K'.Ok := by
  cases hstep with
  | stay => exact O
  | leave hst =>
    exact O.setPlain hh trivial (by simp [hst]) (by simp [hst]) fun _ => Or.inl rfl
  | goOn hst hlive hno =>
    exact O.setPlain hh trivial (by simp [hst]) (by simp [hst]) fun _ => Or.inr hlive
  | switch t hst hcr hlive hoff hno =>
    refine (O.setTp hst hcr hlive hoff).setPlain hh (s := .busy) trivial (by simp [hst])
      (by simp [hst]) fun _ => Or.inr ?_
    simp [hlive]
  | fork hst hlive => exact O.fork hh hst hlive
  | birth c p hst => exact O.addTask hh hst
  | exit hst => exact O.setPlain hh trivial (by simp [hst]) (by simp [hst]) (by simp [hst])
  | die hst hlive =>
    have O' : (K.setStage h .dying).Ok := O.setStage hh (by simp) (by simp [hst])
      (by simp [hst]) (by simp) (by simp) (by simp) (by simp [hst])
    exact O'.setLife (t := K.tp h) (l := .zombie) (by simp)
      (Or.inr ⟨h, hh, rfl, stage_setStage_self⟩)
  | disown hst hdead =>
    refine (O.shrink (Function.update K.children (K.tp h) []) fun p => ?_).setPlain hh
      (s := .notify) trivial (by simp [hst]) (by simp) (by simp [hst])
    by_cases hp : p = K.tp h
    · subst hp
      simp
    · simp [hp]
  | notify p hst hpar hp =>
    exact O.setPlain hh trivial (by simp [hst]) (by simp [hst]) (by simp [hst])
  | orphan hst hpar =>
    refine O.setStage hh (by simp) (by simp [hst]) (by simp [hst]) (by simp) (fun _ p hp => ?_)
      (by simp) (by simp [hst])
    exact (O.kept p (O.adopted _ p hp).1).resolve_left (hpar p hp)
  | wake p hst hp =>
    have O' : (K.setStage h .busy).Ok := O.setPlain hh trivial (by simp [hst]) (by simp [hst])
      (by simp [hst])
    exact { O' with }
  | told p hst hp => exact O.setPlain hh trivial (by simp [hst]) (by simp [hst]) (by simp [hst])
  | abandon hst hdead => exact O.abandon hh hst hdead
  | block hst hlive hno =>
    have O' : (K.setStage h .leave).Ok := O.setPlain hh trivial (by simp [hst]) (by simp [hst])
      (by simp [hst])
    exact { O' with }
  | take i c hst hc htable =>
    have L := O.loose hc htable
    have O' := (O.removeChild (K.tp h) i).setLife (t := c) (l := .exited) (by simp)
      (Or.inl L.dead)
    have O'' := O'.push hh L.created (by simp [Kin.setLife]) L.tickets L.child
      fun j hj htp => absurd htp (L.off j hj)
    exact O''.setPlain hh trivial (by simp [Kin.push, Kin.setLife, hst])
      (by simp [Kin.push, Kin.setLife, hst]) (by simp [Kin.push, Kin.setLife, hst])
  | goBack hst => exact O.setPlain hh trivial (by simp [hst]) (by simp [hst]) (by simp [hst])
  | reap p i c hst _ hc htable =>
    refine (O.removeChild p i).setStage hh (by simp) (by simp [hst]) (by simp [hst])
      (fun t ht => ?_) (by simp) (by simp) (by simp [hst])
    obtain rfl : c = t := by simpa using ht
    exact O.loose hc htable
  | lose p i c hst =>
    exact (O.removeChild p i).setPlain hh trivial (by simp [hst]) (by simp [hst])
      fun _ => Or.inl rfl
  | mark c hst => exact O.setLife (by simp) (Or.inl (O.reap h hh c hst).2.1)
  | hand c hst => exact O.hand hh hst
  | pop t queue hst hq =>
    have hoff : K.Off t := by
      intro j hj htp
      obtain ⟨rfl, hleave⟩ := (O.queued h hh t (by simp [hq])).2.2 j hj htp
      simp [hst] at hleave
    refine (O.pop hh hq hoff).setStage hh (s := .cleanup t) (by simp) (by simp [hst])
      (by simp [hst]) (by simp) (by simp) (fun u hu => ?_) (by simp [hst])
    obtain rfl : t = u := by simpa using hu
    simp
  | finish t hst =>
    exact O.setLife (by simp) (Or.inl (O.cleaned t (O.cleanup h hh t hst)).2.1)
  | remove t hst =>
    exact (O.eraseTable (O.cleanup h hh t hst)).setPlain hh (s := .busy) trivial (by simp [hst])
      (by simp [hst]) (by simp [hst])

end Ok

end Kin

end Invariant

end Efiks.Sched

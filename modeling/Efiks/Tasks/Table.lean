import Efiks.Lib.Checked
import Efiks.Lib.Slab

/-!
# The task table

Tasks live in slabs that never grow, so that a task keeps its address; `pid_to_idx`
says in which slab and under which key. A lookup goes through both, and keys are used
again after a removal. What keeps the two together is that the task found under an
index has the pid that led there: two pids cannot share an index, and a removal leaves
no index behind.

The slabs are those of a crate, so the model takes any `LawfulSlab`.

## Main definitions

* `TaskPoolInner`, `addTask`, `getTask`, `removeTask`.
* `Run` — the pool after any calls, with the map that it stands for.
-/
namespace Efiks.Tasks
namespace Table
open Lib Lib.RustM

/-- `MAX_TASK_PER_SLAB`. -/
def maxTaskPerSlab : ℕ := 100

/-- The pool behind the lock. -/
structure TaskPoolInner (S : Type) where
  slabs : List S
  pidToIdx : ℕ → Option (ℕ × ℕ)

/-- The pool at boot. -/
def TaskPoolInner.new (S : Type) : TaskPoolInner S := ⟨[], fun _ => none⟩

/-- Pool code has no errors of its own. -/
abbrev PoolM (S : Type) := RustM (TaskPoolInner S) Empty

variable {S τ : Type} [Slab S τ]

/-- `slab.len() < slab.capacity()`. -/
def hasRoom (slab : S) : Bool := decide (Slab.len slab < Slab.capacity slab)

/-- The index of the first slab with room, or of a new one. -/
def slabWithRoom : PoolM S ℕ := do
  let pool ← gets id
  match pool.slabs.findIdx? hasRoom with
  | some slabIdx => pure slabIdx
  | none => do
      modify fun p => { p with slabs := p.slabs ++ [Slab.withCapacity maxTaskPerSlab] }
      let pool ← gets id
      subUsize pool.slabs.length 1

/-- `pool.slabs[slab_idx]`. -/
def slabAt (slabIdx : ℕ) : PoolM S S := do
  let pool ← gets id
  expect pool.slabs[slabIdx]? "index out of bounds"

/-- Add a task, whose pid is `pid task`. -/
def addTask (pid : τ → ℕ) (task : τ) : PoolM S τ := do
  let slabIdx ← slabWithRoom
  let slab ← slabAt slabIdx
  assert (hasRoom slab) "assertion failed: slab.len() < slab.capacity()"
  let inserted := Slab.insert slab task
  modify fun p => { p with slabs := p.slabs.set slabIdx inserted.2 }
  modify fun p =>
    { p with pidToIdx := Function.update p.pidToIdx (pid task) (some (slabIdx, inserted.1)) }
  pure task

/-- The task with a pid, if any. -/
def getTask (pid : ℕ) : PoolM S (Option τ) := do
  let pool ← gets id
  match pool.pidToIdx pid with
  | none => pure none
  | some (slabIdx, idx) => do
      let slab ← slabAt slabIdx
      pure (Slab.get slab idx)

/-- Remove the task with a pid and return it. -/
def removeTask (pid : ℕ) : PoolM S (Option τ) := do
  let pool ← gets id
  match pool.pidToIdx pid with
  | none => pure none
  | some (slabIdx, idx) => do
      modify fun p => { p with pidToIdx := Function.update p.pidToIdx pid none }
      let slab ← slabAt slabIdx
      match Slab.remove slab idx with
      | none => panic (.explicit "invalid key")
      | some (task, slab') => do
          modify fun p => { p with slabs := p.slabs.set slabIdx slab' }
          pure (some task)

/-- The pool after any calls, and the map it stands for: the tasks added and not removed since,
by pid. A pid need not be new: its old task then stays in its slab, and nothing finds it. -/
inductive Run (pid : τ → ℕ) : TaskPoolInner S → (ℕ → Option τ) → Prop
  | new : Run pid (.new S) fun _ => none
  | add {p p' m task t} (h : Run pid p m) (hrun : addTask pid task p = .ok t p') :
      Run pid p' (Function.update m (pid task) (some task))
  | get {p p' m q o} (h : Run pid p m) (hrun : getTask q p = .ok o p') : Run pid p' m
  | remove {p p' m q o} (h : Run pid p m) (hrun : removeTask q p = .ok o p') :
      Run pid p' (Function.update m q none)

/-! ## The invariant -/

/-- The task of pid `q` is where the index of `q` says. -/
structure Holds (pid : τ → ℕ) (p : TaskPoolInner S) (q : ℕ) (idx : ℕ × ℕ) (task : τ) : Prop where
  slot : ∃ slab, p.slabs[idx.1]? = some slab ∧ Slab.get slab idx.2 = some task
  pid_eq : pid task = q

/-- The pool stands for the map `m`, and its slabs have not grown. -/
structure PoolInv (pid : τ → ℕ) (p : TaskPoolInner S) (m : ℕ → Option τ) : Prop where
  none_iff : ∀ q, p.pidToIdx q = none ↔ m q = none
  holds : ∀ q idx, p.pidToIdx q = some idx → ∃ task, m q = some task ∧ Holds pid p q idx task
  room : ∀ slab ∈ p.slabs, Slab.len slab ≤ Slab.capacity slab ∧
    Slab.capacity slab = Slab.capacity (Slab.withCapacity maxTaskPerSlab : S)

variable {pid : τ → ℕ} {p : TaskPoolInner S} {m : ℕ → Option τ}

/-- Two pids with one index are one pid. -/
theorem PoolInv.injective (h : PoolInv pid p m) {q q' : ℕ} {idx : ℕ × ℕ}
    (hq : p.pidToIdx q = some idx) (hq' : p.pidToIdx q' = some idx) : q = q' := by
  obtain ⟨task, -, ⟨slab, hslab, hget⟩, hpid⟩ := h.holds q idx hq
  obtain ⟨task', -, ⟨slab', hslab', hget'⟩, hpid'⟩ := h.holds q' idx hq'
  rw [hslab] at hslab'
  cases hslab'
  rw [hget] at hget'
  cases hget'
  rw [← hpid, hpid']

/-- An index of another pid is not the index of `q`. -/
theorem PoolInv.ne_of_ne (h : PoolInv pid p m) {q q' : ℕ} {idx idx' : ℕ × ℕ}
    (hq : p.pidToIdx q = some idx) (hq' : p.pidToIdx q' = some idx') (hne : q' ≠ q) :
    idx' ≠ idx := by
  intro heq
  subst heq
  exact hne (h.injective hq' hq)

theorem PoolInv.new : PoolInv pid (.new S) (fun _ => none) where
  none_iff := by simp [TaskPoolInner.new]
  holds := by simp [TaskPoolInner.new]
  room := by simp [TaskPoolInner.new]

variable [LawfulSlab S]

omit [LawfulSlab S] in
/-- A slab that changes at one key leaves the other indices as they were. -/
theorem Holds.set {q : ℕ} {idx : ℕ × ℕ} {task : τ} (h : Holds pid p q idx task)
    {slabIdx key : ℕ} {slab slab' : S} {o : Option τ} (hslab : p.slabs[slabIdx]? = some slab)
    (hget : Slab.get slab' = Function.update (Slab.get slab) key o)
    (hne : idx ≠ (slabIdx, key)) (f : ℕ → Option (ℕ × ℕ)) :
    Holds pid ⟨p.slabs.set slabIdx slab', f⟩ q idx task := by
  obtain ⟨⟨old, hold, htask⟩, hpid⟩ := h
  refine ⟨?_, hpid⟩
  by_cases hi : idx.1 = slabIdx
  · have hkey : idx.2 ≠ key := fun hk => hne (Prod.ext hi hk)
    rw [hi, hslab] at hold
    cases hold
    refine ⟨slab', ?_, by rw [hget, Function.update_of_ne hkey, htask]⟩
    simp only [hi]
    rw [List.getElem?_set_self (List.getElem?_eq_some_iff.mp hslab).1]
  · refine ⟨old, ?_, htask⟩
    simp only
    rw [List.getElem?_set_ne (Ne.symm hi), hold]

omit [LawfulSlab S] in
/-- Looking a slab up. -/
theorem wp_slabAt {slabIdx : ℕ} {slab : S} (hslab : p.slabs[slabIdx]? = some slab)
    {Q : S → TaskPoolInner S → Prop} {E : Empty → TaskPoolInner S → Prop} {N : Panic → Prop}
    (hQ : Q slab p) : wp (slabAt slabIdx) Q E N p := by
  simp only [slabAt, wp_bind, wp_gets, id, hslab, expect, wp_pure]
  exact hQ

/-- There is a slab with room, and making it changes no index. -/
theorem wp_slabWithRoom (h : PoolInv pid p m) :
    wp slabWithRoom
      (fun slabIdx p' => PoolInv pid p' m ∧ p'.pidToIdx = p.pidToIdx ∧
        ∃ slab, p'.slabs[slabIdx]? = some slab ∧ Slab.len slab < Slab.capacity slab)
      (fun _ _ => False) (fun _ => False) p := by
  simp only [slabWithRoom, wp_bind, wp_gets, id]
  cases hfind : p.slabs.findIdx? hasRoom with
  | some slabIdx =>
      rw [wp_pure]
      rw [List.findIdx?_eq_some_iff_getElem] at hfind
      obtain ⟨hlt, hroom, -⟩ := hfind
      exact ⟨h, rfl, _, List.getElem?_eq_getElem hlt, by simpa [hasRoom] using hroom⟩
  | none =>
      have hlast : (p.slabs ++ [Slab.withCapacity maxTaskPerSlab])[p.slabs.length]?
          = some (Slab.withCapacity maxTaskPerSlab : S) := by simp
      have hcap : maxTaskPerSlab ≤ Slab.capacity (Slab.withCapacity maxTaskPerSlab : S) :=
        LawfulSlab.le_capacity_withCapacity _
      have hlen : Slab.len (Slab.withCapacity maxTaskPerSlab : S) = 0 :=
        LawfulSlab.len_withCapacity _
      simp only [wp_bind, wp_modify, wp_gets, id, wp_subUsize, List.length_append,
        List.length_singleton]
      refine ⟨fun _ => ⟨⟨h.none_iff, ?_, ?_⟩, by simp, _, hlast, ?_⟩, by omega⟩
      · intro q idx hq
        obtain ⟨task, hm, ⟨slab, hslab, hget⟩, hpid⟩ := h.holds q idx hq
        have hlt := (List.getElem?_eq_some_iff.mp hslab).1
        exact ⟨task, hm, ⟨slab, by simp only; rw [List.getElem?_append_left hlt, hslab], hget⟩, hpid⟩
      · intro slab hslab
        rcases List.mem_append.mp hslab with hold | hnew
        · exact h.room slab hold
        · rw [List.mem_singleton] at hnew
          subst hnew
          exact ⟨by omega, rfl⟩
      · simp only [maxTaskPerSlab] at *
        omega

/-- Adding a task extends the map. -/
theorem wp_addTask (h : PoolInv pid p m) (task : τ) :
    wp (addTask pid task)
      (fun t p' => t = task ∧ PoolInv pid p' (Function.update m (pid task) (some task)))
      (fun _ _ => False) (fun _ => False) p := by
  rw [addTask, wp_bind]
  refine wp_mono (wp_slabWithRoom h) ?_ (fun _ _ hf => hf) (fun _ hf => hf)
  rintro slabIdx p₁ ⟨hinv, -, slab, hslab, hroom⟩
  rw [wp_bind]
  apply wp_slabAt hslab
  have hhas : hasRoom slab = true := by simpa [hasRoom] using hroom
  have hvacant := LawfulSlab.get_insert_vacant slab task
  have hget := LawfulSlab.get_insert slab task
  have hlt := (List.getElem?_eq_some_iff.mp hslab).1
  simp only [wp_bind, wp_assert, hhas, wp_modify, wp_pure]
  refine ⟨fun _ => ⟨by simp, ?_, ?_, ?_⟩, by simp⟩
  · intro q
    by_cases hq : q = pid task
    · subst hq
      simp
    · simpa [hq] using hinv.none_iff q
  · intro q idx hq
    simp only at hq ⊢
    by_cases hqt : q = pid task
    · subst hqt
      rw [Function.update_self] at hq
      cases hq
      refine ⟨task, by simp, ⟨(Slab.insert slab task).2, ?_, by rw [hget, Function.update_self]⟩, rfl⟩
      simp only
      rw [List.getElem?_set_self hlt]
    · rw [Function.update_of_ne hqt] at hq ⊢
      obtain ⟨t, hm, hholds⟩ := hinv.holds q idx hq
      refine ⟨t, hm, hholds.set hslab hget ?_ _⟩
      -- the key was vacant, and `idx` is taken
      rintro rfl
      obtain ⟨⟨slab', hslab', htaken⟩, -⟩ := hholds
      rw [hslab] at hslab'
      cases hslab'
      rw [hvacant] at htaken
      cases htaken
  · intro slab' hslab'
    simp only at hslab'
    rcases List.mem_or_eq_of_mem_set hslab' with hold | rfl
    · exact hinv.room slab' hold
    · have hcap := LawfulSlab.capacity_insert slab task hroom
      have hlen := LawfulSlab.len_insert slab task
      have hfixed := (hinv.room slab (List.mem_of_getElem? hslab)).2
      rw [hcap, hlen]
      exact ⟨hroom, hfixed⟩

omit [LawfulSlab S] in
/-- A lookup answers from the map. -/
theorem wp_getTask (h : PoolInv pid p m) (q : ℕ) :
    wp (getTask q) (fun o p' => o = m q ∧ p' = p) (fun _ _ => False) (fun _ => False) p := by
  simp only [getTask, wp_bind, wp_gets, id]
  cases hq : p.pidToIdx q with
  | none =>
      rw [wp_pure]
      exact ⟨((h.none_iff q).mp hq).symm, rfl⟩
  | some idx =>
      obtain ⟨task, hm, ⟨slab, hslab, hget⟩, -⟩ := h.holds q idx hq
      simp only [wp_bind]
      apply wp_slabAt hslab
      rw [wp_pure]
      exact ⟨by rw [hget, hm], rfl⟩

/-- Removing a pid returns what the map has and takes it out. -/
theorem wp_removeTask (h : PoolInv pid p m) (q : ℕ) :
    wp (removeTask q)
      (fun o p' => o = m q ∧ PoolInv pid p' (Function.update m q none) ∧ (m q = none → p' = p))
      (fun _ _ => False) (fun _ => False) p := by
  simp only [removeTask, wp_bind, wp_gets, id]
  cases hq : p.pidToIdx q with
  | none =>
      have hm := (h.none_iff q).mp hq
      have hsame : Function.update m q none = m := by rw [← hm, Function.update_eq_self]
      rw [wp_pure, hsame]
      exact ⟨hm.symm, h, fun _ => rfl⟩
  | some idx =>
      obtain ⟨slabIdx, key⟩ := idx
      obtain ⟨task, hm, ⟨slab, hslab, hget⟩, -⟩ := h.holds q _ hq
      obtain ⟨slab', hremove, hget', hlen, hcap⟩ := LawfulSlab.remove_of_get slab key task hget
      simp only [wp_bind, wp_modify]
      apply wp_slabAt (p := ⟨p.slabs, Function.update p.pidToIdx q none⟩) hslab
      simp only [hremove, wp_bind, wp_modify, wp_pure]
      refine ⟨hm.symm, ⟨?_, ?_, ?_⟩, by simp [hm]⟩
      · intro r
        by_cases hr : r = q
        · simp [hr]
        · simpa [hr] using h.none_iff r
      · intro r idx hr
        simp only at hr
        by_cases hrq : r = q
        · simp [hrq] at hr
        · rw [Function.update_of_ne hrq] at hr ⊢
          obtain ⟨t, hmr, hholds⟩ := h.holds r idx hr
          exact ⟨t, hmr, hholds.set hslab hget' (h.ne_of_ne hq hr hrq) _⟩
      · intro s hs
        rcases List.mem_or_eq_of_mem_set hs with hold | rfl
        · exact h.room s hold
        · have hroom := h.room slab (List.mem_of_getElem? hslab)
          rw [hcap]
          exact ⟨le_trans hlen hroom.1, hroom.2⟩

theorem Run.inv (h : Run pid p m) : PoolInv pid p m := by
  induction h with
  | new => exact PoolInv.new
  | add _ hrun ih => exact (wp_of_ok (wp_addTask ih _) hrun).2
  | get _ hrun ih =>
      rw [(wp_of_ok (wp_getTask ih _) hrun).2]
      exact ih
  | remove _ hrun ih => exact (wp_of_ok (wp_removeTask ih _) hrun).2.1

/-- **The task table is a finite map.** After any calls, with `m` the tasks added and not removed
since: a lookup returns what `m` has; adding a task and removing a pid always return, a removal
with what `m` had, and it changes nothing if `m` had nothing; different pids
have different indices, and each leads to a task of its pid; and no slab has more tasks than its
initial capacity, or another capacity. -/
theorem table_refines_map (h : Run pid p m) :
    (∀ q, getTask q p = .ok (m q) p) ∧
    (∀ task, ∃ p', addTask pid task p = .ok task p' ∧
      Run pid p' (Function.update m (pid task) (some task))) ∧
    (∀ q, ∃ p', removeTask q p = .ok (m q) p' ∧ Run pid p' (Function.update m q none) ∧
      (m q = none → p' = p)) ∧
    (∀ q q' idx, p.pidToIdx q = some idx → p.pidToIdx q' = some idx → q = q') ∧
    (∀ q idx, p.pidToIdx q = some idx → ∃ slab task, p.slabs[idx.1]? = some slab ∧
      Slab.get slab idx.2 = some task ∧ pid task = q) ∧
    ∀ slab ∈ p.slabs, Slab.len slab ≤ Slab.capacity slab ∧
      Slab.capacity slab = Slab.capacity (Slab.withCapacity maxTaskPerSlab : S) := by
  have hinv := h.inv
  refine ⟨fun q => ?_, fun task => ?_, fun q => ?_, ?_, ?_, hinv.room⟩
  · obtain ⟨o, p', hrun, rfl, rfl⟩ := exists_ok_of_wp (wp_getTask hinv q)
    exact hrun
  · obtain ⟨t, p', hrun, rfl, -⟩ := exists_ok_of_wp (wp_addTask hinv task)
    exact ⟨p', hrun, .add h hrun⟩
  · obtain ⟨o, p', hrun, rfl, -, hsame⟩ := exists_ok_of_wp (wp_removeTask hinv q)
    exact ⟨p', hrun, .remove h hrun, hsame⟩
  · intro q q' idx hq hq'
    exact hinv.injective hq hq'
  · intro q idx hq
    obtain ⟨task, -, ⟨slab, hslab, hget⟩, hpid⟩ := hinv.holds q idx hq
    exact ⟨slab, task, hslab, hget, hpid⟩

/-- A task with pid 7 in a table of list slabs is found. -/
theorem table_refines_map_added : ∃ p : TaskPoolInner (ListSlab ℕ),
    Run id p (Function.update (fun _ => none) 7 (some 7)) ∧ getTask 7 p = .ok (some 7) p := by
  have hnew : Run id (.new (ListSlab ℕ)) fun _ => none := .new
  obtain ⟨p, -, hrun⟩ := (table_refines_map hnew).2.1 7
  exact ⟨p, hrun, (table_refines_map hrun).1 7⟩

end Table

end Efiks.Tasks

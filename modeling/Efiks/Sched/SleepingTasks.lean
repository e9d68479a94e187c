import Efiks.Lib.Checked
import Efiks.Lib.PriorityQueue
import Efiks.Sched.Harts

/-!
# Sleeping tasks

A heap of wake-up times with weak references to the tasks. The timer interrupt peeks at
the first node, upgrades its reference, calls back and only then pops, so whether a node
is handled once depends on `pop` taking the node that `peek` showed. The order compares
times alone, and it is reversed because the heap hands out a greatest element.

The heap is that of the standard library, so the model takes any `LawfulPriorityQueue`.
The callback is any function on a state of its own that does not end a task's life.

## Main definitions

* `SleepNode.cmp`, `SleepNode.reverseCmp` — the order.
* `SleepingTasks.withTasksToWakeUp` — the loop.
* `SleepingTasks.Run` — the heap after any calls, with the nodes in it.
* `SleepingTasks.Woken` — what a call of the loop does.
-/
namespace Efiks.Sched
open Lib Lib.RustM

/-- A node of the heap; `ω` are the weak references. -/
structure SleepNode (ω : Type) where
  sleepUntil : ℕ
  task : ω
  deriving DecidableEq, Repr

namespace SleepNode
variable {ω : Type}

/-- `Ord::cmp`. -/
def cmp (a b : SleepNode ω) : Ordering := compare a.sleepUntil b.sleepUntil

/-- `Ord::cmp` of `Reverse<SleepNode>`. -/
def reverseCmp (a b : SleepNode ω) : Ordering := cmp b a

end SleepNode

namespace SleepingTasks
variable {H E τ ω : Type} [PriorityQueue H (SleepNode ω)]

/-- Put a task to sleep until its `wake_up_at`. -/
def push (h : H) (wakeUpAt : ℕ) (task : ω) : H := PriorityQueue.push h ⟨wakeUpAt, task⟩

/-- The loop; each turn uses one unit of fuel. -/
def withTasksToWakeUp (upgrade : E → ω → Option τ) (cb : τ → E → E) (currentTime : ℕ) :
    ℕ → RustM (H × E) Empty Unit
  | 0 => panic .diverges
  | fuel + 1 => do
      let node ← gets fun s => PriorityQueue.peek s.1
      match node with
      | none => pure ()
      | some node =>
          if currentTime ≥ node.sleepUntil then do
            let task ← gets fun s => upgrade s.2 node.task
            match task with
            | none => do
                modify fun s => (PriorityQueue.pop s.1, s.2)
                withTasksToWakeUp upgrade cb currentTime fuel
            | some task => do
                modify fun s => (s.1, cb task s.2)
                modify fun s => (PriorityQueue.pop s.1, s.2)
                withTasksToWakeUp upgrade cb currentTime fuel
          else pure ()

/-- The callback ends no task's life and starts none. -/
def KeepsTasks (upgrade : E → ω → Option τ) (cb : τ → E → E) : Prop :=
  ∀ t e w, upgrade (cb t e) w = upgrade e w

/-- The heap after any calls, and the nodes that should be in it. -/
inductive Run (E τ : Type) : H → Multiset (SleepNode ω) → Prop
  | new : Run E τ PriorityQueue.new 0
  | push {h s} (hr : Run E τ h s) (wakeUpAt : ℕ) (task : ω) :
      Run E τ (push h wakeUpAt task) (⟨wakeUpAt, task⟩ ::ₘ s)
  | wakeUp {h h' s} (hr : Run E τ h s) {upgrade : E → ω → Option τ} {cb : τ → E → E}
      {currentTime fuel e e'} (hcb : KeepsTasks upgrade cb)
      (hrun : withTasksToWakeUp upgrade cb currentTime fuel (h, e) = .ok () (h', e')) :
      Run E τ h' (s.filter fun n => currentTime < n.sleepUntil)

/-- What a call of the loop does: it takes the nodes whose time has come, in the order of their
times, and calls back for the tasks that are left of them. -/
structure Woken (upgrade : E → ω → Option τ) (cb : τ → E → E) (currentTime : ℕ)
    (s s' : Multiset (SleepNode ω)) (e e' : E) (popped : List (SleepNode ω)) : Prop where
  due : (popped : Multiset (SleepNode ω)) = s.filter fun n => n.sleepUntil ≤ currentTime
  sorted : popped.Pairwise fun a b => a.sleepUntil ≤ b.sleepUntil
  kept : s' = s.filter fun n => currentTime < n.sleepUntil
  called : e' = (popped.filterMap fun n => upgrade e n.task).foldl (fun e t => cb t e) e

variable [LawfulPriorityQueue H (SleepNode.reverseCmp : SleepNode ω → SleepNode ω → Ordering)]

/-- The nodes in a heap. -/
def nodes (h : H) : Multiset (SleepNode ω) := LawfulPriorityQueue.items h

theorem nodes_of_peek {h : H} {a : SleepNode ω} (hpeek : PriorityQueue.peek h = some a) :
    nodes h = a ::ₘ nodes (PriorityQueue.pop h) := LawfulPriorityQueue.items_of_peek hpeek

/-- `peek` shows a node with the least time. -/
theorem sleepUntil_le {h : H} {a b : SleepNode ω} (hpeek : PriorityQueue.peek h = some a)
    (hb : b ∈ nodes h) : a.sleepUntil ≤ b.sleepUntil := by
  have hgreatest := LawfulPriorityQueue.peek_greatest hpeek hb
  rw [SleepNode.reverseCmp, SleepNode.cmp, Ne, compare_gt_iff_gt] at hgreatest
  exact not_lt.mp hgreatest

variable {upgrade : E → ω → Option τ} {cb : τ → E → E} {currentTime : ℕ}

/-- The loop stops at a node whose time has not come: there is no other. -/
theorem Woken.stop {h : H} {e : E} (hlate : ∀ n ∈ nodes h, currentTime < n.sleepUntil) :
    Woken upgrade cb currentTime (nodes h) (nodes h) e e [] where
  due := by
    rw [Multiset.coe_nil, eq_comm, Multiset.filter_eq_nil]
    intro n hn
    exact not_le.mpr (hlate n hn)
  sorted := List.Pairwise.nil
  kept := (Multiset.filter_eq_self.mpr hlate).symm
  called := rfl

/-- One turn of the loop in front of the others. -/
theorem Woken.turn {h : H} {node : SleepNode ω} {s' : Multiset (SleepNode ω)} {e e₁ e' : E}
    {popped : List (SleepNode ω)} (hpeek : PriorityQueue.peek h = some node)
    (hdue : node.sleepUntil ≤ currentTime) (hlive : ∀ w, upgrade e₁ w = upgrade e w)
    (he₁ : e₁ = (upgrade e node.task).elim e fun t => cb t e)
    (hrest : Woken upgrade cb currentTime (nodes (PriorityQueue.pop h)) s' e₁ e' popped) :
    Woken upgrade cb currentTime (nodes h) s' e e' (node :: popped) := by
  have hitems := nodes_of_peek hpeek
  refine ⟨?_, ?_, ?_, ?_⟩
  · rw [hitems, Multiset.filter_cons_of_pos (p := fun n : SleepNode ω => n.sleepUntil ≤ currentTime) _ hdue, ← hrest.due, Multiset.cons_coe]
  · rw [List.pairwise_cons]
    refine ⟨fun b hb => sleepUntil_le hpeek ?_, hrest.sorted⟩
    have hmem : b ∈ (popped : Multiset (SleepNode ω)) := Multiset.mem_coe.mpr hb
    rw [hrest.due, Multiset.mem_filter] at hmem
    rw [hitems]
    exact Multiset.mem_cons_of_mem hmem.1
  · rw [hitems, Multiset.filter_cons_of_neg (p := fun n : SleepNode ω => currentTime < n.sleepUntil) _ (not_lt.mpr hdue), hrest.kept]
  · have hcalled := hrest.called
    simp only [hlive] at hcalled
    rw [List.filterMap_cons, hcalled, he₁]
    cases upgrade e node.task <;> rfl

/-- **The loop.** It returns unless it runs out of fuel, for which there have to be at least as
many nodes as turns. -/
theorem wp_withTasksToWakeUp (currentTime : ℕ) (hcb : KeepsTasks upgrade cb) (fuel : ℕ) (h : H) (e : E) :
    wp (withTasksToWakeUp upgrade cb currentTime fuel)
      (fun _ s => ∃ popped, Woken upgrade cb currentTime (nodes h) (nodes s.1) e s.2 popped)
      (fun _ _ => False) (fun _ => fuel ≤ (nodes h).card) (h, e) := by
  induction fuel generalizing h e with
  | zero => simp [withTasksToWakeUp]
  | succ fuel ih =>
      simp only [withTasksToWakeUp, wp_bind, wp_gets]
      cases hpeek : PriorityQueue.peek h with
      | none =>
          rw [wp_pure]
          exact ⟨[], Woken.stop (by simp [show nodes h = 0 from LawfulPriorityQueue.items_of_peek_none hpeek])⟩
      | some node =>
          have hcard : (nodes h).card = (nodes (PriorityQueue.pop h)).card + 1 := by
            rw [nodes_of_peek hpeek, Multiset.card_cons]
          simp only [wp_ite, wp_bind, wp_gets, wp_pure]
          refine ⟨fun hdue => ?_, fun hlate => ⟨[], Woken.stop fun n hn => ?_⟩⟩
          · cases hup : upgrade e node.task with
            | none =>
                simp only [wp_bind, wp_modify]
                refine wp_mono (ih (PriorityQueue.pop h) e) ?_ (fun _ _ hf => hf) ?_
                · rintro _ s ⟨popped, hrest⟩
                  exact ⟨_, hrest.turn hpeek hdue (fun _ => rfl) (by simp [hup])⟩
                · intro _ hfuel
                  omega
            | some task =>
                simp only [wp_bind, wp_modify]
                refine wp_mono (ih (PriorityQueue.pop h) (cb task e)) ?_ (fun _ _ hf => hf) ?_
                · rintro _ s ⟨popped, hrest⟩
                  exact ⟨_, hrest.turn hpeek hdue (hcb task e) (by simp [hup])⟩
                · intro _ hfuel
                  omega
          · have := sleepUntil_le hpeek hn
            omega

/-- The heap holds the nodes it should. -/
theorem Run.nodes_eq {h : H} {s : Multiset (SleepNode ω)} (hr : Run E τ h s) : nodes h = s := by
  induction hr with
  | new => exact LawfulPriorityQueue.items_new
  | push _ wakeUpAt task ih =>
      rw [← ih]
      exact LawfulPriorityQueue.items_push _ _
  | wakeUp _ hcb hrun ih =>
      obtain ⟨popped, hwoken⟩ := wp_of_ok (wp_withTasksToWakeUp _ hcb _ _ _) hrun
      rw [hwoken.kept, ih]

/-- **Waking up is exact.** After any calls, with `s` the nodes in the heap, a call returns; it
takes the nodes whose time has come, in the order of their times, calls back once for each of
them whose task is left, in that order, and keeps all other nodes. -/
theorem wakeUp_exact {h : H} {s : Multiset (SleepNode ω)} (hr : Run E τ h s)
    (hcb : KeepsTasks upgrade cb) (currentTime : ℕ) (e : E) (fuel : ℕ) (hfuel : s.card < fuel) :
    ∃ (h' : H) (e' : E) (popped : List (SleepNode ω)),
      withTasksToWakeUp upgrade cb currentTime fuel (h, e) = .ok () (h', e') ∧
      Run E τ h' (s.filter fun n => currentTime < n.sleepUntil) ∧
      (popped : Multiset (SleepNode ω)) = s.filter (fun n => n.sleepUntil ≤ currentTime) ∧
      popped.Pairwise (fun a b => a.sleepUntil ≤ b.sleepUntil) ∧
      e' = (popped.filterMap fun n => upgrade e n.task).foldl (fun e t => cb t e) e := by
  have hwp := wp_withTasksToWakeUp currentTime hcb fuel h e
  rw [hr.nodes_eq] at hwp
  obtain ⟨_, ⟨h', e'⟩, hrun, popped, hwoken⟩ :=
    exists_ok_of_wp (wp_mono hwp (fun _ _ hq => hq) (fun _ _ hf => hf) fun _ hle => by omega)
  exact ⟨h', e', popped, hrun, .wakeUp hr hcb hrun, hwoken.due, hwoken.sorted, hwoken.called⟩

/-- A heap that is a list. -/
abbrev NodeList : Type := ListQueue fun n : SleepNode ℕ => n.sleepUntil

instance : LawfulPriorityQueue NodeList (SleepNode.reverseCmp : SleepNode ℕ → SleepNode ℕ → Ordering) :=
  inferInstanceAs (LawfulPriorityQueue NodeList fun a b => compare b.sleepUntil a.sleepUntil)

/-- Two tasks sleep until 3 and 5, and at 4 one of them wakes up. -/
theorem wakeUp_exact_two : ∃ (h h' : NodeList) (woken : List ℕ),
    Run (List ℕ) ℕ h (⟨5, 1⟩ ::ₘ ⟨3, 2⟩ ::ₘ 0) ∧
    withTasksToWakeUp (fun _ w => some w) (fun t e => e ++ [t]) 4 3 (h, []) = .ok () (h', woken) ∧
    Run (List ℕ) ℕ h' ((⟨5, 1⟩ ::ₘ ⟨3, 2⟩ ::ₘ 0 : Multiset (SleepNode ℕ)).filter
      fun n => 4 < n.sleepUntil) := by
  have hr : Run (List ℕ) ℕ (push (push (PriorityQueue.new : NodeList) 3 2) 5 1)
      (⟨5, 1⟩ ::ₘ ⟨3, 2⟩ ::ₘ 0) := .push (.push .new 3 2) 5 1
  have hcb : KeepsTasks (fun (_ : List ℕ) (w : ℕ) => some w) fun t e => e ++ [t] := fun _ _ _ => rfl
  obtain ⟨h', woken, popped, hrun, hrest, -⟩ := wakeUp_exact hr hcb 4 [] 3 (by decide)
  exact ⟨_, h', woken, hr, hrun, hrest⟩

end SleepingTasks

/-! ## The timer interrupt -/

/-- What the callback of `on_timer_interrupt` changes. -/
structure TimerState (τ : Type) where
  runqueue : List τ
  state : τ → TaskState
  someTaskWokeUp : Bool

/-- The callback of `on_timer_interrupt`. -/
def wakeTask {τ : Type} [DecidableEq τ] (task : τ) (e : TimerState τ) : TimerState τ where
  runqueue := e.runqueue ++ [task]
  state := Function.update e.state task .ready
  someTaskWokeUp := true

theorem foldl_wakeTask {τ : Type} [DecidableEq τ] (tasks : List τ) (e : TimerState τ) :
    tasks.foldl (fun e t => wakeTask t e) e =
      ⟨e.runqueue ++ tasks, fun t => if t ∈ tasks then .ready else e.state t,
        e.someTaskWokeUp || !tasks.isEmpty⟩ := by
  induction tasks generalizing e with
  | nil => simp
  | cons t tasks ih =>
      rw [List.foldl_cons, ih]
      simp only [wakeTask, List.append_assoc, List.singleton_append, Bool.true_or,
        List.isEmpty_cons, Bool.not_false, Bool.or_true, TimerState.mk.injEq, true_and, and_true]
      funext u
      by_cases hu : u ∈ tasks
      · simp [hu]
      · by_cases htu : u = t <;> simp [hu, htu]

/-- A node of the heap as the scheduler's model has it. -/
def toNode (x : ℕ × Pid) : SleepNode Pid := ⟨x.1, x.2⟩

/-- Nodes ordered by their times. -/
def byTime (l : List (ℕ × Pid)) : List (ℕ × Pid) := l.mergeSort fun x y => x.1 ≤ y.1

theorem byTime_perm (l : List (ℕ × Pid)) : (byTime l).Perm l := List.mergeSort_perm l _

theorem byTime_pairwise (l : List (ℕ × Pid)) : (byTime l).Pairwise fun x y => x.1 ≤ y.1 := by
  have hsorted : (byTime l).Pairwise fun x y => decide (x.1 ≤ y.1) = true := by
    apply List.pairwise_mergeSort
    · simp only [decide_eq_true_eq]
      omega
    · simp only [Bool.or_eq_true, decide_eq_true_eq]
      omega
  simpa using hsorted

/-- The nodes whose time has come, in front of the others, are an order of the heap. -/
theorem heapOrder_append {heap popped : List (ℕ × Pid)} {now : ℕ}
    (hpopped : popped.Perm (heap.filter fun x => x.1 ≤ now))
    (hsorted : popped.Pairwise fun x y => x.1 ≤ y.1) :
    ∃ late, late.Perm (heap.filter fun x => now < x.1) ∧
      HeapOrder heap (popped ++ late) ∧
      (popped ++ late).takeWhile (fun x => x.1 ≤ now) = popped ∧
      (popped ++ late).dropWhile (fun x => x.1 ≤ now) = late := by
  have hdue : ∀ x ∈ popped, x.1 ≤ now := by
    intro x hx
    simpa using (List.mem_filter.mp (hpopped.subset hx)).2
  have hperm := byTime_perm (heap.filter fun x => now < x.1)
  have hlate : ∀ x ∈ byTime (heap.filter fun x => now < x.1), ¬ x.1 ≤ now := by
    intro x hx
    simpa using (List.mem_filter.mp (hperm.subset hx)).2
  have hsortedLate := byTime_pairwise (heap.filter fun x => now < x.1)
  generalize byTime (heap.filter fun x => now < x.1) = late at hperm hlate hsortedLate
  refine ⟨late, hperm, ⟨?_, ?_⟩, ?_, ?_⟩
  · have hsplit := List.filter_append_perm (fun x : ℕ × Pid => decide (x.1 ≤ now)) heap
    simp only [← decide_not, not_le] at hsplit
    exact (hpopped.append hperm).trans hsplit
  · rw [List.pairwise_append]
    refine ⟨hsorted, hsortedLate, fun x hx y hy => ?_⟩
    have := hdue x hx
    have := hlate y hy
    omega
  · rw [List.takeWhile_append_of_pos (by simpa using hdue)]
    cases late with
    | nil => simp
    | cons y late => simp [hlate y List.mem_cons_self]
  · rw [List.dropWhile_append_of_pos (by simpa using hdue)]
    cases late with
    | nil => simp
    | cons y late => simp [hlate y List.mem_cons_self]

/-- The tasks the loop calls back for are those that `toWakeUp` lists. -/
theorem filterMap_upgrade (σ : System) (nodes : List (SleepNode Pid)) :
    nodes.filterMap (fun n => if σ.upgrade n.task then some n.task else none)
      = (nodes.map SleepNode.task).filter σ.upgrade := by
  induction nodes with
  | nil => rfl
  | cons n nodes ih =>
      rw [List.filterMap_cons, List.map_cons, List.filter_cons, ih]
      by_cases hup : σ.upgrade n.task = true <;> simp [hup]

open SleepingTasks in
/-- The loop with its callback does to a core what `timerLocked` does, for an order that the heap
may yield. -/
theorem timerLocked_of_woken {σ : System} {h ctx : ℕ} {r : Resume}
    {s' : Multiset (SleepNode Pid)} {e' : TimerState Pid} {popped : List (SleepNode Pid)}
    (hwoken : Woken (fun _ t => if σ.upgrade t then some t else none) wakeTask σ.time
      ((σ.core ctx).sleepingTasks.map toNode) s'
      ⟨(σ.core ctx).runqueue, fun t => (σ.task t).state, false⟩ e' popped) :
    ∃ order, HeapOrder (σ.core ctx).sleepingTasks order ∧
      e'.runqueue = ((timerLocked h ctx order r σ).core ctx).runqueue ∧
      (∀ t, e'.state t = ((timerLocked h ctx order r σ).task t).state) ∧
      s' = ((timerLocked h ctx order r σ).core ctx).sleepingTasks.map toNode := by
  let pairs := popped.map fun n => (n.sleepUntil, n.task)
  have hnodes : pairs.map toNode = popped := by simp [pairs, toNode, Function.comp_def]
  have htasks : pairs.map Prod.snd = popped.map SleepNode.task := by
    simp [pairs, Function.comp_def]
  have hpairs : pairs.Perm ((σ.core ctx).sleepingTasks.filter fun x => x.1 ≤ σ.time) := by
    have hdue := hwoken.due
    rw [Multiset.filter_coe, Multiset.coe_eq_coe, List.filter_map] at hdue
    have hback := hdue.map fun n => (n.sleepUntil, n.task)
    rw [List.map_map] at hback
    simp only [Function.comp_def, toNode, List.map_id'] at hback
    exact hback
  have hsorted : pairs.Pairwise fun x y => x.1 ≤ y.1 := by
    rw [List.pairwise_map]
    exact hwoken.sorted
  obtain ⟨late, hlate, horder, htake, hdrop⟩ := heapOrder_append hpairs hsorted
  have hwake : σ.toWakeUp (pairs ++ late)
      = popped.filterMap fun n => if σ.upgrade n.task then some n.task else none := by
    rw [System.toWakeUp, htake, htasks, filterMap_upgrade]
  have hcalled := hwoken.called
  rw [← hwake, foldl_wakeTask] at hcalled
  refine ⟨pairs ++ late, horder, ?_, ?_, ?_⟩
  · simp [hcalled, timerLocked, System.setCore, System.setPc]
  · intro t
    simp only [hcalled, timerLocked, System.setCore, System.setPc]
    split <;> rfl
  · rw [hwoken.kept]
    simp only [timerLocked, System.setCore, System.setPc, Function.update_self, hdrop]
    rw [Multiset.filter_coe, Multiset.coe_eq_coe, List.filter_map]
    exact (hlate.map toNode).symm

end Efiks.Sched

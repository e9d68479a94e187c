import Efiks.Mm.Exec

/-!
# Runs of the machine

A run starts from a machine that has no process and takes enabled steps, each of
which meets a condition `ok`. Along a run the private memories of the machine
without sharing are carried with it. `Reach.inv` packages the induction over the
steps; `runOps` computes a run from a list of operations, with a closed form for
the kernel mappings of a new space.

## Main definitions

* `Booted`, `Reach` — runs.
* `StackOk` — kernel stacks get consecutive frames.
* `runOps` — a run, computed.

## Main results

* `Reach.inv` — the invariant holds in every state reached.
* `Reach.of_runOps` — a computed run is a run.
-/
namespace Efiks.Mm
open Lib Lib.RustM PageTableEntry

/-- No process yet, and no frame is counted. -/
structure Booted (σ : Machine) : Prop where
  placed : σ.sys.Placed
  live_eq : σ.live = ∅
  meta_eq : ∀ a, σ.sys.pageMeta a = none

/-- The states reached from `σ₀` by steps that meet `ok`, with the private memories. -/
inductive Reach (ok : Machine → Op → Prop) (σ₀ : Machine) : Machine → Ref → Prop
  | start : Booted σ₀ → Reach ok σ₀ σ₀ fun _ _ => 0
  | step {σ σ' : Machine} {ref : Ref} {op : Op} {ev : Event} : Reach ok σ₀ σ ref →
      σ.Enabled op → ok σ op → σ.step op = some (ev, σ') → Reach ok σ₀ σ' (refStep op ev ref)

/-- A kernel stack that is created gets consecutive frames. -/
def StackOk (σ : Machine) : Op → Prop
  | .createKernelStack _ => Consecutive σ.sys
  | .fork p _ => ∀ pa t,
      PageTable.fork tableFuel (σ.proc p).mm.rootPt σ.sys = .ok pa t → Consecutive t
  | _ => True

/-- The flags of a page make it readable or executable. -/
def PageOk : Op → Prop
  | .mapAllocatePage _ _ flags => flags &&& PteFlags.RX ≠ 0#8
  | _ => True

section Invariant
variable {perm : Perm} {track : Bool} {boot : ℕ → Prop} {σ₀ σ σ' : Machine} {ref : Ref} {op : Op}
variable {ok : Machine → Op → Prop} {ev : Event}

theorem Booted.inv (h : Booted σ₀) : Inv perm track σ₀.sys.used σ₀ := by
  have hlive : ∀ p, p ∉ σ₀.live := fun p hp => by
    rw [h.live_eq] at hp
    exact absurd hp (Finset.notMem_empty p)
  have hmap : ∀ p v, (σ₀.abs track).map p v = none := fun p v => abs_map_dead (hlive p) v
  have hpriv : ∀ p x, (σ₀.abs track).priv p x = none := fun p x => abs_priv_dead (hlive p) x
  have hmaps : ∀ p f, ¬ (σ₀.abs track).Maps p f := by
    rintro p f ⟨v, x, hx⟩
    rw [hmap] at hx
    cases hx
  refine ⟨h.placed, fun p hp => absurd hp (hlive p), fun f => ?_, ?_⟩
  · rw [h.meta_eq]
    exact fun h => nomatch h
  refine
    { map_live := fun {p v f x} hm => absurd ⟨v, x, hm⟩ (hmaps p f)
      priv_live := fun {p x f} hp => ?_
      priv_inj := fun {p x f q y} hp => ?_
      priv_map := fun {p x f q} hp => ?_
      map_inj := fun {p v w f x y} hm => absurd ⟨v, x, hm⟩ (hmaps p f)
      excl := fun {p v f q} hm => absurd ⟨v, true, hm⟩ (hmaps p f)
      solo_excl := fun {p f q} _ hm => absurd hm (hmaps p f)
      refs_eq := fun f => ?_
      used_iff := fun f => ?_
      boot_priv := fun {f p x} _ hp => ?_
      boot_map := fun {f p} _ hm => hmaps p f hm }
  · rw [hpriv] at hp
    cases hp
  · rw [hpriv] at hp
    cases hp
  · rw [hpriv] at hp
    cases hp
  · have hnone : (σ₀.abs track).mappers f = ∅ :=
      Finset.eq_empty_of_forall_notMem fun p hp => hmaps p f (Frames.mem_mappers.mp hp).2
    rw [hnone, Finset.card_empty]
    exact refs_of_none (h.meta_eq _)
  · refine ⟨Or.inl, fun hu => ?_⟩
    rcases hu with hu | ⟨p, x, hp⟩ | ⟨p, hm⟩
    · exact hu
    · rw [hpriv] at hp
      cases hp
    · exact absurd hm (hmaps p f)
  · rw [hpriv] at hp
    cases hp

theorem Booted.rep (h : Booted σ₀) : Rep track σ₀ fun _ _ => 0 := by
  refine ⟨fun {p v f x} hm => ?_, fun _ _ => rfl⟩
  have hp := (abs_map_eq_some.mp hm).1
  rw [h.live_eq] at hp
  exact absurd hp (Finset.notMem_empty p)

/-- What holds of every result of the computation of a step holds after the step. -/
theorem Machine.of_step {P : Event → Machine → Prop} {N : Panic → Prop}
    (hexec : wp (Machine.exec op) P (fun _ τ => P .done τ) N σ)
    (hstep : σ.step op = some (ev, σ')) : P ev σ' := by
  unfold Machine.step at hstep
  cases hrun : Machine.exec op σ with
  | ok ev' τ =>
      rw [hrun] at hstep
      obtain ⟨rfl, rfl⟩ := Prod.mk.inj (Option.some.inj hstep)
      exact wp_of_ok hexec hrun
  | err e τ =>
      rw [hrun] at hstep
      obtain ⟨rfl, rfl⟩ := Prod.mk.inj (Option.some.inj hstep)
      have hE := wp_of_err hexec hrun
      exact hE
  | panic q =>
      rw [hrun] at hstep
      cases hstep

/-- What a step returns is a step of sharing. -/
theorem Inv.step (h : Inv perm track boot σ) (hen : σ.Enabled op) (hok : OpOk perm track σ op)
    (hstep : σ.step op = some (ev, σ')) : Steps perm track boot σ σ' (refStep op ev) :=
  Machine.of_step (exec_ok h hen hok) hstep

/-- **The invariant holds along every run**, and every process sees its private memory. -/
theorem Reach.inv (perm : Perm) (track : Bool)
    (hok : ∀ {σ op}, σ.Enabled op → ok σ op → OpOk perm track σ op) (h : Reach ok σ₀ σ ref) :
    ∃ boot : ℕ → Prop, (track = true → boot = σ₀.sys.used) ∧ (∀ f, σ₀.sys.used f → boot f) ∧
      Inv perm track boot σ ∧ Rep track σ ref := by
  induction h with
  | start hb => exact ⟨σ₀.sys.used, fun _ => rfl, fun _ => id, hb.inv, hb.rep⟩
  | step _ hen hstepOk hstep ih =>
      obtain ⟨boot, hboot, hmono, hinv, hrep⟩ := ih
      obtain ⟨boot', hboot', hmono', hs⟩ := hinv.step hen (hok hen hstepOk) hstep
      exact ⟨boot', fun ht => (hboot' ht).trans (hboot ht), fun f hf => hmono' f (hmono f hf),
        hs.inv, hs.rep _ hrep⟩

/-- The conditions of a run with tracked kernel stacks. -/
theorem opOk_of_stackOk (hen : σ.Enabled op) (hs : StackOk σ op) (hp : PageOk op) :
    OpOk ⟨False, False⟩ true σ op := by
  cases op with
  | mapAllocatePage p va flags => exact ⟨hp, False.elim⟩
  | remapPage p va flags => exact ⟨False.elim, False.elim⟩
  | createKernelStack p => exact fun _ => hs
  | fork p q => exact fun _ => hs
  | copyOnWrite p va => exact fun h => (h.elim id id).elim
  | free p => rfl
  | _ => trivial

end Invariant

section Compute

instance (σ : Machine) (p va : ℕ) : Decidable (σ.Mapped p va) :=
  inferInstanceAs (Decidable (_ = true))

instance (σ : Machine) : (op : Op) → Decidable (σ.Enabled op)
  | .new p => inferInstanceAs (Decidable (p ∉ σ.live))
  | .mapAllocatePage p va flags => inferInstanceAs (Decidable (p ∈ σ.live ∧ va % 4096 = 0 ∧
      va < 2 ^ 38 ∧ ¬ σ.Mapped p va ∧ flags.contains PteFlags.U = true ∧
      flags &&& PteFlags.RWX ≠ 0#8))
  | .remapPage p va _ => inferInstanceAs (Decidable (p ∈ σ.live ∧ (σ.proc p).loading = true ∧
      va < 2 ^ 38 ∧ σ.Mapped p va))
  | .copyIn p va _ => inferInstanceAs (Decidable (p ∈ σ.live ∧ (σ.proc p).loading = true ∧
      va < 2 ^ 38 ∧ σ.Mapped p va))
  | .setInitialBrk p _ => inferInstanceAs (Decidable (p ∈ σ.live ∧ (σ.proc p).loading = true))
  | .createKernelStack p => inferInstanceAs (Decidable (p ∈ σ.live ∧
      (σ.proc p).mm.kernelStack = .empty))
  | .fork p q => inferInstanceAs (Decidable (p ∈ σ.live ∧ q ∉ σ.live))
  | .load p va => inferInstanceAs (Decidable (p ∈ σ.live ∧ (σ.proc p).killed = false ∧ va < 2 ^ 64))
  | .store p va _ =>
      inferInstanceAs (Decidable (p ∈ σ.live ∧ (σ.proc p).killed = false ∧ va < 2 ^ 64))
  | .brk p newBrk => inferInstanceAs (Decidable (p ∈ σ.live ∧ newBrk ≤ 2 ^ 38))
  | .handlePageFault p va _ => inferInstanceAs (Decidable (p ∈ σ.live ∧ va < 2 ^ 64))
  | .copyOnWrite p va => inferInstanceAs (Decidable (p ∈ σ.live ∧ va < 2 ^ 38 ∧ σ.Mapped p va))
  | .free p => inferInstanceAs (Decidable (p ∈ σ.live ∧ (σ.proc p).mm.kernelStack ≠ .empty))

/-- Whether a result, if there is one, satisfies a decidable condition. -/
def decidableOfOk {σ ε α : Type} {P : α → σ → Prop} [∀ a s, Decidable (P a s)] (o : Outcome σ ε α) :
    Decidable (∀ a s, o = .ok a s → P a s) :=
  match o with
  | .ok a s => decidable_of_iff (P a s)
      ⟨fun h _ _ heq => by cases heq; exact h, fun h => h a s rfl⟩
  | .err _ _ => isTrue fun _ _ h => nomatch h
  | .panic _ => isTrue fun _ _ h => nomatch h

instance (σ : Machine) : (op : Op) → Decidable (StackOk σ op)
  | .createKernelStack _ => inferInstanceAs (Decidable (Consecutive σ.sys))
  | .fork p _ => decidableOfOk (PageTable.fork tableFuel (σ.proc p).mm.rootPt σ.sys)
  | .new .. | .mapAllocatePage .. | .remapPage .. | .copyIn .. | .setInitialBrk .. | .load ..
  | .store .. | .brk .. | .handlePageFault .. | .copyOnWrite .. | .free .. => isTrue trivial

/-- The machine with a new address space whose root is frame `n`. -/
def Machine.newSpace (σ : Machine) (p n : ℕ) (t : MemState) : Machine :=
  ({ σ with sys := t.setFrame n kernelEntry } : Machine).addProcess p ⟨newManager n, true, false⟩

/-- One step, with the kernel mappings of a new space in closed form. -/
def Machine.stepFast (op : Op) (σ : Machine) : Option (Event × Machine) :=
  match op with
  | .new p =>
      match allocFrame σ.sys with
      | .ok pa t => if pa % 4096 = 0 then some (.done, σ.newSpace p (pa / 4096) t) else none
      | _ => none
  | op => σ.step op

/-- `kvm_full_map` on a zeroed root table. -/
theorem kvmFullMap_run (n : ℕ) (s : MemState) :
    kvmFullMap (4096 * n) (s.setFrame n fun _ => 0) = .ok () (s.setFrame n kernelEntry) := by
  have hwp : wp (kvmFullMap (4096 * n)) (fun _ u => u = s.setFrame n kernelEntry)
      (fun _ _ => False) (fun _ => False) (s.setFrame n fun _ => 0) := wp_kvmFullMap rfl
  cases hrun : kvmFullMap (4096 * n) (s.setFrame n fun _ => 0) with
  | ok a u => rw [wp_of_ok hwp hrun]
  | err e u => exact (wp_of_err hwp hrun).elim
  | panic q => exact (wp_of_panic hwp hrun).elim

theorem exec_new_eq {σ : Machine} {p n : ℕ} {t : MemState}
    (h : allocFrame σ.sys = .ok (4096 * n) t) :
    Machine.exec (.new p) σ = .ok .done (σ.newSpace p n t) := by
  have halloc : allocFrameUnwrap σ.sys = .ok (4096 * n) t := by
    rw [allocFrameUnwrap, expectOk, h]
  have hnew : MemoryManager.new σ.sys = .ok (newManager n) (t.setFrame n kernelEntry) := by
    rw [MemoryManager.new, bind_run_of_ok halloc, zeroFrame, mul_pageSize_div,
      bind_run_of_ok (modify_run _), bind_run_of_ok (kvmFullMap_run n t)]
    rfl
  have hsys : Machine.onSys MemoryManager.new σ =
      .ok (newManager n) { σ with sys := t.setFrame n kernelEntry } := by
    rw [Machine.onSys, zoom, hnew]
  rw [Machine.exec, bind_run_of_ok hsys]
  rfl

theorem Machine.step_of_stepFast {σ : Machine} {op : Op} {r : Event × Machine}
    (h : σ.stepFast op = some r) : σ.step op = some r := by
  cases op with
  | new p =>
      simp only [Machine.stepFast] at h
      split at h
      · rename_i pa t halloc
        split at h
        · rename_i hal
          obtain ⟨n, rfl⟩ : ∃ n, pa = 4096 * n := ⟨pa / 4096, by omega⟩
          rw [Machine.step, exec_new_eq halloc]
          rwa [Nat.mul_div_cancel_left n (by norm_num)] at h
        · cases h
      · cases h
  | _ => exact h

/-- The run of a list of operations, as far as every step is enabled and meets `ok`. -/
def runOps (ok : Machine → Op → Prop) [∀ σ op, Decidable (ok σ op)] :
    List Op → Machine × Ref → Option (Machine × Ref)
  | [], s => some s
  | op :: ops, (σ, ref) =>
      if σ.Enabled op ∧ ok σ op then
        match σ.stepFast op with
        | some (ev, σ') => runOps ok ops (σ', refStep op ev ref)
        | none => none
      else none

/-- A computed run is a run. -/
theorem Reach.of_runOps {ok : Machine → Op → Prop} [∀ σ op, Decidable (ok σ op)] {σ₀ : Machine}
    (ops : List Op) {σ : Machine} {ref : Ref} (h : Reach ok σ₀ σ ref) {s : Machine × Ref}
    (hrun : runOps ok ops (σ, ref) = some s) : Reach ok σ₀ s.1 s.2 := by
  induction ops generalizing σ ref with
  | nil =>
      obtain rfl := Option.some.inj hrun
      exact h
  | cons op ops ih =>
      rw [runOps] at hrun
      split at hrun
      · rename_i hen
        cases hstep : σ.stepFast op with
        | none =>
            rw [hstep] at hrun
            cases hrun
        | some r =>
            rw [hstep] at hrun
            exact ih (h.step hen.1 hen.2 (Machine.step_of_stepFast hstep)) hrun
      · cases hrun

end Compute
end Efiks.Mm

import Efiks.Lib.Checked

/-!
# Computations that never panic

`Returns P R m`: started in a state with `P`, the computation `m` returns or fails, the
state it leaves has `P` again, and a returned value meets `R`. There is one rule for
each way of building a computation, so that a proof follows the code.

## Main definitions

* `Returns`.
-/
namespace Efiks.Lib.RustM

variable {σ ε α β : Type}

/-- `m` keeps `P`, never panics, and what it returns meets `R`. -/
def Returns (P : σ → Prop) (R : α → Prop) (m : RustM σ ε α) : Prop :=
  ∀ s, P s → wp m (fun a s' => P s' ∧ R a) (fun _ s' => P s') (fun _ => False) s

namespace Returns
variable {P : σ → Prop} {R : α → Prop} {m : RustM σ ε α}

theorem ne_panic (h : Returns P R m) {s : σ} (hs : P s) (p : Panic) : m s ≠ .panic p := fun hp =>
  wp_of_panic (h s hs) hp

theorem mono {R' : α → Prop} (h : Returns P R m) (hR : ∀ a, R a → R' a) : Returns P R' m :=
  fun s hs => wp_consequence (h s hs) fun a _ hP => ⟨hP.1, hR a hP.2⟩

theorem pure {a : α} (h : R a) : Returns P R (Pure.pure a : RustM σ ε α) := fun s hs => by
  rw [wp_pure]
  exact ⟨hs, h⟩

theorem fail (e : ε) : Returns P R (RustM.fail e : RustM σ ε α) := fun s hs => by
  rwa [wp_fail]

theorem bind {R' : β → Prop} {f : α → RustM σ ε β} (hm : Returns P R m)
    (hf : ∀ a, R a → Returns P R' (f a)) : Returns P R' (m >>= f) := fun s hs => by
  rw [wp_bind]
  exact wp_consequence (hm s hs) fun a s' h => hf a h.2 s' h.1

theorem map {R' : β → Prop} {f : α → β} (hm : Returns P R m) (hf : ∀ a, R a → R' (f a)) :
    Returns P R' (f <$> m) := fun s hs => by
  rw [wp_map]
  exact wp_consequence (hm s hs) fun a s' h => ⟨h.1, hf a h.2⟩

theorem gets {f : σ → α} (h : ∀ s, P s → R (f s)) :
    Returns P R (RustM.gets f : RustM σ ε α) := fun s hs => by
  rw [wp_gets]
  exact ⟨hs, h s hs⟩

theorem gets_any (f : σ → α) : Returns P (fun _ => True) (RustM.gets f : RustM σ ε α) :=
  Returns.gets fun _ _ => trivial

theorem modify {f : σ → σ} (h : ∀ s, P s → P (f s)) :
    Returns P (fun _ => True) (RustM.modify f : RustM σ ε Unit) := fun s hs => by
  rw [wp_modify]
  exact ⟨h s hs, trivial⟩

theorem ite {c : Prop} [Decidable c] {m' : RustM σ ε α} (h : c → Returns P R m)
    (h' : ¬ c → Returns P R m') : Returns P R (if c then m else m') := by
  split
  · exact h ‹_›
  · exact h' ‹_›

theorem okOr {o : Option α} {e : ε} (h : ∀ a, o = some a → R a) :
    Returns P R (RustM.okOr o e : RustM σ ε α) := by
  cases o with
  | some a => exact Returns.pure (h a rfl)
  | none => exact Returns.fail e

theorem mulUsize {a b : ℕ} (h : a * b < 2 ^ 64) :
    Returns P (· = a * b) (RustM.mulUsize a b : RustM σ ε ℕ) := fun s hs => by
  rw [wp_mulUsize]
  exact ⟨fun _ => ⟨hs, rfl⟩, fun hge => absurd h (Nat.not_lt.mpr hge)⟩

theorem addUsize {a b : ℕ} (h : a + b < 2 ^ 64) :
    Returns P (· = a + b) (RustM.addUsize a b : RustM σ ε ℕ) := fun s hs => by
  rw [wp_addUsize]
  exact ⟨fun _ => ⟨hs, rfl⟩, fun hge => absurd h (Nat.not_lt.mpr hge)⟩

theorem subUsize {a b : ℕ} (h : b ≤ a) :
    Returns P (· = a - b) (RustM.subUsize a b : RustM σ ε ℕ) := fun s hs => by
  rw [wp_subUsize]
  exact ⟨fun _ => ⟨hs, rfl⟩, fun hlt => absurd h (Nat.not_le.mpr hlt)⟩

theorem addU32 {a b : UInt32} (h : a.toNat + b.toNat < 2 ^ 32) :
    Returns P (· = a + b) (RustM.addU32 a b : RustM σ ε UInt32) := fun s hs => by
  rw [wp_addU32]
  exact ⟨fun _ => ⟨hs, rfl⟩, fun hge => absurd h (Nat.not_lt.mpr hge)⟩

theorem subU32 {a b : UInt32} (h : b.toNat ≤ a.toNat) :
    Returns P (· = a - b) (RustM.subU32 a b : RustM σ ε UInt32) := fun s hs => by
  rw [wp_subU32]
  exact ⟨fun _ => ⟨hs, rfl⟩, fun hlt => absurd h (Nat.not_le.mpr hlt)⟩

theorem inBounds {stop len : ℕ} (h : stop ≤ len) :
    Returns P (fun _ => True) (RustM.inBounds stop len : RustM σ ε Unit) := fun s hs => by
  rw [wp_inBounds]
  exact ⟨fun _ => ⟨hs, trivial⟩, fun hlt => absurd h (Nat.not_le.mpr hlt)⟩

theorem attempt (h : Returns P R m) :
    Returns P (fun r => ∀ a, r = .ok a → R a) (RustM.attempt m) := fun s hs => by
  rw [wp_attempt]
  refine wp_mono (h s hs) (fun a s' ha => ⟨ha.1, ?_⟩) (fun e s' he => ⟨he, ?_⟩) fun _ hp => hp
  · rintro _ ⟨⟩
    exact ha.2
  · rintro _ ⟨⟩

theorem ignoreErr (h : Returns P R m) : Returns P (fun _ => True) (RustM.ignoreErr m) :=
  fun s hs => by
    rw [wp_ignoreErr]
    exact wp_mono (h s hs) (fun _ _ ha => ⟨ha.1, trivial⟩) (fun _ _ he => ⟨he, trivial⟩)
      fun _ hp => hp

theorem catchErr {f : ε → RustM σ ε α} (h : Returns P R m) (hf : ∀ e, Returns P R (f e)) :
    Returns P R (RustM.catchErr m f) := fun s hs => by
  rw [wp_catchErr]
  exact wp_mono (h s hs) (fun _ _ ha => ha) (fun e s' he => hf e s' he) fun _ hp => hp

theorem zoom {τ : Type} {get : τ → σ} {set : σ → τ → τ} (h : Returns P R m)
    (hset : ∀ s t, get (set s t) = s) : Returns (fun t => P (get t)) R (RustM.zoom get set m) :=
  fun t ht => by
    rw [wp_zoom]
    refine wp_mono (h (get t) ht) (fun _ s' ha => ?_) (fun _ s' he => ?_) fun _ hp => hp
    · beta_reduce
      rwa [hset]
    · beta_reduce
      rwa [hset]

theorem foldM {body : β → α → RustM σ ε β} {R : β → Prop}
    (h : ∀ b x, R b → Returns P R (body b x)) :
    ∀ (xs : List α) (b : β), R b → Returns P R (RustM.foldM body xs b) := by
  intro xs
  induction xs with
  | nil => exact fun b hb => Returns.pure hb
  | cons x xs ih => exact fun b hb => (h b x hb).bind fun b' hb' => ih b' hb'

end Returns

end Efiks.Lib.RustM

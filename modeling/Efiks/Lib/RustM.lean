import Mathlib

/-!
# Computations that return, fail or panic

Rust code that mutates a state `σ` either returns a value, returns an error `ε`
(what `?` propagates), or panics. An error keeps every state change made before
it; a panic ends the run, so no state is left to talk about. `RustM σ ε α` is
that shape, and `wp` is its weakest precondition with one postcondition per way
of ending.

Loops of the source that have no evident bound carry fuel; running out of it is
the panic `diverges`, so a proof that a computation does not panic also says that
the loop ends.

## Main definitions

* `Outcome`, `RustM` — results and computations.
* `wp m Q E N s` — `m` run from `s` meets `Q`, `E` or `N` according to how it ends.
* `foldM` — a `for` loop over a list with an accumulator, and its invariant rule.
* `Keeps P err m` — `m` keeps `P` however it returns, and fails only if `err`.
-/
namespace Efiks.Lib

/-- Why a computation stopped without returning. -/
inductive Panic
  /-- `panic!`, `expect`, `assert!` and `debug_assert!`, with the text. -/
  | explicit (msg : String)
  /-- Checked arithmetic left the range of its type. -/
  | overflow
  /-- A loop or recursion used up its fuel. -/
  | diverges
  deriving DecidableEq, Repr, Inhabited

/-- How a computation ends. -/
inductive Outcome (σ ε α : Type)
  | ok (a : α) (s : σ)
  | err (e : ε) (s : σ)
  | panic (p : Panic)

/-- The computation returned. -/
def Outcome.isOk {σ ε α : Type} : Outcome σ ε α → Bool
  | .ok _ _ => true
  | _ => false

theorem Outcome.exists_of_isOk {σ ε α : Type} {o : Outcome σ ε α} (h : o.isOk = true) :
    ∃ a s, o = .ok a s := by
  cases o with
  | ok a s => exact ⟨a, s, rfl⟩
  | err e s => cases h
  | panic p => cases h

/-- The computation failed. -/
def Outcome.isErr {σ ε α : Type} : Outcome σ ε α → Bool
  | .err _ _ => true
  | _ => false

theorem Outcome.exists_of_isErr {σ ε α : Type} {o : Outcome σ ε α} (h : o.isErr = true) :
    ∃ e s, o = .err e s := by
  cases o with
  | ok a s => cases h
  | err e s => exact ⟨e, s, rfl⟩
  | panic p => cases h

/-- The panic that ended the computation. -/
def Outcome.toPanic {σ ε α : Type} : Outcome σ ε α → Option Panic
  | .panic p => some p
  | _ => none

theorem Outcome.toPanic_eq_some {σ ε α : Type} {o : Outcome σ ε α} {p : Panic} :
    o.toPanic = some p ↔ o = .panic p := by
  cases o <;> simp [Outcome.toPanic]

/-- The value and the state of a computation that returned. -/
def Outcome.toOk {σ ε α : Type} : Outcome σ ε α → Option (α × σ)
  | .ok a s => some (a, s)
  | _ => none

theorem Outcome.toOk_eq_some {σ ε α : Type} {o : Outcome σ ε α} {a : α} {s : σ} :
    o.toOk = some (a, s) ↔ o = .ok a s := by
  cases o <;> simp [Outcome.toOk]

/-- The error and the state of a computation that failed. -/
def Outcome.toErr {σ ε α : Type} : Outcome σ ε α → Option (ε × σ)
  | .err e s => some (e, s)
  | _ => none

theorem Outcome.toErr_eq_some {σ ε α : Type} {o : Outcome σ ε α} {e : ε} {s : σ} :
    o.toErr = some (e, s) ↔ o = .err e s := by
  cases o <;> simp [Outcome.toErr]

/-- A computation over the state `σ` with errors `ε`. -/
def RustM (σ ε α : Type) := σ → Outcome σ ε α

namespace RustM
variable {σ ε α β : Type}

/-- Return a value. -/
protected def pure (a : α) : RustM σ ε α := fun s => .ok a s

/-- Run `m`, then `f` on its value; errors and panics stop. -/
protected def bind (m : RustM σ ε α) (f : α → RustM σ ε β) : RustM σ ε β := fun s =>
  match m s with
  | .ok a s' => f a s'
  | .err e s' => .err e s'
  | .panic p => .panic p

instance : Monad (RustM σ ε) where
  pure := RustM.pure
  bind := RustM.bind

/-- Return `Err(e)`. -/
def fail (e : ε) : RustM σ ε α := fun s => .err e s

/-- Panic. -/
def panic (p : Panic) : RustM σ ε α := fun _ => .panic p

/-- Read a component of the state. -/
def gets (f : σ → α) : RustM σ ε α := fun s => .ok (f s) s

/-- Change the state. -/
def modify (f : σ → σ) : RustM σ ε Unit := fun s => .ok () (f s)

/-- `assert!(b)`: panic unless `b`. -/
def assert (b : Bool) (msg : String) : RustM σ ε Unit :=
  if b then pure () else panic (.explicit msg)

/-- `opt.ok_or(e)?`. -/
def okOr (o : Option α) (e : ε) : RustM σ ε α :=
  match o with
  | some a => pure a
  | none => fail e

/-- `opt.expect(msg)`. -/
def expect (o : Option α) (msg : String) : RustM σ ε α :=
  match o with
  | some a => pure a
  | none => panic (.explicit msg)

/-- `a + b` on a `usize`, checked. -/
def addUsize (a b : ℕ) : RustM σ ε ℕ := if a + b < 2 ^ 64 then pure (a + b) else panic .overflow

/-- `a - b` on a `usize`, checked. -/
def subUsize (a b : ℕ) : RustM σ ε ℕ := if b ≤ a then pure (a - b) else panic .overflow

/-- Run `body` once per element, threading an accumulator. -/
def foldM (body : β → α → RustM σ ε β) : List α → β → RustM σ ε β
  | [], b => pure b
  | x :: xs, b => do
      let b' ← body b x
      foldM body xs b'

/-- `m.expect(msg)` and `m.unwrap()` on a `Result`: an error panics. -/
def expectOk (m : RustM σ ε α) (msg : String) : RustM σ ε α := fun s =>
  match m s with
  | .ok a s' => .ok a s'
  | .err _ _ => .panic (.explicit msg)
  | .panic p => .panic p

/-- Run `h` on an error of `m`. -/
def catchErr (m : RustM σ ε α) (h : ε → RustM σ ε α) : RustM σ ε α := fun s =>
  match m s with
  | .ok a s' => .ok a s'
  | .err e s' => h e s'
  | .panic p => .panic p

/-- Run a computation on a component of a larger state. -/
def zoom {τ : Type} (get : τ → σ) (set : σ → τ → τ) (m : RustM σ ε α) : RustM τ ε α := fun t =>
  match m (get t) with
  | .ok a s => .ok a (set s t)
  | .err e s => .err e (set s t)
  | .panic p => .panic p

section Running
variable {s s' : σ}

@[simp] theorem pure_run (a : α) : (pure a : RustM σ ε α) s = .ok a s := rfl
@[simp] theorem gets_run (f : σ → α) : (gets f : RustM σ ε α) s = .ok (f s) s := rfl
@[simp] theorem modify_run (f : σ → σ) : (modify f : RustM σ ε Unit) s = .ok () (f s) := rfl
@[simp] theorem fail_run (e : ε) : (fail e : RustM σ ε α) s = .err e s := rfl
@[simp] theorem panic_run (p : Panic) : (panic p : RustM σ ε α) s = .panic p := rfl

theorem bind_run (m : RustM σ ε α) (f : α → RustM σ ε β) :
    (m >>= f) s = match m s with
      | .ok a s' => f a s'
      | .err e s' => .err e s'
      | .panic p => .panic p := rfl

theorem expect_some_bind (a : α) (msg : String) (f : α → RustM σ ε β) :
    (expect (some a) msg >>= f) = f a := rfl

theorem bind_run_of_ok {m : RustM σ ε α} {a : α} (h : m s = .ok a s') (f : α → RustM σ ε β) :
    (m >>= f) s = f a s' := by rw [bind_run, h]

theorem assert_run {b : Bool} (h : b = true) (msg : String) :
    (assert b msg : RustM σ ε Unit) s = .ok () s := by
  rw [h]
  rfl

theorem okOr_run {o : Option α} {a : α} (h : o = some a) (e : ε) :
    (okOr o e : RustM σ ε α) s = .ok a s := by
  rw [h]
  rfl

theorem expect_run {o : Option α} {a : α} (h : o = some a) (msg : String) :
    (expect o msg : RustM σ ε α) s = .ok a s := by
  rw [h]
  rfl

theorem foldM_append_run {body : β → α → RustM σ ε β} {l l' : List α} {b b' : β}
    (h : foldM body l b s = .ok b' s') : foldM body (l ++ l') b s = foldM body l' b' s' := by
  induction l generalizing b s with
  | nil =>
      cases h
      rfl
  | cons x l ih =>
      rw [List.cons_append, foldM]
      rw [foldM] at h
      cases hx : body b x s with
      | ok b₁ t =>
          rw [bind_run_of_ok hx] at h ⊢
          exact ih h
      | err e t =>
          rw [bind_run, hx] at h
          cases h
      | panic p =>
          rw [bind_run, hx] at h
          cases h

end Running

/-- Weakest precondition, with a postcondition for each way of ending. -/
def wp (m : RustM σ ε α) (Q : α → σ → Prop) (E : ε → σ → Prop) (N : Panic → Prop)
    (s : σ) : Prop :=
  match m s with
  | .ok a s' => Q a s'
  | .err e s' => E e s'
  | .panic p => N p

section Rules
variable {Q : α → σ → Prop} {E : ε → σ → Prop} {N : Panic → Prop} {s : σ}

@[simp] theorem wp_pure (a : α) : wp (pure a : RustM σ ε α) Q E N s ↔ Q a s :=
  ⟨fun h => h, fun h => h⟩

@[simp] theorem wp_bind (m : RustM σ ε β) (f : β → RustM σ ε α) :
    wp (m >>= f) Q E N s ↔ wp m (fun b s' => wp (f b) Q E N s') E N s := by
  change (match RustM.bind m f s with
    | .ok a s' => Q a s'
    | .err e s' => E e s'
    | .panic p => N p) ↔ _
  unfold RustM.bind wp
  cases m s <;> rfl

@[simp] theorem wp_map (f : β → α) (m : RustM σ ε β) :
    wp (f <$> m) Q E N s ↔ wp m (fun b s' => Q (f b) s') E N s := wp_bind m (fun b => pure (f b))

@[simp] theorem wp_fail (e : ε) : wp (fail e : RustM σ ε α) Q E N s ↔ E e s :=
  ⟨fun h => h, fun h => h⟩

@[simp] theorem wp_panic (p : Panic) : wp (panic p : RustM σ ε α) Q E N s ↔ N p :=
  ⟨fun h => h, fun h => h⟩

@[simp] theorem wp_gets (f : σ → α) : wp (gets f : RustM σ ε α) Q E N s ↔ Q (f s) s :=
  ⟨fun h => h, fun h => h⟩

@[simp] theorem wp_modify {Q : Unit → σ → Prop} (f : σ → σ) :
    wp (modify f : RustM σ ε Unit) Q E N s ↔ Q () (f s) :=
  ⟨fun h => h, fun h => h⟩

@[simp] theorem wp_ite (c : Prop) [Decidable c] (m₁ m₂ : RustM σ ε α) :
    wp (if c then m₁ else m₂) Q E N s ↔
      (c → wp m₁ Q E N s) ∧ (¬ c → wp m₂ Q E N s) := by
  by_cases hc : c <;> simp [hc]

@[simp] theorem wp_assert {Q : Unit → σ → Prop} (b : Bool) (msg : String) :
    wp (assert b msg : RustM σ ε Unit) Q E N s ↔
      (b = true → Q () s) ∧ (b = false → N (.explicit msg)) := by
  cases b <;> simp [assert]

@[simp] theorem wp_okOr_some (a : α) (e : ε) :
    wp (okOr (some a) e : RustM σ ε α) Q E N s ↔ Q a s := wp_pure a

@[simp] theorem wp_okOr_none (e : ε) : wp (okOr none e : RustM σ ε α) Q E N s ↔ E e s := wp_fail e

@[simp] theorem wp_expect_some (a : α) (msg : String) :
    wp (expect (some a) msg : RustM σ ε α) Q E N s ↔ Q a s := wp_pure a

@[simp] theorem wp_addUsize {Q : ℕ → σ → Prop} (a b : ℕ) :
    wp (addUsize a b : RustM σ ε ℕ) Q E N s ↔
      (a + b < 2 ^ 64 → Q (a + b) s) ∧ (2 ^ 64 ≤ a + b → N .overflow) := by
  by_cases h : a + b < 2 ^ 64
  · simp only [addUsize, h, if_true, wp_pure, true_implies]
    exact ⟨fun hq => ⟨hq, fun h' => absurd h' (by omega)⟩, fun hq => hq.1⟩
  · simp only [addUsize, h, if_false, wp_panic, false_implies, true_and]
    exact ⟨fun hn _ => hn, fun hn => hn (by omega)⟩

@[simp] theorem wp_subUsize {Q : ℕ → σ → Prop} (a b : ℕ) :
    wp (subUsize a b : RustM σ ε ℕ) Q E N s ↔
      (b ≤ a → Q (a - b) s) ∧ (a < b → N .overflow) := by
  by_cases h : b ≤ a
  · simp only [subUsize, h, if_true, wp_pure, true_implies]
    exact ⟨fun hq => ⟨hq, fun h' => absurd h' (by omega)⟩, fun hq => hq.1⟩
  · simp only [subUsize, h, if_false, wp_panic, false_implies, true_and]
    exact ⟨fun hn _ => hn, fun hn => hn (by omega)⟩

@[simp] theorem wp_expectOk (m : RustM σ ε α) (msg : String) :
    wp (expectOk m msg) Q E N s ↔ wp m Q (fun _ _ => N (.explicit msg)) N s := by
  unfold wp expectOk
  cases m s <;> rfl

@[simp] theorem wp_catchErr (m : RustM σ ε α) (h : ε → RustM σ ε α) :
    wp (catchErr m h) Q E N s ↔ wp m Q (fun e s' => wp (h e) Q E N s') N s := by
  unfold wp catchErr
  cases m s <;> rfl

@[simp] theorem wp_zoom {τ : Type} (get : τ → σ) (set : σ → τ → τ) (m : RustM σ ε α)
    {Q : α → τ → Prop} {E : ε → τ → Prop} {t : τ} :
    wp (zoom get set m) Q E N t ↔
      wp m (fun a s => Q a (set s t)) (fun e s => E e (set s t)) N (get t) := by
  unfold wp zoom
  cases m (get t) <;> rfl

theorem wp_mono {m : RustM σ ε α} {Q' : α → σ → Prop} {E' : ε → σ → Prop} {N' : Panic → Prop}
    (h : wp m Q E N s) (hQ : ∀ a s', Q a s' → Q' a s') (hE : ∀ e s', E e s' → E' e s')
    (hN : ∀ p, N p → N' p) : wp m Q' E' N' s := by
  unfold wp at h ⊢
  cases hm : m s with
  | ok a s' => rw [hm] at h; exact hQ a s' h
  | err e s' => rw [hm] at h; exact hE e s' h
  | panic p => rw [hm] at h; exact hN p h

/-- Strengthen only the postcondition of returning. -/
theorem wp_consequence {m : RustM σ ε α} {Q' : α → σ → Prop} (h : wp m Q E N s)
    (hQ : ∀ a s', Q a s' → Q' a s') : wp m Q' E N s :=
  wp_mono h hQ (fun _ _ he => he) (fun _ hp => hp)

/-- A result may be assumed to be the one the run gives. -/
theorem wp_run {m : RustM σ ε α}
    (h : (∀ a s', m s = .ok a s' → Q a s') ∧ (∀ e s', m s = .err e s' → E e s') ∧
      ∀ p, m s = .panic p → N p) : wp m Q E N s := by
  unfold wp
  cases hm : m s with
  | ok a s' => exact h.1 a s' hm
  | err e s' => exact h.2.1 e s' hm
  | panic p => exact h.2.2 p hm

theorem wp_of_eq_ok {m : RustM σ ε α} {a : α} {s' : σ} (hm : m s = .ok a s') (h : Q a s') :
    wp m Q E N s := by
  unfold wp
  rw [hm]
  exact h

theorem wp_of_ok {m : RustM σ ε α} {a : α} {s' : σ} (h : wp m Q E N s)
    (hm : m s = .ok a s') : Q a s' := by
  unfold wp at h; rw [hm] at h; exact h

theorem wp_of_err {m : RustM σ ε α} {e : ε} {s' : σ} (h : wp m Q E N s)
    (hm : m s = .err e s') : E e s' := by
  unfold wp at h; rw [hm] at h; exact h

theorem wp_of_panic {m : RustM σ ε α} {p : Panic} (h : wp m Q E N s)
    (hm : m s = .panic p) : N p := by
  unfold wp at h; rw [hm] at h; exact h

/-- **The invariant rule of `foldM`.** The invariant may depend on the elements
still to come, so a body can be told which element it works on. -/
theorem wp_foldM {body : β → α → RustM σ ε β} {E : ε → σ → Prop} {N : Panic → Prop}
    (I : List α → β → σ → Prop)
    (hbody : ∀ x xs b s, I (x :: xs) b s → wp (body b x) (I xs) E N s) :
    ∀ (xs : List α) (b : β) (s : σ), I xs b s → wp (foldM body xs b) (I []) E N s := by
  intro xs
  induction xs with
  | nil => intro b s h; simpa [foldM] using h
  | cons x xs ih =>
      intro b s h
      rw [foldM, wp_bind]
      exact wp_consequence (hbody x xs b s h) (fun b' s' h' => ih b' s' h')

/-- The invariant rule of `foldM` by position. -/
theorem wp_foldM_index {body : β → α → RustM σ ε β} {E : ε → σ → Prop} {N : Panic → Prop}
    (I : ℕ → β → σ → Prop) (l : List α)
    (hbody : ∀ k (hk : k < l.length) b s, I k b s → wp (body b l[k]) (I (k + 1)) E N s)
    (b : β) (s : σ) (h0 : I 0 b s) : wp (foldM body l b) (I l.length) E N s := by
  have hstep : ∀ x xs b s, (∃ k, k ≤ l.length ∧ x :: xs = l.drop k ∧ I k b s) →
      wp (body b x) (fun b s => ∃ k, k ≤ l.length ∧ xs = l.drop k ∧ I k b s) E N s := by
    rintro x xs b s ⟨k, hk, hcons, hI⟩
    have hlt : k < l.length := by
      by_contra hge
      rw [List.drop_eq_nil_of_le (by omega)] at hcons
      cases hcons
    rw [List.drop_eq_getElem_cons hlt] at hcons
    obtain ⟨rfl, rfl⟩ := List.cons.inj hcons
    exact wp_consequence (hbody k hlt b s hI) fun b' s' h' => ⟨k + 1, hlt, rfl, h'⟩
  refine wp_consequence
    (wp_foldM (fun xs b s => ∃ k, k ≤ l.length ∧ xs = l.drop k ∧ I k b s) hstep l b s
      ⟨0, Nat.zero_le _, rfl, h0⟩) fun b' s' hend => ?_
  obtain ⟨k, hk, hnil, hI⟩ := hend
  have : l.length ≤ k := List.drop_eq_nil_iff.mp hnil.symm
  rwa [show l.length = k by omega]

/-- A loop over `0..n` whose body is told its index. -/
theorem wp_foldM_finRange {n : ℕ} {body : β → Fin n → RustM σ ε β} {E : ε → σ → Prop}
    {N : Panic → Prop} (I : ℕ → β → σ → Prop)
    (hbody : ∀ (i : Fin n) b s, I i.val b s → wp (body b i) (I (i.val + 1)) E N s)
    (b : β) (s : σ) (h0 : I 0 b s) : wp (foldM body (List.finRange n) b) (I n) E N s := by
  have h := wp_foldM_index (E := E) (N := N) I (List.finRange n) (fun k hk b s hI => by
    rw [List.getElem_finRange]
    exact hbody _ b s hI) b s h0
  rwa [List.length_finRange] at h

theorem wp_foldM_range {n : ℕ} {body : β → ℕ → RustM σ ε β} {E : ε → σ → Prop}
    {N : Panic → Prop} (I : ℕ → β → σ → Prop)
    (hbody : ∀ i < n, ∀ b s, I i b s → wp (body b i) (I (i + 1)) E N s)
    (b : β) (s : σ) (h0 : I 0 b s) : wp (foldM body (List.range n) b) (I n) E N s := by
  have h := wp_foldM_index (E := E) (N := N) I (List.range n) (fun k hk b s hI => by
    rw [List.getElem_range]
    exact hbody k (by simpa using hk) b s hI) b s h0
  rwa [List.length_range] at h

end Rules

-- Proofs go through the rules; unfolding would run the loops of a computation.
attribute [irreducible] wp

/-- `m` keeps `P` whether it returns or fails, and it fails only if `err`. -/
def Keeps (P : σ → Prop) (err : Prop) (m : RustM σ ε α) : Prop :=
  ∀ s, P s → wp m (fun _ => P) (fun _ s' => err ∧ P s') (fun _ => True) s

section Keeps
variable {P : σ → Prop} {err : Prop} {m : RustM σ ε α}

/-- Nothing is asked of the state. -/
theorem Keeps.of_true (m : RustM σ ε α) : Keeps (fun _ => True) True m := fun _ _ =>
  wp_run ⟨fun _ _ _ => True.intro, fun _ _ _ => ⟨True.intro, True.intro⟩, fun _ _ => True.intro⟩

theorem Keeps.pure (a : α) : Keeps P err (Pure.pure a : RustM σ ε α) := fun s h => by
  rwa [wp_pure]

theorem Keeps.bind {f : α → RustM σ ε β} (hm : Keeps P err m) (hf : ∀ a, Keeps P err (f a)) :
    Keeps P err (m >>= f) := fun s h => by
  rw [wp_bind]
  exact wp_consequence (hm s h) fun a s' h' => hf a s' h'

theorem Keeps.map (f : α → β) (hm : Keeps P err m) : Keeps P err (f <$> m) := fun s h => by
  rw [wp_map]
  exact hm s h

theorem Keeps.catchErr {f : ε → RustM σ ε α} (hm : Keeps P True m) (hf : ∀ e, Keeps P err (f e)) :
    Keeps P err (RustM.catchErr m f) := fun s h => by
  rw [wp_catchErr]
  exact wp_mono (hm s h) (fun _ _ h' => h') (fun e s' h' => hf e s' h'.2) fun _ hp => hp

theorem Keeps.gets (f : σ → α) : Keeps P err (RustM.gets f : RustM σ ε α) := fun s h => by
  rwa [wp_gets]

theorem Keeps.modify {f : σ → σ} (hf : ∀ s, P s → P (f s)) :
    Keeps P err (RustM.modify f : RustM σ ε Unit) := fun s h => by
  rw [wp_modify]
  exact hf s h

theorem Keeps.panic (p : Panic) : Keeps P err (RustM.panic p : RustM σ ε α) := fun s _ => by
  rw [wp_panic]
  trivial

theorem Keeps.fail (herr : err) (e : ε) : Keeps P err (RustM.fail e : RustM σ ε α) := fun s h => by
  rw [wp_fail]
  exact ⟨herr, h⟩

theorem Keeps.ite {c : Prop} [Decidable c] {m' : RustM σ ε α} (h : Keeps P err m)
    (h' : Keeps P err m') : Keeps P err (if c then m else m') := by
  split
  · exact h
  · exact h'

theorem Keeps.assert (b : Bool) (msg : String) : Keeps P err (RustM.assert b msg : RustM σ ε Unit) :=
  Keeps.ite (Keeps.pure ()) (Keeps.panic _)

theorem Keeps.expect (o : Option α) (msg : String) :
    Keeps P err (RustM.expect o msg : RustM σ ε α) := by
  cases o with
  | some a => exact Keeps.pure a
  | none => exact Keeps.panic _

theorem Keeps.okOr (herr : err) (o : Option α) (e : ε) :
    Keeps P err (RustM.okOr o e : RustM σ ε α) := by
  cases o with
  | some a => exact Keeps.pure a
  | none => exact Keeps.fail herr e

theorem Keeps.expectOk (h : Keeps P True m) (msg : String) :
    Keeps P err (RustM.expectOk m msg) := fun s hs => by
  rw [wp_expectOk]
  exact wp_mono (h s hs) (fun _ _ h => h) (fun _ _ _ => trivial) fun _ _ => trivial

theorem Keeps.foldM {body : β → α → RustM σ ε β} (h : ∀ b x, Keeps P err (body b x)) (xs : List α)
    (b : β) : Keeps P err (RustM.foldM body xs b) := by
  induction xs generalizing b with
  | nil => exact Keeps.pure b
  | cons x xs ih => exact (h b x).bind fun b' => ih b'

theorem Keeps.zoom {τ : Type} {R : τ → Prop} {get : τ → σ} {set : σ → τ → τ} (h : Keeps P err m)
    (hget : ∀ t, R t → P (get t)) (hset : ∀ s t, P s → R t → R (set s t)) :
    Keeps R err (RustM.zoom get set m) := fun t ht => by
  rw [wp_zoom]
  exact wp_mono (h (get t) (hget t ht)) (fun _ s hs => hset s t hs ht)
    (fun _ s hs => ⟨hs.1, hset s t hs.2 ht⟩) fun _ _ => trivial

end Keeps

end RustM
end Efiks.Lib

import Mathlib

/-!
# Trees of names

A directory maps names to nodes, and a path is resolved one name after the other. `link`
adds one entry that leads to a new node without entries: paths that had a node keep it,
and a path that had none gets one exactly if it goes through the new entry.

The nodes may form any graph, so entries that lead back to a directory or to its parent
are covered.

## Main definitions

* `NameTree N A` — directories over nodes `N` and names `A`.
* `NameTree.resolve` — the node of a path.
* `NameTree.vacancy` — the directory and the name that a path leaves to be added.
* `NameTree.link` — the tree with one more entry.

## Main results

* `NameTree.vacancy_eq_ok_iff` — when only the last name is missing.
* `NameTree.resolve_link_of_ok`, `NameTree.resolve_link_of_error`.
-/
namespace Efiks.Lib

/-- Why a path has no node, or no vacancy. -/
inductive NameError
  | notDirectory
  | notFound
  | taken
  deriving DecidableEq

/-- The directories among the nodes, and their entries. -/
structure NameTree (N A : Type) where
  isDir : N → Bool
  child : N → A → Option N

namespace NameTree
variable {N A : Type}

/-- The node of one name in a directory. -/
def lookup (t : NameTree N A) (n : N) (a : A) : Except NameError N :=
  if t.isDir n then
    match t.child n a with
    | some m => .ok m
    | none => .error .notFound
  else .error .notDirectory

/-- The node of a path. -/
def resolve (t : NameTree N A) : N → List A → Except NameError N
  | n, [] => .ok n
  | n, a :: path =>
    match t.lookup n a with
    | .ok m => t.resolve m path
    | .error e => .error e

/-- The directory and the name of a path whose last name is missing. -/
def vacancy (t : NameTree N A) : N → List A → Except NameError (N × A)
  | _, [] => .error .taken
  | n, a :: path =>
    match t.lookup n a with
    | .ok m => t.vacancy m path
    | .error e => if e = .notFound ∧ path.isEmpty then .ok (n, a) else .error e

section Lookup
variable {t t' : NameTree N A} {n m p : N} {a : A} {path : List A} {e : NameError}

theorem lookup_eq_ok_iff : t.lookup n a = .ok m ↔ t.isDir n = true ∧ t.child n a = some m := by
  rw [lookup]
  by_cases hdir : t.isDir n = true
  · cases hchild : t.child n a with
    | none => simp [hdir]
    | some k => simp [hdir]
  · simp [hdir]

theorem lookup_eq_notFound_iff :
    t.lookup n a = .error .notFound ↔ t.isDir n = true ∧ t.child n a = none := by
  rw [lookup]
  by_cases hdir : t.isDir n = true
  · cases hchild : t.child n a with
    | none => simp [hdir]
    | some k => simp [hdir]
  · simp [hdir]

theorem lookup_of_not_dir (h : t.isDir n = false) : t.lookup n a = .error .notDirectory := by
  simp [lookup, h]

@[simp] theorem resolve_nil : t.resolve n [] = .ok n := rfl

theorem resolve_cons_of_ok (h : t.lookup n a = .ok m) :
    t.resolve n (a :: path) = t.resolve m path := by rw [resolve, h]

theorem resolve_cons_of_error (h : t.lookup n a = .error e) :
    t.resolve n (a :: path) = .error e := by rw [resolve, h]

/-- A path in two parts. -/
theorem resolve_append_of_ok {path' : List A} (h : t.resolve n path = .ok m) :
    t.resolve n (path ++ path') = t.resolve m path' := by
  induction path generalizing n with
  | nil =>
    cases h
    rfl
  | cons a path ih =>
    cases hlookup : t.lookup n a with
    | ok k =>
      rw [resolve_cons_of_ok hlookup] at h
      rw [List.cons_append, resolve_cons_of_ok hlookup, ih h]
    | error e =>
      rw [resolve_cons_of_error hlookup] at h
      cases h

theorem vacancy_cons_of_ok (h : t.lookup n a = .ok m) :
    t.vacancy n (a :: path) = t.vacancy m path := by rw [vacancy, h]

theorem vacancy_singleton (h : t.lookup n a = .error .notFound) :
    t.vacancy n [a] = .ok (n, a) := by
  rw [vacancy, h]
  rfl

theorem vacancy_cons_of_error (h : t.lookup n a = .error e) (hne : e ≠ .notFound ∨ path ≠ []) :
    t.vacancy n (a :: path) = .error e := by
  have hnot : ¬(e = .notFound ∧ path.isEmpty = true) := by
    rw [List.isEmpty_iff]
    tauto
  rw [vacancy, h]
  exact if_neg hnot

/-- **Only the last name is missing**: the path before it leads to a directory without an entry
of that name. -/
theorem vacancy_eq_ok_iff : t.vacancy n path = .ok (p, a) ↔
    ∃ front, path = front ++ [a] ∧ t.resolve n front = .ok p ∧ t.isDir p = true ∧
      t.child p a = none := by
  induction path generalizing n with
  | nil => simp [vacancy]
  | cons b path ih =>
    rw [vacancy]
    cases hlookup : t.lookup n b with
    | ok k =>
      dsimp only
      rw [ih]
      constructor
      · rintro ⟨front, rfl, hfront, hdir, hchild⟩
        exact ⟨b :: front, rfl, by rwa [resolve_cons_of_ok hlookup], hdir, hchild⟩
      · rintro ⟨front, hpath, hfront, hdir, hchild⟩
        cases front with
        | nil =>
          -- the name would be missing and not missing
          obtain ⟨rfl, rfl⟩ := List.cons.inj hpath
          cases hfront
          rw [lookup_eq_notFound_iff.mpr ⟨hdir, hchild⟩] at hlookup
          cases hlookup
        | cons c front =>
          obtain ⟨rfl, rfl⟩ := List.cons.inj hpath
          rw [resolve_cons_of_ok hlookup] at hfront
          exact ⟨front, rfl, hfront, hdir, hchild⟩
    | error e =>
      dsimp only
      constructor
      · intro h
        by_cases hlast : e = .notFound ∧ path.isEmpty = true
        · rw [if_pos hlast] at h
          obtain ⟨rfl, rfl⟩ := Prod.mk.inj (Except.ok.inj h)
          rw [hlast.1, lookup_eq_notFound_iff] at hlookup
          rw [List.isEmpty_iff.mp hlast.2]
          exact ⟨[], rfl, rfl, hlookup.1, hlookup.2⟩
        · rw [if_neg hlast] at h
          cases h
      · rintro ⟨front, hpath, hfront, hdir, hchild⟩
        cases front with
        | nil =>
          obtain ⟨rfl, rfl⟩ := List.cons.inj hpath
          cases hfront
          rw [lookup_eq_notFound_iff.mpr ⟨hdir, hchild⟩] at hlookup
          cases hlookup
          rfl
        | cons c front =>
          obtain ⟨rfl, rfl⟩ := List.cons.inj hpath
          rw [resolve_cons_of_error hlookup] at hfront
          cases hfront

end Lookup

/-! ## Nodes that paths can reach -/

/-- Entries of the directories in `S` lead to nodes in `S`. -/
def Closed (t : NameTree N A) (S : Set N) : Prop :=
  ∀ n ∈ S, ∀ a m, t.lookup n a = .ok m → m ∈ S

section Closed
variable {t t' : NameTree N A} {S : Set N} {n m : N} {path : List A}

theorem Closed.resolve_mem (hS : t.Closed S) (hn : n ∈ S) (h : t.resolve n path = .ok m) :
    m ∈ S := by
  induction path generalizing n with
  | nil =>
    cases h
    exact hn
  | cons a path ih =>
    cases hlookup : t.lookup n a with
    | ok k =>
      rw [resolve_cons_of_ok hlookup] at h
      exact ih (hS n hn a k hlookup) h
    | error e =>
      rw [resolve_cons_of_error hlookup] at h
      cases h

/-- Paths see only the nodes they can reach. -/
theorem Closed.resolve_congr (hS : t.Closed S) (hn : n ∈ S)
    (h : ∀ k ∈ S, ∀ a, t'.lookup k a = t.lookup k a) : t'.resolve n path = t.resolve n path := by
  induction path generalizing n with
  | nil => rfl
  | cons a path ih =>
    cases hlookup : t.lookup n a with
    | ok k =>
      rw [resolve_cons_of_ok hlookup, resolve_cons_of_ok (by rw [h n hn, hlookup])]
      exact ih (hS n hn a k hlookup)
    | error e =>
      rw [resolve_cons_of_error hlookup, resolve_cons_of_error (by rw [h n hn, hlookup])]

theorem Closed.vacancy_congr (hS : t.Closed S) (hn : n ∈ S)
    (h : ∀ k ∈ S, ∀ a, t'.lookup k a = t.lookup k a) : t'.vacancy n path = t.vacancy n path := by
  induction path generalizing n with
  | nil => rfl
  | cons a path ih =>
    cases hlookup : t.lookup n a with
    | ok k =>
      rw [vacancy_cons_of_ok hlookup, vacancy_cons_of_ok (by rw [h n hn, hlookup])]
      exact ih (hS n hn a k hlookup)
    | error e => simp only [vacancy, h n hn, hlookup]

end Closed

/-! ## Adding an entry -/

section Link
variable [DecidableEq N] [DecidableEq A] {t : NameTree N A} {S : Set N} {n m k p : N} {a b : A}
variable {path : List A} {e : NameError}

/-- The tree with the entry `a` of the directory `p` for `m`, which is no directory. -/
def link (t : NameTree N A) (p : N) (a : A) (m : N) : NameTree N A where
  isDir n := if n = m then false else t.isDir n
  child n b := if n = p ∧ b = a then some m else t.child n b

theorem lookup_link_new (hdir : t.isDir p = true) (hpm : p ≠ m) :
    (t.link p a m).lookup p a = .ok m := by
  rw [lookup_eq_ok_iff]
  simp [link, hpm, hdir]

theorem lookup_link_of_ne (hn : n ≠ m) (h : ¬(n = p ∧ b = a)) :
    (t.link p a m).lookup n b = t.lookup n b := by
  simp [lookup, link, hn, h]

theorem resolve_link_from_new (hpath : path ≠ []) :
    (t.link p a m).resolve m path = .error .notDirectory := by
  cases path with
  | nil => exact absurd rfl hpath
  | cons b path =>
    exact resolve_cons_of_error (lookup_of_not_dir (by simp [link]))

/-- A name that leads somewhere is not the one that is added. -/
theorem lookup_link_of_ok (hm : m ∉ S) (hnone : t.child p a = none) (hn : n ∈ S)
    (h : t.lookup n b = .ok k) :
    (t.link p a m).lookup n b = .ok k := by
  rw [lookup_link_of_ne, h]
  · rintro rfl
    exact hm hn
  · rintro ⟨rfl, rfl⟩
    rw [lookup_eq_ok_iff, hnone] at h
    cases h.2

variable (hS : t.Closed S) (hm : m ∉ S) (hdir : t.isDir p = true) (hnone : t.child p a = none)
include hS hm

/-- A path that has a node keeps it. -/
theorem resolve_link_of_ok (hnone : t.child p a = none) (hn : n ∈ S)
    (h : t.resolve n path = .ok k) : (t.link p a m).resolve n path = .ok k := by
  induction path generalizing n with
  | nil => exact h
  | cons b path ih =>
    cases hlookup : t.lookup n b with
    | ok j =>
      rw [resolve_cons_of_ok hlookup] at h
      rw [resolve_cons_of_ok (lookup_link_of_ok hm hnone hn hlookup)]
      exact ih (hS n hn b j hlookup) h
    | error e =>
      rw [resolve_cons_of_error hlookup] at h
      cases h

include hdir hnone

/-- A path without a node fails as before, or it goes through the new entry: then it leads to
the new node, or tries to go on from there. -/
theorem resolve_link_of_error (hn : n ∈ S) (hp : p ∈ S) (h : t.resolve n path = .error e) :
    (t.link p a m).resolve n path = .error e ∨
      ∃ front back, path = front ++ a :: back ∧ t.resolve n front = .ok p ∧
        (t.link p a m).resolve n path =
          if back = [] then .ok m else .error .notDirectory := by
  have hne : ∀ j ∈ S, j ≠ m := by
    rintro j hj rfl
    exact hm hj
  induction path generalizing n with
  | nil => cases h
  | cons b path ih =>
    cases hlookup : t.lookup n b with
    | ok j =>
      rw [resolve_cons_of_ok hlookup] at h
      rw [resolve_cons_of_ok (lookup_link_of_ok hm hnone hn hlookup)]
      rcases ih (hS n hn b j hlookup) h with hsame | ⟨front, back, rfl, hfront, hback⟩
      · exact .inl hsame
      · exact .inr ⟨b :: front, back, rfl, by rwa [resolve_cons_of_ok hlookup], hback⟩
    | error e' =>
      rw [resolve_cons_of_error hlookup] at h
      cases h
      by_cases hnew : n = p ∧ b = a
      · obtain ⟨rfl, rfl⟩ := hnew
        refine .inr ⟨[], path, rfl, rfl, ?_⟩
        rw [resolve_cons_of_ok (lookup_link_new hdir (hne n hp))]
        by_cases hback : path = []
        · rw [hback, if_pos rfl, resolve_nil]
        · rw [if_neg hback, resolve_link_from_new hback]
      · left
        rw [resolve_cons_of_error (by rw [lookup_link_of_ne (hne n hn) hnew, hlookup])]

/-- The path that had the vacancy leads to the new node. -/
theorem resolve_link_vacancy (hn : n ∈ S) (hp : p ∈ S) (h : t.vacancy n path = .ok (p, a)) :
    (t.link p a m).resolve n path = .ok m := by
  obtain ⟨front, rfl, hfront, -, -⟩ := vacancy_eq_ok_iff.mp h
  have hpm : p ≠ m := by
    rintro rfl
    exact hm hp
  rw [resolve_append_of_ok (resolve_link_of_ok hS hm hnone hn hfront),
    resolve_cons_of_ok (lookup_link_new hdir hpm), resolve_nil]

end Link

end NameTree

end Efiks.Lib

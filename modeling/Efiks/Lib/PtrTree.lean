import Mathlib

/-!
# Trees of tables linked by pointers

A store maps a node to a row of entries, and an entry may point to a child node.
`nodeAt` follows a path of indices from a root. `IsTree` says that no node is
reached along two paths and that no path is longer than the depth, which is what
lets a write to one row be located: it changes the tree at one path only.

## Main results

* `nodeAt_congr` — rows outside the tree do not matter.
* `nodeAt_link` — hanging an empty node under a free entry adds exactly one path.
-/
namespace Efiks.Lib

variable {N I E : Type} {child : E → Option N} {s t : N → I → E} {r n m : N} {d : ℕ}

/-- The node reached from `r` along a path of indices. -/
def nodeAt (child : E → Option N) (s : N → I → E) : N → List I → Option N
  | r, [] => some r
  | r, i :: p => (child (s r i)).bind fun n => nodeAt child s n p

@[simp] theorem nodeAt_nil : nodeAt child s r [] = some r := rfl

theorem nodeAt_cons (i : I) (p : List I) :
    nodeAt child s r (i :: p) = (child (s r i)).bind fun n => nodeAt child s n p := rfl

theorem nodeAt_append (p q : List I) :
    nodeAt child s r (p ++ q) = (nodeAt child s r p).bind fun n => nodeAt child s n q := by
  induction p generalizing r with
  | nil => rfl
  | cons i p ih =>
      rw [List.cons_append, nodeAt_cons, nodeAt_cons]
      cases child (s r i) with
      | none => rfl
      | some n => exact ih

theorem nodeAt_concat (p : List I) (i : I) :
    nodeAt child s r (p ++ [i]) = (nodeAt child s r p).bind fun n => child (s n i) := by
  rw [nodeAt_append]
  congr 1
  funext n
  rw [nodeAt_cons]
  cases child (s n i) <;> rfl

/-- A store with the same pointers in every node of the tree has the same tree. -/
theorem nodeAt_congr
    (h : ∀ p n, nodeAt child s r p = some n → ∀ i, child (t n i) = child (s n i)) (p : List I) :
    nodeAt child t r p = nodeAt child s r p := by
  induction p using List.reverseRecOn with
  | nil => rfl
  | append_singleton p i ih =>
      rw [nodeAt_concat, nodeAt_concat, ih]
      cases hp : nodeAt child s r p with
      | none => rfl
      | some n => exact h p n hp i

/-- No node is reached along two paths, and no path is longer than `d`. -/
structure IsTree (child : E → Option N) (s : N → I → E) (r : N) (d : ℕ) : Prop where
  inj : ∀ p q n, nodeAt child s r p = some n → nodeAt child s r q = some n → p = q
  depth : ∀ p n, nodeAt child s r p = some n → p.length ≤ d

theorem IsTree.congr (h : IsTree child s r d)
    (hst : ∀ p n, nodeAt child s r p = some n → ∀ i, child (t n i) = child (s n i)) :
    IsTree child t r d where
  inj p q n hp hq := h.inj p q n (by rwa [nodeAt_congr hst] at hp)
    (by rwa [nodeAt_congr hst] at hq)
  depth p n hp := h.depth p n (by rwa [nodeAt_congr hst] at hp)

/-- The part of a tree under one entry is a tree. -/
theorem IsTree.sub (h : IsTree child s r (d + 1)) {i : I} (hn : child (s r i) = some n) :
    IsTree child s n d := by
  have hcons : ∀ p, nodeAt child s r (i :: p) = nodeAt child s n p := by
    intro p
    rw [nodeAt_cons, hn, Option.bind_some]
  refine ⟨fun p q m hp hq => ?_, fun p m hp => ?_⟩
  · exact List.tail_eq_of_cons_eq (h.inj (i :: p) (i :: q) m (by rw [hcons, hp]) (by rw [hcons, hq]))
  · have := h.depth (i :: p) m (by rw [hcons, hp])
    simpa using this

/-- A tree of depth zero has no pointers. -/
theorem IsTree.child_eq_none (h : IsTree child s r 0) (i : I) : child (s r i) = none := by
  cases hc : child (s r i) with
  | none => rfl
  | some n =>
      have := h.depth [i] n (by rw [nodeAt_cons, hc]; rfl)
      simp at this

section Link
variable {path : List I} {i : I}

/-- **Adding one node.** `n` has no pointers and is hung under an entry that had
none. -/
theorem nodeAt_link (h : IsTree child s r d) (hm : nodeAt child s r path = some m)
    (hfree : child (s m i) = none)
    (hi : child (t m i) = some n) (hj : ∀ j, j ≠ i → child (t m j) = child (s m j))
    (hn : ∀ j, child (t n j) = none)
    (hother : ∀ p x, nodeAt child s r p = some x → x ≠ m → ∀ j, child (t x j) = child (s x j)) :
    ∀ q, (q = path ++ [i] → nodeAt child t r q = some n) ∧
      (q ≠ path ++ [i] → nodeAt child t r q = nodeAt child s r q) := by
  -- A path is extended at its end, so the last pointer followed is the one that may have changed.
  intro q
  induction q using List.reverseRecOn with
  | nil => exact ⟨fun h => by simp at h, fun _ => rfl⟩
  | append_singleton q j ih =>
      rw [nodeAt_concat, nodeAt_concat]
      by_cases hq : q = path ++ [i]
      · rw [ih.1 hq]
        refine ⟨fun hqj => by simp [hq] at hqj, fun _ => ?_⟩
        rw [Option.bind_some, hn, hq, nodeAt_concat, hm, Option.bind_some, hfree, Option.bind_none]
      · rw [ih.2 hq]
        cases hx : nodeAt child s r q with
        | none =>
            refine ⟨fun hqj => ?_, fun _ => rfl⟩
            rw [(List.append_inj' hqj rfl).1, hm] at hx
            cases hx
        | some x =>
            rw [Option.bind_some, Option.bind_some]
            by_cases hxm : x = m
            · have hqp : q = path := h.inj q path m (by rw [hx, hxm]) hm
              refine ⟨fun hqj => ?_, fun hqj => ?_⟩
              · have : j = i := by simpa [hqp] using hqj
                rw [hxm, this, hi]
              · rw [hxm]
                exact hj j (fun hji => hqj (by rw [hqp, hji]))
            · refine ⟨fun hqj => ?_, fun _ => hother q x hx hxm j⟩
              rw [(List.append_inj' hqj rfl).1, hm] at hx
              exact absurd (Option.some.inj hx).symm hxm

/-- The tree with the new node is a tree. -/
theorem IsTree.link (h : IsTree child s r d)
    (hlen : path.length < d) (hfresh : ∀ p, nodeAt child s r p ≠ some n)
    (hnew : ∀ q, (q = path ++ [i] → nodeAt child t r q = some n) ∧
      (q ≠ path ++ [i] → nodeAt child t r q = nodeAt child s r q)) :
    IsTree child t r d := by
  refine ⟨fun p q x hp hq => ?_, fun p x hp => ?_⟩
  · by_cases hpn : p = path ++ [i] <;> by_cases hqn : q = path ++ [i]
    · rw [hpn, hqn]
    · rw [(hnew p).1 hpn] at hp
      rw [(hnew q).2 hqn, ← hp] at hq
      exact absurd hq (hfresh q)
    · rw [(hnew q).1 hqn] at hq
      rw [(hnew p).2 hpn, ← hq] at hp
      exact absurd hp (hfresh p)
    · rw [(hnew p).2 hpn] at hp
      rw [(hnew q).2 hqn] at hq
      exact h.inj p q x hp hq
  · by_cases hpn : p = path ++ [i]
    · rw [hpn, List.length_append]
      simpa using hlen
    · rw [(hnew p).2 hpn] at hp
      exact h.depth p x hp

end Link
end Efiks.Lib

import Mathlib.Data.List.Basic

/-!
# Splitting at a separator

The pieces of a list between the occurrences of a separator, and the split at the
last occurrence. A list with a separator inside is the pieces of what stands before
it followed by the pieces of what stands after it, whichever occurrence is taken.

## Main definitions

* `pieces sep s` — the nonempty pieces of `s`, in order.
* `rsplitOnce sep s` — what stands before and after the last separator.
-/
namespace Efiks.Lib

variable {α : Type*} [DecidableEq α]

/-- The nonempty pieces of `s` between separators. -/
def pieces (sep : α) (s : List α) : List (List α) := (s.splitOn sep).filter (· ≠ [])

/-- `s` cut at its last separator. -/
def rsplitOnce (sep : α) : List α → Option (List α × List α)
  | [] => none
  | c :: cs =>
    match rsplitOnce sep cs with
    | some (a, b) => some (c :: a, b)
    | none => if c = sep then some ([], cs) else none

variable {sep : α} {s t : List α}

theorem splitOn_append_cons (s t : List α) :
    (s ++ sep :: t).splitOn sep = s.splitOn sep ++ t.splitOn sep :=
  List.splitOnP_append_cons s t (by simp)

/-- The pieces of a list with a separator inside. -/
theorem pieces_append_cons (s t : List α) :
    pieces sep (s ++ sep :: t) = pieces sep s ++ pieces sep t := by
  rw [pieces, splitOn_append_cons, List.filter_append]
  rfl

theorem pieces_of_not_mem (h : sep ∉ s) : pieces sep s = if s = [] then [] else [s] := by
  rw [pieces, List.splitOn_eq_singleton h]
  by_cases hs : s = [] <;> simp [hs]

@[simp] theorem pieces_nil : pieces sep ([] : List α) = [] :=
  (pieces_of_not_mem (List.not_mem_nil)).trans (if_pos rfl)

/-- A separator in front adds no piece. -/
theorem pieces_cons (s : List α) : pieces sep (sep :: s) = pieces sep s := by
  rw [← List.nil_append (sep :: s), pieces_append_cons, pieces_nil, List.nil_append]

theorem rsplitOnce_eq_none : rsplitOnce sep s = none ↔ sep ∉ s := by
  induction s with
  | nil => simp [rsplitOnce]
  | cons c cs ih =>
    rw [rsplitOnce]
    cases h : rsplitOnce sep cs with
    | some p => simpa [h] using fun _ => (not_iff_not.mpr ih).mp (by simp [h])
    | none => simp [ih.mp h, eq_comm]

/-- What the split at the last separator returns. -/
theorem rsplitOnce_eq_some {a b : List α} (h : rsplitOnce sep s = some (a, b)) :
    s = a ++ sep :: b ∧ sep ∉ b := by
  induction s generalizing a with
  | nil => simp [rsplitOnce] at h
  | cons c cs ih =>
    rw [rsplitOnce] at h
    cases hcs : rsplitOnce sep cs with
    | some p =>
      simp only [hcs, Option.some.injEq, Prod.mk.injEq] at h
      obtain ⟨rfl, hp⟩ := h
      obtain ⟨heq, hb⟩ := ih (a := p.1) (by rw [hcs, ← hp])
      exact ⟨by rw [heq, List.cons_append], hb⟩
    | none =>
      simp only [hcs] at h
      split at h
      · next hc =>
        simp only [Option.some.injEq, Prod.mk.injEq] at h
        obtain ⟨rfl, rfl⟩ := h
        exact ⟨by rw [hc, List.nil_append], rsplitOnce_eq_none.mp hcs⟩
      · simp at h

/-- The last piece, empty or not, is what stands after the last separator. -/
theorem getLast?_splitOn (s : List α) (h : sep ∉ t) :
    ((s ++ sep :: t).splitOn sep).getLast? = some t := by
  rw [splitOn_append_cons, List.splitOn_eq_singleton h, List.getLast?_append]
  rfl

theorem getLast?_splitOn_of_not_mem (h : sep ∉ s) : (s.splitOn sep).getLast? = some s := by
  rw [List.splitOn_eq_singleton h]
  rfl

/-- A list that does not end with a separator has its last piece. -/
theorem one_le_length_pieces (hs : s ≠ []) (hlast : s.getLast? ≠ some sep) :
    1 ≤ (pieces sep s).length := by
  cases h : rsplitOnce sep s with
  | none => simp [pieces_of_not_mem (rsplitOnce_eq_none.mp h), hs]
  | some p =>
    obtain ⟨heq, hb⟩ := rsplitOnce_eq_some h
    have hne : p.2 ≠ [] := by
      intro hnil
      simp [heq, hnil] at hlast
    rw [heq, pieces_append_cons, pieces_of_not_mem hb, if_neg hne, List.length_append]
    simp

/-- A list that neither starts nor ends with a separator and has one inside has two pieces
or more. -/
theorem two_le_length_pieces (hs : sep ∈ s) (hhead : s.head? ≠ some sep)
    (hlast : s.getLast? ≠ some sep) : 2 ≤ (pieces sep s).length := by
  obtain ⟨a, b, rfl, ha⟩ := List.eq_append_cons_of_mem hs
  have hane : a ≠ [] := by
    rintro rfl
    simp at hhead
  have hbne : b ≠ [] := by
    rintro rfl
    simp at hlast
  have hb : 1 ≤ (pieces sep b).length := by
    refine one_le_length_pieces hbne fun hb => hlast ?_
    simp [List.getLast?_append, List.getLast?_cons, hb]
  rw [pieces_append_cons, pieces_of_not_mem ha, if_neg hane, List.length_append,
    List.length_singleton]
  omega

end Efiks.Lib

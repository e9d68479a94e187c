import Efiks.Mm.Leaves

/-!
# Copying the tables of an address space

`PageTable::fork` copies a tree of tables in a loop over the entries of each
table. The copy gets fresh frames, the user leaves of both trees lose write
permission and every shared frame is counted once more. The proof follows the
recursion: `CopyLoop` is the invariant of the loop over one table, whose finished
entries have copied subtrees, and `wp_fork` is by induction on the depth.

## Main definitions

* `sharedEntry` — an entry after `fork`.
* `userFrames`, `addAll` — the frames `fork` counts, in its order.
* `tableCount` — how many frames `fork` takes.
* `TreeCopy`, `ForkPost` — what `fork` leaves.

## Main results

* `wp_fork`.
-/
namespace Efiks.Mm
open Lib Lib.RustM PageTableEntry

/-- What `fork` makes of an entry, in the old and in the new table. -/
def sharedEntry (e : PageTableEntry) : PageTableEntry :=
  if e.isLeaf && e.isUser && e.isWritable then e.unsetFlags PteFlags.W else e

/-- The user frames under one entry, given those under a table. -/
def entryFrames (below : ℕ → List ℕ) (e : PageTableEntry) : List ℕ :=
  match child e with
  | some n => below n
  | none => if e.isLeaf && e.isUser then [e.ppn] else []

/-- The user frames of a tree with the given number of levels, entry by entry. -/
def userFrames (mem : ℕ → Frame) : ℕ → ℕ → List ℕ
  | 0, _ => []
  | d + 1, r => (List.finRange 512).flatMap fun i => entryFrames (userFrames mem d) (mem r i)

/-- How many tables are under one entry, given how many are under a table. -/
def entryTables (below : ℕ → ℕ) (e : PageTableEntry) : ℕ :=
  match child e with
  | some n => below n
  | none => 0

/-- How many tables a tree with the given number of levels has. -/
def tableCount (mem : ℕ → Frame) : ℕ → ℕ → ℕ
  | 0, _ => 0
  | d + 1, r => 1 + ((List.finRange 512).map fun i => entryTables (tableCount mem d) (mem r i)).sum

/-- `page::add` of each frame of a list. -/
def addAll (fs : List ℕ) (m : ℕ → Option UInt16) : ℕ → Option UInt16 :=
  fs.foldl (fun m f => Function.update m (4096 * f) (some (Page.bump (m (4096 * f))))) m

theorem addAll_append (fs gs : List ℕ) (m : ℕ → Option UInt16) :
    addAll (fs ++ gs) m = addAll gs (addAll fs m) := List.foldl_append ..

/-- The tree of `x'` in `t` is a copy of the tree of `x` in `s`, in fresh frames. -/
structure TreeCopy (s t : MemState) (x x' : ℕ) : Prop where
  old : ∀ p n, tableAt s x p = some n → ∀ i, t.mem n i = sharedEntry (s.mem n i)
  new : ∀ p n, tableAt s x p = some n → ∃ n', tableAt t x' p = some n' ∧
    ∀ i, child (s.mem n i) = none → t.mem n' i = sharedEntry (s.mem n i)
  dom : ∀ p, tableAt s x p = none → tableAt t x' p = none
  inj : ∀ p q n, tableAt t x' p = some n → tableAt t x' q = some n → p = q
  fresh : ∀ p n, tableAt t x' p = some n → ¬ s.used n ∧ t.used n

/-- What `fork` leaves: the copied tree, and the frame conditions. -/
structure ForkPost (s t : MemState) (d x x' : ℕ) : Prop extends TreeCopy s t x x' where
  used : ∀ n, t.used n ↔ s.used n ∨ ∃ p, tableAt t x' p = some n
  frame : ∀ n, s.used n → (∀ p, tableAt s x p ≠ some n) → t.mem n = s.mem n
  meta_eq : t.pageMeta = addAll (userFrames s.mem (d + 1) x) s.pageMeta
  addr_eq : t.frames.startAddr = s.frames.startAddr

section TreeCopy
variable {s t u : MemState} {x x' : ℕ}

/-- Work elsewhere does not disturb a finished copy. -/
theorem TreeCopy.mono (h : TreeCopy s t x x')
    (hold : ∀ p n, tableAt s x p = some n → u.mem n = t.mem n)
    (hnew : ∀ p n, tableAt t x' p = some n → u.mem n = t.mem n)
    (hused : ∀ n, t.used n → u.used n) : TreeCopy s u x x' := by
  have htab : ∀ p, tableAt u x' p = tableAt t x' p := tableAt_congr hnew
  refine ⟨fun p n hp i => ?_, fun p n hp => ?_, fun p hp => ?_, fun p q n hp hq => ?_,
    fun p n hp => ?_⟩
  · rw [hold p n hp, h.old p n hp]
  · obtain ⟨n', hn', hrow⟩ := h.new p n hp
    refine ⟨n', by rw [htab, hn'], fun i hi => ?_⟩
    rw [hnew p n' hn', hrow i hi]
  · rw [htab, h.dom p hp]
  · exact h.inj p q n (htab p ▸ hp) (htab q ▸ hq)
  · obtain ⟨h₁, h₂⟩ := h.fresh p n (htab p ▸ hp)
    exact ⟨h₁, hused n h₂⟩

/-- A copy of what was the same tree before. -/
theorem TreeCopy.of_congr {s₀ : MemState} (h : TreeCopy s t x x')
    (hmem : ∀ p n, tableAt s₀ x p = some n → s.mem n = s₀.mem n)
    (hused : ∀ n, s₀.used n → s.used n) : TreeCopy s₀ t x x' := by
  have htab : ∀ p, tableAt s x p = tableAt s₀ x p := tableAt_congr hmem
  refine ⟨fun p n hp i => ?_, fun p n hp => ?_, fun p hp => ?_, h.inj, fun p n hp => ?_⟩
  · rw [h.old p n ((htab p).trans hp), hmem p n hp]
  · obtain ⟨n', hn', hrow⟩ := h.new p n ((htab p).trans hp)
    refine ⟨n', hn', fun i hi => ?_⟩
    rw [hrow i (by rwa [hmem p n hp]), hmem p n hp]
  · exact h.dom p ((htab p).trans hp)
  · obtain ⟨h₁, h₂⟩ := h.fresh p n hp
    exact ⟨fun hn => h₁ (hused n hn), h₂⟩

end TreeCopy

section Entry
variable {s : MemState} {r c : ℕ} {i : Fin 512} {Q : Unit → MemState → Prop}
variable {E : Error → MemState → Prop} {N : Panic → Prop}

theorem unsetFlags_sharedEntry {e : PageTableEntry} (hl : e.isLeaf = true) (hu : e.isUser = true)
    (hw : e.isWritable = true) : sharedEntry e = e.unsetFlags PteFlags.W := by
  simp [sharedEntry, hl, hu, hw]

/-- **One turn of the loop on an entry that is not a pointer.** -/
theorem wp_forkEntry_leaf {forkChild : ℕ → KM ℕ} (hchild : child (s.mem r i) = none)
    (hcopy : s.mem c i = s.mem r i) (hrc : r ≠ c)
    (h : ∀ t, t.frames = s.frames → t.pageMeta = addAll (entryFrames (fun _ => []) (s.mem r i))
      s.pageMeta → (∀ n j, t.mem n j =
        if (n = r ∨ n = c) ∧ j = i then sharedEntry (s.mem r i) else s.mem n j) → Q () t) :
    wp (PageTable.forkEntry forkChild r c i) Q E N s := by
  have hsame : ∀ n j, s.mem n j =
      if (n = r ∨ n = c) ∧ j = i then s.mem r i else s.mem n j := by
    intro n j
    by_cases hn : (n = r ∨ n = c) ∧ j = i
    · rw [if_pos hn]
      obtain ⟨rfl | rfl, rfl⟩ := hn
      · rfl
      · exact hcopy
    · rw [if_neg hn]
  have hframes : entryFrames (fun _ => []) (s.mem r i) =
      if (s.mem r i).isLeaf && (s.mem r i).isUser then [(s.mem r i).ppn] else [] := by
    rw [entryFrames, hchild]
  rw [hframes] at h
  unfold PageTable.forkEntry
  rw [wp_bind, wp_gets]
  by_cases hv : (s.mem r i).isValid = true
  · have hl : (s.mem r i).isLeaf = true := by
      by_contra hl
      rw [Bool.not_eq_true] at hl
      rw [child, hv, hl] at hchild
      cases hchild
    rw [hv, Bool.not_true, if_neg Bool.false_ne_true, if_pos hl]
    by_cases hu : (s.mem r i).isUser = true
    · rw [hl, hu] at h
      rw [if_pos hu, wp_bind, wp_pageAdd, physicalAddress_eq]
      by_cases hw : (s.mem r i).isWritable = true
      · rw [if_pos hw, wp_bind, wp_modify, wp_modify]
        refine h _ rfl rfl fun n j => ?_
        rw [unsetFlags_sharedEntry hl hu hw]
        have hc : (MemState.setEntry r i ((s.mem r i).unsetFlags PteFlags.W)
            (Page.set (4096 * (s.mem r i).ppn) (some (Page.bump (s.pageMeta (4096 * (s.mem r i).ppn))))
              s)).mem c i = s.mem r i := by
          rw [setEntry_of_ne hrc.symm, pageSet_mem, hcopy]
        rw [hc]
        by_cases hj : j = i
        · subst hj
          by_cases hnc : n = c
          · rw [hnc, setEntry_self, if_pos ⟨Or.inr rfl, rfl⟩]
          · rw [setEntry_of_ne hnc]
            by_cases hnr : n = r
            · rw [hnr, setEntry_self, if_pos ⟨Or.inl rfl, rfl⟩]
            · rw [setEntry_of_ne hnr, pageSet_mem, if_neg (by tauto)]
        · rw [if_neg fun hn => hj hn.2]
          by_cases hnc : n = c
          · rw [hnc, setEntry_of_ne_index hj, setEntry_of_ne hrc.symm, pageSet_mem]
          · rw [setEntry_of_ne hnc]
            by_cases hnr : n = r
            · rw [hnr, setEntry_of_ne_index hj, pageSet_mem]
            · rw [setEntry_of_ne hnr, pageSet_mem]
      · rw [if_neg hw, wp_pure]
        refine h _ rfl rfl fun n j => ?_
        have : sharedEntry (s.mem r i) = s.mem r i := by simp [sharedEntry, hw]
        rw [this, pageSet_mem]
        exact hsame n j
    · rw [if_neg hu, wp_pure]
      rw [Bool.not_eq_true] at hu
      refine h s rfl (by rw [hu, Bool.and_false]; rfl) fun n j => ?_
      have : sharedEntry (s.mem r i) = s.mem r i := by simp [sharedEntry, hu]
      rw [this]
      exact hsame n j
  · rw [Bool.not_eq_true] at hv
    have hl : (s.mem r i).isLeaf = false := by rw [isLeaf, hv, Bool.false_and]
    rw [hv, Bool.not_false, if_pos rfl, wp_pure]
    refine h s rfl (by rw [hl, Bool.false_and]; rfl) fun n j => ?_
    have : sharedEntry (s.mem r i) = s.mem r i := by simp [sharedEntry, hl]
    rw [this]
    exact hsame n j

end Entry

section Trees
variable {s t : MemState} {r x : ℕ} {i : Fin 512}

theorem tableAt_cons (s : MemState) (r : ℕ) (i : Fin 512) (p : List (Fin 512)) :
    tableAt s r (i :: p) = (child (s.mem r i)).bind fun n => tableAt s n p := rfl

theorem tableAt_child (h : child (s.mem r i) = some x) (p : List (Fin 512)) :
    tableAt s r (i :: p) = tableAt s x p := by
  rw [tableAt_cons, h, Option.bind_some]

/-- A table under entry `i` is reached through it. -/
theorem exists_child_of_tableAt {n : ℕ} {p : List (Fin 512)} (h : tableAt s r (i :: p) = some n) :
    ∃ x, child (s.mem r i) = some x ∧ tableAt s x p = some n := by
  rw [tableAt_cons] at h
  cases hx : child (s.mem r i) with
  | none => rw [hx] at h; cases h
  | some x => exact ⟨x, rfl, by rwa [hx, Option.bind_some] at h⟩

theorem userFrames_congr (d : ℕ) (hmem : ∀ p n, tableAt s x p = some n → t.mem n = s.mem n) :
    userFrames t.mem d x = userFrames s.mem d x := by
  induction d generalizing x with
  | zero => rfl
  | succ d ih =>
      rw [userFrames, userFrames, hmem [] x rfl]
      refine List.flatMap_congr fun i _ => ?_
      unfold entryFrames
      cases hc : child (s.mem x i) with
      | none => rfl
      | some n => exact ih fun p m hp => hmem (i :: p) m (by rw [tableAt_child hc, hp])

theorem tableCount_congr (d : ℕ) (hmem : ∀ p n, tableAt s x p = some n → t.mem n = s.mem n) :
    tableCount t.mem d x = tableCount s.mem d x := by
  induction d generalizing x with
  | zero => rfl
  | succ d ih =>
      have hrow : ∀ i ∈ List.finRange 512, entryTables (tableCount t.mem d) (s.mem x i)
          = entryTables (tableCount s.mem d) (s.mem x i) := by
        intro i _
        simp only [entryTables]
        cases hc : child (s.mem x i) with
        | none => rfl
        | some n => exact ih fun p m hp => hmem (i :: p) m (by rw [tableAt_child hc, hp])
      rw [tableCount, tableCount, hmem [] x rfl, List.map_congr_left hrow]

end Trees

section Loop
variable {s t : MemState} {r c d k : ℕ}

/-- Table `n` of `t` belongs to the copy of the subtree under entry `i`. -/
def NewTable (s t : MemState) (r c : ℕ) (i : Fin 512) (n : ℕ) : Prop :=
  ∃ x x', child (s.mem r i) = some x ∧ child (t.mem c i) = some x' ∧ ∃ p, tableAt t x' p = some n

/-- **The invariant of the loop over table `r`**, copied to frame `c`, when the
first `k` entries are done. -/
structure CopyLoop (s : MemState) (d r c k : ℕ) (t : MemState) : Prop where
  root_row : ∀ i : Fin 512,
    t.mem r i = if i.val < k then sharedEntry (s.mem r i) else s.mem r i
  copy_leaf : ∀ i : Fin 512, i.val < k → child (s.mem r i) = none →
    t.mem c i = sharedEntry (s.mem r i)
  copy_rest : ∀ i : Fin 512, k ≤ i.val → t.mem c i = s.mem r i
  done : ∀ i : Fin 512, i.val < k → ∀ x, child (s.mem r i) = some x →
    ∃ x', child (t.mem c i) = some x' ∧ TreeCopy s t x x'
  rest : ∀ i : Fin 512, k ≤ i.val → ∀ x, child (s.mem r i) = some x →
    ∀ p n, tableAt s x p = some n → t.mem n = s.mem n
  apart : ∀ i j : Fin 512, i.val < k → j.val < k → ∀ n, NewTable s t r c i n →
    NewTable s t r c j n → i = j
  copy_apart : ∀ i : Fin 512, i.val < k → ¬ NewTable s t r c i c
  copy_used : ¬ s.used c ∧ t.used c
  used : ∀ n, t.used n ↔ s.used n ∨ n = c ∨ ∃ i : Fin 512, i.val < k ∧ NewTable s t r c i n
  frame : ∀ n, s.used n → (∀ p, tableAt s r p ≠ some n) → t.mem n = s.mem n
  meta_eq : t.pageMeta = addAll (((List.finRange 512).take k).flatMap fun i =>
    entryFrames (userFrames s.mem d) (s.mem r i)) s.pageMeta
  addr_eq : t.frames.startAddr = s.frames.startAddr

/-- A finished loop is a finished copy. -/
theorem CopyLoop.forkPost (h : CopyLoop s d r c 512 t)
    (hkeep : ∀ i, child (s.mem r i) = none → child (sharedEntry (s.mem r i)) = none) :
    ForkPost s t d r c := by
  have hnew : ∀ i p n, tableAt t c (i :: p) = some n →
      NewTable s t r c i n ∧ ∃ x x', child (s.mem r i) = some x ∧ tableAt t x' p = some n ∧
        TreeCopy s t x x' := by
    intro i p n hn
    obtain ⟨x', hx', hp⟩ := exists_child_of_tableAt hn
    cases hx : child (s.mem r i) with
    | none =>
        rw [h.copy_leaf i i.isLt hx, hkeep i hx] at hx'
        cases hx'
    | some x =>
        obtain ⟨y, hy, hcopy⟩ := h.done i i.isLt x hx
        obtain rfl : y = x' := Option.some.inj (hy.symm.trans hx')
        exact ⟨⟨x, y, hx, hy, p, hp⟩, x, y, rfl, hp, hcopy⟩
  refine { old := ?_, new := ?_, dom := ?_, inj := ?_, fresh := ?_, used := ?_, frame := h.frame,
           meta_eq := ?_, addr_eq := h.addr_eq }
  · intro p n hp i
    cases p with
    | nil =>
        obtain rfl := Option.some.inj hp
        rw [h.root_row i, if_pos i.isLt]
    | cons j p =>
        obtain ⟨x, hx, hn⟩ := exists_child_of_tableAt hp
        obtain ⟨x', -, hcopy⟩ := h.done j j.isLt x hx
        exact hcopy.old p n hn i
  · intro p n hp
    cases p with
    | nil =>
        obtain rfl := Option.some.inj hp
        exact ⟨c, rfl, fun i hi => h.copy_leaf i i.isLt hi⟩
    | cons j p =>
        obtain ⟨x, hx, hn⟩ := exists_child_of_tableAt hp
        obtain ⟨x', hx', hcopy⟩ := h.done j j.isLt x hx
        obtain ⟨n', hn', hrow⟩ := hcopy.new p n hn
        exact ⟨n', by rw [tableAt_child hx', hn'], hrow⟩
  · intro p hp
    cases p with
    | nil => cases hp
    | cons j p =>
        cases hx : child (s.mem r j) with
        | none => rw [tableAt_cons, h.copy_leaf j j.isLt hx, hkeep j hx, Option.bind_none]
        | some x =>
            obtain ⟨x', hx', hcopy⟩ := h.done j j.isLt x hx
            rw [tableAt_child hx']
            exact hcopy.dom p (by rwa [tableAt_child hx] at hp)
  · intro p q n hp hq
    cases p with
    | nil =>
        obtain rfl := Option.some.inj hp
        cases q with
        | nil => rfl
        | cons j q => exact absurd (hnew j q _ hq).1 (h.copy_apart j j.isLt)
    | cons i p =>
        cases q with
        | nil =>
            obtain rfl := Option.some.inj hq
            exact absurd (hnew i p _ hp).1 (h.copy_apart i i.isLt)
        | cons j q =>
            obtain rfl := h.apart i j i.isLt j.isLt n (hnew i p n hp).1 (hnew j q n hq).1
            obtain ⟨x', hx', hp'⟩ := exists_child_of_tableAt hp
            rw [tableAt_child hx'] at hq
            obtain ⟨x, y, hx, hpy, hcopy⟩ := (hnew i p n hp).2
            obtain ⟨z, hz, hcopy'⟩ := h.done i i.isLt x hx
            obtain rfl : z = x' := Option.some.inj (hz.symm.trans hx')
            rw [hcopy'.inj p q n hp' hq]
  · intro p n hp
    cases p with
    | nil =>
        obtain rfl := Option.some.inj hp
        exact h.copy_used
    | cons i p =>
        obtain ⟨x, x', hx, hp', hcopy⟩ := (hnew i p n hp).2
        exact hcopy.fresh p n hp'
  · intro n
    rw [h.used]
    constructor
    · rintro (hn | rfl | ⟨i, -, x, x', -, hx', p, hp⟩)
      · exact Or.inl hn
      · exact Or.inr ⟨[], rfl⟩
      · exact Or.inr ⟨i :: p, by rw [tableAt_child hx', hp]⟩
    · rintro (hn | ⟨p, hp⟩)
      · exact Or.inl hn
      · cases p with
        | nil => exact Or.inr (Or.inl (Option.some.inj hp).symm)
        | cons i p => exact Or.inr (Or.inr ⟨i, i.isLt, (hnew i p n hp).1⟩)
  · rw [h.meta_eq, List.take_of_length_le (by simp)]
    rfl

theorem newTable_congr {u : MemState} {i : Fin 512} (hrow : u.mem c i = t.mem c i)
    (hmem : ∀ n, NewTable s t r c i n → u.mem n = t.mem n) (n : ℕ) :
    NewTable s u r c i n ↔ NewTable s t r c i n := by
  unfold NewTable
  rw [hrow]
  refine exists_congr fun x => exists_congr fun x' => and_congr_right fun hx =>
    and_congr_right fun hx' => exists_congr fun p => ?_
  rw [tableAt_congr fun q m hq => hmem m ⟨x, x', hx, hx', q, hq⟩]

theorem take_finRange_succ (i : Fin 512) :
    (List.finRange 512).take (i.val + 1) = (List.finRange 512).take i.val ++ [i] := by
  rw [List.take_add_one, List.getElem?_eq_getElem (by simp), List.getElem_finRange]
  rfl

/-- The tables under the first `k` entries of table `r`. -/
def tablesUpTo (mem : ℕ → Frame) (d r k : ℕ) : ℕ :=
  (((List.finRange 512).take k).map fun i => entryTables (tableCount mem d) (mem r i)).sum

theorem tablesUpTo_succ (mem : ℕ → Frame) (d r : ℕ) (i : Fin 512) :
    tablesUpTo mem d r (i.val + 1)
      = tablesUpTo mem d r i.val + entryTables (tableCount mem d) (mem r i) := by
  simp [tablesUpTo, take_finRange_succ]

theorem one_add_tablesUpTo_le (mem : ℕ → Frame) (d r k : ℕ) :
    1 + tablesUpTo mem d r k ≤ tableCount mem (d + 1) r := by
  have hsum : tablesUpTo mem d r k + (((List.finRange 512).drop k).map fun i =>
      entryTables (tableCount mem d) (mem r i)).sum = ((List.finRange 512).map fun i =>
      entryTables (tableCount mem d) (mem r i)).sum := by
    rw [tablesUpTo, ← List.sum_append, ← List.map_append, List.take_append_drop]
  rw [tableCount]
  omega

theorem one_add_tablesUpTo (mem : ℕ → Frame) (d r : ℕ) :
    1 + tablesUpTo mem d r 512 = tableCount mem (d + 1) r := by
  rw [tablesUpTo, tableCount, List.take_of_length_le (by simp)]

/-- **One more entry.** `u` is `t` with entry `i` done: its row entries are set, its
subtree is copied to frames that were free in `t`, and nothing else that matters
to the loop has changed. -/
theorem CopyLoop.next {u : MemState} {i : Fin 512} (h : CopyLoop s d r c i.val t)
    (hroot : ∀ j, u.mem r j = if j = i then sharedEntry (s.mem r i) else t.mem r j)
    (hrow : ∀ j, j ≠ i → u.mem c j = t.mem c j)
    (hleaf : child (s.mem r i) = none → u.mem c i = sharedEntry (s.mem r i))
    (htree : ∀ x, child (s.mem r i) = some x →
      ∃ x', child (u.mem c i) = some x' ∧ TreeCopy s u x x')
    (hold : ∀ j x, j ≠ i → child (s.mem r j) = some x →
      ∀ p n, tableAt s x p = some n → u.mem n = t.mem n)
    (hnew : ∀ j : Fin 512, j.val < i.val → ∀ n, NewTable s t r c j n → u.mem n = t.mem n)
    (hframe : ∀ n, s.used n → (∀ p, tableAt s r p ≠ some n) → u.mem n = t.mem n)
    (hused : ∀ n, u.used n ↔ t.used n ∨ NewTable s u r c i n)
    (hfresh : ∀ n, NewTable s u r c i n → ¬ t.used n)
    (hmeta : u.pageMeta = addAll (entryFrames (userFrames s.mem d) (s.mem r i)) t.pageMeta)
    (haddr : u.frames.startAddr = t.frames.startAddr) : CopyLoop s d r c (i.val + 1) u := by
  have hlt : ∀ j : Fin 512, j.val < i.val + 1 → j = i ∨ (j ≠ i ∧ j.val < i.val) := by
    intro j hj
    by_cases hji : j = i
    · exact Or.inl hji
    · exact Or.inr ⟨hji, by have := Fin.val_ne_of_ne hji; omega⟩
  have hcongr : ∀ j : Fin 512, j.val < i.val → ∀ n,
      NewTable s u r c j n ↔ NewTable s t r c j n := fun j hj n =>
    newTable_congr (hrow j (Fin.ne_of_lt hj)) (hnew j hj) n
  have hsub : ∀ n, t.used n → u.used n := fun n hn => (hused n).mpr (Or.inl hn)
  have htused : ∀ j : Fin 512, j.val < i.val → ∀ n, NewTable s u r c j n → t.used n :=
    fun j hj n hn => (h.used n).mpr (Or.inr (Or.inr ⟨j, hj, (hcongr j hj n).mp hn⟩))
  refine
    { root_row := fun j => ?_
      copy_leaf := fun j hj hc => ?_
      copy_rest := fun j hj => ?_
      done := fun j hj x hx => ?_
      rest := fun j hj x hx p n hn => ?_
      apart := fun j j' hj hj' n hn hn' => ?_
      copy_apart := fun j hj hn => ?_
      copy_used := ⟨h.copy_used.1, hsub c h.copy_used.2⟩
      used := fun n => ?_
      frame := fun n hn hno => by rw [hframe n hn hno, h.frame n hn hno]
      meta_eq := ?_
      addr_eq := haddr.trans h.addr_eq }
  · rw [hroot j]
    by_cases hji : j = i
    · rw [if_pos hji, hji, if_pos (Nat.lt_succ_self _)]
    · have := Fin.val_ne_of_ne hji
      rw [if_neg hji, h.root_row j]
      by_cases hj : j.val < i.val
      · rw [if_pos hj, if_pos (by omega)]
      · rw [if_neg hj, if_neg (by omega)]
  · rcases hlt j hj with rfl | ⟨hne, hj'⟩
    · exact hleaf hc
    · rw [hrow j hne, h.copy_leaf j hj' hc]
  · rw [hrow j (Fin.ne_of_gt hj), h.copy_rest j (by omega)]
  · rcases hlt j hj with rfl | ⟨hne, hj'⟩
    · exact htree x hx
    · obtain ⟨x', hx', hcopy⟩ := h.done j hj' x hx
      refine ⟨x', by rw [hrow j hne, hx'], hcopy.mono (hold j x hne hx) ?_ hsub⟩
      exact fun p n hp => hnew j hj' n ⟨x, x', hx, hx', p, hp⟩
  · rw [hold j x (Fin.ne_of_gt hj) hx p n hn, h.rest j (by omega) x hx p n hn]
  · rcases hlt j hj with rfl | ⟨hne, hlj⟩ <;> rcases hlt j' hj' with rfl | ⟨hne', hlj'⟩
    · rfl
    · exact absurd (htused j' hlj' n hn') (hfresh n hn)
    · exact absurd (htused j hlj n hn) (hfresh n hn')
    · exact h.apart j j' hlj hlj' n ((hcongr j hlj n).mp hn) ((hcongr j' hlj' n).mp hn')
  · rcases hlt j hj with rfl | ⟨-, hlj⟩
    · exact hfresh c hn h.copy_used.2
    · exact h.copy_apart j hlj ((hcongr j hlj c).mp hn)
  · rw [hused, h.used]
    constructor
    · rintro ((hn | rfl | ⟨j, hj, hn⟩) | hn)
      · exact Or.inl hn
      · exact Or.inr (Or.inl rfl)
      · exact Or.inr (Or.inr ⟨j, by omega, (hcongr j hj n).mpr hn⟩)
      · exact Or.inr (Or.inr ⟨i, Nat.lt_succ_self _, hn⟩)
    · rintro (hn | rfl | ⟨j, hj, hn⟩)
      · exact Or.inl (Or.inl hn)
      · exact Or.inl (Or.inr (Or.inl rfl))
      · rcases hlt j hj with rfl | ⟨-, hlj⟩
        · exact Or.inr hn
        · exact Or.inl (Or.inr (Or.inr ⟨j, hlj, (hcongr j hlj n).mp hn⟩))
  · rw [hmeta, h.meta_eq, take_finRange_succ, List.flatMap_append, addAll_append,
      List.flatMap_singleton]

variable (htree : IsTree child s.mem r d) (hu : ∀ p n, tableAt s r p = some n → s.used n)
include htree hu

omit hu in
/-- Tables under different entries differ, and none is the root. -/
theorem tables_apart {i j : Fin 512} {x y n : ℕ} {p q : List (Fin 512)}
    (hx : child (s.mem r i) = some x) (hy : child (s.mem r j) = some y)
    (hp : tableAt s x p = some n) (hq : tableAt s y q = some n) : i = j := by
  have := htree.inj (i :: p) (j :: q) n ((tableAt_child hx p).trans hp)
    ((tableAt_child hy q).trans hq)
  exact (List.cons.inj this).1

omit hu in
theorem table_ne_root {i : Fin 512} {x n : ℕ} {p : List (Fin 512)}
    (hx : child (s.mem r i) = some x) (hp : tableAt s x p = some n) : n ≠ r := by
  rintro rfl
  have := htree.inj (i :: p) [] n ((tableAt_child hx p).trans hp) rfl
  cases this

omit htree in
/-- Before the first turn the copy is a copy of the row. -/
theorem CopyLoop.start {s₁ : MemState} (ha : Allocated s c s₁) :
    CopyLoop s d r c 0 (s₁.setFrame c (s₁.mem r)) := by
  have hmem : ∀ n, s.used n → (s₁.setFrame c (s₁.mem r)).mem n = s.mem n := by
    intro n hn
    rw [setFrame_of_ne _ fun h : n = c => ha.fresh (h ▸ hn), ha.mem_eq]
  refine
    { root_row := fun i => by rw [hmem r (hu [] r rfl), if_neg (Nat.not_lt_zero _)]
      copy_leaf := fun i hi => absurd hi (Nat.not_lt_zero _)
      copy_rest := fun i _ => by rw [setFrame_self, ha.mem_eq]
      done := fun i hi => absurd hi (Nat.not_lt_zero _)
      rest := fun i _ x hx p n hn => ?_
      apart := fun i _ hi => absurd hi (Nat.not_lt_zero _)
      copy_apart := fun i hi => absurd hi (Nat.not_lt_zero _)
      copy_used := ⟨ha.fresh, ha.used_self⟩
      used := fun n => ?_
      frame := fun n hn _ => hmem n hn
      meta_eq := ha.meta_eq
      addr_eq := ha.addr_eq }
  · exact hmem n (hu (i :: p) n ((tableAt_child hx p).trans hn))
  · rw [setFrame_used, ha.used]
    simp

section Turns
variable {E : Error → MemState → Prop} {N : Panic → Prop} {i : Fin 512} {forkChild : ℕ → KM ℕ}

theorem wp_forkEntry_of_leaf (h : CopyLoop s d r c i.val t) (hc : child (s.mem r i) = none) :
    wp (PageTable.forkEntry forkChild r c i)
      (fun _ u => CopyLoop s d r c (i.val + 1) u ∧ u.frames = t.frames) E N t := by
  have hru : s.used r := hu [] r rfl
  have hrc : r ≠ c := fun hrc => h.copy_used.1 (hrc ▸ hru)
  have hri : t.mem r i = s.mem r i := by rw [h.root_row i, if_neg (lt_irrefl _)]
  have hci : t.mem c i = t.mem r i := by rw [h.copy_rest i le_rfl, hri]
  refine wp_forkEntry_leaf (by rw [hri, hc]) hci hrc fun u hframes hmeta hmem => ?_
  rw [hri] at hmeta hmem
  have hother : ∀ n, n ≠ r → n ≠ c → u.mem n = t.mem n := by
    intro n hr hc
    funext j
    rw [hmem, if_neg (by tauto)]
  have hnone : ∀ n, ¬ NewTable s u r c i n := by
    rintro n ⟨x, x', hx, -⟩
    rw [hc] at hx
    cases hx
  have hused : ∀ n, u.used n ↔ t.used n := by
    intro n
    unfold MemState.used MemState.start
    rw [hframes]
  refine ⟨?_, hframes⟩
  refine h.next (fun j => ?_) (fun j hj => ?_) (fun _ => ?_) (fun x hx => ?_) ?_ ?_ ?_ ?_ ?_ ?_ ?_
  · rw [hmem]
    by_cases hji : j = i
    · rw [if_pos ⟨Or.inl rfl, hji⟩, if_pos hji]
    · rw [if_neg fun hh => hji hh.2, if_neg hji]
  · rw [hmem, if_neg fun hh => hj hh.2]
  · rw [hmem, if_pos ⟨Or.inr rfl, rfl⟩]
  · rw [hc] at hx
    cases hx
  · intro j x _ hx p n hn
    have hns : s.used n := hu (j :: p) n ((tableAt_child hx p).trans hn)
    exact hother n (table_ne_root htree hx hn) fun hh => h.copy_used.1 (hh ▸ hns)
  · intro j hj n hn
    have hn' := hn
    obtain ⟨x, x', hx, hx', p, hp⟩ := hn'
    obtain ⟨y, hy, hcopy⟩ := h.done j hj x hx
    obtain rfl : y = x' := Option.some.inj (hy.symm.trans hx')
    refine hother n (fun hh => (hcopy.fresh p n hp).1 (hh ▸ hru)) ?_
    rintro rfl
    exact h.copy_apart j hj hn
  · intro n hn hno
    exact hother n (fun hh => hno [] (by rw [hh]; rfl)) fun hh => h.copy_used.1 (hh ▸ hn)
  · intro n
    rw [hused]
    exact ⟨Or.inl, fun hh => hh.resolve_right (hnone n)⟩
  · exact fun n hn => absurd hn (hnone n)
  · rw [hmeta, entryFrames, entryFrames, hc]
  · rw [hframes]

/-- **One turn of the loop on a pointer**, given what the recursive call does; `R` is what the call
does to the allocator. -/
theorem wp_forkEntry_of_table {e x : ℕ} {R : FrameAllocator 64 → Prop} (hp : s.Placed)
    (h : CopyLoop s (e + 1) r c i.val t) (hx : child (s.mem r i) = some x)
    (hcall : wp (forkChild (4096 * x))
      (fun pa u => ∃ x', pa = 4096 * x' ∧ ForkPost t u e x x' ∧ R u.frames) E N t) :
    wp (PageTable.forkEntry forkChild r c i)
      (fun _ u => CopyLoop s (e + 1) r c (i.val + 1) u ∧ R u.frames) E N t := by
  have hru : s.used r := hu [] r rfl
  have hsub : ∀ n, s.used n → t.used n := fun n hn => (h.used n).mpr (Or.inl hn)
  have hri : t.mem r i = s.mem r i := by rw [h.root_row i, if_neg (lt_irrefl _)]
  obtain ⟨hv, hl, hppn⟩ := child_eq_some hx
  -- the subtree has not been touched before this turn
  have hrest := h.rest i le_rfl x hx
  have htx : ∀ p, tableAt t x p = tableAt s x p := tableAt_congr hrest
  have hxu : ∀ p n, tableAt s x p = some n → s.used n := fun p n hn =>
    hu (i :: p) n ((tableAt_child hx p).trans hn)
  unfold PageTable.forkEntry
  rw [wp_bind, wp_gets, hri, hv, Bool.not_true, if_neg Bool.false_ne_true, hl,
    if_neg Bool.false_ne_true, wp_bind, physicalAddress_eq, hppn]
  refine wp_consequence hcall ?_
  rintro pa u ⟨x', rfl, hpost, hR⟩
  have hnode : ∀ n, t.used n → (∀ p, tableAt s x p ≠ some n) → u.mem n = t.mem n :=
    fun n hn hno => hpost.frame n hn fun p hp => hno p ((htx p).symm.trans hp)
  have hcs : ∀ n, s.used n → n ≠ c := fun n hn hh => h.copy_used.1 (hh ▸ hn)
  have hcu : u.mem c = t.mem c :=
    hnode c h.copy_used.2 fun p hp => h.copy_used.1 (hxu p c hp)
  have hci : u.mem c i = s.mem r i := by rw [hcu, h.copy_rest i le_rfl]
  have hx'u : u.used x' := (hpost.fresh [] x' rfl).2
  have hx'lt : x' < 2 ^ 44 := by
    have := ((hp.congr h.addr_eq).congr hpost.addr_eq).range hx'u
    omega
  rw [wp_bind, wp_gets, hci, wp_bind, wp_setPhysicalAddress, wp_modify]
  set e' := (s.mem r i).setPhysicalAddress (4096 * x') with he'
  have hchild : child e' = some x' := by
    have hbit : ∀ j < 10, e'.getLsbD j = (s.mem r i).getLsbD j := fun j hj =>
      getLsbD_setPhysicalAddress _ _ hj
    rw [child, isValid_eq, isLeaf_eq, hbit 0 (by norm_num), hbit 1 (by norm_num),
      hbit 2 (by norm_num), hbit 3 (by norm_num), ← isLeaf_eq, ← isValid_eq, hv, hl, he',
      ppn_setPhysicalAddress hx'lt]
    rfl
  -- the new subtree avoids the copied table
  have hnc : ∀ p n, tableAt u x' p = some n → n ≠ c := fun p n hn hh =>
    (hpost.fresh p n hn).1 (hh ▸ h.copy_used.2)
  have htab : ∀ p, tableAt (u.setEntry c i e') x' p = tableAt u x' p :=
    tableAt_congr fun p n hn => setEntry_of_ne (hnc p n hn)
  have hnewi : ∀ n, NewTable s (u.setEntry c i e') r c i n ↔ ∃ p, tableAt u x' p = some n := by
    intro n
    constructor
    · rintro ⟨y, y', -, hy', p, hn⟩
      rw [setEntry_self, hchild] at hy'
      obtain rfl := Option.some.inj hy'
      exact ⟨p, htab p ▸ hn⟩
    · rintro ⟨p, hn⟩
      exact ⟨x, x', hx, by rw [setEntry_self, hchild], p, by rw [htab, hn]⟩
  have hru' : u.mem r = t.mem r :=
    hnode r (hsub r hru) fun p hp => table_ne_root htree hx hp rfl
  refine ⟨?_, hR⟩
  refine h.next (fun j => ?_) (fun j hj => ?_) (fun hc => ?_) (fun y hy => ?_) ?_ ?_ ?_ ?_ ?_ ?_ ?_
  · rw [setEntry_of_ne (hcs r hru), hru']
    by_cases hji : j = i
    · rw [if_pos hji, hji, hri, sharedEntry, hl]
      rfl
    · rw [if_neg hji]
  · rw [setEntry_of_ne_index hj, hcu]
  · rw [hx] at hc
    cases hc
  · obtain rfl := Option.some.inj (hx.symm.trans hy)
    refine ⟨x', by rw [setEntry_self, hchild], ?_⟩
    refine (hpost.toTreeCopy.of_congr hrest hsub).mono (fun p n hn => ?_) (fun p n hn => ?_) ?_
    · exact setEntry_of_ne (hcs n (hxu p n hn))
    · exact setEntry_of_ne (hnc p n hn)
    · exact fun n hn => hn
  · intro j y hji hy p n hn
    have hns : s.used n := hu (j :: p) n ((tableAt_child hy p).trans hn)
    rw [setEntry_of_ne (hcs n hns)]
    exact hnode n (hsub n hns) fun q hq => hji (tables_apart htree hy hx hn hq)
  · intro j hj n hn
    have hn' := hn
    obtain ⟨y, y', hy, hy', p, hpn⟩ := hn'
    obtain ⟨z, hz, hcopy⟩ := h.done j hj y hy
    obtain rfl : z = y' := Option.some.inj (hz.symm.trans hy')
    obtain ⟨hns, hnt⟩ := hcopy.fresh p n hpn
    rw [setEntry_of_ne fun hh : n = c => h.copy_apart j hj (hh ▸ hn)]
    exact hnode n hnt fun q hq => hns (hxu q n hq)
  · intro n hn hno
    rw [setEntry_of_ne (hcs n hn)]
    exact hnode n (hsub n hn) fun p hpn => hno (i :: p) ((tableAt_child hx p).trans hpn)
  · intro n
    rw [setEntry_used, hpost.used, hnewi]
  · intro n hn
    obtain ⟨p, hpn⟩ := (hnewi n).mp hn
    exact (hpost.fresh p n hpn).1
  · rw [setEntry_pageMeta, hpost.meta_eq, userFrames_congr _ hrest, entryFrames, hx]
  · exact hpost.addr_eq

end Turns
end Loop

section Fork
variable {E : Error → MemState → Prop} {N : Panic → Prop}

/-- How many frames the allocator has left. -/
def freeCount (fa : FrameAllocator 64) : ℕ :=
  ((List.range (64 * 64)).filter fun k => !fa.isSet k).length

theorem length_freeFrames (s : MemState) : s.freeFrames.length = freeCount s.frames := by
  simp [MemState.freeFrames, freeCount]

/-- What the loop of `fork` has done after `k` entries, with the frames it took. -/
structure CountedLoop (s : MemState) (d r c k : ℕ) (t : MemState) : Prop where
  copy : CopyLoop s d r c k t
  count : freeCount s.frames = freeCount t.frames + (1 + tablesUpTo s.mem d r k)

/-- `fork` of one table, given what the turns of its loop do. -/
theorem wp_fork_of_turns {d fuel r : ℕ} {s : MemState}
    (hN : freeCount s.frames = 0 → ∀ p, OutOfMemory p → N p)
    (hp : s.Placed) (hu : ∀ p n, tableAt s r p = some n → s.used n)
    (hkeep : ∀ i, child (s.mem r i) = none → child (sharedEntry (s.mem r i)) = none)
    (hturn : ∀ c (i : Fin 512) t, CountedLoop s d r c i.val t →
      wp (PageTable.forkEntry (PageTable.fork fuel) r c i)
        (fun _ u => CountedLoop s d r c (i.val + 1) u) E N t) :
    wp (PageTable.fork (fuel + 1) (4096 * r))
      (fun pa t => ∃ r', pa = 4096 * r' ∧ ForkPost s t d r r' ∧
        freeCount s.frames = freeCount t.frames + tableCount s.mem (d + 1) r) E N s := by
  rw [PageTable.fork, wp_bind]
  refine wp_allocFrameExpect hp (fun hnil => hN ?_) fun c s₁ ha => ?_
  · rw [← length_freeFrames, hnil, List.length_nil]
  rw [wp_bind, wp_copyFrame, wp_bind, mul_pageSize_div, mul_pageSize_div]
  have hcount : freeCount s.frames = freeCount s₁.frames + 1 := by
    rw [← length_freeFrames, ← length_freeFrames, ha.taken.free_eq, List.length_append,
      List.length_singleton, Nat.add_comm]
  have hloop : wp (foldM (fun (_ : Unit) i => PageTable.forkEntry (PageTable.fork fuel) r c i)
      (List.finRange 512) ()) (fun _ t => CountedLoop s d r c 512 t) E N
      (s₁.setFrame c (s₁.mem r)) :=
    wp_foldM_finRange (fun k _ t => CountedLoop s d r c k t) (fun i _ t h => hturn c i t h) () _
      ⟨CopyLoop.start hu ha, hcount⟩
  refine wp_consequence hloop fun _ t h => ?_
  rw [wp_pure]
  refine ⟨c, rfl, h.copy.forkPost hkeep, ?_⟩
  rw [h.count, one_add_tablesUpTo]

/-- A turn on an entry that is not a pointer takes no frame. -/
theorem CountedLoop.leaf {d r c : ℕ} {s t u : MemState} {i : Fin 512}
    (h : CountedLoop s d r c i.val t) (hc : child (s.mem r i) = none)
    (hu : CopyLoop s d r c (i.val + 1) u ∧ u.frames = t.frames) :
    CountedLoop s d r c (i.val + 1) u := by
  have hnone : entryTables (tableCount s.mem d) (s.mem r i) = 0 := by rw [entryTables, hc]
  refine ⟨hu.1, ?_⟩
  rw [hu.2, h.count, tablesUpTo_succ, hnone, Nat.add_zero]

/-- **`fork` copies a tree of tables**, taking one frame for each, unless there are fewer. -/
theorem wp_fork_counted (d fuel : ℕ) (s : MemState) (r : ℕ)
    (hN : freeCount s.frames < tableCount s.mem (d + 1) r → ∀ p, OutOfMemory p → N p)
    (hfuel : d < fuel) (hp : s.Placed) (htree : IsTree child s.mem r d)
    (hu : ∀ p n, tableAt s r p = some n → s.used n)
    (hkeep : ∀ p n i, tableAt s r p = some n → child (s.mem n i) = none →
      child (sharedEntry (s.mem n i)) = none) :
    wp (PageTable.fork fuel (4096 * r))
      (fun pa t => ∃ r', pa = 4096 * r' ∧ ForkPost s t d r r' ∧
        freeCount s.frames = freeCount t.frames + tableCount s.mem (d + 1) r) E N s := by
  have hroot : freeCount s.frames = 0 → ∀ p, OutOfMemory p → N p := by
    intro hzero
    apply hN
    rw [tableCount]
    omega
  induction d generalizing fuel s r with
  | zero =>
      obtain ⟨fuel, rfl⟩ : ∃ f, fuel = f + 1 := ⟨fuel - 1, by omega⟩
      refine wp_fork_of_turns hroot hp hu (fun i => hkeep [] r i rfl) fun c i t h => ?_
      have hc := htree.child_eq_none i
      exact wp_consequence (wp_forkEntry_of_leaf htree hu h.copy hc) fun _ u hu => h.leaf hc hu
  | succ e ih =>
      obtain ⟨fuel, rfl⟩ : ∃ f, fuel = f + 1 := ⟨fuel - 1, by omega⟩
      refine wp_fork_of_turns hroot hp hu (fun i => hkeep [] r i rfl) fun c i t h => ?_
      cases hx : child (s.mem r i) with
      | none =>
          exact wp_consequence (wp_forkEntry_of_leaf htree hu h.copy hx) fun _ u hu => h.leaf hx hu
      | some x =>
          have hrest := h.copy.rest i le_rfl x hx
          have htx : ∀ p, tableAt t x p = tableAt s x p := tableAt_congr hrest
          have hsucc : tablesUpTo s.mem (e + 1) r (i.val + 1)
              = tablesUpTo s.mem (e + 1) r i.val + tableCount t.mem (e + 1) x := by
            rw [tablesUpTo_succ, entryTables, hx, tableCount_congr _ hrest]
          have hcall : wp (PageTable.fork fuel (4096 * x))
              (fun pa u => ∃ x', pa = 4096 * x' ∧ ForkPost t u e x x' ∧
                freeCount t.frames = freeCount u.frames + tableCount t.mem (e + 1) x) E N t := by
            have hN' : freeCount t.frames < tableCount t.mem (e + 1) x →
                ∀ p, OutOfMemory p → N p := by
              intro hfew
              apply hN
              have hle := one_add_tablesUpTo_le s.mem (e + 1) r (i.val + 1)
              have hcount := h.count
              omega
            refine ih fuel t x hN' (by omega) (hp.congr h.copy.addr_eq) ?_ (fun p n hn => ?_)
              (fun p n j hn => ?_) fun hzero => hN' ?_
            · exact (htree.sub hx).congr fun p n hn j => by rw [hrest p n hn]
            · have hns := hu (i :: p) n ((tableAt_child hx p).trans ((htx p).symm.trans hn))
              exact (h.copy.used n).mpr (Or.inl hns)
            · have hns := (htx p).symm.trans hn
              rw [hrest p n hns]
              exact hkeep (i :: p) n j ((tableAt_child hx p).trans hns)
            · rw [tableCount]
              omega
          refine wp_consequence (wp_forkEntry_of_table htree hu hp h.copy hx
            (R := fun fa => freeCount t.frames = freeCount fa + tableCount t.mem (e + 1) x) hcall)
            fun _ u hu => ⟨hu.1, ?_⟩
          have hcount := h.count
          have hturn := hu.2
          omega

/-- `fork` without the count. -/
theorem wp_fork (hN : ∀ p, OutOfMemory p → N p) (d fuel : ℕ) (s : MemState) (r : ℕ)
    (hfuel : d < fuel) (hp : s.Placed) (htree : IsTree child s.mem r d)
    (hu : ∀ p n, tableAt s r p = some n → s.used n)
    (hkeep : ∀ p n i, tableAt s r p = some n → child (s.mem n i) = none →
      child (sharedEntry (s.mem n i)) = none) :
    wp (PageTable.fork fuel (4096 * r))
      (fun pa t => ∃ r', pa = 4096 * r' ∧ ForkPost s t d r r') E N s := by
  refine wp_consequence (wp_fork_counted d fuel s r (fun _ => hN) hfuel hp htree hu hkeep) ?_
  rintro pa t ⟨r', hpa, hpost, -⟩
  exact ⟨r', hpa, hpost⟩

end Fork

section Shared
variable {e : PageTableEntry}

theorem sharedEntry_of_not_leaf (h : e.isLeaf = false) : sharedEntry e = e := by
  simp [sharedEntry, h]

@[simp] theorem sharedEntry_zero : sharedEntry 0 = 0 := sharedEntry_of_not_leaf (by decide)

theorem sharedEntry_of_not_user (h : e.isUser = false) : sharedEntry e = e := by
  simp [sharedEntry, h]

theorem ppn_sharedEntry (e : PageTableEntry) : (sharedEntry e).ppn = e.ppn := by
  unfold sharedEntry
  split
  · exact ppn_unsetFlags
  · rfl

/-- Only bit 2 can change. -/
theorem getLsbD_W {i : ℕ} (h2 : i ≠ 2) : PteFlags.W.getLsbD i = false := by
  have hlow : ∀ j < 8, j ≠ 2 → PteFlags.W.getLsbD j = false := by decide
  by_cases h8 : i < 8
  · exact hlow i h8 h2
  · exact BitVec.getLsbD_of_ge _ _ (by omega)

theorem getLsbD_sharedEntry {i : ℕ} (hi : i < 64) (h2 : i ≠ 2) :
    (sharedEntry e).getLsbD i = e.getLsbD i := by
  unfold sharedEntry
  split
  · rw [getLsbD_unsetFlags _ _ hi, getLsbD_W h2]
    simp
  · rfl

/-- A user leaf that is not write-only stays a user leaf. -/
theorem IsUserLeaf.sharedEntry (h : IsUserLeaf e) : IsUserLeaf (sharedEntry e) := by
  rcases h with rfl | ⟨hl, hu, hx⟩
  · exact Or.inl sharedEntry_zero
  · have hx' : ReadOrExec (Mm.sharedEntry e) := by
      rw [ReadOrExec, getLsbD_sharedEntry (by norm_num) (by norm_num),
        getLsbD_sharedEntry (by norm_num) (by norm_num)]
      exact hx
    have hv : e.getLsbD 0 = true := by rw [← isValid_eq, isValid_of_isLeaf hl]
    refine Or.inr ⟨?_, ?_, hx'⟩
    · rw [isLeaf_eq, getLsbD_sharedEntry (by norm_num) (by norm_num), hv, Bool.true_and,
        Bool.or_right_comm, hx', Bool.true_or]
    · rw [isUser_eq, getLsbD_sharedEntry (by norm_num) (by norm_num), ← isUser_eq, hu]

/-- A shared user leaf is read only. -/
theorem isWritable_sharedEntry (hl : e.isLeaf = true) (hu : e.isUser = true) :
    (sharedEntry e).isWritable = false := by
  by_cases hw : e.isWritable = true
  · rw [unsetFlags_sharedEntry hl hu hw, isWritable_eq, getLsbD_unsetFlags _ _ (by norm_num)]
    have : PteFlags.W.getLsbD 2 = true := by decide
    rw [this, Bool.not_true, Bool.and_false]
  · rw [Bool.not_eq_true] at hw
    simp [sharedEntry, hw]

theorem IsPointer.sharedEntry_eq (h : IsPointer e) : sharedEntry e = e := by
  rcases h with rfl | ⟨n, hn⟩
  · exact sharedEntry_zero
  · exact sharedEntry_of_not_leaf (child_eq_some hn).2.1

theorem sharedEntry_eq_zero_iff (h : IsUserLeaf e) : sharedEntry e = 0 ↔ e = 0 := by
  constructor
  · intro h0
    rcases h with rfl | ⟨-, hu, -⟩
    · rfl
    · have : (sharedEntry e).isUser = true := by
        rw [isUser_eq, getLsbD_sharedEntry (by norm_num) (by norm_num), ← isUser_eq, hu]
      rw [h0] at this
      cases this
  · rintro rfl
    exact sharedEntry_zero

end Shared

section ForkedShape
variable {s t : MemState} {r r' : ℕ}

/-- No entry of a well-shaped tree turns into a pointer. -/
theorem Shape.child_sharedEntry (hs : Shape s r) (p : List (Fin 512)) (n : ℕ) (i : Fin 512)
    (hp : tableAt s r p = some n) : child (sharedEntry (s.mem n i)) = child (s.mem n i) := by
  have hlen := hs.tree.depth p n hp
  match p with
  | [] =>
      obtain rfl := Option.some.inj hp
      by_cases hi : i.val < 256
      · rw [(hs.user i hi).sharedEntry_eq]
      · rw [hs.kernel i (by omega), sharedEntry_of_not_user (isUser_kernelEntry i)]
  | [a] => rw [(hs.middle a n i hp).sharedEntry_eq]
  | [a, b] =>
      have hb := hs.bottom a b n i hp
      rw [hb.sharedEntry.child_eq_none, hb.child_eq_none]
  | _ :: _ :: _ :: _ => simp at hlen

variable (hs : Shape s r) (h : ForkPost s t 2 r r')
include hs h

theorem ForkPost.tableAt_old (p : List (Fin 512)) : tableAt t r p = tableAt s r p :=
  nodeAt_congr (fun q n hq i => by rw [h.old q n hq, hs.child_sharedEntry q n i hq]) p

theorem ForkPost.pteAt_old (v : Vpn) : pteAt t r v = sharedEntry (pteAt s r v) := by
  unfold pteAt
  rw [h.tableAt_old hs]
  cases hn : tableAt s r [v.1, v.2.1] with
  | none => exact sharedEntry_zero.symm
  | some n => exact h.old _ n hn _

theorem ForkPost.pteAt_new (v : Vpn) : pteAt t r' v = sharedEntry (pteAt s r v) := by
  unfold pteAt
  cases hn : tableAt s r [v.1, v.2.1] with
  | none =>
      rw [h.dom _ hn]
      exact sharedEntry_zero.symm
  | some n =>
      obtain ⟨n', hn', hrow⟩ := h.new _ n hn
      rw [hn']
      exact hrow _ (hs.bottom _ _ n _ hn).child_eq_none

theorem ForkPost.shape_old : Shape t r := by
  have htab := h.tableAt_old hs
  refine ⟨⟨fun p q n hp hq => hs.tree.inj p q n ((htab p).symm.trans hp) ((htab q).symm.trans hq),
      fun p n hp => hs.tree.depth p n ((htab p).symm.trans hp)⟩,
    fun p n hp => (h.used n).mpr (Or.inl (hs.used p n ((htab p).symm.trans hp))),
    fun i hi => ?_, fun i hi => ?_, fun a n i hn => ?_, fun a b n i hn => ?_⟩
  · rw [h.old [] r rfl, (hs.user i hi).sharedEntry_eq]
    exact hs.user i hi
  · rw [h.old [] r rfl, hs.kernel i hi, sharedEntry_of_not_user (isUser_kernelEntry i)]
  · rw [htab] at hn
    rw [h.old _ n hn, (hs.middle a n i hn).sharedEntry_eq]
    exact hs.middle a n i hn
  · rw [htab] at hn
    rw [h.old _ n hn]
    exact (hs.bottom a b n i hn).sharedEntry

omit hs in
/-- Every table of the copy copies a table. -/
theorem ForkPost.exists_old {p : List (Fin 512)} {n' : ℕ} (hp : tableAt t r' p = some n') :
    ∃ n, tableAt s r p = some n ∧
      ∀ i, child (s.mem n i) = none → t.mem n' i = sharedEntry (s.mem n i) := by
  cases hn : tableAt s r p with
  | none => rw [h.dom p hn] at hp; cases hp
  | some n =>
      obtain ⟨m, hm, hrow⟩ := h.new p n hn
      obtain rfl : m = n' := Option.some.inj (hm.symm.trans hp)
      exact ⟨n, rfl, hrow⟩

omit hs in
/-- A pointer of the old tree is a pointer of the copy. -/
theorem ForkPost.isPointer_new {p : List (Fin 512)} {n n' : ℕ} {i : Fin 512}
    (hp : tableAt s r p = some n) (hp' : tableAt t r' p = some n') (he : IsPointer (s.mem n i)) :
    IsPointer (t.mem n' i) := by
  obtain ⟨m, hm, hrow⟩ := h.exists_old hp'
  obtain rfl : m = n := Option.some.inj (hm.symm.trans hp)
  cases hc : child (s.mem m i) with
  | none =>
      rcases he with h0 | ⟨x, hx⟩
      · left
        rw [hrow i hc, h0, sharedEntry_zero]
      · rw [hc] at hx; cases hx
  | some x =>
      have hx : tableAt s r (p ++ [i]) = some x := by
        rw [tableAt, nodeAt_concat, show nodeAt child s.mem r p = some m from hm,
          Option.bind_some, hc]
      obtain ⟨x', hx', -⟩ := h.new _ x hx
      rw [tableAt, nodeAt_concat, show nodeAt child t.mem r' p = some n' from hp',
        Option.bind_some] at hx'
      exact Or.inr ⟨x', hx'⟩

theorem ForkPost.shape_new : Shape t r' := by
  have hroot : tableAt t r' [] = some r' := rfl
  refine ⟨⟨h.inj, fun p n hp => ?_⟩, fun p n hp => (h.fresh p n hp).2, fun i hi => ?_,
    fun i hi => ?_, fun a n i hn => ?_, fun a b n i hn => ?_⟩
  · obtain ⟨m, hm, -⟩ := h.exists_old hp
    exact hs.tree.depth p m hm
  · exact h.isPointer_new rfl hroot (hs.user i hi)
  · obtain ⟨m, hm, hrow⟩ := h.exists_old hroot
    obtain rfl : m = r := Option.some.inj hm.symm
    rw [hrow i (by rw [hs.kernel i hi, child_kernelEntry]), hs.kernel i hi,
      sharedEntry_of_not_user (isUser_kernelEntry i)]
  · obtain ⟨m, hm, -⟩ := h.exists_old hn
    exact h.isPointer_new hm hn (hs.middle a m i hm)
  · obtain ⟨m, hm, hrow⟩ := h.exists_old hn
    have hb := hs.bottom a b m i hm
    rw [hrow i hb.child_eq_none]
    exact hb.sharedEntry

end ForkedShape

section Counting
variable {s : MemState} {r : ℕ}

/-- Counting frames that are all different bumps each of them once. -/
theorem addAll_of_nodup {fs : List ℕ} (hnd : fs.Nodup) (m : ℕ → Option UInt16) (f : ℕ) :
    addAll fs m (4096 * f) =
      if f ∈ fs then some (Page.bump (m (4096 * f))) else m (4096 * f) := by
  induction fs generalizing m with
  | nil => simp [addAll]
  | cons g fs ih =>
      have hrec : addAll (g :: fs) m =
          addAll fs (Function.update m (4096 * g) (some (Page.bump (m (4096 * g))))) := rfl
      obtain ⟨hg, hnd'⟩ := List.nodup_cons.mp hnd
      rw [hrec, ih hnd']
      by_cases hfg : f = g
      · subst hfg
        rw [if_neg hg, Function.update_self, if_pos List.mem_cons_self]
      · have haddr : 4096 * f ≠ 4096 * g := by omega
        rw [Function.update_of_ne haddr]
        simp [List.mem_cons, hfg]

/-- The frames of one bottom-level entry. -/
theorem IsUserLeaf.entryFrames_eq {e : PageTableEntry} (h : IsUserLeaf e) (below : ℕ → List ℕ) :
    entryFrames below e = if e = 0 then [] else [e.ppn] := by
  rw [entryFrames, h.child_eq_none]
  rcases h with rfl | ⟨hl, hu, -⟩
  · rfl
  · have hne : e ≠ 0 := by
      rintro rfl
      cases hl
    rw [hl, hu, if_neg hne]
    rfl

/-- The frames of a well-shaped tree, page by page. -/
theorem Shape.userFrames_eq (hs : Shape s r) :
    userFrames s.mem 3 r = (List.finRange 512).flatMap fun a =>
      (List.finRange 512).flatMap fun b => (List.finRange 512).flatMap fun c =>
        if pteAt s r (a, b, c) = 0 then [] else [(pteAt s r (a, b, c)).ppn] := by
  have hempty : ∀ a b, tableAt s r [a, b] = none →
      ((List.finRange 512).flatMap fun c =>
        if pteAt s r (a, b, c) = 0 then [] else [(pteAt s r (a, b, c)).ppn]) = [] := by
    intro a b hn
    refine List.flatMap_eq_nil_iff.mpr fun c _ => ?_
    rw [if_pos (by simp only [pteAt, hn])]
  rw [userFrames]
  refine List.flatMap_congr fun a _ => ?_
  cases ha : child (s.mem r a) with
  | none =>
      have hnone : ∀ b, tableAt s r [a, b] = none := fun b => by
        rw [tableAt_cons, ha, Option.bind_none]
      have hnil : entryFrames (userFrames s.mem 2) (s.mem r a) = [] := by
        rw [entryFrames, ha]
        by_cases hlow : a.val < 256
        · rcases hs.user a hlow with h0 | ⟨n, hn⟩
          · rw [h0]; rfl
          · rw [ha] at hn; cases hn
        · rw [hs.kernel a (by omega), isUser_kernelEntry, Bool.and_false]
          rfl
      rw [hnil, List.flatMap_eq_nil_iff.mpr fun b _ => hempty a b (hnone b)]
  | some l1 =>
      have hl1 : tableAt s r [a] = some l1 := tableAt_child ha []
      rw [entryFrames, ha]
      simp only [userFrames]
      refine List.flatMap_congr fun b _ => ?_
      cases hb : child (s.mem l1 b) with
      | none =>
          have hnone : tableAt s r [a, b] = none := by
            rw [tableAt_child ha, tableAt_cons, hb, Option.bind_none]
          rw [entryFrames, hb, hempty a b hnone]
          rcases hs.middle a l1 b hl1 with h0 | ⟨n, hn⟩
          · rw [h0]; rfl
          · rw [hb] at hn; cases hn
      | some l0 =>
          have hl0 : tableAt s r [a, b] = some l0 := by
            rw [tableAt_child ha, tableAt_child hb]
            rfl
          rw [entryFrames, hb]
          simp only
          refine List.flatMap_congr fun c _ => ?_
          have hpte : pteAt s r (a, b, c) = s.mem l0 c := pteAt_of_tableAt hl0
          rw [hpte]
          exact (hs.bottom a b l0 c hl0).entryFrames_eq _

theorem Shape.mem_userFrames (hs : Shape s r) (f : ℕ) :
    f ∈ userFrames s.mem 3 r ↔ ∃ v, pteAt s r v ≠ 0 ∧ (pteAt s r v).ppn = f := by
  rw [hs.userFrames_eq]
  simp only [List.mem_flatMap, List.mem_finRange, true_and]
  constructor
  · rintro ⟨a, b, c, h⟩
    split at h
    · cases h
    · exact ⟨(a, b, c), ‹_›, (List.mem_singleton.mp h).symm⟩
  · rintro ⟨⟨a, b, c⟩, hne, rfl⟩
    exact ⟨a, b, c, by rw [if_neg hne]; exact List.mem_singleton_self _⟩

/-- A tree that maps no frame twice counts no frame twice. -/
theorem Shape.nodup_userFrames (hs : Shape s r)
    (hinj : ∀ v w, pteAt s r v ≠ 0 → pteAt s r w ≠ 0 →
      (pteAt s r v).ppn = (pteAt s r w).ppn → v = w) : (userFrames s.mem 3 r).Nodup := by
  have hmem : ∀ (a b c : Fin 512) f,
      f ∈ (if pteAt s r (a, b, c) = 0 then [] else [(pteAt s r (a, b, c)).ppn]) →
      pteAt s r (a, b, c) ≠ 0 ∧ (pteAt s r (a, b, c)).ppn = f := by
    intro a b c f h
    split at h
    · cases h
    · exact ⟨‹_›, (List.mem_singleton.mp h).symm⟩
  have hsame : ∀ {a b c a' b' c' : Fin 512} {f},
      f ∈ (if pteAt s r (a, b, c) = 0 then [] else [(pteAt s r (a, b, c)).ppn]) →
      f ∈ (if pteAt s r (a', b', c') = 0 then [] else [(pteAt s r (a', b', c')).ppn]) →
      a = a' ∧ b = b' ∧ c = c' := by
    intro a b c a' b' c' f h h'
    obtain ⟨hne, hf⟩ := hmem a b c f h
    obtain ⟨hne', hf'⟩ := hmem a' b' c' f h'
    have := hinj _ _ hne hne' (hf.trans hf'.symm)
    simpa [Prod.ext_iff] using this
  have hfin : (List.finRange 512).Pairwise (· ≠ ·) := List.nodup_finRange 512
  rw [hs.userFrames_eq]
  refine List.nodup_flatMap.mpr ⟨fun a _ => List.nodup_flatMap.mpr ⟨fun b _ =>
    List.nodup_flatMap.mpr ⟨fun c _ => ?_, ?_⟩, ?_⟩, ?_⟩
  · split <;> simp
  · refine hfin.imp fun hne f h h' => ?_
    exact hne (hsame h h').2.2
  · refine hfin.imp fun hne f h h' => ?_
    obtain ⟨c, -, hc⟩ := List.mem_flatMap.mp h
    obtain ⟨c', -, hc'⟩ := List.mem_flatMap.mp h'
    exact hne (hsame hc hc').2.1
  · refine hfin.imp fun hne f h h' => ?_
    obtain ⟨b, -, hb⟩ := List.mem_flatMap.mp h
    obtain ⟨b', -, hb'⟩ := List.mem_flatMap.mp h'
    obtain ⟨c, -, hc⟩ := List.mem_flatMap.mp hb
    obtain ⟨c', -, hc'⟩ := List.mem_flatMap.mp hb'
    exact hne (hsame hc hc').1

end Counting
end Efiks.Mm

import Efiks.Mm.LevelSteps
import Efiks.Mm.ForkTables

/-!
# Fork keeps the levels

`PageTable::fork` copies a table of some level and, for every entry that reads as a
pointer, the frame one level below. A page that may be written only reads as a pointer
after its first fork, so the recursion may reach data frames: they are zero, and their
copies are zero frames that no count knows of.

While a table is copied, its copy has no level yet. The entries that are done satisfy what
its level asks for, and the references they hold are counted as not finished.

## Main definitions

* `Copying` — the state of the loop of `fork`.
* `ForkedAt` — what `fork` leaves.

## Main results

* `wp_fork_typed`.
-/
namespace Efiks.Mm
open Lib Lib.RustM PageTableEntry

/-- The part of the copy of a table that counts after `j` entries: the kernel half of a
root is right from the start. -/
def partialRow (k j : ℕ) (F : Frame) : Frame := fun i =>
  if i.val < j ∨ (k = 3 ∧ 256 ≤ i.val) then F i else 0

/-- A finished entry of the copy leads to `f`. -/
def DoneRef (k j : ℕ) (F : Frame) (f : ℕ) : Prop :=
  k = 1 ∧ ∃ i : Fin 512, i.val < j ∧ F i ≠ 0 ∧ (F i).ppn = f

instance (k j : ℕ) (F : Frame) (f : ℕ) : Decidable (DoneRef k j F f) :=
  inferInstanceAs (Decidable (k = 1 ∧ ∃ i : Fin 512, i.val < j ∧ F i ≠ 0 ∧ (F i).ppn = f))

/-- What stays as it was while frames up to level `k` are copied. -/
structure LevelFrame (s : MemState) (lvl : Levels) (k : ℕ) (t : MemState) (lvl' : Levels) : Prop where
  keep : ∀ n a, lvl n = some a → lvl' n = some a
  new : ∀ n a, lvl' n = some a → lvl n = some a ∨ ¬ s.used n
  used : ∀ n, s.used n → t.used n
  frame : ∀ n, s.used n → (∀ a, lvl n = some a → k < a) → t.mem n = s.mem n
  meta_none : ∀ f, t.pageMeta (4096 * f) = none ↔ s.pageMeta (4096 * f) = none

/-- The frame `c` is a copy of a frame of level `k`. -/
structure ForkedAt (s : MemState) (lvl : Levels) (extra : ℕ → ℕ) (k c : ℕ) (t : MemState)
    (lvl' : Levels) : Prop extends LevelFrame s lvl k t lvl' where
  typed : Typed t lvl' extra
  level : lvl' c = some k
  fresh : ¬ s.used c

/-- Entries up to `j` of the table `r` of level `k` were copied to the frame `c`. -/
structure Copying (s : MemState) (lvl : Levels) (extra : ℕ → ℕ) (k r c j : ℕ) (t : MemState)
    (lvl' : Levels) : Prop extends LevelFrame s lvl k t lvl' where
  typed : Typed t lvl' fun f => extra f + if DoneRef k j (t.mem c) f then 1 else 0
  level : lvl' c = none
  used_c : t.used c
  source : ∀ i : Fin 512, j ≤ i.val → t.mem r i = s.mem r i
  rest : ∀ i : Fin 512, j ≤ i.val → t.mem c i = s.mem r i
  done : RowOk lvl' t.pageMeta k (partialRow k j (t.mem c))
  origin : k = 1 → ∀ i : Fin 512, i.val < j → t.mem c i ≠ 0 →
    (s.mem r i ≠ 0 ∧ (t.mem c i).ppn = (s.mem r i).ppn) ∨ ¬ s.used (t.mem c i).ppn

section Frame
variable {s t u : MemState} {lvl lvl' lvl'' : Levels} {k k' : ℕ}

theorem LevelFrame.trans (h : LevelFrame s lvl k t lvl') (h' : LevelFrame t lvl' k' u lvl'')
    (hk : k' ≤ k) : LevelFrame s lvl k u lvl'' where
  keep n a hn := h'.keep n a (h.keep n a hn)
  new n a hn := by
    rcases h'.new n a hn with hn | hn
    · exact h.new n a hn
    · exact Or.inr fun hu => hn (h.used n hu)
  used n hn := h'.used n (h.used n hn)
  frame n hn hlvl := by
    rw [h'.frame n (h.used n hn) fun a ha => ?_, h.frame n hn hlvl]
    rcases h.new n a ha with ha | ha
    · exact lt_of_le_of_lt hk (hlvl a ha)
    · exact absurd hn ha
  meta_none f := (h'.meta_none f).trans (h.meta_none f)

/-- Frames that are not used, or have no level, may change. -/
theorem LevelFrame.setEntry {c : ℕ} {i : Fin 512} {e : PageTableEntry}
    (h : LevelFrame s lvl k t lvl') (hc : ¬ s.used c) :
    LevelFrame s lvl k (t.setEntry c i e) lvl' where
  keep := h.keep
  new := h.new
  used := h.used
  frame n hn hlvl := by
    rw [setEntry_of_ne fun hnc : n = c => hc (hnc ▸ hn)]
    exact h.frame n hn hlvl
  meta_none := h.meta_none

end Frame

section Rows
variable {lvl : Levels} {M : ℕ → Option UInt16} {k : ℕ} {F G : Frame} {i : Fin 512}
variable {e : PageTableEntry}

theorem kernelEntry_lower (hi : i.val < 256) : kernelEntry i = 0 := by
  rw [kernelEntry, if_neg (by omega), if_neg (by omega)]
  rfl

theorem kernelEntry_cases (i : Fin 512) :
    kernelEntry i = 0 ∨ ((kernelEntry i).isLeaf = true ∧ (kernelEntry i).isUser = false) := by
  unfold kernelEntry
  split
  · refine Or.inr ⟨leafEntry_isLeaf _ (by decide), ?_⟩
    rw [leafEntry_isUser]
    decide
  · split
    · refine Or.inr ⟨leafEntry_isLeaf _ (by decide), ?_⟩
      rw [leafEntry_isUser]
      decide
    · exact Or.inl rfl

/-- The entries `fork` can meet in a row. -/
theorem RowOk.entry_cases (h : RowOk lvl M k F) (i : Fin 512) :
    F i = 0 ∨ (k = 3 ∧ 256 ≤ i.val ∧ (F i).isLeaf = true ∧ (F i).isUser = false) ∨
      (k = 1 ∧ (F i).isLeaf = true ∧ (F i).isUser = true ∧ lvl (F i).ppn = some 0 ∧
        M (4096 * (F i).ppn) ≠ none) ∨
      (1 ≤ k ∧ (k = 3 → i.val < 256) ∧ (k = 1 → (F i).isUser = true) ∧
        ∃ m, child (F i) = some m ∧ lvl m = some (k - 1)) := by
  have hbound := h.bound
  by_cases hk2 : 2 ≤ k
  · by_cases hi : k = 3 ∧ 256 ≤ i.val
    · rw [h.root hi.1 i hi.2]
      exact (kernelEntry_cases i).imp id fun hl => Or.inl ⟨hi.1, hi.2, hl⟩
    · have hlow : k = 3 → i.val < 256 := fun h3 => by
        by_contra hge
        exact hi ⟨h3, by omega⟩
      exact (h.table hk2 i hlow).imp id fun hm =>
        Or.inr (Or.inr ⟨by omega, hlow, fun h1 => by omega, hm⟩)
  · by_cases hk1 : k = 1
    · rcases h.bottom hk1 i with h0 | ⟨hv, hu, hf, hcount⟩
      · exact Or.inl h0
      · by_cases hl : (F i).isLeaf = true
        · exact Or.inr (Or.inr (Or.inl ⟨hk1, hl, hu, hf, hcount hl⟩))
        · rw [Bool.not_eq_true] at hl
          refine Or.inr (Or.inr (Or.inr ⟨by omega, fun h3 => by omega, fun _ => hu, (F i).ppn, ?_, ?_⟩))
          · rw [child, hv, hl]
            rfl
          · rw [hk1]
            exact hf
    · rw [h.data (by omega)]
      exact Or.inl rfl

theorem partialRow_zero_of_ne (hk : k ≠ 3) : partialRow k 0 F = fun _ => 0 := by
  funext i
  rw [partialRow, if_neg]
  rintro (h | h)
  · omega
  · exact hk h.1

theorem partialRow_full : partialRow k 512 F = F := by
  funext i
  rw [partialRow, if_pos (Or.inl i.isLt)]

/-- One more entry is done. -/
theorem partialRow_succ (hsame : ∀ j : Fin 512, j ≠ i → G j = F j) :
    partialRow k (i.val + 1) G = Function.update (partialRow k i.val F) i (G i) := by
  funext j
  by_cases hji : j = i
  · rw [hji, Function.update_self, partialRow, if_pos (Or.inl (by omega))]
  · have hne : j.val ≠ i.val := fun h => hji (Fin.ext h)
    rw [Function.update_of_ne hji, partialRow, partialRow, hsame j hji]
    exact if_congr (or_congr_left ⟨fun h => by omega, fun h => by omega⟩) rfl rfl

/-- Nothing is to do for an entry that is empty or the kernel's. -/
theorem partialRow_skip (h : F i = 0 ∨ (k = 3 ∧ 256 ≤ i.val)) :
    partialRow k (i.val + 1) F = partialRow k i.val F := by
  funext j
  unfold partialRow
  by_cases hji : j = i
  · rw [hji, if_pos (Or.inl (by omega))]
    rcases h with h | h
    · split
      · rfl
      · exact h
    · rw [if_pos (Or.inr h)]
  · have hne : j.val ≠ i.val := fun h => hji (Fin.ext h)
    exact if_congr (or_congr_left ⟨fun h => by omega, fun h => by omega⟩) rfl rfl

/-- The references of one more entry. -/
theorem doneRef_succ (hsame : ∀ j : Fin 512, j ≠ i → G j = F j) (f : ℕ) :
    DoneRef k (i.val + 1) G f ↔ DoneRef k i.val F f ∨ (k = 1 ∧ G i ≠ 0 ∧ (G i).ppn = f) := by
  unfold DoneRef
  constructor
  · rintro ⟨hk, j, hj, hne, hp⟩
    by_cases hji : j = i
    · rw [hji] at hne hp
      exact Or.inr ⟨hk, hne, hp⟩
    · have hne' : j.val ≠ i.val := fun h => hji (Fin.ext h)
      rw [hsame j hji] at hne hp
      exact Or.inl ⟨hk, j, by omega, hne, hp⟩
  · rintro (⟨hk, j, hj, hne, hp⟩ | ⟨hk, hne, hp⟩)
    · have hji : j ≠ i := fun h => by
        rw [h] at hj
        omega
      exact ⟨hk, j, by omega, by rwa [hsame j hji], by rwa [hsame j hji]⟩
    · exact ⟨hk, i, by omega, hne, hp⟩

end Rows

section Loop
variable {s t : MemState} {lvl lvl' : Levels} {extra : ℕ → ℕ} {k r c fuel : ℕ} {i : Fin 512}

/-- The loop starts with a verbatim copy. -/
theorem Copying.start {s₁ : MemState} (h : Typed s lvl extra) (hr : lvl r = some k)
    (ha : Allocated s c s₁) :
    Copying s lvl extra k r c 0 (s₁.setFrame c (s₁.mem r)) lvl := by
  have hrow := h.row r k hr
  have hrc : r ≠ c := fun hrc : r = c => ha.fresh (hrc ▸ h.used r k hr)
  have hcopy : (s₁.setFrame c (s₁.mem r)).mem c = s.mem r := by
    rw [setFrame_self, ha.mem_eq]
  have hmem : ∀ n, n ≠ c → (s₁.setFrame c (s₁.mem r)).mem n = s.mem n := fun n hn => by
    rw [setFrame_of_ne _ hn, ha.mem_eq]
  have hmeta : (s₁.setFrame c (s₁.mem r)).pageMeta = s.pageMeta := by
    rw [setFrame_pageMeta, ha.meta_eq]
  have htyped : Typed (s₁.setFrame c (s₁.mem r)) lvl extra :=
    h.congr (fun n j hn => hmem n fun hnc : n = c => ha.fresh (hnc ▸ h.used n j hn))
      (fun n hn => (ha.used n).mpr (Or.inl hn)) hmeta ha.addr_eq
  refine
    { typed := htyped.extra_congr fun f _ => ?_
      level := h.level_none ha.fresh
      used_c := ha.used_self
      source := fun j _ => by rw [hmem r hrc]
      rest := fun j _ => by rw [hcopy]
      done := ?_
      origin := fun _ j hj => by omega
      keep := fun n a hn => hn
      new := fun n a hn => Or.inl hn
      used := fun n hn => (ha.used n).mpr (Or.inl hn)
      frame := fun n hn _ => hmem n fun hnc : n = c => ha.fresh (hnc ▸ hn)
      meta_none := fun f => by rw [hmeta] }
  · rw [if_neg, Nat.add_zero]
    rintro ⟨-, j, hj, -⟩
    omega
  · rw [hcopy, hmeta]
    by_cases h3 : k = 3
    · have hk : partialRow k 0 (s.mem r) = kernelEntry := by
        funext j
        unfold partialRow
        by_cases hj : 256 ≤ j.val
        · rw [if_pos (Or.inr ⟨h3, hj⟩), hrow.root h3 j hj]
        · rw [if_neg (by omega), kernelEntry_lower (by omega)]
      rw [hk, h3]
      exact rowOk_kernel
    · rw [partialRow_zero_of_ne h3]
      exact rowOk_zero (by have := hrow.bound; omega)

/-- An entry that is empty or the kernel's is left alone. -/
theorem Copying.skip (h : Copying s lvl extra k r c i.val t lvl')
    (hskip : t.mem c i = 0 ∨ (k = 3 ∧ 256 ≤ i.val)) :
    Copying s lvl extra k r c (i.val + 1) t lvl' where
  toLevelFrame := h.toLevelFrame
  typed := by
    refine h.typed.extra_congr fun f _ => ?_
    have hiff : DoneRef k (i.val + 1) (t.mem c) f ↔ DoneRef k i.val (t.mem c) f := by
      rw [doneRef_succ (F := t.mem c) (i := i) (fun _ _ => rfl)]
      refine ⟨fun hd => hd.elim id fun hd => ?_, Or.inl⟩
      rcases hskip with h0 | ⟨h3, -⟩
      · exact absurd h0 hd.2.1
      · omega
    simp only [hiff]
  level := h.level
  used_c := h.used_c
  source j hj := h.source j (by omega)
  rest j hj := h.rest j (by omega)
  done := by
    rw [partialRow_skip hskip]
    exact h.done
  origin hk j hj hne := by
    by_cases hji : j.val < i.val
    · exact h.origin hk j hji hne
    · obtain rfl : j = i := Fin.ext (by omega)
      rcases hskip with h0 | ⟨h3, -⟩
      · exact absurd h0 hne
      · omega

section Share
variable {t' : MemState} (hs : Typed s lvl fun _ => 0) (hr : lvl r = some 1) (hc : ¬ s.used c)
variable (h : Copying s lvl (fun _ => 0) 1 r c i.val t lvl')
variable (hl : (s.mem r i).isLeaf = true) (hu : (s.mem r i).isUser = true)
variable (hframes : t'.frames = t.frames) (hmeta : t'.pageMeta =
  Function.update t.pageMeta (4096 * (s.mem r i).ppn)
    (some (Page.bump (t.pageMeta (4096 * (s.mem r i).ppn)))))
variable (hmem : ∀ n j, t'.mem n j =
  if (n = r ∨ n = c) ∧ j = i then sharedEntry (s.mem r i) else t.mem n j)

theorem sharedEntry_facts {e : PageTableEntry} (hl : e.isLeaf = true) (hu : e.isUser = true) :
    (sharedEntry e).isValid = true ∧ (sharedEntry e).isUser = true ∧ sharedEntry e ≠ 0 := by
  have hv : (sharedEntry e).isValid = true := by
    rw [isValid_eq, getLsbD_sharedEntry (by norm_num) (by norm_num), ← isValid_eq,
      isValid_of_isLeaf hl]
  refine ⟨hv, ?_, ne_zero_of_isValid hv⟩
  rw [isUser_eq, getLsbD_sharedEntry (by norm_num) (by norm_num), ← isUser_eq, hu]

include hs hr h hl in
/-- The frame of a page is not yet in the copy. -/
theorem Copying.not_doneRef : ¬ DoneRef 1 i.val (t.mem c) (s.mem r i).ppn := by
  have hrow := hs.row r 1 hr
  have hne := ne_zero_of_isValid (isValid_of_isLeaf hl)
  rintro ⟨-, j, hj, hjne, hp⟩
  rcases h.origin rfl j hj hjne with ⟨hsj, hp'⟩ | hfresh
  · have hji := hrow.inj rfl j i hsj hne (hp'.symm.trans hp)
    rw [hji] at hj
    omega
  · rw [hp] at hfresh
    exact hfresh (hs.used _ 0 (hs.refers_level hr ⟨i, hne, rfl⟩))

include hs hr hc h hl hu hframes hmeta hmem

theorem Copying.share_typed :
    Typed t' lvl' fun f => 0 + if DoneRef 1 (i.val + 1) (t'.mem c) f then 1 else 0 := by
  have hr' := h.keep r 1 hr
  obtain ⟨hv', hu', hne'⟩ := sharedEntry_facts hl hu
  have hne := ne_zero_of_isValid (isValid_of_isLeaf hl)
  have hsrc : t.mem r i = s.mem r i := h.source i le_rfl
  have hcr : c ≠ r := fun hcr : c = r => hc (hcr ▸ hs.used r 1 hr)
  have hcount : t.pageMeta (4096 * (s.mem r i).ppn) ≠ none := by
    rcases (h.typed.row r 1 hr').bottom rfl i with h0 | ⟨-, -, -, hcount⟩
    · rw [hsrc] at h0
      exact absurd h0 hne
    · rw [hsrc] at hcount
      exact hcount hl
  obtain ⟨m, hm⟩ := Option.ne_none_iff_exists'.mp hcount
  have hrefs := h.typed.refs _ m hm
  rw [if_neg (h.not_doneRef hs hr hl)] at hrefs
  have hle : (holders t lvl' (s.mem r i).ppn).card ≤ 4096 := card_holders_le
  have hbump : (Page.bump (some m)).toNat = m.toNat + 1 := by
    change (m + 1).toNat = _
    rw [UInt16.toNat_add, Nat.mod_eq_of_lt]
    · rfl
    · change m.toNat + 1 < 65536
      omega
  rw [hm] at hmeta
  have hci : t'.mem c i = sharedEntry (s.mem r i) := by rw [hmem, if_pos ⟨Or.inr rfl, rfl⟩]
  have hcj : ∀ j : Fin 512, j ≠ i → t'.mem c j = t.mem c j := fun j hj => by
    rw [hmem, if_neg fun hh => hj hh.2]
  have hdone : ∀ f, DoneRef 1 (i.val + 1) (t'.mem c) f ↔
      DoneRef 1 i.val (t.mem c) f ∨ (s.mem r i).ppn = f := by
    intro f
    rw [doneRef_succ hcj, hci, ppn_sharedEntry]
    exact or_congr_right ⟨fun hh => hh.2.2, fun hh => ⟨rfl, hne', hh⟩⟩
  -- the count, then the entry of the parent, then the copy
  have h₁ : Typed (Page.set (4096 * (s.mem r i).ppn) (some (Page.bump (some m))) t) lvl'
      fun f => 0 + if DoneRef 1 (i.val + 1) (t'.mem c) f then 1 else 0 := by
    refine h.typed.recount (h.typed.meta_used _ hcount) (fun g hg _ => ?_) ?_
    · have hiff : DoneRef 1 (i.val + 1) (t'.mem c) g ↔ DoneRef 1 i.val (t.mem c) g := by
        rw [hdone]
        exact ⟨fun hh => hh.elim id fun hh => absurd hh.symm hg, Or.inl⟩
      simp only [hiff]
    · rw [if_pos ((hdone _).mpr (Or.inr rfl)), hbump]
      omega
  have h₂ := h₁.flagged (e := sharedEntry (s.mem r i)) (i := i) hr'
    (by rw [pageSet_mem, hsrc]; exact hne) hv' hu' (by rw [pageSet_mem, hsrc, ppn_sharedEntry])
    fun _ => by rw [ppn_sharedEntry, pageSet_self]; exact nofun
  refine h₂.congr (fun n j hn => ?_) (fun n hn => ?_) ?_ ?_
  · have hnc : n ≠ c := fun hnc : n = c => by
      rw [hnc, h.level] at hn
      cases hn
    funext a
    rw [hmem]
    by_cases hnr : n = r
    · rw [hnr]
      by_cases ha : a = i
      · rw [ha, if_pos ⟨Or.inl rfl, rfl⟩, setEntry_self]
      · rw [if_neg fun hh => ha hh.2, setEntry_of_ne_index ha, pageSet_mem]
    · rw [if_neg fun hh => hh.1.elim hnr hnc, setEntry_of_ne hnr, pageSet_mem]
  · unfold MemState.used MemState.start at hn ⊢
    rw [hframes]
    exact hn
  · rw [hmeta]
    rfl
  · rw [hframes]
    rfl

theorem Copying.share : Copying s lvl (fun _ => 0) 1 r c (i.val + 1) t' lvl' := by
  have hr' := h.keep r 1 hr
  obtain ⟨hv', hu', hne'⟩ := sharedEntry_facts hl hu
  have hne := ne_zero_of_isValid (isValid_of_isLeaf hl)
  have hf := hs.refers_level hr ⟨i, hne, rfl⟩
  have hcr : c ≠ r := fun hcr : c = r => hc (hcr ▸ hs.used r 1 hr)
  have hused : ∀ n, t'.used n ↔ t.used n := fun n => by
    unfold MemState.used MemState.start
    rw [hframes]
  have hci : t'.mem c i = sharedEntry (s.mem r i) := by rw [hmem, if_pos ⟨Or.inr rfl, rfl⟩]
  have hcj : ∀ j : Fin 512, j ≠ i → t'.mem c j = t.mem c j := fun j hj => by
    rw [hmem, if_neg fun hh => hj hh.2]
  have hself : t'.pageMeta (4096 * (s.mem r i).ppn) ≠ none := by
    rw [hmeta, Function.update_self]
    exact nofun
  have hnone : ∀ f, t'.pageMeta (4096 * f) = none ↔ t.pageMeta (4096 * f) = none := by
    intro f
    by_cases hff : f = (s.mem r i).ppn
    · rw [hff]
      refine ⟨fun h0 => absurd h0 hself, fun h0 => ?_⟩
      rcases (h.typed.row r 1 hr').bottom rfl i with h1 | ⟨-, -, -, hcount⟩
      · rw [h.source i le_rfl] at h1
        exact absurd h1 hne
      · rw [h.source i le_rfl] at hcount
        exact absurd h0 (hcount hl)
    · rw [hmeta, Function.update_of_ne (by omega)]
  refine
    { typed := h.share_typed hs hr hc hl hu hframes hmeta hmem
      level := h.level
      used_c := (hused c).mpr h.used_c
      source := fun j hj => ?_
      rest := fun j hj => ?_
      done := ?_
      origin := fun _ j hj hj0 => ?_
      keep := h.keep
      new := h.new
      used := fun n hn => (hused n).mpr (h.used n hn)
      frame := fun n hn hlvl => ?_
      meta_none := fun f => (hnone f).trans (h.meta_none f) }
  · have hnr : n ≠ r := fun hnr : n = r => by
      have := hlvl 1 (hnr ▸ hr)
      omega
    have hnc : n ≠ c := fun hnc : n = c => hc (hnc ▸ hn)
    rw [← h.frame n hn hlvl]
    funext j
    rw [hmem, if_neg fun hh => hh.1.elim hnr hnc]
  · have hji : j ≠ i := fun hji => by rw [hji] at hj; omega
    rw [hmem, if_neg fun hh => hji hh.2]
    exact h.source j (by omega)
  · have hji : j ≠ i := fun hji => by rw [hji] at hj; omega
    rw [hcj j hji]
    exact h.rest j (by omega)
  · rw [partialRow_succ hcj, hci]
    have hmono : RowOk lvl' t'.pageMeta 1 (partialRow 1 i.val (t.mem c)) :=
      h.done.mono (fun _ _ _ hm => hm) fun _ j _ _ hm => fun h0 => hm ((hnone _).mp h0)
    refine hmono.redirect hv' hu' (by rw [ppn_sharedEntry]; exact h.keep _ 0 hf)
      (fun _ => by rwa [ppn_sharedEntry]) fun j hj hp => ?_
    rw [ppn_sharedEntry] at hp
    unfold partialRow at hj hp
    by_cases hji : j.val < i.val ∨ (1 = 3 ∧ 256 ≤ j.val)
    · rw [if_pos hji] at hj hp
      exact h.not_doneRef hs hr hl ⟨rfl, j, hji.resolve_right fun hh => by omega, hj, hp⟩
    · rw [if_neg hji] at hj
      exact absurd rfl hj
  · by_cases hji : j = i
    · rw [hji, hci, ppn_sharedEntry]
      exact Or.inl ⟨hne, rfl⟩
    · have hne' : j.val ≠ i.val := fun hh => hji (Fin.ext hh)
      rw [hcj j hji] at hj0 ⊢
      exact h.origin rfl j (by omega) hj0

end Share

section Descend
variable {c' : ℕ} {t₁ : MemState} {lvl₁ : Levels}

theorem child_setPhysicalAddress {e : PageTableEntry} {m n : ℕ} (he : child e = some m)
    (hn : n < 2 ^ 44) : child (e.setPhysicalAddress (4096 * n)) = some n := by
  obtain ⟨hv, hl, -⟩ := child_eq_some he
  have hbit : ∀ i < 10, (e.setPhysicalAddress (4096 * n)).getLsbD i = e.getLsbD i :=
    fun i hi => getLsbD_setPhysicalAddress _ _ hi
  have hv' : (e.setPhysicalAddress (4096 * n)).isValid = true := by
    rw [isValid_eq, hbit 0 (by norm_num), ← isValid_eq, hv]
  have hl' : (e.setPhysicalAddress (4096 * n)).isLeaf = false := by
    rw [isLeaf_eq, hbit 0 (by norm_num), hbit 1 (by norm_num), hbit 2 (by norm_num),
      hbit 3 (by norm_num), ← isLeaf_eq, hl]
  rw [child, hv', hl', ppn_setPhysicalAddress hn]
  rfl

/-- An entry that reads as a pointer leads to a copy of its own. -/
theorem Copying.descend (hs : Typed s lvl extra) (hr : lvl r = some k) (hc : ¬ s.used c)
    (hk : 1 ≤ k) (hlow : k = 3 → i.val < 256) (huser : k = 1 → (s.mem r i).isUser = true) {m : ℕ}
    (hm : child (s.mem r i) = some m) (h : Copying s lvl extra k r c i.val t lvl')
    (hf : ForkedAt t lvl' (fun f => extra f + if DoneRef k i.val (t.mem c) f then 1 else 0) (k - 1)
      c' t₁ lvl₁) :
    Copying s lvl extra k r c (i.val + 1)
      (t₁.setEntry c i ((t₁.mem c i).setPhysicalAddress (4096 * c'))) lvl₁ := by
  have hcr : c ≠ r := fun hcr : c = r => hc (hcr ▸ hs.used r k hr)
  have hrow_c : t₁.mem c = t.mem c :=
    hf.frame c h.used_c fun a ha => by rw [h.level] at ha; cases ha
  have hrow_r : t₁.mem r = t.mem r :=
    hf.frame r (h.used r (hs.used r k hr)) fun a ha => by
      rw [h.keep r k hr, Option.some.injEq] at ha
      omega
  have hlevel : lvl₁ c = none := by
    by_contra hsome
    obtain ⟨a, ha⟩ := Option.ne_none_iff_exists'.mp hsome
    rcases hf.new c a ha with hh | hh
    · rw [h.level] at hh
      cases hh
    · exact hh h.used_c
  have hc' : c' < 2 ^ 44 := by
    have := hf.typed.placed.range (hf.typed.used c' _ hf.level)
    omega
  have hcc' : c ≠ c' := fun hcc : c = c' => hf.fresh (hcc ▸ h.used_c)
  have hei : t₁.mem c i = s.mem r i := by rw [hrow_c, h.rest i le_rfl]
  rw [hei]
  set e' := (s.mem r i).setPhysicalAddress (4096 * c') with he'
  have hchild : child e' = some c' := child_setPhysicalAddress hm hc'
  have hne' : e' ≠ 0 := ne_zero_of_child hchild
  obtain ⟨hv', hl', hp'⟩ := child_eq_some hchild
  have hcrow : (t₁.setEntry c i e').mem c = Function.update (t.mem c) i e' := by
    rw [setEntry_row, hrow_c]
  have hci : (t₁.setEntry c i e').mem c i = e' := by rw [hcrow, Function.update_self]
  have hcj : ∀ j : Fin 512, j ≠ i → (t₁.setEntry c i e').mem c j = t.mem c j := fun j hj => by
    rw [hcrow, Function.update_of_ne hj]
  have hnone : t₁.pageMeta (4096 * c') = none :=
    (hf.meta_none c').mpr (h.typed.meta_none hf.fresh)
  refine
    { toLevelFrame := (h.toLevelFrame.trans hf.toLevelFrame (by omega)).setEntry hc
      typed := ?_
      level := hlevel
      used_c := hf.used c h.used_c
      source := fun j hj => ?_
      rest := fun j hj => ?_
      done := ?_
      origin := fun h1 j hj hj0 => ?_ }
  · have hcongr : Typed (t₁.setEntry c i e') lvl₁
        (fun f => extra f + if DoneRef k i.val (t.mem c) f then 1 else 0) :=
      hf.typed.congr (fun n a hn => setEntry_of_ne fun hnc : n = c => by
        rw [hnc, hlevel] at hn
        cases hn) (fun _ hn => hn) rfl rfl
    refine hcongr.extra_congr fun f hf0 => ?_
    -- the copy below has no count, so nothing is added for it
    have hiff : DoneRef k (i.val + 1) ((t₁.setEntry c i e').mem c) f ↔
        DoneRef k i.val (t.mem c) f := by
      rw [doneRef_succ hcj, hci, hp']
      refine ⟨fun hh => hh.elim id fun hh => ?_, Or.inl⟩
      rw [← hh.2.2] at hf0
      exact absurd hnone hf0
    simp only [hiff]
  · rw [setEntry_of_ne hcr.symm, hrow_r]
    exact h.source j (by omega)
  · have hji : j ≠ i := fun hji => by rw [hji] at hj; omega
    rw [hcj j hji]
    exact h.rest j (by omega)
  · rw [partialRow_succ hcj, hci]
    have hmono : RowOk lvl₁ t₁.pageMeta k (partialRow k i.val (t.mem c)) :=
      h.done.mono (fun n a _ hn => hf.keep n a hn) fun _ j _ _ h0 h1 => h0 ((hf.meta_none _).mp h1)
    by_cases hk1 : k = 1
    · subst hk1
      have hu' : e'.isUser = true := by
        rw [isUser_eq, he', getLsbD_setPhysicalAddress _ _ (by norm_num), ← isUser_eq, huser rfl]
      refine hmono.redirect hv' hu' (by rw [hp']; exact hf.level)
        (fun hl => by rw [hl'] at hl; cases hl) fun j hj hp => ?_
      rcases h.done.bottom rfl j with h0 | ⟨-, -, hlv, -⟩
      · exact hj h0
      · rw [hp, hp'] at hlv
        exact hf.fresh (h.typed.used _ _ hlv)
    · exact hmono.link (by omega) hlow hchild hf.level
  · by_cases hji : j = i
    · rw [hji, hci, hp']
      exact Or.inr fun hu => hf.fresh (h.used _ hu)
    · have hne' : j.val ≠ i.val := fun hh => hji (Fin.ext hh)
      rw [hcj j hji] at hj0 ⊢
      exact h.origin h1 j (by omega) hj0

end Descend

/-- The end of the loop: the copy gets its level. -/
theorem Copying.finish (h : Copying s lvl extra k r c 512 t lvl') (hc : ¬ s.used c) :
    ForkedAt s lvl extra k c t (Function.update lvl' c (some k)) where
  typed := by
    have hdone := h.done
    rw [partialRow_full] at hdone
    refine h.typed.adopt h.level h.used_c hdone fun f => ?_
    have hiff : DoneRef k 512 (t.mem c) f ↔ k = 1 ∧ Refers t c f :=
      and_congr_right fun _ => exists_congr fun j => and_iff_right j.isLt
    simp only [hiff]
  level := Function.update_self ..
  fresh := hc
  keep n a hn := by
    have hn' := h.keep n a hn
    rwa [Function.update_of_ne fun hnc : n = c => by rw [hnc, h.level] at hn'; cases hn']
  new n a hn := by
    by_cases hnc : n = c
    · exact Or.inr (hnc ▸ hc)
    · rw [Function.update_of_ne hnc] at hn
      exact h.new n a hn
  used := h.used
  frame := h.frame
  meta_none := h.meta_none

/-- One turn of the loop: `hcall` is what the recursive call does. -/
theorem wp_forkEntry_typed {forkChild : ℕ → KM ℕ} {E : Error → MemState → Prop}
    (hs : Typed s lvl extra) (hr : lvl r = some k) (hx : 1 ≤ k → extra = fun _ => 0)
    (hc : ¬ s.used c) (h : Copying s lvl extra k r c i.val t lvl')
    (hcall : ∀ m extra', 1 ≤ k → Typed t lvl' extra' → lvl' m = some (k - 1) →
      (1 ≤ k - 1 → extra' = fun _ => 0) →
      wp (forkChild (4096 * m)) (fun pa u => ∃ c' lvl₁, pa = 4096 * c' ∧
        ForkedAt t lvl' extra' (k - 1) c' u lvl₁) E (fun _ => True) t) :
    wp (PageTable.forkEntry forkChild r c i)
      (fun _ u => ∃ lvl₁, Copying s lvl extra k r c (i.val + 1) u lvl₁) E (fun _ => True) t := by
  have hrc : r ≠ c := fun hrc : r = c => hc (hrc ▸ hs.used r k hr)
  have hri : t.mem r i = s.mem r i := h.source i le_rfl
  have hci : t.mem c i = s.mem r i := h.rest i le_rfl
  rcases (hs.row r k hr).entry_cases i with h0 | ⟨h3, hi, hl, hu⟩ | ⟨h1, hl, hu, -, -⟩ |
    ⟨hk, hlow, huser, m, hm, hlm⟩
  · rw [PageTable.forkEntry, wp_bind, wp_gets, hri, h0, if_pos (by decide), wp_pure]
    exact ⟨lvl', h.skip (Or.inl (hci.trans h0))⟩
  · rw [PageTable.forkEntry, wp_bind, wp_gets, hri, if_neg (by rw [isValid_of_isLeaf hl]; decide),
      if_pos hl, if_neg (by rw [hu]; decide), wp_pure]
    exact ⟨lvl', h.skip (Or.inr ⟨h3, hi⟩)⟩
  · subst h1
    obtain rfl := hx le_rfl
    refine wp_forkEntry_leaf ?_ (hci.trans hri.symm) hrc fun u hframes hmeta hmem => ?_
    · rw [hri, child, hl, Bool.not_true, Bool.and_false]
      rfl
    · rw [hri] at hmeta hmem
      rw [entryFrames, child, hl, hu, Bool.not_true, Bool.and_false] at hmeta
      exact ⟨lvl', h.share hs hr hc hl hu hframes hmeta hmem⟩
  · obtain ⟨hv, hl, hppn⟩ := child_eq_some hm
    rw [PageTable.forkEntry, wp_bind, wp_gets, hri, if_neg (by rw [hv]; decide),
      if_neg (by rw [hl]; decide), wp_bind]
    rw [physicalAddress_eq, hppn]
    refine wp_mono (hcall m _ hk h.typed (h.keep m _ hlm) fun hk2 => ?_) ?_
      (fun _ _ hE => hE) fun _ _ => trivial
    · funext f
      rw [if_neg fun hd => by have := hd.1; omega, hx hk]
    · rintro _ u ⟨c', lvl₁, rfl, hf⟩
      rw [wp_bind, wp_gets, wp_bind, wp_setPhysicalAddress, wp_modify]
      exact ⟨lvl₁, h.descend hs hr hc hk hlow huser hm hf⟩

end Loop

/-- A fork keeps every frame at its level and gives the copy of a table the table's level. -/
theorem wp_fork_typed {E : Error → MemState → Prop} (k fuel : ℕ) (s : MemState) (lvl : Levels)
    (extra : ℕ → ℕ) (r : ℕ) (h : Typed s lvl extra) (hr : lvl r = some k)
    (hx : 1 ≤ k → extra = fun _ => 0) :
    wp (PageTable.fork fuel (4096 * r))
      (fun pa t => ∃ c lvl', pa = 4096 * c ∧ ForkedAt s lvl extra k c t lvl') E (fun _ => True) s := by
  induction fuel generalizing k s lvl extra r with
  | zero =>
      rw [PageTable.fork, wp_panic]
      trivial
  | succ fuel ih =>
      rw [PageTable.fork, wp_bind]
      refine wp_allocFrameExpect h.placed (fun _ _ _ => trivial) fun c s₁ ha => ?_
      rw [wp_bind, wp_copyFrame, wp_bind, mul_pageSize_div, mul_pageSize_div]
      have hloop : wp (foldM (fun (_ : Unit) i => PageTable.forkEntry (PageTable.fork fuel) r c i)
          (List.finRange 512) ()) (fun _ t => ∃ lvl', Copying s lvl extra k r c 512 t lvl') E
          (fun _ => True) (s₁.setFrame c (s₁.mem r)) :=
        wp_foldM_finRange (fun j _ t => ∃ lvl', Copying s lvl extra k r c j t lvl')
          (fun i _ t hcopy => hcopy.elim fun lvl' hcopy => wp_forkEntry_typed h hr hx ha.fresh hcopy
            fun m extra' hk ht hm hx' => ih (k - 1) t lvl' extra' m ht hm hx') () _
          ⟨lvl, Copying.start h hr ha⟩
      refine wp_mono hloop ?_ (fun _ _ hE => hE) fun _ hN => hN
      rintro _ t ⟨lvl', hdone⟩
      rw [wp_pure]
      exact ⟨c, _, rfl, hdone.finish ha.fresh⟩

end Efiks.Mm

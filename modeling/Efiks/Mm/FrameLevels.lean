import Efiks.Mm.Growing

/-!
# Frames by the level they are used at

The pages of a process may have any permissions, even none, so its tables need not be a
tree of leaves and pointers: a page that is only writable reads as a pointer once `fork`
has cleared its `W` bit. What survives is that every frame in use is used at one level:
roots at level 3, then two levels of tables, and data at level 0, which nobody writes to
here. Entries lead from a level to the next one, so nothing ever leads to a root.

The reference count of a data frame bounds the number of level-1 tables that refer to it,
and `copy_on_write` frees a frame when the count reaches zero: no table refers to it then.

## Main definitions

* `RowOk` — what the entries of a frame of a level look like.
* `Typed` — every frame is used at one level, and the counts are right.

## Main results

* `Typed.alloc`, `Typed.link`, `Typed.mapped`, `Typed.flagged`, `Typed.copied` — the steps.
-/
namespace Efiks.Mm
open Lib Lib.RustM PageTableEntry

/-- The levels of the frames in use. -/
abbrev Levels := ℕ → Option ℕ

/-- The entries of a frame of level `k`. -/
structure RowOk (lvl : Levels) (pageMeta : ℕ → Option UInt16) (k : ℕ) (F : Frame) : Prop where
  bound : k ≤ 3
  root : k = 3 → ∀ i : Fin 512, 256 ≤ i.val → F i = kernelEntry i
  table : 2 ≤ k → ∀ i : Fin 512, (k = 3 → i.val < 256) →
    F i = 0 ∨ ∃ m, child (F i) = some m ∧ lvl m = some (k - 1)
  bottom : k = 1 → ∀ i, F i = 0 ∨ ((F i).isValid = true ∧ (F i).isUser = true ∧
    lvl (F i).ppn = some 0 ∧ ((F i).isLeaf = true → pageMeta (4096 * (F i).ppn) ≠ none))
  inj : k = 1 → ∀ i j, F i ≠ 0 → F j ≠ 0 → (F i).ppn = (F j).ppn → i = j
  data : k = 0 → F = fun _ => 0

/-- Frame `n` has an entry for frame `f`. -/
def Refers (s : MemState) (n f : ℕ) : Prop := ∃ i, s.mem n i ≠ 0 ∧ (s.mem n i).ppn = f

instance (s : MemState) (n f : ℕ) : Decidable (Refers s n f) :=
  inferInstanceAs (Decidable (∃ i : Fin 512, s.mem n i ≠ 0 ∧ (s.mem n i).ppn = f))

/-- The level-1 tables that refer to `f`. -/
def holders (s : MemState) (lvl : Levels) (f : ℕ) : Finset ℕ :=
  (Finset.Ico s.start (s.start + 4096)).filter fun n => lvl n = some 1 ∧ Refers s n f

/-- **Every frame is used at one level.** `extra` counts the references of tables that are
not finished yet. -/
structure Typed (s : MemState) (lvl : Levels) (extra : ℕ → ℕ) : Prop where
  placed : s.Placed
  used : ∀ n k, lvl n = some k → s.used n
  row : ∀ n k, lvl n = some k → RowOk lvl s.pageMeta k (s.mem n)
  meta_used : ∀ f, s.pageMeta (4096 * f) ≠ none → s.used f
  refs : ∀ f c, s.pageMeta (4096 * f) = some c →
    (holders s lvl f).card + extra f ≤ c.toNat ∧ c.toNat ≤ (holders s lvl f).card + extra f + 1

section Rows
variable {lvl lvl' : Levels} {M M' : ℕ → Option UInt16} {k : ℕ} {F : Frame} {e : PageTableEntry}

theorem ne_zero_of_isValid (h : e.isValid = true) : e ≠ 0 := by
  rintro rfl
  cases h

theorem ne_zero_of_child {m : ℕ} (h : child e = some m) : e ≠ 0 :=
  ne_zero_of_isValid (child_eq_some h).1

/-- A row of level `k` leads to frame `m`. -/
def Leads (k : ℕ) (F : Frame) (m : ℕ) : Prop :=
  (k = 1 ∧ ∃ i, F i ≠ 0 ∧ (F i).ppn = m) ∨ (2 ≤ k ∧ ∃ i, child (F i) = some m)

/-- A row stays right when the frames it leads to keep their level and their count. -/
theorem RowOk.mono (h : RowOk lvl M k F)
    (hl : ∀ m j, Leads k F m → lvl m = some j → lvl' m = some j)
    (hm : k = 1 → ∀ i, F i ≠ 0 → (F i).isLeaf = true → M (4096 * (F i).ppn) ≠ none →
      M' (4096 * (F i).ppn) ≠ none) : RowOk lvl' M' k F where
  bound := h.bound
  root := h.root
  table hk i hi :=
    (h.table hk i hi).imp id fun ⟨m, hm, hlm⟩ => ⟨m, hm, hl m _ (Or.inr ⟨hk, i, hm⟩) hlm⟩
  bottom hk i := by
    refine (h.bottom hk i).imp id fun ⟨hv, hu, hlf, hleaf⟩ => ?_
    have hne := ne_zero_of_isValid hv
    exact ⟨hv, hu, hl _ 0 (Or.inl ⟨hk, i, hne, rfl⟩) hlf, fun hl => hm hk i hne hl (hleaf hl)⟩
  inj := h.inj
  data := h.data

/-- One more table is reachable. -/
theorem RowOk.link {m : ℕ} {i : Fin 512} (h : RowOk lvl M k F) (hk : 2 ≤ k)
    (hlow : k = 3 → i.val < 256) (he : child e = some m) (hm : lvl m = some (k - 1)) :
    RowOk lvl M k (Function.update F i e) := by
  refine ⟨h.bound, fun h3 j hj => ?_, fun _ j hj => ?_, fun h1 => by omega, fun h1 => by omega,
    fun h0 => by omega⟩
  · have := hlow h3
    rw [Function.update_of_ne fun hji : j = i => by rw [hji] at hj; omega]
    exact h.root h3 j hj
  · by_cases hji : j = i
    · rw [hji, Function.update_self]
      exact Or.inr ⟨m, he, hm⟩
    · rw [Function.update_of_ne hji]
      exact h.table hk j hj

theorem rowOk_zero (hk : k < 3) : RowOk lvl M k fun _ => 0 where
  bound := by omega
  root h := by omega
  table _ _ _ := Or.inl rfl
  bottom _ _ := Or.inl rfl
  inj _ _ _ h := absurd rfl h
  data _ := rfl

theorem rowOk_kernel : RowOk lvl M 3 kernelEntry where
  bound := le_rfl
  root _ _ _ := rfl
  table _ i hi := Or.inl (by
    have := hi rfl
    rw [kernelEntry, if_neg (by omega), if_neg (by omega)]
    rfl)
  bottom h := by omega
  inj h := by omega
  data h := by omega

end Rows

section Facts
variable {s s' : MemState} {lvl lvl' : Levels} {extra : ℕ → ℕ} {n m f k : ℕ}

theorem Typed.mem_holders (h : Typed s lvl extra) :
    n ∈ holders s lvl f ↔ lvl n = some 1 ∧ Refers s n f := by
  rw [holders, Finset.mem_filter, Finset.mem_Ico]
  refine ⟨fun hn => hn.2, fun hn => ⟨?_, hn⟩⟩
  have hu := h.used n 1 hn.1
  have hlt := FrameAllocator.lt_of_isSet hu.2
  exact ⟨hu.1, by have := hu.1; omega⟩

theorem card_holders_le : (holders s lvl f).card ≤ 4096 := by
  calc (holders s lvl f).card ≤ (Finset.Ico s.start (s.start + 4096)).card :=
        Finset.card_filter_le _ _
    _ = 4096 := by rw [Nat.card_Ico]; omega

/-- A level-1 table leads to data. -/
theorem Typed.refers_level (h : Typed s lvl extra) (hn : lvl n = some 1) (hr : Refers s n f) :
    lvl f = some 0 := by
  obtain ⟨i, hne, rfl⟩ := hr
  exact ((h.row n 1 hn).bottom rfl i).elim (fun h0 => absurd h0 hne) fun h => h.2.2.1

theorem Typed.holders_eq_empty (h : Typed s lvl extra) (hf : lvl f ≠ some 0) :
    holders s lvl f = ∅ :=
  Finset.eq_empty_of_forall_notMem fun _ hn =>
    hf (h.refers_level (h.mem_holders.mp hn).1 (h.mem_holders.mp hn).2)

theorem Typed.level_none (h : Typed s lvl extra) (hn : ¬ s.used n) : lvl n = none := by
  cases hk : lvl n with
  | none => rfl
  | some k => exact absurd (h.used n k hk) hn

theorem Typed.meta_none (h : Typed s lvl extra) (hn : ¬ s.used n) : s.pageMeta (4096 * n) = none := by
  by_contra hne
  exact hn (h.meta_used n hne)

theorem holders_congr (hstart : s'.start = s.start)
    (hiff : ∀ n, (lvl' n = some 1 ∧ Refers s' n f) ↔ (lvl n = some 1 ∧ Refers s n f)) :
    holders s' lvl' f = holders s lvl f := by
  unfold holders
  rw [hstart]
  exact Finset.filter_congr fun n _ => hiff n

theorem start_congr (h : s'.frames.startAddr = s.frames.startAddr) : s'.start = s.start := by
  rw [MemState.start, MemState.start, h]

/-- Frames without a level may change, and become used. -/
theorem Typed.congr (h : Typed s lvl extra) (hmem : ∀ n k, lvl n = some k → s'.mem n = s.mem n)
    (hused : ∀ n, s.used n → s'.used n) (hmeta : s'.pageMeta = s.pageMeta)
    (haddr : s'.frames.startAddr = s.frames.startAddr) : Typed s' lvl extra where
  placed := h.placed.congr haddr
  used n k hn := hused n (h.used n k hn)
  row n k hn := by
    rw [hmem n k hn, hmeta]
    exact h.row n k hn
  meta_used f hf := by
    rw [hmeta] at hf
    exact hused f (h.meta_used f hf)
  refs f c hc := by
    rw [hmeta] at hc
    have hsame : holders s' lvl f = holders s lvl f := by
      refine holders_congr (start_congr haddr) fun n => and_congr_right fun hn => ?_
      rw [Refers, Refers, hmem n 1 hn]
    rw [hsame]
    exact h.refs f c hc

end Facts

section Steps
variable {s s₁ : MemState} {lvl : Levels} {extra : ℕ → ℕ} {n m f k t : ℕ} {i : Fin 512}
variable {e : PageTableEntry}

theorem Typed.holders_alloc (h : Typed s lvl extra) (ha : Allocated s n s₁) {F : Frame}
    (h1 : k = 1 → F = fun _ => 0) (f : ℕ) :
    holders (s₁.setFrame n F) (Function.update lvl n (some k)) f = holders s lvl f := by
  refine holders_congr (start_congr ha.addr_eq) fun m => ?_
  by_cases hmn : m = n
  · rw [hmn, h.level_none ha.fresh, Function.update_self]
    refine ⟨fun ⟨hk, i, hne, _⟩ => ?_, fun hm => (nomatch hm.1)⟩
    rw [setFrame_self, h1 (Option.some.inj hk)] at hne
    exact absurd rfl hne
  · rw [Function.update_of_ne hmn, Refers, Refers, setFrame_of_ne _ hmn, ha.mem_eq]

/-- A frame that is taken and filled. -/
theorem Typed.alloc (h : Typed s lvl extra) (ha : Allocated s n s₁) {F : Frame}
    (hF : ∀ lvl, RowOk lvl s.pageMeta k F) (h1 : k = 1 → F = fun _ => 0) :
    Typed (s₁.setFrame n F) (Function.update lvl n (some k)) extra := by
  have hnone := h.level_none ha.fresh
  have hlvl : ∀ m j, lvl m = some j → Function.update lvl n (some k) m = some j := by
    intro m j hm
    rwa [Function.update_of_ne fun hmn : m = n => by rw [hmn, hnone] at hm; cases hm]
  refine ⟨(ha.placed h.placed).congr rfl, fun m j hm => ?_, fun m j hm => ?_, fun f hf => ?_,
    fun f c hc => ?_⟩
  · by_cases hmn : m = n
    · rw [hmn]
      exact ha.used_self
    · rw [Function.update_of_ne hmn] at hm
      exact (ha.used m).mpr (Or.inl (h.used m j hm))
  · by_cases hmn : m = n
    · rw [hmn, Function.update_self] at hm
      rw [hmn, setFrame_self, setFrame_pageMeta, ha.meta_eq, ← Option.some.inj hm]
      exact hF _
    · rw [Function.update_of_ne hmn] at hm
      rw [setFrame_of_ne _ hmn, ha.mem_eq, setFrame_pageMeta, ha.meta_eq]
      exact (h.row m j hm).mono (fun _ j _ hl => hlvl _ j hl) fun _ _ _ _ hne => hne
  · rw [setFrame_pageMeta, ha.meta_eq] at hf
    exact (ha.used f).mpr (Or.inl (h.meta_used f hf))
  · rw [setFrame_pageMeta, ha.meta_eq] at hc
    rw [h.holders_alloc ha h1]
    exact h.refs f c hc

theorem holders_setEntry (ht : lvl t = some k)
    (href : k = 1 → ∀ f, Refers (s.setEntry t i e) t f ↔ Refers s t f) (f : ℕ) :
    holders (s.setEntry t i e) lvl f = holders s lvl f := by
  refine holders_congr rfl fun n => and_congr_right fun hn => ?_
  by_cases hnt : n = t
  · rw [hnt] at hn ⊢
    exact href (Option.some.inj (ht.symm.trans hn)) f
  · rw [Refers, Refers, setEntry_of_ne hnt]

theorem setEntry_row : (s.setEntry t i e).mem t = Function.update (s.mem t) i e := setFrame_self _

/-- One entry of a frame changes. -/
theorem Typed.setEntry (h : Typed s lvl extra) (ht : lvl t = some k)
    (hrow : RowOk lvl s.pageMeta k (Function.update (s.mem t) i e))
    (href : k = 1 → ∀ f, Refers (s.setEntry t i e) t f ↔ Refers s t f) :
    Typed (s.setEntry t i e) lvl extra where
  placed := h.placed.congr rfl
  used n j hn := h.used n j hn
  row n j hn := by
    by_cases hnt : n = t
    · rw [hnt, ht] at hn
      rw [hnt, setEntry_row, ← Option.some.inj hn]
      exact hrow
    · rw [setEntry_of_ne hnt]
      exact h.row n j hn
  meta_used f hf := h.meta_used f hf
  refs f c hc := by
    rw [holders_setEntry ht href]
    exact h.refs f c hc

/-- A table is linked below another one. -/
theorem Typed.link (h : Typed s lvl extra) (ht : lvl t = some k) (hk : 2 ≤ k)
    (hlow : k = 3 → i.val < 256) (he : child e = some m) (hm : lvl m = some (k - 1)) :
    Typed (s.setEntry t i e) lvl extra :=
  h.setEntry ht ((h.row t k ht).link hk hlow he hm) fun h1 => by omega

/-- The flags of a page change. -/
theorem Typed.flagged (h : Typed s lvl extra) (ht : lvl t = some 1) (hne : s.mem t i ≠ 0)
    (hv : e.isValid = true) (hu : e.isUser = true) (hp : e.ppn = (s.mem t i).ppn)
    (hl : e.isLeaf = true → s.pageMeta (4096 * e.ppn) ≠ none) :
    Typed (s.setEntry t i e) lvl extra := by
  have hrow := h.row t 1 ht
  have hold : lvl (s.mem t i).ppn = some 0 := h.refers_level ht ⟨i, hne, rfl⟩
  have hsame : ∀ j, (Function.update (s.mem t) i e j ≠ 0 ↔ s.mem t j ≠ 0) ∧
      (Function.update (s.mem t) i e j).ppn = (s.mem t j).ppn := by
    intro j
    by_cases hji : j = i
    · rw [hji, Function.update_self]
      exact ⟨⟨fun _ => hne, fun _ => ne_zero_of_isValid hv⟩, hp⟩
    · rw [Function.update_of_ne hji]
      exact ⟨Iff.rfl, rfl⟩
  refine h.setEntry ht ⟨by omega, fun h3 => by omega, fun h2 => by omega, fun _ j => ?_,
    fun _ a b ha hb hab => ?_, fun h0 => by omega⟩ fun _ f => ?_
  · by_cases hji : j = i
    · rw [hji, Function.update_self]
      exact Or.inr ⟨hv, hu, hp ▸ hold, hl⟩
    · rw [Function.update_of_ne hji]
      exact hrow.bottom rfl j
  · rw [(hsame a).2, (hsame b).2] at hab
    exact hrow.inj rfl a b ((hsame a).1.mp ha) ((hsame b).1.mp hb) hab
  · unfold Refers
    refine exists_congr fun j => ?_
    rw [setEntry_row, (hsame j).1, (hsame j).2]

/-- The count of a frame changes along with the references that are not finished. -/
theorem Typed.recount {extra' : ℕ → ℕ} (h : Typed s lvl extra) (hf : s.used f) {c : UInt16}
    (hother : ∀ g, g ≠ f → s.pageMeta (4096 * g) ≠ none → extra' g = extra g)
    (hc : (holders s lvl f).card + extra' f ≤ c.toNat ∧
      c.toNat ≤ (holders s lvl f).card + extra' f + 1) :
    Typed (Page.set (4096 * f) (some c) s) lvl extra' where
  placed := h.placed.congr rfl
  used n k hn := h.used n k hn
  row n k hn := by
    refine (h.row n k hn).mono (fun _ _ _ hl => hl) fun _ i _ _ hne => ?_
    by_cases hif : 4096 * (s.mem n i).ppn = 4096 * f
    · rw [hif, pageSet_self]
      exact nofun
    · rwa [pageSet_of_ne _ hif]
  meta_used g hg := by
    by_cases hgf : g = f
    · rw [hgf]
      exact hf
    · rw [pageSet_of_ne _ (by omega)] at hg
      exact h.meta_used g hg
  refs g d hd := by
    have hsame : holders (Page.set (4096 * f) (some c) s) lvl g = holders s lvl g :=
      holders_congr rfl fun n => Iff.rfl
    rw [hsame]
    by_cases hgf : g = f
    · rw [hgf, pageSet_self] at hd
      rw [hgf, ← Option.some.inj hd]
      exact hc
    · rw [pageSet_of_ne _ (by omega)] at hd
      rw [hother g hgf (by rw [hd]; exact nofun)]
      exact h.refs g d hd

theorem refers_setEntry : Refers (s.setEntry t i e) t f ↔
    (e ≠ 0 ∧ e.ppn = f) ∨ ∃ j, j ≠ i ∧ s.mem t j ≠ 0 ∧ (s.mem t j).ppn = f := by
  rw [Refers, setEntry_row]
  constructor
  · rintro ⟨j, hne, hp⟩
    by_cases hji : j = i
    · rw [hji, Function.update_self] at hne hp
      exact Or.inl ⟨hne, hp⟩
    · rw [Function.update_of_ne hji] at hne hp
      exact Or.inr ⟨j, hji, hne, hp⟩
  · rintro (⟨hne, hp⟩ | ⟨j, hji, hne, hp⟩)
    · exact ⟨i, by rwa [Function.update_self], by rwa [Function.update_self]⟩
    · exact ⟨j, by rwa [Function.update_of_ne hji], by rwa [Function.update_of_ne hji]⟩

/-- An entry of a level-1 table leads to another frame, which no table referred to. -/
theorem RowOk.redirect {M : ℕ → Option UInt16} {F : Frame} (h : RowOk lvl M 1 F)
    (hv : e.isValid = true) (hu : e.isUser = true) (hf : lvl e.ppn = some 0)
    (hm : e.isLeaf = true → M (4096 * e.ppn) ≠ none) (hnew : ∀ j, F j ≠ 0 → (F j).ppn ≠ e.ppn) :
    RowOk lvl M 1 (Function.update F i e) := by
  refine ⟨by omega, fun h3 => by omega, fun h2 => by omega, fun _ j => ?_,
    fun _ a b ha hb hab => ?_, fun h0 => by omega⟩
  · by_cases hji : j = i
    · rw [hji, Function.update_self]
      exact Or.inr ⟨hv, hu, hf, hm⟩
    · rw [Function.update_of_ne hji]
      exact h.bottom rfl j
  · by_cases hai : a = i
    · by_cases hbi : b = i
      · rw [hai, hbi]
      · rw [hai, Function.update_self, Function.update_of_ne hbi] at hab
        rw [Function.update_of_ne hbi] at hb
        exact absurd hab.symm (hnew b hb)
    · rw [Function.update_of_ne hai] at ha hab
      by_cases hbi : b = i
      · rw [hbi, Function.update_self] at hab
        exact absurd hab (hnew a ha)
      · rw [Function.update_of_ne hbi] at hb hab
        exact h.inj rfl a b ha hb hab

/-- **A page is mapped** to a frame that was taken for it. -/
theorem Typed.mapped (h : Typed s lvl extra) (ht : lvl t = some 1) (h0 : s.mem t i = 0)
    (hf : lvl e.ppn = some 0) (hholders : holders s lvl e.ppn = ∅) (hextra : extra e.ppn = 0) (hv : e.isValid = true)
    (hu : e.isUser = true) :
    Typed (Page.set (4096 * e.ppn) (some 1) (s.setEntry t i e)) lvl extra := by
  have hnew : ∀ n, lvl n = some 1 → ¬ Refers s n e.ppn := fun n hn hr =>
    Finset.notMem_empty n (hholders ▸ h.mem_holders.mpr ⟨hn, hr⟩)
  have hmeta : ∀ a, s.pageMeta a ≠ none →
      (Page.set (4096 * e.ppn) (some 1) (s.setEntry t i e)).pageMeta a ≠ none := by
    intro a ha
    by_cases hae : a = 4096 * e.ppn
    · rw [hae, pageSet_self]
      exact nofun
    · rwa [pageSet_of_ne _ hae, setEntry_pageMeta]
  have hrow : ∀ n k, lvl n = some k →
      RowOk lvl (Page.set (4096 * e.ppn) (some 1) (s.setEntry t i e)).pageMeta k (s.mem n) :=
    fun n k hn => (h.row n k hn).mono (fun _ _ _ hl => hl) fun _ _ _ _ hne => hmeta _ hne
  refine ⟨h.placed.congr rfl, h.used, fun n k hn => ?_, fun g hg => ?_, fun g d hd => ?_⟩
  · rw [pageSet_mem]
    by_cases hnt : n = t
    · rw [hnt, ht] at hn
      rw [hnt, setEntry_row, ← Option.some.inj hn]
      refine (hrow t 1 ht).redirect hv hu hf (fun _ => ?_) fun j hj hp => hnew t ht ⟨j, hj, hp⟩
      rw [pageSet_self]
      exact nofun
    · rw [setEntry_of_ne hnt]
      exact hrow n k hn
  · by_cases hge : g = e.ppn
    · rw [hge]
      exact h.used _ 0 hf
    · rw [pageSet_of_ne _ (by omega)] at hg
      exact h.meta_used g hg
  · have href : ∀ n, lvl n = some 1 →
        (Refers (Page.set (4096 * e.ppn) (some 1) (s.setEntry t i e)) n g ↔
          Refers s n g ∨ (n = t ∧ g = e.ppn)) := by
      intro n hn
      by_cases hnt : n = t
      · rw [hnt]
        change Refers (s.setEntry t i e) t g ↔ _
        rw [refers_setEntry]
        constructor
        · rintro (⟨-, hp⟩ | ⟨j, -, hj⟩)
          · exact Or.inr ⟨rfl, hp.symm⟩
          · exact Or.inl ⟨j, hj⟩
        · rintro (⟨j, hj, hp⟩ | ⟨-, rfl⟩)
          · exact Or.inr ⟨j, fun hji => hj (hji ▸ h0), hj, hp⟩
          · exact Or.inl ⟨ne_zero_of_isValid hv, rfl⟩
      · have hsame : Refers (Page.set (4096 * e.ppn) (some 1) (s.setEntry t i e)) n g ↔
            Refers s n g := by
          rw [Refers, Refers, pageSet_mem, setEntry_of_ne hnt]
        rw [hsame]
        exact ⟨Or.inl, fun h => h.elim id fun h => absurd h.1 hnt⟩
    by_cases hge : g = e.ppn
    · rw [hge, pageSet_self] at hd
      have hcard : holders (Page.set (4096 * e.ppn) (some 1) (s.setEntry t i e)) lvl g = {t} := by
        ext n
        rw [Finset.mem_singleton, holders, Finset.mem_filter]
        constructor
        · rintro ⟨-, hn, hr⟩
          exact ((href n hn).mp hr).elim (fun hr => absurd (hge ▸ hr) (hnew n hn)) fun hr => hr.1
        · rintro rfl
          have hu := h.used n 1 ht
          have hlt := FrameAllocator.lt_of_isSet hu.2
          refine ⟨Finset.mem_Ico.mpr ⟨hu.1, ?_⟩, ht, (href n ht).mpr (Or.inr ⟨rfl, hge⟩)⟩
          have := hu.1
          change n < s.start + 4096
          omega
      rw [hcard, Finset.card_singleton, hge, hextra, ← Option.some.inj hd]
      exact ⟨le_rfl, by decide⟩
    · rw [pageSet_of_ne _ (by omega)] at hd
      have hsame : holders (Page.set (4096 * e.ppn) (some 1) (s.setEntry t i e)) lvl g =
          holders s lvl g := by
        refine holders_congr rfl fun n => and_congr_right fun hn => ?_
        rw [href n hn]
        exact ⟨fun h => h.elim id fun h => absurd h.2 hge, Or.inl⟩
      rw [hsame]
      exact h.refs g d hd

theorem toNat_sub_one {c : UInt16} (hc : c ≠ 0) : (c - 1).toNat = c.toNat - 1 := by
  have hpos : 0 < c.toNat := Nat.pos_of_ne_zero fun h => hc (UInt16.toNat_inj.mp h)
  rw [UInt16.toNat_sub_of_le c 1 (UInt16.le_iff_toNat_le.mpr hpos)]
  rfl

/-- **A page is moved** from `f` to a frame that was taken for it. -/
theorem Typed.redirect {c : UInt16} (h : Typed s lvl fun _ => 0) (ht : lvl t = some 1)
    (hne : s.mem t i ≠ 0) (hold : (s.mem t i).ppn = f) (hg : lvl e.ppn = some 0)
    (hgm : s.pageMeta (4096 * e.ppn) = some 1) (hholders : holders s lvl e.ppn = ∅)
    (hv : e.isValid = true) (hu : e.isUser = true) (hc : s.pageMeta (4096 * f) = some c)
    (hc0 : c ≠ 0) :
    Typed (Page.set (4096 * f) (Page.drop c) (s.setEntry t i e)) lvl (fun _ => 0) ∧
      (holders (Page.set (4096 * f) (Page.drop c) (s.setEntry t i e)) lvl f).card + 1 =
        (holders s lvl f).card := by
  have hnew : ∀ n, lvl n = some 1 → ¬ Refers s n e.ppn := fun n hn hr =>
    Finset.notMem_empty n (hholders ▸ h.mem_holders.mpr ⟨hn, hr⟩)
  have hfe : f ≠ e.ppn := fun hfe => hnew t ht ⟨i, hne, hold.trans hfe⟩
  have hrow := h.row t 1 ht
  have htf : t ∈ holders s lvl f := h.mem_holders.mpr ⟨ht, i, hne, hold⟩
  -- the references after the step
  have href : ∀ n g, lvl n = some 1 →
      (Refers (Page.set (4096 * f) (Page.drop c) (s.setEntry t i e)) n g ↔
        (Refers s n g ∧ ¬ (n = t ∧ g = f)) ∨ (n = t ∧ g = e.ppn)) := by
    intro n g hn
    by_cases hnt : n = t
    · rw [hnt]
      change Refers (s.setEntry t i e) t g ↔ _
      rw [refers_setEntry]
      constructor
      · rintro (⟨-, hp⟩ | ⟨j, hji, hj, hp⟩)
        · exact Or.inr ⟨rfl, hp.symm⟩
        · refine Or.inl ⟨⟨j, hj, hp⟩, fun hgf => hji (hrow.inj rfl j i hj hne ?_)⟩
          rw [hp, hold, hgf.2]
      · rintro (⟨⟨j, hj, hp⟩, hgf⟩ | ⟨-, rfl⟩)
        · refine Or.inr ⟨j, fun hji => hgf ⟨rfl, ?_⟩, hj, hp⟩
          rw [← hp, hji, hold]
        · exact Or.inl ⟨ne_zero_of_isValid hv, rfl⟩
    · have hsame : Refers (Page.set (4096 * f) (Page.drop c) (s.setEntry t i e)) n g ↔
          Refers s n g := by
        rw [Refers, Refers, pageSet_mem, setEntry_of_ne hnt]
      rw [hsame]
      exact ⟨fun hr => Or.inl ⟨hr, fun h => hnt h.1⟩, fun h => h.elim And.left fun h => absurd h.1 hnt⟩
  have hmem : ∀ n g, n ∈ holders (Page.set (4096 * f) (Page.drop c) (s.setEntry t i e)) lvl g ↔
      lvl n = some 1 ∧ ((Refers s n g ∧ ¬ (n = t ∧ g = f)) ∨ (n = t ∧ g = e.ppn)) := by
    intro n g
    rw [holders, Finset.mem_filter, Finset.mem_Ico]
    constructor
    · rintro ⟨-, hn, hr⟩
      exact ⟨hn, (href n g hn).mp hr⟩
    · rintro ⟨hn, hr⟩
      have hu := h.used n 1 hn
      have hlt := FrameAllocator.lt_of_isSet hu.2
      have hle := hu.1
      refine ⟨⟨hle, ?_⟩, hn, (href n g hn).mpr hr⟩
      change n < s.start + 4096
      omega
  have hf' : holders (Page.set (4096 * f) (Page.drop c) (s.setEntry t i e)) lvl f =
      (holders s lvl f).erase t := by
    ext n
    rw [hmem, Finset.mem_erase, h.mem_holders]
    constructor
    · rintro ⟨hn, ⟨hr, hnt⟩ | ⟨-, hfe'⟩⟩
      · exact ⟨fun hnt' => hnt ⟨hnt', rfl⟩, hn, hr⟩
      · exact absurd hfe' hfe
    · rintro ⟨hnt, hn, hr⟩
      exact ⟨hn, Or.inl ⟨hr, fun h => hnt h.1⟩⟩
  have hcard : (holders (Page.set (4096 * f) (Page.drop c) (s.setEntry t i e)) lvl f).card + 1 =
      (holders s lvl f).card := by
    rw [hf', Finset.card_erase_add_one htf]
  have hcount := h.refs f c hc
  refine ⟨⟨h.placed.congr rfl, h.used, fun n k hn => ?_, fun g hg' => ?_, fun g d hd => ?_⟩, hcard⟩
  · -- a leaf elsewhere that leads to `f` is counted, so the count is not zero yet
    have hkeep : ∀ m a, lvl m = some 1 → s.mem m a ≠ 0 → (m = t → a ≠ i) →
        s.pageMeta (4096 * (s.mem m a).ppn) ≠ none →
        (Page.set (4096 * f) (Page.drop c) (s.setEntry t i e)).pageMeta
          (4096 * (s.mem m a).ppn) ≠ none := by
      intro m a hm ha hmt hmeta
      by_cases hmf : (s.mem m a).ppn = f
      · have hmt' : m ≠ t := fun hmt' => by
          subst hmt'
          exact hmt rfl (hrow.inj rfl a i ha hne (hmf.trans hold.symm))
        have hpair : ({t, m} : Finset ℕ) ⊆ holders s lvl f := by
          intro x hx
          rcases Finset.mem_insert.mp hx with rfl | hx
          · exact htf
          · rw [Finset.mem_singleton.mp hx]
            exact h.mem_holders.mpr ⟨hm, a, ha, hmf⟩
        have hle := Finset.card_le_card hpair
        rw [Finset.card_pair fun h => hmt' h.symm] at hle
        rw [hmf, pageSet_self, Page.drop, if_neg]
        · exact nofun
        · intro h0
          have := toNat_sub_one hc0
          rw [h0] at this
          change 0 = c.toNat - 1 at this
          omega
      · rwa [pageSet_of_ne _ (by omega), setEntry_pageMeta]
    rw [pageSet_mem]
    by_cases hnt : n = t
    · rw [hnt, ht] at hn
      rw [hnt, setEntry_row, ← Option.some.inj hn]
      -- every other entry of the table keeps its count
      have hrest : RowOk lvl (Page.set (4096 * f) (Page.drop c) (s.setEntry t i e)).pageMeta 1
          (Function.update (s.mem t) i 0) := by
        refine ⟨by omega, fun h3 => by omega, fun h2 => by omega, fun _ j => ?_,
          fun _ a b ha hb hab => ?_, fun h0 => by omega⟩
        · by_cases hji : j = i
          · rw [hji, Function.update_self]
            exact Or.inl rfl
          · rw [Function.update_of_ne hji]
            refine (hrow.bottom rfl j).imp id fun ⟨hv, hu, hl, hleaf⟩ => ⟨hv, hu, hl, fun hlf => ?_⟩
            exact hkeep t j ht (ne_zero_of_isValid hv) (fun _ => hji) (hleaf hlf)
        · by_cases hai : a = i
          · rw [hai, Function.update_self] at ha
            exact absurd rfl ha
          · by_cases hbi : b = i
            · rw [hbi, Function.update_self] at hb
              exact absurd rfl hb
            · rw [Function.update_of_ne hai] at ha hab
              rw [Function.update_of_ne hbi] at hb hab
              exact hrow.inj rfl a b ha hb hab
      have hred := hrest.redirect (i := i) hv hu hg (fun _ => ?_) fun j hj hp => ?_
      · rwa [Function.update_idem] at hred
      · rw [pageSet_of_ne _ (by omega), setEntry_pageMeta, hgm]
        exact nofun
      · by_cases hji : j = i
        · rw [hji, Function.update_self] at hj
          exact absurd rfl hj
        · rw [Function.update_of_ne hji] at hj hp
          exact hnew t ht ⟨j, hj, hp⟩
    · rw [setEntry_of_ne hnt]
      refine (h.row n k hn).mono (fun _ _ _ hl => hl) fun hk a ha _ hm => ?_
      exact hkeep n a (hk ▸ hn) ha (fun hnt' => absurd hnt' hnt) hm
  · by_cases hgf : g = f
    · rw [hgf]
      exact h.meta_used f (by rw [hc]; exact nofun)
    · rw [pageSet_of_ne _ (by omega)] at hg'
      exact h.meta_used g hg'
  · by_cases hgf : g = f
    · rw [hgf, pageSet_self, Page.drop] at hd
      rw [hgf]
      split at hd
      · cases hd
      · rw [← Option.some.inj hd, toNat_sub_one hc0]
        omega
    · rw [pageSet_of_ne _ (by omega), setEntry_pageMeta] at hd
      by_cases hge : g = e.ppn
      · have hone : holders (Page.set (4096 * f) (Page.drop c) (s.setEntry t i e)) lvl g = {t} := by
          ext n
          rw [hmem, Finset.mem_singleton]
          constructor
          · rintro ⟨hn, ⟨hr, -⟩ | ⟨hnt, -⟩⟩
            · exact absurd (hge ▸ hr) (hnew n hn)
            · exact hnt
          · rintro rfl
            exact ⟨ht, Or.inr ⟨rfl, hge⟩⟩
        rw [hge, hgm] at hd
        rw [hone, Finset.card_singleton, ← Option.some.inj hd]
        exact ⟨le_rfl, by decide⟩
      · have hsame : holders (Page.set (4096 * f) (Page.drop c) (s.setEntry t i e)) lvl g =
            holders s lvl g := by
          ext n
          rw [hmem, h.mem_holders]
          constructor
          · rintro ⟨hn, ⟨hr, -⟩ | ⟨-, hge'⟩⟩
            · exact ⟨hn, hr⟩
            · exact absurd hge' hge
          · rintro ⟨hn, hr⟩
            exact ⟨hn, Or.inl ⟨hr, fun h => hgf h.2⟩⟩
        rw [hsame]
        exact h.refs g d hd

/-- What is not finished matters only where there is a count. -/
theorem Typed.extra_congr {extra' : ℕ → ℕ} (h : Typed s lvl extra)
    (hx : ∀ f, s.pageMeta (4096 * f) ≠ none → extra' f = extra f) : Typed s lvl extra' where
  placed := h.placed
  used := h.used
  row := h.row
  meta_used := h.meta_used
  refs f c hc := by
    rw [hx f (by rw [hc]; exact nofun)]
    exact h.refs f c hc

/-- **A frame is finished** and gets its level. -/
theorem Typed.adopt {extra' : ℕ → ℕ} (h : Typed s lvl extra) (hn : lvl n = none) (hu : s.used n)
    (hrow : RowOk lvl s.pageMeta k (s.mem n))
    (hx : ∀ f, extra f = extra' f + if k = 1 ∧ Refers s n f then 1 else 0) :
    Typed s (Function.update lvl n (some k)) extra' := by
  have hlvl : ∀ m j, lvl m = some j → m ≠ n ∧ Function.update lvl n (some k) m = some j := by
    intro m j hm
    have hmn : m ≠ n := fun hmn : m = n => by
      rw [hmn, hn] at hm
      cases hm
    exact ⟨hmn, by rwa [Function.update_of_ne hmn]⟩
  refine ⟨h.placed, fun m j hm => ?_, fun m j hm => ?_, h.meta_used, fun f c hc => ?_⟩
  · by_cases hmn : m = n
    · rw [hmn]
      exact hu
    · rw [Function.update_of_ne hmn] at hm
      exact h.used m j hm
  · have hmono : ∀ j F, RowOk lvl s.pageMeta j F →
        RowOk (Function.update lvl n (some k)) s.pageMeta j F := fun j F hF =>
      hF.mono (fun _ _ _ hl => (hlvl _ _ hl).2) fun _ _ _ _ hm => hm
    by_cases hmn : m = n
    · rw [hmn, Function.update_self] at hm
      rw [hmn, ← Option.some.inj hm]
      exact hmono k _ hrow
    · rw [Function.update_of_ne hmn] at hm
      exact hmono j _ (h.row m j hm)
  · have hmem : ∀ m, m ∈ holders s (Function.update lvl n (some k)) f ↔
        m ∈ holders s lvl f ∨ (m = n ∧ k = 1 ∧ Refers s n f) := by
      intro m
      rw [h.mem_holders, holders, Finset.mem_filter, Finset.mem_Ico]
      by_cases hmn : m = n
      · rw [hmn, Function.update_self, hn]
        have hlt := FrameAllocator.lt_of_isSet hu.2
        have hle := hu.1
        constructor
        · rintro ⟨-, hk, hr⟩
          exact Or.inr ⟨rfl, Option.some.inj hk, hr⟩
        · rintro (⟨h1, -⟩ | ⟨-, hk, hr⟩)
          · cases h1
          · exact ⟨⟨hle, by omega⟩, by rw [hk], hr⟩
      · rw [Function.update_of_ne hmn]
        constructor
        · exact fun hm => Or.inl hm.2
        · rintro (hm | hm)
          · have hum := h.used m 1 hm.1
            have hlt := FrameAllocator.lt_of_isSet hum.2
            have hle := hum.1
            exact ⟨⟨hle, by omega⟩, hm⟩
          · exact absurd hm.1 hmn
    have hcount := h.refs f c hc
    rw [hx f] at hcount
    by_cases hr : k = 1 ∧ Refers s n f
    · have hins : holders s (Function.update lvl n (some k)) f = insert n (holders s lvl f) := by
        ext m
        rw [hmem, Finset.mem_insert]
        exact ⟨fun hm => hm.symm.imp And.left id, fun hm => hm.symm.imp id fun hm => ⟨hm, hr⟩⟩
      have hnot : n ∉ holders s lvl f := fun hm => by
        have := (h.mem_holders.mp hm).1
        rw [hn] at this
        cases this
      rw [if_pos hr] at hcount
      rw [hins, Finset.card_insert_of_notMem hnot]
      omega
    · have hsame : holders s (Function.update lvl n (some k)) f = holders s lvl f := by
        ext m
        rw [hmem]
        exact ⟨fun hm => hm.elim id fun hm => absurd hm.2 hr, Or.inl⟩
      rw [if_neg hr] at hcount
      rw [hsame]
      omega

/-- A data frame no table refers to is given back. -/
theorem Typed.freed {s' : MemState} (h : Typed s lvl extra) (hf : lvl f = some 0)
    (hnone : s.pageMeta (4096 * f) = none) (hholders : holders s lvl f = ∅) (hfr : Freed s f s') :
    Typed s' (Function.update lvl f none) extra := by
  have hlvl : ∀ n k, Function.update lvl f none n = some k → n ≠ f ∧ lvl n = some k := by
    intro n k hn
    by_cases hnf : n = f
    · rw [hnf, Function.update_self] at hn
      cases hn
    · exact ⟨hnf, by rwa [Function.update_of_ne hnf] at hn⟩
  refine ⟨h.placed.congr hfr.addr_eq, fun n k hn => ?_, fun n k hn => ?_, fun g hg => ?_,
    fun g d hd => ?_⟩
  · obtain ⟨hnf, hn⟩ := hlvl n k hn
    exact (hfr.used n).mpr ⟨h.used n k hn, hnf⟩
  · obtain ⟨hnf, hn'⟩ := hlvl n k hn
    rw [hfr.mem_eq, hfr.meta_eq]
    refine (h.row n k hn').mono (fun m j hleads hm => ?_) fun _ _ _ _ hm => hm
    have hmf : m ≠ f := by
      rintro rfl
      rcases hleads with ⟨hk, i, hne, hp⟩ | ⟨hk, i, hc⟩
      · exact Finset.notMem_empty n (hholders ▸ h.mem_holders.mpr ⟨hk ▸ hn', i, hne, hp⟩)
      · -- tables lead to tables
        have hrow := h.row n k hn'
        by_cases hi : k = 3 → i.val < 256
        · rcases hrow.table hk i hi with h0 | ⟨m', hm', hlm⟩
          · rw [h0] at hc
            cases hc
          · obtain rfl := Option.some.inj (hc.symm.trans hm')
            rw [hf] at hlm
            have := Option.some.inj hlm
            omega
        · push Not at hi
          rw [hrow.root hi.1 i hi.2, child_kernelEntry] at hc
          cases hc
    rwa [Function.update_of_ne hmf]
  · rw [hfr.meta_eq] at hg
    refine (hfr.used g).mpr ⟨h.meta_used g hg, ?_⟩
    rintro rfl
    exact hg hnone
  · rw [hfr.meta_eq] at hd
    have hsame : holders s' (Function.update lvl f none) g = holders s lvl g := by
      refine holders_congr (start_congr hfr.addr_eq) fun n => ?_
      rw [Refers, Refers, hfr.mem_eq]
      refine and_congr_left fun _ => ?_
      by_cases hnf : n = f
      · rw [hnf, Function.update_self, hf]
        exact ⟨fun h => (nomatch h), fun h => by cases h⟩
      · rw [Function.update_of_ne hnf]
    rw [hsame]
    exact h.refs g d hd

end Steps
end Efiks.Mm

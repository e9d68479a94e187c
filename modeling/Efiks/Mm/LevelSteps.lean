import Efiks.Mm.FrameLevels
import Efiks.Mm.Leaves

/-!
# Mapping and copying keep the levels

The code that works on page tables, step by step: a walk from a root goes down the
levels, a missing table is made at the level below, a page is mapped to a fresh data
frame, and `copy_on_write` moves a page to one.

## Main definitions

* `Grows` — tables were added, and nothing else.
* `KeepsRoots` — what a method does to the levels.

## Main results

* `wp_mapVm_typed`, `wp_copyOnWrite_typed`.
-/
namespace Efiks.Mm
open Lib Lib.RustM PageTableEntry

/-- Tables were added below others. -/
structure Grows (s : MemState) (lvl : Levels) (s' : MemState) (lvl' : Levels) : Prop where
  typed : Typed s' lvl' fun _ => 0
  keep : ∀ n j, lvl n = some j → lvl' n = some j
  holders_eq : ∀ f, holders s' lvl' f = holders s lvl f
  meta_eq : s'.pageMeta = s.pageMeta

/-- The levels are right again, and every root is still one. -/
def KeepsRoots (lvl : Levels) (s' : MemState) : Prop :=
  ∃ lvl', Typed s' lvl' (fun _ => 0) ∧ ∀ n, lvl n = some 3 → lvl' n = some 3

section Tables
variable {s s' s'' : MemState} {lvl lvl' lvl'' : Levels} {r t n f k va : ℕ} {i : Fin 512}
variable {flags : PteFlags} {E : Error → MemState → Prop}

theorem Grows.refl (h : Typed s lvl fun _ => 0) : Grows s lvl s lvl :=
  ⟨h, fun _ _ hn => hn, fun _ => rfl, rfl⟩

theorem Grows.trans (h : Grows s lvl s' lvl') (h' : Grows s' lvl' s'' lvl'') :
    Grows s lvl s'' lvl'' where
  typed := h'.typed
  keep n j hn := h'.keep n j (h.keep n j hn)
  holders_eq f := (h'.holders_eq f).trans (h.holders_eq f)
  meta_eq := h'.meta_eq.trans h.meta_eq

theorem wp_oom {Q : ℕ → MemState → Prop} (hp : s.Placed)
    (h : ∀ n s', Allocated s n s' → Q (4096 * n) s') :
    wp allocFrameUnwrap Q E (fun _ => True) s :=
  wp_allocFrameUnwrap hp (fun _ _ => trivial) h

/-- The next table exists or is made. -/
theorem wp_getOrCreateNextTable_typed {Q : ℕ → MemState → Prop} (h : Typed s lvl fun _ => 0)
    (ht : lvl t = some k) (hk : 2 ≤ k) (hlow : k = 3 → i.val < 256)
    (hQ : ∀ n s' lvl', Grows s lvl s' lvl' → lvl' n = some (k - 1) → Q n s') :
    wp (PageTable.getOrCreateNextTable t i) Q E (fun _ => True) s := by
  rw [PageTable.getOrCreateNextTable, wp_bind, wp_gets]
  rcases (h.row t k ht).table hk i hlow with h0 | ⟨m, hm, hlm⟩
  · have hinv : (s.mem t i).isValid = false := by
      rw [h0]
      rfl
    rw [hinv, if_neg Bool.false_ne_true, wp_bind]
    refine wp_oom h.placed fun n s₁ ha => ?_
    have hbound := (h.row t k ht).bound
    rw [wp_bind, wp_assert]
    refine ⟨fun _ => ?_, fun _ => trivial⟩
    rw [wp_bind, wp_zeroFrame, wp_bind, wp_setPhysicalAddress, wp_bind, wp_modify, wp_pure,
      mul_pageSize_div]
    have hn := ((ha.placed h.placed).range ha.used_self).2
    have htyped := h.alloc ha (fun _ => rowOk_zero (k := k - 1) (by omega)) fun _ => rfl
    have htn : t ≠ n := fun htn : t = n => ha.fresh (htn ▸ h.used t k ht)
    have hlt : Function.update lvl n (some (k - 1)) t = some k := by
      rwa [Function.update_of_ne htn]
    refine hQ n _ _ ⟨htyped.link hlt hk hlow (child_newValid (by omega))
      (Function.update_self ..), fun m j hm => ?_, fun f => ?_, ?_⟩ (Function.update_self ..)
    · rwa [Function.update_of_ne fun hmn : m = n => ha.fresh (hmn ▸ h.used m j hm)]
    · rw [holders_setEntry hlt fun h1 => by omega, h.holders_alloc ha fun _ => rfl]
    · rw [setEntry_pageMeta, setFrame_pageMeta, ha.meta_eq]
  · obtain ⟨hv, hl, hp⟩ := child_eq_some hm
    rw [hv, if_pos rfl, hl, if_neg Bool.false_ne_true, wp_pure, physicalAddress_eq,
      mul_pageSize_div, hp]
    exact hQ m s lvl (Grows.refl h) hlm

/-- A page is mapped to the data frame `f`, which is counted afterwards. -/
theorem wp_mapLeaf_typed {Q : Unit → MemState → Prop} (h : Typed s lvl fun _ => 0)
    (ht : lvl t = some 1) (hf : lvl f = some 0)
    (hholders : holders s lvl f = ∅) (hU : flags.getLsbD 4 = true)
    (hQ : ∀ s', s'.pageMeta = s.pageMeta →
      Typed (Page.set (4096 * f) (some 1) s') lvl (fun _ => 0) → Q () s') :
    wp (PageTable.mapLeaf t i (some (4096 * f)) flags) Q E (fun _ => True) s := by
  have hfu := h.used f 0 hf
  have hppn : (leafEntry (4096 * f) flags).ppn = f :=
    ppn_leafEntry (by have := (h.placed.range hfu).2; omega)
  rcases (h.row t 1 ht).bottom rfl i with h0 | ⟨hv, hu, -, hcount⟩
  · rw [wp_mapLeaf_empty h0]
    refine hQ _ rfl ?_
    have hmapped := h.mapped (e := leafEntry (4096 * f) flags) ht h0 (by rwa [hppn])
      (by rwa [hppn]) rfl (leafEntry_isValid ..) (by rwa [leafEntry_isUser])
    rwa [hppn] at hmapped
  · by_cases hl : (s.mem t i).isLeaf = true
    · rw [wp_mapLeaf_leaf hl]
      refine hQ _ rfl ?_
      have hV : (flags ||| PteFlags.V ||| PteFlags.A ||| PteFlags.D).getLsbD 0 = true := by
        simp only [BitVec.getLsbD_or]
        rw [show PteFlags.V.getLsbD 0 = true from rfl, Bool.or_true, Bool.true_or, Bool.true_or]
      have hflagged := h.flagged (e := (s.mem t i).setFlags
        (flags ||| PteFlags.V ||| PteFlags.A ||| PteFlags.D)) ht (ne_zero_of_isValid hv)
        (by rw [isValid_eq, getLsbD_setFlags, hV, Bool.or_true])
        (by rw [isUser_eq, getLsbD_setFlags, ← isUser_eq, hu, Bool.true_or]) ppn_setFlags
        fun _ => by rw [ppn_setFlags]; exact hcount hl
      refine hflagged.recount hfu (fun _ _ _ => rfl) ?_
      rw [holders_setEntry ht fun _ g => ?_, hholders]
      · exact ⟨by decide, by decide⟩
      · -- the entry leads where it led
        rw [refers_setEntry, ppn_setFlags]
        constructor
        · rintro (⟨-, hp⟩ | ⟨j, -, hj⟩)
          · exact ⟨i, ne_zero_of_isValid hv, hp⟩
          · exact ⟨j, hj⟩
        · rintro ⟨j, hj, hp⟩
          by_cases hji : j = i
          · rw [hji] at hp
            refine Or.inl ⟨ne_zero_of_isValid ?_, hp⟩
            rw [isValid_eq, getLsbD_setFlags, hV, Bool.or_true]
          · exact Or.inr ⟨j, hji, hj, hp⟩
    · rw [Bool.not_eq_true] at hl
      rw [PageTable.mapLeaf, wp_bind, wp_gets, hv, hl]
      simp only [Bool.not_false, Bool.and_self, if_true, wp_panic]

/-- **A page of the lower half is mapped.** -/
theorem wp_mapVm_typed {Q : Unit → MemState → Prop} (h : Typed s lvl fun _ => 0)
    (hr : lvl r = some 3) (hva : va < 2 ^ 38) (hf : lvl f = some 0)
    (hholders : holders s lvl f = ∅) (hU : flags.getLsbD 4 = true)
    (hQ : ∀ s' lvl', va % 4096 = 0 → s'.pageMeta = s.pageMeta →
      (∀ n j, lvl n = some j → lvl' n = some j) →
      Typed (Page.set (4096 * f) (some 1) s') lvl' (fun _ => 0) → Q () s') :
    wp (PageTable.mapVm (4096 * r) va (4096 * f) flags) Q E (fun _ => True) s := by
  rw [PageTable.mapVm, PageTable.mapMemory, wp_bind, PageTable.checkMappingAlignment, wp_bind,
    wp_assert]
  refine ⟨fun hal => ?_, fun _ => trivial⟩
  rw [wp_assert]
  refine ⟨fun _ => ?_, fun _ => trivial⟩
  rw [wp_bind, mul_pageSize_div]
  refine wp_getOrCreateNextTable_typed h hr (by omega) (fun _ => vpn2_lt_of_lower hva)
    fun l1 s₁ lvl₁ h₁ hl1 => ?_
  rw [wp_bind]
  refine wp_getOrCreateNextTable_typed h₁.typed hl1 (by omega) (fun h3 => by omega)
    fun l0 s₂ lvl₂ h₂ hl0 => ?_
  have hg := h₁.trans h₂
  refine wp_mapLeaf_typed hg.typed hl0 (hg.keep f 0 hf) ?_ hU fun s' hmeta htyped =>
    hQ s' lvl₂ (beq_iff_eq.mp hal) (hmeta.trans hg.meta_eq) hg.keep htyped
  rw [hg.holders_eq]
  exact hholders

/-- A leaf that is found is a gigabyte of the kernel or a page. -/
theorem Typed.translate_cases (h : Typed s lvl fun _ => 0) (hr : lvl r = some 3) {size : PageSize}
    (htr : PageTable.translateToPtePtr s.mem (4096 * r) va = some (n, i, size)) :
    size = .size1G ∨ (size = .size4K ∧ lvl n = some 1 ∧ (s.mem n i).isLeaf = true) := by
  rw [PageTable.translateToPtePtr, mul_pageSize_div] at htr
  by_cases hlow : (vpn2 va).val < 256
  · rcases (h.row r 3 hr).table (by omega) (vpn2 va) (fun _ => hlow) with h0 | ⟨l1, hl1, hlvl1⟩
    · rw [walk_empty h0] at htr
      cases htr
    · rw [walk_pointer hl1] at htr
      rcases (h.row l1 2 hlvl1).table le_rfl (vpn1 va) (fun h3 => by omega) with
        h0 | ⟨l0, hl0, hlvl0⟩
      · rw [walk_empty h0] at htr
        cases htr
      · rw [walk_pointer hl0] at htr
        rcases (h.row l0 1 hlvl0).bottom rfl (vpn0 va) with h0 | ⟨hv, -⟩
        · rw [walk_empty h0] at htr
          cases htr
        · by_cases hl : (s.mem l0 (vpn0 va)).isLeaf = true
          · rw [walk_leaf hl] at htr
            cases htr
            exact Or.inr ⟨rfl, hlvl0, hl⟩
          · rw [Bool.not_eq_true] at hl
            simp only [PageTable.walk, hv, hl, Bool.not_true, Bool.false_eq_true, if_false] at htr
            cases htr
  · have hk := (h.row r 3 hr).root rfl (vpn2 va) (by omega)
    by_cases hl : (s.mem r (vpn2 va)).isLeaf = true
    · rw [walk_leaf hl] at htr
      cases htr
      exact Or.inl rfl
    · have h0 : s.mem r (vpn2 va) = 0 := by
        rw [hk] at hl ⊢
        unfold kernelEntry at hl ⊢
        split at hl
        · exact absurd (leafEntry_isLeaf _ (by decide)) hl
        · split at hl
          · exact absurd (leafEntry_isLeaf _ (by decide)) hl
          · rename_i h₁ h₂
            rw [if_neg h₁, if_neg h₂]
            rfl
      rw [walk_empty h0] at htr
      cases htr

/-- The end of `copy_on_write`: the page is at `g`, and `f` loses a reference. -/
theorem Typed.wp_release {g : ℕ} {c : UInt16} (h : Typed s lvl fun _ => 0) (hn : lvl n = some 1)
    (hv : (s.mem n i).isValid = true) (hu : (s.mem n i).isUser = true) (hf : (s.mem n i).ppn = f)
    (hg : lvl g = some 0) (hgm : s.pageMeta (4096 * g) = some 1) (hgh : holders s lvl g = ∅)
    (hg44 : g < 2 ^ 44) (hc : s.pageMeta (4096 * f) = some c) :
    wp (Page.remove (4096 * f)) (fun b s' =>
      wp (if b = 0 then freeFrame (4096 * f) else pure ()) (fun _ s'' => KeepsRoots lvl s'')
        (fun _ _ => False) (fun _ => True) s') (fun _ _ => True) (fun _ => True)
      (s.setEntry n i (cowEntry (s.mem n i) g)) := by
  have hne := ne_zero_of_isValid hv
  have hppn := ppn_cowEntry (s.mem n i) hg44
  have hf0 : lvl f = some 0 := h.refers_level hn ⟨i, hne, hf⟩
  have hheld : 0 < (holders s lvl f).card :=
    Finset.card_pos.mpr ⟨n, h.mem_holders.mpr ⟨hn, i, hne, hf⟩⟩
  have hcount := h.refs f c hc
  have hc0 : c ≠ 0 := by
    rintro rfl
    have hz : (0 : UInt16).toNat = 0 := rfl
    omega
  obtain ⟨htyped, hcard⟩ := h.redirect (e := cowEntry (s.mem n i) g) hn hne hf (by rwa [hppn])
    (by rwa [hppn]) (by rwa [hppn])
    (by rw [isValid_eq, getLsbD_cowEntry _ _ (by omega), ← isValid_eq, hv, Bool.true_or])
    (isUser_cowEntry g hu) hc hc0
  rw [wp_pageRemove (by rwa [setEntry_pageMeta]) hc0]
  by_cases h1 : c - 1 = 0
  · rw [if_pos h1]
    have hzero := toNat_sub_one hc0
    rw [h1] at hzero
    have hz : (0 : UInt16).toNat = 0 := rfl
    refine wp_freeFrame htyped.placed (h.used f 0 hf0) fun s' hfr => ?_
    refine ⟨_, htyped.freed hf0 ?_ (Finset.card_eq_zero.mp (by omega)) hfr, fun m hm => ?_⟩
    · rw [pageSet_self, Page.drop, if_pos h1]
    · rwa [Function.update_of_ne fun hmf : m = f => by rw [hmf, hf0] at hm; cases hm]
  · rw [if_neg h1, wp_pure]
    exact ⟨lvl, htyped, fun _ hm => hm⟩

/-- **A page is copied on write.** -/
theorem wp_copyOnWrite_typed (h : Typed s lvl fun _ => 0) (hr : lvl r = some 3) :
    wp (PageTable.copyOnWrite (4096 * r) va) (fun _ s' => KeepsRoots lvl s') (fun _ _ => False)
      (fun _ => True) s := by
  rw [PageTable.copyOnWrite, wp_bind, wp_gets]
  cases htr : PageTable.translateToPtePtr s.mem (4096 * r) va with
  | none =>
      rw [wp_bind, expect, wp_panic]
      trivial
  | some x =>
      obtain ⟨n, i, size⟩ := x
      rw [expect_some_bind]
      rcases h.translate_cases hr htr with rfl | ⟨rfl, hn, hl⟩
      · simp only [ne_eq, reduceCtorEq, not_false_eq_true, if_true, wp_panic]
      · simp only [ne_eq, not_true_eq_false, if_false]
        have hrow := h.row n 1 hn
        rcases hrow.bottom rfl i with h0 | ⟨hv, hu, hf, hcount⟩
        · rw [h0] at hl
          cases hl
        · obtain ⟨c, hc⟩ := Option.ne_none_iff_exists'.mp (hcount hl)
          have hne := ne_zero_of_isValid hv
          rw [wp_bind, wp_gets, physicalAddress_eq, wp_bind]
          refine wp_allocFrameExpect h.placed (fun _ _ _ => trivial) fun g s₁ ha => ?_
          have hg := (ha.placed h.placed).range ha.used_self
          have hgf : (s.mem n i).ppn ≠ g := fun hgf => ha.fresh (hgf ▸ h.used _ 0 hf)
          have hng : n ≠ g := fun hng : n = g => ha.fresh (hng ▸ h.used n 1 hn)
          -- the new frame is a copy of a data frame, so it is zero
          have hzero : s₁.mem (s.mem n i).ppn = fun _ => 0 := by
            rw [ha.mem_eq]
            exact (h.row _ 0 hf).data rfl
          rw [wp_bind, wp_copyFrame, hzero, wp_bind, wp_pageAdd, wp_bind, wp_gets, wp_bind,
            wp_setPhysicalAddress, wp_bind, wp_modify, wp_bind, wp_expectOk]
          have hnone : (s₁.setFrame g fun _ => 0).pageMeta (4096 * g) = none := by
            rw [setFrame_pageMeta, ha.meta_eq]
            exact h.meta_none ha.fresh
          rw [hnone, show Page.bump none = 1 from rfl]
          have htyped := h.alloc ha (fun _ => rowOk_zero (k := 0) (by omega)) fun _ => rfl
          have hgh : holders (s₁.setFrame g fun _ => 0) (Function.update lvl g (some 0)) g = ∅ := by
            rw [h.holders_alloc ha fun _ => rfl]
            refine h.holders_eq_empty ?_
            rw [h.level_none ha.fresh]
            simp
          have hgu : (s₁.setFrame g fun _ => 0).used g := ha.used_self
          have htyped₂ := htyped.recount (c := 1) hgu (fun _ _ _ => rfl)
            (by rw [hgh]; exact ⟨by decide, by decide⟩)
          -- the entry now, and as it will be
          have hentry : (Page.set (4096 * g) (some 1) (s₁.setFrame g fun _ => 0)).mem n i =
              s.mem n i := by
            rw [pageSet_mem, setFrame_of_ne _ hng, ha.mem_eq]
          have hrelease := htyped₂.wp_release (f := (s.mem n i).ppn) (g := g) (i := i) (c := c)
            (by rwa [Function.update_of_ne hng]) (hentry ▸ hv) (hentry ▸ hu) (congrArg ppn hentry)
            (Function.update_self ..) (pageSet_self _)
            (by rw [← hgh]; exact holders_congr rfl fun _ => Iff.rfl) (by omega)
            (by rw [pageSet_of_ne _ (by omega), setFrame_pageMeta, ha.meta_eq]; exact hc)
          simp only [hentry] at hrelease ⊢
          refine wp_mono hrelease (fun b s' hs' => ?_) (fun _ _ hE => hE) fun _ hN => hN
          refine wp_mono hs' (fun _ s'' hs'' => ?_) (fun _ _ hE => hE) fun _ hN => hN
          obtain ⟨lvl', ht', hroots⟩ := hs''
          refine ⟨lvl', ht', fun m hm => hroots m ?_⟩
          rwa [Function.update_of_ne fun hmg : m = g => ha.fresh (hmg ▸ h.used m 3 hm)]

end Tables
end Efiks.Mm

import Efiks.Mm.Tables

/-!
# Translation and changes of one leaf

On well-shaped tables the walk of the source ends at the bottom-level entry of the
page, so `translate` is a function of `pteAt`. `copy_on_write` and `remap_vm`
change that one entry.

## Main results

* `translateToPtePtr_eq_none`, `translateToPtePtr_eq_some`, `translate_eq`.
* `wp_copyOnWrite`, `wp_remapVm`.
-/
namespace Efiks.Mm
open Lib Lib.RustM PageTableEntry

section Walk
variable {s : MemState} {r va : ℕ}

/-- A pointer that is not empty leads to the next table. -/
theorem walk_pointer {t n : ℕ} {i : Fin 512} {size : PageSize}
    {rest : List (Fin 512 × PageSize)} (h : child (s.mem t i) = some n) :
    PageTable.walk s.mem ((i, size) :: rest) t = PageTable.walk s.mem rest n := by
  obtain ⟨hv, hl, hppn⟩ := child_eq_some h
  simp only [PageTable.walk, hv, hl, Bool.not_true, Bool.false_eq_true, if_false,
    physicalAddress_eq, mul_pageSize_div, hppn]

theorem walk_empty {t : ℕ} {i : Fin 512} {size : PageSize} {rest : List (Fin 512 × PageSize)}
    (h : s.mem t i = 0) : PageTable.walk s.mem ((i, size) :: rest) t = none := by
  have hv : isValid (0 : PageTableEntry) = false := by decide
  simp only [PageTable.walk, h, hv, Bool.not_false, if_true]

theorem walk_leaf {t : ℕ} {i : Fin 512} {size : PageSize} {rest : List (Fin 512 × PageSize)}
    (h : (s.mem t i).isLeaf = true) :
    PageTable.walk s.mem ((i, size) :: rest) t = some (t, i, size) := by
  simp only [PageTable.walk, isValid_of_isLeaf h, h, Bool.not_true, Bool.false_eq_true, if_false,
    if_true]

/-- The walk of a user address goes through its bottom table, or stops at an empty
entry above. -/
theorem translateToPtePtr_cases (hs : Shape s r) (hva : va < 2 ^ 38) :
    (∃ n, tableAt s r [vpn2 va, vpn1 va] = some n ∧
      PageTable.translateToPtePtr s.mem (4096 * r) va =
        PageTable.walk s.mem [(vpn0 va, .size4K)] n) ∨
    (tableAt s r [vpn2 va, vpn1 va] = none ∧
      PageTable.translateToPtePtr s.mem (4096 * r) va = none) := by
  unfold PageTable.translateToPtePtr
  rw [mul_pageSize_div]
  rcases hs.user (vpn2 va) (vpn2_lt_of_lower hva) with h2 | ⟨l1, h2⟩
  · right
    rw [walk_empty h2, tableAt, nodeAt_cons, h2]
    exact ⟨rfl, rfl⟩
  · have hl1 : tableAt s r [vpn2 va] = some l1 := by rw [tableAt, nodeAt_cons, h2]; rfl
    rw [walk_pointer h2]
    rcases hs.middle _ l1 (vpn1 va) hl1 with h1 | ⟨l0, h1⟩
    · right
      rw [walk_empty h1, tableAt, nodeAt_cons, h2, Option.bind_some, nodeAt_cons, h1]
      exact ⟨rfl, rfl⟩
    · left
      refine ⟨l0, ?_, walk_pointer h1⟩
      rw [tableAt, nodeAt_cons, h2, Option.bind_some, nodeAt_cons, h1]
      rfl

theorem translateToPtePtr_eq_none (hs : Shape s r) (hva : va < 2 ^ 38)
    (h : pteAt s r (vpn va) = 0) : PageTable.translateToPtePtr s.mem (4096 * r) va = none := by
  rcases translateToPtePtr_cases hs hva with ⟨n, hn, heq⟩ | ⟨-, heq⟩
  · have hn' : tableAt s r [(vpn va).1, (vpn va).2.1] = some n := hn
    rw [heq]
    exact walk_empty ((pteAt_of_tableAt hn').symm.trans h)
  · exact heq

theorem translateToPtePtr_eq_some (hs : Shape s r) (hva : va < 2 ^ 38)
    (h : pteAt s r (vpn va) ≠ 0) :
    ∃ n, tableAt s r [(vpn va).1, (vpn va).2.1] = some n ∧
      PageTable.translateToPtePtr s.mem (4096 * r) va = some (n, vpn0 va, .size4K) ∧
      s.mem n (vpn0 va) = pteAt s r (vpn va) ∧ (pteAt s r (vpn va)).isLeaf = true ∧
      (pteAt s r (vpn va)).isUser = true ∧ ReadOrExec (pteAt s r (vpn va)) := by
  rcases translateToPtePtr_cases hs hva with ⟨n, hn, heq⟩ | ⟨hn, -⟩
  · have hn' : tableAt s r [(vpn va).1, (vpn va).2.1] = some n := hn
    have hpte := pteAt_of_tableAt hn'
    obtain ⟨hl, hu, hx⟩ := (hs.bottom _ _ n (vpn va).2.2 hn').resolve_left (hpte ▸ h)
    refine ⟨n, hn', ?_, hpte.symm, hpte ▸ hl, hpte ▸ hu, hpte ▸ hx⟩
    rw [heq]
    exact walk_leaf hl
  · have hn' : tableAt s r [(vpn va).1, (vpn va).2.1] = none := hn
    exact absurd (by simp only [pteAt, hn']) h

theorem translate_eq (hs : Shape s r) (hva : va < 2 ^ 38) :
    PageTable.translate s.mem (4096 * r) va =
      if pteAt s r (vpn va) = 0 then none
      else some (4096 * (pteAt s r (vpn va)).ppn + va % 4096) := by
  unfold PageTable.translate
  by_cases h : pteAt s r (vpn va) = 0
  · rw [translateToPtePtr_eq_none hs hva h, if_pos h]
    rfl
  · obtain ⟨n, -, heq, hpte, -⟩ := translateToPtePtr_eq_some hs hva h
    rw [heq, if_neg h, Option.map_some]
    simp only [hpte, physicalAddress_eq, PageSize.bytes]

end Walk

section CopyOnWrite
variable {s : MemState} {r f va : ℕ} {c : UInt16} {Q : Unit → MemState → Prop}
variable {E : Error → MemState → Prop} {N : Panic → Prop}

/-- The entry of a page after its copy on write into frame `g`. -/
def cowEntry (e : PageTableEntry) (g : ℕ) : PageTableEntry :=
  (e.setPhysicalAddress (4096 * g)).setFlags PteFlags.W

/-- What `copy_on_write` does to page `v`, whose frame `f` is counted `c` times:
the page moves to the fresh frame `g`. -/
structure Copied (s s' : MemState) (r : ℕ) (v : Vpn) (f g : ℕ) (c : UInt16) : Prop where
  fresh : ¬ s.used g
  shape : Shape s' r
  table : ∀ p, tableAt s' r p = tableAt s r p
  pte_self : pteAt s' r v = cowEntry (pteAt s r v) g
  pte_other : ∀ w, w ≠ v → pteAt s' r w = pteAt s r w
  used : ∀ n, s'.used n ↔ n = g ∨ (s.used n ∧ ¬ (n = f ∧ c = 1))
  mem_new : s'.mem g = s.mem f
  mem_other : ∀ n, n ≠ g → (∀ p, tableAt s r p ≠ some n) → s'.mem n = s.mem n
  meta_old : s'.pageMeta (4096 * f) = Page.drop c
  meta_new : s'.pageMeta (4096 * g) = some (Page.bump (s.pageMeta (4096 * g)))
  meta_other : ∀ a, a ≠ 4096 * f → a ≠ 4096 * g → s'.pageMeta a = s.pageMeta a
  addr_eq : s'.frames.startAddr = s.frames.startAddr

theorem getLsbD_cowEntry (e : PageTableEntry) (g : ℕ) {i : ℕ} (hi : i < 10) :
    (cowEntry e g).getLsbD i = (e.getLsbD i || PteFlags.W.getLsbD i) := by
  rw [cowEntry, getLsbD_setFlags, getLsbD_setPhysicalAddress _ _ hi]

theorem isLeaf_cowEntry {e : PageTableEntry} (g : ℕ) (h : e.isLeaf = true) :
    (cowEntry e g).isLeaf = true := by
  rw [isLeaf_eq] at h ⊢
  rw [getLsbD_cowEntry _ _ (by norm_num), getLsbD_cowEntry _ _ (by norm_num),
    getLsbD_cowEntry _ _ (by norm_num), getLsbD_cowEntry _ _ (by norm_num)]
  simp only [Bool.and_eq_true, Bool.or_eq_true] at h ⊢
  have hW : PteFlags.W.getLsbD 2 = true := by decide
  exact ⟨Or.inl h.1, Or.inl (Or.inr (Or.inr hW))⟩

theorem isUser_cowEntry {e : PageTableEntry} (g : ℕ) (h : e.isUser = true) :
    (cowEntry e g).isUser = true := by
  rw [isUser_eq] at h ⊢
  rw [getLsbD_cowEntry _ _ (by norm_num), h, Bool.true_or]

theorem readOrExec_cowEntry {e : PageTableEntry} (g : ℕ) (h : ReadOrExec e) :
    ReadOrExec (cowEntry e g) := by
  unfold ReadOrExec at h ⊢
  rw [getLsbD_cowEntry _ _ (by norm_num), getLsbD_cowEntry _ _ (by norm_num)]
  simp only [Bool.or_eq_true] at h ⊢
  tauto

theorem isWritable_cowEntry (e : PageTableEntry) (g : ℕ) : (cowEntry e g).isWritable = true := by
  rw [isWritable_eq, getLsbD_cowEntry _ _ (by norm_num), Bool.or_eq_true]
  exact Or.inr (by decide)

theorem ppn_cowEntry {g : ℕ} (e : PageTableEntry) (hg : g < 2 ^ 44) : (cowEntry e g).ppn = g := by
  rw [cowEntry, ppn_setFlags, ppn_setPhysicalAddress hg]

theorem wp_copyFrame {n m : ℕ} :
    wp (copyFrame (4096 * n) (4096 * m)) Q E N s ↔ Q () (s.setFrame m (s.mem n)) := by
  rw [copyFrame, wp_modify, mul_pageSize_div, mul_pageSize_div]

/-- **Copy on write** of a mapped page. -/
theorem wp_copyOnWrite (hp : s.Placed) (hs : Shape s r) (hva : va < 2 ^ 38)
    (hne : pteAt s r (vpn va) ≠ 0) (hf : (pteAt s r (vpn va)).ppn = f) (hfu : s.used f)
    (hft : ∀ p, tableAt s r p ≠ some f) (hc : s.pageMeta (4096 * f) = some c) (hc0 : c ≠ 0)
    (hN : ∀ p, OutOfMemory p → N p)
    (h : ∀ g s', Copied s s' r (vpn va) f g c → Q () s') :
    wp (PageTable.copyOnWrite (4096 * r) va) Q E N s := by
  obtain ⟨t, ht, hptr, hpte, hl, hu, hx⟩ := translateToPtePtr_eq_some hs hva hne
  simp only [PageTable.copyOnWrite, wp_bind, wp_gets, hptr, expect, wp_pure, ne_eq,
    not_true_eq_false, if_false, hpte, physicalAddress_eq, hf]
  refine wp_allocFrameExpect hp (fun _ => hN) fun g s₁ ha => ?_
  have htu : s.used t := hs.used _ t ht
  have htg : t ≠ g := fun h => ha.fresh (h ▸ htu)
  have hfg : f ≠ g := fun h => ha.fresh (h ▸ hfu)
  have hg : g < 2 ^ 44 := by
    have := (ha.placed hp).range ha.used_self
    omega
  have haddr : 4096 * f ≠ 4096 * g := by omega
  rw [wp_copyFrame, wp_pageAdd]
  set s₂ := Page.set (4096 * g) (some (Page.bump ((s₁.setFrame g (s₁.mem f)).pageMeta (4096 * g))))
    (s₁.setFrame g (s₁.mem f)) with hs₂
  have hmem₂ : ∀ n, n ≠ g → s₂.mem n = s.mem n := fun n hn => by
    rw [hs₂, pageSet_mem, setFrame_of_ne _ hn, ha.mem_eq]
  have htab₂ : ∀ p n, tableAt s r p = some n → s₂.mem n = s.mem n := fun p n hpn =>
    hmem₂ n fun h => ha.fresh (h ▸ hs.used p n hpn)
  have hshape₂ : Shape s₂ r :=
    hs.congr htab₂ fun p n hpn => (ha.used n).mpr (Or.inl (hs.used p n hpn))
  have ht₂ : tableAt s₂ r [(vpn va).1, (vpn va).2.1] = some t := by rw [tableAt_congr htab₂, ht]
  have hleaf : IsUserLeaf (cowEntry (pteAt s r (vpn va)) g) :=
    Or.inr ⟨isLeaf_cowEntry g hl, isUser_cowEntry g hu, readOrExec_cowEntry g hx⟩
  set s₃ := s₂.setEntry t (vpn va).2.2 (cowEntry (pteAt s r (vpn va)) g) with hs₃
  have hcount : s₃.pageMeta (4096 * f) = some c := by
    rw [hs₃, setEntry_pageMeta, hs₂, pageSet_of_ne _ haddr, setFrame_pageMeta, ha.meta_eq, hc]
  rw [hmem₂ t htg, hpte, wp_setPhysicalAddress, wp_modify, wp_expectOk]
  change wp (Page.remove (4096 * f)) _ _ _ s₃
  rw [wp_pageRemove hcount hc0]
  -- everything but the last free
  have hcopied : ∀ s', (∀ n, s'.used n ↔ n = g ∨ (s.used n ∧ ¬ (n = f ∧ c = 1))) →
      s'.mem = s₃.mem →
      s'.pageMeta = (Page.set (4096 * f) (Page.drop c) s₂).pageMeta →
      s'.frames.startAddr = s.frames.startAddr → Copied s s' r (vpn va) f g c := by
    intro s' hused hmem hmeta hstart
    have hsame : ∀ p n, tableAt s₃ r p = some n → s'.mem n = s₃.mem n := fun _ n _ => by rw [hmem]
    have htab : ∀ p, tableAt s' r p = tableAt s r p := fun p => by
      rw [tableAt_congr hsame, tableAt_setLeaf hshape₂ ht₂ hleaf, tableAt_congr htab₂]
    refine
      { fresh := ha.fresh
        shape := (shape_setLeaf hshape₂ ht₂ hleaf).congr hsame fun p n hpn => ?_
        table := htab
        pte_self := ?_
        pte_other := fun w hw => ?_
        used := hused
        mem_new := ?_
        mem_other := fun n hn hno => ?_
        meta_old := by rw [hmeta, pageSet_self]
        meta_new := ?_
        meta_other := fun a haf hag => ?_
        addr_eq := hstart }
    · rw [tableAt_setLeaf hshape₂ ht₂ hleaf, tableAt_congr htab₂] at hpn
      exact (hused n).mpr (Or.inr ⟨hs.used p n hpn, fun h => hft p (h.1 ▸ hpn)⟩)
    · rw [pteAt_congr hsame, pteAt_setLeaf hshape₂ ht₂ hleaf, if_pos rfl]
    · rw [pteAt_congr hsame, pteAt_setLeaf hshape₂ ht₂ hleaf, if_neg hw, pteAt_congr htab₂]
    · rw [hmem, hs₃, setEntry_of_ne htg.symm, hs₂, pageSet_mem, setFrame_self, ha.mem_eq]
    · rw [hmem, hs₃, setEntry_of_ne fun h => hno _ (h ▸ ht), hmem₂ n hn]
    · rw [hmeta, pageSet_of_ne _ haddr.symm, hs₂, pageSet_self, setFrame_pageMeta, ha.meta_eq]
    · rw [hmeta, pageSet_of_ne _ haf, hs₂, pageSet_of_ne _ hag, setFrame_pageMeta, ha.meta_eq]
  rw [wp_ite]
  refine ⟨fun hlast => ?_, fun hmore => ?_⟩
  · have hc1 : c = 1 := sub_eq_zero.mp hlast
    refine wp_freeFrame (hp.congr ha.addr_eq) ((ha.used f).mpr (Or.inl hfu)) fun s' hfree => ?_
    refine h g s' (hcopied s' (fun n => ?_) hfree.mem_eq hfree.meta_eq
      (hfree.addr_eq.trans ha.addr_eq))
    rw [hfree.used]
    change s₁.used n ∧ n ≠ f ↔ _
    rw [ha.used]
    constructor
    · rintro ⟨hn | rfl, hnf⟩
      · exact Or.inr ⟨hn, fun h => hnf h.1⟩
      · exact Or.inl rfl
    · rintro (rfl | ⟨hn, hnf⟩)
      · exact ⟨Or.inr rfl, hfg.symm⟩
      · exact ⟨Or.inl hn, fun h => hnf ⟨h, hc1⟩⟩
  · have hc1 : c ≠ 1 := fun h => hmore (sub_eq_zero.mpr h)
    rw [wp_pure]
    refine h g _ (hcopied _ (fun n => ?_) rfl rfl ha.addr_eq)
    change s₁.used n ↔ _
    rw [ha.used, or_comm]
    simp [hc1]

end CopyOnWrite

section Remap
variable {s : MemState} {r va : ℕ} {flags : PteFlags} {Q : Unit → MemState → Prop}
variable {E : Error → MemState → Prop} {N : Panic → Prop}

/-- The entry of a page after `remap_vm`. -/
def remapEntry (e : PageTableEntry) (flags : PteFlags) : PageTableEntry :=
  e.setFlags (flags ||| PteFlags.V ||| PteFlags.A ||| PteFlags.D)

theorem isLeaf_setFlags {e : PageTableEntry} (h : e.isLeaf = true) :
    (e.setFlags flags).isLeaf = true := by
  rw [isLeaf_eq] at h ⊢
  rw [getLsbD_setFlags, getLsbD_setFlags, getLsbD_setFlags, getLsbD_setFlags]
  simp only [Bool.and_eq_true, Bool.or_eq_true] at h ⊢
  tauto

theorem isUser_setFlags {e : PageTableEntry} (h : e.isUser = true) :
    (e.setFlags flags).isUser = true := by
  rw [isUser_eq] at h ⊢
  rw [getLsbD_setFlags, h, Bool.true_or]

theorem readOrExec_setFlags {e : PageTableEntry} (h : ReadOrExec e) :
    ReadOrExec (e.setFlags flags) := by
  unfold ReadOrExec at h ⊢
  rw [getLsbD_setFlags, getLsbD_setFlags]
  simp only [Bool.or_eq_true] at h ⊢
  tauto

/-- The tables on the way to a mapped page. -/
theorem exists_tables_of_pteAt_ne_zero (h : pteAt s r (vpn va) ≠ 0) :
    ∃ l1 l0, child (s.mem r (vpn2 va)) = some l1 ∧ child (s.mem l1 (vpn1 va)) = some l0 ∧
      tableAt s r [(vpn va).1, (vpn va).2.1] = some l0 := by
  cases hn : tableAt s r [(vpn va).1, (vpn va).2.1] with
  | none => exact absurd (by simp only [pteAt, hn]) h
  | some l0 =>
      have hpath := hn
      rw [tableAt, nodeAt_cons] at hpath
      cases h2 : child (s.mem r (vpn va).1) with
      | none => rw [h2] at hpath; cases hpath
      | some l1 =>
          rw [h2, Option.bind_some, nodeAt_cons] at hpath
          cases h1 : child (s.mem l1 (vpn va).2.1) with
          | none => rw [h1] at hpath; cases hpath
          | some n =>
              rw [h1, Option.bind_some, nodeAt_nil] at hpath
              exact ⟨l1, l0, h2, h1.trans hpath, rfl⟩

/-- The leaf entry of `v` became `e`, and nothing else changed. -/
structure Remapped (s s' : MemState) (r : ℕ) (v : Vpn) (e : PageTableEntry) : Prop where
  shape : Shape s' r
  table : ∀ p, tableAt s' r p = tableAt s r p
  pte_self : pteAt s' r v = e
  pte_other : ∀ w, w ≠ v → pteAt s' r w = pteAt s r w
  used : ∀ n, s'.used n ↔ s.used n
  mem_other : ∀ n, (∀ p, tableAt s r p ≠ some n) → s'.mem n = s.mem n
  meta_eq : s'.pageMeta = s.pageMeta
  addr_eq : s'.frames.startAddr = s.frames.startAddr

/-- **Remapping** adds flags to the entry of a mapped page. -/
theorem wp_remapVm (hs : Shape s r) (hne : pteAt s r (vpn va) ≠ 0)
    (h : ∀ s', Remapped s s' r (vpn va) (remapEntry (pteAt s r (vpn va)) flags) → Q () s') :
    wp (PageTable.remapVm (4096 * r) va flags) Q E N s := by
  obtain ⟨l1, l0, h2, h1, hl0⟩ := exists_tables_of_pteAt_ne_zero hne
  obtain ⟨hv2, hlf2, hp2⟩ := child_eq_some h2
  obtain ⟨hv1, hlf1, hp1⟩ := child_eq_some h1
  have hpte := pteAt_of_tableAt hl0
  obtain ⟨hl, hu, hx⟩ := (hs.bottom _ _ l0 (vpn va).2.2 hl0).resolve_left (hpte ▸ hne)
  have hleaf : IsUserLeaf (remapEntry (pteAt s r (vpn va)) flags) := by
    rw [hpte]
    exact Or.inr ⟨isLeaf_setFlags hl, isUser_setFlags hu, readOrExec_setFlags hx⟩
  simp only [PageTable.remapVm, wp_bind, wp_gets, mul_pageSize_div, hv2, hlf2, Bool.not_true,
    Bool.false_eq_true, if_false, physicalAddress_eq, hp2, hv1, hlf1, hp1]
  have hl' : (s.mem l0 (vpn0 va)).isLeaf = true := hl
  rw [hl', isValid_of_isLeaf hl', Bool.not_true, Bool.or_false, if_neg Bool.false_ne_true,
    wp_mapLeaf_leaf hl']
  have hentry : remapEntry (pteAt s r (vpn va)) flags = (s.mem l0 (vpn0 va)).setFlags
      (flags ||| PteFlags.V ||| PteFlags.A ||| PteFlags.D) := by rw [hpte]; rfl
  rw [← hentry]
  refine h _
    { shape := shape_setLeaf hs hl0 hleaf
      table := tableAt_setLeaf hs hl0 hleaf
      pte_self := (pteAt_setLeaf hs hl0 hleaf (vpn va)).trans (if_pos rfl)
      pte_other := fun w hw => (pteAt_setLeaf hs hl0 hleaf w).trans (if_neg hw)
      used := fun _ => Iff.rfl
      mem_other := fun n hn => setEntry_of_ne fun hn' => hn _ (hn' ▸ hl0)
      meta_eq := rfl
      addr_eq := rfl }

end Remap
end Efiks.Mm

import Efiks.Mm.LifeSteps

/-!
# Every step of the machine keeps the invariant

`exec_ok` goes through the operations: each of them, when its callers keep their
promises, makes a step of sharing or fails without one, and panics only when there
is no memory left or a page is recorded twice. `OpOk` collects what an operation
needs beyond those promises.

## Main definitions

* `OpOk` — what the invariant needs of an operation.
* `AllowedPanic` — the panics that remain.

## Main results

* `userAccess_eq_some` — what user mode reaches.
* `exec_ok` — a step keeps the invariant and matches the private memories.
-/
namespace Efiks.Mm
open Lib Lib.RustM PageTableEntry

/-- What the invariant needs of an operation: pages are readable or executable; with
`legal`, flags are legal; with `recorded`, a page is remapped within its region; with
either, only a writable region is copied on write; with `track`, kernel stacks get
consecutive frames. -/
def OpOk (perm : Perm) (track : Bool) (σ : Machine) : Op → Prop
  | .mapAllocatePage _ _ flags => flags &&& PteFlags.RX ≠ 0#8 ∧ (perm.legal → LegalFlags flags)
  | .remapPage p va flags => (perm.legal → LegalFlags flags) ∧ (perm.recorded →
      ∀ x ∈ (σ.proc p).mm.regions, vpn x.start = vpn va →
        ∀ i, 1 ≤ i → i ≤ 3 → flags.getLsbD i = true → x.flags.getLsbD i = true)
  | .createKernelStack _ => track = true → Consecutive σ.sys
  | .fork p _ => track = true → ∀ pa t,
      PageTable.fork tableFuel (σ.proc p).mm.rootPt σ.sys = .ok pa t → Consecutive t
  | .copyOnWrite p va => perm.legal ∨ perm.recorded → ∀ x ∈ (σ.proc p).mm.regions, vpn x.start = vpn va →
      x.flags.getLsbD 2 = true
  | .free _ => track = true
  | _ => True

/-- The panics a step may end in. -/
def AllowedPanic (p : Panic) : Prop :=
  OutOfMemory p ∨ p = .explicit "Mapping an already existing entry again must be handled."

/-- A step that may have taken frames for a kernel stack that is not tracked. -/
def Steps (perm : Perm) (track : Bool) (boot : ℕ → Prop) (σ σ' : Machine) (g : Ref → Ref) : Prop :=
  ∃ boot' : ℕ → Prop, (track = true → boot' = boot) ∧ (∀ f, boot f → boot' f) ∧
    StepOk perm track boot' σ σ' g

section Access
variable {perm : Perm} {track : Bool} {boot : ℕ → Prop} {σ : Machine} {p va pa : ℕ}
variable {flags access : PteFlags}

theorem StepOk.steps {σ' : Machine} {g : Ref → Ref} (h : StepOk perm track boot σ σ' g) :
    Steps perm track boot σ σ' g := ⟨boot, fun _ => rfl, fun _ => id, h⟩

theorem contains_getLsbD (h : flags.contains access = true) {i : ℕ} (hi : access.getLsbD i = true) :
    flags.getLsbD i = true := by
  have heq : flags &&& access = access := by simpa [PteFlags.contains] using h
  rw [← heq, BitVec.getLsbD_and, Bool.and_eq_true] at hi
  exact hi.1

theorem contains_R (f : PteFlags) : f.contains PteFlags.R = f.getLsbD 1 := by
  revert f
  decide +kernel

theorem contains_W (f : PteFlags) : f.contains PteFlags.W = f.getLsbD 2 := by
  revert f
  decide +kernel

theorem getLsbD_entryFlags {e : PageTableEntry} {i : ℕ} (hi : i < 8) :
    (Machine.entryFlags e).getLsbD i = e.getLsbD i := by
  rw [Machine.entryFlags, BitVec.getLsbD_setWidth, decide_eq_true hi, Bool.true_and]

/-- The walk of an address of the upper half ends in the root table. -/
theorem translateToPtePtr_upper {s : MemState} {r : ℕ} (hs : Shape s r) (h : 256 ≤ (vpn2 va).val) :
    PageTable.translateToPtePtr s.mem (4096 * r) va =
      if (kernelEntry (vpn2 va)).isLeaf then some (r, vpn2 va, .size1G) else none := by
  have hroot : s.mem r (vpn2 va) = kernelEntry (vpn2 va) := hs.kernel _ h
  rw [PageTable.translateToPtePtr, mul_pageSize_div]
  by_cases hl : (kernelEntry (vpn2 va)).isLeaf = true
  · rw [if_pos hl, walk_leaf (by rw [hroot, hl])]
  · have hinv : (kernelEntry (vpn2 va)).isValid = false := by
      have hc := child_kernelEntry (vpn2 va)
      unfold child at hc
      cases hv : (kernelEntry (vpn2 va)).isValid with
      | false => rfl
      | true => simp [hv, hl] at hc
    rw [if_neg hl]
    simp only [PageTable.walk, hroot, hinv, Bool.not_false, if_true]

theorem vpn2_of_canonical (hc : isCanonical va = true) (hva : va < 2 ^ 64) (hlow : ¬ va < 2 ^ 38) :
    256 ≤ (vpn2 va).val := by
  simp only [isCanonical, Nat.shiftRight_eq_div_pow, Bool.or_eq_true, Bool.and_eq_true,
    beq_iff_eq] at hc
  simp only [vpn2, Nat.shiftRight_eq_div_pow]
  omega

/-- **What user mode reaches** is a page of the lower half, mapped for the access. -/
theorem userAccess_eq_some (h : Inv perm track boot σ) (hp : p ∈ σ.live) (hva : va < 2 ^ 64)
    (hu : σ.userAccess p va access = some pa) :
    va < 2 ^ 38 ∧ pteAt σ.sys (σ.proc p).mm.rootFrame (vpn va) ≠ 0 ∧
      pa = 4096 * (pteAt σ.sys (σ.proc p).mm.rootFrame (vpn va)).ppn + va % 4096 ∧
      (Machine.entryFlags (pteAt σ.sys (σ.proc p).mm.rootFrame (vpn va))).contains access = true := by
  have hs := (h.space p hp).shape
  unfold Machine.userAccess at hu
  rw [(h.space p hp).root] at hu
  split at hu
  · rename_i hc
    by_cases hlow : va < 2 ^ 38
    · by_cases h0 : pteAt σ.sys (σ.proc p).mm.rootFrame (vpn va) = 0
      · rw [translateToPtePtr_eq_none hs hlow h0] at hu
        cases hu
      · obtain ⟨n, -, htr, hn, -, -, -⟩ := translateToPtePtr_eq_some hs hlow h0
        simp only [htr, hn, physicalAddress_eq] at hu
        split at hu
        · rename_i hcond
          rw [Bool.and_eq_true] at hcond
          exact ⟨hlow, h0, (Option.some.inj hu).symm, hcond.2⟩
        · cases hu
    · -- the kernel half has no user page
      have hup := vpn2_of_canonical hc hva hlow
      by_cases hl : (kernelEntry (vpn2 va)).isLeaf = true
      · rw [translateToPtePtr_upper hs hup, if_pos hl] at hu
        simp only [hs.kernel _ hup, isUser_kernelEntry, Bool.false_and, Bool.false_eq_true,
          if_false] at hu
        cases hu
      · rw [translateToPtePtr_upper hs hup, if_neg hl] at hu
        cases hu
  · cases hu

theorem userAccess_isSome (hs : Shape σ.sys (σ.proc p).mm.rootFrame)
    (hroot : (σ.proc p).mm.rootPt = 4096 * (σ.proc p).mm.rootFrame) (hva : va < 2 ^ 38)
    (hne : pteAt σ.sys (σ.proc p).mm.rootFrame (vpn va) ≠ 0)
    (hacc : (Machine.entryFlags (pteAt σ.sys (σ.proc p).mm.rootFrame (vpn va))).contains access =
      true) : (σ.userAccess p va access).isSome = true := by
  obtain ⟨n, -, htr, hn, -, hu, -⟩ := translateToPtePtr_eq_some hs hva hne
  rw [Machine.userAccess, isCanonical_of_lower hva, if_pos rfl, hroot, htr]
  simp only [hn, hu, hacc, Bool.and_self, if_true, Option.isSome_some]

/-- A load that succeeds returns the byte of the private memory. -/
theorem readByte_eq {ref : Ref} (h : Inv perm track boot σ) (hp : p ∈ σ.live) (hva : va < 2 ^ 64)
    (hrep : Rep track σ ref) (hu : σ.userAccess p va access = some pa) :
    σ.sys.readByte pa = ref p va := by
  obtain ⟨hlow, hne, rfl, -⟩ := userAccess_eq_some h hp hva hu
  have hdata := hrep.mapped (abs_map_eq_some.mpr ⟨hp, hne, rfl, rfl⟩)
  have haddr : pageAddr (vpn va) + (pageOffset va : ℕ) = va :=
    (pageAddr_add_eq_iff (hlow.trans (by norm_num)) (vpn va) (pageOffset va)).mpr ⟨rfl, rfl⟩
  have hdiv : (4096 * (pteAt σ.sys (σ.proc p).mm.rootFrame (vpn va)).ppn + va % 4096) / 4096 =
      (pteAt σ.sys (σ.proc p).mm.rootFrame (vpn va)).ppn := by omega
  have hoff : pageOffset (4096 * (pteAt σ.sys (σ.proc p).mm.rootFrame (vpn va)).ppn + va % 4096) =
      pageOffset va := Fin.ext (by
    change (4096 * (pteAt σ.sys (σ.proc p).mm.rootFrame (vpn va)).ppn + va % 4096) % 4096 = va % 4096
    omega)
  rw [MemState.readByte, hdiv, hoff]
  calc frameByte (σ.sys.mem (pteAt σ.sys (σ.proc p).mm.rootFrame (vpn va)).ppn) (pageOffset va)
      = refPages ref p (vpn va) (pageOffset va) := congrFun hdata _
    _ = ref p va := by rw [refPages, haddr]

/-- A mapped page has an entry. -/
theorem pteAt_of_mapped (h : Inv perm track boot σ) (hp : p ∈ σ.live) (hva : va < 2 ^ 38) :
    σ.Mapped p va ↔ pteAt σ.sys (σ.proc p).mm.rootFrame (vpn va) ≠ 0 := by
  rw [Machine.Mapped, (h.space p hp).root, translate_eq (h.space p hp).shape hva]
  split
  · rename_i h0
    exact ⟨fun h => (nomatch h), fun h => absurd h0 h⟩
  · rename_i h0
    exact ⟨fun _ => h0, fun _ => rfl⟩

end Access

section Methods
variable {perm : Perm} {track : Bool} {boot : ℕ → Prop} {σ : Machine} {p va : ℕ}
variable {flags access : PteFlags} {Q : Unit → MemState → Prop} {E : Error → MemState → Prop}

theorem allowed_of_oom (q : Panic) (h : OutOfMemory q) : AllowedPanic q := Or.inl h

theorem wp_copyOnWrite_step (h : Inv perm track boot σ) (hp : p ∈ σ.live) (hva : va < 2 ^ 38)
    (hne : pteAt σ.sys (σ.proc p).mm.rootFrame (vpn va) ≠ 0)
    (hlegal : perm.legal → (pteAt σ.sys (σ.proc p).mm.rootFrame (vpn va)).getLsbD 1 = true)
    (hrec : perm.recorded → ∀ x ∈ (σ.proc p).mm.regions, vpn x.start = vpn va →
      x.flags.getLsbD 2 = true)
    (hQ : ∀ s', StepOk perm track boot σ (σ.setSpace p ⟨s', (σ.proc p).mm⟩) id → Q () s') :
    wp (PageTable.copyOnWrite (4096 * (σ.proc p).mm.rootFrame) va) Q E AllowedPanic σ.sys := by
  have hm : (σ.abs track).Maps p (pteAt σ.sys (σ.proc p).mm.rootFrame (vpn va)).ppn :=
    Inv.maps_of_pteAt hp hne
  obtain ⟨c, hc, hc0, -⟩ := h.exists_meta hm
  refine wp_copyOnWrite h.placed (h.space p hp).shape hva hne rfl (h.sharing.used_of_maps hm)
    (h.maps_not_table hm hp) hc hc0 allowed_of_oom fun g s' hcop => hQ s' ?_
  exact h.copied hp hne rfl hc hcop hlegal hrec

theorem wp_handlePageFault_step (h : Inv perm track boot σ) (hp : p ∈ σ.live) (hva : va < 2 ^ 64) :
    wp (MemoryManager.handlePageFault va access)
      (fun _ sp => StepOk perm track boot σ (σ.setSpace p sp) id)
      (fun _ sp => sp = σ.space p) AllowedPanic (σ.space p) := by
  have hsp := h.space p hp
  refine wp_handlePageFault h.placed hsp.shape hsp.root hsp.regions hva (fun _ => allowed_of_oom)
    (fun _ => rfl) (fun x hx _ hacc hW hne => ?_) fun x hx _ _ f s' hmap => ?_
  · have hxW : x.flags.getLsbD 2 = true :=
      contains_getLsbD hacc (contains_getLsbD hW (by decide))
    refine wp_copyOnWrite_step h hp (hsp.regions.page x hx).lower hne (fun hl => ?_)
      (fun _ y hy hyx => ?_) fun s' hs' => hs'
    · -- the region is writable, so it is readable, and so is the page
      exact (hsp.permissions hl).readable x hx hne ((hsp.permissions hl).region x hx hxW)
    · rwa [hsp.regions.eq_of_vpn_eq hy hx hyx]
  · refine h.pageMapped hp hmap rfl rfl hsp.regions (fun y => ?_)
      fun hl => (hsp.permissions hl).region x hx
    exact ⟨Or.inr, fun hy => hy.elim (fun hy => hy ▸ hx) id⟩

/-- A page of `p` was mapped and recorded. -/
structure PageAdded (perm : Perm) (track : Bool) (boot : ℕ → Prop) (σ : Machine) (p va : ℕ)
    (flags : PteFlags) (sp : Space) : Prop where
  step : StepOk perm track boot σ (σ.setSpace p sp) id
  root_eq : sp.mm.rootPt = (σ.proc p).mm.rootPt
  regions : ∀ y, y ∈ sp.mm.regions ↔ y = ⟨va, va + 4096, flags⟩ ∨ y ∈ (σ.proc p).mm.regions
  pages : ∀ w, pteAt sp.sys (σ.proc p).mm.rootFrame w ≠ 0 ↔
    w = vpn va ∨ pteAt σ.sys (σ.proc p).mm.rootFrame w ≠ 0

theorem wp_mapAllocatePage_step (h : Inv perm track boot σ) (hp : p ∈ σ.live) (hva : va < 2 ^ 38)
    (hal : va % 4096 = 0) (hun : ¬ σ.Mapped p va) (hU : flags.getLsbD 4 = true)
    (hX : flags &&& PteFlags.RX ≠ 0#8) (hlegal : perm.legal → LegalFlags flags)
    {E : Error → Space → Prop} :
    wp (MemoryManager.mapAllocatePage va flags)
      (fun _ sp => PageAdded perm track boot σ p va flags sp) E AllowedPanic (σ.space p) := by
  have hsp := h.space p hp
  have h0 : pteAt σ.sys (σ.proc p).mm.rootFrame (vpn va) = 0 := by
    by_contra hne
    exact hun ((pteAt_of_mapped h hp hva).mpr hne)
  refine wp_mapAllocatePage h.placed hsp.shape hsp.root hsp.regions ⟨hal, hva, rfl, hU, hX⟩ h0
    allowed_of_oom (Or.inr rfl) fun f s' mm' hmap hins => ?_
  have hroot : mm'.rootPt = (σ.proc p).mm.rootPt := by rw [hins.rest]
  have hstack : mm'.kernelStack = (σ.proc p).mm.kernelStack := by rw [hins.rest]
  refine ⟨h.pageMapped (x := ⟨va, va + 4096, flags⟩) hp hmap hroot hstack hins.regions hins.mem_iff
    hlegal, hroot, hins.mem_iff, fun w => ?_⟩
  by_cases hw : w = vpn va
  · exact ⟨fun _ => Or.inl hw, fun _ => by rw [hw, hmap.pte_self]; exact leafEntry_ne_zero _ _⟩
  · rw [hmap.pte_other w hw]
    exact ⟨Or.inr, fun hor => hor.resolve_left hw⟩

/-- A page of `p` was remapped. -/
structure PageKept (perm : Perm) (track : Bool) (boot : ℕ → Prop) (σ : Machine) (p : ℕ)
    (sp : Space) : Prop where
  step : StepOk perm track boot σ (σ.setSpace p sp) id
  mm_eq : sp.mm = (σ.proc p).mm
  pages : ∀ w, pteAt sp.sys (σ.proc p).mm.rootFrame w ≠ 0 ↔
    pteAt σ.sys (σ.proc p).mm.rootFrame w ≠ 0

theorem wp_remapPage_step (h : Inv perm track boot σ) (hp : p ∈ σ.live) (hva : va < 2 ^ 38)
    (hsolo : (σ.proc p).loading = true) (hm : σ.Mapped p va) (hlegal : perm.legal → LegalFlags flags)
    (hrec : perm.recorded → ∀ x ∈ (σ.proc p).mm.regions, vpn x.start = vpn va →
      ∀ i, 1 ≤ i → i ≤ 3 → flags.getLsbD i = true → x.flags.getLsbD i = true)
    {E : Error → Space → Prop} {N : Panic → Prop} :
    wp (MemoryManager.remapPage va flags)
      (fun _ sp => PageKept perm track boot σ p sp) E N (σ.space p) := by
  have hsp := h.space p hp
  have hne := (pteAt_of_mapped h hp hva).mp hm
  have hroot : (σ.space p).mm.rootPt = 4096 * (σ.proc p).mm.rootFrame := hsp.root
  rw [MemoryManager.remapPage, wp_bind, virtualAddress, isCanonical_of_lower hva, wp_assert]
  refine ⟨fun _ => ?_, fun h => by cases h⟩
  rw [wp_bind, wp_gets, wp_sys, hroot]
  refine wp_remapVm hsp.shape hne fun s' hs' =>
    ⟨h.remapped hp hsolo hne hs' hlegal hrec, rfl, fun w => ?_⟩
  by_cases hw : w = vpn va
  · rw [hw]
    exact ⟨fun _ => hne, fun _ => h.remapped_ne_zero hp hne hs'⟩
  · rw [hs'.pte_other w hw]
    exact Iff.rfl

end Methods

section Exec
variable {perm : Perm} {track : Bool} {boot : ℕ → Prop} {σ : Machine} {p q va : ℕ}

theorem wp_onSpace {α : Type} {m : MmM α} {Q : α → Machine → Prop} {E : Error → Machine → Prop}
    {N : Panic → Prop} :
    wp (Machine.onSpace p m) Q E N σ ↔
      wp m (fun a sp => Q a (σ.setSpace p sp)) (fun e sp => E e (σ.setSpace p sp)) N (σ.space p) :=
  wp_zoom ..

theorem wp_onSys {α : Type} {m : KM α} {Q : α → Machine → Prop} {E : Error → Machine → Prop}
    {N : Panic → Prop} :
    wp (Machine.onSys m) Q E N σ ↔
      wp m (fun a s => Q a { σ with sys := s }) (fun e s => E e { σ with sys := s }) N σ.sys :=
  wp_zoom ..

theorem setSpace_space : σ.setSpace p (σ.space p) = σ := setSpace_mm_self σ.sys

theorem exec_new_ok (h : Inv perm track boot σ) (hp : p ∉ σ.live) {E : Error → Machine → Prop} :
    wp (Machine.exec (.new p))
      (fun ev σ' => StepOk perm track boot σ σ' (refStep (.new p) ev)) E AllowedPanic σ := by
  rw [Machine.exec, wp_bind, wp_onSys]
  refine wp_new h.placed allowed_of_oom fun n t ha => ?_
  rw [wp_bind, wp_modify, wp_pure]
  exact h.created hp ha

theorem exec_copyIn_ok {b : UInt8} (h : Inv perm track boot σ) (hp : p ∈ σ.live)
    (hsolo : (σ.proc p).loading = true) (hva : va < 2 ^ 38) (hm : σ.Mapped p va)
    {E : Error → Machine → Prop} :
    wp (Machine.exec (.copyIn p va b))
      (fun ev σ' => StepOk perm track boot σ σ' (refStep (.copyIn p va b) ev)) E AllowedPanic σ := by
  have hne := (pteAt_of_mapped h hp hva).mp hm
  have htr : PageTable.translate (σ.space p).sys.mem (σ.space p).mm.rootPt va =
      some (4096 * (pteAt σ.sys (σ.proc p).mm.rootFrame (vpn va)).ppn + va % 4096) := by
    have hroot : (σ.space p).mm.rootPt = 4096 * (σ.proc p).mm.rootFrame := (h.space p hp).root
    rw [hroot]
    exact (translate_eq (h.space p hp).shape hva).trans (if_neg hne)
  rw [Machine.exec, wp_bind, wp_onSpace, MemoryManager.translate, wp_bind, virtualAddress,
    isCanonical_of_lower hva, wp_assert]
  refine ⟨fun _ => ?_, fun h => by cases h⟩
  rw [wp_gets, htr, expect_some_bind, wp_bind, wp_onSys, wp_modify, wp_pure, setSpace_space]
  refine h.written hp hva hne rfl (fun r hr => ?_) b
  exact h.sharing.solo_excl hsolo (Inv.maps_of_pteAt hp hne) hr

theorem wp_onPageFault (h : Inv perm track boot σ) (hp : p ∈ σ.live) (hva : va < 2 ^ 64)
    (access : PteFlags) {E : Error → Machine → Prop} :
    wp (Machine.onPageFault p va access)
      (fun ev σ' => (ev = .trapped ∨ ev = .killed) ∧ StepOk perm track boot σ σ' id) E
      AllowedPanic σ := by
  rw [Machine.onPageFault, wp_catchErr, wp_bind, wp_onSpace]
  refine wp_mono (wp_handlePageFault_step h hp hva) (fun _ sp hsp => ?_) (fun e sp hsp => ?_)
    fun _ hN => hN
  · rw [wp_pure]
    exact ⟨Or.inl rfl, hsp⟩
  · rw [wp_bind, wp_modify, wp_pure, hsp, setSpace_space]
    exact ⟨Or.inr rfl, h.killed⟩

/-- A successful load shows the byte user mode reaches. -/
theorem exec_load_ok (h : Inv perm track boot σ) (hp : p ∈ σ.live) (hva : va < 2 ^ 64)
    {E : Error → Machine → Prop} :
    wp (Machine.exec (.load p va)) (fun ev σ' => StepOk perm track boot σ σ' id ∧
      ∀ b, ev = .loaded b → ∃ pa, σ.userAccess p va PteFlags.R = some pa ∧ b = σ.sys.readByte pa) E
      AllowedPanic σ := by
  rw [Machine.exec, wp_bind, wp_gets]
  cases hu : σ.userAccess p va PteFlags.R with
  | some pa =>
      simp only [wp_gets]
      exact ⟨h.refl, fun b hb => ⟨pa, rfl, (Event.loaded.inj hb).symm⟩⟩
  | none =>
      refine wp_consequence (wp_onPageFault h hp hva PteFlags.R) fun ev σ' hs => ⟨hs.2, ?_⟩
      rintro b rfl
      rcases hs.1 with h | h <;> cases h

theorem exec_store_ok {b : UInt8} (h : Inv perm track boot σ) (hp : p ∈ σ.live) (hva : va < 2 ^ 64)
    {E : Error → Machine → Prop} :
    wp (Machine.exec (.store p va b))
      (fun ev σ' => StepOk perm track boot σ σ' (refStep (.store p va b) ev)) E AllowedPanic σ := by
  rw [Machine.exec, wp_bind, wp_gets]
  cases hu : σ.userAccess p va PteFlags.W with
  | some pa =>
      obtain ⟨hlow, hne, rfl, hW⟩ := userAccess_eq_some h hp hva hu
      have hW' : (pteAt σ.sys (σ.proc p).mm.rootFrame (vpn va)).isWritable = true := by
        rw [isWritable_eq, ← getLsbD_entryFlags (by norm_num)]
        exact contains_getLsbD hW (by decide)
      simp only [wp_bind, wp_onSys, wp_modify, wp_pure]
      refine h.written hp hlow hne rfl (fun r hr => ?_) b
      exact h.sharing.excl (abs_map_eq_some.mpr ⟨hp, hne, rfl, hW'⟩) hr
  | none =>
      refine wp_consequence (wp_onPageFault h hp hva PteFlags.W) fun ev σ' hs => ?_
      obtain ⟨rfl | rfl, hs'⟩ := hs <;> exact hs'

/-- The kernel stack of `p`, tracked or not. -/
theorem Inv.kernelStack {g b : ℕ} {ns : List ℕ} {t : MemState} (h : Inv perm track boot σ)
    (hp : p ∈ σ.live) (ht : Taken σ.sys (g :: b :: ns) t)
    (hlen : ns.length = kernelStackPages - 1) (hc : track = true → Consecutive σ.sys)
    (hempty : (σ.proc p).mm.kernelStack = .empty) :
    Steps perm track boot σ (σ.stacked p g b t) id := by
  cases track with
  | true => exact (h.stacked hp ht hlen (hc rfl) hempty).steps
  | false => exact ⟨_, fun h => (nomatch h), fun _ => Or.inl, h.reserved hp ht⟩

theorem exec_createKernelStack_ok (h : Inv perm track boot σ) (hp : p ∈ σ.live)
    (hempty : (σ.proc p).mm.kernelStack = .empty) (hc : track = true → Consecutive σ.sys)
    {E : Error → Machine → Prop} :
    wp (Machine.exec (.createKernelStack p)) (fun _ σ' => Steps perm track boot σ σ' id) E
      AllowedPanic σ := by
  rw [Machine.exec, wp_bind, wp_onSpace]
  refine wp_createKernelStack h.placed allowed_of_oom fun g b ns t ht hlen => ?_
  rw [wp_pure]
  exact h.kernelStack hp ht hlen hc hempty

/-- Two steps in a row. -/
theorem Steps.trans {σ₁ σ₂ : Machine} {g g' : Ref → Ref} (h : StepOk perm track boot σ σ₁ g)
    (h' : Steps perm track boot σ₁ σ₂ g') (hused : ∀ f, σ.sys.used f → σ₁.sys.used f) :
    Steps perm track boot σ σ₂ fun ref => g' (g ref) := by
  obtain ⟨boot', hb, hmono, hs⟩ := h'
  refine ⟨boot', hb, hmono, hs.inv, fun p x f hf => ?_, fun ref hr => hs.rep _ (h.rep ref hr)⟩
  rcases hs.fresh p x f hf with hf' | hu
  · exact h.fresh p x f hf'
  · exact Or.inr fun hu' => hu (hused f hu')

theorem wp_forkTables_step (h : Inv perm track boot σ) (hp : p ∈ σ.live) (hq : q ∉ σ.live)
    {E : Error → MemState → Prop} :
    wp (PageTable.fork tableFuel (σ.proc p).mm.rootPt)
      (fun pa t => ∃ r', pa = 4096 * r' ∧ ForkPost σ.sys t 2 (σ.proc p).mm.rootFrame r' ∧
        StepOk perm track boot σ (σ.forked p q r' t) fun ref => Function.update ref q (ref p)) E
      AllowedPanic σ.sys := by
  have hs := (h.space p hp).shape
  rw [(h.space p hp).root]
  refine wp_consequence (wp_fork allowed_of_oom 2 tableFuel σ.sys _ (by decide) h.placed hs.tree
    hs.used fun path n i hn hc => ?_) fun pa t hpost => ?_
  · rw [hs.child_sharedEntry path n i hn, hc]
  · obtain ⟨r', hpa, hf⟩ := hpost
    exact ⟨r', hpa, hf, h.forked hp hq hf⟩

/-- Parent and child have the regions of the parent, and its pages without `W`. -/
def SharesPages (σ σ' : Machine) (p q : ℕ) : Prop :=
  ∀ x, x = p ∨ x = q → x ∈ σ'.live ∧ (σ'.proc x).mm.regions = (σ.proc p).mm.regions ∧
    ∀ v, pteAt σ'.sys (σ'.proc x).mm.rootFrame v =
      sharedEntry (pteAt σ.sys (σ.proc p).mm.rootFrame v)

theorem exec_fork_ok (h : Inv perm track boot σ) (hp : p ∈ σ.live) (hq : q ∉ σ.live)
    (hc : track = true → ∀ pa t,
      PageTable.fork tableFuel (σ.proc p).mm.rootPt σ.sys = .ok pa t → Consecutive t)
    {E : Error → Machine → Prop} :
    wp (Machine.exec (.fork p q))
      (fun ev σ' => Steps perm track boot σ σ' (refStep (.fork p q) ev) ∧ SharesPages σ σ' p q) E
      AllowedPanic σ := by
  rw [Machine.exec, wp_bind, wp_gets, wp_bind, wp_onSys, MemoryManager.fork, wp_bind]
  have hspec := wp_forkTables_step (E := fun _ _ => False) h hp hq
  refine wp_run ⟨fun pa t hrun => ?_, fun e t hrun => (wp_of_err hspec hrun).elim,
    fun P hrun => wp_of_panic hspec hrun⟩
  obtain ⟨r', rfl, hpost, hstep⟩ := wp_of_ok hspec hrun
  have hq' : q ∈ (σ.forked p q r' t).live := (mem_forked_live ..).mpr (Or.inl rfl)
  have hempty : ((σ.forked p q r' t).proc q).mm.kernelStack = .empty := by rw [forked_child]
  rw [wp_bind]
  refine wp_withMm (wp_createKernelStack (hstep.inv.placed : t.Placed) allowed_of_oom
    fun g b ns u ht hlen => ?_)
  rw [wp_pure, wp_bind, wp_modify, wp_bind, wp_modify, wp_pure]
  have hstack := hstep.inv.kernelStack hq' ht hlen (fun htr => hc htr _ t hrun) hempty
  have hboth := Steps.trans hstep hstack fun f hf => (hpost.used f).mpr (Or.inl hf)
  have hσ : (σ.forked p q r' t).stacked q g b u =
      (Machine.setProcess p (fun x => { x with loading := false }) { σ with sys := u }).addProcess q
        ⟨{ (σ.proc p).mm with rootPt := 4096 * r', kernelStack := stackRegion g b }, false, false⟩ := by
    rw [Machine.stacked, forked_child]
    simp only [Machine.setSpace, Machine.forked, Machine.addProcess, Machine.setProcess,
      Function.update_idem, Function.update_self]
  rw [hσ] at hboth
  refine ⟨hboth, fun x hx => ?_⟩
  have hmem : ∀ r v, pteAt u r v = pteAt t r v := fun r =>
    pteAt_congr fun path n _ => congrFun ht.mem_eq n
  have hpq : p ≠ q := fun hpq => hq (hpq ▸ hp)
  rcases hx with rfl | rfl
  · simp only [Machine.addProcess, Machine.setProcess, Function.update_of_ne hpq,
      Function.update_self]
    refine ⟨Finset.mem_insert_of_mem hp, trivial, fun v => ?_⟩
    rw [hmem, hpost.pteAt_old (h.space x hp).shape]
  · simp only [Machine.addProcess, Machine.setProcess, Function.update_self]
    refine ⟨Finset.mem_insert_self .., trivial, fun v => ?_⟩
    have hr : 4096 * r' / 4096 = r' := by omega
    rw [hmem, MemoryManager.rootFrame, hr, hpost.pteAt_new (h.space p hp).shape]

theorem exec_free_ok (h : Inv perm true boot σ) (hp : p ∈ σ.live)
    (hstack : (σ.proc p).mm.kernelStack ≠ .empty) {E : Error → Machine → Prop} :
    wp (Machine.exec (.free p)) (fun _ σ' => StepOk perm true boot σ σ' id) E AllowedPanic σ := by
  have hsp := h.space p hp
  obtain ⟨g, b, hg, hgb, hregion⟩ := hsp.stack.resolve_left hstack
  have hcount : ∀ v, pteAt σ.sys (σ.proc p).mm.rootFrame v ≠ 0 →
      σ.sys.used (pteAt σ.sys (σ.proc p).mm.rootFrame v).ppn ∧
      ∃ c, σ.sys.pageMeta (4096 * (pteAt σ.sys (σ.proc p).mm.rootFrame v).ppn) = some c ∧ c ≠ 0 := by
    intro v hv
    have hm : (σ.abs true).Maps p (pteAt σ.sys (σ.proc p).mm.rootFrame v).ppn :=
      Inv.maps_of_pteAt hp hv
    obtain ⟨c, hc, hc0, -⟩ := h.exists_meta hm
    exact ⟨h.sharing.used_of_maps hm, c, hc, hc0⟩
  have hslot : ∀ k, (σ.abs true).priv p (.inr k) = stackFrame (stackRegion g b) k := by
    intro k
    rw [abs_priv hp, privFrame, hregion]
    rfl
  rw [Machine.exec, wp_bind, wp_gets, wp_bind, wp_onSys, MemoryManager.free, wp_bind]
  refine wp_consequence (wp_freeRegions h.placed hsp.shape hsp.root
    (fun x hx => ⟨(hsp.regions.page x hx).lower, (hsp.regions.page x hx).aligned⟩)
    hsp.regions.sorted (fun v w hv hw => h.page_inj hp hv hw) hcount) fun _ s₁ h₁ => ?_
  have hkept : ∀ y n, (σ.abs true).priv p y = some n → s₁.used n := by
    intro y n hn
    rw [h₁.used, h.holds_iff hp]
    exact ⟨h.sharing.used_of_priv hn, fun hm => h.sharing.priv_map hn hm.1⟩
  rw [wp_bind]
  refine wp_freeKernelStack (h.placed.congr h₁.addr_eq) hregion hgb (fun n hn => ?_) fun s₂ h₂ => ?_
  · obtain ⟨k, hk⟩ := (exists_stackFrame hg).mpr hn
    exact hkept (.inr k) n ((hslot k).trans hk)
  · have hmem : s₂.mem = σ.sys.mem := by rw [h₂.mem_eq, h₁.mem_eq]
    have htab : ∀ path, tableAt s₂ (σ.proc p).mm.rootFrame path =
        tableAt σ.sys (σ.proc p).mm.rootFrame path := tableAt_congr fun _ _ _ => by rw [hmem]
    have htree : IsTree child s₂.mem (σ.proc p).mm.rootFrame 2 := by
      rw [hmem]
      exact hsp.shape.tree
    rw [hsp.root]
    refine wp_consequence (wp_traverseFree 2 tableFuel s₂ _ (by decide)
      (h.placed.congr (h₂.addr_eq.trans h₁.addr_eq)) htree fun path n hn => ?_) fun _ s₃ h₃ => ?_
    · rw [htab] at hn
      have hn' : (σ.abs true).priv p (.inl path) = some n := Inv.table_priv hp hn
      rw [h₂.used]
      refine ⟨hkept _ n hn', fun hst => ?_⟩
      obtain ⟨k, hk⟩ := (exists_stackFrame hg).mpr hst
      cases (h.sharing.priv_inj hn' ((hslot k).trans hk)).2
    · rw [wp_bind, wp_modify, wp_pure]
      exact h.released hp hregion hg h₁ h₂ h₃

/-- **A step keeps the invariant**, matches the step of the private memories, and
panics only when memory runs out or a page is recorded twice. -/
theorem exec_ok {op : Op} (h : Inv perm track boot σ) (hen : σ.Enabled op)
    (hok : OpOk perm track σ op) :
    wp (Machine.exec op) (fun ev σ' => Steps perm track boot σ σ' (refStep op ev))
      (fun _ σ' => Steps perm track boot σ σ' (refStep op .done)) AllowedPanic σ := by
  cases op with
  | new p => exact wp_consequence (exec_new_ok h hen) fun ev σ' hs => hs.steps
  | mapAllocatePage p va flags =>
      obtain ⟨hp, hal, hva, hun, hU, -⟩ := hen
      rw [Machine.exec, wp_bind, wp_onSpace]
      refine wp_consequence (wp_mapAllocatePage_step h hp hva hal hun
        (contains_getLsbD hU (by decide)) hok.1 hok.2) fun _ sp hs => ?_
      rw [wp_pure]
      exact hs.step.steps
  | remapPage p va flags =>
      obtain ⟨hp, hsolo, hva, hm⟩ := hen
      rw [Machine.exec, wp_bind, wp_onSpace]
      refine wp_consequence (wp_remapPage_step h hp hva hsolo hm hok.1 hok.2) fun _ sp hs => ?_
      rw [wp_pure]
      exact hs.step.steps
  | copyIn p va b =>
      obtain ⟨hp, hsolo, hva, hm⟩ := hen
      exact wp_consequence (exec_copyIn_ok h hp hsolo hva hm) fun ev σ' hs => hs.steps
  | setInitialBrk p brk =>
      rw [Machine.exec, wp_bind, wp_onSpace, MemoryManager.setInitialBrk, wp_modify, wp_pure]
      exact (h.setInitialBrk hen.1 brk).steps
  | createKernelStack p => exact exec_createKernelStack_ok h hen.1 hen.2 hok
  | fork p q => exact wp_consequence (exec_fork_ok h hen.1 hen.2 hok) fun ev σ' hs => hs.1
  | load p va => exact wp_consequence (exec_load_ok h hen.1 hen.2.2) fun ev σ' hs => hs.1.steps
  | store p va b => exact wp_consequence (exec_store_ok h hen.1 hen.2.2) fun ev σ' hs => hs.steps
  | brk p newBrk =>
      rw [Machine.exec, wp_bind, wp_onSpace]
      refine wp_doBrk (h.space p hen.1).regions hen.2 fun b mm' hg => ?_
      rw [wp_pure]
      exact (h.grown hen.1 hg).steps
  | handlePageFault p va access =>
      rw [Machine.exec, wp_bind, wp_onSpace]
      refine wp_mono (wp_handlePageFault_step h hen.1 hen.2) (fun _ sp hs => ?_) (fun e sp hs => ?_)
        fun _ hN => hN
      · rw [wp_pure]
        exact hs.steps
      · rw [hs, setSpace_space]
        exact h.refl.steps
  | copyOnWrite p va =>
      obtain ⟨hp, hva, hm⟩ := hen
      have hne := (pteAt_of_mapped h hp hva).mp hm
      rw [Machine.exec, wp_bind, wp_gets, wp_bind, wp_onSys, (h.space p hp).root]
      refine wp_copyOnWrite_step h hp hva hne (fun hl => ?_) (fun hr => hok (Or.inr hr))
        fun s' hs => ?_
      · obtain ⟨x, hx, hxv⟩ := (h.space p hp).covered _ hne
        have hperm := (h.space p hp).permissions hl
        have hR := hperm.readable x hx (by rwa [hxv]) (hperm.region x hx (hok (Or.inl hl) x hx hxv))
        rwa [hxv] at hR
      · rw [wp_pure, ← setSpace_mm_self (p := p)]
        exact hs.steps
  | free p =>
      obtain rfl : track = true := hok
      exact wp_consequence (exec_free_ok h hen.1 hen.2) fun ev σ' hs => hs.steps

end Exec
end Efiks.Mm

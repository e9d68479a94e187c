import Efiks.Mm.LevelFork
import Efiks.Mm.Accounting

/-!
# The kernel half of every address space

`kvm_full_map` writes the upper half of a new root table; `fork` copies it with the rest.
Nothing a process asks for may change it afterwards: its pages, its break, its faults at
any address and its forks only reach tables below the root.

A frame keeps the level it was allocated for, so a root is never handed out again while
its address space lives. Along a run from a machine without processes every root stays a
root, and its upper half what `kvm_full_map` wrote.

## Main definitions

* `Activity`, `Active` — what processes ask for, and the runs of it.
* `KernelHalf` — what the upper half of an address space maps.

## Main results

* `kernelHalf_of_active`.
-/
namespace Efiks.Mm
open Lib Lib.RustM PageTableEntry

/-- The regions of a space are user pages of the lower half. -/
def LowRegions (regions : List VmRegion) : Prop :=
  ∀ x ∈ regions, x.start < x.endAddr ∧ x.endAddr ≤ 2 ^ 38 ∧ x.flags.getLsbD 4 = true

/-- A method of a space keeps every root, its own root table and its regions low. -/
def HalfKept (lvl : Levels) (mm : MemoryManager) (sp : Space) : Prop :=
  KeepsRoots lvl sp.sys ∧ sp.mm.rootPt = mm.rootPt ∧ LowRegions sp.mm.regions

section Methods
variable {s : MemState} {lvl : Levels} {mm : MemoryManager} {r f va : ℕ} {flags : PteFlags}

theorem KeepsRoots.refl (h : Typed s lvl fun _ => 0) : KeepsRoots lvl s := ⟨lvl, h, fun _ hn => hn⟩

theorem LowRegions.insert {regions : List VmRegion} {a b i : ℕ} (h : LowRegions regions)
    (hab : a < b) (hb : b ≤ 2 ^ 38) (hU : flags.getLsbD 4 = true) :
    LowRegions (regions.insertIdx i ⟨a, b, flags⟩) := by
  intro y hy
  rcases List.eq_or_mem_of_mem_insertIdx hy with rfl | hy
  · exact ⟨hab, hb, hU⟩
  · exact h y hy

/-- An address with recorded permissions is a user address of the lower half. -/
theorem LowRegions.regionFlags {regions : List VmRegion} {addr : ℕ} (h : LowRegions regions)
    (hf : MemoryManager.regionFlags regions addr = some flags) :
    addr < 2 ^ 38 ∧ flags.getLsbD 4 = true := by
  unfold MemoryManager.regionFlags at hf
  cases hb : binarySearch regions addr with
  | ok i =>
      obtain ⟨x, hx, hi, hstart⟩ := binarySearch_ok hb
      simp only [hb, hi] at hf
      obtain rfl := Option.some.inj hf
      have := h x hx
      exact ⟨by omega, this.2.2⟩
  | error i =>
      rw [hb] at hf
      obtain ⟨x, hx, rfl⟩ := Option.map_eq_some_iff.mp hf
      unfold MemoryManager.regionBefore at hx
      split at hx
      · rw [Option.filter_eq_some_iff] at hx
        have hmem := List.mem_of_getElem? hx.1
        have hlt : addr < x.endAddr := of_decide_eq_true hx.2
        have := h x hmem
        exact ⟨by omega, this.2.2⟩
      · cases hx

/-- A fresh zero frame for a page. -/
theorem Typed.zeroed {s₁ : MemState} (h : Typed s lvl fun _ => 0) (ha : Allocated s f s₁) :
    Typed (s₁.setFrame f fun _ => 0) (Function.update lvl f (some 0)) (fun _ => 0) ∧
      holders (s₁.setFrame f fun _ => 0) (Function.update lvl f (some 0)) f = ∅ := by
  refine ⟨h.alloc ha (fun _ => rowOk_zero (by omega)) fun h1 => by omega, ?_⟩
  rw [h.holders_alloc ha fun h1 => by omega]
  refine h.holders_eq_empty ?_
  rw [h.level_none ha.fresh]
  exact nofun

/-- A page that is mapped to a fresh zero frame and counted. -/
theorem wp_mapVm_zeroed {s₁ : MemState} {E : Error → MemState → Prop} {Q : Unit → MemState → Prop}
    (h : Typed s lvl fun _ => 0) (hr : lvl r = some 3) (hva : va < 2 ^ 38)
    (hU : flags.getLsbD 4 = true) (ha : Allocated s f s₁)
    (hQ : ∀ s', va % 4096 = 0 →
      (∀ E N, wp (Page.add (4096 * f)) (fun _ s'' => KeepsRoots lvl s'') E N s') → Q () s') :
    wp (PageTable.mapVm (4096 * r) va (4096 * f) flags) Q E (fun _ => True)
      (s₁.setFrame f fun _ => 0) := by
  obtain ⟨hz, hempty⟩ := h.zeroed ha
  have hrf : r ≠ f := fun hrf : r = f => ha.fresh (hrf ▸ h.used r 3 hr)
  refine wp_mapVm_typed hz (by rw [Function.update_of_ne hrf, hr]) hva (Function.update_self ..)
    hempty hU fun s' lvl' hal hmeta hkeep htyped => hQ s' hal fun E N => ?_
  have hnone : s'.pageMeta (4096 * f) = none := by
    rw [hmeta, setFrame_pageMeta, ha.meta_eq]
    exact h.meta_none ha.fresh
  rw [wp_pageAdd, hnone]
  refine ⟨lvl', htyped, fun n hn => hkeep n 3 ?_⟩
  rw [Function.update_of_ne fun hnf : n = f => ha.fresh (hnf ▸ h.used n 3 hn), hn]

theorem wp_mapAllocatePage_typed (h : Typed s lvl fun _ => 0) (hr : lvl r = some 3)
    (hroot : mm.rootPt = 4096 * r) (hlow : LowRegions mm.regions) (hva : va < 2 ^ 38)
    (hU : flags.getLsbD 4 = true) :
    wp (MemoryManager.mapAllocatePage va flags) (fun _ sp => HalfKept lvl mm sp)
      (fun _ sp => HalfKept lvl mm sp) (fun _ => True) ⟨s, mm⟩ := by
  rw [MemoryManager.mapAllocatePage, wp_bind, wp_sys]
  refine wp_oom h.placed fun f s₁ ha => ?_
  rw [wp_bind, wp_sys, wp_zeroFrame, wp_bind, virtualAddress, wp_assert]
  refine ⟨fun _ => ?_, fun _ => trivial⟩
  rw [wp_bind, wp_gets, hroot, wp_bind, wp_sys]
  refine wp_mapVm_zeroed h hr hva hU ha fun s' hal hadd => ?_
  have hend : offsetBy va (pageSize : ℤ) = some (va + 4096) := by
    rw [offsetBy_natCast]
    · rfl
    · unfold pageSize
      omega
  rw [wp_bind, hend, wp_okOr_some, wp_bind, MemoryManager.insertMapping, wp_bind, wp_gets]
  cases binarySearch mm.regions va with
  | ok i => exact (wp_panic _).mpr trivial
  | error i =>
      dsimp only
      rw [MemoryManager.insertRegion, wp_modify, wp_bind, wp_sys]
      refine wp_consequence (hadd _ _) fun _ s'' hs'' => ?_
      rw [wp_pure]
      exact ⟨hs'', rfl, hlow.insert (by omega) (by omega) hU⟩

theorem wp_handlePageFault_typed {access : PteFlags} (h : Typed s lvl fun _ => 0)
    (hr : lvl r = some 3) (hroot : mm.rootPt = 4096 * r) (hlow : LowRegions mm.regions) :
    wp (MemoryManager.handlePageFault va access) (fun _ sp => HalfKept lvl mm sp)
      (fun _ sp => HalfKept lvl mm sp) (fun _ => True) ⟨s, mm⟩ := by
  have hrefl : HalfKept lvl mm ⟨s, mm⟩ := ⟨.refl h, rfl, hlow⟩
  rw [MemoryManager.handlePageFault, wp_bind, wp_gets, wp_bind]
  cases hflags : MemoryManager.regionFlags mm.regions (alignDown va pageSize) with
  | none => exact (wp_okOr_none _).mpr hrefl
  | some flags =>
      obtain ⟨hva, hU⟩ := hlow.regionFlags hflags
      rw [wp_okOr_some]
      by_cases hc : (!flags.contains access) = true
      · rw [if_pos hc, wp_fail]
        exact hrefl
      · rw [if_neg hc, wp_bind, MemoryManager.translate, wp_bind, virtualAddress, wp_assert]
        refine ⟨fun _ => ?_, fun _ => trivial⟩
        rw [wp_gets, wp_bind, wp_gets, hroot]
        split
        · split
          · rw [wp_sys]
            exact wp_mono (wp_copyOnWrite_typed h hr) (fun _ s' hs' => ⟨hs', rfl, hlow⟩)
              (fun _ _ hf => hf.elim) fun _ hN => hN
          · rw [wp_fail]
            exact hrefl
        · rw [wp_bind, wp_sys]
          refine wp_oom h.placed fun f s₁ ha => ?_
          rw [wp_bind, wp_sys, wp_zeroFrame, wp_bind, wp_sys]
          refine wp_mapVm_zeroed h hr hva hU ha fun s' _ hadd => ?_
          rw [wp_sys]
          exact wp_consequence (hadd _ _) fun _ s'' hs'' => ⟨hs'', rfl, hlow⟩

theorem wp_mapPagesUpTo_low (fuel : ℕ) {addr endAddr : ℕ} {E : Error → Space → Prop}
    (hlow : LowRegions mm.regions) (hal : addr % 4096 = 0) (hend : endAddr ≤ 2 ^ 38)
    (hend0 : endAddr % 4096 = 0) :
    wp (MemoryManager.mapPagesUpTo fuel addr endAddr)
      (fun _ sp => sp.sys = s ∧ sp.mm.rootPt = mm.rootPt ∧ LowRegions sp.mm.regions) E
      (fun _ => True) ⟨s, mm⟩ := by
  induction fuel generalizing addr mm with
  | zero =>
      rw [MemoryManager.mapPagesUpTo, wp_panic]
      trivial
  | succ fuel ih =>
      rw [MemoryManager.mapPagesUpTo]
      by_cases hlt : addr < endAddr
      · have hnext : offsetBy addr (pageSize : ℤ) = some (addr + 4096) := by
          rw [offsetBy_natCast]
          · rfl
          · unfold pageSize
            omega
        rw [if_pos hlt, wp_bind, MemoryManager.mapPageIfNotExist, wp_bind, wp_gets]
        cases binarySearch mm.regions addr with
        | ok i =>
            rw [wp_pure, wp_bind, hnext, wp_okOr_some]
            exact ih hlow (by omega)
        | error i =>
            dsimp only
            split
            · rw [wp_pure, wp_bind, hnext, wp_okOr_some]
              exact ih hlow (by omega)
            · rw [wp_bind, hnext, wp_okOr_some, wp_bind, MemoryManager.insertRegion, wp_modify,
                wp_pure, wp_bind, wp_okOr_some]
              have hU : (PteFlags.RW ||| PteFlags.U).getLsbD 4 = true := by decide
              let regions := mm.regions.insertIdx i ⟨addr, addr + 4096, PteFlags.RW ||| PteFlags.U⟩
              let mm' : MemoryManager := { mm with regions := regions }
              have hlow' : LowRegions mm'.regions := hlow.insert (by omega) (by omega) hU
              exact ih hlow' (by omega : (addr + 4096) % 4096 = 0)
      · rw [if_neg hlt, wp_pure]
        exact ⟨rfl, rfl, hlow⟩

theorem wp_doBrk_typed {newBrk : ℕ} (h : Typed s lvl fun _ => 0) (hlow : LowRegions mm.regions)
    (hbrk : newBrk ≤ 2 ^ 38) {E : Error → Space → Prop} :
    wp (MemoryManager.doBrk newBrk) (fun _ sp => HalfKept lvl mm sp) E (fun _ => True) ⟨s, mm⟩ := by
  have hrefl : HalfKept lvl mm ⟨s, mm⟩ := ⟨.refl h, rfl, hlow⟩
  rw [MemoryManager.doBrk, wp_bind, wp_gets]
  split
  · rw [wp_pure]
    exact hrefl
  · split
    · rw [wp_bind, MemoryManager.setBrk, wp_modify, wp_pure]
      exact hrefl
    · split
      · rename_i hold
        rw [wp_bind]
        refine wp_alignUp (by omega) fun a _ ha0 _ => ?_
        rw [wp_bind]
        refine wp_alignUp hbrk fun b _ hb0 _ => ?_
        rw [wp_bind]
        refine wp_consequence (wp_mapPagesUpTo_low _ hlow ha0 (by omega) hb0) ?_
        rintro - ⟨_, mm'⟩ ⟨rfl, hroot, hlow'⟩
        rw [wp_bind, MemoryManager.setBrk, wp_modify, wp_pure]
        exact ⟨.refl h, hroot, hlow'⟩
      · rw [wp_pure]
        exact hrefl

theorem Typed.taken {ns : List ℕ} {t : MemState} (h : Typed s lvl fun _ => 0)
    (ht : Taken s ns t) : Typed t lvl fun _ => 0 :=
  h.congr (fun n _ _ => by rw [ht.mem_eq]) (fun n hn => (ht.used n).mpr (Or.inl hn)) ht.meta_eq
    ht.addr_eq

theorem wp_createKernelStack_typed (h : Typed s lvl fun _ => 0) (hlow : LowRegions mm.regions)
    {E : Error → Space → Prop} :
    wp MemoryManager.createKernelStack (fun _ sp => HalfKept lvl mm sp) E (fun _ => True)
      ⟨s, mm⟩ :=
  wp_createKernelStack h.placed (fun _ _ => trivial) fun _ _ _ _ ht _ =>
    ⟨.refl (h.taken ht), rfl, hlow⟩

/-- A forked space has a root of its own. -/
theorem wp_fork_keeps (h : Typed s lvl fun _ => 0) (hr : lvl r = some 3)
    (hroot : mm.rootPt = 4096 * r) (hlow : LowRegions mm.regions) {E : Error → MemState → Prop} :
    wp (MemoryManager.fork mm) (fun child t => ∃ c lvl', child.rootPt = 4096 * c ∧
      lvl' c = some 3 ∧ LowRegions child.regions ∧ Typed t lvl' (fun _ => 0) ∧
      ∀ n, lvl n = some 3 → lvl' n = some 3) E (fun _ => True) s := by
  rw [MemoryManager.fork, wp_bind, hroot]
  refine wp_mono (wp_fork_typed 3 _ s lvl _ r h hr fun _ => rfl) ?_ (fun _ _ hE => hE)
    fun _ hN => hN
  rintro _ t ⟨c, lvl', rfl, hf⟩
  rw [wp_bind]
  refine wp_withMm (wp_createKernelStack hf.typed.placed (fun _ _ => trivial)
    fun _ _ _ t' ht _ => ?_)
  rw [wp_pure]
  exact ⟨c, lvl', rfl, hf.level, hlow, hf.typed.taken ht, fun n hn => hf.keep n 3 hn⟩

end Methods

/-- What processes may ask for: pages with `U` in the lower half, a break in the lower half,
faults at any address, and forks. -/
def Activity (σ : Machine) : Op → Prop
  | .new p => p ∉ σ.live
  | .mapAllocatePage p va flags => p ∈ σ.live ∧ va < 2 ^ 38 ∧ flags.contains PteFlags.U = true
  | .setInitialBrk p _ | .createKernelStack p | .handlePageFault p _ _ | .copyOnWrite p _ =>
      p ∈ σ.live
  | .brk p newBrk => p ∈ σ.live ∧ newBrk ≤ 2 ^ 38
  | .fork p q => p ∈ σ.live ∧ q ∉ σ.live
  | _ => False

/-- The states reached from `σ₀` by what processes ask for. -/
inductive Active (σ₀ : Machine) : Machine → Prop
  | start : Booted σ₀ → Active σ₀ σ₀
  | step {σ σ' : Machine} {op : Op} {ev : Event} : Active σ₀ σ → Activity σ op →
      σ.step op = some (ev, σ') → Active σ₀ σ'

/-- The frames have levels at which the roots of the live spaces are roots. -/
structure HalfInv (lvl : Levels) (σ : Machine) : Prop where
  typed : Typed σ.sys lvl fun _ => 0
  root : ∀ p ∈ σ.live, ∃ r, (σ.proc p).mm.rootPt = 4096 * r ∧ lvl r = some 3
  low : ∀ p ∈ σ.live, LowRegions (σ.proc p).mm.regions

section Run
variable {σ₀ σ σ' : Machine} {lvl : Levels} {p q : ℕ} {op : Op} {ev : Event}

theorem Booted.halfInv (h : Booted σ₀) : ∃ lvl, HalfInv lvl σ₀ := by
  have hlive : ∀ p, p ∉ σ₀.live := fun p hp => by
    rw [h.live_eq] at hp
    exact absurd hp (Finset.notMem_empty p)
  exact ⟨fun _ => none, ⟨h.placed, nofun, nofun, fun f hf => absurd (h.meta_eq _) hf,
    fun f c hc => by rw [h.meta_eq] at hc; cases hc⟩, fun p hp => absurd hp (hlive p),
    fun p hp => absurd hp (hlive p)⟩

/-- A method of one space. -/
theorem HalfInv.setSpace (h : HalfInv lvl σ) {sp : Space}
    (hsp : HalfKept lvl (σ.proc p).mm sp) : ∃ lvl', HalfInv lvl' (σ.setSpace p sp) := by
  obtain ⟨⟨lvl', htyped, hkeep⟩, hroot, hlow⟩ := hsp
  refine ⟨lvl', htyped, fun x hx => ?_, fun x hx => ?_⟩
  · obtain ⟨r, hr, hlvl⟩ := h.root x hx
    refine ⟨r, ?_, hkeep r hlvl⟩
    by_cases hxp : x = p
    · rw [hxp] at hr ⊢
      change (Function.update σ.proc p _ p).mm.rootPt = _
      rw [Function.update_self]
      exact hroot.trans hr
    · change (Function.update σ.proc p _ x).mm.rootPt = _
      rw [Function.update_of_ne hxp, hr]
  · change LowRegions (Function.update σ.proc p _ x).mm.regions
    by_cases hxp : x = p
    · rw [hxp, Function.update_self]
      exact hlow
    · rw [Function.update_of_ne hxp]
      exact h.low x hx

/-- A new space, next to the others. -/
theorem HalfInv.addProcess {s : MemState} {x : Process} {r : ℕ} {lvl' : Levels}
    (h : HalfInv lvl σ) (htyped : Typed s lvl' fun _ => 0)
    (hkeep : ∀ n, lvl n = some 3 → lvl' n = some 3) (hroot : x.mm.rootPt = 4096 * r)
    (hr : lvl' r = some 3) (hlow : LowRegions x.mm.regions) :
    HalfInv lvl' (({ σ with sys := s } : Machine).addProcess p x) := by
  refine ⟨htyped, fun y hy => ?_, fun y hy => ?_⟩
  · change ∃ r, (Function.update σ.proc p x y).mm.rootPt = _ ∧ _
    by_cases hyp : y = p
    · rw [hyp, Function.update_self]
      exact ⟨r, hroot, hr⟩
    · rw [Function.update_of_ne hyp]
      obtain ⟨r', hr', hlvl⟩ := h.root y (Finset.mem_of_mem_insert_of_ne hy hyp)
      exact ⟨r', hr', hkeep r' hlvl⟩
  · change LowRegions (Function.update σ.proc p x y).mm.regions
    by_cases hyp : y = p
    · rw [hyp, Function.update_self]
      exact hlow
    · rw [Function.update_of_ne hyp]
      exact h.low y (Finset.mem_of_mem_insert_of_ne hy hyp)

theorem HalfInv.setLoading (h : HalfInv lvl σ) (p : ℕ) :
    HalfInv lvl (σ.setProcess p fun x => { x with loading := false }) := by
  have hmm : ∀ y, ((σ.setProcess p fun x => { x with loading := false }).proc y).mm =
      (σ.proc y).mm := by
    intro y
    change (Function.update σ.proc p _ y).mm = _
    by_cases hyp : y = p
    · rw [hyp, Function.update_self]
    · rw [Function.update_of_ne hyp]
  refine ⟨h.typed, fun y hy => ?_, fun y hy => ?_⟩
  · rw [hmm]
    exact h.root y hy
  · rw [hmm]
    exact h.low y hy

theorem exec_onSpace_half {α : Type} {m : MmM α} (h : HalfInv lvl σ)
    (hm : wp m (fun _ sp => HalfKept lvl (σ.proc p).mm sp)
      (fun _ sp => HalfKept lvl (σ.proc p).mm sp) (fun _ => True) (σ.space p)) :
    wp (Machine.onSpace p m >>= fun _ => pure Event.done) (fun _ σ' => ∃ lvl', HalfInv lvl' σ')
      (fun _ σ' => ∃ lvl', HalfInv lvl' σ') (fun _ => True) σ := by
  rw [wp_bind, wp_onSpace]
  refine wp_mono hm (fun _ sp hsp => ?_) (fun _ sp hsp => h.setSpace hsp) fun _ hN => hN
  rw [wp_pure]
  exact h.setSpace hsp

/-- **One step keeps the roots.** -/
theorem HalfInv.exec (h : HalfInv lvl σ) (ha : Activity σ op) :
    wp (Machine.exec op) (fun _ σ' => ∃ lvl', HalfInv lvl' σ')
      (fun _ σ' => ∃ lvl', HalfInv lvl' σ') (fun _ => True) σ := by
  cases op with
  | new p =>
      rw [Machine.exec, wp_bind, wp_onSys]
      refine wp_new h.typed.placed (fun _ _ => trivial) fun n t hn => ?_
      rw [wp_bind, wp_modify, wp_pure]
      have hne : ∀ m, lvl m = some 3 → m ≠ n := fun m hm hmn =>
        hn.fresh (hmn ▸ h.typed.used m 3 hm)
      exact ⟨_, h.addProcess (h.typed.alloc hn (fun _ => rowOk_kernel) fun h1 => by omega)
        (fun m hm => by rw [Function.update_of_ne (hne m hm), hm]) rfl (Function.update_self ..)
        fun x hx => by cases hx⟩
  | mapAllocatePage p va flags =>
      obtain ⟨r, hr, hlvl⟩ := h.root p ha.1
      exact exec_onSpace_half h (wp_mapAllocatePage_typed h.typed hlvl hr (h.low p ha.1) ha.2.1
        (contains_getLsbD ha.2.2 rfl))
  | setInitialBrk p brk =>
      refine exec_onSpace_half h ?_
      rw [MemoryManager.setInitialBrk, wp_modify]
      exact ⟨.refl h.typed, rfl, h.low p ha⟩
  | createKernelStack p =>
      exact exec_onSpace_half h (wp_createKernelStack_typed h.typed (h.low p ha))
  | brk p newBrk =>
      exact exec_onSpace_half h (wp_doBrk_typed h.typed (h.low p ha.1) ha.2)
  | handlePageFault p va access =>
      obtain ⟨r, hr, hlvl⟩ := h.root p ha
      exact exec_onSpace_half h (wp_handlePageFault_typed h.typed hlvl hr (h.low p ha))
  | copyOnWrite p va =>
      obtain ⟨r, hr, hlvl⟩ := h.root p ha
      rw [Machine.exec, wp_bind, wp_gets, wp_bind, wp_onSys, hr]
      refine wp_mono (wp_copyOnWrite_typed h.typed hlvl) (fun _ s' hs' => ?_)
        (fun _ _ hf => hf.elim) fun _ hN => hN
      obtain ⟨lvl', htyped, hkeep⟩ := hs'
      rw [wp_pure]
      exact ⟨lvl', htyped, fun x hx => (h.root x hx).imp fun r hr => ⟨hr.1, hkeep r hr.2⟩, h.low⟩
  | fork p q =>
      obtain ⟨r, hr, hlvl⟩ := h.root p ha.1
      rw [Machine.exec, wp_bind, wp_gets, wp_bind, wp_onSys]
      refine wp_mono (wp_fork_keeps h.typed hlvl hr (h.low p ha.1) (E := fun _ _ => False)) ?_
        (fun _ _ hf => hf.elim) fun _ hN => hN
      rintro child t ⟨c, lvl', hroot, hc, hlow, htyped, hkeep⟩
      rw [wp_bind, wp_modify, wp_bind, wp_modify, wp_pure]
      exact ⟨lvl', (h.setLoading p).addProcess htyped hkeep hroot hc hlow⟩
  | remapPage | copyIn | load | store | free => exact ha.elim

theorem Active.halfInv (h : Active σ₀ σ) : ∃ lvl, HalfInv lvl σ := by
  induction h with
  | start hb => exact hb.halfInv
  | @step σ σ' op ev _ ha hstep ih =>
      obtain ⟨lvl, hinv⟩ := ih
      exact Machine.of_step (hinv.exec ha) hstep

end Run

/-- What the upper half of an address space maps. -/
structure KernelHalf (mem : ℕ → Frame) (rootPt : ℕ) : Prop where
  /-- All memory, at an offset, for the kernel to read and write. -/
  direct : ∀ pa < 166 * GB, PageTable.translate mem rootPt (physToVirt pa) = some pa ∧
    ∃ table i size, PageTable.translateToPtePtr mem rootPt (physToVirt pa) = some (table, i, size) ∧
      Machine.entryFlags (mem table i) &&& (PteFlags.RWX ||| PteFlags.U) = PteFlags.RW
  image : ∀ d < 2 * GB,
    PageTable.translate mem rootPt (kernelImageStartVa + d) = some (kernelImageStartPa + d)
  noUser : ∀ va, 2 ^ 38 ≤ va → isCanonical va = true → ∀ table i size,
    PageTable.translateToPtePtr mem rootPt va = some (table, i, size) → (mem table i).isUser = false
  /-- The words are those `kvm_full_map` writes into a zeroed root table. -/
  words : ∀ (n : ℕ) (s : MemState), ∃ t, kvmFullMap (4096 * n) (s.setFrame n fun _ => 0) = .ok () t ∧
    ∀ i : Fin 512, 256 ≤ i.val → mem (rootPt / pageSize) i = t.mem n i

section Upper
variable {s : MemState} {r q va : ℕ} {flags : PteFlags}

theorem vpn2_val (va : ℕ) : (vpn2 va).val = va / 2 ^ 30 % 512 := by
  simp only [vpn2, Nat.shiftRight_eq_div_pow]

/-- A gigabyte that the root maps. -/
theorem translate_gigabyte (h : s.mem r (vpn2 va) = leafEntry (4096 * q) flags)
    (hf : flags &&& PteFlags.RWX ≠ 0#8) (hq : q < 2 ^ 44) :
    PageTable.translateToPtePtr s.mem (4096 * r) va = some (r, vpn2 va, .size1G) ∧
      PageTable.translate s.mem (4096 * r) va = some (4096 * q + va % 2 ^ 30) := by
  have hptr : PageTable.translateToPtePtr s.mem (4096 * r) va = some (r, vpn2 va, .size1G) := by
    rw [PageTable.translateToPtePtr, mul_pageSize_div]
    exact walk_leaf (by rw [h]; exact leafEntry_isLeaf _ hf)
  refine ⟨hptr, ?_⟩
  rw [PageTable.translate, hptr, Option.map_some]
  dsimp only
  rw [h, physicalAddress_eq, ppn_leafEntry hq, PageSize.bytes]
  rfl

theorem entryFlags_leafEntry (pa : ℕ) (flags : PteFlags) :
    Machine.entryFlags (leafEntry pa flags) &&& (PteFlags.RWX ||| PteFlags.U) =
      flags &&& (PteFlags.RWX ||| PteFlags.U) := by
  have hmask : ∀ i < 8, (PteFlags.RWX ||| PteFlags.U).getLsbD i = decide (1 ≤ i ∧ i < 5) := by
    decide
  refine BitVec.eq_of_getLsbD_eq fun i hi => ?_
  rw [BitVec.getLsbD_and, BitVec.getLsbD_and, hmask i hi]
  by_cases hb : 1 ≤ i ∧ i < 5
  · rw [getLsbD_entryFlags hi, getLsbD_leafEntry _ _ (by omega),
      beq_eq_false_iff_ne.mpr (by omega : i ≠ 0), Bool.or_false]
  · rw [decide_eq_false hb, Bool.and_false, Bool.and_false]

/-- A canonical address of the upper half goes through an upper entry of the root. -/
theorem vpn2_ge_of_upper (hva : 2 ^ 38 ≤ va) (hcan : isCanonical va = true) :
    256 ≤ (vpn2 va).val := by
  simp only [isCanonical, Nat.shiftRight_eq_div_pow, Bool.or_eq_true, Bool.and_eq_true,
    beq_iff_eq] at hcan
  rw [vpn2_val]
  omega

/-- A root whose upper half holds the entries of the kernel. -/
theorem kernelHalf_of_root (h : ∀ i : Fin 512, 256 ≤ i.val → s.mem r i = kernelEntry i) :
    KernelHalf s.mem (4096 * r) where
  direct pa hpa := by
    have hlt : pa < 166 * 2 ^ 30 := hpa
    have hi : (vpn2 (physToVirt pa)).val = 344 + pa / 2 ^ 30 := by
      rw [vpn2_val, physToVirt, kernelDirectMappingBase]
      omega
    have hentry : s.mem r (vpn2 (physToVirt pa)) =
        leafEntry (4096 * (pa / 2 ^ 30 * 2 ^ 18)) PteFlags.RW := by
      have hpa' : (344 + pa / 2 ^ 30 - 344) * 2 ^ 30 = 4096 * (pa / 2 ^ 30 * 2 ^ 18) := by omega
      rw [h _ (by omega), kernelEntry, if_pos (by omega), hi, hpa']
    obtain ⟨hptr, htr⟩ := translate_gigabyte hentry (by decide) (by omega)
    refine ⟨?_, r, _, _, hptr, ?_⟩
    · rw [htr, Option.some.injEq, physToVirt, kernelDirectMappingBase]
      omega
    · rw [hentry, entryFlags_leafEntry]
      decide
  image d hd := by
    have hlt : d < 2 * 2 ^ 30 := hd
    have hi : (vpn2 (kernelImageStartVa + d)).val = 510 + d / 2 ^ 30 := by
      rw [vpn2_val, kernelImageStartVa]
      omega
    have hentry : s.mem r (vpn2 (kernelImageStartVa + d)) =
        leafEntry (4096 * (2 ^ 19 + d / 2 ^ 30 * 2 ^ 18)) PteFlags.RWX := by
      have hpa' : 2 ^ 31 + (510 + d / 2 ^ 30 - 510) * 2 ^ 30 =
          4096 * (2 ^ 19 + d / 2 ^ 30 * 2 ^ 18) := by omega
      rw [h _ (by omega), kernelEntry, if_neg (by omega), if_pos (by omega), hi, hpa']
    obtain ⟨-, htr⟩ := translate_gigabyte hentry (by decide) (by omega)
    rw [htr, Option.some.injEq, kernelImageStartVa, kernelImageStartPa]
    omega
  noUser va hva hcan table i size hptr := by
    have hentry := h _ (vpn2_ge_of_upper hva hcan)
    rw [PageTable.translateToPtePtr, mul_pageSize_div] at hptr
    rcases kernelEntry_cases (vpn2 va) with h0 | ⟨hl, hu⟩
    · rw [walk_empty (hentry.trans h0)] at hptr
      cases hptr
    · rw [walk_leaf (by rw [hentry, hl])] at hptr
      cases hptr
      rw [hentry, hu]
  words n u := by
    refine ⟨_, kvmFullMap_run n u, fun i hi => ?_⟩
    rw [mul_pageSize_div, setFrame_self, h i hi]

end Upper

section Compute

instance (σ : Machine) : (op : Op) → Decidable (Activity σ op)
  | .new p => inferInstanceAs (Decidable (p ∉ σ.live))
  | .mapAllocatePage p va flags =>
      inferInstanceAs (Decidable (p ∈ σ.live ∧ va < 2 ^ 38 ∧ flags.contains PteFlags.U = true))
  | .setInitialBrk p _ | .createKernelStack p | .handlePageFault p _ _ | .copyOnWrite p _ =>
      inferInstanceAs (Decidable (p ∈ σ.live))
  | .brk p newBrk => inferInstanceAs (Decidable (p ∈ σ.live ∧ newBrk ≤ 2 ^ 38))
  | .fork p q => inferInstanceAs (Decidable (p ∈ σ.live ∧ q ∉ σ.live))
  | .remapPage .. | .copyIn .. | .load .. | .store .. | .free .. => isFalse id

theorem Reach.active {σ₀ σ : Machine} {ref : Ref} (h : Reach Activity σ₀ σ ref) : Active σ₀ σ := by
  induction h with
  | start hb => exact .start hb
  | step _ _ ha hstep ih => exact ih.step ha hstep

/-- A page that is forked, a break that is moved, and the faults on them. -/
def forkAndFault : List Op :=
  [.new 0, .mapAllocatePage 0 0x1000 (PteFlags.RW ||| PteFlags.U), .fork 0 1,
    .handlePageFault 1 0x1000 PteFlags.W, .brk 1 0x3000, .handlePageFault 1 0x2000 PteFlags.R]

end Compute

end Efiks.Mm

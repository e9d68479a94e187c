import Efiks.Mm.Invariant

/-!
# Every change to memory is a step of sharing

The specifications of the page-table code say what each operation does to physical
memory. Here the changes inside one address space are matched with the abstract
operations they are, for the machine around it: the other address spaces keep their
tables and their pages.

## Main results

* `Inv.pageMapped`, `Inv.copied`, `Inv.remapped`, `Inv.written`, `Inv.grown`.
-/
namespace Efiks.Mm
open Lib Lib.RustM PageTableEntry

section SetSpace
variable {σ : Machine} {p q : ℕ} {sp sp' : Space}

@[simp] theorem setSpace_sys : (σ.setSpace p sp).sys = sp.sys := rfl

@[simp] theorem setSpace_live : (σ.setSpace p sp).live = σ.live := rfl

@[simp] theorem setSpace_mm : ((σ.setSpace p sp).proc p).mm = sp.mm := by
  simp only [Machine.setSpace, Function.update_self]

theorem setSpace_proc_of_ne (h : q ≠ p) : (σ.setSpace p sp).proc q = σ.proc q :=
  Function.update_of_ne h ..

@[simp] theorem setSpace_loading : ((σ.setSpace p sp).proc q).loading = (σ.proc q).loading := by
  by_cases h : q = p
  · subst h
    simp only [Machine.setSpace, Function.update_self]
  · rw [setSpace_proc_of_ne h]

@[simp] theorem space_setSpace : (σ.setSpace p sp).space p = sp := by
  simp only [Machine.space, setSpace_sys, setSpace_mm]

@[simp] theorem setSpace_setSpace : (σ.setSpace p sp).setSpace p sp' = σ.setSpace p sp' := by
  simp only [Machine.setSpace, Function.update_self, Function.update_idem]

/-- Code that leaves the manager alone. -/
theorem setSpace_mm_self (s : MemState) :
    σ.setSpace p ⟨s, (σ.proc p).mm⟩ = { σ with sys := s } := by
  simp only [Machine.setSpace, Function.update_eq_self]

end SetSpace

/-- The spaces that are not `touched` keep their managers and their tables. -/
structure Others (σ σ' : Machine) (touched : ℕ → Prop) : Prop where
  live : ∀ q, ¬ touched q → (q ∈ σ'.live ↔ q ∈ σ.live)
  mm_eq : ∀ q, ¬ touched q → (σ'.proc q).mm = (σ.proc q).mm
  kept : ∀ q ∈ σ.live, ¬ touched q → ∀ path n,
    tableAt σ.sys (σ.proc q).mm.rootFrame path = some n →
      σ'.sys.mem n = σ.sys.mem n ∧ σ'.sys.used n

section Others
variable {perm : Perm} {track : Bool} {boot : ℕ → Prop} {σ σ' : Machine} {p q : ℕ}
variable {touched : ℕ → Prop} {sp : Space}

theorem SpaceOk.congr {s s' : MemState} {mm : MemoryManager} (h : SpaceOk perm s mm)
    (hmem : ∀ path n, tableAt s mm.rootFrame path = some n → s'.mem n = s.mem n ∧ s'.used n) :
    SpaceOk perm s' mm where
  root := h.root
  shape := h.shape.congr (fun path n hn => (hmem path n hn).1) fun path n hn => (hmem path n hn).2
  regions := h.regions
  covered v hv := h.covered v (by
    rwa [pteAt_congr (fun path n hn => (hmem path n hn).1)] at hv)
  stack := h.stack
  permissions hl := by
    have hpte := pteAt_congr (fun path n hn => (hmem path n hn).1)
    refine ⟨(h.permissions hl).region, fun v => ?_, fun x hx => ?_⟩
    · rw [hpte]
      exact (h.permissions hl).entry v
    · rw [hpte]
      exact (h.permissions hl).readable x hx
  recorded hr x hx := by
    rw [pteAt_congr (fun path n hn => (hmem path n hn).1)]
    exact h.recorded hr x hx

theorem Others.space (h : Others σ σ' touched) (hq : q ∈ σ.live) (ht : ¬ touched q)
    (hs : SpaceOk perm σ.sys (σ.proc q).mm) : SpaceOk perm σ'.sys (σ'.proc q).mm := by
  rw [h.mm_eq q ht]
  exact hs.congr (h.kept q hq ht)

theorem Others.map (h : Others σ σ' touched) (ht : ¬ touched q) (v : Vpn) :
    (σ'.abs track).map q v = (σ.abs track).map q v := by
  by_cases hq : q ∈ σ.live
  · rw [abs_map hq, abs_map ((h.live q ht).mpr hq), h.mm_eq q ht,
      pteAt_congr fun path n hn => (h.kept q hq ht path n hn).1]
  · rw [abs_map_dead hq, abs_map_dead fun hq' => hq ((h.live q ht).mp hq')]

theorem Others.priv (h : Others σ σ' touched) (ht : ¬ touched q) (x : Slot) :
    (σ'.abs track).priv q x = (σ.abs track).priv q x := by
  by_cases hq : q ∈ σ.live
  · rw [abs_priv hq, abs_priv ((h.live q ht).mpr hq), h.mm_eq q ht]
    cases x with
    | inl path => exact tableAt_congr (fun path n hn => (h.kept q hq ht path n hn).1) path
    | inr k => rfl
  · rw [abs_priv_dead hq, abs_priv_dead fun hq' => hq ((h.live q ht).mp hq')]

/-- A change to the tables of `p`, and to frames that are no tables. -/
theorem Inv.others (h : Inv perm track boot σ) (hp : p ∈ σ.live)
    (hmem : ∀ n, σ.sys.used n → (∀ q, ¬ (σ.abs track).Maps q n) →
      (∀ path, tableAt σ.sys (σ.proc p).mm.rootFrame path ≠ some n) →
      sp.sys.mem n = σ.sys.mem n ∧ sp.sys.used n) :
    Others σ (σ.setSpace p sp) (· = p) where
  live _ _ := Iff.rfl
  mm_eq q hq := by rw [setSpace_proc_of_ne hq]
  kept q hq hqp path n hn := hmem n (h.table_used hq hn)
    (fun r hr => h.maps_not_table hr hq path hn) (h.table_other hp hq hqp hn)

end Others

section Mapped
variable {perm : Perm} {track : Bool} {boot : ℕ → Prop} {σ : Machine} {p f : ℕ}
variable {s' : MemState} {mm' : MemoryManager} {x : VmRegion}

theorem getLsbD_leafEntry_flag (pa : ℕ) (flags : PteFlags) {i : ℕ} (h0 : i ≠ 0) (hi : i < 6) :
    (leafEntry pa flags).getLsbD i = flags.getLsbD i := by
  rw [getLsbD_leafEntry pa flags hi]
  simp [h0]

theorem leafEntry_ne_zero (pa : ℕ) (flags : PteFlags) : leafEntry pa flags ≠ 0 := by
  intro h
  have hv := leafEntry_isValid pa flags
  rw [h] at hv
  exact absurd hv (by decide)

theorem rootFrame_congr {mm mm' : MemoryManager} (h : mm'.rootPt = mm.rootPt) :
    mm'.rootFrame = mm.rootFrame := by
  rw [MemoryManager.rootFrame, h, MemoryManager.rootFrame]

/-- A new page of a region keeps the space well formed. -/
theorem SpaceOk.pageMapped {s : MemState} {mm : MemoryManager} (h : SpaceOk perm s mm)
    (hm : PageMapped s s' mm.rootFrame (vpn x.start) f x.flags) (hroot : mm'.rootPt = mm.rootPt)
    (hstack : mm'.kernelStack = mm.kernelStack) (hr : RegionsOk mm'.regions)
    (hmem : ∀ y, y ∈ mm'.regions ↔ y = x ∨ y ∈ mm.regions) (hlegal : perm.legal → LegalFlags x.flags) :
    SpaceOk perm s' mm' where
  root := by rw [hroot, rootFrame_congr hroot, ← h.root]
  shape := by rw [rootFrame_congr hroot]; exact hm.shape
  regions := hr
  covered v hv := by
    rw [rootFrame_congr hroot] at hv
    by_cases hvx : v = vpn x.start
    · exact ⟨x, (hmem x).mpr (Or.inl rfl), hvx.symm⟩
    · rw [hm.pte_other v hvx] at hv
      obtain ⟨y, hy, hyv⟩ := h.covered v hv
      exact ⟨y, (hmem y).mpr (Or.inr hy), hyv⟩
  stack := by rw [hstack]; exact h.stack
  permissions hl := by
    have hold := h.permissions hl
    refine ⟨fun y hy => ?_, fun v => ?_, fun y hy hne hR => ?_⟩
    · rcases (hmem y).mp hy with rfl | hy'
      · exact hlegal hl
      · exact hold.region y hy'
    · rw [rootFrame_congr hroot]
      by_cases hvx : v = vpn x.start
      · rw [hvx, hm.pte_self, LegalEntry, getLsbD_leafEntry_flag _ _ (by decide) (by decide),
          getLsbD_leafEntry_flag _ _ (by decide) (by decide)]
        exact hlegal hl
      · rw [hm.pte_other v hvx]
        exact hold.entry v
    · rw [rootFrame_congr hroot] at hne ⊢
      by_cases hyx : vpn y.start = vpn x.start
      · -- the page is the new one, so the region is `x`
        have hx : x ∈ mm'.regions := (hmem x).mpr (Or.inl rfl)
        rw [hr.eq_of_vpn_eq hy hx hyx] at hR ⊢
        rw [hm.pte_self, getLsbD_leafEntry_flag _ _ (by decide) (by decide)]
        exact hR
      · rw [hm.pte_other _ hyx] at hne ⊢
        rcases (hmem y).mp hy with rfl | hy'
        · exact absurd rfl hyx
        · exact hold.readable y hy' hne hR
  recorded hrec y hy := by
    rw [rootFrame_congr hroot]
    by_cases hyx : vpn y.start = vpn x.start
    · have hx : x ∈ mm'.regions := (hmem x).mpr (Or.inl rfl)
      rw [hr.eq_of_vpn_eq hy hx hyx, hm.pte_self]
      intro i h1 h3 hi
      rwa [getLsbD_leafEntry_flag _ _ (by omega) (by omega)] at hi
    · rw [hm.pte_other _ hyx]
      rcases (hmem y).mp hy with rfl | hy'
      · exact absurd rfl hyx
      · exact h.recorded hrec y hy'

theorem Inv.mapFresh (h : Inv perm track boot σ) (hp : p ∈ σ.live)
    (hm : PageMapped σ.sys s' (σ.proc p).mm.rootFrame (vpn x.start) f x.flags)
    (hroot : mm'.rootPt = (σ.proc p).mm.rootPt)
    (hstack : mm'.kernelStack = (σ.proc p).mm.kernelStack) :
    Frames.MapFresh (σ.abs track) ((σ.setSpace p ⟨s', mm'⟩).abs track) p (vpn x.start) f
      (x.flags.getLsbD 2) fun _ => 0 := by
  have hothers : Others σ (σ.setSpace p ⟨s', mm'⟩) (· = p) := h.others hp fun n hn _ ht =>
    ⟨hm.frame n hn ht, (hm.used n).mpr (Or.inl hn)⟩
  have hp' : p ∈ (σ.setSpace p ⟨s', mm'⟩).live := hp
  have hfree : ∀ q, ¬ (σ.abs track).Maps q f := fun q hq => hm.fresh (h.sharing.used_of_maps hq)
  have hmeta : s'.pageMeta (4096 * f) = some 1 := by
    rw [hm.meta_self, h.meta_of_free hm.fresh]
    rfl
  have hmap : ∀ v, ((σ.setSpace p ⟨s', mm'⟩).abs track).map p v =
      pageOf (pteAt s' (σ.proc p).mm.rootFrame v) := by
    intro v
    rw [abs_map hp', setSpace_mm, rootFrame_congr hroot]
    rfl
  have hpriv : ∀ y, ((σ.setSpace p ⟨s', mm'⟩).abs track).priv p y =
      privFrame track s' { (σ.proc p).mm with regions := mm'.regions } y := by
    intro y
    rw [abs_priv hp', setSpace_mm]
    cases y with
    | inl path => exact congrArg (tableAt s' · path) (rootFrame_congr hroot)
    | inr k => simp only [privFrame, hstack]
  -- the slots of the stack do not change
  have hslot : ∀ k, privFrame track s' { (σ.proc p).mm with regions := mm'.regions } (.inr k) =
      (σ.abs track).priv p (.inr k) := fun k => by rw [abs_priv hp]; rfl
  refine
    { live_eq := rfl
      solo := fun q hq => by
        change ((σ.setSpace p ⟨s', mm'⟩).proc q).loading = true at hq
        rwa [setSpace_loading] at hq
      mem_live := hp
      fresh := hm.fresh
      unmapped := by rw [abs_map hp, hm.unmapped]; rfl
      map_self := by
        rw [hmap, hm.pte_self, pageOf_of_ne (leafEntry_ne_zero _ _), ppn_leafEntry hm.bound,
          leafEntry_isWritable]
      map_other := fun q w hqw => ?_
      priv_other := fun q y hq => hothers.priv hq y
      priv_keep := fun y n hn => ?_
      priv_new := fun y n hn => ?_
      priv_inj := fun y z n hy hz => ?_
      used := fun n => ?_
      refs_self := refs_of_meta hmeta
      refs_other := fun g hg => refs_congr (hm.meta_other _ (by omega))
      data_self := ?_
      data_other := fun q g hg => ?_ }
  · by_cases hq : q = p
    · subst hq
      have hw : w ≠ vpn x.start := fun hw => hqw (by rw [hw])
      rw [hmap, abs_map hp, hm.pte_other w hw]
    · exact hothers.map hq w
  · rw [hpriv]
    cases y with
    | inl path => exact hm.keep path n ((abs_priv hp _).symm.trans hn)
    | inr k => rw [hslot, hn]
  · rw [hpriv] at hn
    cases y with
    | inl path => exact (hm.new path n hn).imp (fun ht => Inv.table_priv hp ht) id
    | inr k => exact Or.inl ((hslot k).symm.trans hn)
  · rw [hpriv] at hy hz
    -- a new table is not in use, so it is no frame of the stack
    have hcross : ∀ path k, tableAt s' (σ.proc p).mm.rootFrame path = some n →
        (σ.abs track).priv p (.inr k) ≠ some n := by
      intro path k ht hk
      rcases hm.new path n ht with hold | ⟨hu, -⟩
      · exact nomatch (h.sharing.priv_inj (Inv.table_priv hp hold) hk).2
      · exact hu (h.sharing.used_of_priv hk)
    cases y with
    | inl path =>
        cases z with
        | inl path' => rw [hm.shape.tree.inj path path' n hy hz]
        | inr k => exact absurd ((hslot k).symm.trans hz) (hcross path k hy)
    | inr k =>
        cases z with
        | inl path => exact absurd ((hslot k).symm.trans hy) (hcross path k hz)
        | inr j =>
            rw [hslot] at hy hz
            rw [(h.sharing.priv_inj hy hz).2]
  · change s'.used n ↔ σ.sys.used n ∨ _
    rw [hm.used]
    simp only [hpriv]
    constructor
    · rintro (hu | hf | ⟨path, ht⟩)
      · exact Or.inl hu
      · exact Or.inr (Or.inl hf)
      · exact Or.inr (Or.inr ⟨.inl path, ht⟩)
    · rintro (hu | hf | ⟨y, hy⟩)
      · exact Or.inl hu
      · exact Or.inr (Or.inl hf)
      · cases y with
        | inl path => exact Or.inr (Or.inr ⟨path, hy⟩)
        | inr k => exact Or.inl (h.sharing.used_of_priv ((hslot k).symm.trans hy))
  · change frameByte (s'.mem f) = _
    rw [hm.zero]
    funext k
    exact frameByte_zero k
  · change frameByte (s'.mem g) = frameByte (σ.sys.mem g)
    rw [hm.frame g (h.sharing.used_of_maps hg) (h.maps_not_table hg hp)]

theorem Inv.space_of_others {σ' : Machine} (h : Inv perm track boot σ)
    (ho : Others σ σ' (· = p)) (hp : SpaceOk perm σ'.sys (σ'.proc p).mm) :
    ∀ q ∈ σ'.live, SpaceOk perm σ'.sys (σ'.proc q).mm := by
  intro q hq
  by_cases hqp : q = p
  · exact hqp ▸ hp
  · have hq' : q ∈ σ.live := (ho.live q hqp).mp hq
    exact ho.space hq' hqp (h.space q hq')

/-- **A page is mapped**: by `map_allocate_page`, or on a fault in a recorded region. -/
theorem Inv.pageMapped (h : Inv perm track boot σ) (hp : p ∈ σ.live)
    (hm : PageMapped σ.sys s' (σ.proc p).mm.rootFrame (vpn x.start) f x.flags)
    (hroot : mm'.rootPt = (σ.proc p).mm.rootPt)
    (hstack : mm'.kernelStack = (σ.proc p).mm.kernelStack) (hr : RegionsOk mm'.regions)
    (hmem : ∀ y, y ∈ mm'.regions ↔ y = x ∨ y ∈ (σ.proc p).mm.regions)
    (hlegal : perm.legal → LegalFlags x.flags) :
    StepOk perm track boot σ (σ.setSpace p ⟨s', mm'⟩) id := by
  have hstep := h.mapFresh hp hm hroot hstack
  have hothers : Others σ (σ.setSpace p ⟨s', mm'⟩) (· = p) := h.others hp fun n hn _ ht =>
    ⟨hm.frame n hn ht, (hm.used n).mpr (Or.inl hn)⟩
  refine ⟨⟨h.placed.congr hm.addr_eq, ?_, fun g => ?_, h.sharing.mapFresh hstep⟩,
    fun q y n hn => ?_, fun ref hrep => hrep.mapFresh h.sharing hstep⟩
  · refine h.space_of_others hothers ?_
    rw [setSpace_mm]
    exact (h.space p hp).pageMapped hm hroot hstack hr hmem hlegal
  · change s'.pageMeta (4096 * g) ≠ some 0
    by_cases hg : g = f
    · rw [hg, hm.meta_self, h.meta_of_free hm.fresh]
      decide
    · rw [hm.meta_other _ (by omega)]
      exact h.counted g
  · by_cases hq : q = p
    · subst hq
      exact (hstep.priv_new y n hn).imp id And.left
    · rw [hstep.priv_other q y hq] at hn
      exact Or.inl hn

end Mapped

section Leaf
variable {perm : Perm} {track : Bool} {boot : ℕ → Prop} {σ : Machine} {p f g : ℕ} {v : Vpn}
variable {s' : MemState} {c : UInt16} {e : PageTableEntry}

/-- The private frames of `p` when its tables stay where they are. -/
theorem setSpace_priv (hp : p ∈ σ.live)
    (ht : ∀ path, tableAt s' (σ.proc p).mm.rootFrame path =
      tableAt σ.sys (σ.proc p).mm.rootFrame path) (y : Slot) :
    ((σ.setSpace p ⟨s', (σ.proc p).mm⟩).abs track).priv p y = (σ.abs track).priv p y := by
  rw [abs_priv hp, abs_priv (σ := σ.setSpace p ⟨s', (σ.proc p).mm⟩) hp, setSpace_mm]
  cases y with
  | inl path => exact ht path
  | inr k => rfl

theorem setSpace_map (hp : p ∈ σ.live) (w : Vpn) :
    ((σ.setSpace p ⟨s', (σ.proc p).mm⟩).abs track).map p w =
      pageOf (pteAt s' (σ.proc p).mm.rootFrame w) := by
  rw [abs_map (σ := σ.setSpace p ⟨s', (σ.proc p).mm⟩) hp, setSpace_mm]
  rfl

theorem setSpace_solo (sp : Space) (q : ℕ) (h : ((σ.setSpace p sp).abs track).solo q) :
    (σ.abs track).solo q := by
  change ((σ.setSpace p sp).proc q).loading = true at h
  rwa [setSpace_loading] at h

/-- Changing the leaf entry of one page keeps the space well formed. -/
theorem SpaceOk.leafChanged {s : MemState} {mm : MemoryManager} (h : SpaceOk perm s mm)
    (hs : Shape s' mm.rootFrame) (hne : pteAt s mm.rootFrame v ≠ 0)
    (hself : pteAt s' mm.rootFrame v = e)
    (hother : ∀ w, w ≠ v → pteAt s' mm.rootFrame w = pteAt s mm.rootFrame w)
    (hlegal : perm.legal → LegalEntry e)
    (hR : perm.legal → (pteAt s mm.rootFrame v).getLsbD 1 = true → e.getLsbD 1 = true)
    (hrec : perm.recorded → ∀ x ∈ mm.regions, vpn x.start = v → Recorded x.flags e) :
    SpaceOk perm s' mm where
  root := h.root
  shape := hs
  regions := h.regions
  covered w hw := by
    by_cases hwv : w = v
    · exact hwv ▸ h.covered v hne
    · exact h.covered w (by rwa [hother w hwv] at hw)
  stack := h.stack
  permissions hl := by
    have hold := h.permissions hl
    refine ⟨hold.region, fun w => ?_, fun x hx hxne hxR => ?_⟩
    · by_cases hwv : w = v
      · rw [hwv, hself]
        exact hlegal hl
      · rw [hother w hwv]
        exact hold.entry w
    · by_cases hxv : vpn x.start = v
      · have hread := hold.readable x hx (by rwa [hxv]) hxR
        rw [hxv] at hread ⊢
        rw [hself]
        exact hR hl hread
      · rw [hother _ hxv] at hxne ⊢
        exact hold.readable x hx hxne hxR
  recorded hr x hx := by
    by_cases hxv : vpn x.start = v
    · rw [hxv, hself]
      exact hrec hr x hx hxv
    · rw [hother _ hxv]
      exact h.recorded hr x hx

theorem refs_drop (hc : c ≠ 0) : (Page.drop c).elim 0 UInt16.toNat + 1 = c.toNat := by
  have hpos : 0 < c.toNat := Nat.pos_of_ne_zero fun h => hc (UInt16.toNat_inj.mp h)
  have hsub : (c - 1).toNat + 1 = c.toNat := by
    rw [UInt16.toNat_sub_of_le c 1 (UInt16.le_iff_toNat_le.mpr hpos)]
    exact Nat.sub_add_cancel hpos
  unfold Page.drop
  split
  · rename_i h0
    rw [h0] at hsub
    exact hsub
  · exact hsub

theorem drop_ne_zero (c : UInt16) : Page.drop c ≠ some 0 := by
  unfold Page.drop
  split
  · exact fun h => nomatch h
  · rename_i h0
    exact fun h => h0 (Option.some.inj h)

theorem cowEntry_ne_zero (e : PageTableEntry) (g : ℕ) : cowEntry e g ≠ 0 := by
  intro h
  have hw := isWritable_cowEntry e g
  rw [h] at hw
  exact absurd hw (by decide)

theorem Inv.unshare (h : Inv perm track boot σ) (hp : p ∈ σ.live)
    (hne : pteAt σ.sys (σ.proc p).mm.rootFrame v ≠ 0)
    (hf : (pteAt σ.sys (σ.proc p).mm.rootFrame v).ppn = f)
    (hmeta : σ.sys.pageMeta (4096 * f) = some c)
    (hc : Copied σ.sys s' (σ.proc p).mm.rootFrame v f g c) :
    Frames.Unshare (σ.abs track) ((σ.setSpace p ⟨s', (σ.proc p).mm⟩).abs track) p v f g := by
  have hmaps : (σ.abs track).Maps p f := hf ▸ Inv.maps_of_pteAt hp hne
  have hfg : f ≠ g := fun hfg => hc.fresh (hfg ▸ h.sharing.used_of_maps hmaps)
  have hc0 : c ≠ 0 := fun h0 => h.counted f (h0 ▸ hmeta)
  have hbound : g < 2 ^ 44 := by
    have hg := (h.placed.congr hc.addr_eq).range ((hc.used g).mpr (Or.inl rfl))
    exact hg.2.trans (by norm_num)
  have hothers : Others σ (σ.setSpace p ⟨s', (σ.proc p).mm⟩) (· = p) := by
    refine h.others hp fun n hn hnm ht => ⟨hc.mem_other n ?_ ht, (hc.used n).mpr (Or.inr ⟨hn, ?_⟩)⟩
    · exact fun hng => hc.fresh (hng ▸ hn)
    · exact fun hnf => hnm p (hnf.1 ▸ hmaps)
  refine
    { live_eq := rfl
      solo := setSpace_solo _
      fresh := hc.fresh
      mapped := ⟨_, abs_map_eq_some.mpr ⟨hp, hne, hf, rfl⟩⟩
      map_self := ?_
      map_other := fun q w hqw => ?_
      priv := fun q y => ?_
      used := fun n => ?_
      refs_new := ?_
      refs_old := ?_
      refs_other := fun n hnf hng => refs_congr (hc.meta_other _ (by omega) (by omega))
      data_new := congrArg frameByte hc.mem_new
      data_other := fun q n hq => congrArg frameByte (hc.mem_other n ?_ (h.maps_not_table hq hp)) }
  · rw [setSpace_map hp, hc.pte_self, pageOf_of_ne (cowEntry_ne_zero _ g), ppn_cowEntry _ hbound,
      isWritable_cowEntry]
  · by_cases hq : q = p
    · subst hq
      have hw : w ≠ v := fun hw => hqw (by rw [hw])
      rw [setSpace_map hp, hc.pte_other w hw, abs_map hp]
    · exact hothers.map hq w
  · by_cases hq : q = p
    · subst hq
      exact setSpace_priv hp hc.table y
    · exact hothers.priv hq y
  · have hone : (σ.abs track).refs f = 1 ↔ c = 1 := by
      change σ.sys.refs f = 1 ↔ _
      rw [refs_of_meta hmeta]
      exact UInt16.toNat_inj (b := 1)
    rw [hone]
    exact hc.used n
  · change s'.refs g = 1
    rw [MemState.refs, hc.meta_new, h.meta_of_free hc.fresh]
    rfl
  · change s'.refs f + 1 = σ.sys.refs f
    rw [MemState.refs, hc.meta_old, refs_of_meta hmeta]
    exact refs_drop hc0
  · exact fun hng => hc.fresh (hng ▸ h.sharing.used_of_maps hq)

/-- **Copy on write.** -/
theorem Inv.copied (h : Inv perm track boot σ) (hp : p ∈ σ.live)
    (hne : pteAt σ.sys (σ.proc p).mm.rootFrame v ≠ 0)
    (hf : (pteAt σ.sys (σ.proc p).mm.rootFrame v).ppn = f)
    (hmeta : σ.sys.pageMeta (4096 * f) = some c)
    (hc : Copied σ.sys s' (σ.proc p).mm.rootFrame v f g c)
    (hlegal : perm.legal → (pteAt σ.sys (σ.proc p).mm.rootFrame v).getLsbD 1 = true)
    (hrec : perm.recorded → ∀ x ∈ (σ.proc p).mm.regions, vpn x.start = v →
      x.flags.getLsbD 2 = true) :
    StepOk perm track boot σ (σ.setSpace p ⟨s', (σ.proc p).mm⟩) id := by
  have hstep := h.unshare hp hne hf hmeta hc
  have hR : perm.legal → (cowEntry (pteAt σ.sys (σ.proc p).mm.rootFrame v) g).getLsbD 1 = true := by
    intro hl
    rw [getLsbD_cowEntry _ _ (by norm_num), hlegal hl, Bool.true_or]
  have hmaps : (σ.abs track).Maps p f := hf ▸ Inv.maps_of_pteAt hp hne
  have hothers : Others σ (σ.setSpace p ⟨s', (σ.proc p).mm⟩) (· = p) := by
    refine h.others hp fun n hn hnm ht => ⟨hc.mem_other n ?_ ht, (hc.used n).mpr (Or.inr ⟨hn, ?_⟩)⟩
    · exact fun hng => hc.fresh (hng ▸ hn)
    · exact fun hnf => hnm p (hnf.1 ▸ hmaps)
  refine ⟨⟨h.placed.congr hc.addr_eq, ?_, fun n => ?_, h.sharing.unshare hstep⟩,
    fun q y n hn => Or.inl (by rwa [hstep.priv] at hn), fun ref hrep => hrep.unshare hstep⟩
  · refine h.space_of_others hothers ?_
    rw [setSpace_mm]
    refine (h.space p hp).leafChanged hc.shape hne hc.pte_self hc.pte_other (fun hl _ => hR hl)
      (fun hl _ => hR hl) fun hr x hx hxv i h1 h3 hi => ?_
    rw [getLsbD_cowEntry _ _ (by omega)] at hi
    by_cases h2 : i = 2
    · rw [h2]
      exact hrec hr x hx hxv
    · have hW : ∀ j < 4, j ≠ 2 → PteFlags.W.getLsbD j = false := by decide
      rw [hW i (by omega) h2, Bool.or_false, ← hxv] at hi
      exact (h.space p hp).recorded hr x hx i h1 h3 hi
  · change s'.pageMeta (4096 * n) ≠ some 0
    by_cases hnf : n = f
    · rw [hnf, hc.meta_old]
      exact drop_ne_zero c
    · by_cases hng : n = g
      · rw [hng, hc.meta_new, h.meta_of_free hc.fresh]
        decide
      · rw [hc.meta_other _ (by omega) (by omega)]
        exact h.counted n

theorem getLsbD_remapEntry (e : PageTableEntry) (flags : PteFlags) {i : ℕ} (h0 : i ≠ 0)
    (hi : i < 6) : (remapEntry e flags).getLsbD i = (e.getLsbD i || flags.getLsbD i) := by
  have hbits : ∀ j < 6, j ≠ 0 → (PteFlags.V.getLsbD j || PteFlags.A.getLsbD j ||
      PteFlags.D.getLsbD j) = false := by decide
  have hj := hbits i hi h0
  simp only [Bool.or_eq_false_iff] at hj
  simp only [remapEntry, getLsbD_setFlags, BitVec.getLsbD_or, hj, Bool.or_false]

/-- A remapped page is still mapped. -/
theorem Inv.remapped_ne_zero {flags : PteFlags} (h : Inv perm track boot σ) (hp : p ∈ σ.live)
    (hne : pteAt σ.sys (σ.proc p).mm.rootFrame v ≠ 0)
    (hm : Remapped σ.sys s' (σ.proc p).mm.rootFrame v
      (remapEntry (pteAt σ.sys (σ.proc p).mm.rootFrame v) flags)) :
    pteAt s' (σ.proc p).mm.rootFrame v ≠ 0 := by
  obtain ⟨hl, -⟩ := ((h.space p hp).shape.isUserLeaf v).resolve_left hne
  intro hz
  have hl' : (remapEntry (pteAt σ.sys (σ.proc p).mm.rootFrame v) flags).isLeaf = true :=
    isLeaf_setFlags hl
  rw [← hm.pte_self, hz] at hl'
  exact absurd hl' (by decide)

/-- **A page that nobody shares is remapped** with more flags. -/
theorem Inv.remapped {flags : PteFlags} (h : Inv perm track boot σ) (hp : p ∈ σ.live)
    (hsolo : (σ.proc p).loading = true)
    (hne : pteAt σ.sys (σ.proc p).mm.rootFrame v ≠ 0)
    (hm : Remapped σ.sys s' (σ.proc p).mm.rootFrame v
      (remapEntry (pteAt σ.sys (σ.proc p).mm.rootFrame v) flags))
    (hlegal : perm.legal → LegalFlags flags)
    (hrec : perm.recorded → ∀ x ∈ (σ.proc p).mm.regions, vpn x.start = v →
      ∀ i, 1 ≤ i → i ≤ 3 → flags.getLsbD i = true → x.flags.getLsbD i = true) :
    StepOk perm track boot σ (σ.setSpace p ⟨s', (σ.proc p).mm⟩) id := by
  have hmaps : (σ.abs track).Maps p (pteAt σ.sys (σ.proc p).mm.rootFrame v).ppn :=
    Inv.maps_of_pteAt hp hne
  have hothers : Others σ (σ.setSpace p ⟨s', (σ.proc p).mm⟩) (· = p) :=
    h.others hp fun n hn _ ht => ⟨hm.mem_other n ht, (hm.used n).mpr hn⟩
  have hne' := h.remapped_ne_zero hp hne hm
  have hstep : Frames.SetAccess (σ.abs track) ((σ.setSpace p ⟨s', (σ.proc p).mm⟩).abs track) p v
      (pteAt σ.sys (σ.proc p).mm.rootFrame v).ppn (pteAt s' (σ.proc p).mm.rootFrame v).isWritable := by
    refine
      { live_eq := rfl
        solo := setSpace_solo _
        mapped := ⟨_, abs_map_eq_some.mpr ⟨hp, hne, rfl, rfl⟩⟩
        only := fun q hq => h.sharing.solo_excl hsolo hmaps hq
        map_self := ?_
        map_other := fun q w hqw => ?_
        priv := fun q y => ?_
        used := hm.used
        refs := fun n => refs_congr (congrFun hm.meta_eq _)
        data := fun q n hq => congrArg frameByte (hm.mem_other n (h.maps_not_table hq hp)) }
    · rw [setSpace_map hp, pageOf_of_ne hne', hm.pte_self, remapEntry, ppn_setFlags]
    · by_cases hq : q = p
      · subst hq
        have hw : w ≠ v := fun hw => hqw (by rw [hw])
        rw [setSpace_map hp, hm.pte_other w hw, abs_map hp]
      · exact hothers.map hq w
    · by_cases hq : q = p
      · subst hq
        exact setSpace_priv hp hm.table y
      · exact hothers.priv hq y
  refine ⟨⟨h.placed.congr hm.addr_eq, ?_, fun n => ?_, h.sharing.setAccess hstep⟩,
    fun q y n hn => Or.inl (by rwa [hstep.priv] at hn), fun ref hrep => hrep.setAccess hstep⟩
  · refine h.space_of_others hothers ?_
    rw [setSpace_mm]
    refine (h.space p hp).leafChanged hm.shape hne hm.pte_self hm.pte_other (fun hl hW => ?_)
      (fun hl hR => ?_) fun hr x hx hxv i h1 h3 hi => ?_
    · rw [getLsbD_remapEntry _ _ (by norm_num) (by norm_num)] at hW ⊢
      rcases Bool.or_eq_true_iff.mp hW with hW | hW
      · rw [((h.space p hp).permissions hl).entry v hW, Bool.true_or]
      · rw [hlegal hl hW, Bool.or_true]
    · rw [getLsbD_remapEntry _ _ (by norm_num) (by norm_num), hR, Bool.true_or]
    · rw [getLsbD_remapEntry _ _ (by omega) (by omega)] at hi
      rcases Bool.or_eq_true_iff.mp hi with hi | hi
      · rw [← hxv] at hi
        exact (h.space p hp).recorded hr x hx i h1 h3 hi
      · exact hrec hr x hx hxv i h1 h3 hi
  · change s'.pageMeta (4096 * n) ≠ some 0
    rw [hm.meta_eq]
    exact h.counted n

end Leaf

section Write
variable {perm : Perm} {track : Bool} {boot : ℕ → Prop} {σ : Machine} {p f va : ℕ}

/-- An address is its page and its place in the page. -/
theorem pageAddr_add_eq_iff (hva : va < 2 ^ 39) (w : Vpn) (j : Fin 4096) :
    pageAddr w + j = va ↔ w = vpn va ∧ j = pageOffset va := by
  obtain ⟨a, b, c⟩ := w
  simp only [pageAddr, vpn, vpn2, vpn1, vpn0, pageOffset, Prod.mk.injEq, Fin.ext_iff,
    Nat.shiftRight_eq_div_pow]
  omega

/-- A byte write to private memory, page by page. -/
theorem refPages_write {ref : Ref} {b : UInt8} (hva : va < 2 ^ 39) {d : Fin 4096 → UInt8}
    (hd : ∀ j, d j = if j = pageOffset va then b else refPages ref p (vpn va) j) :
    refPages (Function.update ref p (Function.update (ref p) va b)) =
      Function.update (refPages ref) p (Function.update (refPages ref p) (vpn va) d) := by
  funext q w j
  unfold refPages
  by_cases hq : q = p
  · subst hq
    rw [Function.update_self, Function.update_self]
    by_cases hw : w = vpn va
    · subst hw
      rw [Function.update_self, hd]
      by_cases hj : j = pageOffset va
      · rw [if_pos hj, (pageAddr_add_eq_iff hva _ j).mpr ⟨rfl, hj⟩, Function.update_self]
      · rw [if_neg hj, Function.update_of_ne fun h => hj ((pageAddr_add_eq_iff hva _ j).mp h).2]
        rfl
    · rw [Function.update_of_ne hw,
        Function.update_of_ne fun h => hw ((pageAddr_add_eq_iff hva w j).mp h).1]
  · rw [Function.update_of_ne hq, Function.update_of_ne hq]

/-- **A byte of an unshared page is written.** -/
theorem Inv.written (h : Inv perm track boot σ) (hp : p ∈ σ.live) (hva : va < 2 ^ 38)
    (hne : pteAt σ.sys (σ.proc p).mm.rootFrame (vpn va) ≠ 0)
    (hf : (pteAt σ.sys (σ.proc p).mm.rootFrame (vpn va)).ppn = f)
    (honly : ∀ q, (σ.abs track).Maps q f → q = p) (b : UInt8) :
    StepOk perm track boot σ { σ with sys := σ.sys.writeByte (4096 * f + va % 4096) b }
      fun ref => Function.update ref p (Function.update (ref p) va b) := by
  have hdiv : (4096 * f + va % 4096) / 4096 = f := by omega
  have hoff : pageOffset (4096 * f + va % 4096) = pageOffset va :=
    Fin.ext (by change (4096 * f + va % 4096) % 4096 = va % 4096; omega)
  have hmaps : (σ.abs track).Maps p f := hf ▸ Inv.maps_of_pteAt hp hne
  rw [MemState.writeByte, hdiv, hoff, ← setSpace_mm_self (p := p)]
  generalize hs' : σ.sys.setFrame f (setFrameByte (σ.sys.mem f) (pageOffset va) b) = s'
  have hmem : ∀ n, n ≠ f → s'.mem n = σ.sys.mem n := fun n hn => hs' ▸ setFrame_of_ne _ hn
  have hused : ∀ n, s'.used n ↔ σ.sys.used n := fun n => hs' ▸ setFrame_used _
  have hmeta : s'.pageMeta = σ.sys.pageMeta := hs' ▸ setFrame_pageMeta _
  have htab : ∀ path n, tableAt σ.sys (σ.proc p).mm.rootFrame path = some n → s'.mem n = σ.sys.mem n :=
    fun path n hn => hmem n fun hnf => h.maps_not_table hmaps hp path (hnf ▸ hn)
  have hothers : Others σ (σ.setSpace p ⟨s', (σ.proc p).mm⟩) (· = p) :=
    h.others hp fun n hn hnm _ => ⟨hmem n fun hnf => hnm p (hnf ▸ hmaps), (hused n).mpr hn⟩
  have hstep : Frames.Write (σ.abs track) ((σ.setSpace p ⟨s', (σ.proc p).mm⟩).abs track) p
      (vpn va) f := by
    refine
      { live_eq := rfl
        solo := setSpace_solo _
        mapped := ⟨_, abs_map_eq_some.mpr ⟨hp, hne, hf, rfl⟩⟩
        only := honly
        map := fun q w => ?_
        priv := fun q y => ?_
        used := hused
        refs := fun n => refs_congr (congrFun hmeta _)
        data_other := fun q n _ hn => congrArg frameByte (hmem n hn) }
    · by_cases hq : q = p
      · subst hq
        rw [setSpace_map hp, pteAt_congr htab, abs_map hp]
      · exact hothers.map hq w
    · by_cases hq : q = p
      · subst hq
        exact setSpace_priv hp (tableAt_congr htab) y
      · exact hothers.priv hq y
  refine ⟨⟨h.placed.congr ?_, ?_, fun n => ?_, h.sharing.write hstep⟩,
    fun q y n hn => Or.inl (by rwa [hstep.priv] at hn), fun ref hrep => ?_⟩
  · subst hs'
    rfl
  · refine h.space_of_others hothers ?_
    rw [setSpace_mm]
    exact (h.space p hp).congr fun path n hn =>
      ⟨htab path n hn, (hused n).mpr (h.table_used hp hn)⟩
  · change s'.pageMeta (4096 * n) ≠ some 0
    rw [hmeta]
    exact h.counted n
  · have hdata : ∀ j, frameByte (s'.mem f) j =
        if j = pageOffset va then b else refPages ref p (vpn va) j := by
      intro j
      rw [← hs', setFrame_self, frameByte_setFrameByte]
      refine if_congr Iff.rfl rfl ?_
      exact congrFun (hrep.mapped (abs_map_eq_some.mpr ⟨hp, hne, hf, rfl⟩)) j
    have hwrite := hrep.write h.sharing hstep
    rw [Rep, refPages_write (hva.trans (by norm_num)) hdata]
    exact hwrite

end Write

section Same
variable {perm : Perm} {track : Bool} {boot : ℕ → Prop} {σ σ' : Machine} {p : ℕ}
variable {mm' : MemoryManager}

/-- Nothing that the abstract machine sees has changed. -/
theorem abs_congr (hlive : σ'.live = σ.live) (hsys : σ'.sys = σ.sys)
    (hroot : ∀ q, (σ'.proc q).mm.rootPt = (σ.proc q).mm.rootPt)
    (hstack : ∀ q, (σ'.proc q).mm.kernelStack = (σ.proc q).mm.kernelStack)
    (hload : ∀ q, (σ'.proc q).loading = (σ.proc q).loading) :
    σ'.abs track = σ.abs track := by
  have hpriv : ∀ q, privFrame track σ.sys (σ'.proc q).mm = privFrame track σ.sys (σ.proc q).mm := by
    intro q
    funext y
    cases y with
    | inl path => exact congrArg (tableAt σ.sys · path) (rootFrame_congr (hroot q))
    | inr k => simp only [privFrame, hstack]
  simp only [Machine.abs, hlive, hsys, hload, hpriv, rootFrame_congr (hroot _)]

theorem Inv.same (h : Inv perm track boot σ) (habs : σ'.abs track = σ.abs track)
    (hlive : σ'.live = σ.live) (hsys : σ'.sys = σ.sys)
    (hspace : ∀ q ∈ σ.live, SpaceOk perm σ.sys (σ'.proc q).mm) :
    StepOk perm track boot σ σ' id where
  inv :=
    { placed := hsys ▸ h.placed
      space := fun q hq => hsys ▸ hspace q (hlive ▸ hq)
      counted := fun f => hsys ▸ h.counted f
      sharing := habs ▸ h.sharing }
  fresh q x f hf := Or.inl (habs ▸ hf)
  rep ref hrep := by
    rw [Rep, habs]
    exact hrep

theorem SpaceOk.grown {s : MemState} {mm : MemoryManager} (h : SpaceOk perm s mm)
    (hg : Grown mm mm') : SpaceOk perm s mm' where
  root := by rw [hg.root_eq, rootFrame_congr hg.root_eq, ← h.root]
  shape := by rw [rootFrame_congr hg.root_eq]; exact h.shape
  regions := hg.regions
  covered v hv := by
    rw [rootFrame_congr hg.root_eq] at hv
    obtain ⟨x, hx, hxv⟩ := h.covered v hv
    exact ⟨x, hg.keep x hx, hxv⟩
  stack := by rw [hg.stack_eq]; exact h.stack
  permissions hl := by
    have hold := h.permissions hl
    refine ⟨fun x hx => ?_, fun v => ?_, fun x hx hne hR => ?_⟩
    · rcases hg.new x hx with hx' | hflags
      · exact hold.region x hx'
      · rw [hflags]
        exact fun _ => by decide
    · rw [rootFrame_congr hg.root_eq]
      exact hold.entry v
    · rw [rootFrame_congr hg.root_eq] at hne ⊢
      -- a page that is mapped already has a region, and that is `x`
      obtain ⟨y, hy, hyx⟩ := h.covered _ hne
      rw [← hg.regions.eq_of_vpn_eq (hg.keep y hy) hx hyx] at hne hR ⊢
      exact hold.readable y hy hne hR
  recorded hr x hx i h1 h3 hi := by
    rw [rootFrame_congr hg.root_eq] at hi
    have hne : pteAt s mm.rootFrame (vpn x.start) ≠ 0 := by
      intro h0
      rw [h0] at hi
      simp at hi
    obtain ⟨y, hy, hyx⟩ := h.covered _ hne
    rw [← hg.regions.eq_of_vpn_eq (hg.keep y hy) hx hyx] at hi ⊢
    exact h.recorded hr y hy i h1 h3 hi

/-- The manager changed, but neither its tables nor its kernel stack. -/
theorem Inv.managed (h : Inv perm track boot σ) (hroot : mm'.rootPt = (σ.proc p).mm.rootPt)
    (hstack : mm'.kernelStack = (σ.proc p).mm.kernelStack) (hspace : SpaceOk perm σ.sys mm') :
    StepOk perm track boot σ (σ.setSpace p ⟨σ.sys, mm'⟩) id := by
  refine h.same (abs_congr rfl rfl (fun q => ?_) (fun q => ?_) fun q => setSpace_loading) rfl rfl
    fun q hq => ?_
  · by_cases hq : q = p
    · rw [hq, setSpace_mm, hroot]
    · rw [setSpace_proc_of_ne hq]
  · by_cases hq : q = p
    · rw [hq, setSpace_mm, hstack]
    · rw [setSpace_proc_of_ne hq]
  · by_cases hqp : q = p
    · rw [hqp, setSpace_mm]
      exact hspace
    · rw [setSpace_proc_of_ne hqp]
      exact h.space q hq

/-- **Regions are recorded**, and no page is mapped. -/
theorem Inv.grown (h : Inv perm track boot σ) (hp : p ∈ σ.live)
    (hg : Grown (σ.proc p).mm mm') :
    StepOk perm track boot σ (σ.setSpace p ⟨σ.sys, mm'⟩) id :=
  h.managed hg.root_eq hg.stack_eq ((h.space p hp).grown hg)

theorem Inv.setInitialBrk (h : Inv perm track boot σ) (hp : p ∈ σ.live) (brk : ℕ) :
    StepOk perm track boot σ (σ.setSpace p
      ⟨σ.sys, { (σ.proc p).mm with startBrk := brk, brk := brk }⟩) id :=
  h.grown hp ⟨(h.space p hp).regions, fun _ hx => hx, fun _ hx => Or.inl hx, rfl, rfl⟩

/-- A step that changes nothing. -/
theorem Inv.refl (h : Inv perm track boot σ) : StepOk perm track boot σ σ id :=
  h.same rfl rfl rfl h.space

theorem Inv.killed (h : Inv perm track boot σ) :
    StepOk perm track boot σ (σ.setProcess p fun x => { x with killed := true }) id := by
  have hproc : ∀ q, ((σ.setProcess p fun x => { x with killed := true }).proc q).mm =
      (σ.proc q).mm ∧ ((σ.setProcess p fun x => { x with killed := true }).proc q).loading =
      (σ.proc q).loading := by
    intro q
    by_cases hq : q = p
    · simp only [Machine.setProcess, hq, Function.update_self, and_self]
    · simp only [Machine.setProcess, Function.update_of_ne hq, and_self]
  refine h.same (abs_congr rfl rfl (fun q => ?_) (fun q => ?_) fun q => (hproc q).2) rfl rfl
    fun q hq => ?_
  · rw [(hproc q).1]
  · rw [(hproc q).1]
  · rw [(hproc q).1]
    exact h.space q hq

end Same
end Efiks.Mm

import Efiks.Mm.ForkTables
import Efiks.Mm.FreeTables
import Efiks.Mm.NewSpace
import Efiks.Mm.Steps

/-!
# Address spaces begin, are copied and end

The steps that change which address spaces there are, matched with the abstract
operations: a new space, a fork, the kernel stack of a space, and the end of a
space.

## Main results

* `Inv.created`, `Inv.forked`, `Inv.stacked`, `Inv.reserved`, `Inv.released`.
-/
namespace Efiks.Mm
open Lib Lib.RustM PageTableEntry

section AddProcess
variable {σ : Machine} {p q : ℕ} {x : Process}

@[simp] theorem addProcess_sys : (σ.addProcess p x).sys = σ.sys := rfl

theorem mem_addProcess_live : q ∈ (σ.addProcess p x).live ↔ q = p ∨ q ∈ σ.live :=
  Finset.mem_insert

@[simp] theorem addProcess_proc_self : (σ.addProcess p x).proc p = x := Function.update_self ..

theorem addProcess_proc_of_ne (h : q ≠ p) : (σ.addProcess p x).proc q = σ.proc q :=
  Function.update_of_ne h ..

end AddProcess

section Create
variable {perm : Perm} {track : Bool} {boot : ℕ → Prop} {σ : Machine} {p n : ℕ} {t : MemState}

/-- The manager `new` returns. -/
def newManager (n : ℕ) : MemoryManager := { MemoryManager.empty with rootPt := 4096 * n }

theorem rootFrame_newManager (n : ℕ) : (newManager n).rootFrame = n :=
  Nat.mul_div_cancel_left n (by norm_num)

theorem spaceOk_newManager (hu : t.used n) : SpaceOk perm (t.setFrame n kernelEntry) (newManager n) := by
  have hrow : (t.setFrame n kernelEntry).mem n = kernelEntry := setFrame_self _
  have hpte := pteAt_kernel hrow
  refine ⟨?_, ?_, ⟨List.Pairwise.nil, fun x hx => (nomatch hx)⟩, fun v hv => ?_, Or.inl rfl,
    fun _ => ⟨fun x hx => (nomatch hx), fun v => ?_, fun x hx => (nomatch hx)⟩,
    fun _ x hx => (nomatch hx)⟩
  · rw [rootFrame_newManager]
    rfl
  · rw [rootFrame_newManager]
    exact shape_kernel hrow hu
  · rw [rootFrame_newManager, hpte] at hv
    exact absurd rfl hv
  · rw [rootFrame_newManager, hpte]
    exact fun h => absurd h (by decide)

/-- **A new address space** has a root table of its own. -/
theorem Inv.created (h : Inv perm track boot σ) (hp : p ∉ σ.live) (ha : Allocated σ.sys n t) :
    StepOk perm track boot σ
      (({ σ with sys := t.setFrame n kernelEntry } : Machine).addProcess p
        ⟨newManager n, true, false⟩)
      fun ref => Function.update ref p fun _ => 0 := by
  generalize hσ' : ({ σ with sys := t.setFrame n kernelEntry } : Machine).addProcess p
    ⟨newManager n, true, false⟩ = σ'
  have hsys : σ'.sys = t.setFrame n kernelEntry := hσ' ▸ rfl
  have hproc : σ'.proc p = ⟨newManager n, true, false⟩ := hσ' ▸ addProcess_proc_self
  have hproc' : ∀ q, q ≠ p → σ'.proc q = σ.proc q := fun q hq => hσ' ▸ addProcess_proc_of_ne hq
  have hlive : ∀ q, q ∈ σ'.live ↔ q = p ∨ q ∈ σ.live := fun q => hσ' ▸ mem_addProcess_live
  have hmem : ∀ m, σ.sys.used m → σ'.sys.mem m = σ.sys.mem m := by
    intro m hm
    rw [hsys, setFrame_of_ne _ fun hmn : m = n => ha.fresh (hmn ▸ hm), ha.mem_eq]
  have hused : ∀ m, σ'.sys.used m ↔ σ.sys.used m ∨ m = n := by
    intro m
    rw [hsys, setFrame_used, ha.used]
  have hmeta : σ'.sys.pageMeta = σ.sys.pageMeta := by rw [hsys, setFrame_pageMeta, ha.meta_eq]
  have hpl : p ∈ σ'.live := (hlive p).mpr (Or.inl rfl)
  have hrow : σ'.sys.mem n = kernelEntry := by rw [hsys, setFrame_self]
  have hroot : (σ'.proc p).mm.rootFrame = n := by rw [hproc, rootFrame_newManager]
  have hothers : Others σ σ' (· = p) :=
    { live := fun q hq => by rw [hlive]; exact or_iff_right hq
      mm_eq := fun q hq => by rw [hproc' q hq]
      kept := fun q hq _ path m hm =>
        ⟨hmem m (h.table_used hq hm), (hused m).mpr (Or.inl (h.table_used hq hm))⟩ }
  have hpriv : ∀ y m, (σ'.abs track).priv p y = some m ↔ y = .inl [] ∧ m = n := by
    intro y m
    rw [abs_priv hpl]
    cases y with
    | inl path =>
        change tableAt σ'.sys (σ'.proc p).mm.rootFrame path = some m ↔ _
        rw [hroot, tableAt_kernel hrow]
        by_cases hpath : path = []
        · simp [hpath, eq_comm]
        · simp [hpath]
    | inr k =>
        have hnone : stackFrame (σ'.proc p).mm.kernelStack k = none := by rw [hproc]; rfl
        simp only [privFrame, hnone, ite_self]
        exact ⟨fun hk => (by cases hk), fun hk => (by cases hk.1)⟩
  have hstep : Frames.Grow (σ.abs track) (σ'.abs track) p := by
    refine
      { live := hlive
        solo := fun q hq => ?_
        refs := fun f => refs_congr (congrFun hmeta _)
        map := fun q v => ?_
        priv_other := fun q y hq => hothers.priv hq y
        priv_keep := fun y m hm => ?_
        priv_new := fun y m hm => Or.inr (((hpriv y m).mp hm).2 ▸ ha.fresh)
        priv_inj := fun y z m hy hz => ((hpriv y m).mp hy).1.trans ((hpriv z m).mp hz).1.symm
        used := fun m => ?_
        data := fun q f hq => congrArg frameByte (hmem f (h.sharing.used_of_maps hq)) }
    · by_cases hqp : q = p
      · exact Or.inr (hqp ▸ hp)
      · refine Or.inl ?_
        change (σ'.proc q).loading = true at hq
        rwa [hproc' q hqp] at hq
    · by_cases hqp : q = p
      · subst hqp
        rw [abs_map hpl, abs_map_dead hp, hroot, pteAt_kernel hrow]
        rfl
      · exact hothers.map hqp v
    · rw [abs_priv_dead hp] at hm
      cases hm
    · change σ'.sys.used m ↔ σ.sys.used m ∨ _
      rw [hused]
      simp only [hpriv]
      refine or_congr Iff.rfl ⟨fun hm => ⟨.inl [], rfl, hm⟩, ?_⟩
      rintro ⟨_, _, hm⟩
      exact hm
  refine ⟨⟨h.placed.congr ?_, ?_, fun f => ?_, h.sharing.grow hstep⟩, fun q y m hm => ?_,
    fun ref hrep => ?_⟩
  · rw [hsys, setFrame_frames, ha.addr_eq]
  · refine h.space_of_others hothers ?_
    rw [hproc, hsys]
    exact spaceOk_newManager ha.used_self
  · rw [hmeta]
    exact h.counted f
  · by_cases hqp : q = p
    · subst hqp
      exact hstep.priv_new y m hm
    · rw [hstep.priv_other q y hqp] at hm
      exact Or.inl hm
  · have hcreate := hrep.create h.sharing hstep hp
    have hpages : refPages (Function.update ref p fun _ => 0) =
        Function.update (refPages ref) p fun _ _ => 0 := by
      funext q v k
      unfold refPages
      by_cases hqp : q = p
      · subst hqp
        rw [Function.update_self, Function.update_self]
      · rw [Function.update_of_ne hqp, Function.update_of_ne hqp]
    rw [Rep, hpages]
    exact hcreate

end Create

section Fork
variable {perm : Perm} {track : Bool} {boot : ℕ → Prop} {σ : Machine} {p q r' : ℕ} {t : MemState}
variable {e : PageTableEntry}

/-- The machine after the tables of `p` were copied for `q`, which has no kernel stack yet. -/
def Machine.forked (σ : Machine) (p q r' : ℕ) (t : MemState) : Machine :=
  (Machine.setProcess p (fun x => { x with loading := false }) { σ with sys := t }).addProcess q
    ⟨{ (σ.proc p).mm with rootPt := 4096 * r', kernelStack := .empty }, false, false⟩

section
variable (σ p q r' t)

@[simp] theorem forked_sys : (σ.forked p q r' t).sys = t := rfl

theorem mem_forked_live {r : ℕ} : r ∈ (σ.forked p q r' t).live ↔ r = q ∨ r ∈ σ.live :=
  mem_addProcess_live

theorem forked_child : (σ.forked p q r' t).proc q =
    ⟨{ (σ.proc p).mm with rootPt := 4096 * r', kernelStack := .empty }, false, false⟩ :=
  addProcess_proc_self

theorem forked_mm {r : ℕ} (hr : r ≠ q) : ((σ.forked p q r' t).proc r).mm = (σ.proc r).mm := by
  rw [Machine.forked, addProcess_proc_of_ne hr]
  by_cases hrp : r = p
  · simp only [Machine.setProcess, hrp, Function.update_self]
  · simp only [Machine.setProcess, Function.update_of_ne hrp]

theorem forked_loading {r : ℕ} (h : ((σ.forked p q r' t).proc r).loading = true) :
    (σ.proc r).loading = true ∧ r ≠ q ∧ r ≠ p := by
  by_cases hrq : r = q
  · rw [hrq, forked_child] at h
    cases h
  · rw [Machine.forked, addProcess_proc_of_ne hrq] at h
    by_cases hrp : r = p
    · simp only [Machine.setProcess, hrp, Function.update_self, Bool.false_eq_true] at h
    · simp only [Machine.setProcess, Function.update_of_ne hrp] at h
      exact ⟨h, hrq, hrp⟩

theorem forked_root : ((σ.forked p q r' t).proc q).mm.rootFrame = r' := by
  rw [forked_child]
  exact Nat.mul_div_cancel_left r' (by norm_num)

end

/-- Sharing an entry makes its page read-only. -/
theorem pageOf_sharedEntry (he : IsUserLeaf e) :
    pageOf (sharedEntry e) = (pageOf e).map fun m => (m.1, false) := by
  by_cases h0 : e = 0
  · rw [h0, sharedEntry_zero]
    rfl
  · obtain ⟨hl, hu, -⟩ := he.resolve_left h0
    have h0' : sharedEntry e ≠ 0 := fun h => h0 ((sharedEntry_eq_zero_iff he).mp h)
    rw [pageOf_of_ne h0, pageOf_of_ne h0', ppn_sharedEntry, isWritable_sharedEntry hl hu]
    rfl

theorem legalEntry_sharedEntry (he : IsUserLeaf e) : LegalEntry (sharedEntry e) := by
  intro hW
  rcases he with rfl | ⟨hl, hu, -⟩
  · rw [sharedEntry_zero] at hW
    exact absurd hW (by decide)
  · rw [← isWritable_eq, isWritable_sharedEntry hl hu] at hW
    cases hW

/-- A space with the regions and the shared entries of another is well formed too. -/
theorem SpaceOk.shared {s : MemState} {mm mm' : MemoryManager} (h : SpaceOk perm s mm)
    (hroot : mm'.rootPt = 4096 * mm'.rootFrame) (hs : Shape t mm'.rootFrame)
    (hpte : ∀ v, pteAt t mm'.rootFrame v = sharedEntry (pteAt s mm.rootFrame v))
    (hregions : mm'.regions = mm.regions)
    (hstack : mm'.kernelStack = .empty ∨ mm'.kernelStack = mm.kernelStack) :
    SpaceOk perm t mm' where
  root := hroot
  shape := hs
  regions := hregions ▸ h.regions
  covered v hv := by
    rw [hpte] at hv
    rw [hregions]
    refine h.covered v fun h0 => hv ?_
    rw [h0, sharedEntry_zero]
  stack := hstack.elim Or.inl fun heq => heq ▸ h.stack
  permissions hl := by
    have hold := h.permissions hl
    refine ⟨hregions ▸ hold.region, fun v => ?_, fun x hx hne hR => ?_⟩
    · rw [hpte]
      exact legalEntry_sharedEntry (h.shape.isUserLeaf v)
    · rw [hpte] at hne ⊢
      rw [getLsbD_sharedEntry (by norm_num) (by norm_num)]
      refine hold.readable x (hregions ▸ hx) (fun h0 => hne ?_) hR
      rw [h0, sharedEntry_zero]
  recorded hr x hx i h1 h3 hi := by
    rw [hpte] at hi
    have hi' : (pteAt s mm.rootFrame (vpn x.start)).getLsbD i = true := by
      by_cases h2 : i = 2
      · -- a shared entry is not writable
        rw [h2] at hi
        rcases h.shape.isUserLeaf (vpn x.start) with h0 | ⟨hl, hu, -⟩
        · rw [h0, sharedEntry_zero] at hi
          exact absurd hi (by decide)
        · rw [← isWritable_eq, isWritable_sharedEntry hl hu] at hi
          cases hi
      · rwa [getLsbD_sharedEntry (by omega) h2] at hi
    exact h.recorded hr x (hregions ▸ hx) i h1 h3 hi'

theorem Inv.refs_le (h : Inv perm track boot σ) (f : ℕ) : (σ.abs track).refs f ≤ 4096 := by
  classical
  rw [h.sharing.refs_eq]
  refine (Finset.card_le_card ?_).trans h.card_live
  exact fun p hp => (Frames.mem_mappers.mp hp).1

/-- Adding one to the count of a mapped frame does not wrap. -/
theorem Inv.toNat_bump_refs (h : Inv perm track boot σ) {f : ℕ} {c : UInt16}
    (hc : c.toNat = (σ.abs track).refs f) :
    (Page.bump (some c)).toNat = (σ.abs track).refs f + 1 := by
  have hle := h.refs_le f
  rw [← hc] at hle ⊢
  apply toNat_bump
  simp only [Option.elim_some]
  omega

/-- The counts after a fork: one more for each frame of `p`. -/
theorem Inv.forked_meta (h : Inv perm track boot σ) (hp : p ∈ σ.live)
    (hf : ForkPost σ.sys t 2 (σ.proc p).mm.rootFrame r') (f : ℕ) [Decidable ((σ.abs track).Maps p f)] :
    t.pageMeta (4096 * f) = if (σ.abs track).Maps p f then
      some (Page.bump (σ.sys.pageMeta (4096 * f))) else σ.sys.pageMeta (4096 * f) := by
  have hs := (h.space p hp).shape
  rw [hf.meta_eq, addAll_of_nodup (hs.nodup_userFrames fun v w hv hw => h.page_inj hp hv hw)]
  refine if_congr ?_ rfl rfl
  rw [hs.mem_userFrames, abs_maps]
  exact ⟨fun hm => ⟨hp, hm⟩, And.right⟩

theorem Inv.share (h : Inv perm track boot σ) (hp : p ∈ σ.live) (hq : q ∉ σ.live)
    (hf : ForkPost σ.sys t 2 (σ.proc p).mm.rootFrame r') :
    Frames.Share (σ.abs track) ((σ.forked p q r' t).abs track) p q ∧
      Others σ (σ.forked p q r' t) fun r => r = p ∨ r = q := by
  classical
  have hs := (h.space p hp).shape
  have hpq : p ≠ q := fun hpq => hq (hpq ▸ hp)
  have hp' : p ∈ (σ.forked p q r' t).live := (mem_forked_live ..).mpr (Or.inr hp)
  have hq' : q ∈ (σ.forked p q r' t).live := (mem_forked_live ..).mpr (Or.inl rfl)
  have hothers : Others σ (σ.forked p q r' t) fun r => r = p ∨ r = q := by
    refine ⟨fun r hr => ?_, fun r hr => forked_mm _ _ _ _ _ fun hrq => hr (Or.inr hrq),
      fun r hr ht path n hn => ?_⟩
    · rw [mem_forked_live]
      exact or_iff_right fun hrq => hr (Or.inr hrq)
    · have hu := h.table_used hr hn
      exact ⟨hf.frame n hu (h.table_other hp hr (fun hrp => ht (Or.inl hrp)) hn),
        (hf.used n).mpr (Or.inl hu)⟩
  have hpriv : ∀ y n, ((σ.forked p q r' t).abs track).priv q y = some n ↔
      ∃ path, y = .inl path ∧ tableAt t r' path = some n := by
    intro y n
    rw [abs_priv hq']
    cases y with
    | inl path =>
        change tableAt t ((σ.forked p q r' t).proc q).mm.rootFrame path = some n ↔ _
        rw [forked_root]
        refine ⟨fun hn => ⟨path, rfl, hn⟩, ?_⟩
        rintro ⟨_, heq, hn⟩
        exact Sum.inl.inj heq ▸ hn
    | inr k =>
        have hnone : stackFrame ((σ.forked p q r' t).proc q).mm.kernelStack k = none := by
          rw [forked_child]
          rfl
        simp only [privFrame, hnone, ite_self]
        refine ⟨fun hk => (by cases hk), ?_⟩
        rintro ⟨_, heq, -⟩
        cases heq
  refine ⟨?_, hothers⟩
  refine
    { mem_live := hp
      not_live := hq
      live := fun r => mem_forked_live σ p q r' t
      solo := fun r hr => forked_loading σ p q r' t hr
      map_self := fun v => ?_
      map_copy := fun v => ?_
      map_other := fun r v hrp hrq => hothers.map (fun hr => hr.elim hrp hrq) v
      priv_other := fun r y hrq => ?_
      priv_new := fun y n hn => ?_
      priv_inj := fun y z n hy hz => ?_
      used := fun n => ?_
      refs_mapped := fun f hm => ?_
      refs_other := fun f hm => refs_congr ((h.forked_meta hp hf f).trans (if_neg hm))
      data := fun r f hm => congrArg frameByte
        (hf.frame f (h.sharing.used_of_maps hm) (h.maps_not_table hm hp)) }
  · rw [abs_map hp', abs_map hp, forked_mm _ _ _ _ _ hpq, forked_sys, hf.pteAt_old hs,
      pageOf_sharedEntry (hs.isUserLeaf v)]
  · rw [abs_map hq', abs_map hp, forked_root, forked_sys, hf.pteAt_new hs,
      pageOf_sharedEntry (hs.isUserLeaf v)]
  · by_cases hrp : r = p
    · subst hrp
      rw [abs_priv hp', abs_priv hp, forked_mm _ _ _ _ _ hrq]
      cases y with
      | inl path => exact hf.tableAt_old hs path
      | inr k => rfl
    · exact hothers.priv (fun hr => hr.elim hrp hrq) y
  · obtain ⟨path, -, hn'⟩ := (hpriv y n).mp hn
    exact (hf.fresh path n hn').1
  · obtain ⟨path, rfl, hn⟩ := (hpriv y n).mp hy
    obtain ⟨path', rfl, hn'⟩ := (hpriv z n).mp hz
    rw [hf.inj path path' n hn hn']
  · refine (hf.used n).trans (or_congr Iff.rfl ?_)
    simp only [hpriv]
    constructor
    · rintro ⟨path, hn⟩
      exact ⟨.inl path, path, rfl, hn⟩
    · rintro ⟨_, path, -, hn⟩
      exact ⟨path, hn⟩
  · obtain ⟨c, hc, -, hrefs⟩ := h.exists_meta hm
    have hmeta : t.pageMeta (4096 * f) = some (Page.bump (some c)) := by
      rw [h.forked_meta hp hf f, if_pos hm, hc]
    change t.refs f = _
    rw [refs_of_meta hmeta, h.toNat_bump_refs hrefs]

/-- **Fork**: the tables are copied, and the frames are shared. -/
theorem Inv.forked (h : Inv perm track boot σ) (hp : p ∈ σ.live) (hq : q ∉ σ.live)
    (hf : ForkPost σ.sys t 2 (σ.proc p).mm.rootFrame r') :
    StepOk perm track boot σ (σ.forked p q r' t) fun ref => Function.update ref q (ref p) := by
  classical
  obtain ⟨hstep, hothers⟩ := h.share hp hq hf
  have hs := (h.space p hp).shape
  have hpq : p ≠ q := fun hpq => hq (hpq ▸ hp)
  refine ⟨⟨h.placed.congr hf.addr_eq, fun r hr => ?_, fun f => ?_, h.sharing.share hstep⟩,
    fun r y n hn => ?_, fun ref hrep => ?_⟩
  · by_cases hrq : r = q
    · rw [hrq]
      refine (h.space p hp).shared ?_ ?_ (fun v => ?_) ?_ (Or.inl ?_)
      · rw [forked_root, forked_child]
      · rw [forked_root]
        exact hf.shape_new hs
      · rw [forked_root]
        exact hf.pteAt_new hs v
      · rw [forked_child]
      · rw [forked_child]
    · rw [forked_mm _ _ _ _ _ hrq]
      have hrl : r ∈ σ.live := ((mem_forked_live ..).mp hr).resolve_left hrq
      by_cases hrp : r = p
      · rw [hrp]
        exact (h.space p hp).shared (h.space p hp).root (hf.shape_old hs) (hf.pteAt_old hs) rfl
          (Or.inr rfl)
      · have hsp := hothers.space hrl (fun ht => ht.elim hrp hrq) (h.space r hrl)
        rwa [forked_mm _ _ _ _ _ hrq] at hsp
  · rw [forked_sys, h.forked_meta hp hf f]
    split
    · rename_i hm
      obtain ⟨c, hc, -, hrefs⟩ := h.exists_meta hm
      rw [hc]
      intro h0
      have := h.toNat_bump_refs hrefs
      rw [Option.some.inj h0] at this
      exact absurd this.symm (Nat.succ_ne_zero _)
    · exact h.counted f
  · by_cases hrq : r = q
    · subst hrq
      exact Or.inr (hstep.priv_new y n hn)
    · rw [hstep.priv_other r y hrq] at hn
      exact Or.inl hn
  · have hshare := hrep.share hstep
    have hpages : refPages (Function.update ref q (ref p)) =
        Function.update (refPages ref) q (refPages ref p) := by
      funext r v k
      unfold refPages
      by_cases hrq : r = q
      · subst hrq
        rw [Function.update_self, Function.update_self]
      · rw [Function.update_of_ne hrq, Function.update_of_ne hrq]
    rw [Rep, hpages]
    exact hshare

end Fork

section KernelStack
variable {perm : Perm} {track : Bool} {boot : ℕ → Prop} {σ : Machine} {p g b n : ℕ} {ns : List ℕ}
variable {s t : MemState}

/-- With consecutive frames, the recorded range is what was allocated. -/
theorem Taken.mem_iff (h : Taken s (g :: b :: ns) t) (hlen : ns.length = kernelStackPages - 1)
    (hc : Consecutive s) : n ∈ g :: b :: ns ↔ StackFrames g b n := by
  have hpages : kernelStackPages = 16 := rfl
  have hget : ∀ k < kernelStackPages, (b :: ns)[k]? = some (b + k) := by
    intro k hk
    have hlen' : (g :: b :: ns).length = kernelStackPages + 1 := by
      rw [List.length_cons, List.length_cons, hlen]
      omega
    have hck := hc k hk
    rw [h.getElem? (by omega), h.getElem? (by omega)] at hck
    exact hck
  rw [List.mem_cons, StackFrames, List.mem_iff_getElem?]
  refine or_congr Iff.rfl ⟨?_, ?_⟩
  · rintro ⟨k, hk⟩
    have hk' : k < kernelStackPages := by
      have := (List.getElem?_eq_some_iff.mp hk).1
      rw [List.length_cons, hlen] at this
      omega
    rw [hget k hk', Option.some.injEq] at hk
    omega
  · rintro ⟨h₁, h₂⟩
    exact ⟨n - b, by rw [hget _ (by omega), Nat.add_sub_cancel' h₁]⟩

theorem Taken.guard_pos (h : Taken s (g :: b :: ns) t) (hp : s.Placed) : 0 < g ∧ g < b := by
  refine ⟨((h.placed hp).range ((h.used g).mpr (Or.inr List.mem_cons_self))).1, ?_⟩
  exact (List.pairwise_cons.mp h.sorted).1 b List.mem_cons_self

theorem SpaceOk.stacked {mm : MemoryManager} (h : SpaceOk perm s mm) (hp : s.Placed)
    (ht : Taken s (g :: b :: ns) t) :
    SpaceOk perm t { mm with kernelStack := stackRegion g b } := by
  obtain ⟨hg, hgb⟩ := ht.guard_pos hp
  have hok : SpaceOk perm t mm := h.congr fun path n hn =>
    ⟨by rw [ht.mem_eq], (ht.used n).mpr (Or.inl (h.shape.used path n hn))⟩
  exact ⟨hok.root, hok.shape, hok.regions, hok.covered, Or.inr ⟨g, b, hg, hgb, rfl⟩,
    fun hl => ⟨(hok.permissions hl).region, (hok.permissions hl).entry,
      (hok.permissions hl).readable⟩, hok.recorded⟩

/-- The machine after `p` got the kernel stack of the frames `g`, `b`, …. -/
def Machine.stacked (σ : Machine) (p g b : ℕ) (t : MemState) : Machine :=
  σ.setSpace p ⟨t, { (σ.proc p).mm with kernelStack := stackRegion g b }⟩

section
variable (h : Inv perm track boot σ) (hp : p ∈ σ.live) (ht : Taken σ.sys (g :: b :: ns) t)
include h hp ht

theorem Inv.stacked_others : Others σ (σ.stacked p g b t) (· = p) :=
  h.others hp fun n hn _ _ => ⟨by rw [ht.mem_eq], (ht.used n).mpr (Or.inl hn)⟩

theorem Inv.stacked_map (q : ℕ) (v : Vpn) :
    ((σ.stacked p g b t).abs track).map q v = (σ.abs track).map q v := by
  by_cases hq : q = p
  · subst hq
    rw [abs_map (σ := σ.stacked q g b t) hp, abs_map hp, Machine.stacked, setSpace_mm, setSpace_sys]
    exact congrArg pageOf (pteAt_congr (fun _ _ _ => by rw [ht.mem_eq]) v)
  · exact (h.stacked_others hp ht).map hq v

omit h in
theorem Inv.stacked_table (path : List (Fin 512)) :
    ((σ.stacked p g b t).abs track).priv p (.inl path) = (σ.abs track).priv p (.inl path) := by
  rw [abs_priv (σ := σ.stacked p g b t) hp, abs_priv hp, Machine.stacked, setSpace_mm, setSpace_sys]
  exact tableAt_congr (fun _ _ _ => by rw [ht.mem_eq]) path

theorem Inv.stacked_of_sharing {boot' : ℕ → Prop}
    (hs : Frames.Sharing boot' ((σ.stacked p g b t).abs track)) :
    Inv perm track boot' (σ.stacked p g b t) := by
  refine ⟨h.placed.congr ht.addr_eq, ?_, fun f => ?_, hs⟩
  · refine h.space_of_others (h.stacked_others hp ht) ?_
    rw [Machine.stacked, setSpace_mm]
    exact (h.space p hp).stacked h.placed ht
  · change t.pageMeta (4096 * f) ≠ some 0
    rw [ht.meta_eq]
    exact h.counted f

end

/-- **The kernel stack got consecutive frames**, and owns them. -/
theorem Inv.stacked (h : Inv perm true boot σ) (hp : p ∈ σ.live)
    (ht : Taken σ.sys (g :: b :: ns) t) (hlen : ns.length = kernelStackPages - 1)
    (hc : Consecutive σ.sys) (hempty : (σ.proc p).mm.kernelStack = .empty) :
    StepOk perm true boot σ (σ.stacked p g b t) id := by
  obtain ⟨hg, hgb⟩ := ht.guard_pos h.placed
  have hslot : ∀ k, ((σ.stacked p g b t).abs true).priv p (.inr k) =
      stackFrame (stackRegion g b) k := by
    intro k
    rw [abs_priv (σ := σ.stacked p g b t) hp, Machine.stacked, setSpace_mm]
    rfl
  have hnone : ∀ k, (σ.abs true).priv p (.inr k) = none := by
    intro k
    rw [abs_priv hp, privFrame, hempty]
    rfl
  have hfresh : ∀ k n, stackFrame (stackRegion g b) k = some n → ¬ σ.sys.used n := by
    intro k n hn
    exact ht.fresh ((ht.mem_iff hlen hc).mpr ((exists_stackFrame hg).mp ⟨k, hn⟩))
  have hcross : ∀ path k n, (σ.abs true).priv p (.inl path) = some n →
      stackFrame (stackRegion g b) k ≠ some n := fun path k n htab hk =>
    hfresh k n hk (h.sharing.used_of_priv htab)
  have hstep : Frames.Grow (σ.abs true) ((σ.stacked p g b t).abs true) p := by
    refine
      { live := fun q => ⟨Or.inr, fun hq => hq.elim (fun hq => hq ▸ hp) id⟩
        solo := fun q hq => Or.inl (setSpace_solo _ q hq)
        refs := fun f => refs_congr (congrFun ht.meta_eq _)
        map := h.stacked_map hp ht
        priv_other := fun q y hq => (h.stacked_others hp ht).priv hq y
        priv_keep := fun y n hn => ?_
        priv_new := fun y n hn => ?_
        priv_inj := fun y z n hy hz => ?_
        used := fun n => ?_
        data := fun q f _ => congrArg frameByte (congrFun ht.mem_eq f) }
    · cases y with
      | inl path => rwa [Inv.stacked_table hp ht]
      | inr k =>
          rw [hnone] at hn
          cases hn
    · cases y with
      | inl path => exact Or.inl (by rwa [Inv.stacked_table hp ht] at hn)
      | inr k =>
          rw [hslot] at hn
          exact Or.inr (hfresh k n hn)
    · cases y with
      | inl path =>
          rw [Inv.stacked_table hp ht] at hy
          cases z with
          | inl path' =>
              rw [Inv.stacked_table hp ht] at hz
              rw [(h.sharing.priv_inj hy hz).2]
          | inr k => exact absurd ((hslot k).symm.trans hz) (hcross path k n hy)
      | inr k =>
          rw [hslot] at hy
          cases z with
          | inl path =>
              rw [Inv.stacked_table hp ht] at hz
              exact absurd hy (hcross path k n hz)
          | inr j =>
              rw [hslot] at hz
              rw [stackFrame_inj hg hgb hy hz]
    · refine (ht.used n).trans ?_
      rw [ht.mem_iff hlen hc, ← exists_stackFrame hg]
      constructor
      · rintro (hu | ⟨k, hk⟩)
        · exact Or.inl hu
        · exact Or.inr ⟨.inr k, (hslot k).trans hk⟩
      · rintro (hu | ⟨y, hy⟩)
        · exact Or.inl hu
        · cases y with
          | inl path =>
              rw [Inv.stacked_table hp ht] at hy
              exact Or.inl (h.sharing.used_of_priv hy)
          | inr k => exact Or.inr ⟨k, (hslot k).symm.trans hy⟩
  refine ⟨h.stacked_of_sharing hp ht (h.sharing.grow hstep), fun q y n hn => ?_,
    fun ref hrep => hrep.grow hstep hp⟩
  by_cases hq : q = p
  · subst hq
    exact hstep.priv_new y n hn
  · rw [hstep.priv_other q y hq] at hn
    exact Or.inl hn

/-- Whatever frames the kernel stack got, they stay in use. -/
theorem Inv.reserved (h : Inv perm false boot σ) (hp : p ∈ σ.live)
    (ht : Taken σ.sys (g :: b :: ns) t) :
    StepOk perm false (fun f => boot f ∨ f ∈ g :: b :: ns) σ (σ.stacked p g b t) id := by
  have hstep : Frames.Reserve (σ.abs false) ((σ.stacked p g b t).abs false) (· ∈ g :: b :: ns) :=
    { live_eq := rfl
      solo := setSpace_solo _
      map := h.stacked_map hp ht
      priv := fun q y => by
        by_cases hq : q = p
        · subst hq
          cases y with
          | inl path => exact Inv.stacked_table hp ht path
          | inr k =>
              rw [abs_priv hp, abs_priv (σ := σ.stacked q g b t) hp]
              simp only [privFrame, Bool.false_eq_true, if_false]
        · exact (h.stacked_others hp ht).priv hq y
      fresh := fun f hf => ht.fresh hf
      used := ht.used
      refs := fun f => refs_congr (congrFun ht.meta_eq _)
      data := fun q f _ => congrArg frameByte (congrFun ht.mem_eq f) }
  exact ⟨h.stacked_of_sharing hp ht (h.sharing.reserve hstep),
    fun q y n hn => Or.inl (by rwa [hstep.priv] at hn), fun ref hrep => hrep.reserve hstep⟩

end KernelStack

section Release
variable {perm : Perm} {boot : ℕ → Prop} {σ : Machine} {p g b : ℕ} {s₁ s₂ s₃ : MemState}

/-- A frame is held by a region of `p` exactly when `p` maps it. -/
theorem Inv.holds_iff {track : Bool} (h : Inv perm track boot σ) (hp : p ∈ σ.live) (f : ℕ) :
    (∃ x ∈ (σ.proc p).mm.regions, Holds σ.sys (σ.proc p).mm.rootFrame x f) ↔
      (σ.abs track).Maps p f := by
  rw [abs_maps]
  constructor
  · rintro ⟨x, -, hne, hf⟩
    exact ⟨hp, vpn x.start, hne, hf⟩
  · rintro ⟨-, v, hne, hf⟩
    obtain ⟨x, hx, rfl⟩ := (h.space p hp).covered v hne
    exact ⟨x, hx, hne, hf⟩

/-- **The end of an address space**: its pages are dropped, then the kernel stack and
the tables are freed. -/
theorem Inv.released (h : Inv perm true boot σ) (hp : p ∈ σ.live)
    (hstack : (σ.proc p).mm.kernelStack = stackRegion g b) (hg : 0 < g)
    (h₁ : Dropped σ.sys s₁ (σ.proc p).mm.rootFrame (σ.proc p).mm.regions)
    (h₂ : FreedAll s₁ (StackFrames g b) s₂)
    (h₃ : FreedAll s₂ (fun n => ∃ path, tableAt s₂ (σ.proc p).mm.rootFrame path = some n) s₃) :
    StepOk perm true boot σ { σ with sys := s₃, live := σ.live.erase p } id := by
  have hmem : s₃.mem = σ.sys.mem := by rw [h₃.mem_eq, h₂.mem_eq, h₁.mem_eq]
  have htab : ∀ path, tableAt s₂ (σ.proc p).mm.rootFrame path =
      tableAt σ.sys (σ.proc p).mm.rootFrame path :=
    tableAt_congr fun _ _ _ => by rw [h₂.mem_eq, h₁.mem_eq]
  have hmeta : s₃.pageMeta = s₁.pageMeta := by rw [h₃.meta_eq, h₂.meta_eq]
  have hslot : ∀ k, (σ.abs true).priv p (.inr k) = stackFrame (stackRegion g b) k := by
    intro k
    rw [abs_priv hp, privFrame, hstack]
    rfl
  have hone : ∀ f, (σ.abs true).Maps p f →
      (σ.sys.pageMeta (4096 * f) = some 1 ↔ (σ.abs true).refs f = 1) := by
    intro f hm
    obtain ⟨c, hc, -, hrefs⟩ := h.exists_meta hm
    rw [hc, ← hrefs, Option.some.injEq]
    exact (UInt16.toNat_inj (b := 1)).symm
  have hused : ∀ f, s₃.used f ↔ σ.sys.used f ∧ (∀ y, (σ.abs true).priv p y ≠ some f) ∧
      ¬ ((σ.abs true).Maps p f ∧ (σ.abs true).refs f = 1) := by
    intro f
    have hpriv : (∀ y, (σ.abs true).priv p y ≠ some f) ↔
        ¬ StackFrames g b f ∧ ¬ ∃ path, tableAt s₂ (σ.proc p).mm.rootFrame path = some f := by
      rw [← exists_stackFrame hg]
      simp only [htab, ← hslot, not_exists]
      constructor
      · exact fun hall => ⟨fun k => hall (.inr k), fun path ht => hall (.inl path)
          (Inv.table_priv hp ht)⟩
      · rintro ⟨hs, ht⟩ y
        cases y with
        | inl path => rw [abs_priv hp]; exact ht path
        | inr k => exact hs k
    rw [h₃.used, h₂.used, h₁.used, h.holds_iff hp, hpriv]
    have hcount : ((σ.abs true).Maps p f ∧ σ.sys.pageMeta (4096 * f) = some 1) ↔
        (σ.abs true).Maps p f ∧ (σ.abs true).refs f = 1 := and_congr_right (hone f)
    rw [hcount]
    tauto
  have hlive : ∀ q, q ∈ σ.live.erase p ↔ q ≠ p ∧ q ∈ σ.live := fun q => Finset.mem_erase
  have hothers : Others σ { σ with sys := s₃, live := σ.live.erase p } (· = p) :=
    { live := fun q hq => (hlive q).trans (and_iff_right hq)
      mm_eq := fun q _ => rfl
      kept := fun q hq hqp path n hn => by
        refine ⟨by rw [hmem], (hused n).mpr ⟨h.table_used hq hn, fun y hy => ?_, fun hm => ?_⟩⟩
        · exact hqp (h.sharing.priv_inj (Inv.table_priv hq hn) hy).1
        · exact h.maps_not_table hm.1 hq path hn }
  have hdead : p ∉ ({ σ with sys := s₃, live := σ.live.erase p } : Machine).live :=
    fun hp' => ((hlive p).mp hp').1 rfl
  have hstep : Frames.Release (σ.abs true)
      (({ σ with sys := s₃, live := σ.live.erase p } : Machine).abs true) p := by
    refine
      { mem_live := hp
        live := hlive
        solo := fun q hq => hq
        map_self := fun v => abs_map_dead hdead v
        map_other := fun q v hq => hothers.map hq v
        priv_self := fun y => abs_priv_dead hdead y
        priv_other := fun q y hq => hothers.priv hq y
        used := hused
        refs_mapped := fun f hm => ?_
        refs_other := fun f hm => ?_
        data := fun q f _ => congrArg frameByte (congrFun hmem f) }
    · obtain ⟨c, hc, hc0, -⟩ := h.exists_meta hm
      change s₃.refs f + 1 = σ.sys.refs f
      rw [MemState.refs, hmeta, h₁.meta_done f c ((h.holds_iff hp f).mpr hm) hc, refs_of_meta hc]
      exact refs_drop hc0
    · change s₃.refs f = σ.sys.refs f
      refine refs_congr ?_
      rw [hmeta, h₁.meta_other f fun hh => hm ((h.holds_iff hp f).mp hh)]
  refine ⟨⟨h.placed.congr ?_, fun q hq => ?_, fun f => ?_, h.sharing.release hstep⟩,
    fun q y n hn => ?_, fun ref hrep => hrep.release hstep⟩
  · rw [h₃.addr_eq, h₂.addr_eq, h₁.addr_eq]
  · obtain ⟨hqp, hql⟩ := (hlive q).mp hq
    exact hothers.space hql hqp (h.space q hql)
  · change s₃.pageMeta (4096 * f) ≠ some 0
    rw [hmeta]
    by_cases hm : (σ.abs true).Maps p f
    · obtain ⟨c, hc, -⟩ := h.exists_meta hm
      rw [h₁.meta_done f c ((h.holds_iff hp f).mpr hm) hc]
      exact drop_ne_zero c
    · rw [h₁.meta_other f fun hh => hm ((h.holds_iff hp f).mp hh)]
      exact h.counted f
  · by_cases hq : q = p
    · subst hq
      rw [hstep.priv_self] at hn
      cases hn
    · rw [hstep.priv_other q y hq] at hn
      exact Or.inl hn

end Release
end Efiks.Mm

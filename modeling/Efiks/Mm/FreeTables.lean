import Efiks.Mm.ForkTables
import Efiks.Mm.MemoryManager

/-!
# Giving frames back

`MemoryManager::free` drops the pages of the regions, then the kernel stack, then
the tables. Each part only clears bits of the frame bitmap (the first one counts
references down as well), so each is specified by the set of frames it gives back.

## Main definitions

* `FreedAll s P t` — from `s` to `t`, exactly the frames of `P` were given back.
* `Dropped s t r done` — the pages of the regions `done` were dropped.

## Main results

* `wp_traverseFree`, `wp_freeKernelStack`, `wp_freeRegions`.
-/
namespace Efiks.Mm
open Lib Lib.RustM PageTableEntry

/-- The frames of `P` were given back and nothing else happened. -/
structure FreedAll (s : MemState) (P : ℕ → Prop) (t : MemState) : Prop where
  used : ∀ n, t.used n ↔ s.used n ∧ ¬ P n
  mem_eq : t.mem = s.mem
  meta_eq : t.pageMeta = s.pageMeta
  addr_eq : t.frames.startAddr = s.frames.startAddr

section FreedAll
variable {s t u : MemState} {P R : ℕ → Prop} {n : ℕ}

theorem FreedAll.none (s : MemState) : FreedAll s (fun _ => False) s :=
  ⟨fun _ => by simp, rfl, rfl, rfl⟩

theorem Freed.all (h : Freed s n t) : FreedAll s (fun m => m = n) t :=
  ⟨h.used, h.mem_eq, h.meta_eq, h.addr_eq⟩

theorem FreedAll.trans (h : FreedAll s P t) (h' : FreedAll t R u) :
    FreedAll s (fun m => P m ∨ R m) u where
  used m := by rw [h'.used, h.used]; tauto
  mem_eq := h'.mem_eq.trans h.mem_eq
  meta_eq := h'.meta_eq.trans h.meta_eq
  addr_eq := h'.addr_eq.trans h.addr_eq

theorem FreedAll.congr (h : FreedAll s P t) (hPR : ∀ m, P m ↔ R m) : FreedAll s R t :=
  ⟨fun m => by rw [h.used, hPR], h.mem_eq, h.meta_eq, h.addr_eq⟩

end FreedAll

section Traverse
variable {E : Error → MemState → Prop} {N : Panic → Prop}

/-- One level of `traverse_free`, given what it does to the child tables. -/
theorem wp_traverseFree_of_calls {d fuel r : ℕ} {s : MemState} (hp : s.Placed)
    (htree : IsTree child s.mem r d) (hu : ∀ p n, tableAt s r p = some n → s.used n)
    (hcalls : ∀ i x t, child (s.mem r i) = some x → t.mem = s.mem → t.Placed →
      (∀ p n, tableAt s x p = some n → t.used n) →
      wp (PageTable.traverseFree fuel (4096 * x))
        (fun _ u => FreedAll t (fun n => ∃ p, tableAt s x p = some n) u) E N t) :
    wp (PageTable.traverseFree (fuel + 1) (4096 * r))
      (fun _ t => FreedAll s (fun n => ∃ p, tableAt s r p = some n) t) E N s := by
  rw [PageTable.traverseFree, wp_bind, wp_gets, wp_bind, mul_pageSize_div]
  -- after `k` turns the tables under the first `k` entries are gone
  have hloop : wp (foldM (fun _ i =>
      if (!(s.mem r i).isValid || (s.mem r i).isLeaf) = true then pure ()
      else PageTable.traverseFree fuel (s.mem r i).physicalAddress) (List.finRange 512) ())
      (fun _ t => FreedAll s
        (fun n => ∃ i : Fin 512, i.val < 512 ∧ ∃ p, tableAt s r (i :: p) = some n) t) E N s := by
    refine wp_foldM_finRange (fun k _ t => FreedAll s
      (fun n => ∃ i : Fin 512, i.val < k ∧ ∃ p, tableAt s r (i :: p) = some n) t)
      (fun i _ t ht => ?_) () s ((FreedAll.none s).congr fun n => by simp)
    have hsplit : ∀ n, (∃ j : Fin 512, j.val < i.val + 1 ∧ ∃ p, tableAt s r (j :: p) = some n) ↔
        (∃ j : Fin 512, j.val < i.val ∧ ∃ p, tableAt s r (j :: p) = some n) ∨
          ∃ p, tableAt s r (i :: p) = some n := by
      intro n
      constructor
      · rintro ⟨j, hj, hjn⟩
        rcases Nat.lt_succ_iff_lt_or_eq.mp hj with h | h
        · exact Or.inl ⟨j, h, hjn⟩
        · exact Or.inr (Fin.ext h ▸ hjn)
      · rintro (⟨j, hj, hjn⟩ | hin)
        · exact ⟨j, by omega, hjn⟩
        · exact ⟨i, by omega, hin⟩
    cases hc : child (s.mem r i) with
    | none =>
        have hskip : (!(s.mem r i).isValid || (s.mem r i).isLeaf) = true := by
          unfold child at hc
          split at hc
          · cases hc
          · rename_i hv
            simpa [imp_iff_not_or] using hv
        rw [if_pos hskip, wp_pure]
        refine ht.congr fun n => ?_
        rw [hsplit n, or_iff_left]
        rintro ⟨p, hn⟩
        rw [tableAt_cons, hc] at hn
        cases hn
    | some x =>
        obtain ⟨hv, hl, hx⟩ := child_eq_some hc
        rw [hv, hl, if_neg (by simp), physicalAddress_eq, hx]
        refine wp_consequence (hcalls i x t hc ht.mem_eq (hp.congr ht.addr_eq) ?_) ?_
        · intro p n hn
          have hpath : tableAt s r (i :: p) = some n := (tableAt_child hc p).trans hn
          refine (ht.used n).mpr ⟨hu _ n hpath, ?_⟩
          rintro ⟨j, hj, q, hq⟩
          have := List.cons.inj (htree.inj _ _ n hpath hq)
          rw [this.1] at hj
          exact absurd hj (lt_irrefl _)
        · intro _ u hu'
          refine (ht.trans hu').congr fun n => ?_
          rw [hsplit n]
          simp only [tableAt_child hc]
  refine wp_consequence hloop fun _ t ht => ?_
  have hroot : t.used r := by
    refine (ht.used r).mpr ⟨hu [] r rfl, ?_⟩
    rintro ⟨i, -, p, hn⟩
    have := htree.inj [] (i :: p) r rfl hn
    cases this
  refine wp_freeFrame (hp.congr ht.addr_eq) hroot fun u hu' => ?_
  refine (ht.trans hu'.all).congr fun n => ?_
  constructor
  · rintro (⟨i, -, p, hn⟩ | rfl)
    · exact ⟨i :: p, hn⟩
    · exact ⟨[], rfl⟩
  · rintro ⟨_ | ⟨i, p⟩, hn⟩
    · exact Or.inr (Option.some.inj hn).symm
    · exact Or.inl ⟨i, i.isLt, p, hn⟩

/-- **`traverse_free` gives back the tables of a tree**, the root included. -/
theorem wp_traverseFree (d fuel : ℕ) (s : MemState) (r : ℕ) (hfuel : d < fuel) (hp : s.Placed)
    (htree : IsTree child s.mem r d) (hu : ∀ p n, tableAt s r p = some n → s.used n) :
    wp (PageTable.traverseFree fuel (4096 * r))
      (fun _ t => FreedAll s (fun n => ∃ p, tableAt s r p = some n) t) E N s := by
  induction d generalizing fuel s r with
  | zero =>
      obtain ⟨fuel, rfl⟩ : ∃ f, fuel = f + 1 := ⟨fuel - 1, by omega⟩
      refine wp_traverseFree_of_calls hp htree hu fun i x t hc => ?_
      rw [htree.child_eq_none i] at hc
      cases hc
  | succ d ih =>
      obtain ⟨fuel, rfl⟩ : ∃ f, fuel = f + 1 := ⟨fuel - 1, by omega⟩
      refine wp_traverseFree_of_calls hp htree hu fun i x t hc hmem hpt hut => ?_
      have htab : ∀ p, tableAt t x p = tableAt s x p := fun p => by rw [tableAt, tableAt, hmem]
      have hsub : IsTree child t.mem x d := hmem ▸ htree.sub hc
      refine wp_consequence (ih fuel t x (by omega) hpt hsub fun p n hn => ?_) fun _ u h => ?_
      · exact hut p n ((htab p).symm.trans hn)
      · exact h.congr fun n => by simp only [htab]

end Traverse

theorem offsetBy_natCast {a k : ℕ} (h : a + k < 2 ^ 64) : offsetBy a (k : ℤ) = some (a + k) := by
  have hint : (a : ℤ) + (k : ℤ) = ((a + k : ℕ) : ℤ) := (Nat.cast_add a k).symm
  rw [offsetBy, hint, if_pos ⟨by positivity, by exact_mod_cast h⟩, Int.toNat_natCast]

section KernelStack
variable {E : Error → MemState → Prop} {N : Panic → Prop} {Q : Unit → MemState → Prop}

/-- The loop of `free_kernel_stack` over `k` frames from `b` on. -/
theorem wp_freeStackPages (k fuel b : ℕ) (s : MemState) (hfuel : k < fuel) (hp : s.Placed)
    (hu : ∀ n, b ≤ n → n < b + k → s.used n) :
    wp (MemoryManager.freeStackPages fuel (physToVirt (4096 * b)) (physToVirt (4096 * (b + k))))
      (fun _ t => FreedAll s (fun n => b ≤ n ∧ n < b + k) t) E N s := by
  induction k generalizing fuel b s with
  | zero =>
      obtain ⟨fuel, rfl⟩ : ∃ f, fuel = f + 1 := ⟨fuel - 1, by omega⟩
      rw [MemoryManager.freeStackPages, Nat.add_zero, if_neg (lt_irrefl _), wp_pure]
      exact (FreedAll.none s).congr fun n => by simp
  | succ k ih =>
      obtain ⟨fuel, rfl⟩ : ∃ f, fuel = f + 1 := ⟨fuel - 1, by omega⟩
      have hb := hu b le_rfl (by omega)
      have hrange := hp.range hb
      have hlt : physToVirt (4096 * b) < physToVirt (4096 * (b + (k + 1))) := by
        unfold physToVirt
        omega
      have hsub : physToVirt (4096 * b) - kernelDirectMappingBase = 4096 * b := by
        unfold physToVirt
        omega
      have hnext : offsetBy (physToVirt (4096 * b)) (pageSize : ℤ) =
          some (physToVirt (4096 * (b + 1))) := by
        have hva : physToVirt (4096 * b) + pageSize = physToVirt (4096 * (b + 1)) := by
          unfold physToVirt pageSize
          omega
        rw [offsetBy_natCast, hva]
        unfold physToVirt pageSize kernelDirectMappingBase
        omega
      have hle : kernelDirectMappingBase ≤ physToVirt (4096 * b) := Nat.le_add_right _ _
      rw [MemoryManager.freeStackPages, if_pos hlt, wp_bind, wp_subUsize, hsub]
      refine ⟨fun _ => ?_, fun h => absurd hle (by omega)⟩
      rw [wp_bind]
      refine wp_freeFrame hp hb fun t ht => ?_
      rw [hnext, expect, wp_bind, wp_pure, show b + (k + 1) = b + 1 + k by omega]
      refine wp_consequence (ih fuel (b + 1) t (by omega) (hp.congr ht.addr_eq) ?_) fun _ u h => ?_
      · intro n h₁ h₂
        exact (ht.used n).mpr ⟨hu n (by omega) (by omega), by omega⟩
      · exact (ht.all.trans h).congr fun n => by omega

/-- The frames of a stack with guard frame `g` and lowest stack frame `b`. -/
def StackFrames (g b n : ℕ) : Prop := n = g ∨ b ≤ n ∧ n < b + kernelStackPages

/-- The region `create_kernel_stack` records for guard frame `g` and stack frames
from `b` on. -/
def stackRegion (g b : ℕ) : KernelStackRegion :=
  ⟨4096 * g, physToVirt (4096 * b), physToVirt (4096 * (b + kernelStackPages))⟩

/-- **Freeing a kernel stack** gives back its guard frame and its sixteen frames. -/
theorem wp_freeKernelStack {mm : MemoryManager} {g b : ℕ} {s : MemState} (hp : s.Placed)
    (hmm : mm.kernelStack = stackRegion g b) (hgb : g < b) (hu : ∀ n, StackFrames g b n → s.used n)
    (h : ∀ t, FreedAll s (StackFrames g b) t → Q () t) :
    wp mm.freeKernelStack Q E N s := by
  have hg := hu g (Or.inl rfl)
  have hg0 : 4096 * g ≠ 0 := by
    have := hp.range hg
    omega
  have hsize : (physToVirt (4096 * (b + kernelStackPages)) - physToVirt (4096 * b)) / pageSize + 2 =
      kernelStackPages + 2 := by
    unfold physToVirt kernelStackPages pageSize
    omega
  simp only [MemoryManager.freeKernelStack, hmm, stackRegion, hsize, if_neg hg0, wp_bind]
  refine wp_freeFrame hp hg fun t ht => ?_
  refine wp_consequence (wp_freeStackPages kernelStackPages _ b t (by omega)
    (hp.congr ht.addr_eq) fun n h₁ h₂ => ?_) fun _ u hu' => ?_
  · exact (ht.used n).mpr ⟨hu n (Or.inr ⟨h₁, h₂⟩), by omega⟩
  · exact h u (ht.all.trans hu')

end KernelStack

section Regions
variable {s t : MemState} {r f : ℕ} {x y : VmRegion} {regions : List VmRegion}

/-- Pages of aligned addresses of the lower half determine the address. -/
theorem vpn_inj {a b : ℕ} (ha : a < 2 ^ 38) (hb : b < 2 ^ 38) (ha0 : a % 4096 = 0)
    (hb0 : b % 4096 = 0) (h : vpn a = vpn b) : a = b := by
  simp only [vpn, vpn2, vpn1, vpn0, Prod.mk.injEq, Fin.mk.injEq, Nat.shiftRight_eq_div_pow] at h
  omega

theorem isCanonical_of_lower {a : ℕ} (ha : a < 2 ^ 38) : isCanonical a = true := by
  have h₁ : a >>> 38 = 0 := by
    rw [Nat.shiftRight_eq_div_pow]
    omega
  have h₂ : a >>> 39 = 0 := by
    rw [Nat.shiftRight_eq_div_pow]
    omega
  simp [isCanonical, h₁, h₂]

/-- The page of region `x` is mapped to frame `f`. -/
def Holds (s : MemState) (r : ℕ) (x : VmRegion) (f : ℕ) : Prop :=
  pteAt s r (vpn x.start) ≠ 0 ∧ (pteAt s r (vpn x.start)).ppn = f

/-- The pages of the regions `done` were dropped: their frames are counted down,
and given back when the count was one. -/
structure Dropped (s t : MemState) (r : ℕ) (done : List VmRegion) : Prop where
  mem_eq : t.mem = s.mem
  addr_eq : t.frames.startAddr = s.frames.startAddr
  meta_done : ∀ f c, (∃ x ∈ done, Holds s r x f) → s.pageMeta (4096 * f) = some c →
    t.pageMeta (4096 * f) = Page.drop c
  meta_other : ∀ f, (¬ ∃ x ∈ done, Holds s r x f) → t.pageMeta (4096 * f) = s.pageMeta (4096 * f)
  used : ∀ f, t.used f ↔
    s.used f ∧ ¬ ((∃ x ∈ done, Holds s r x f) ∧ s.pageMeta (4096 * f) = some 1)

theorem Dropped.nil (s : MemState) (r : ℕ) : Dropped s s r [] :=
  ⟨rfl, rfl, by simp, by simp, by simp⟩

/-- A region without a mapped page changes nothing. -/
theorem Dropped.skip {done : List VmRegion} (h : Dropped s t r done)
    (hx : pteAt s r (vpn x.start) = 0) : Dropped s t r (done ++ [x]) := by
  have hiff : ∀ f, (∃ y ∈ done ++ [x], Holds s r y f) ↔ ∃ y ∈ done, Holds s r y f := by
    intro f
    simp only [List.mem_append, List.mem_singleton, or_and_right, exists_or, exists_eq_left]
    exact or_iff_left fun hf => hf.1 hx
  refine ⟨h.mem_eq, h.addr_eq, fun f c hf => ?_, fun f hf => ?_, fun f => ?_⟩
  · exact h.meta_done f c ((hiff f).mp hf)
  · exact h.meta_other f (by rwa [hiff] at hf)
  · rw [hiff]
    exact h.used f

/-- One more page is dropped. -/
theorem Dropped.drop {done : List VmRegion} {c : UInt16} {u : MemState}
    (h : Dropped s t r done) (hx : Holds s r x f) (hnew : ¬ ∃ y ∈ done, Holds s r y f)
    (hc : s.pageMeta (4096 * f) = some c) (hmem : u.mem = t.mem)
    (haddr : u.frames.startAddr = t.frames.startAddr)
    (hmeta : u.pageMeta = Function.update t.pageMeta (4096 * f) (Page.drop c))
    (hused : ∀ n, u.used n ↔ t.used n ∧ ¬ (n = f ∧ c = 1)) : Dropped s u r (done ++ [x]) := by
  have hiff : ∀ n, (∃ y ∈ done ++ [x], Holds s r y n) ↔ (∃ y ∈ done, Holds s r y n) ∨ n = f := by
    intro n
    simp only [List.mem_append, List.mem_singleton, or_and_right, exists_or, exists_eq_left]
    refine or_congr_right ⟨fun hn => hn.2.symm.trans hx.2, fun hn => hn ▸ hx⟩
  refine ⟨hmem.trans h.mem_eq, haddr.trans h.addr_eq, fun n d hn hd => ?_, fun n hn => ?_,
    fun n => ?_⟩
  · rw [hmeta]
    rcases (hiff n).mp hn with hold | rfl
    · have hnf : n ≠ f := fun hnf => hnew (hnf ▸ hold)
      rw [Function.update_of_ne (by omega)]
      exact h.meta_done n d hold hd
    · rw [Function.update_self, Option.some.inj (hc.symm.trans hd)]
  · rw [hiff, not_or] at hn
    rw [hmeta, Function.update_of_ne (by omega)]
    exact h.meta_other n hn.1
  · rw [hused, h.used, hiff]
    constructor
    · rintro ⟨⟨hu, hno⟩, hnf⟩
      refine ⟨hu, ?_⟩
      rintro ⟨hold | rfl, h1⟩
      · exact hno ⟨hold, h1⟩
      · exact hnf ⟨rfl, Option.some.inj (hc.symm.trans h1)⟩
    · rintro ⟨hu, hno⟩
      refine ⟨⟨hu, fun hold => hno ⟨Or.inl hold.1, hold.2⟩⟩, ?_⟩
      rintro ⟨rfl, rfl⟩
      exact hno ⟨Or.inr rfl, hc⟩

variable {mm : MemoryManager} {E : Error → MemState → Prop} {N : Panic → Prop}

/-- One turn of the loop. -/
theorem wp_freeRegion {done : List VmRegion} (hp : s.Placed) (hs : Shape s r)
    (hroot : mm.rootPt = 4096 * r) (hlow : x.start < 2 ^ 38) (hal : x.start % 4096 = 0)
    (h : Dropped s t r done) (hnew : ∀ f, Holds s r x f → ¬ ∃ y ∈ done, Holds s r y f)
    (hcount : pteAt s r (vpn x.start) ≠ 0 → s.used (pteAt s r (vpn x.start)).ppn ∧
      ∃ c, s.pageMeta (4096 * (pteAt s r (vpn x.start)).ppn) = some c ∧ c ≠ 0) :
    wp (mm.freeRegion x) (fun _ u => Dropped s u r (done ++ [x])) E N t := by
  have huser : ¬ x.start > kernelDirectMappingBase := by
    unfold kernelDirectMappingBase
    omega
  rw [MemoryManager.freeRegion, if_neg huser, virtualAddress, isCanonical_of_lower hlow, wp_bind,
    wp_assert]
  refine ⟨fun _ => ?_, fun hf => by cases hf⟩
  rw [wp_bind, wp_gets, hroot, h.mem_eq, translate_eq hs hlow, hal]
  by_cases hx : pteAt s r (vpn x.start) = 0
  · rw [if_pos hx, wp_pure]
    exact h.skip hx
  · obtain ⟨hu, c, hc, hc0⟩ := hcount hx
    have hold := hnew _ ⟨hx, rfl⟩
    have hct : t.pageMeta (4096 * (pteAt s r (vpn x.start)).ppn) = some c :=
      (h.meta_other _ hold).trans hc
    have hut : t.used (pteAt s r (vpn x.start)).ppn :=
      (h.used _).mpr ⟨hu, fun hd => hold hd.1⟩
    rw [if_neg hx, Nat.add_zero]
    simp only [wp_bind, wp_expectOk, wp_pageRemove hct hc0]
    by_cases hc1 : c - 1 = 0
    · have hone : c = 1 := by
        rw [UInt16.sub_eq_iff_eq_add] at hc1
        simpa using hc1
      rw [if_pos hc1]
      refine wp_freeFrame ((hp.congr h.addr_eq).congr rfl) hut fun u hu' => ?_
      refine h.drop ⟨hx, rfl⟩ hold hc hu'.mem_eq hu'.addr_eq hu'.meta_eq fun n => ?_
      rw [hu'.used]
      simp [hone]
    · have hne : c ≠ 1 := by
        rintro rfl
        exact hc1 (by decide)
      rw [if_neg hc1, wp_pure]
      exact h.drop ⟨hx, rfl⟩ hold hc rfl rfl rfl fun n => by simp [hne]

/-- **The loop of `free` over the regions.** -/
theorem wp_freeRegions (hp : s.Placed) (hs : Shape s r) (hroot : mm.rootPt = 4096 * r)
    (hlow : ∀ x ∈ regions, x.start < 2 ^ 38 ∧ x.start % 4096 = 0)
    (hsort : regions.Pairwise fun x y => x.start < y.start)
    (hinj : ∀ v w, pteAt s r v ≠ 0 → pteAt s r w ≠ 0 →
      (pteAt s r v).ppn = (pteAt s r w).ppn → v = w)
    (hcount : ∀ v, pteAt s r v ≠ 0 → s.used (pteAt s r v).ppn ∧
      ∃ c, s.pageMeta (4096 * (pteAt s r v).ppn) = some c ∧ c ≠ 0) :
    wp (foldM (fun _ x => mm.freeRegion x) regions ()) (fun _ t => Dropped s t r regions) E N s := by
  refine wp_consequence (wp_foldM
    (fun xs _ t => ∃ done, done ++ xs = regions ∧ Dropped s t r done) ?_ regions () s
    ⟨[], rfl, Dropped.nil s r⟩) ?_
  · rintro x xs _ t ⟨done, hsplit, hd⟩
    have hx : x ∈ regions := hsplit ▸ by simp
    refine wp_consequence (wp_freeRegion hp hs hroot (hlow x hx).1 (hlow x hx).2 hd ?_ (hcount _))
      fun _ u hu => ⟨done ++ [x], by rw [← hsplit]; simp, hu⟩
    -- an earlier region has another page, so another frame
    rintro f hf ⟨y, hy, hyf⟩
    have hlt : y.start < x.start := by
      rw [← hsplit, List.pairwise_append] at hsort
      exact hsort.2.2 y hy x List.mem_cons_self
    have hy' : y ∈ regions := hsplit ▸ List.mem_append_left _ hy
    have hpage := hinj _ _ hyf.1 hf.1 (hyf.2.trans hf.2.symm)
    have := vpn_inj (hlow y hy').1 (hlow x hx).1 (hlow y hy').2 (hlow x hx).2 hpage
    omega
  · rintro _ t ⟨done, hdone, hd⟩
    rw [List.append_nil] at hdone
    exact hdone ▸ hd

end Regions
end Efiks.Mm

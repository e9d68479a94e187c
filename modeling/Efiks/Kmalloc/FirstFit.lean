import Efiks.Kmalloc.HeapSafety

/-!
# First fit

`alloc` looks at the size a block would have after rounding; a client cares about
room for aligned data behind the header and the back offset word. On a heap whose
range is 8-aligned the two agree, because every block size is then a multiple of
the unit that `alloc` rounds to. So the search is complete.

It is also stable. The block that an allocation leaves behind is too small to be
cut again for the same layout, and the blocks in front of it still do not fit, so
freeing and allocating again brings back the pointer and the block list.

## Main definitions

* `Block.CanHold` — a free block has room for a layout.
* `LinkedListAllocator.retake` — free a pointer and allocate again, `n` times.
-/
namespace Efiks.Kmalloc
open Lib Lib.RustM Lib.Mem

/-- A free block with room for aligned data behind a header and a back offset word. -/
def Block.CanHold (b : Block) (layout : Layout) : Prop :=
  b.free = true ∧ ∃ p, p % layout.align = 0 ∧ b.start + headerSize + wordSize ≤ p ∧
    p + layout.size ≤ b.fin

/-- `n` times: free the pointer and allocate again. -/
def LinkedListAllocator.retake (a : LinkedListAllocator) (layout : Layout) : ℕ → ℕ → HeapM ℕ
  | 0, p => pure p
  | n + 1, p => do
      a.dealloc p layout
      let p' ← a.alloc layout
      a.retake layout n p'

/-! ## Blocks that fit -/

/-- On an aligned range every size is a multiple of 8. -/
theorem Seg.sz_aligned {m : Mem} {a z : ℕ} {next : Option ℕ} {bs : List Block}
    (h : Seg m a z next bs) (hstart : ∀ b ∈ bs, b.start % 8 = 0) (hz : z % 8 = 0) :
    ∀ b ∈ bs, b.sz % 8 = 0 := by
  induction h with
  | one _ =>
      intro b hb
      have := hstart b hb
      rw [List.mem_singleton] at hb
      subst hb
      simp only at *
      omega
  | @cons a z sz free next bs _ hs ih =>
      intro b hb
      rcases List.mem_cons.mp hb with rfl | hb
      · -- the next block starts where this one ends
        have hnext : (a + sz) % 8 = 0 := by
          cases hs <;> exact hstart _ (List.mem_cons_of_mem _ List.mem_cons_self)
        have := hstart _ List.mem_cons_self
        simp only at *
        omega
      · exact ih (fun c hc => hstart c (List.mem_cons_of_mem _ hc)) hz b hb

/-- `dataStart` is the first aligned address with room in front. -/
theorem dataStart_le {layout : Layout} {b : Block} (hround : Rounds layout b) {p : ℕ}
    (hp : p % layout.align = 0) (hle : b.start + headerSize + wordSize ≤ p) :
    dataStart b.start layout ≤ p := by
  obtain ⟨k, hk⟩ := layout.align_pow
  simp only [Rounds, dataStart] at *
  rw [hk] at hround hp ⊢
  have hk64 : k ≤ 64 := by
    by_contra hlt
    have : 2 ^ 64 ≤ 2 ^ k := Nat.pow_le_pow_right (by norm_num) (by omega)
    omega
  exact maskDown_two_pow_le (by omega) hk64 hp hle

/-- The block that `alloc` looks for is one that can hold the layout. -/
theorem fits_iff_canHold {layout : Layout} {b : Block} (hround : Rounds layout b)
    (hsz : b.sz % 8 = 0) : Fits layout b ↔ b.CanHold layout := by
  constructor
  · intro hfit
    have hend := hfit.allocSize_ge
    have henough := hfit.enough
    exact ⟨hfit.free, dataStart b.start layout, hfit.dataStart_aligned, hfit.dataStart_ge,
      by simp only [Block.fin]; omega⟩
  · rintro ⟨hfree, p, hp, hle, hfin⟩
    have hdata := dataStart_le hround hp hle
    have hge := (layout.maskDown_spec hround).1
    have hlt := used_lt b.start layout
    refine ⟨hfree, hround, hlt, ?_⟩
    refine maskDown_two_pow_le (k := 3) ?_ (by norm_num) hsz ?_
    · simp only [headerAlign] at hlt
      omega
    · simp only [Block.fin, headerSize, wordSize, dataStart] at *
      omega

/-- Two ways to cut a list at its first element with a property are the same. -/
theorem cut_unique {P : Block → Prop} {pre pre' post post' : List Block} {b b' : Block}
    (heq : pre ++ b :: post = pre' ++ b' :: post') (hpre : ∀ c ∈ pre, ¬ P c) (hb : P b)
    (hpre' : ∀ c ∈ pre', ¬ P c) (hb' : P b') : pre = pre' ∧ b = b' ∧ post = post' := by
  induction pre generalizing pre' with
  | nil =>
      cases pre' with
      | nil => simpa using heq
      | cons d pre' =>
          obtain ⟨rfl, -⟩ := List.cons.inj heq
          exact absurd hb (hpre' b List.mem_cons_self)
  | cons c pre ih =>
      cases pre' with
      | nil =>
          obtain ⟨rfl, -⟩ := List.cons.inj heq
          exact absurd hb' (hpre c List.mem_cons_self)
      | cons d pre' =>
          obtain ⟨rfl, htail⟩ := List.cons.inj heq
          obtain ⟨rfl, hbb, hpost⟩ := ih htail (fun x hx => hpre x (List.mem_cons_of_mem _ hx))
            fun x hx => hpre' x (List.mem_cons_of_mem _ hx)
          exact ⟨rfl, hbb, hpost⟩

namespace HeapInv
variable {a : LinkedListAllocator} {s : HeapState} {bs pre post : List Block} {b : Block}
  {own : List ((ℕ × Layout) × Block)} {layout : Layout}

/-- `alloc` returns once there is a block that fits behind blocks that only do not. -/
theorem alloc_of_fits (h : HeapInv a s (pre ++ b :: post) own) (ha : Ready a)
    (hpre : ∀ c ∈ pre, Rounds layout c ∧ ¬ Fits layout c) (hfit : Fits layout b) :
    a.alloc layout s.mem = .ok (dataStart b.start layout) (taken s.mem b layout) := by
  have hspec := h.wp_alloc ha layout
  cases hrun : a.alloc layout s.mem with
  | ok p m' =>
      obtain ⟨pre', b', post', heq, hfit', hpre', rfl, rfl⟩ := wp_of_ok hspec hrun
      obtain ⟨-, rfl, -⟩ := cut_unique heq (fun c hc => (hpre c hc).2) hfit
        (fun c hc => (hpre' c hc).2) hfit'
      rfl
  | err e m' => exact (wp_of_err hspec hrun).elim
  | panic e =>
      exact absurd hfit ((wp_of_panic hspec hrun).1 pre b post rfl fun c hc => (hpre c hc).1)

/-- Without a block that fits, `alloc` says so. -/
theorem alloc_of_not_fits (h : HeapInv a s bs own) (ha : Ready a)
    (hround : ∀ b ∈ bs, Rounds layout b) (hbs : ∀ b ∈ bs, ¬ Fits layout b) :
    a.alloc layout s.mem = .panic (.explicit "kernel ran out of memory") := by
  have hspec := h.wp_alloc ha layout
  cases hrun : a.alloc layout s.mem with
  | ok p m' =>
      obtain ⟨pre, b, post, rfl, hfit, -⟩ := wp_of_ok hspec hrun
      exact absurd hfit (hbs b (by simp))
  | err e m' => exact (wp_of_err hspec hrun).elim
  | panic e => rw [(wp_of_panic hspec hrun).2.1 hround]

end HeapInv

/-! ## Stability -/

section Again
variable (b : Block) (layout : Layout)

/-- The block an allocation leaves behind, marked free. -/
def againBlock : Block := { takenBlock b layout with free := true }

/-- It fits the same layout. -/
theorem fits_againBlock (hfit : Fits layout b) : Fits layout (againBlock b layout) := by
  have henough := hfit.enough
  refine ⟨rfl, hfit.rounded, hfit.rounded', ?_⟩
  simp only [againBlock, takenBlock]
  split <;> omega

/-- It is taken whole. -/
theorem takenBlocks_againBlock : takenBlocks (againBlock b layout) layout = [takenBlock b layout] := by
  have hsmall : ¬ 48 ≤ (takenBlock b layout).sz - allocSize b.start layout := by
    simp only [takenBlock]
    split <;> omega
  exact if_neg hsmall

theorem takenBlock_againBlock : takenBlock (againBlock b layout) layout = takenBlock b layout := by
  obtain ⟨rest, h⟩ := takenBlocks_eq_cons (againBlock b layout) layout
  rw [takenBlocks_againBlock] at h
  exact (List.cons.inj h).1.symm

end Again

namespace HeapInv
variable {a : LinkedListAllocator} {m : Mem} {live : List (ℕ × Layout)} {pre post : List Block}
  {b : Block} {own : List ((ℕ × Layout) × Block)} {layout : Layout}

/-- One round: the pointer comes back, and so does the invariant with the same lists. -/
theorem dealloc_alloc
    (h : HeapInv a ⟨m, (dataStart b.start layout, layout) :: live⟩
      (pre ++ takenBlock b layout :: post)
      (((dataStart b.start layout, layout), takenBlock b layout) :: own)) (ha : Ready a)
    (hpre : ∀ c ∈ pre, Rounds layout c ∧ ¬ Fits layout c) (hfit : Fits layout b) :
    ∃ m₁ m₂, a.dealloc (dataStart b.start layout) layout m = .ok () m₁ ∧
      a.alloc layout m₁ = .ok (dataStart b.start layout) m₂ ∧
      HeapInv a ⟨m₂, (dataStart b.start layout, layout) :: live⟩
        (pre ++ takenBlock b layout :: post)
        (((dataStart b.start layout, layout), takenBlock b layout) :: own) := by
  have hlive : own.map Prod.fst = live := (List.cons.inj h.live).2
  have hmap : (pre ++ takenBlock b layout :: post).map (freed (takenBlock b layout))
      = pre ++ againBlock b layout :: post := h.map_freed
  have hgive := HeapInv.give [] own h
  rw [hmap, List.nil_append, hlive] at hgive
  have hfit' := fits_againBlock b layout hfit
  have hdealloc := h.dealloc_eq ha
    (x := ((dataStart b.start layout, layout), takenBlock b layout)) List.mem_cons_self
  have halloc := hgive.alloc_of_fits ha hpre hfit'
  have htake := hgive.take ha hfit'
  rw [takenBlocks_againBlock, takenBlock_againBlock] at htake
  exact ⟨_, _, hdealloc, halloc, htake⟩

/-- Any number of rounds. -/
theorem retake (ha : Ready a) (hpre : ∀ c ∈ pre, Rounds layout c ∧ ¬ Fits layout c)
    (hfit : Fits layout b) (n : ℕ)
    (h : HeapInv a ⟨m, (dataStart b.start layout, layout) :: live⟩
      (pre ++ takenBlock b layout :: post)
      (((dataStart b.start layout, layout), takenBlock b layout) :: own)) :
    ∃ m', a.retake layout n (dataStart b.start layout) m = .ok (dataStart b.start layout) m' ∧
      Seg m' a.startAddr a.endAddr none (pre ++ takenBlock b layout :: post) := by
  induction n generalizing m with
  | zero => exact ⟨m, rfl, h.seg⟩
  | succ n ih =>
      obtain ⟨m₁, m₂, hdealloc, halloc, hinv⟩ := h.dealloc_alloc ha hpre hfit
      obtain ⟨m', hrun, hseg⟩ := ih hinv
      refine ⟨m', ?_, hseg⟩
      rw [LinkedListAllocator.retake, bind_run_of_ok hdealloc, bind_run_of_ok halloc, hrun]

end HeapInv

namespace HeapInv
variable {a : LinkedListAllocator} {s : HeapState} {bs : List Block}
  {own : List ((ℕ × Layout) × Block)} {layout : Layout}

/-- The search is complete: it finds the lowest block that can hold the layout. -/
theorem alloc_of_canHold (h : HeapInv a s bs own) (ha : Ready a) (hend : a.endAddr % 8 = 0)
    (hround : ∀ b ∈ bs, Rounds layout b) (hbs : ∃ b ∈ bs, b.CanHold layout) :
    ∃ b ∈ bs, b.CanHold layout ∧ (∀ c ∈ bs, c.CanHold layout → b.start ≤ c.start) ∧
      ∃ p m', a.alloc layout s.mem = .ok p m' ∧ p % layout.align = 0 ∧
        b.start + headerSize + wordSize ≤ p ∧ p + layout.size ≤ b.fin := by
  have hiff : ∀ b ∈ bs, (Fits layout b ↔ b.CanHold layout) := fun b hb =>
    fits_iff_canHold (hround b hb) (h.seg.sz_aligned h.aligned hend b hb)
  have hspec := h.wp_alloc ha layout
  cases hrun : a.alloc layout s.mem with
  | ok p m' =>
      obtain ⟨pre, b, post, rfl, hfit, hpre, rfl, rfl⟩ := wp_of_ok hspec hrun
      have hbmem : b ∈ pre ++ b :: post := by simp
      have hend' := hfit.allocSize_ge
      have henough := hfit.enough
      refine ⟨b, hbmem, (hiff b hbmem).mp hfit, ?_, _, _, rfl, hfit.dataStart_aligned,
        hfit.dataStart_ge, by simp only [Block.fin]; omega⟩
      intro c hc hcan
      -- a block in front of `b` does not fit, and the list is in address order
      rcases List.mem_append.mp hc with hcpre | hcpost
      · exact absurd ((hiff c hc).mpr hcan) (hpre c hcpre).2
      · rcases List.mem_cons.mp hcpost with rfl | hcpost
        · exact le_refl _
        · have hpw := (List.pairwise_append.mp h.seg.pairwise).2.1
          have := (List.pairwise_cons.mp hpw).1 c hcpost
          simp only [Block.fin] at this
          omega
  | err e m' => exact (wp_of_err hspec hrun).elim
  | panic e =>
      obtain ⟨b, hb, hcan⟩ := hbs
      obtain ⟨pre, post, rfl⟩ := List.append_of_mem hb
      exact absurd ((hiff b hb).mpr hcan)
        ((wp_of_panic hspec hrun).1 pre b post rfl fun c hc => hround c (by simp [hc]))

/-- It panics exactly when there is no such block. -/
theorem alloc_eq_panic_iff (h : HeapInv a s bs own) (ha : Ready a) (hend : a.endAddr % 8 = 0)
    (hround : ∀ b ∈ bs, Rounds layout b) :
    a.alloc layout s.mem = .panic (.explicit "kernel ran out of memory") ↔
      ∀ b ∈ bs, ¬ b.CanHold layout := by
  constructor
  · intro hrun b hb hcan
    obtain ⟨-, -, -, -, p, m', hok, -⟩ := h.alloc_of_canHold ha hend hround ⟨b, hb, hcan⟩
    rw [hrun] at hok
    cases hok
  · intro hbs
    apply h.alloc_of_not_fits ha hround
    intro b hb hfit
    exact hbs b hb ((fits_iff_canHold (hround b hb)
      (h.seg.sz_aligned h.aligned hend b hb)).mp hfit)

/-- After an allocation, rounds of freeing and allocating change nothing. -/
theorem alloc_retake (h : HeapInv a s bs own) (ha : Ready a) {p : ℕ} {m' : Mem}
    (hok : a.alloc layout s.mem = .ok p m') :
    ∃ bs', Seg m' a.startAddr a.endAddr none bs' ∧
      ∀ n, ∃ m'', a.retake layout n p m' = .ok p m'' ∧
        Seg m'' a.startAddr a.endAddr none bs' := by
  obtain ⟨pre, b, post, rfl, hfit, hpre, rfl, rfl⟩ := wp_of_ok (h.wp_alloc ha layout) hok
  have htake := h.take ha hfit
  obtain ⟨rest, hrest⟩ := takenBlocks_eq_cons b layout
  rw [hrest, List.cons_append] at htake
  exact ⟨_, htake.seg, fun n => htake.retake ha hpre hfit n⟩

end HeapInv

/-- **First fit is complete and stable.** In every state of every run over an 8-aligned
range, with `bs` the block list in memory: `alloc` of a layout that can be rounded
returns aligned data inside the lowest block that can hold it, and panics exactly
when there is none. After any `alloc` that returns, freeing the pointer and
allocating again, any number of times, gives the same pointer and block list. -/
theorem alloc_first_fit {startAddr endAddr : ℕ} {m₀ m : Mem} {a : LinkedListAllocator}
    {s : HeapState} (hstart : startAddr % 8 = 0) (hend : endAddr % 8 = 0)
    (hlt : endAddr < 2 ^ 64)
    (hnew : LinkedListAllocator.new startAddr endAddr m₀ = .ok a m) (hs : Reachable a m s) :
    ∃ bs, Seg s.mem a.head a.endAddr none bs ∧ ∀ layout,
      ((∀ b ∈ bs, Rounds layout b) →
        ((∃ b ∈ bs, b.CanHold layout) →
          ∃ b ∈ bs, b.CanHold layout ∧ (∀ c ∈ bs, c.CanHold layout → b.start ≤ c.start) ∧
            ∃ p m', a.alloc layout s.mem = .ok p m' ∧ p % layout.align = 0 ∧
              b.start + headerSize + wordSize ≤ p ∧ p + layout.size ≤ b.fin) ∧
        (a.alloc layout s.mem = .panic (.explicit "kernel ran out of memory") ↔
          ∀ b ∈ bs, ¬ b.CanHold layout)) ∧
      ∀ p m', a.alloc layout s.mem = .ok p m' → ∃ bs', Seg m' a.head a.endAddr none bs' ∧
        ∀ n, ∃ m'', a.retake layout n p m' = .ok p m'' ∧
          Seg m'' a.head a.endAddr none bs' := by
  obtain ⟨ha, hinit⟩ := new_inv hstart hlt hnew
  have hrange : a.endAddr % 8 = 0 := by
    have hsum := hinit.seg.sum_sz
    have hfirst := hinit.seg.start_eq
    simp only [List.map_cons, List.map_nil, List.sum_singleton] at hsum hfirst
    omega
  obtain ⟨bs, own, hinv⟩ := hs.inv ha hinit
  rw [ha.head_eq]
  refine ⟨bs, hinv.seg, fun layout => ⟨fun hround => ⟨?_, ?_⟩, fun p m' hok => ?_⟩⟩
  · exact hinv.alloc_of_canHold ha hrange hround
  · exact hinv.alloc_eq_panic_iff ha hrange hround
  · exact hinv.alloc_retake ha hok

/-- 24 bytes aligned to 16. -/
def smallLayout : Layout := ⟨24, 16, ⟨4, rfl⟩, by norm_num⟩

/-- On a heap of one page a small allocation comes back. -/
theorem alloc_first_fit_page : ∃ a m p m', LinkedListAllocator.new 4096 8192 (fun _ => 0) = .ok a m ∧
    a.alloc smallLayout m = .ok p m' ∧ ∃ m'', a.retake smallLayout 5 p m' = .ok p m'' := by
  obtain ⟨a, m, hnew, p, m', halloc⟩ : ∃ a m, LinkedListAllocator.new 4096 8192 (fun _ => 0)
      = .ok a m ∧ ∃ p m', a.alloc smallLayout m = .ok p m' :=
    ⟨_, _, rfl, Outcome.exists_of_isOk (by decide +kernel)⟩
  obtain ⟨bs, -, hfit⟩ := alloc_first_fit (by norm_num) (by norm_num) (by norm_num) hnew .init
  obtain ⟨bs', -, hagain⟩ := (hfit smallLayout).2 p m' halloc
  obtain ⟨m'', hrun, -⟩ := hagain 5
  exact ⟨a, m, p, m', hnew, halloc, m'', hrun⟩

end Efiks.Kmalloc

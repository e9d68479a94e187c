import Efiks.Mm.FrameAllocator

/-!
# The frame allocator is a set of frames

`Refines` says what the allocator is for: the addresses that clients hold are the marked
frames, `alloc` takes the least frame that is not held, `free` gives one back. The addresses
have to fit a word for it, and that is enough.

## Main definitions

* `FrameAllocator.Run` — the allocator and the addresses that clients hold, after any calls.
* `FrameAllocator.Refines` — the allocator and the set agree, now and in the next call.
-/
namespace Efiks.Mm.FrameAllocator
open Lib Lib.RustM

/-- An allocator and the addresses its clients hold, which alone are freed. -/
inductive Run (N startAddr : ℕ) : FrameAllocator N → Finset ℕ → Prop
  | new : Run N startAddr (new startAddr) ∅
  | alloc {fa fa' : FrameAllocator N} {held : Finset ℕ} {pa : ℕ} (hr : Run N startAddr fa held)
      (ha : alloc fa = .ok pa fa') : Run N startAddr fa' (insert pa held)
  | oom {fa fa' : FrameAllocator N} {held : Finset ℕ} {e : Error} (hr : Run N startAddr fa held)
      (ha : alloc fa = .err e fa') : Run N startAddr fa' held
  | free {fa fa' : FrameAllocator N} {held : Finset ℕ} {pa : ℕ} (hr : Run N startAddr fa held)
      (hp : pa ∈ held) (hf : free pa fa = .ok () fa') : Run N startAddr fa' (held.erase pa)

/-- The bitmap is the set `held`, and the calls are the operations of a set. -/
structure Refines {N : ℕ} (startAddr : ℕ) (fa : FrameAllocator N) (held : Finset ℕ) : Prop where
  inside : ∀ a ∈ held, ∃ k < 64 * N, a = startAddr + 4096 * k
  marked : ∀ k, fa.isSet k = true ↔ startAddr + 4096 * k ∈ held
  alloc_least : ∀ k < 64 * N, startAddr + 4096 * k ∉ held →
    (∀ j < k, startAddr + 4096 * j ∈ held) →
    ∃ fa', alloc fa = .ok (startAddr + 4096 * k) fa' ∧ fa'.startAddr = fa.startAddr ∧
      ∀ j, fa'.isSet j = (fa.isSet j || j == k)
  alloc_full : alloc fa = .err .oom fa ↔ ∀ k < 64 * N, startAddr + 4096 * k ∈ held
  free_held : ∀ k, startAddr + 4096 * k ∈ held →
    ∃ fa', free (startAddr + 4096 * k) fa = .ok () fa' ∧ fa'.startAddr = fa.startAddr ∧
      ∀ j, fa'.isSet j = (fa.isSet j && j != k)

variable {N startAddr : ℕ} {fa fa' : FrameAllocator N} {held : Finset ℕ}

/-- What `alloc` returns, with the overflow of the address. -/
theorem alloc_run (fa : FrameAllocator N) :
    (alloc fa = .err .oom fa ∧ ∀ k < 64 * N, fa.isSet k = true) ∨
    ∃ k < 64 * N, fa.isSet k = false ∧ (∀ j < k, fa.isSet j = true) ∧
      ∃ fa', fa'.startAddr = fa.startAddr ∧ (∀ j, fa'.isSet j = (fa.isSet j || j == k)) ∧
        alloc fa = if fa.startAddr + 4096 * k < 2 ^ 64 then .ok (fa.startAddr + 4096 * k) fa'
          else .panic .overflow := by
  cases hf : fa.findClear with
  | none =>
    refine Or.inl ⟨?_, fun k hk => findClear_eq_none hf hk⟩
    simp [alloc, bind_run, hf]
  | some p =>
    obtain ⟨page, i⟩ := p
    obtain ⟨hclear, hbelow⟩ := findClear_eq_some hf
    refine Or.inr ⟨page.val * 64 + i.val, by omega, hclear, hbelow,
      fa.setPage page (fa.pages page ||| 1#64 <<< i.val), rfl, isSet_mark fa page i, ?_⟩
    have hpa : (page.val * 64 + i.val) * 4096 = 4096 * (page.val * 64 + i.val) := Nat.mul_comm ..
    simp only [alloc, bind_run, gets_run, id, hf, modify_run, addUsize, hpa]
    split <;> rfl

/-- `free` of the frame `k`. -/
theorem free_run (fa : FrameAllocator N) {k : ℕ} (hk : k < 64 * N) :
    ∃ fa', free (fa.startAddr + 4096 * k) fa = .ok () fa' ∧ fa'.startAddr = fa.startAddr ∧
      ∀ j, fa'.isSet j = (fa.isSet j && j != k) := by
  have hpage : k / 64 < N := by omega
  refine ⟨fa.setPage ⟨k / 64, hpage⟩ (fa.pages ⟨k / 64, hpage⟩ &&& ~~~(1#64 <<< (k % 64))), ?_,
    rfl, isSet_unmark fa hpage⟩
  simp [free, bind_run, subUsize, hpage]

theorem isSet_new (k : ℕ) : (new startAddr : FrameAllocator N).isSet k = false := by
  simp [isSet, new]

/-- What every run keeps: the start address, and the marks as the set of held addresses. -/
structure Tracks (startAddr : ℕ) (fa : FrameAllocator N) (held : Finset ℕ) : Prop where
  addr : fa.startAddr = startAddr
  inside : ∀ a ∈ held, ∃ k < 64 * N, a = startAddr + 4096 * k
  marked : ∀ k, fa.isSet k = true ↔ startAddr + 4096 * k ∈ held

theorem Tracks.alloc {pa : ℕ} (ht : Tracks startAddr fa held) (ha : alloc fa = .ok pa fa') :
    Tracks startAddr fa' (insert pa held) := by
  rcases alloc_run fa with ⟨hnone, -⟩ | ⟨k, hk, -, -, fa₁, haddr, hset, hrun⟩
  · rw [hnone] at ha
    cases ha
  · rw [ht.addr] at hrun
    rw [hrun] at ha
    split at ha
    · cases ha
      refine ⟨haddr.trans ht.addr, ?_, fun j => ?_⟩
      · intro a ha
        rcases Finset.mem_insert.mp ha with rfl | ha
        · exact ⟨k, hk, rfl⟩
        · exact ht.inside a ha
      · rw [hset, Bool.or_eq_true, ht.marked, beq_iff_eq, Finset.mem_insert]
        constructor
        · rintro (hj | rfl)
          · exact Or.inr hj
          · exact Or.inl rfl
        · rintro (hj | hj)
          · exact Or.inr (by omega)
          · exact Or.inl hj
    · cases ha

theorem Tracks.free {pa : ℕ} (ht : Tracks startAddr fa held) (hp : pa ∈ held)
    (hf : free pa fa = .ok () fa') : Tracks startAddr fa' (held.erase pa) := by
  obtain ⟨k, hk, rfl⟩ := ht.inside pa hp
  obtain ⟨fa₁, hrun, haddr, hset⟩ := free_run fa hk
  rw [ht.addr] at hrun
  rw [hrun] at hf
  cases hf
  refine ⟨haddr.trans ht.addr, fun a ha => ht.inside a (Finset.mem_of_mem_erase ha), fun j => ?_⟩
  rw [hset, Bool.and_eq_true, ht.marked, bne_iff_ne, Finset.mem_erase]
  constructor
  · intro ⟨hj, hne⟩
    exact ⟨by omega, hj⟩
  · intro ⟨hne, hj⟩
    refine ⟨hj, ?_⟩
    rintro rfl
    exact hne rfl

theorem Run.tracks (hr : Run N startAddr fa held) : Tracks startAddr fa held := by
  induction hr with
  | new => exact ⟨rfl, by simp, fun k => by simp [isSet_new]⟩
  | alloc _ ha ih => exact ih.alloc ha
  | oom _ ha ih =>
    rename_i fa _ _ _ _
    rcases alloc_run fa with ⟨hnone, -⟩ | ⟨k, -, -, -, fa₁, -, -, hrun⟩
    · rw [hnone] at ha
      cases ha
      exact ih
    · rw [hrun] at ha
      split at ha <;> cases ha
  | free _ hp hf ih => exact ih.free hp hf

/-- When the addresses fit, the calls are those of a set. -/
theorem Tracks.refines (ht : Tracks startAddr fa held)
    (hfit : ∀ k < 64 * N, startAddr + 4096 * k < 2 ^ 64) : Refines startAddr fa held where
  inside := ht.inside
  marked := ht.marked
  alloc_least k hk hfree hbelow := by
    rcases alloc_run fa with ⟨-, hfull⟩ | ⟨j, hj, hclear, hlow, fa', haddr, hset, hrun⟩
    · exact absurd ((ht.marked k).1 (hfull k hk)) hfree
    · -- both `j` and `k` are the least frame that is not marked
      obtain rfl : j = k := by
        rcases lt_trichotomy j k with hlt | heq | hlt
        · have := (ht.marked j).2 (hbelow j hlt)
          rw [hclear] at this
          cases this
        · exact heq
        · exact absurd ((ht.marked k).1 (hlow k hlt)) hfree
      rw [ht.addr, if_pos (hfit j hj)] at hrun
      exact ⟨fa', hrun, haddr, hset⟩
  alloc_full := by
    rcases alloc_run fa with ⟨hnone, hfull⟩ | ⟨j, hj, hclear, -, fa', -, -, hrun⟩
    · exact iff_of_true hnone fun k hk => (ht.marked k).1 (hfull k hk)
    · refine iff_of_false ?_ fun hall => ?_
      · rw [hrun]
        split <;> exact fun h => by cases h
      · have := (ht.marked j).2 (hall j hj)
        rw [hclear] at this
        cases this
  free_held k hk := by
    have hlt : k < 64 * N := lt_of_isSet ((ht.marked k).2 hk)
    obtain ⟨fa', hrun, haddr, hset⟩ := free_run fa hlt
    rw [ht.addr] at hrun
    exact ⟨fa', hrun, haddr, hset⟩

/-- The address that `alloc` returns fits a word. -/
theorem lt_of_alloc {pa : ℕ} (ha : alloc fa = .ok pa fa') : pa < 2 ^ 64 := by
  rcases alloc_run fa with ⟨hnone, -⟩ | ⟨k, -, -, -, fa₁, -, -, hrun⟩
  · rw [hnone] at ha
    cases ha
  · rw [hrun] at ha
    split at ha
    · cases ha
      assumption
    · cases ha

/-- **The frame allocator refines a set**, after any calls, exactly if the addresses of its
frames fit a word. -/
theorem refines_set_iff (N startAddr : ℕ) :
    (∀ (fa : FrameAllocator N) (held : Finset ℕ), Run N startAddr fa held →
      Refines startAddr fa held) ↔ ∀ k < 64 * N, startAddr + 4096 * k < 2 ^ 64 := by
  constructor
  · intro hall
    -- allocate the frames below `k` one after the other
    have hrun : ∀ k ≤ 64 * N, ∃ fa : FrameAllocator N,
        Run N startAddr fa ((Finset.range k).image fun j => startAddr + 4096 * j) := by
      intro k
      induction k with
      | zero => exact fun _ => ⟨_, .new⟩
      | succ k ih =>
        intro hk
        obtain ⟨fa, hfa⟩ := ih (by omega)
        obtain ⟨fa', ha, -⟩ := (hall fa _ hfa).alloc_least k (by omega) (by simp)
          (fun j hj => Finset.mem_image_of_mem _ (Finset.mem_range.mpr hj))
        refine ⟨fa', ?_⟩
        rw [Finset.range_add_one, Finset.image_insert]
        exact hfa.alloc ha
    intro k hk
    obtain ⟨fa, hfa⟩ := hrun k hk.le
    obtain ⟨fa', ha, -⟩ := (hall fa _ hfa).alloc_least k hk (by simp)
      (fun j hj => Finset.mem_image_of_mem _ (Finset.mem_range.mpr hj))
    exact lt_of_alloc ha
  · exact fun hfit fa held hr => hr.tracks.refines hfit

/-- One word of frames at the very end of the address space: the second allocation overflows. -/
theorem second_alloc_overflows : ∃ fa' : FrameAllocator 1,
    alloc (new (2 ^ 64 - 4096)) = .ok (2 ^ 64 - 4096) fa' ∧ alloc fa' = .panic .overflow := by
  rcases alloc_run (new (2 ^ 64 - 4096) : FrameAllocator 1) with
    ⟨-, hfull⟩ | ⟨k, hk, -, hlow, fa', haddr, hset, hrun⟩
  · have := hfull 0 (by decide)
    rw [isSet_new] at this
    cases this
  · obtain rfl : k = 0 := by
      by_contra hk
      have := hlow 0 (by omega)
      rw [isSet_new] at this
      cases this
    refine ⟨fa', by simpa [new] using hrun, ?_⟩
    rcases alloc_run fa' with ⟨-, hfull⟩ | ⟨j, -, hclear, hlow, fa'', -, -, hrun'⟩
    · have := hfull 1 (by decide)
      rw [hset, isSet_new] at this
      cases this
    · have hj : 0 < j := by
        by_contra hj
        obtain rfl : j = 0 := by omega
        simp [hset] at hclear
      rw [hrun', if_neg]
      rw [haddr]
      simp only [new]
      omega

end Efiks.Mm.FrameAllocator

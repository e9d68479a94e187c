import Efiks.Mm.FreeTables

/-!
# Kernel stacks

`create_kernel_stack` takes seventeen single frames from the first-fit allocator,
a guard and sixteen for the stack, and records the sixteen frames that follow the
second one. `freeFrames` lists what the allocator would hand out, so the frames
taken are its first seventeen.

## Main definitions

* `Consecutive` — the frames of the stack follow each other.

## Main results

* `wp_createKernelStack`.
-/
namespace Efiks.Mm
open Lib Lib.RustM

/-- The second to seventeenth free frames follow each other. -/
def Consecutive (s : MemState) : Prop :=
  ∀ k < kernelStackPages, s.freeFrames[k + 1]? = (s.freeFrames[1]?).map (· + k)

instance (s : MemState) : Decidable (Consecutive s) :=
  inferInstanceAs (Decidable (∀ k < kernelStackPages, _))

theorem wp_sys {α : Type} {m : KM α} {sp : Space} {Q : α → Space → Prop} {E : Error → Space → Prop}
    {N : Panic → Prop} :
    wp (sys m) Q E N sp ↔
      wp m (fun a s => Q a ⟨s, sp.mm⟩) (fun e s => E e ⟨s, sp.mm⟩) N sp.sys := wp_zoom ..

section Create
variable {s : MemState} {mm : MemoryManager} {Q : ℕ → Space → Prop} {E : Error → Space → Prop}
variable {N : Panic → Prop}

theorem Taken.nil (s : MemState) : Taken s [] s :=
  ⟨(List.nil_append _).symm, by simp, rfl, rfl, rfl⟩

/-- The loop that allocates the rest of the stack. -/
theorem wp_allocMany (k : ℕ) (hp : s.Placed) (hN : ∀ p, OutOfMemory p → N p) :
    wp (foldM (fun (_ : Unit) (_ : ℕ) => (do
        let _ ← sys allocFrameUnwrap
        pure () : MmM Unit)) (List.range k) ())
      (fun _ sp => ∃ ns t, ns.length = k ∧ Taken s ns t ∧ sp = Space.mk t mm) E N ⟨s, mm⟩ := by
  refine wp_foldM_range
    (fun k _ sp => ∃ ns t, ns.length = k ∧ Taken s ns t ∧ sp = Space.mk t mm) ?_ () ⟨s, mm⟩
    ⟨[], s, rfl, Taken.nil s, rfl⟩
  rintro i - - sp ⟨ns, t, hlen, ht, rfl⟩
  rw [wp_bind, wp_sys]
  refine wp_allocFrameUnwrap (ht.placed hp) hN fun n u hu => ?_
  rw [wp_pure]
  exact ⟨ns ++ [n], u, by simp [hlen], ht.trans hu.taken, rfl⟩

theorem offsetBy_stack_virt {b : ℕ} (hb : b < 2 ^ 20 + 4096) :
    offsetBy (physToVirt (4096 * b)) (kernelStackPages * pageSize : ℕ) =
      some (physToVirt (4096 * (b + kernelStackPages))) := by
  have hva : physToVirt (4096 * b) + kernelStackPages * pageSize =
      physToVirt (4096 * (b + kernelStackPages)) := by
    unfold physToVirt pageSize kernelStackPages
    omega
  rw [offsetBy_natCast, hva]
  unfold physToVirt pageSize kernelStackPages kernelDirectMappingBase
  omega

theorem offsetBy_stack {b : ℕ} (hb : b < 2 ^ 20 + 4096) :
    offsetBy (4096 * b) (kernelStackPages * pageSize : ℕ) =
      some (4096 * (b + kernelStackPages)) := by
  have hpa : 4096 * b + kernelStackPages * pageSize = 4096 * (b + kernelStackPages) := by
    rw [Nat.mul_add, pageSize, Nat.mul_comm kernelStackPages]
  rw [offsetBy_natCast, hpa]
  unfold pageSize kernelStackPages
  omega

/-- **`create_kernel_stack`** takes the seventeen lowest free frames, and records
the second one and what follows it in memory. -/
theorem wp_createKernelStack (hp : s.Placed) (hN : ∀ p, OutOfMemory p → N p)
    (h : ∀ g b ns t, Taken s (g :: b :: ns) t → ns.length = kernelStackPages - 1 →
      Q (4096 * (b + kernelStackPages)) ⟨t, { mm with kernelStack := stackRegion g b }⟩) :
    wp MemoryManager.createKernelStack Q E N ⟨s, mm⟩ := by
  rw [MemoryManager.createKernelStack, wp_bind, wp_sys]
  refine wp_allocFrameUnwrap hp hN fun g s₁ h₁ => ?_
  rw [wp_bind, wp_sys]
  refine wp_allocFrameUnwrap (h₁.placed hp) hN fun b s₂ h₂ => ?_
  rw [wp_bind]
  refine wp_consequence (wp_allocMany _ (h₂.placed (h₁.placed hp)) hN) ?_
  rintro - _ ⟨ns, t, hlen, ht, rfl⟩
  have htaken : Taken s (g :: b :: ns) t := by
    have := (h₁.taken.trans h₂.taken).trans ht
    rwa [List.singleton_append, List.cons_append, List.singleton_append] at this
  have hb : b < 2 ^ 20 + 4096 :=
    (hp.congr htaken.addr_eq |>.range ((htaken.used b).mpr (Or.inr (by simp)))).2
  have htop := offsetBy_stack_virt hb
  have hpa := offsetBy_stack hb
  rw [wp_bind, htop, wp_okOr_some, wp_bind, hpa, wp_expect_some, wp_bind, wp_modify, wp_pure]
  exact h g b ns t htaken hlen

end Create
end Efiks.Mm

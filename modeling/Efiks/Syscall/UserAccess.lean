import Efiks.Syscall.Confinement
import Efiks.Vfs.File

/-!
# Valid user memory

The caller's memory is valid for a set of loads and stores when every one of them gets through,
whatever accesses of the set came before: the page is present, or the fault it takes is served.
Through such memory a system call sees the private memory of its caller: a load returns the byte
that is there, a store changes that byte, and the faults on the way change nothing.

## Main definitions

* `Reaches` — an access that gets through, with the fault it may take.
* `Valid` — user memory that can be loaded and stored.
* `UserState` — a call whose caller has a given memory, valid where the call needs it.

## Main results

* `copyFromUser_run`, `copyIntoUser_run` — what the copies do to the caller's memory.
-/
namespace Efiks.Syscall
open Lib Lib.RustM Mm Vfs

/-- The access gets through to `pa`, after the fault it may take. -/
inductive Reaches (p va : ℕ) (access : PteFlags) : Machine → ℕ → Machine → Prop
  | direct {σ : Machine} {pa : ℕ} (h : σ.kernelAccess p va access = some pa) :
      Reaches p va access σ pa σ
  | fault {σ σ' : Machine} {pa : ℕ} {ev : Event} (h : σ.kernelAccess p va access = none)
      (hrun : Machine.onPageFault p va access σ = .ok ev σ') (hev : ev ≠ .killed)
      (h' : σ'.kernelAccess p va access = some pa) : Reaches p va access σ pa σ'

/-- The machine after loads of `R` and stores to `W`. -/
inductive Touches (p : ℕ) (R W : ℕ → Prop) (σ : Machine) : Machine → Prop
  | refl : Touches p R W σ σ
  | load {σ₁ σ₂ : Machine} {a pa : ℕ} : Touches p R W σ σ₁ → R a →
      Reaches p a PteFlags.R σ₁ pa σ₂ → Touches p R W σ σ₂
  | store {σ₁ σ₂ : Machine} {a pa : ℕ} (b : UInt8) : Touches p R W σ σ₁ → W a →
      Reaches p a PteFlags.W σ₁ pa σ₂ →
      Touches p R W σ { σ₂ with sys := σ₂.sys.writeByte pa b }

/-- The user addresses `R` can be loaded and the user addresses `W` can be stored to, again and
again. -/
structure Valid (p : ℕ) (R W : ℕ → Prop) (σ : Machine) : Prop where
  user : ∀ a, R a ∨ W a → a < 2 ^ 38
  load : ∀ σ', Touches p R W σ σ' → ∀ a, R a → ∃ pa σ'', Reaches p a PteFlags.R σ' pa σ''
  store : ∀ σ', Touches p R W σ σ' → ∀ a, W a → ∃ pa σ'', Reaches p a PteFlags.W σ' pa σ''

/-- Process `p` has the memory `view`. -/
def Sees (p : ℕ) (view : Mem) (σ : Machine) : Prop :=
  p ∈ σ.live ∧ ∃ boot ref, Inv ⟨False, False⟩ false boot σ ∧ Rep false σ ref ∧ ref p = view

section Machine
variable {p va pa a : ℕ} {access : PteFlags} {R W : ℕ → Prop} {view : Mem} {σ σ' σ'' : Machine}

theorem Touches.trans (h : Touches p R W σ σ') (h' : Touches p R W σ' σ'') :
    Touches p R W σ σ'' := by
  induction h' with
  | refl => exact h
  | load _ ha hr ih => exact .load ih ha hr
  | store b _ ha hr ih => exact .store b ih ha hr

theorem Valid.touched (h : Valid p R W σ) (ht : Touches p R W σ σ') : Valid p R W σ' where
  user := h.user
  load _ ht' := h.load _ (ht.trans ht')
  store _ ht' := h.store _ (ht.trans ht')

/-- The fault that an access takes does not show in the caller's memory. -/
theorem Reaches.sees (hr : Reaches p va access σ pa σ') (h : Sees p view σ) (hva : va < 2 ^ 38) :
    Sees p view σ' ∧ σ'.userAccess p va access = some pa := by
  obtain ⟨hp, boot, ref, hinv, hrep, href⟩ := h
  cases hr with
  | direct hacc =>
      rw [kernelAccess_of_lower hinv hp hva] at hacc
      exact ⟨⟨hp, boot, ref, hinv, hrep, href⟩, hacc⟩
  | fault _ hrun _ hacc =>
      have hlt : va < 2 ^ 64 := hva.trans (by norm_num)
      have hfault : wp (Machine.onPageFault p va access) (fun ev σ' =>
          (ev = .trapped ∨ ev = .killed) ∧ StepOk ⟨False, False⟩ false boot σ σ' id)
          (fun _ _ => True) AllowedPanic σ := wp_onPageFault hinv hp hlt access
      have hsound : wp (Machine.onPageFault p va access) (fun _ σ' => Sound p σ') (fun _ _ => True)
          (fun _ => True) σ := wp_onPageFault_sound ⟨⟨boot, hinv⟩, hp⟩ hlt
      have hstep := wp_of_ok hfault hrun
      have hlive := wp_of_ok hsound hrun
      rw [kernelAccess_of_lower hstep.2.inv hlive.2 hva] at hacc
      exact ⟨⟨hlive.2, boot, ref, hstep.2.inv, hstep.2.rep ref hrep, href⟩, hacc⟩

/-- A load shows the caller's memory. -/
theorem Sees.readByte (h : Sees p view σ) (hva : va < 2 ^ 38)
    (hacc : σ.userAccess p va access = some pa) : σ.sys.readByte pa = view va := by
  obtain ⟨hp, boot, ref, hinv, hrep, rfl⟩ := h
  exact readByte_eq hinv hp (hva.trans (by norm_num)) hrep hacc

/-- A store changes one byte of it. -/
theorem Sees.writeByte (h : Sees p view σ) (hva : va < 2 ^ 38)
    (hacc : σ.userAccess p va PteFlags.W = some pa) (b : UInt8) :
    Sees p (Function.update view va b) { σ with sys := σ.sys.writeByte pa b } := by
  obtain ⟨hp, boot, ref, hinv, hrep, rfl⟩ := h
  have hrun : Machine.exec (.store p va b) σ =
      .ok .stored { σ with sys := σ.sys.writeByte pa b } := by
    rw [Machine.exec, bind_run_of_ok (gets_run _), hacc]
    rfl
  have hstore : wp (Machine.exec (.store p va b))
      (fun ev σ' => StepOk ⟨False, False⟩ false boot σ σ' (refStep (.store p va b) ev))
      (fun _ _ => True) AllowedPanic σ := exec_store_ok hinv hp (hva.trans (by norm_num))
  have hstep := wp_of_ok hstore hrun
  refine ⟨hp, boot, _, hstep.inv, hstep.rep ref hrep, ?_⟩
  rw [refStep, Function.update_self]

/-- A store to a user page leaves the page tables alone. -/
theorem Sees.pteAt_writeByte (h : Sees p view σ) (hva : va < 2 ^ 38)
    (hacc : σ.userAccess p va access = some pa) (b : UInt8) (v : Vpn) :
    pteAt (σ.sys.writeByte pa b) (σ.proc p).mm.rootFrame v =
      pteAt σ.sys (σ.proc p).mm.rootFrame v := by
  obtain ⟨hp, boot, ref, hinv, -, -⟩ := h
  obtain ⟨-, hne, rfl, -⟩ := userAccess_eq_some hinv hp (hva.trans (by norm_num)) hacc
  refine pteAt_congr (fun path n hn => setFrame_of_ne _ fun hnf => ?_) v
  have hdiv : (4096 * (pteAt σ.sys (σ.proc p).mm.rootFrame (vpn va)).ppn + va % 4096) / 4096 =
      (pteAt σ.sys (σ.proc p).mm.rootFrame (vpn va)).ppn := by omega
  exact hinv.maps_not_table (Inv.maps_of_pteAt hp hne) hp path (hdiv ▸ hnf ▸ hn)

/-- The page of `va` is present and has the flag. -/
def Present (σ : Machine) (p va : ℕ) (access : PteFlags) : Prop :=
  pteAt σ.sys (σ.proc p).mm.rootFrame (vpn va) ≠ 0 ∧
    (Machine.entryFlags (pteAt σ.sys (σ.proc p).mm.rootFrame (vpn va))).contains access = true

theorem Present.kernelAccess (hp : Present σ p va access) (h : Sees p view σ) (hva : va < 2 ^ 38) :
    ∃ pa, σ.kernelAccess p va access = some pa := by
  obtain ⟨hlive, boot, ref, hinv, -, -⟩ := h
  rw [kernelAccess_of_lower hinv hlive hva]
  exact Option.isSome_iff_exists.mp (userAccess_isSome (hinv.space p hlive).shape
    (hinv.space p hlive).root hva hp.1 hp.2)

/-- The process and its page tables are as in `σ`. -/
structure SameTables (σ : Machine) (p : ℕ) (σ' : Machine) : Prop where
  sees : ∃ view, Sees p view σ'
  proc_eq : σ'.proc = σ.proc
  pteAt_eq : ∀ v, pteAt σ'.sys (σ.proc p).mm.rootFrame v = pteAt σ.sys (σ.proc p).mm.rootFrame v

/-- An access to a page that is present takes no fault. -/
theorem SameTables.direct (h : SameTables σ p σ') (hva : va < 2 ^ 38)
    (hp : Present σ p va access) :
    ∃ pa, σ'.kernelAccess p va access = some pa ∧ ∀ {pa' σ''}, Reaches p va access σ' pa' σ'' →
      σ'' = σ' := by
  obtain ⟨view, hsees⟩ := h.sees
  have hpres : Present σ' p va access := by
    rw [Present, h.proc_eq, h.pteAt_eq]
    exact hp
  obtain ⟨pa, hacc⟩ := hpres.kernelAccess hsees hva
  refine ⟨pa, hacc, fun hr => ?_⟩
  cases hr with
  | direct _ => rfl
  | fault hnone _ _ _ =>
      rw [hacc] at hnone
      cases hnone

/-- Memory whose pages are present is valid. -/
theorem Sees.valid (h : Sees p view σ) (hR : ∀ a, R a → a < 2 ^ 38 ∧ Present σ p a PteFlags.R)
    (hW : ∀ a, W a → a < 2 ^ 38 ∧ Present σ p a PteFlags.W) : Valid p R W σ := by
  have hkeep : ∀ σ', Touches p R W σ σ' → SameTables σ p σ' := by
    intro σ' ht
    induction ht with
    | refl => exact ⟨⟨view, h⟩, rfl, fun _ => rfl⟩
    | @load σ₁ σ₂ a pa _ ha hr ih =>
        obtain ⟨_, -, hsame⟩ := ih.direct (hR a ha).1 (hR a ha).2
        rwa [hsame hr]
    | @store σ₁ σ₂ a pa b _ ha hr ih =>
        obtain ⟨_, -, hsame⟩ := ih.direct (hW a ha).1 (hW a ha).2
        obtain rfl := hsame hr
        obtain ⟨view', hsees⟩ := ih.sees
        obtain ⟨-, hacc⟩ := hr.sees hsees (hW a ha).1
        refine ⟨⟨_, hsees.writeByte (hW a ha).1 hacc b⟩, ih.proc_eq, fun v => ?_⟩
        have hpte := hsees.pteAt_writeByte (hW a ha).1 hacc b v
        rw [ih.proc_eq] at hpte
        exact hpte.trans (ih.pteAt_eq v)
  refine ⟨fun a ha => ha.elim (fun ha => (hR a ha).1) fun ha => (hW a ha).1, fun σ' ht a ha => ?_,
    fun σ' ht a ha => ?_⟩
  · obtain ⟨pa, hacc, -⟩ := (hkeep σ' ht).direct (hR a ha).1 (hR a ha).2
    exact ⟨pa, σ', .direct hacc⟩
  · obtain ⟨pa, hacc, -⟩ := (hkeep σ' ht).direct (hW a ha).1 (hW a ha).2
    exact ⟨pa, σ', .direct hacc⟩

end Machine

/-- A call with the kernel state `k` whose caller has the memory `view`. -/
structure UserState {κ : Type} (p : ℕ) (R W : ℕ → Prop) (view : Mem) (k : κ) (w : World κ) :
    Prop where
  sees : Sees p view w.machine
  valid : Valid p R W w.machine
  rest : w.rest = k

section Copies
variable {κ α : Type} {p va pa addr n : ℕ} {R W : ℕ → Prop} {view : Mem} {k k' : κ}
variable {w : World κ} {access : PteFlags} {σ' : Machine}

theorem reach_run (h : Reaches p va access w.machine pa σ') :
    reach p va access accessFuel w = .ok pa { w with machine := σ' } := by
  cases h with
  | direct hacc =>
      rw [accessFuel, reach, bind_run_of_ok (gets_run _), hacc]
      rfl
  | @fault _ _ ev hacc hrun hev hacc' =>
      have hfault : (onMachine (Machine.onPageFault p va access) : SysM κ Event) w =
          .ok ev { w with machine := σ' } := by rw [onMachine, embed, hrun]
      rw [accessFuel, reach, bind_run_of_ok (gets_run _), hacc]
      dsimp only
      rw [bind_run_of_ok hfault, if_neg hev, reach, bind_run_of_ok (gets_run _)]
      dsimp only
      rw [hacc']
      rfl

theorem loadByte_run (h : UserState p R W view k w) (ha : R va) :
    ∃ w', loadByte p va w = .ok (view va) w' ∧ UserState p R W view k w' := by
  have hva := h.valid.user va (.inl ha)
  obtain ⟨pa, σ', hr⟩ := h.valid.load _ .refl va ha
  obtain ⟨hsees, hacc⟩ := hr.sees h.sees hva
  refine ⟨{ w with machine := σ' }, ?_, hsees, h.valid.touched (.load .refl ha hr), h.rest⟩
  rw [loadByte, bind_run_of_ok (reach_run hr), gets_run, hsees.readByte hva hacc]

theorem storeByte_run (h : UserState p R W view k w) (ha : W va) (b : UInt8) :
    ∃ w', storeByte p va b w = .ok () w' ∧ UserState p R W (Function.update view va b) k w' := by
  have hva := h.valid.user va (.inr ha)
  obtain ⟨pa, σ', hr⟩ := h.valid.store _ .refl va ha
  obtain ⟨hsees, hacc⟩ := hr.sees h.sees hva
  refine ⟨execStore va pa b { w with machine := σ' }, ?_, hsees.writeByte hva hacc b,
    h.valid.touched (.store b .refl ha hr), h.rest⟩
  rw [storeByte, bind_run_of_ok (reach_run hr), modify_run]

theorem addAddr_run {a b : ℕ} (h : a + b < 2 ^ 64) :
    (addAddr a b : SysM κ ℕ) w = .ok (a + b) w := by
  rw [addAddr, if_pos h, pure_run]

/-- What is copied from the caller. -/
theorem copyFromUser_run (h : UserState p R W view k w) {i : ℕ} (hR : ∀ j < n, R (addr + i + j))
    (read : List UInt8) : ∃ w', copyFromUser p addr n i read w =
        .ok (read ++ (List.range n).map fun j => view (addr + i + j)) w' ∧
      UserState p R W view k w' := by
  induction n generalizing w i read with
  | zero => exact ⟨w, by simp [copyFromUser], h⟩
  | succ n ih =>
      have hfirst : R (addr + i) := hR 0 (Nat.succ_pos n)
      have hlt : addr + i < 2 ^ 64 := (h.valid.user _ (.inl hfirst)).trans (by norm_num)
      obtain ⟨w₁, hload, h₁⟩ := loadByte_run h hfirst
      obtain ⟨w₂, hrest, h₂⟩ := ih h₁ (i := i + 1)
        (fun j hj => by have := hR (j + 1) (by omega); rwa [Nat.add_comm j, ← Nat.add_assoc] at this)
        (read ++ [view (addr + i)])
      refine ⟨w₂, ?_, h₂⟩
      rw [copyFromUser, bind_run_of_ok (addAddr_run hlt), bind_run_of_ok hload, hrest,
        List.range_succ_eq_map, List.map_cons, List.map_map, List.append_assoc]
      congr 3
      rw [List.singleton_append, Nat.add_zero]
      congr 1
      refine List.map_congr_left fun j _ => ?_
      rw [Function.comp_apply]
      congr 1
      omega

theorem storeBytes_run (h : UserState p R W view k w) (bs : List UInt8) {i : ℕ}
    (hW : ∀ j < bs.length, W (addr + i + j)) : ∃ w', storeBytes p addr bs i w = .ok () w' ∧
      UserState p R W (view.blit (addr + i) bs.length (bufOf bs)) k w' := by
  induction bs generalizing w i view with
  | nil => exact ⟨w, rfl, by simpa using h⟩
  | cons b bs ih =>
      have hfirst : W (addr + i) := hW 0 (Nat.succ_pos _)
      have hlt : addr + i < 2 ^ 64 := (h.valid.user _ (.inr hfirst)).trans (by norm_num)
      obtain ⟨w₁, hstore, h₁⟩ := storeByte_run h hfirst b
      obtain ⟨w₂, hrest, h₂⟩ := ih h₁ (i := i + 1) (fun j hj => by
        have := hW (j + 1) (by simpa using hj)
        rwa [Nat.add_comm j, ← Nat.add_assoc] at this)
      refine ⟨w₂, ?_, ?_⟩
      · rw [storeBytes, bind_run_of_ok (addAddr_run hlt), bind_run_of_ok hstore, hrest]
      · have hview : Mem.blit (Function.update view (addr + i) b) (addr + (i + 1)) bs.length
            (bufOf bs) =
            view.blit (addr + i) (b :: bs).length (bufOf (b :: bs)) := by
          rw [List.length_cons, Nat.add_comm bs.length 1, ← Nat.add_assoc,
            ← Mem.blit_append (n := 1) (g := bufOf bs) fun j _ => by
              rw [bufOf_eq_getD, bufOf_eq_getD, Nat.add_comm 1 j, List.getElem?_cons_succ]]
          congr 1
          funext x
          by_cases hx : x = addr + i
          · rw [hx, Function.update_self, Mem.blit_of_mem le_rfl (by omega), Nat.sub_self]
            rfl
          · rw [Function.update_of_ne hx, Mem.blit_of_notMem (by omega)]
        rwa [hview] at h₂

/-- What is copied to the caller. -/
theorem copyIntoUser_run (h : UserState p R W view k w) (bs : List UInt8)
    (hW : ∀ j < bs.length, W (addr + j)) : ∃ w', copyIntoUser p addr bs w = .ok () w' ∧
      UserState p R W (view.blit addr bs.length (bufOf bs)) k w' := by
  have h₁ : UserState p R W view k { w with copies := w.copies ++ [⟨addr, bs⟩] } :=
    ⟨h.sees, h.valid, h.rest⟩
  obtain ⟨w', hrun, h'⟩ := storeBytes_run h₁ bs (i := 0) hW
  refine ⟨w', ?_, h'⟩
  rw [copyIntoUser, bind_run_of_ok (modify_run _), hrun]

/-- Code below the system call that leaves user memory alone. -/
theorem service_run {m : RustM (Machine × κ) Errno α} {a : α} (h : UserState p R W view k w)
    (hm : m (w.machine, k) = .ok a (w.machine, k')) :
    ∃ w', service m w = .ok a w' ∧ UserState p R W view k' w' := by
  refine ⟨{ w with rest := k' }, ?_, h.sees, h.valid, rfl⟩
  rw [service, embed, h.rest, hm]

end Copies

end Efiks.Syscall

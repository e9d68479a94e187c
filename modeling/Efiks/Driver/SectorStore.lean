import Efiks.Driver.VirtioBlk

/-!
# The driver is a sector store

If the available and the used index in the block of the queue are zero when the driver
starts, driver and device stay in step for ever, also when their indices wrap: every call
is one chain for the device, it returns after the device has served that chain, with the
status the device gave to it, and a successful read returns what the last successful
write to the sector wrote. The block is not zeroed by `init`; with any other indices this
fails.

## Main definitions

* `replay` — the sectors after a list of transfers.
* `Faithful` — what a caller may expect in every state.
* `InStep` — the invariant.

## Main results

* `faithful_iff_indices_zero`.
-/
namespace Efiks.Driver
open Lib

/-- The areas as `init` lays them out. -/
def queueAt (base : ℕ) : Queue := ⟨base, base + 256, base + 292⟩

/-! ## What a caller may expect -/

/-- A successful write replaces the sector. -/
def Transfer.apply (sectors : Sectors) (t : Transfer) : Sectors :=
  if t.ty = 1 ∧ t.status = 0 then Function.update sectors t.sector fun i => t.data.getD i 0
  else sectors

/-- The sectors after a list of transfers. -/
def replay (sectors : Sectors) (l : List Transfer) : Sectors := l.foldl Transfer.apply sectors

/-- Every successful read has the bytes of the last successful write to its sector, or the
initial ones. -/
def ReadsOk (disk : Sectors) (l : List Transfer) : Prop :=
  ∀ pre t post, l = pre ++ t :: post → t.ty = 0 → t.status = 0 →
    ∀ i < 512, t.data[i]? = some (replay disk pre t.sector i)

/-- The number of chains the driver has offered. -/
def System.submitted (σ : System) : ℕ :=
  σ.results.length + match σ.phase with
    | .idle | .prepared _ => 0
    | .published _ | .waiting _ | .acquired _ => 1

/-- The number of entries the device has still to serve. -/
def System.outstanding (q : Queue) (σ : System) : ℕ :=
  (availIdx σ.mem q + (2 ^ 16 - σ.dev.availIdx)) % 2 ^ 16

structure Faithful (disk : Sectors) (q : Queue) (σ : System) : Prop where
  /-- Every call is one chain for the device. -/
  one_chain : σ.dev.served.length + σ.outstanding q = σ.submitted
  /-- The driver goes on only after the device has served the chain. -/
  completed : ∀ r, σ.phase = .acquired r → σ.dev.served.length = σ.submitted
  /-- And then it does go on. -/
  seen : ∀ r, σ.phase = .waiting r → σ.dev.served.length = σ.submitted →
    usedIdx σ.mem q ≠ σ.lastUsedIdx
  /-- The calls return what the device did, each its own transfer. -/
  own : σ.results = σ.dev.served.take σ.results.length
  reads : ReadsOk disk σ.results

section Lists
variable {disk : Sectors} {l l' : List Transfer} {t : Transfer}

theorem replay_append_singleton : replay disk (l ++ [t]) = t.apply (replay disk l) := by
  rw [replay, List.foldl_append]
  rfl

theorem ReadsOk.of_append (h : ReadsOk disk (l ++ l')) : ReadsOk disk l := by
  rintro pre t post rfl
  exact h pre t (post ++ l') (by simp)

theorem ReadsOk.append_singleton (h : ReadsOk disk l)
    (ht : t.ty = 0 → t.status = 0 → ∀ i < 512, t.data[i]? = some (replay disk l t.sector i)) :
    ReadsOk disk (l ++ [t]) := by
  intro pre t' post heq hty hstatus
  rcases List.eq_nil_or_concat post with rfl | ⟨post, t'', rfl⟩
  · obtain ⟨rfl, hlast⟩ := List.append_inj' heq rfl
    obtain rfl := (List.cons.inj hlast).1
    exact ht hty hstatus
  · have heq' : l ++ [t] = (pre ++ t' :: post) ++ [t''] := by simpa using heq
    exact h pre t' post (List.append_inj' heq' rfl).1 hty hstatus

end Lists

/-! ## Memory -/

/-- What the device finds when it follows the chain at descriptor 0. -/
structure Ready (m : Mem) (base : ℕ) (r : Request) : Prop where
  header : headerAt m r.header = ⟨r.ty.code, r.sector⟩
  headerDesc : descriptorAt m base = r.headerDesc
  dataDesc : descriptorAt m (base + 16) = r.dataDesc
  statusDesc : descriptorAt m (base + 32) = r.statusDesc

section Memory
variable {m w : Mem} {base : ℕ} {r : Request}

theorem availIdx_congr (h : ∀ x, base + 258 ≤ x → x < base + 260 → m x = w x) :
    availIdx m (queueAt base) = availIdx w (queueAt base) :=
  Mem.load_congr fun x hx hx' => by
    simp only [queueAt] at hx hx'
    exact h x (by omega) (by omega)

theorem usedIdx_congr (h : ∀ x, base + 294 ≤ x → x < base + 296 → m x = w x) :
    usedIdx m (queueAt base) = usedIdx w (queueAt base) :=
  Mem.load_congr fun x hx hx' => by
    simp only [queueAt] at hx hx'
    exact h x (by omega) (by omega)

theorem availRing_congr {slot : ℕ} (hslot : slot < 16)
    (h : ∀ x, base + 260 ≤ x → x < base + 292 → m x = w x) :
    availRing m (queueAt base) slot = availRing w (queueAt base) slot :=
  Mem.load_congr fun x hx hx' => by
    simp only [queueAt] at hx hx'
    exact h x (by omega) (by omega)

theorem Ready.congr (h : Ready m base r) (hdesc : ∀ x, base ≤ x → x < base + 48 → w x = m x)
    (hheader : ∀ x, r.header ≤ x → x < r.header + 16 → w x = m x) : Ready w base r where
  header := (headerAt_congr hheader).trans h.header
  headerDesc := (descriptorAt_congr fun x hx hx' => hdesc x hx (by omega)).trans h.headerDesc
  dataDesc := (descriptorAt_congr fun x hx hx' => hdesc x (by omega) (by omega)).trans h.dataDesc
  statusDesc :=
    (descriptorAt_congr fun x hx hx' => hdesc x (by omega) (by omega)).trans h.statusDesc

theorem bytesAt_congr {a n : ℕ} (h : ∀ i < n, m (a + i) = w (a + i)) :
    bytesAt m a n = bytesAt w a n :=
  List.map_congr_left fun i hi => h i (List.mem_range.mp hi)

theorem bytesAt_getElem? {a n i : ℕ} (hi : i < n) : (bytesAt m a n)[i]? = some (m (a + i)) := by
  simp [bytesAt, hi]

/-- The bytes `prepare` writes. -/
theorem prepare_of_notMem {x : ℕ} (hdesc : x < base ∨ base + 48 ≤ x)
    (hheader : x < r.header ∨ r.header + 16 ≤ x) (hstatus : x ≠ r.status) :
    prepare m (queueAt base) r x = m x := by
  simp only [prepare, queueAt, descriptorSize]
  rw [putDescriptor_of_notMem (by omega), putDescriptor_of_notMem (by omega),
    putDescriptor_of_notMem (by omega), Mem.store_of_notMem (by omega),
    putHeader_of_notMem hheader]

theorem ReqType.code_lt (ty : ReqType) : ty.code < 2 := by cases ty <;> decide

theorem Request.Placed.fits (h : r.Placed base) :
    r.headerDesc.Fits ∧ r.dataDesc.Fits ∧ r.statusDesc.Fits := by
  have hheader := h.header_le
  have hdata := h.data_le
  have hstatus := h.status_lt
  simp only [Descriptor.Fits, Request.headerDesc, Request.dataDesc, Request.statusDesc]
  cases r.ty <;> dsimp only <;> omega

theorem ready_prepare (h : r.Placed base) : Ready (prepare m (queueAt base) r) base r := by
  have hcode := r.ty.code_lt
  obtain ⟨hfits₀, hfits₁, hfits₂⟩ := h.fits
  have hhq := h.header_queue
  have hhs := h.header_status
  simp only [prepare, queueAt, descriptorSize]
  refine ⟨?_, ?_, ?_, ?_⟩
  · -- the header is written first and nothing after it touches it
    refine (headerAt_congr (w := putHeader m r.header ⟨r.ty.code, r.sector⟩) fun x hx hx' => ?_).trans
      (headerAt_put (by dsimp only; omega) h.sector_lt)
    rw [putDescriptor_of_notMem (by omega), putDescriptor_of_notMem (by omega),
      putDescriptor_of_notMem (by omega), Mem.store_of_notMem (by omega)]
  · rw [descriptorAt_put_of_disjoint (by omega), descriptorAt_put_of_disjoint (by omega),
      descriptorAt_put hfits₀]
  · rw [descriptorAt_put_of_disjoint (by omega), descriptorAt_put hfits₁]
  · exact descriptorAt_put hfits₂

/-- The bytes `publish` writes. -/
theorem publish_of_notMem {x : ℕ} (hx : x < base + 258 ∨ base + 292 ≤ x) :
    publish m (queueAt base) x = m x := by
  have hslot : availIdx m (queueAt base) % queueSize < 16 := Nat.mod_lt _ (by decide)
  have havail : (queueAt base).avail = base + 256 := rfl
  simp only [publish, putAvail]
  rw [Mem.store_of_notMem (by omega), Mem.store_of_notMem (by omega)]

theorem availIdx_publish : availIdx (publish m (queueAt base)) (queueAt base) =
    (availIdx m (queueAt base) + 1) % 2 ^ 16 := by
  rw [publish, putAvail, availIdx, Mem.load_store_same]
  exact Nat.mod_mod _ _

theorem availRing_publish (m : Mem) (base : ℕ) :
    availRing (publish m (queueAt base)) (queueAt base) (availIdx m (queueAt base) % queueSize) = 0 := by
  rw [publish, putAvail, availRing, Mem.load_store_of_disjoint (by omega), Mem.load_store_same]
  rfl

/-- The bytes `putUsed` writes. -/
theorem putUsed_of_notMem {idx head len x : ℕ} (hx : x < base + 294 ∨ base + 424 ≤ x) :
    putUsed m (queueAt base) idx head len x = m x := by
  have hslot : idx % queueSize < 16 := Nat.mod_lt _ (by decide)
  have hused : (queueAt base).used = base + 292 := rfl
  simp only [putUsed]
  rw [Mem.store_of_notMem (by omega), Mem.store_of_notMem (by omega),
    Mem.store_of_notMem (by omega)]

theorem usedIdx_putUsed (idx head len : ℕ) :
    usedIdx (putUsed m (queueAt base) idx head len) (queueAt base) = (idx + 1) % 2 ^ 16 := by
  rw [putUsed, usedIdx, Mem.load_store_same]
  exact Nat.mod_mod _ _

/-! ## One request -/

/-- The chain the driver builds is what the device expects. -/
theorem chainOk_request : chainOk r.headerDesc r.dataDesc r.statusDesc r.ty.code = true := by
  rw [chainOk, Request.dataDesc]
  cases r.ty <;> rfl

/-- The memory after the device has moved the data of a request. -/
def Request.moved (r : Request) (fails : ℕ → Bool) (dev : Device) (m : Mem) : Mem :=
  if requestStatus r.ty.code true (fails dev.served.length) = 0 ∧ r.ty.code = 0
  then m.blit r.data 512 (dev.sectors r.sector) else m

/-- The transfer the device makes of a request. -/
def Request.transfer (r : Request) (fails : ℕ → Bool) (dev : Device) (m : Mem) : Transfer :=
  ⟨r.ty.code, r.sector, requestStatus r.ty.code true (fails dev.served.length),
    bytesAt (r.moved fails dev m) r.data 512⟩

theorem Request.transfer_eta (r : Request) (fails : ℕ → Bool) (dev : Device) (m : Mem) :
    (⟨r.ty.code, r.sector, (r.transfer fails dev m).status, (r.transfer fails dev m).data⟩ :
      Transfer) = r.transfer fails dev m := by
  simp only [Request.transfer]

/-- The device after it has served a request. -/
def Request.after (r : Request) (fails : ℕ → Bool) (dev : Device) (m : Mem) : Device :=
  { dev with
    availIdx := (dev.availIdx + 1) % 2 ^ 16
    usedIdx := (dev.usedIdx + 1) % 2 ^ 16
    sectors := if (r.transfer fails dev m).status = 0 ∧ r.ty.code = 1
      then Function.update dev.sectors r.sector fun i => m (r.data + i) else dev.sectors
    served := dev.served ++ [r.transfer fails dev m] }

variable {fails : ℕ → Bool} {dev : Device}

/-- The device serves the request that is ready. -/
theorem serve_ready (h : Ready m base r)
    (hring : availRing m (queueAt base) (dev.availIdx % queueSize) = 0) :
    dev.serve fails (queueAt base) m = (r.after fails dev m,
      putUsed ((r.moved fails dev m).store r.status 1 (r.transfer fails dev m).status.toNat)
        (queueAt base) dev.usedIdx 0 (if r.ty.code = 0 then 513 else 1)) := by
  have hdesc : (queueAt base).desc = base := rfl
  have hnext : r.headerDesc.next = 1 := rfl
  have hnext' : r.dataDesc.next = 2 := rfl
  have h1 : base + descriptorSize * 1 = base + 16 := rfl
  have h2 : base + descriptorSize * 2 = base + 32 := rfl
  have haddr : r.headerDesc.addr = r.header := rfl
  simp only [Device.serve, hring, hdesc, Nat.mul_zero, Nat.add_zero, h.headerDesc, hnext, h1,
    h.dataDesc, hnext', h2, h.statusDesc, haddr, h.header, chainOk_request, Request.after,
    Request.transfer, Request.moved]
  rfl

/-- The memory after a served request. -/
structure Served (m m' : Mem) (base : ℕ) (r : Request) (t : Transfer) : Prop where
  status : m' r.status = t.status
  data : bytesAt m' r.data 512 = t.data
  availIdx : availIdx m' (queueAt base) = availIdx m (queueAt base)

theorem served_of_ready (fails : ℕ → Bool) (hr : r.Placed base) (h : Ready m base r)
    (hring : availRing m (queueAt base) (dev.availIdx % queueSize) = 0) :
    Served m (dev.serve fails (queueAt base) m).2 base r (r.transfer fails dev m) := by
  have hds := hr.data_status
  have hdq := hr.data_queue
  have hsq := hr.status_queue
  have hframe : ∀ x, x < r.data ∨ r.data + 512 ≤ x → r.moved fails dev m x = m x := by
    intro x hx
    rw [Request.moved]
    split
    · exact Mem.blit_of_notMem hx
    · rfl
  rw [serve_ready h hring]
  dsimp only
  refine ⟨?_, ?_, availIdx_congr fun x hx hx' => ?_⟩
  · rw [putUsed_of_notMem (by omega), Mem.store, Mem.blit_of_mem le_rfl (by omega), Nat.sub_self]
    simp [Mem.digit]
  · rw [Request.transfer]
    dsimp only
    refine bytesAt_congr fun i hi => ?_
    rw [putUsed_of_notMem (by omega), Mem.store_of_notMem (by omega)]
  · rw [putUsed_of_notMem (by omega), Mem.store_of_notMem (by omega), hframe x (by omega)]

end Memory

/-! ## The invariant -/

/-- The device has served the request: its transfer is the last one. -/
def Done (σ : System) (r : Request) : Prop :=
  ∃ l, σ.dev.served = l ++ [⟨r.ty.code, r.sector, σ.mem r.status, bytesAt σ.mem r.data 512⟩] ∧
    l.length = σ.results.length

/-- The request is offered and not yet served. -/
def Offered (base : ℕ) (σ : System) (r : Request) : Prop :=
  σ.dev.served.length = σ.results.length ∧ Ready σ.mem base r ∧
    availRing σ.mem (queueAt base) (σ.results.length % queueSize) = 0

/-- How far the device is in each phase of the driver. -/
def PhaseOk (base : ℕ) (σ : System) : Prop :=
  match σ.phase with
  | .idle => σ.dev.served.length = σ.results.length
  | .prepared r => r.Placed base ∧ σ.dev.served.length = σ.results.length ∧ Ready σ.mem base r
  | .published r | .waiting r => r.Placed base ∧ (Offered base σ r ∨ Done σ r)
  | .acquired r => r.Placed base ∧ Done σ r

/-- Driver and device are in step. -/
structure InStep (disk : Sectors) (base : ℕ) (σ : System) : Prop where
  last : σ.lastUsedIdx = σ.results.length % 2 ^ 16
  devAvail : σ.dev.availIdx = σ.dev.served.length % 2 ^ 16
  devUsed : σ.dev.usedIdx = σ.dev.served.length % 2 ^ 16
  used : usedIdx σ.mem (queueAt base) = σ.dev.served.length % 2 ^ 16
  avail : availIdx σ.mem (queueAt base) = σ.submitted % 2 ^ 16
  sectors : ∀ s, ∀ i < 512, σ.dev.sectors s i = replay disk σ.dev.served s i
  reads : ReadsOk disk σ.dev.served
  own : σ.results = σ.dev.served.take σ.results.length
  phase : PhaseOk base σ

section Invariant
variable {disk : Sectors} {base : ℕ} {σ σ' : System} {fails : ℕ → Bool}

/-- The device is at most one request behind the driver, and never ahead of it. -/
theorem InStep.served_le (h : InStep disk base σ) :
    σ.dev.served.length ≤ σ.submitted ∧ σ.submitted ≤ σ.dev.served.length + 1 ∧
      (σ.submitted ≠ σ.dev.served.length → ∃ r, r.Placed base ∧ Offered base σ r ∧
        (σ.phase = .published r ∨ σ.phase = .waiting r)) := by
  have hphase := h.phase
  unfold PhaseOk at hphase
  unfold System.submitted
  cases hp : σ.phase with
  | idle =>
    simp only [hp] at hphase ⊢
    exact ⟨by omega, by omega, fun hne => absurd hphase.symm hne⟩
  | prepared r =>
    simp only [hp] at hphase ⊢
    exact ⟨by omega, by omega, fun hne => absurd hphase.2.1.symm hne⟩
  | published r =>
    simp only [hp] at hphase ⊢
    obtain ⟨hr, hoff | ⟨l, hl, hlen⟩⟩ := hphase
    · exact ⟨by have := hoff.1; omega, by have := hoff.1; omega, fun _ => ⟨r, hr, hoff, .inl rfl⟩⟩
    · rw [hl, List.length_append, List.length_singleton]
      exact ⟨by omega, by omega, fun hne => absurd (by omega) hne⟩
  | waiting r =>
    simp only [hp] at hphase ⊢
    obtain ⟨hr, hoff | ⟨l, hl, hlen⟩⟩ := hphase
    · exact ⟨by have := hoff.1; omega, by have := hoff.1; omega, fun _ => ⟨r, hr, hoff, .inr rfl⟩⟩
    · rw [hl, List.length_append, List.length_singleton]
      exact ⟨by omega, by omega, fun hne => absurd (by omega) hne⟩
  | acquired r =>
    simp only [hp] at hphase ⊢
    obtain ⟨-, l, hl, hlen⟩ := hphase
    rw [hl, List.length_append, List.length_singleton]
    exact ⟨by omega, by omega, fun hne => absurd (by omega) hne⟩

theorem InStep.call (h : InStep disk base σ) {r : Request} (hp : σ.phase = .idle)
    (hr : r.Placed base) :
    InStep disk base { σ with phase := .prepared r, mem := prepare σ.mem (queueAt base) r } := by
  have hphase := h.phase
  have havail := h.avail
  simp only [PhaseOk, System.submitted, hp] at hphase havail
  have hframe : ∀ x, base + 48 ≤ x → x < base + 4096 →
      prepare σ.mem (queueAt base) r x = σ.mem x := fun x hx hx' => by
    have hheader := hr.header_queue
    have hstatus := hr.status_queue
    exact prepare_of_notMem (by omega) (by omega) (by omega)
  exact {
    h with
    used := (usedIdx_congr fun x hx hx' => hframe x (by omega) (by omega)).trans h.used
    avail := (availIdx_congr fun x hx hx' => hframe x (by omega) (by omega)).trans havail
    phase := ⟨hr, hphase, ready_prepare hr⟩ }

theorem InStep.publish (h : InStep disk base σ) {r : Request} (hp : σ.phase = .prepared r) :
    InStep disk base { σ with phase := .published r, mem := publish σ.mem (queueAt base) } := by
  have hphase := h.phase
  have havail := h.avail
  simp only [PhaseOk, System.submitted, hp, Nat.add_zero] at hphase havail
  obtain ⟨hr, hserved, hready⟩ := hphase
  have hheader := hr.header_queue
  have hring := availRing_publish σ.mem base
  have hslot : σ.results.length % 2 ^ 16 % queueSize = σ.results.length % queueSize :=
    Nat.mod_mod_of_dvd _ (by decide)
  rw [havail, hslot] at hring
  have hidx : availIdx (Driver.publish σ.mem (queueAt base)) (queueAt base) =
      (σ.results.length + 1) % 2 ^ 16 := by
    rw [availIdx_publish, havail, Nat.mod_add_mod]
  exact {
    h with
    used := (usedIdx_congr fun x hx hx' => publish_of_notMem (by omega)).trans h.used
    avail := hidx
    phase := ⟨hr, .inl ⟨hserved, hready.congr (fun x hx hx' => publish_of_notMem (by omega))
      (fun x hx hx' => publish_of_notMem (by omega)), hring⟩⟩ }

theorem InStep.acquire (h : InStep disk base σ) {r : Request} (hp : σ.phase = .waiting r)
    (hne : usedIdx σ.mem (queueAt base) ≠ σ.lastUsedIdx) :
    InStep disk base { σ with phase := .acquired r } := by
  have hphase := h.phase
  have havail := h.avail
  simp only [PhaseOk, System.submitted, hp] at hphase havail
  obtain ⟨hr, hoff | hdone⟩ := hphase
  · -- the used index moves only when the device has served the request
    rw [h.used, h.last, hoff.1] at hne
    exact absurd rfl hne
  · exact { h with avail := havail, phase := ⟨hr, hdone⟩ }

theorem InStep.finish (h : InStep disk base σ) {r : Request} (hp : σ.phase = .acquired r) :
    InStep disk base { σ with
      phase := .idle
      lastUsedIdx := usedIdx σ.mem (queueAt base)
      results := σ.results ++
        [⟨r.ty.code, r.sector, σ.mem r.status, bytesAt σ.mem r.data 512⟩] } := by
  have hphase := h.phase
  have havail := h.avail
  have hown := h.own
  simp only [PhaseOk, System.submitted, hp] at hphase havail
  obtain ⟨hr, l, hl, hlen⟩ := hphase
  rw [hl, ← hlen, List.take_left'  rfl] at hown
  have hserved : σ.dev.served.length = σ.results.length + 1 := by
    rw [hl, List.length_append, hlen]
    rfl
  exact {
    h with
    last := by
      dsimp only
      rw [h.used, hserved, List.length_append]
      rfl
    avail := by
      rw [havail]
      simp [System.submitted]
    own := by
      dsimp only
      rw [hown, ← hl, List.take_length]
    phase := by
      simp [PhaseOk, hserved] }

/-- The sectors after a transfer, as the caller sees them. -/
theorem sectors_transfer {m : Mem} {r : Request} {dev : Device}
    (h : ∀ s, ∀ i < 512, dev.sectors s i = replay disk dev.served s i) (s : ℕ) {i : ℕ}
    (hi : i < 512) :
    (r.after fails dev m).sectors s i = replay disk (r.after fails dev m).served s i := by
  rw [Request.after]
  dsimp only
  rw [replay_append_singleton, Transfer.apply]
  by_cases hw : (r.transfer fails dev m).status = 0 ∧ r.ty.code = 1
  · have hmoved : r.moved fails dev m = m := if_neg fun hr => by omega
    have hdata : (r.transfer fails dev m).data.getD i 0 = m (r.data + i) := by
      rw [Request.transfer, hmoved]
      dsimp only
      rw [List.getD_eq_getElem?_getD, bytesAt_getElem? hi]
      rfl
    have hw' : (r.transfer fails dev m).ty = 1 ∧ (r.transfer fails dev m).status = 0 := hw.symm
    have hsector : (r.transfer fails dev m).sector = r.sector := rfl
    rw [if_pos hw, if_pos hw', hsector, Function.update_apply, Function.update_apply]
    split
    · exact hdata.symm
    · exact h s i hi
  · rw [if_neg hw, if_neg fun hw' => hw hw'.symm, h s i hi]

theorem InStep.serve (h : InStep disk base σ)
    (hne : σ.dev.availIdx ≠ availIdx σ.mem (queueAt base)) :
    InStep disk base { σ with
      dev := (σ.dev.serve fails (queueAt base) σ.mem).1
      mem := (σ.dev.serve fails (queueAt base) σ.mem).2 } := by
  obtain ⟨r, hr, ⟨hserved, hready, hring⟩, hp⟩ := h.served_le.2.2 fun heq => hne (by
    rw [h.devAvail, h.avail, heq])
  have hslot : σ.dev.availIdx % queueSize = σ.results.length % queueSize := by
    rw [h.devAvail, hserved]
    exact Nat.mod_mod_of_dvd _ (by decide)
  rw [← hslot] at hring
  have hmem := served_of_ready fails hr hready hring
  have hused : usedIdx (σ.dev.serve fails (queueAt base) σ.mem).2 (queueAt base) =
      (σ.dev.usedIdx + 1) % 2 ^ 16 := by
    rw [serve_ready hready hring]
    exact usedIdx_putUsed _ _ _
  have hdev : (σ.dev.serve fails (queueAt base) σ.mem).1 = r.after fails σ.dev σ.mem :=
    congrArg Prod.fst (serve_ready hready hring)
  generalize (σ.dev.serve fails (queueAt base) σ.mem).2 = m' at hmem hused ⊢
  rw [hdev]
  have hlen : (r.after fails σ.dev σ.mem).served.length = σ.dev.served.length + 1 :=
    List.length_append
  have hdone : Done { σ with dev := r.after fails σ.dev σ.mem, mem := m' } r := by
    refine ⟨σ.dev.served, ?_, hserved⟩
    dsimp only
    rw [hmem.status, hmem.data, r.transfer_eta]
    rfl
  exact {
    last := h.last
    devAvail := by
      dsimp only
      rw [hlen, Request.after, h.devAvail, Nat.mod_add_mod]
    devUsed := by
      dsimp only
      rw [hlen, Request.after, h.devUsed, Nat.mod_add_mod]
    used := by
      dsimp only
      rw [hused, hlen, h.devUsed, Nat.mod_add_mod]
    avail := hmem.availIdx.trans h.avail
    sectors := fun s i hi => sectors_transfer h.sectors s hi
    reads := h.reads.append_singleton fun hty hstatus i hi => by
      have hmoved : r.moved fails σ.dev σ.mem = σ.mem.blit r.data 512 (σ.dev.sectors r.sector) :=
        if_pos ⟨hstatus, hty⟩
      rw [Request.transfer, hmoved]
      dsimp only
      rw [bytesAt_getElem? hi, Mem.blit_of_mem (by omega) (by omega), Nat.add_sub_cancel_left,
        h.sectors _ i hi]
    own := by
      have hle : σ.results.length ≤ σ.dev.served.length := hserved.ge
      dsimp only
      rw [Request.after]
      dsimp only
      rw [List.take_append_of_le_length hle]
      exact h.own
    phase := by
      unfold PhaseOk
      rcases hp with hp | hp <;> simp only [hp]
      · exact ⟨hr, .inr hdone⟩
      · exact ⟨hr, .inr hdone⟩ }

theorem InStep.other (h : InStep disk base σ) {m : Mem}
    (hm : ∀ x, σ.Kept base x → m x = σ.mem x) : InStep disk base { σ with mem := m } := by
  have hqueue : ∀ x, base ≤ x → x < base + 4096 → m x = σ.mem x := fun x hx hx' =>
    hm x (.inl ⟨hx, hx'⟩)
  have hring : availRing m (queueAt base) (σ.results.length % queueSize) =
      availRing σ.mem (queueAt base) (σ.results.length % queueSize) :=
    availRing_congr (Nat.mod_lt _ (by decide)) fun x hx hx' => hqueue x (by omega) (by omega)
  have hready : ∀ r, σ.phase.request = some r → Ready σ.mem base r → Ready m base r :=
    fun r hr hready => hready.congr (fun x hx hx' => hqueue x hx (by omega)) fun x hx hx' =>
      hm x (.inr ⟨r, hr, .inl ⟨hx, hx'⟩⟩)
  have hdone : ∀ r, σ.phase.request = some r → Done σ r → Done { σ with mem := m } r := by
    rintro r hr ⟨l, hl, hlen⟩
    refine ⟨l, ?_, hlen⟩
    dsimp only
    rw [hl, hm r.status (.inr ⟨r, hr, .inr (.inr rfl)⟩), bytesAt_congr fun i hi =>
      hm (r.data + i) (.inr ⟨r, hr, .inr (.inl ⟨by omega, by omega⟩)⟩)]
  have hoffered : ∀ r, σ.phase.request = some r → Offered base σ r →
      Offered base { σ with mem := m } r := fun r hr hoff =>
    ⟨hoff.1, hready r hr hoff.2.1, hring.trans hoff.2.2⟩
  have hphase := h.phase
  exact {
    h with
    used := (usedIdx_congr fun x hx hx' => hqueue x (by omega) (by omega)).trans h.used
    avail := (availIdx_congr fun x hx hx' => hqueue x (by omega) (by omega)).trans h.avail
    phase := by
      unfold PhaseOk at hphase ⊢
      dsimp only
      cases hp : σ.phase with
      | idle => simpa only [hp] using hphase
      | prepared r =>
        simp only [hp] at hphase ⊢
        exact ⟨hphase.1, hphase.2.1, hready r (by rw [hp]; rfl) hphase.2.2⟩
      | published r =>
        simp only [hp] at hphase ⊢
        exact ⟨hphase.1, hphase.2.imp (hoffered r (by rw [hp]; rfl)) (hdone r (by rw [hp]; rfl))⟩
      | waiting r =>
        simp only [hp] at hphase ⊢
        exact ⟨hphase.1, hphase.2.imp (hoffered r (by rw [hp]; rfl)) (hdone r (by rw [hp]; rfl))⟩
      | acquired r =>
        simp only [hp] at hphase ⊢
        exact ⟨hphase.1, hdone r (by rw [hp]; rfl) hphase.2⟩ }

/-- One step keeps driver and device in step. -/
theorem InStep.step (h : InStep disk base σ) (hstep : Step fails base (queueAt base) σ σ') :
    InStep disk base σ' := by
  cases hstep with
  | call hp hr => exact h.call hp hr
  | publish hp => exact h.publish hp
  | @notify r hp =>
    have hphase := h.phase
    have havail := h.avail
    simp only [PhaseOk, System.submitted, hp] at hphase havail
    exact { h with avail := havail, phase := hphase }
  | acquire hp hne => exact h.acquire hp hne
  | finish hp => exact h.finish hp
  | serve _ hne => exact h.serve hne
  | rest _ _ => exact { h with }
  | other hm => exact h.other hm

theorem InStep.runs (h : InStep disk base σ) (hruns : Runs fails base (queueAt base) σ σ') :
    InStep disk base σ' := by
  induction hruns with
  | refl => exact h
  | tail _ hstep ih => exact ih.step hstep

theorem inStep_start {m : Mem} (havail : availIdx m (queueAt base) = 0)
    (hused : usedIdx m (queueAt base) = 0) : InStep disk base (start m disk) where
  last := rfl
  devAvail := rfl
  devUsed := rfl
  used := hused
  avail := havail
  sectors _ _ _ := rfl
  reads pre t post h := absurd h (by simp [start])
  own := rfl
  phase := rfl

theorem InStep.faithful (h : InStep disk base σ) : Faithful disk (queueAt base) σ := by
  obtain ⟨hle, hle', hoff⟩ := h.served_le
  have hown := h.own
  refine ⟨?_, fun r hp => ?_, fun r hp hserved => ?_, hown, ?_⟩
  · rw [System.outstanding, h.avail, h.devAvail]
    omega
  · by_contra hne
    obtain ⟨r', -, -, hp' | hp'⟩ := hoff fun heq => hne heq.symm <;> rw [hp] at hp' <;> cases hp'
  · rw [h.used, h.last, hserved]
    simp only [System.submitted, hp]
    omega
  · have hreads : ReadsOk disk (σ.dev.served.take σ.results.length ++
        σ.dev.served.drop σ.results.length) := by
      rw [List.take_append_drop]
      exact h.reads
    rw [hown]
    exact hreads.of_append

end Invariant

/-! ## Other indices -/

section Early
variable {base : ℕ} {m : Mem} {disk : Sectors} {fails : ℕ → Bool}

/-- There is room for a request beside every queue. -/
theorem exists_placed (base : ℕ) : ∃ r : Request, r.Placed base := by
  by_cases hbase : 8192 ≤ base
  · exact ⟨⟨.input, 0, 0, 1024, 2048⟩, by constructor <;> dsimp only <;> omega⟩
  · exact ⟨⟨.input, 0, base + 4096, base + 8192, base + 12288⟩, by
      constructor <;> dsimp only <;> omega⟩

/-- If the used index is not zero, the driver takes the first request for finished before the
device has seen it. -/
theorem acquired_early (hused : usedIdx m (queueAt base) ≠ 0) {r : Request} (hr : r.Placed base) :
    ∃ σ, Runs fails base (queueAt base) (start m disk) σ ∧ σ.phase = .acquired r ∧
      σ.dev.served = [] := by
  have hheader := hr.header_queue
  have hstatus := hr.status_queue
  have hkept : usedIdx (publish (prepare m (queueAt base) r) (queueAt base)) (queueAt base) =
      usedIdx m (queueAt base) := usedIdx_congr fun x hx hx' => by
    rw [publish_of_notMem (by omega), prepare_of_notMem (by omega) (by omega) (by omega)]
  refine ⟨_, ((((Relation.ReflTransGen.refl).tail (.call rfl hr)).tail (.publish rfl)).tail
    (.notify rfl)).tail (.acquire rfl ?_), rfl, rfl⟩
  exact hkept ▸ hused

end Early

/-- **The block driver is a sector store** in every run exactly if the available and the used
index are zero in the memory that `init` takes for the queue. -/
theorem faithful_iff_indices_zero (base : ℕ) (q : Queue) (hq : init base = some q) (m : Mem)
    (disk : Sectors) (fails : ℕ → Bool) :
    (∀ σ, Runs fails base q (start m disk) σ → Faithful disk q σ) ↔
      availIdx m q = 0 ∧ usedIdx m q = 0 := by
  obtain rfl : q = queueAt base := eq_of_init hq
  constructor
  · intro h
    have havail : availIdx m (queueAt base) = 0 := by
      have hone := (h _ .refl).one_chain
      have hlt : availIdx m (queueAt base) < 256 ^ 2 := Mem.load_lt m 2 _
      simp only [start, System.outstanding, System.submitted, List.length_nil] at hone
      omega
    refine ⟨havail, ?_⟩
    by_contra hused
    obtain ⟨r, hr⟩ := exists_placed base
    obtain ⟨σ, hruns, hp, hserved⟩ := acquired_early hused hr
    have hdone := (h σ hruns).completed r hp
    simp [System.submitted, hp, hserved] at hdone
  · rintro ⟨havail, hused⟩ σ hruns
    exact ((inStep_start havail hused).runs hruns).faithful

/-- A zeroed block. -/
theorem faithful_zeroed : init 4096 = some (queueAt 4096) ∧ ∀ σ,
    Runs (fun _ => false) 4096 (queueAt 4096) (start (fun _ => 0) fun _ _ => 0) σ →
      Faithful (fun _ _ => 0) (queueAt 4096) σ :=
  ⟨init_eq rfl, (faithful_iff_indices_zero 4096 (queueAt 4096) (init_eq rfl) (fun _ => 0)
    (fun _ _ => 0) fun _ => false).mpr ⟨by decide, by decide⟩⟩

/-- A block of ones: the first read returns before the device has served anything. -/
theorem acquired_before_served : init 65536 = some (queueAt 65536) ∧
    ∃ σ, Runs (fun _ => false) 65536 (queueAt 65536) (start (fun _ => 1) fun _ _ => 0) σ ∧
      σ.phase = .acquired ⟨.input, 0, 0, 1024, 2048⟩ ∧ σ.dev.served = [] :=
  ⟨init_eq rfl, acquired_early (by decide) (by constructor <;> decide)⟩

end Efiks.Driver

import Efiks.Lib.Checked
import Efiks.Lib.Ring

/-!
# The UART buffer

The interrupt handler puts characters into a ring and the console takes them out.
Neither side looks at the other's position, and the ring has no count, so a receive
that fills the last slot makes the ring look empty: all 1024 characters are gone at
once. As long as no receive finds 1023 unread characters nothing is lost.

The driver never looks at a character, so the model takes characters of any type. A
`Log` stamps each one with the number of characters received before it, which tells
equal characters apart.

## Main definitions

* `readCharIntoBuf`, `tryGetChar` — the two sides.
* `Log.run` — the calls of both sides in any order.
* `LossOk` — one call loses at most the overflow.
-/
namespace Efiks.Driver
open Lib Lib.RustM

/-- `BUF_SIZE`. -/
def bufSize : ℕ := 1024

/-- The ring of the driver. -/
structure Uart (α : Type) where
  buffer : ℕ → α
  beginPos : ℕ
  endPos : ℕ

/-- Driver code runs on the static `UART`; it has no errors of its own. -/
abbrev UartM (α : Type) := RustM (Uart α) Empty

variable {α : Type}

/-- `if pos + 1 >= BUF_SIZE { 0 } else { pos + 1 }`. -/
def advance (pos : ℕ) : UartM α ℕ := do
  let next ← addUsize pos 1
  if next ≥ bufSize then pure 0 else addUsize pos 1

/-- Take a character from the device if its line status `lsr` says there is one; `c` is what the
receive register holds. -/
def readCharIntoBuf (lsr : UInt8) (c : α) : UartM α (Option α) := do
  if lsr &&& 1 = 0 then pure none
  else do
    let uart ← gets id
    inBounds (uart.endPos + 1) bufSize
    modify fun u => { u with buffer := Function.update u.buffer uart.endPos c }
    let endPos ← advance uart.endPos
    modify fun u => { u with endPos := endPos }
    pure (some c)

/-- Take a character out of the ring. -/
def tryGetChar : UartM α (Option α) := do
  let uart ← gets id
  if uart.beginPos = uart.endPos then pure none
  else do
    inBounds (uart.beginPos + 1) bufSize
    let c := uart.buffer uart.beginPos
    let beginPos ← advance uart.beginPos
    modify fun u => { u with beginPos := beginPos }
    pure (some c)

namespace Uart

/-- The characters that the next calls of `tryGetChar` return. -/
def unread (u : Uart α) : List α := Ring.items bufSize u.buffer u.beginPos u.endPos

/-- Both positions are in the ring. -/
structure InRing (u : Uart α) : Prop where
  beginPos : u.beginPos < bufSize
  endPos : u.endPos < bufSize

variable {u : Uart α}

theorem wp_advance {pos : ℕ} (hpos : pos < bufSize) {Q : ℕ → Uart α → Prop}
    {E : Empty → Uart α → Prop} {N : Panic → Prop} (hQ : Q (Ring.next bufSize pos) u) :
    wp (advance pos : UartM α ℕ) Q E N u := by
  simp only [bufSize] at hpos
  simp only [advance, wp_bind, wp_addUsize, wp_ite, wp_pure]
  refine ⟨fun _ => ⟨fun hlast => ?_, fun hinside => ⟨fun _ => ?_, by omega⟩⟩, by omega⟩
  · rwa [Ring.next, if_pos hlast] at hQ
  · rwa [Ring.next, if_neg hinside] at hQ

/-- A receive appends to the unread characters, or loses them all with its own. -/
theorem wp_readCharIntoBuf (hu : u.InRing) (lsr : UInt8) (c : α) :
    wp (readCharIntoBuf lsr c)
      (fun o u' => u'.InRing ∧ (lsr &&& 1 = 0 → o = none ∧ u' = u) ∧
        (lsr &&& 1 ≠ 0 → o = some c ∧
          (u.unread.length + 1 < bufSize → u'.unread = u.unread ++ [c]) ∧
          (u.unread.length + 1 = bufSize → u'.unread = [])))
      (fun _ _ => False) (fun _ => False) u := by
  have hb := hu.beginPos
  have he := hu.endPos
  simp only [readCharIntoBuf, wp_ite, wp_pure, wp_bind, wp_gets, wp_inBounds, wp_modify, id]
  refine ⟨fun hnone => ⟨hu, by simp, fun h => absurd hnone h⟩, fun hready => ⟨fun _ => ?_, by omega⟩⟩
  apply wp_advance he
  refine ⟨⟨hb, Ring.next_lt he⟩, fun h => absurd h hready, fun _ => ⟨by simp, ?_, ?_⟩⟩
  · intro hroom
    rw [unread, Ring.length_items] at hroom
    exact Ring.items_push c hb he hroom
  · intro hfull
    rw [unread, Ring.length_items] at hfull
    exact Ring.items_push_full c hb he hfull

/-- `tryGetChar` returns the first unread character. -/
theorem wp_tryGetChar (hu : u.InRing) :
    wp tryGetChar
      (fun o u' => u'.InRing ∧ u.unread = o.toList ++ u'.unread ∧ (o = none → u.unread = []))
      (fun _ _ => False) (fun _ => False) u := by
  have hb := hu.beginPos
  have he := hu.endPos
  simp only [tryGetChar, wp_ite, wp_pure, wp_bind, wp_gets, wp_inBounds, wp_modify, id]
  refine ⟨fun heq => ⟨hu, by simp, fun _ => (Ring.items_eq_nil_iff hb he).mpr heq⟩,
    fun hne => ⟨fun _ => ?_, by omega⟩⟩
  apply wp_advance hb
  exact ⟨⟨Ring.next_lt hb, he⟩, Ring.items_pop hb he hne, by simp⟩

end Uart

/-! ## Runs -/

/-- A call of one side. -/
inductive Call
  | receive (lsr c : UInt8)
  | getChar
  deriving DecidableEq, Repr

/-- The driver with the characters received and returned so far, each with its stamp. -/
structure Log where
  uart : Uart (ℕ × UInt8)
  received : List (ℕ × UInt8)
  returned : List (ℕ × UInt8)

namespace Log

/-- The driver after `Uart::new`. -/
def new : Log := ⟨⟨fun _ => (0, 0), 0, 0⟩, [], []⟩

/-- The log after a call. -/
def call (l : Log) : Call → Log
  | .receive lsr c =>
      match readCharIntoBuf lsr (l.received.length, c) l.uart with
      | .ok o u => { l with uart := u, received := l.received ++ o.toList }
      | _ => l
  | .getChar =>
      match tryGetChar l.uart with
      | .ok o u => { l with uart := u, returned := l.returned ++ o.toList }
      | _ => l

/-- The log after a sequence of calls. -/
def run (calls : List Call) : Log := calls.foldl call new

/-- The characters that can no longer be returned: received, not returned, not in the ring. -/
def dropped (l : Log) : List (ℕ × UInt8) :=
  l.received.filter fun x => x ∉ l.returned ∧ x ∉ l.uart.unread

theorem mem_dropped {l : Log} {x : ℕ × UInt8} :
    x ∈ l.dropped ↔ x ∈ l.received ∧ x ∉ l.returned ∧ x ∉ l.uart.unread := by
  simp [dropped]

/-- What holds in every log: stamps count, and the returned characters followed by the unread
ones are received characters, in order. -/
structure Inv (l : Log) : Prop where
  inRing : l.uart.InRing
  stamps : l.received.map Prod.fst = List.range l.received.length
  order : (l.returned ++ l.uart.unread).Sublist l.received

variable {l : Log}

theorem Inv.new : Inv new :=
  ⟨⟨by decide, by decide⟩, rfl, by simp [Log.new, Uart.unread, Ring.items, Ring.dist]⟩

theorem Inv.nodup (h : Inv l) : l.received.Nodup := by
  apply List.Nodup.of_map Prod.fst
  rw [h.stamps]
  exact List.nodup_range

/-- The next stamp is new. -/
theorem Inv.fresh (h : Inv l) (c : UInt8) : (l.received.length, c) ∉ l.received := by
  intro hmem
  have hstamp := List.mem_map_of_mem (f := Prod.fst) hmem
  rw [h.stamps, List.mem_range] at hstamp
  exact lt_irrefl _ hstamp

theorem Inv.length_unread (h : Inv l) : l.uart.unread.length + 1 ≤ bufSize := by
  rw [Uart.unread, Ring.length_items]
  exact Ring.dist_lt h.inRing.beginPos

/-- What a receive does to the log. -/
inductive Received (l : Log) (lsr c : UInt8) : Log → Prop
  | notReady (h : lsr &&& 1 = 0) : Received l lsr c l
  | kept {u : Uart (ℕ × UInt8)} (h : lsr &&& 1 ≠ 0) (hring : u.InRing)
      (hroom : l.uart.unread.length + 1 < bufSize)
      (hu : u.unread = l.uart.unread ++ [(l.received.length, c)]) :
      Received l lsr c { l with uart := u, received := l.received ++ [(l.received.length, c)] }
  | lost {u : Uart (ℕ × UInt8)} (h : lsr &&& 1 ≠ 0) (hring : u.InRing)
      (hfull : l.uart.unread.length + 1 = bufSize) (hu : u.unread = []) :
      Received l lsr c { l with uart := u, received := l.received ++ [(l.received.length, c)] }

/-- A receive returns, and does one of these. -/
theorem Inv.receive (h : Inv l) (lsr c : UInt8) :
    (∃ o u, readCharIntoBuf lsr (l.received.length, c) l.uart = .ok o u) ∧
      ∃ l', l.call (.receive lsr c) = l' ∧ Received l lsr c l' := by
  obtain ⟨o, u, hrun, hring, hnone, hsome⟩ :=
    exists_ok_of_wp (Uart.wp_readCharIntoBuf h.inRing lsr (l.received.length, c))
  refine ⟨⟨o, u, hrun⟩, _, rfl, ?_⟩
  simp only [call, hrun]
  by_cases hready : lsr &&& 1 = 0
  · obtain ⟨rfl, rfl⟩ := hnone hready
    simpa using Received.notReady hready
  · obtain ⟨rfl, hkeep, hlose⟩ := hsome hready
    rcases Nat.lt_or_eq_of_le h.length_unread with hroom | hfull
    · exact .kept hready hring hroom (hkeep hroom)
    · exact .lost hready hring hfull (hlose hfull)

/-- What `tryGetChar` does to the log. -/
theorem Inv.getChar (h : Inv l) : ∃ o u, tryGetChar l.uart = .ok o u ∧ u.InRing ∧
    l.uart.unread = o.toList ++ u.unread ∧ (o = none → l.uart.unread = []) ∧
    l.call .getChar = { l with uart := u, returned := l.returned ++ o.toList } := by
  obtain ⟨o, u, hrun, hring, hunread, hnone⟩ := exists_ok_of_wp (Uart.wp_tryGetChar h.inRing)
  exact ⟨o, u, hrun, hring, hunread, hnone, by simp only [call, hrun]⟩

theorem stamps_append (h : Inv l) (c : UInt8) :
    (l.received ++ [(l.received.length, c)]).map Prod.fst
      = List.range (l.received ++ [(l.received.length, c)]).length := by
  rw [List.map_append, h.stamps, List.length_append, List.length_singleton, List.range_succ]
  rfl

/-- Every call keeps the invariant. -/
theorem Inv.call (h : Inv l) (c : Call) : Inv (l.call c) := by
  cases c with
  | receive lsr c =>
      obtain ⟨l', hcall, hrec⟩ := (h.receive lsr c).2
      rw [hcall]
      cases hrec with
      | notReady _ => exact h
      | kept _ hring _ hu =>
          refine ⟨hring, stamps_append h c, ?_⟩
          simp only [hu, ← List.append_assoc]
          exact h.order.append (List.Sublist.refl _)
      | lost _ hring _ hu =>
          refine ⟨hring, stamps_append h c, ?_⟩
          simp only [hu, List.append_nil]
          exact ((List.sublist_append_left _ _).trans h.order).trans (List.sublist_append_left _ _)
  | getChar =>
      obtain ⟨o, u, -, hring, hunread, -, hcall⟩ := h.getChar
      rw [hcall]
      refine ⟨hring, h.stamps, ?_⟩
      have horder := h.order
      rwa [hunread, ← List.append_assoc] at horder

theorem inv_run (calls : List Call) : Inv (run calls) := by
  induction calls using List.reverseRecOn with
  | nil => exact Inv.new
  | append_singleton calls c ih =>
      rw [run, List.foldl_append]
      exact ih.call c

theorem run_append_singleton (calls : List Call) (c : Call) :
    run (calls ++ [c]) = (run calls).call c := by
  simp [run, List.foldl_append]

end Log

/-! ## Losses -/

/-- A call returns and loses at most the overflow. -/
structure LossOk (l : Log) (c : Call) : Prop where
  /-- The call returns. -/
  returns : match c with
    | .receive lsr c => ∃ o u, readCharIntoBuf lsr (l.received.length, c) l.uart = .ok o u
    | .getChar => ∃ o u, tryGetChar l.uart = .ok o u
  /-- The characters returned are a subsequence of those received. -/
  order : (l.call c).returned.Sublist (l.call c).received
  /-- `None` means that every character was returned or dropped. -/
  none : ∀ u, c = .getChar → tryGetChar l.uart = .ok none u →
    ∀ x ∈ l.received, x ∈ l.returned ∨ x ∈ l.dropped
  /-- A character is dropped only by a receive into a ring without room. -/
  full : ∀ x ∈ (l.call c).dropped, x ∉ l.dropped →
    c ≠ .getChar ∧ bufSize - 1 ≤ l.uart.unread.length
  /-- At most one is dropped. -/
  one : ∀ x ∈ (l.call c).dropped, x ∉ l.dropped → ∀ y ∈ (l.call c).dropped, y ∉ l.dropped → x = y

/-- A call overflows if it receives a character into a ring with room for none. -/
def Overflows (l : Log) (c : Call) : Prop :=
  ∃ lsr ch, c = .receive lsr ch ∧ lsr &&& 1 ≠ 0 ∧ l.uart.unread.length + 1 = bufSize

namespace Log
variable {l : Log}

/-- A character that was dropped stays dropped. -/
theorem Inv.dropped_forever (h : Inv l) (c : Call) {x : ℕ × UInt8} (hx : x ∈ l.dropped) :
    x ∈ (l.call c).dropped := by
  rw [mem_dropped] at hx ⊢
  cases c with
  | receive lsr c =>
      have hne : x ≠ (l.received.length, c) := fun heq => h.fresh c (heq ▸ hx.1)
      obtain ⟨l', hcall, hrec⟩ := (h.receive lsr c).2
      rw [hcall]
      cases hrec with
      | notReady _ => exact hx
      | kept _ _ _ hu => simpa [hu, hne] using hx
      | lost _ _ _ hu => simpa [hu, hne] using ⟨hx.1, hx.2.1⟩
  | getChar =>
      obtain ⟨o, u, -, -, hunread, -, hcall⟩ := h.getChar
      rw [hunread] at hx
      rw [hcall]
      simpa [not_or, and_assoc] using hx

/-- Without an overflow nothing is dropped. -/
theorem Inv.dropped_of_not_overflows (h : Inv l) {c : Call} (hc : ¬ Overflows l c)
    {x : ℕ × UInt8} (hx : x ∈ (l.call c).dropped) : x ∈ l.dropped := by
  rw [mem_dropped] at hx ⊢
  cases c with
  | receive lsr c =>
      obtain ⟨l', hcall, hrec⟩ := (h.receive lsr c).2
      rw [hcall] at hx
      cases hrec with
      | notReady _ => exact hx
      | kept _ _ _ hu =>
          simp only [hu, List.mem_append, List.mem_singleton, not_or] at hx
          exact ⟨hx.1.resolve_right hx.2.2.2, hx.2.1, hx.2.2.1⟩
      | lost hready _ hfull _ => exact absurd ⟨lsr, c, rfl, hready, hfull⟩ hc
  | getChar =>
      obtain ⟨o, u, -, -, hunread, -, hcall⟩ := h.getChar
      rw [hcall] at hx
      rw [hunread]
      simpa [not_or, and_assoc] using hx

theorem Inv.lossOk (h : Inv l) {c : Call} (hc : ¬ Overflows l c) : LossOk l c where
  returns := by
    cases c with
    | receive lsr c => exact (h.receive lsr c).1
    | getChar =>
        obtain ⟨o, u, hrun, -⟩ := h.getChar
        exact ⟨o, u, hrun⟩
  order := (List.sublist_append_left _ _).trans (h.call c).order
  none := by
    intro u _ hrun x hx
    have hempty : l.uart.unread = [] :=
      (wp_of_ok (Uart.wp_tryGetChar h.inRing) hrun).2.2 rfl
    by_cases hret : x ∈ l.returned
    · exact Or.inl hret
    · exact Or.inr (mem_dropped.mpr ⟨hx, hret, by simp [hempty]⟩)
  full := fun x hx hnew => absurd (h.dropped_of_not_overflows hc hx) hnew
  one := fun x hx hnew => absurd (h.dropped_of_not_overflows hc hx) hnew

/-- An overflow drops the new character and all unread ones. -/
theorem Inv.not_lossOk (h : Inv l) {c : Call} (hc : Overflows l c) : ¬ LossOk l c := by
  obtain ⟨lsr, ch, rfl, hready, hfull⟩ := hc
  intro hok
  cases hunread : l.uart.unread with
  | nil => simp [hunread, bufSize] at hfull
  | cons y ys =>
      have horder := h.order
      rw [hunread] at horder
      have hy : y ∈ l.received := horder.subset (by simp)
      have hynot : y ∉ l.returned := by
        have hnodup := h.nodup.sublist horder
        intro hmem
        exact (List.nodup_append.mp hnodup).2.2 y hmem y List.mem_cons_self rfl
      obtain ⟨l', hcall, hrec⟩ := (h.receive lsr ch).2
      have hone := hok.one
      rw [hcall] at hone
      cases hrec with
      | notReady hnot => exact hready hnot
      | kept _ _ hroom _ => omega
      | lost _ _ _ hu =>
          have heq : y = (l.received.length, ch) := by
            apply hone <;> simp [mem_dropped, hu, hunread, hy, hynot, h.fresh ch]
            exact fun hret => h.fresh ch (horder.subset (by simp [hret]))
          exact h.fresh ch (heq ▸ hy)

end Log

/-- **The UART buffer loses at most the overflow exactly if it never overflows.** In a sequence of
calls every call returns and loses at most the overflow if and only if no receive finds 1023
unread characters. -/
theorem uart_loses_overflow_iff (calls : List Call) :
    (∀ pre c, pre ++ [c] <+: calls → LossOk (Log.run pre) c) ↔
      ∀ pre lsr ch, pre ++ [.receive lsr ch] <+: calls → lsr &&& 1 ≠ 0 →
        (Log.run pre).uart.unread.length + 1 < bufSize := by
  constructor
  · intro hok pre lsr ch hpre hready
    have hinv := Log.inv_run pre
    by_contra hfull
    have hlen := hinv.length_unread
    apply hinv.not_lossOk (c := .receive lsr ch) _ (hok pre _ hpre)
    exact ⟨lsr, ch, rfl, hready, by omega⟩
  · intro hroom pre c hpre
    apply (Log.inv_run pre).lossOk
    rintro ⟨lsr, ch, rfl, hready, hfull⟩
    have := hroom pre lsr ch hpre hready
    omega

/-- Receives into a ring with room are all kept. -/
theorem Log.unread_replicate (ch : UInt8) {n : ℕ} (hn : n < bufSize) :
    (Log.run (List.replicate n (.receive 1 ch))).uart.unread.length = n := by
  induction n with
  | zero => simp [Log.run, Log.new, Uart.unread, Ring.dist]
  | succ n ih =>
      have hlen := ih (by omega)
      rw [List.replicate_succ', Log.run_append_singleton]
      obtain ⟨l', hcall, hrec⟩ := ((Log.inv_run (List.replicate n (.receive 1 ch))).receive 1 ch).2
      rw [hcall]
      cases hrec with
      | notReady h => exact absurd h (by decide)
      | kept _ _ _ hu => simp [hu, hlen]
      | lost _ _ hfull _ => omega

/-- A burst of the size of the ring is lost with its last character. -/
theorem Log.burst (ch : UInt8) {n : ℕ} (hn : n + 1 = bufSize) :
    ¬ LossOk (Log.run (List.replicate n (.receive 1 ch))) (.receive 1 ch) ∧
      (Log.run (List.replicate (n + 1) (.receive 1 ch))).uart.unread = [] := by
  have hinv := Log.inv_run (List.replicate n (.receive 1 ch))
  have hlen := Log.unread_replicate ch (n := n) (by omega)
  constructor
  · apply hinv.not_lossOk
    exact ⟨1, ch, rfl, by decide, by rw [hlen, hn]⟩
  · rw [List.replicate_succ', Log.run_append_singleton]
    obtain ⟨l', hcall, hrec⟩ := (hinv.receive 1 ch).2
    rw [hcall]
    cases hrec with
    | notReady h => exact absurd h (by decide)
    | kept _ _ hroom _ => omega
    | lost _ _ _ hu => exact hu

/-- After 1024 characters in a burst the console finds none of them. -/
theorem burst_lost : ¬ LossOk (Log.run (List.replicate 1023 (.receive 1 97))) (.receive 1 97) ∧
    (Log.run (List.replicate 1024 (.receive 1 97))).uart.unread = [] :=
  Log.burst 97 (by simp [bufSize])

end Efiks.Driver

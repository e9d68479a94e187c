import Mathlib

/-!
# Frames shared copy-on-write

The abstract purpose of a memory manager that shares frames between address
spaces. A space maps pages to frames, writable or not, and owns some frames
privately, each in a named slot (its tables and its stack, say). Frames are
counted: `refs` is the number of spaces that map a frame.

The operations are relations between the states before and after, so that an
implementation proves them of its own states. `Sharing` is the invariant they
keep; `Represents` says that every space sees the memory a private copy would
hold.

## Main definitions

* `Frames` — the abstract state; `Frames.mappers` — the spaces that map a frame.
* `Frames.Grow`, `MapPage`, `MapFresh`, `Share`, `Unshare`, `Write`, `SetAccess`,
  `Release`, `Reserve`.
* `Frames.Sharing`, `Frames.Represents`.

## Main results

* `Sharing.grow` to `Sharing.release` — every operation keeps the invariant.
* `Represents.share`, `Represents.unshare`, … — sharing is not observable.
-/
namespace Efiks.Lib

/-- Address spaces over a common set of frames. -/
structure Frames (Pid Page Slot Frame Data : Type) where
  live : Finset Pid
  /-- Spaces that have not been shared yet. -/
  solo : Pid → Prop
  used : Frame → Prop
  refs : Frame → ℕ
  map : Pid → Page → Option (Frame × Bool)
  priv : Pid → Slot → Option Frame
  data : Frame → Data

namespace Frames
variable {Pid Page Slot Frame Data : Type}

/-- Space `p` maps frame `f`. -/
def Maps (a : Frames Pid Page Slot Frame Data) (p : Pid) (f : Frame) : Prop :=
  ∃ v x, a.map p v = some (f, x)

open Classical in
/-- The live spaces that map `f`. -/
noncomputable def mappers (a : Frames Pid Page Slot Frame Data) (f : Frame) : Finset Pid :=
  a.live.filter fun p => a.Maps p f

@[simp] theorem mem_mappers {a : Frames Pid Page Slot Frame Data} {p : Pid} {f : Frame} :
    p ∈ a.mappers f ↔ p ∈ a.live ∧ a.Maps p f := by
  classical
  exact Finset.mem_filter

/-- **The invariant of sharing.** Private frames have one owner, a writable frame
has one mapping, and a frame is in use exactly when something refers to it or it
was in use from the start. -/
structure Sharing (boot : Frame → Prop) (a : Frames Pid Page Slot Frame Data) : Prop where
  map_live : ∀ {p v f x}, a.map p v = some (f, x) → p ∈ a.live
  priv_live : ∀ {p s f}, a.priv p s = some f → p ∈ a.live
  priv_inj : ∀ {p s f q t}, a.priv p s = some f → a.priv q t = some f → p = q ∧ s = t
  priv_map : ∀ {p s f q}, a.priv p s = some f → ¬ a.Maps q f
  map_inj : ∀ {p v w f x y}, a.map p v = some (f, x) → a.map p w = some (f, y) → v = w
  excl : ∀ {p v f q}, a.map p v = some (f, true) → a.Maps q f → q = p
  solo_excl : ∀ {p f q}, a.solo p → a.Maps p f → a.Maps q f → q = p
  refs_eq : ∀ f, a.refs f = (a.mappers f).card
  used_iff : ∀ f, a.used f ↔ boot f ∨ (∃ p s, a.priv p s = some f) ∨ ∃ p, a.Maps p f
  boot_priv : ∀ {f p s}, boot f → a.priv p s ≠ some f
  boot_map : ∀ {f p}, boot f → ¬ a.Maps p f

/-- `p` gets private frames that were not in use; it may be a new space. -/
structure Grow (a b : Frames Pid Page Slot Frame Data) (p : Pid) : Prop where
  live : ∀ q, q ∈ b.live ↔ q = p ∨ q ∈ a.live
  solo : ∀ q, b.solo q → a.solo q ∨ q ∉ a.live
  refs : ∀ f, b.refs f = a.refs f
  map : ∀ q v, b.map q v = a.map q v
  priv_other : ∀ q s, q ≠ p → b.priv q s = a.priv q s
  priv_keep : ∀ s f, a.priv p s = some f → b.priv p s = some f
  priv_new : ∀ s f, b.priv p s = some f → a.priv p s = some f ∨ ¬ a.used f
  priv_inj : ∀ s t f, b.priv p s = some f → b.priv p t = some f → s = t
  used : ∀ f, b.used f ↔ a.used f ∨ ∃ s, b.priv p s = some f
  data : ∀ q f, a.Maps q f → b.data f = a.data f

/-- `p` maps page `v` to a frame that was not in use. -/
structure MapPage (a b : Frames Pid Page Slot Frame Data) (p : Pid) (v : Page) (f : Frame)
    (x : Bool) (zero : Data) : Prop where
  live_eq : b.live = a.live
  solo : ∀ q, b.solo q → a.solo q
  mem_live : p ∈ a.live
  fresh : ¬ a.used f
  unmapped : a.map p v = none
  map_self : b.map p v = some (f, x)
  map_other : ∀ q w, (q, w) ≠ (p, v) → b.map q w = a.map q w
  priv : ∀ q s, b.priv q s = a.priv q s
  used : ∀ g, b.used g ↔ a.used g ∨ g = f
  refs_self : b.refs f = 1
  refs_other : ∀ g, g ≠ f → b.refs g = a.refs g
  data_self : b.data f = zero
  data_other : ∀ q g, a.Maps q g → b.data g = a.data g

/-- `p` maps page `v` to a frame that was not in use, and gets the private frames it
needs for that. -/
structure MapFresh (a b : Frames Pid Page Slot Frame Data) (p : Pid) (v : Page) (f : Frame)
    (x : Bool) (zero : Data) : Prop where
  live_eq : b.live = a.live
  solo : ∀ q, b.solo q → a.solo q
  mem_live : p ∈ a.live
  fresh : ¬ a.used f
  unmapped : a.map p v = none
  map_self : b.map p v = some (f, x)
  map_other : ∀ q w, (q, w) ≠ (p, v) → b.map q w = a.map q w
  priv_other : ∀ q s, q ≠ p → b.priv q s = a.priv q s
  priv_keep : ∀ s n, a.priv p s = some n → b.priv p s = some n
  priv_new : ∀ s n, b.priv p s = some n → a.priv p s = some n ∨ (¬ a.used n ∧ n ≠ f)
  priv_inj : ∀ s t n, b.priv p s = some n → b.priv p t = some n → s = t
  used : ∀ n, b.used n ↔ a.used n ∨ n = f ∨ ∃ s, b.priv p s = some n
  refs_self : b.refs f = 1
  refs_other : ∀ g, g ≠ f → b.refs g = a.refs g
  data_self : b.data f = zero
  data_other : ∀ q g, a.Maps q g → b.data g = a.data g

/-- Frames that were not in use are taken for good, for no space. -/
structure Reserve (a b : Frames Pid Page Slot Frame Data) (P : Frame → Prop) : Prop where
  live_eq : b.live = a.live
  solo : ∀ q, b.solo q → a.solo q
  map : ∀ q w, b.map q w = a.map q w
  priv : ∀ q s, b.priv q s = a.priv q s
  fresh : ∀ f, P f → ¬ a.used f
  used : ∀ f, b.used f ↔ a.used f ∨ P f
  refs : ∀ f, b.refs f = a.refs f
  data : ∀ q f, a.Maps q f → b.data f = a.data f

/-- `q` becomes a copy of `p`: they share every frame, read only, and `q` gets
private frames of its own. -/
structure Share (a b : Frames Pid Page Slot Frame Data) (p q : Pid) : Prop where
  mem_live : p ∈ a.live
  not_live : q ∉ a.live
  live : ∀ r, r ∈ b.live ↔ r = q ∨ r ∈ a.live
  solo : ∀ r, b.solo r → a.solo r ∧ r ≠ q ∧ r ≠ p
  map_self : ∀ v, b.map p v = (a.map p v).map fun m => (m.1, false)
  map_copy : ∀ v, b.map q v = (a.map p v).map fun m => (m.1, false)
  map_other : ∀ r v, r ≠ p → r ≠ q → b.map r v = a.map r v
  priv_other : ∀ r s, r ≠ q → b.priv r s = a.priv r s
  priv_new : ∀ s f, b.priv q s = some f → ¬ a.used f
  priv_inj : ∀ s t f, b.priv q s = some f → b.priv q t = some f → s = t
  used : ∀ f, b.used f ↔ a.used f ∨ ∃ s, b.priv q s = some f
  refs_mapped : ∀ f, a.Maps p f → b.refs f = a.refs f + 1
  refs_other : ∀ f, ¬ a.Maps p f → b.refs f = a.refs f
  data : ∀ r f, a.Maps r f → b.data f = a.data f

/-- `p` replaces the frame `f` behind `v` by a writable copy `g`. -/
structure Unshare (a b : Frames Pid Page Slot Frame Data) (p : Pid) (v : Page) (f g : Frame) :
    Prop where
  live_eq : b.live = a.live
  solo : ∀ q, b.solo q → a.solo q
  fresh : ¬ a.used g
  mapped : ∃ x, a.map p v = some (f, x)
  map_self : b.map p v = some (g, true)
  map_other : ∀ q w, (q, w) ≠ (p, v) → b.map q w = a.map q w
  priv : ∀ q s, b.priv q s = a.priv q s
  used : ∀ h, b.used h ↔ h = g ∨ (a.used h ∧ ¬ (h = f ∧ a.refs f = 1))
  refs_new : b.refs g = 1
  refs_old : b.refs f + 1 = a.refs f
  refs_other : ∀ h, h ≠ f → h ≠ g → b.refs h = a.refs h
  data_new : b.data g = a.data f
  data_other : ∀ q h, a.Maps q h → b.data h = a.data h

/-- The contents of the frame `f` behind page `v` of `p` change; nobody else maps it. -/
structure Write (a b : Frames Pid Page Slot Frame Data) (p : Pid) (v : Page) (f : Frame) :
    Prop where
  live_eq : b.live = a.live
  solo : ∀ q, b.solo q → a.solo q
  mapped : ∃ x, a.map p v = some (f, x)
  only : ∀ q, a.Maps q f → q = p
  map : ∀ q w, b.map q w = a.map q w
  priv : ∀ q s, b.priv q s = a.priv q s
  used : ∀ g, b.used g ↔ a.used g
  refs : ∀ g, b.refs g = a.refs g
  data_other : ∀ q g, a.Maps q g → g ≠ f → b.data g = a.data g

/-- The mapping of `v` changes between read-only and writable; nobody else maps the
frame. -/
structure SetAccess (a b : Frames Pid Page Slot Frame Data) (p : Pid) (v : Page) (f : Frame)
    (x : Bool) : Prop where
  live_eq : b.live = a.live
  solo : ∀ q, b.solo q → a.solo q
  mapped : ∃ y, a.map p v = some (f, y)
  only : ∀ q, a.Maps q f → q = p
  map_self : b.map p v = some (f, x)
  map_other : ∀ q w, (q, w) ≠ (p, v) → b.map q w = a.map q w
  priv : ∀ q s, b.priv q s = a.priv q s
  used : ∀ g, b.used g ↔ a.used g
  refs : ∀ g, b.refs g = a.refs g
  data : ∀ q g, a.Maps q g → b.data g = a.data g

/-- `p` ends: its private frames and the frames only it maps are given back. -/
structure Release (a b : Frames Pid Page Slot Frame Data) (p : Pid) : Prop where
  mem_live : p ∈ a.live
  live : ∀ q, q ∈ b.live ↔ q ≠ p ∧ q ∈ a.live
  solo : ∀ q, b.solo q → a.solo q
  map_self : ∀ v, b.map p v = none
  map_other : ∀ q v, q ≠ p → b.map q v = a.map q v
  priv_self : ∀ s, b.priv p s = none
  priv_other : ∀ q s, q ≠ p → b.priv q s = a.priv q s
  used : ∀ f, b.used f ↔
    a.used f ∧ (∀ s, a.priv p s ≠ some f) ∧ ¬ (a.Maps p f ∧ a.refs f = 1)
  refs_mapped : ∀ f, a.Maps p f → b.refs f + 1 = a.refs f
  refs_other : ∀ f, ¬ a.Maps p f → b.refs f = a.refs f
  data : ∀ q f, a.Maps q f → b.data f = a.data f

variable {a b : Frames Pid Page Slot Frame Data} {boot : Frame → Prop}
variable {p q : Pid} {v w : Page} {s t : Slot} {f g : Frame} {x y : Bool}

theorem Maps.intro (h : a.map p v = some (f, x)) : a.Maps p f := ⟨v, x, h⟩

section Invariant

theorem Sharing.used_of_maps (h : Sharing boot a) (hm : a.Maps p f) : a.used f :=
  (h.used_iff f).mpr (Or.inr (Or.inr ⟨p, hm⟩))

theorem Sharing.used_of_priv (h : Sharing boot a) (hp : a.priv p s = some f) : a.used f :=
  (h.used_iff f).mpr (Or.inr (Or.inl ⟨p, s, hp⟩))

theorem Sharing.used_of_boot (h : Sharing boot a) (hb : boot f) : a.used f :=
  (h.used_iff f).mpr (Or.inl hb)

theorem Sharing.maps_live (h : Sharing boot a) (hm : a.Maps p f) : p ∈ a.live := by
  obtain ⟨v, x, hv⟩ := hm
  exact h.map_live hv

/-- Nobody maps a frame that is counted zero times, and a frame counted once has
one mapper. -/
theorem Sharing.refs_pos (h : Sharing boot a) (hm : a.Maps p f) : 0 < a.refs f := by
  rw [h.refs_eq, Finset.card_pos]
  exact ⟨p, mem_mappers.mpr ⟨h.maps_live hm, hm⟩⟩

theorem Sharing.refs_eq_one_iff (h : Sharing boot a) (hm : a.Maps p f) :
    a.refs f = 1 ↔ ∀ q, a.Maps q f → q = p := by
  have hp : p ∈ a.mappers f := mem_mappers.mpr ⟨h.maps_live hm, hm⟩
  rw [h.refs_eq, Finset.card_eq_one]
  constructor
  · rintro ⟨r, hr⟩ q hq
    have hq' : q ∈ a.mappers f := mem_mappers.mpr ⟨h.maps_live hq, hq⟩
    rw [hr, Finset.mem_singleton] at hp hq'
    rw [hq', hp]
  · intro hall
    refine ⟨p, Finset.eq_singleton_iff_unique_mem.mpr ⟨hp, fun q hq => ?_⟩⟩
    exact hall q (mem_mappers.mp hq).2

theorem mappers_congr (hlive : ∀ q, a.Maps q f → (q ∈ b.live ↔ q ∈ a.live))
    (hmaps : ∀ q, b.Maps q f ↔ a.Maps q f) : b.mappers f = a.mappers f := by
  ext q
  rw [mem_mappers, mem_mappers, hmaps]
  exact ⟨fun h => ⟨(hlive q h.2).mp h.1, h.2⟩, fun h => ⟨(hlive q h.2).mpr h.1, h.2⟩⟩

end Invariant

section Grow

theorem Grow.maps_iff (hg : Grow a b p) (q : Pid) (f : Frame) : b.Maps q f ↔ a.Maps q f := by
  simp only [Maps, hg.map]

theorem Sharing.grow (h : Sharing boot a) (hg : Grow a b p) : Sharing boot b := by
  -- a private frame of `b` is an old one or was not in use
  have hpriv : ∀ {q s f}, b.priv q s = some f →
      a.priv q s = some f ∨ (q = p ∧ ¬ a.used f) := by
    intro q s f hq
    by_cases hqp : q = p
    · subst hqp
      exact (hg.priv_new s f hq).imp id fun hu => ⟨rfl, hu⟩
    · rw [hg.priv_other q s hqp] at hq
      exact Or.inl hq
  refine
    { map_live := fun hm => (hg.live _).mpr (Or.inr (h.map_live (by rwa [hg.map] at hm)))
      priv_live := fun hp => ?_
      priv_inj := fun {q s f r t} hq hr => ?_
      priv_map := fun {q s f r} hq hm => ?_
      map_inj := fun h₁ h₂ => h.map_inj (by rwa [hg.map] at h₁) (by rwa [hg.map] at h₂)
      excl := fun h₁ h₂ => h.excl (by rwa [hg.map] at h₁) ((hg.maps_iff _ _).mp h₂)
      solo_excl := fun {q f r} hs h₁ h₂ => ?_
      refs_eq := fun f => ?_
      used_iff := fun f => ?_
      boot_priv := fun {f q s} hb hq => ?_
      boot_map := fun hb hm => h.boot_map hb ((hg.maps_iff _ _).mp hm) }
  · rcases hpriv hp with ha | ⟨rfl, _⟩
    · exact (hg.live _).mpr (Or.inr (h.priv_live ha))
    · exact (hg.live _).mpr (Or.inl rfl)
  · rcases hpriv hq with ha | ⟨rfl, hu⟩ <;> rcases hpriv hr with ha' | ⟨rfl, hu'⟩
    · exact h.priv_inj ha ha'
    · exact absurd (h.used_of_priv ha) hu'
    · exact absurd (h.used_of_priv ha') hu
    · exact ⟨rfl, hg.priv_inj s t f hq hr⟩
  · have hm' := (hg.maps_iff _ _).mp hm
    rcases hpriv hq with ha | ⟨_, hu⟩
    · exact h.priv_map ha hm'
    · exact hu (h.used_of_maps hm')
  · have h₁' := (hg.maps_iff _ _).mp h₁
    rcases hg.solo q hs with hs' | hdead
    · exact h.solo_excl hs' h₁' ((hg.maps_iff _ _).mp h₂)
    · exact absurd (h.maps_live h₁') hdead
  · rw [hg.refs, h.refs_eq]
    congr 1
    refine (mappers_congr (fun q hq => ?_) fun q => hg.maps_iff q f).symm
    exact ⟨fun _ => h.maps_live hq, fun hl => (hg.live q).mpr (Or.inr hl)⟩
  · rw [hg.used, h.used_iff]
    simp only [hg.maps_iff]
    constructor
    · rintro ((hb | ⟨q, s, hq⟩ | hm) | ⟨s, hs⟩)
      · exact Or.inl hb
      · refine Or.inr (Or.inl ⟨q, s, ?_⟩)
        by_cases hqp : q = p
        · subst hqp; exact hg.priv_keep s f hq
        · rw [hg.priv_other q s hqp, hq]
      · exact Or.inr (Or.inr hm)
      · exact Or.inr (Or.inl ⟨p, s, hs⟩)
    · rintro (hb | ⟨q, s, hq⟩ | hm)
      · exact Or.inl (Or.inl hb)
      · rcases hpriv hq with ha | ⟨rfl, _⟩
        · exact Or.inl (Or.inr (Or.inl ⟨q, s, ha⟩))
        · exact Or.inr ⟨s, hq⟩
      · exact Or.inl (Or.inr (Or.inr hm))
  · rcases hpriv hq with ha | ⟨_, hu⟩
    · exact h.boot_priv hb ha
    · exact hu (h.used_of_boot hb)

end Grow

section MapPage
variable {zero : Data}

theorem MapPage.cases (hm : MapPage a b p v f x zero) (h : b.map q w = some (g, y)) :
    a.map q w = some (g, y) ∨ (q = p ∧ w = v ∧ g = f ∧ y = x) := by
  by_cases hqw : (q, w) = (p, v)
  · obtain ⟨rfl, rfl⟩ := Prod.mk.inj hqw
    rw [hm.map_self] at h
    obtain ⟨rfl, rfl⟩ := Prod.mk.inj (Option.some.inj h)
    exact Or.inr ⟨rfl, rfl, rfl, rfl⟩
  · rw [hm.map_other q w hqw] at h
    exact Or.inl h

theorem MapPage.maps_iff (hm : MapPage a b p v f x zero) (q : Pid) (g : Frame) :
    b.Maps q g ↔ a.Maps q g ∨ (q = p ∧ g = f) := by
  constructor
  · rintro ⟨w, y, h⟩
    rcases hm.cases h with ha | ⟨rfl, -, rfl, -⟩
    · exact Or.inl ⟨w, y, ha⟩
    · exact Or.inr ⟨rfl, rfl⟩
  · rintro (⟨w, y, h⟩ | ⟨rfl, rfl⟩)
    · refine ⟨w, y, ?_⟩
      rw [hm.map_other q w, h]
      rintro hqw
      obtain ⟨rfl, rfl⟩ := Prod.mk.inj hqw
      rw [hm.unmapped] at h
      cases h
    · exact ⟨v, x, hm.map_self⟩

theorem Sharing.mapPage (h : Sharing boot a) (hm : MapPage a b p v f x zero) :
    Sharing boot b := by
  have hfree : ∀ q, ¬ a.Maps q f := fun q hq => hm.fresh (h.used_of_maps hq)
  refine
    { map_live := fun {q w g y} hq => ?_
      priv_live := fun hq => hm.live_eq ▸ h.priv_live (by rwa [hm.priv] at hq)
      priv_inj := fun h₁ h₂ => h.priv_inj (by rwa [hm.priv] at h₁) (by rwa [hm.priv] at h₂)
      priv_map := fun {q s g r} hq hr => ?_
      map_inj := fun {q w w' g y y'} h₁ h₂ => ?_
      excl := fun {q w g r} h₁ h₂ => ?_
      solo_excl := fun {q g r} hs h₁ h₂ => ?_
      refs_eq := fun g => ?_
      used_iff := fun g => ?_
      boot_priv := fun hb hq => h.boot_priv hb (by rwa [hm.priv] at hq)
      boot_map := fun {g q} hb hq => ?_ }
  · rw [hm.live_eq]
    rcases hm.cases hq with ha | ⟨rfl, -⟩
    · exact h.map_live ha
    · exact hm.mem_live
  · rw [hm.priv] at hq
    rcases (hm.maps_iff r g).mp hr with ha | ⟨-, rfl⟩
    · exact h.priv_map hq ha
    · exact hm.fresh (h.used_of_priv hq)
  · rcases hm.cases h₁ with ha | ⟨rfl, rfl, rfl, -⟩ <;>
      rcases hm.cases h₂ with ha' | ⟨hp, hw, hf, -⟩
    · exact h.map_inj ha ha'
    · exact absurd (hf ▸ Maps.intro ha) (hfree q)
    · exact absurd (Maps.intro ha') (hfree q)
    · exact hw.symm
  · rcases hm.cases h₁ with ha | ⟨rfl, -, rfl, -⟩ <;>
      rcases (hm.maps_iff r g).mp h₂ with ha' | ⟨hr, hf⟩
    · exact h.excl ha ha'
    · exact absurd (hf ▸ Maps.intro ha) (hfree q)
    · exact absurd ha' (hfree r)
    · exact hr
  · rcases (hm.maps_iff q g).mp h₁ with ha | ⟨rfl, rfl⟩ <;>
      rcases (hm.maps_iff r g).mp h₂ with ha' | ⟨hr, hf⟩
    · exact h.solo_excl (hm.solo q hs) ha ha'
    · exact absurd (hf ▸ ha) (hfree q)
    · exact absurd ha' (hfree r)
    · exact hr
  · by_cases hg : g = f
    · subst hg
      rw [hm.refs_self, eq_comm, Finset.card_eq_one]
      refine ⟨p, ?_⟩
      ext q
      rw [mem_mappers, hm.maps_iff, hm.live_eq, Finset.mem_singleton]
      constructor
      · rintro ⟨-, ha | ⟨rfl, -⟩⟩
        · exact absurd ha (hfree q)
        · rfl
      · rintro rfl
        exact ⟨hm.mem_live, Or.inr ⟨rfl, rfl⟩⟩
    · rw [hm.refs_other g hg, h.refs_eq]
      congr 1
      refine (mappers_congr (fun q _ => by rw [hm.live_eq]) fun q => ?_).symm
      rw [hm.maps_iff]
      simp [hg]
  · rw [hm.used, h.used_iff]
    simp only [hm.priv, hm.maps_iff]
    constructor
    · rintro ((hb | hp | ⟨q, hq⟩) | rfl)
      · exact Or.inl hb
      · exact Or.inr (Or.inl hp)
      · exact Or.inr (Or.inr ⟨q, Or.inl hq⟩)
      · exact Or.inr (Or.inr ⟨p, Or.inr ⟨rfl, rfl⟩⟩)
    · rintro (hb | hp | ⟨q, hq | ⟨-, hq⟩⟩)
      · exact Or.inl (Or.inl hb)
      · exact Or.inl (Or.inr (Or.inl hp))
      · exact Or.inl (Or.inr (Or.inr ⟨q, hq⟩))
      · exact Or.inr hq
  · rcases (hm.maps_iff q g).mp hq with ha | ⟨-, rfl⟩
    · exact h.boot_map hb ha
    · exact hm.fresh (h.used_of_boot hb)

/-- The state between the two halves: the private frames are there, the page is not. -/
def MapFresh.grown (_ : MapFresh a b p v f x zero) : Frames Pid Page Slot Frame Data :=
  { b with used := fun n => a.used n ∨ ∃ s, b.priv p s = some n, refs := a.refs, map := a.map }

theorem MapFresh.grow (hm : MapFresh a b p v f x zero) : Grow a hm.grown p where
  live q := by
    change q ∈ b.live ↔ _
    rw [hm.live_eq]
    exact ⟨Or.inr, fun h => h.elim (fun h => h ▸ hm.mem_live) id⟩
  solo q hq := Or.inl (hm.solo q hq)
  refs _ := rfl
  map _ _ := rfl
  priv_other := hm.priv_other
  priv_keep := hm.priv_keep
  priv_new s n hn := (hm.priv_new s n hn).imp id And.left
  priv_inj := hm.priv_inj
  used _ := Iff.rfl
  data := hm.data_other

theorem MapFresh.mapPage (hm : MapFresh a b p v f x zero) (h : Sharing boot a) :
    MapPage hm.grown b p v f x zero where
  live_eq := rfl
  solo _ := id
  mem_live := hm.live_eq ▸ hm.mem_live
  fresh := by
    rintro (hu | ⟨s, hs⟩)
    · exact hm.fresh hu
    · -- a private frame that is in use before, or one other than `f`
      rcases hm.priv_new s f hs with ha | ⟨-, hne⟩
      · exact hm.fresh (h.used_of_priv ha)
      · exact hne rfl
  unmapped := hm.unmapped
  map_self := hm.map_self
  map_other := hm.map_other
  priv _ _ := rfl
  used n := by
    rw [hm.used]
    change _ ↔ (a.used n ∨ _) ∨ _
    tauto
  refs_self := hm.refs_self
  refs_other := hm.refs_other
  data_self := hm.data_self
  data_other _ _ _ := rfl

theorem Sharing.mapFresh (h : Sharing boot a) (hm : MapFresh a b p v f x zero) : Sharing boot b :=
  (h.grow hm.grow).mapPage (hm.mapPage h)

end MapPage

section Reserve
variable {P : Frame → Prop}

theorem Reserve.maps_iff (hr : Reserve a b P) (q : Pid) (f : Frame) : b.Maps q f ↔ a.Maps q f := by
  simp only [Maps, hr.map]

theorem Sharing.reserve (h : Sharing boot a) (hr : Reserve a b P) :
    Sharing (fun f => boot f ∨ P f) b where
  map_live hm := hr.live_eq ▸ h.map_live (by rwa [hr.map] at hm)
  priv_live hp := hr.live_eq ▸ h.priv_live (by rwa [hr.priv] at hp)
  priv_inj h₁ h₂ := h.priv_inj (by rwa [hr.priv] at h₁) (by rwa [hr.priv] at h₂)
  priv_map h₁ h₂ := h.priv_map (by rwa [hr.priv] at h₁) ((hr.maps_iff _ _).mp h₂)
  map_inj h₁ h₂ := h.map_inj (by rwa [hr.map] at h₁) (by rwa [hr.map] at h₂)
  excl h₁ h₂ := h.excl (by rwa [hr.map] at h₁) ((hr.maps_iff _ _).mp h₂)
  solo_excl h₀ h₁ h₂ :=
    h.solo_excl (hr.solo _ h₀) ((hr.maps_iff _ _).mp h₁) ((hr.maps_iff _ _).mp h₂)
  refs_eq f := by
    rw [hr.refs, h.refs_eq,
      mappers_congr (b := b) (fun q _ => by rw [hr.live_eq]) fun q => hr.maps_iff q f]
  used_iff f := by
    rw [hr.used, h.used_iff]
    simp only [hr.priv, hr.maps_iff]
    exact or_right_comm
  boot_priv {f p s} hb hp := by
    rw [hr.priv] at hp
    exact hb.elim (fun hb => h.boot_priv hb hp) fun hP => hr.fresh f hP (h.used_of_priv hp)
  boot_map {f p} hb hm := by
    have hm' := (hr.maps_iff p f).mp hm
    exact hb.elim (fun hb => h.boot_map hb hm') fun hP => hr.fresh f hP (h.used_of_maps hm')

end Reserve

section Share

theorem Share.cases (hs : Share a b p q) {r : Pid} (h : b.map r w = some (g, y)) :
    (r ≠ p ∧ r ≠ q ∧ a.map r w = some (g, y)) ∨
      ((r = p ∨ r = q) ∧ y = false ∧ ∃ z, a.map p w = some (g, z)) := by
  have hcopy : (a.map p w).map (fun m => (m.1, false)) = some (g, y) →
      y = false ∧ ∃ z, a.map p w = some (g, z) := by
    intro hsome
    obtain ⟨m, hm, heq⟩ := Option.map_eq_some_iff.mp hsome
    obtain ⟨rfl, rfl⟩ := Prod.mk.inj heq
    exact ⟨rfl, m.2, hm⟩
  by_cases hp : r = p
  · subst hp
    rw [hs.map_self] at h
    exact Or.inr ⟨Or.inl rfl, hcopy h⟩
  · by_cases hq : r = q
    · subst hq
      rw [hs.map_copy] at h
      exact Or.inr ⟨Or.inr rfl, hcopy h⟩
    · rw [hs.map_other r w hp hq] at h
      exact Or.inl ⟨hp, hq, h⟩

theorem Share.maps_iff (h : Sharing boot a) (hs : Share a b p q) (r : Pid) (g : Frame) :
    b.Maps r g ↔ a.Maps r g ∨ (r = q ∧ a.Maps p g) := by
  constructor
  · rintro ⟨w, y, hr⟩
    rcases hs.cases hr with ⟨-, -, ha⟩ | ⟨rfl | rfl, -, z, ha⟩
    · exact Or.inl ⟨w, y, ha⟩
    · exact Or.inl ⟨w, z, ha⟩
    · exact Or.inr ⟨rfl, w, z, ha⟩
  · rintro (⟨w, y, ha⟩ | ⟨rfl, w, y, ha⟩)
    · by_cases hp : r = p
      · subst hp
        exact ⟨w, false, by rw [hs.map_self, ha]; rfl⟩
      · have hq : r ≠ q := fun hq => hs.not_live (hq ▸ h.map_live ha)
        exact ⟨w, y, by rw [hs.map_other r w hp hq, ha]⟩
    · exact ⟨w, false, by rw [hs.map_copy, ha]; rfl⟩

theorem Sharing.share (h : Sharing boot a) (hs : Share a b p q) : Sharing boot b := by
  classical
  have hpriv : ∀ {r s f}, b.priv r s = some f →
      (r ≠ q ∧ a.priv r s = some f) ∨ (r = q ∧ ¬ a.used f) := by
    intro r s f hr
    by_cases hrq : r = q
    · subst hrq
      exact Or.inr ⟨rfl, hs.priv_new s f hr⟩
    · rw [hs.priv_other r s hrq] at hr
      exact Or.inl ⟨hrq, hr⟩
  have hused : ∀ {r g}, b.Maps r g → a.used g := by
    intro r g hr
    rcases (hs.maps_iff h r g).mp hr with ha | ⟨-, ha⟩ <;> exact h.used_of_maps ha
  refine
    { map_live := fun {r w g y} hr => ?_
      priv_live := fun {r s f} hr => ?_
      priv_inj := fun {r s f r' t} h₁ h₂ => ?_
      priv_map := fun {r s f r'} h₁ h₂ => ?_
      map_inj := fun {r w w' g y y'} h₁ h₂ => ?_
      excl := fun {r w g r'} h₁ h₂ => ?_
      solo_excl := fun {r g r'} h₀ h₁ h₂ => ?_
      refs_eq := fun g => ?_
      used_iff := fun g => ?_
      boot_priv := fun {f r s} hb hr => ?_
      boot_map := fun {f r} hb hr => ?_ }
  · rw [hs.live]
    rcases hs.cases hr with ⟨-, -, ha⟩ | ⟨rfl | rfl, -⟩
    · exact Or.inr (h.map_live ha)
    · exact Or.inr hs.mem_live
    · exact Or.inl rfl
  · rw [hs.live]
    exact (hpriv hr).elim (fun ha => Or.inr (h.priv_live ha.2)) fun ha => Or.inl ha.1
  · rcases hpriv h₁ with ⟨-, ha⟩ | ⟨rfl, hu⟩ <;> rcases hpriv h₂ with ⟨-, ha'⟩ | ⟨rfl, hu'⟩
    · exact h.priv_inj ha ha'
    · exact absurd (h.used_of_priv ha) hu'
    · exact absurd (h.used_of_priv ha') hu
    · exact ⟨rfl, hs.priv_inj s t f h₁ h₂⟩
  · rcases hpriv h₁ with ⟨-, ha⟩ | ⟨-, hu⟩
    · rcases (hs.maps_iff h r' f).mp h₂ with ha' | ⟨-, ha'⟩ <;> exact h.priv_map ha ha'
    · exact hu (hused h₂)
  · rcases hs.cases h₁ with ⟨hp, hq, ha⟩ | ⟨hr, -, z, ha⟩ <;>
      rcases hs.cases h₂ with ⟨hp', hq', ha'⟩ | ⟨hr', -, z', ha'⟩
    · exact h.map_inj ha ha'
    · exact absurd hr' (by simp [hp, hq])
    · exact absurd hr (by simp [hp', hq'])
    · exact h.map_inj ha ha'
  · -- only a mapping of another space can still be writable
    rcases hs.cases h₁ with ⟨hp, hq, ha⟩ | ⟨-, hy, -⟩
    · rcases (hs.maps_iff h r' g).mp h₂ with ha' | ⟨-, ha'⟩
      · exact h.excl ha ha'
      · exact absurd (h.excl ha ha').symm hp
    · cases hy
  · obtain ⟨h₀', hrq, hrp⟩ := hs.solo r h₀
    have ha : a.Maps r g := ((hs.maps_iff h r g).mp h₁).resolve_right fun hr => hrq hr.1
    rcases (hs.maps_iff h r' g).mp h₂ with ha' | ⟨-, ha'⟩
    · exact h.solo_excl h₀' ha ha'
    · exact absurd (h.solo_excl h₀' ha ha').symm hrp
  · have hqa : ¬ a.Maps q g := fun hq => hs.not_live (h.maps_live hq)
    by_cases hg : a.Maps p g
    · have hset : b.mappers g = insert q (a.mappers g) := by
        ext r
        rw [Finset.mem_insert, mem_mappers, mem_mappers, hs.live, hs.maps_iff h]
        constructor
        · rintro ⟨hl, ha | ⟨hr, -⟩⟩
          · exact Or.inr ⟨h.maps_live ha, ha⟩
          · exact Or.inl hr
        · rintro (rfl | ⟨hl, ha⟩)
          · exact ⟨Or.inl rfl, Or.inr ⟨rfl, hg⟩⟩
          · exact ⟨Or.inr hl, Or.inl ha⟩
      rw [hs.refs_mapped g hg, h.refs_eq, hset, Finset.card_insert_of_notMem]
      exact fun hq => hqa (mem_mappers.mp hq).2
    · rw [hs.refs_other g hg, h.refs_eq]
      congr 1
      refine (mappers_congr (fun r hr => ?_) fun r => ?_).symm
      · rw [hs.live]
        exact ⟨fun _ => h.maps_live hr, Or.inr⟩
      · rw [hs.maps_iff h]
        simp [hg]
  · rw [hs.used, h.used_iff]
    simp only [hs.maps_iff h]
    constructor
    · rintro ((hb | ⟨r, s, hr⟩ | ⟨r, hr⟩) | ⟨s, hq⟩)
      · exact Or.inl hb
      · have hrq : r ≠ q := fun hrq => hs.not_live (hrq ▸ h.priv_live hr)
        exact Or.inr (Or.inl ⟨r, s, by rw [hs.priv_other r s hrq, hr]⟩)
      · exact Or.inr (Or.inr ⟨r, Or.inl hr⟩)
      · exact Or.inr (Or.inl ⟨q, s, hq⟩)
    · rintro (hb | ⟨r, s, hr⟩ | ⟨r, hr | ⟨-, hr⟩⟩)
      · exact Or.inl (Or.inl hb)
      · rcases hpriv hr with ⟨-, ha⟩ | ⟨rfl, -⟩
        · exact Or.inl (Or.inr (Or.inl ⟨r, s, ha⟩))
        · exact Or.inr ⟨s, hr⟩
      · exact Or.inl (Or.inr (Or.inr ⟨r, hr⟩))
      · exact Or.inl (Or.inr (Or.inr ⟨p, hr⟩))
  · rcases hpriv hr with ⟨-, ha⟩ | ⟨-, hu⟩
    · exact h.boot_priv hb ha
    · exact hu (h.used_of_boot hb)
  · rcases (hs.maps_iff h r f).mp hr with ha | ⟨-, ha⟩ <;> exact h.boot_map hb ha

end Share

section Unshare

theorem Unshare.cases (hu : Unshare a b p v f g) {h : Frame} (hq : b.map q w = some (h, y)) :
    (q = p ∧ w = v ∧ h = g ∧ y = true) ∨ ((q, w) ≠ (p, v) ∧ a.map q w = some (h, y)) := by
  by_cases hqw : (q, w) = (p, v)
  · obtain ⟨rfl, rfl⟩ := Prod.mk.inj hqw
    rw [hu.map_self] at hq
    obtain ⟨rfl, rfl⟩ := Prod.mk.inj (Option.some.inj hq)
    exact Or.inl ⟨rfl, rfl, rfl, rfl⟩
  · rw [hu.map_other q w hqw] at hq
    exact Or.inr ⟨hqw, hq⟩

theorem Unshare.maps_iff (ha : Sharing boot a) (hu : Unshare a b p v f g) (q : Pid) (h : Frame) :
    b.Maps q h ↔ (q = p ∧ h = g) ∨ (a.Maps q h ∧ ¬ (q = p ∧ h = f)) := by
  obtain ⟨z, hv⟩ := hu.mapped
  constructor
  · rintro ⟨w, y, hq⟩
    rcases hu.cases hq with ⟨rfl, -, rfl, -⟩ | ⟨hne, hq'⟩
    · exact Or.inl ⟨rfl, rfl⟩
    · refine Or.inr ⟨⟨w, y, hq'⟩, ?_⟩
      rintro ⟨rfl, rfl⟩
      exact hne (by rw [ha.map_inj hq' hv])
  · rintro (⟨rfl, rfl⟩ | ⟨⟨w, y, hq⟩, hne⟩)
    · exact ⟨v, true, hu.map_self⟩
    · refine ⟨w, y, ?_⟩
      rw [hu.map_other q w, hq]
      rintro hqw
      obtain ⟨rfl, rfl⟩ := Prod.mk.inj hqw
      rw [hv] at hq
      exact hne ⟨rfl, (Prod.mk.inj (Option.some.inj hq)).1.symm⟩

theorem Sharing.unshare (ha : Sharing boot a) (hu : Unshare a b p v f g) : Sharing boot b := by
  classical
  obtain ⟨z, hv⟩ := hu.mapped
  have hpf : a.Maps p f := ⟨v, z, hv⟩
  have hp : p ∈ a.live := ha.map_live hv
  have hfree : ∀ q, ¬ a.Maps q g := fun q hq => hu.fresh (ha.used_of_maps hq)
  have hfg : f ≠ g := fun h => hfree p (h ▸ hpf)
  refine
    { map_live := fun {q w h y} hq => ?_
      priv_live := fun hq => hu.live_eq ▸ ha.priv_live (by rwa [hu.priv] at hq)
      priv_inj := fun h₁ h₂ => ha.priv_inj (by rwa [hu.priv] at h₁) (by rwa [hu.priv] at h₂)
      priv_map := fun {q s h r} hq hr => ?_
      map_inj := fun {q w w' h y y'} h₁ h₂ => ?_
      excl := fun {q w h r} h₁ h₂ => ?_
      solo_excl := fun {q h r} hs h₁ h₂ => ?_
      refs_eq := fun h => ?_
      used_iff := fun h => ?_
      boot_priv := fun hb hq => ha.boot_priv hb (by rwa [hu.priv] at hq)
      boot_map := fun {h q} hb hq => ?_ }
  · rw [hu.live_eq]
    rcases hu.cases hq with ⟨rfl, -⟩ | ⟨-, hq'⟩
    · exact hp
    · exact ha.map_live hq'
  · rw [hu.priv] at hq
    rcases (hu.maps_iff ha r h).mp hr with ⟨-, rfl⟩ | ⟨hr', -⟩
    · exact hu.fresh (ha.used_of_priv hq)
    · exact ha.priv_map hq hr'
  · rcases hu.cases h₁ with ⟨rfl, rfl, rfl, -⟩ | ⟨-, ha₁⟩ <;>
      rcases hu.cases h₂ with ⟨-, hw, hh, -⟩ | ⟨-, ha₂⟩
    · exact hw.symm
    · exact absurd (Maps.intro ha₂) (hfree q)
    · exact absurd (hh ▸ Maps.intro ha₁) (hfree q)
    · exact ha.map_inj ha₁ ha₂
  · rcases hu.cases h₁ with ⟨rfl, rfl, rfl, -⟩ | ⟨-, ha₁⟩ <;>
      rcases (hu.maps_iff ha r h).mp h₂ with ⟨hr, hh⟩ | ⟨ha₂, -⟩
    · exact hr
    · exact absurd ha₂ (hfree r)
    · exact absurd (hh ▸ Maps.intro ha₁) (hfree q)
    · exact ha.excl ha₁ ha₂
  · rcases (hu.maps_iff ha q h).mp h₁ with ⟨rfl, rfl⟩ | ⟨ha₁, -⟩ <;>
      rcases (hu.maps_iff ha r h).mp h₂ with ⟨hr, hh⟩ | ⟨ha₂, -⟩
    · exact hr
    · exact absurd ha₂ (hfree r)
    · exact absurd (hh ▸ ha₁) (hfree q)
    · exact ha.solo_excl (hu.solo q hs) ha₁ ha₂
  · by_cases hg : h = g
    · subst hg
      rw [hu.refs_new, eq_comm, Finset.card_eq_one]
      refine ⟨p, ?_⟩
      ext q
      rw [mem_mappers, hu.maps_iff ha, hu.live_eq, Finset.mem_singleton]
      constructor
      · rintro ⟨-, ⟨rfl, -⟩ | ⟨hq, -⟩⟩
        · rfl
        · exact absurd hq (hfree q)
      · rintro rfl
        exact ⟨hp, Or.inl ⟨rfl, rfl⟩⟩
    · by_cases hf : h = f
      · subst hf
        have hset : b.mappers h = (a.mappers h).erase p := by
          ext q
          rw [Finset.mem_erase, mem_mappers, mem_mappers, hu.maps_iff ha, hu.live_eq]
          constructor
          · rintro ⟨hl, ⟨-, hh⟩ | ⟨hq, hne⟩⟩
            · exact absurd hh hg
            · exact ⟨fun hqp => hne ⟨hqp, rfl⟩, hl, hq⟩
          · rintro ⟨hne, hl, hq⟩
            exact ⟨hl, Or.inr ⟨hq, fun hh => hne hh.1⟩⟩
        have hmem : p ∈ a.mappers h := mem_mappers.mpr ⟨hp, hpf⟩
        have hcard := Finset.card_erase_add_one hmem
        have hold := hu.refs_old
        rw [ha.refs_eq, ← hcard, ← hset] at hold
        omega
      · rw [hu.refs_other h hf hg, ha.refs_eq]
        congr 1
        refine (mappers_congr (fun q _ => by rw [hu.live_eq]) fun q => ?_).symm
        rw [hu.maps_iff ha]
        simp [hf, hg]
  · rw [hu.used, ha.used_iff]
    simp only [hu.priv, hu.maps_iff ha]
    constructor
    · rintro (rfl | ⟨hb | hpr | ⟨q, hq⟩, hlast⟩)
      · exact Or.inr (Or.inr ⟨p, Or.inl ⟨rfl, rfl⟩⟩)
      · exact Or.inl hb
      · exact Or.inr (Or.inl hpr)
      · by_cases hqf : q = p ∧ h = f
        · -- the old frame stays in use only when another space maps it
          obtain ⟨rfl, rfl⟩ := hqf
          have hother : ¬ ∀ r, a.Maps r h → r = q := fun hall =>
            hlast ⟨rfl, (ha.refs_eq_one_iff hpf).mpr hall⟩
          push Not at hother
          obtain ⟨r, hr, hrq⟩ := hother
          exact Or.inr (Or.inr ⟨r, Or.inr ⟨hr, fun hh => hrq hh.1⟩⟩)
        · exact Or.inr (Or.inr ⟨q, Or.inr ⟨hq, hqf⟩⟩)
    · rintro (hb | ⟨q, s, hpr⟩ | ⟨q, ⟨-, rfl⟩ | ⟨hq, hne⟩⟩)
      · exact Or.inr ⟨Or.inl hb, fun hh => ha.boot_map hb (hh.1 ▸ hpf)⟩
      · exact Or.inr ⟨Or.inr (Or.inl ⟨q, s, hpr⟩), fun hh => ha.priv_map hpr (hh.1 ▸ hpf)⟩
      · exact Or.inl rfl
      · refine Or.inr ⟨Or.inr (Or.inr ⟨q, hq⟩), ?_⟩
        rintro ⟨rfl, hone⟩
        exact hne ⟨(ha.refs_eq_one_iff hpf).mp hone q hq, rfl⟩
  · rcases (hu.maps_iff ha q h).mp hq with ⟨-, rfl⟩ | ⟨hq', -⟩
    · exact hu.fresh (ha.used_of_boot hb)
    · exact ha.boot_map hb hq'

end Unshare

section Write

/-- Changing contents or the access of an unshared frame moves no frame. -/
theorem Sharing.of_maps_iff (ha : Sharing boot a) (hlive : b.live = a.live)
    (hsolo : ∀ q, b.solo q → a.solo q) (hpriv : ∀ q s, b.priv q s = a.priv q s)
    (hused : ∀ g, b.used g ↔ a.used g) (hrefs : ∀ g, b.refs g = a.refs g)
    (hmap : ∀ q w g y, b.map q w = some (g, y) → ∃ z, a.map q w = some (g, z))
    (hmap' : ∀ q w g y, a.map q w = some (g, y) → ∃ z, b.map q w = some (g, z))
    (hexcl : ∀ p v f q, b.map p v = some (f, true) → a.Maps q f → q = p) : Sharing boot b := by
  have hmaps : ∀ q g, b.Maps q g ↔ a.Maps q g := by
    intro q g
    constructor
    · rintro ⟨w, y, h⟩
      obtain ⟨z, hz⟩ := hmap q w g y h
      exact ⟨w, z, hz⟩
    · rintro ⟨w, y, h⟩
      obtain ⟨z, hz⟩ := hmap' q w g y h
      exact ⟨w, z, hz⟩
  refine
    { map_live := fun {q w g y} hq => ?_
      priv_live := fun hq => hlive ▸ ha.priv_live (by rwa [hpriv] at hq)
      priv_inj := fun h₁ h₂ => ha.priv_inj (by rwa [hpriv] at h₁) (by rwa [hpriv] at h₂)
      priv_map := fun hq hr => ha.priv_map (by rwa [hpriv] at hq) ((hmaps _ _).mp hr)
      map_inj := fun {q w w' g y y'} h₁ h₂ => ?_
      excl := fun {q w g r} h₁ h₂ => hexcl q w g r h₁ ((hmaps r g).mp h₂)
      solo_excl := fun hs h₁ h₂ =>
        ha.solo_excl (hsolo _ hs) ((hmaps _ _).mp h₁) ((hmaps _ _).mp h₂)
      refs_eq := fun g => ?_
      used_iff := fun g => by rw [hused, ha.used_iff]; simp only [hpriv, hmaps]
      boot_priv := fun hb hq => ha.boot_priv hb (by rwa [hpriv] at hq)
      boot_map := fun hb hq => ha.boot_map hb ((hmaps _ _).mp hq) }
  · obtain ⟨z, hz⟩ := hmap q w g y hq
    exact hlive ▸ ha.map_live hz
  · obtain ⟨z, hz⟩ := hmap q w g y h₁
    obtain ⟨z', hz'⟩ := hmap q w' g y' h₂
    exact ha.map_inj hz hz'
  · rw [hrefs, ha.refs_eq, mappers_congr (b := b) (fun q _ => by rw [hlive]) fun q => hmaps q g]

theorem Sharing.write (ha : Sharing boot a) (hw : Write a b p v f) : Sharing boot b := by
  refine ha.of_maps_iff hw.live_eq hw.solo hw.priv hw.used hw.refs ?_ ?_ ?_
  · exact fun q w g y h => ⟨y, by rwa [hw.map] at h⟩
  · exact fun q w g y h => ⟨y, by rwa [hw.map]⟩
  · exact fun q w g r h hr => ha.excl (by rwa [hw.map] at h) hr

theorem Sharing.setAccess (ha : Sharing boot a) (hs : SetAccess a b p v f x) : Sharing boot b := by
  obtain ⟨z, hv⟩ := hs.mapped
  have hcases : ∀ q w, (q, w) = (p, v) ∨ b.map q w = a.map q w := fun q w =>
    or_iff_not_imp_left.mpr (hs.map_other q w)
  refine ha.of_maps_iff hs.live_eq hs.solo hs.priv hs.used hs.refs ?_ ?_ ?_
  · intro q w g y h
    rcases hcases q w with hqw | hqw
    · obtain ⟨rfl, rfl⟩ := Prod.mk.inj hqw
      rw [hs.map_self] at h
      exact ⟨z, by rw [hv, (Prod.mk.inj (Option.some.inj h)).1]⟩
    · exact ⟨y, by rwa [hqw] at h⟩
  · intro q w g y h
    rcases hcases q w with hqw | hqw
    · obtain ⟨rfl, rfl⟩ := Prod.mk.inj hqw
      rw [hv] at h
      exact ⟨x, by rw [hs.map_self, (Prod.mk.inj (Option.some.inj h)).1]⟩
    · exact ⟨y, by rwa [hqw]⟩
  · intro q w g r h hr
    rcases hcases q w with hqw | hqw
    · obtain ⟨rfl, rfl⟩ := Prod.mk.inj hqw
      rw [hs.map_self] at h
      exact hs.only r ((Prod.mk.inj (Option.some.inj h)).1 ▸ hr)
    · exact ha.excl (by rwa [hqw] at h) hr

end Write

section Release

theorem Release.maps_iff (hr : Release a b p) (q : Pid) (f : Frame) :
    b.Maps q f ↔ a.Maps q f ∧ q ≠ p := by
  constructor
  · rintro ⟨v, x, h⟩
    have hqp : q ≠ p := by
      rintro rfl
      rw [hr.map_self] at h
      cases h
    exact ⟨⟨v, x, by rwa [hr.map_other q v hqp] at h⟩, hqp⟩
  · rintro ⟨⟨v, x, h⟩, hqp⟩
    exact ⟨v, x, by rwa [hr.map_other q v hqp]⟩

theorem Sharing.release (ha : Sharing boot a) (hr : Release a b p) : Sharing boot b := by
  classical
  have hmap : ∀ {q v f x}, b.map q v = some (f, x) → q ≠ p ∧ a.map q v = some (f, x) := by
    intro q v f x h
    have hqp : q ≠ p := ((hr.maps_iff q f).mp ⟨v, x, h⟩).2
    exact ⟨hqp, by rwa [hr.map_other q v hqp] at h⟩
  have hpriv : ∀ {q s f}, b.priv q s = some f → q ≠ p ∧ a.priv q s = some f := by
    intro q s f h
    have hqp : q ≠ p := by
      rintro rfl
      rw [hr.priv_self] at h
      cases h
    exact ⟨hqp, by rwa [hr.priv_other q s hqp] at h⟩
  have hmaps : ∀ {q f}, b.Maps q f → a.Maps q f := fun h => ((hr.maps_iff _ _).mp h).1
  refine
    { map_live := fun h => (hr.live _).mpr ⟨(hmap h).1, ha.map_live (hmap h).2⟩
      priv_live := fun h => (hr.live _).mpr ⟨(hpriv h).1, ha.priv_live (hpriv h).2⟩
      priv_inj := fun h₁ h₂ => ha.priv_inj (hpriv h₁).2 (hpriv h₂).2
      priv_map := fun h₁ h₂ => ha.priv_map (hpriv h₁).2 (hmaps h₂)
      map_inj := fun h₁ h₂ => ha.map_inj (hmap h₁).2 (hmap h₂).2
      excl := fun h₁ h₂ => ha.excl (hmap h₁).2 (hmaps h₂)
      solo_excl := fun hs h₁ h₂ => ha.solo_excl (hr.solo _ hs) (hmaps h₁) (hmaps h₂)
      refs_eq := fun f => ?_
      used_iff := fun f => ?_
      boot_priv := fun hb h => ha.boot_priv hb (hpriv h).2
      boot_map := fun hb h => ha.boot_map hb (hmaps h) }
  · by_cases hf : a.Maps p f
    · have hset : b.mappers f = (a.mappers f).erase p := by
        ext q
        rw [Finset.mem_erase, mem_mappers, mem_mappers, hr.maps_iff, hr.live]
        tauto
      have hcard := Finset.card_erase_add_one (mem_mappers.mpr ⟨hr.mem_live, hf⟩)
      have hold := hr.refs_mapped f hf
      rw [ha.refs_eq, ← hcard, ← hset] at hold
      omega
    · rw [hr.refs_other f hf, ha.refs_eq]
      congr 1
      have hne : ∀ q, a.Maps q f → q ≠ p := fun q hq hqp => hf (hqp ▸ hq)
      refine (mappers_congr (fun q hq => ?_) fun q => ?_).symm
      · rw [hr.live]
        exact ⟨fun hl => hl.2, fun hl => ⟨hne q hq, hl⟩⟩
      · rw [hr.maps_iff]
        exact ⟨fun hq => hq.1, fun hq => ⟨hq, hne q hq⟩⟩
  · rw [hr.used, ha.used_iff]
    simp only [hr.maps_iff]
    constructor
    · rintro ⟨hb | ⟨q, s, hq⟩ | ⟨q, hq⟩, hown, hlast⟩
      · exact Or.inl hb
      · have hqp : q ≠ p := fun hqp => hown s (hqp ▸ hq)
        exact Or.inr (Or.inl ⟨q, s, by rwa [hr.priv_other q s hqp]⟩)
      · by_cases hp : a.Maps p f
        · have hother : ¬ ∀ r, a.Maps r f → r = p := fun hall =>
            hlast ⟨hp, (ha.refs_eq_one_iff hp).mpr hall⟩
          push Not at hother
          obtain ⟨r, hrf, hrp⟩ := hother
          exact Or.inr (Or.inr ⟨r, hrf, hrp⟩)
        · exact Or.inr (Or.inr ⟨q, hq, fun hqp => hp (hqp ▸ hq)⟩)
    · rintro (hb | ⟨q, s, hq⟩ | ⟨q, hq, hqp⟩)
      · exact ⟨Or.inl hb, fun s => ha.boot_priv hb, fun h => ha.boot_map hb h.1⟩
      · obtain ⟨hqp, hq'⟩ := hpriv hq
        exact ⟨Or.inr (Or.inl ⟨q, s, hq'⟩), fun t ht => hqp (ha.priv_inj hq' ht).1,
          fun h => ha.priv_map hq' h.1⟩
      · exact ⟨Or.inr (Or.inr ⟨q, hq⟩), fun t ht => ha.priv_map ht hq,
          fun h => hqp ((ha.refs_eq_one_iff h.1).mp h.2 q hq)⟩

end Release

/-- Every page of every live space holds what `ref` says: the mapped pages in their
frames, and the pages not mapped yet are still zero. -/
structure Represents (zero : Data) (a : Frames Pid Page Slot Frame Data)
    (ref : Pid → Page → Data) : Prop where
  mapped : ∀ {p v f x}, a.map p v = some (f, x) → a.data f = ref p v
  unmapped : ∀ {p v}, p ∈ a.live → a.map p v = none → ref p v = zero

section Represents
variable {zero : Data} {ref : Pid → Page → Data}

theorem Represents.grow (hr : Represents zero a ref) (hg : Grow a b p) (hp : p ∈ a.live) :
    Represents zero b ref where
  mapped {q v f x} h := by
    rw [hg.map] at h
    rw [hg.data q f (Maps.intro h), hr.mapped h]
  unmapped {q v} hq h := by
    rw [hg.map] at h
    rcases (hg.live q).mp hq with rfl | hq'
    · exact hr.unmapped hp h
    · exact hr.unmapped hq' h

/-- A new space starts with zero pages. -/
theorem Represents.create [DecidableEq Pid] (h : Sharing boot a) (hr : Represents zero a ref)
    (hg : Grow a b p)
    (hp : p ∉ a.live) : Represents zero b (Function.update ref p fun _ => zero) where
  mapped {q v f x} hq := by
    rw [hg.map] at hq
    have hqp : q ≠ p := fun hqp => hp (hqp ▸ h.map_live hq)
    rw [hg.data q f (Maps.intro hq), hr.mapped hq, Function.update_of_ne hqp]
  unmapped {q v} hq hv := by
    by_cases hqp : q = p
    · rw [hqp, Function.update_self]
    · rw [hg.map] at hv
      rw [Function.update_of_ne hqp]
      exact hr.unmapped (((hg.live q).mp hq).resolve_left hqp) hv

theorem Represents.mapPage (hr : Represents zero a ref) (hm : MapPage a b p v f x zero) :
    Represents zero b ref where
  mapped {q w g y} h := by
    rcases hm.cases h with ha | ⟨rfl, rfl, rfl, -⟩
    · rw [hm.data_other q g (Maps.intro ha), hr.mapped ha]
    · rw [hm.data_self, hr.unmapped hm.mem_live hm.unmapped]
  unmapped {q w} hq h := by
    by_cases hqw : (q, w) = (p, v)
    · obtain ⟨rfl, rfl⟩ := Prod.mk.inj hqw
      rw [hm.map_self] at h
      cases h
    · exact hr.unmapped (hm.live_eq ▸ hq) (by rwa [hm.map_other q w hqw] at h)

theorem Represents.mapFresh (h : Sharing boot a) (hr : Represents zero a ref)
    (hm : MapFresh a b p v f x zero) : Represents zero b ref :=
  (hr.grow hm.grow hm.mem_live).mapPage (hm.mapPage h)

theorem Represents.reserve {P : Frame → Prop} (hr : Represents zero a ref)
    (hb : Reserve a b P) : Represents zero b ref where
  mapped {q v f x} h := by
    rw [hb.map] at h
    rw [hb.data q f (Maps.intro h), hr.mapped h]
  unmapped {q v} hq h := by
    rw [hb.map] at h
    rw [hb.live_eq] at hq
    exact hr.unmapped hq h

/-- **Sharing is a full copy**, as far as the spaces can tell. -/
theorem Represents.share [DecidableEq Pid] (hr : Represents zero a ref) (hs : Share a b p q) :
    Represents zero b (Function.update ref q (ref p)) where
  mapped {r w g y} h := by
    rcases hs.cases h with ⟨-, hq, ha⟩ | ⟨hpq, -, z, ha⟩
    · rw [hs.data r g (Maps.intro ha), hr.mapped ha, Function.update_of_ne hq]
    · rw [hs.data p g (Maps.intro ha), hr.mapped ha]
      by_cases hrq : r = q
      · rw [hrq, Function.update_self]
      · rw [Function.update_of_ne hrq, hpq.resolve_right hrq]
  unmapped {r w} hl h := by
    by_cases hrq : r = q
    · subst hrq
      rw [hs.map_copy, Option.map_eq_none_iff] at h
      rw [Function.update_self]
      exact hr.unmapped hs.mem_live h
    · rw [Function.update_of_ne hrq]
      refine hr.unmapped (((hs.live r).mp hl).resolve_left hrq) ?_
      by_cases hrp : r = p
      · subst hrp
        rwa [hs.map_self, Option.map_eq_none_iff] at h
      · rwa [hs.map_other r w hrp hrq] at h

/-- A copy on write changes no page. -/
theorem Represents.unshare (hr : Represents zero a ref) (hu : Unshare a b p v f g) :
    Represents zero b ref where
  mapped {q w h y} hq := by
    rcases hu.cases hq with ⟨rfl, rfl, rfl, -⟩ | ⟨-, ha⟩
    · obtain ⟨x, hx⟩ := hu.mapped
      rw [hu.data_new, hr.mapped hx]
    · rw [hu.data_other q h (Maps.intro ha), hr.mapped ha]
  unmapped {q w} hl h := by
    by_cases hqw : (q, w) = (p, v)
    · obtain ⟨rfl, rfl⟩ := Prod.mk.inj hqw
      rw [hu.map_self] at h
      cases h
    · exact hr.unmapped (hu.live_eq ▸ hl) (by rwa [hu.map_other q w hqw] at h)

theorem Represents.setAccess (hr : Represents zero a ref) (hs : SetAccess a b p v f x) :
    Represents zero b ref where
  mapped {q w g y} h := by
    by_cases hqw : (q, w) = (p, v)
    · obtain ⟨rfl, rfl⟩ := Prod.mk.inj hqw
      obtain ⟨z, hz⟩ := hs.mapped
      rw [hs.map_self] at h
      obtain ⟨rfl, -⟩ := Prod.mk.inj (Option.some.inj h)
      rw [hs.data q f (Maps.intro hz), hr.mapped hz]
    · rw [hs.map_other q w hqw] at h
      rw [hs.data q g (Maps.intro h), hr.mapped h]
  unmapped {q w} hl h := by
    by_cases hqw : (q, w) = (p, v)
    · obtain ⟨rfl, rfl⟩ := Prod.mk.inj hqw
      rw [hs.map_self] at h
      cases h
    · exact hr.unmapped (hs.live_eq ▸ hl) (by rwa [hs.map_other q w hqw] at h)

/-- A write to an unshared frame is a write to one page of one space. -/
theorem Represents.write [DecidableEq Pid] [DecidableEq Page] (h : Sharing boot a)
    (hr : Represents zero a ref) (hw : Write a b p v f) :
    Represents zero b (Function.update ref p (Function.update (ref p) v (b.data f))) where
  mapped {q w g y} hq := by
    rw [hw.map] at hq
    obtain ⟨x, hx⟩ := hw.mapped
    by_cases hg : g = f
    · subst hg
      obtain rfl := hw.only q (Maps.intro hq)
      rw [Function.update_self, h.map_inj hq hx, Function.update_self]
    · rw [hw.data_other q g (Maps.intro hq) hg, hr.mapped hq]
      by_cases hqp : q = p
      · subst hqp
        have hwv : w ≠ v := by
          rintro rfl
          rw [hx] at hq
          exact hg (Prod.mk.inj (Option.some.inj hq)).1.symm
        rw [Function.update_self, Function.update_of_ne hwv]
      · rw [Function.update_of_ne hqp]
  unmapped {q w} hl hq := by
    rw [hw.map] at hq
    rw [hw.live_eq] at hl
    obtain ⟨x, hx⟩ := hw.mapped
    by_cases hqp : q = p
    · subst hqp
      have hwv : w ≠ v := by
        rintro rfl
        rw [hx] at hq
        cases hq
      rw [Function.update_self, Function.update_of_ne hwv]
      exact hr.unmapped hl hq
    · rw [Function.update_of_ne hqp]
      exact hr.unmapped hl hq

theorem Represents.release (hr : Represents zero a ref) (hd : Release a b p) :
    Represents zero b ref where
  mapped {q v f x} h := by
    have hqp : q ≠ p := ((hd.maps_iff q f).mp (Maps.intro h)).2
    rw [hd.map_other q v hqp] at h
    rw [hd.data q f (Maps.intro h), hr.mapped h]
  unmapped {q v} hl h := by
    obtain ⟨hqp, hl'⟩ := (hd.live q).mp hl
    exact hr.unmapped hl' (by rwa [hd.map_other q v hqp] at h)

end Represents

end Frames
end Efiks.Lib

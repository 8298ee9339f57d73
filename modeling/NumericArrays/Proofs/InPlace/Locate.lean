import NumericArrays.Proofs.InPlace.Words
import NumericArrays.Proofs.Shape.Grid

/-! Locating elements in words: every position has one place on the grid, and what is not found is a fault
    that names the axis. -/
namespace NumericArrays.InPlace

open Shape (FirstZero)

variable {s : Shape} {c : List Nat} {n p : Nat}

/-- Locating in words comes to what locating in numbers comes to. -/
theorem locate_iff (hs : s.count? = some n) (x : Except Fault (Option Nat)) :
    locate s c = x.mapError .fault ↔ s.locate c = x := by
  have hcount := Shape.count_of_count? hs
  subst hcount
  rw [locate_eq hs]
  cases s.locate c <;> cases x <;> simp [Except.mapError]

theorem lt_of_locate (hs : s.count? = some n) (h : locate s c = .ok (some p)) : p < n := by
  have hfound := Shape.found hs c
  rw [(locate_iff hs (.ok (some p))).mp h] at hfound
  cases hfound with
  | inside _ _ hlt => exact hlt

theorem locate_of_firstZero (hs : s.count? = some n) {axis : Nat} (h : FirstZero c axis) :
    locate s c = .error (.fault (.indexBelowOne axis)) :=
  (locate_iff hs (.error (.indexBelowOne axis))).mpr (Shape.locate_of_firstZero hs h)

theorem locate_of_holds (hs : s.count? = some n) (hnot : 0 ∉ c) (h : (s.frame n c).Holds c) :
    locate s c = .ok (some (s.position c)) :=
  (locate_iff hs (.ok (some (s.position c)))).mpr (Shape.locate_of_holds hs hnot h)

theorem locate_of_not_holds (hs : s.count? = some n) (hnot : 0 ∉ c) (h : ¬ (s.frame n c).Holds c) :
    locate s c = .ok none :=
  (locate_iff hs (.ok none)).mpr (Shape.locate_of_not_holds hs hnot h)

/-- What is not found has no zero, and a coordinate past its extent. -/
theorem locate_eq_none_iff (hs : s.count? = some n) :
    locate s c = .ok none ↔ 0 ∉ c ∧ ¬ (s.frame n c).Holds c := by
  constructor
  · intro h
    have hfound := Shape.found hs c
    rw [(locate_iff hs (.ok none)).mp h] at hfound
    cases hfound with
    | outside hnot hout => exact ⟨hnot, hout⟩
  · rintro ⟨hnot, hout⟩
    exact locate_of_not_holds hs hnot hout

/-! ### The grid -/

theorem grid_frame (hl : 2 ≤ s.length) (h : s.Grid c) : 0 ∉ c ∧ (s.frame n c).Holds c := by
  obtain ⟨hlen, hholds⟩ := Shape.grid_iff.mp h
  have hframe : s.frame n c = s := if_neg (by omega)
  rw [hframe]
  exact ⟨Shape.zero_not_mem_iff.mpr fun axis => (hholds axis).1, hholds⟩

/-- On the grid the position is found by going along the strides. -/
theorem locate_of_grid (hl : 2 ≤ s.length) (hs : s.count? = some n) (h : s.Grid c) :
    locate s c = .ok (some (Shape.dot c s.strides)) := by
  have hlen := (Shape.grid_iff.mp h).1
  obtain ⟨hnot, hin⟩ := grid_frame (n := n) hl h
  rw [locate_of_holds hs hnot hin, Shape.strides_eq_stridesFrom hs, Shape.dot_stridesFrom hlen.le,
    one_mul, Shape.position_of_length_ne_one (by omega)]

theorem locate_placeOf (hl : 2 ≤ s.length) (hs : s.count? = some n) (hp : p < n) :
    locate s (s.placeOf p) = .ok (some p) := by
  have hp' : p < s.prod := by rwa [← Shape.prod_of_count? hs]
  have hgrid := Shape.grid_placeOf hp'
  have hlen := (Shape.grid_iff.mp hgrid).1
  obtain ⟨hnot, hin⟩ := grid_frame (n := n) hl hgrid
  rw [locate_of_holds hs hnot hin, Shape.position_of_length_ne_one (by omega), Shape.offset_placeOf hp']

theorem grid_unique (hl : 2 ≤ s.length) (hs : s.count? = some n) {e : List Nat} (hc : s.Grid c)
    (he : s.Grid e) (h : locate s c = locate s e) : c = e := by
  have hlc := (Shape.grid_iff.mp hc).1
  have hle := (Shape.grid_iff.mp he).1
  obtain ⟨hnot, hin⟩ := grid_frame (n := n) hl hc
  obtain ⟨hnot', hin'⟩ := grid_frame (n := n) hl he
  rw [locate_of_holds hs hnot hin, locate_of_holds hs hnot' hin',
    Shape.position_of_length_ne_one (by omega), Shape.position_of_length_ne_one (by omega)] at h
  have hoffset := Option.some.inj (Except.ok.inj h)
  apply hc.eq_of_same he
  exact (Shape.offset_eq_iff (Shape.grid_iff.mp hc).2 (Shape.grid_iff.mp he).2).mp hoffset

theorem existsUnique_grid (hl : 2 ≤ s.length) (hs : s.count? = some n) {p : Nat} (hp : p < n) :
    ∃! c, s.Grid c ∧ locate s c = .ok (some p) := by
  have hgrid := Shape.grid_placeOf (s := s) (p := p) (by rwa [← Shape.prod_of_count? hs])
  have hplace := locate_placeOf hl hs hp
  refine ⟨s.placeOf p, ⟨hgrid, hplace⟩, ?_⟩
  rintro e ⟨he, hlocate⟩
  exact grid_unique hl hs he hgrid (hlocate.trans hplace.symm)

/-! ### Outcomes -/

theorem locate_eq_zero_iff (hs : s.count? = some n) {axis : Nat} :
    locate s c = .error (.fault (.indexBelowOne axis)) ↔ FirstZero c axis := by
  constructor
  · intro h
    have hfound := Shape.found hs c
    rw [(locate_iff hs (.error (.indexBelowOne axis))).mp h] at hfound
    cases hfound with
    | zero hi => exact hi
  · exact locate_of_firstZero hs

/-- There are three outcomes: a zero is found, nothing is found, or a position. -/
theorem locate_outcome (hs : s.count? = some n) (c : List Nat) :
    (∃ axis, locate s c = .error (.fault (.indexBelowOne axis))) ∨
      locate s c = .ok none ∨ ∃ p < n, locate s c = .ok (some p) := by
  cases hl : s.locate c with
  | error f =>
    have hfound := Shape.found hs c
    rw [hl] at hfound
    cases hfound with
    | @zero axis hi => exact .inl ⟨axis, locate_of_firstZero hs hi⟩
  | ok r =>
    have hlocate := (locate_iff hs (.ok r)).mpr hl
    cases r with
    | none => exact .inr (.inl hlocate)
    | some p => exact .inr (.inr ⟨p, lt_of_locate hs hlocate, hlocate⟩)

/-! ### Reading -/

theorem get_of_locate_none {a : NDArray} (hs : a.dims.count? = some n) (h : locate a.dims c = .ok none) :
    ∃ axis, a.dims.FirstPast n c axis ∧
      a.get c = .error (.indexOutOfRange (c.getD axis 1) axis ((a.dims.frame n c).extent axis)) := by
  obtain ⟨hnot, hout⟩ := (locate_eq_none_iff hs).mp h
  have hhas := mt (Shape.has_iff_frame hs).mp hout
  obtain ⟨axis, hfirst, hfault⟩ := Shape.outOfRange_eq hs (Shape.zero_not_mem_iff.mp hnot) hhas
  refine ⟨axis, hfirst, ?_⟩
  rw [NDArray.get, Shape.find, (locate_iff hs (.ok none)).mp h, ← hfault]
  rfl

/-- Reading never raises the fault that names no coordinate. -/
theorem get_ne_fallback {a : NDArray} (hs : a.dims.count? = some n) (c : List Nat) :
    a.get c ≠ .error (.indexOutOfRange 0 0 0) := by
  intro h
  have hfound := Shape.found hs c
  cases hl : a.dims.locate c with
  | error f =>
    rw [hl] at hfound
    cases hfound
    rw [NDArray.get, Shape.find, hl] at h
    cases h
  | ok r =>
    cases r with
    | some p =>
      rw [NDArray.get, Shape.find, hl] at h
      cases h
    | none =>
      obtain ⟨axis, hfirst, hfault⟩ := get_of_locate_none hs ((locate_iff hs (.ok none)).mpr hl)
      rw [hfault] at h
      have hcoord : c.getD axis 1 = 0 := (Fault.indexOutOfRange.inj (Except.error.inj h)).1
      have := hfirst.1
      omega

/-! ### All of it -/

structure Located (s : Shape) (n : Nat) : Prop where
  /-- Strides are words. -/
  strides : strides 1 s = .ok s.strides
  /-- Coordinates on the grid are found by going along the strides. -/
  grid : ∀ c, s.Grid c → locate s c = .ok (some (Shape.dot c s.strides)) ∧ Shape.dot c s.strides < n
  /-- Each position belongs to one place on the grid. -/
  place : ∀ p < n, ∃! c, s.Grid c ∧ locate s c = .ok (some p)
  /-- Ones at the end are not seen unless they tell a single coordinate from others. -/
  ones : ∀ (c : List Nat) (m : Nat), c.length ≠ 1 → c.length + m ≠ 1 →
    locate s (c ++ List.replicate m 1) = locate s c
  /-- A single coordinate counts through the whole array. -/
  single : ∀ p < n, locate s [p + 1] = .ok (some p)
  /-- The fault names the first coordinate that is zero. -/
  zero : ∀ c axis, locate s c = .error (.fault (.indexBelowOne axis)) ↔ FirstZero c axis
  past : ∀ c, locate s c = .ok none ↔ 0 ∉ c ∧ ∃ axis, (s.frame n c).extent axis < c.getD axis 1
  /-- There is no other outcome: no word is passed, whatever the coordinates are. -/
  outcome : ∀ c, (∃ axis, locate s c = .error (.fault (.indexBelowOne axis))) ∨
    locate s c = .ok none ∨ ∃ p < n, locate s c = .ok (some p)
  /-- Reading past the end names the first axis on which that happens. -/
  read : ∀ a : NDArray, a.dims = s → ∀ c, locate s c = .ok none → ∃ axis, s.FirstPast n c axis ∧
    a.get c = .error (.indexOutOfRange (c.getD axis 1) axis ((s.frame n c).extent axis))
  read_named : ∀ a : NDArray, a.dims = s → ∀ c, a.get c ≠ .error (.indexOutOfRange 0 0 0)

/-- In a shape that can be counted, coordinates on the grid and positions determine each other, and all
    other coordinates have the fault or the outcome that belongs to them. -/
theorem locate_bijective (hl : 2 ≤ s.length) (hs : s.count? = some n) : Located s n where
  strides := by rw [Shape.strides_eq_stridesFrom hs, strides_of_countFrom? hs]
  grid c hc := by
    have hlocate := locate_of_grid hl hs hc
    exact ⟨hlocate, lt_of_locate hs hlocate⟩
  place p hp := existsUnique_grid hl hs hp
  ones c m hc hm := by
    have hcount := Shape.count_of_count? hs
    subst hcount
    rw [locate_eq hs, locate_eq hs, Shape.locate_append_ones hs hc hm]
  single p hp := by
    have hin : (s.frame n [p + 1]).Holds [p + 1] :=
      (Shape.has_iff_frame hs).mp ⟨Nat.le_add_left 1 p, by rwa [← Shape.prod_of_count? hs]⟩
    exact locate_of_holds hs (by simp) hin
  zero c axis := locate_eq_zero_iff hs
  past c := by
    rw [locate_eq_none_iff hs]
    exact and_congr_right Shape.not_holds_iff
  outcome := locate_outcome hs
  read a ha c h := by
    subst ha
    exact get_of_locate_none hs h
  read_named a ha c := by
    subst ha
    exact get_ne_fallback hs c

/-- Among six elements the last one is at the far corner; where there are none nothing is found, although
    one extent is as long as can be counted. -/
theorem locate_bijective_corner :
    2 ≤ List.length [2, 3] ∧ Shape.count? [2, 3] = some 6 ∧ Located [2, 3] 6 ∧
      locate [2, 3] [2, 3] = .ok (some 5) ∧
      2 ≤ List.length [maxCount, 0] ∧ Shape.count? [maxCount, 0] = some 0 ∧ Located [maxCount, 0] 0 ∧
      locate [maxCount, 0] [1] = .ok none := by
  have hsix := locate_bijective (s := [2, 3]) (n := 6) (by decide) (by decide)
  have hnone := locate_bijective (s := [maxCount, 0]) (n := 0) (by decide) (by decide)
  refine ⟨by decide, by decide, hsix, ?_, by decide, by decide, hnone, ?_⟩
  · exact (hsix.grid [2, 3] (Shape.grid_iff.mpr ⟨rfl, by decide⟩)).1
  · exact (hnone.past [1]).mpr ⟨by decide, 0, by decide⟩

end NumericArrays.InPlace

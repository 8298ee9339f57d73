import NumericArrays.Proofs.InPlace.Outcome
import NumericArrays.Proofs.Sheet.Basic

/-! Growing in place: what stops it, what stays where it was, and how the copy goes through the array. -/
namespace NumericArrays

namespace NDArray

variable {a b : NDArray} {dims : Shape} {count : Nat}

/-! ### What stops it -/

/-- Some axis of an array that is not empty would become shorter. -/
def ShrinksTo (a : NDArray) (dims : Shape) : Prop :=
  a.size ≠ 0 ∧ ∃ axis, dims.extent axis < a.dims.extent axis

/-- Length of the buffers that growing to a shape of `count` elements allocates. There are none where a
    vector stays within its capacity. -/
def bufferFor (a : NDArray) (dims : Shape) (count : Nat) : Option Nat :=
  if a.size = 0 then some count
  else if a.dims.isVector ∧ dims.isVector ∧ count ≤ a.capacity then none
  else some (min (growthFactor * count) maxCount)

def Refused (a : NDArray) (dims : Shape) (count : Nat) : Prop :=
  ∃ n, a.bufferFor dims count = some n ∧ isAllocatable n = false

theorem exceeds_iff : a.dims.exceeds dims = true ↔ ∃ axis, dims.extent axis < a.dims.extent axis := by
  rw [← Bool.not_eq_false, Shape.exceeds_eq_false_iff]
  simp only [not_forall, not_le]

theorem resize_of_shrinksTo (hc : dims.normalize.count? = some count) (h : a.ShrinksTo dims.normalize) :
    a.resize dims = .error (.unsupported .shrinking) :=
  resize_of_exceeds hc h.1 (exceeds_iff.mpr h.2)

/-- Unless an axis becomes shorter nothing but the memory decides. -/
theorem resize_of_not_shrinksTo (hc : dims.normalize.count? = some count)
    (h : ¬ a.ShrinksTo dims.normalize) :
    (a.Refused dims.normalize count → a.resize dims = .error (.outOfMemory dims.normalize)) ∧
      (¬ a.Refused dims.normalize count → ∃ b, a.resize dims = .ok b) := by
  unfold Refused bufferFor
  by_cases h0 : a.size = 0
  · rw [resize_of_empty hc h0, if_pos h0]
    cases hm : isAllocatable count <;> simp [hm]
  · have hx : a.dims.exceeds dims.normalize = false := by
      rw [← Bool.not_eq_true, exceeds_iff]
      exact fun hx => h ⟨h0, hx⟩
    rw [if_neg h0]
    by_cases hr : a.dims.isVector = true ∧ dims.normalize.isVector = true ∧ count ≤ a.capacity
    · rw [resize_of_room hc h0 hx hr.1 hr.2.1 hr.2.2, if_pos hr]
      simp
    · rw [resize_of_move hc h0 hx hr, if_neg hr]
      cases hm : isAllocatable (min (growthFactor * count) maxCount) <;> simp [hm]

/-! ### What stays -/

/-- An array of another shape with the same elements at the same coordinates and zeros elsewhere. -/
structure Resized (a : NDArray) (dims : Shape) (b : NDArray) : Prop where
  wellFormed : b.WellFormed
  dims_eq : b.dims = dims
  kind_eq : b.kind = a.kind
  isComplex_eq : b.isComplex = a.isComplex
  /-- A single coordinate counts through the whole array, and so it may lead elsewhere. -/
  kept : ∀ c, c.length ≠ 1 → a.dims.Has c → b.dims.Has c ∧ b.get c = a.get c
  zero : ∀ c, c.length ≠ 1 → b.dims.Has c → ¬ a.dims.Has c →
    ∃ x, b.get c = .ok x ∧ x.toCartesian = ⟨0, 0⟩

theorem toCartesian_shaped_zero (kind : Storage) (isComplex : Bool) :
    (Number.shaped kind isComplex ⟨0, 0⟩).toCartesian = ⟨0, 0⟩ := by
  cases kind <;> cases isComplex <;> decide

theorem Grown.extent_le (h : Grown a dims count b) (ha : a.WellFormed) {c : List Nat}
    (hc : a.dims.Holds c) (axis : Nat) : a.dims.extent axis ≤ dims.extent axis := by
  cases h with
  | fresh h0 hm =>
    have := hc.prod_pos
    rw [← ha.size_eq_prod] at this
    omega
  | room h0 hx hv hv' hcap => exact hx axis
  | move h0 hx length hlen hm => exact hx axis

/-- What is read from a grown array by coordinates along its axes. -/
theorem Grown.get_of_has (h : Grown a dims count b) (ha : a.WellFormed) (hb : b.WellFormed)
    (hc : dims.count? = some count) {c : List Nat} (hl : c.length ≠ 1) (hhas : b.dims.Has c) :
    b.get c = .ok (Number.shaped a.kind a.isComplex
      (if a.dims.covers (c.map (· - 1)) = true then a.cartesian (a.dims.offset (c.map (· - 1)))
        else ⟨0, 0⟩)) := by
  have hdims := h.dims_eq
  have hcov := Shape.covers_of_has hl hhas
  rw [hdims] at hcov
  rw [NDArray.get_of_has hb hhas, number_eq_shaped, h.kind_eq, h.isComplex_eq,
    Shape.position_of_length_ne_one hl, hdims, h.cartesian_offset ha hc hcov]

theorem Grown.has (h : Grown a dims count b) (ha : a.WellFormed) {c : List Nat} (hl : c.length ≠ 1)
    (hhas : a.dims.Has c) : b.dims.Has c := by
  have hholds := (Shape.holds_iff_has hl).mp hhas
  rw [h.dims_eq]
  exact (Shape.holds_iff_has hl).mpr (hholds.mono (h.extent_le ha hholds))

theorem resized_of_resize (ha : a.WellFormed) (hd : ∀ d ∈ dims, d ≤ maxCount)
    (h : a.resize dims = .ok b) : Resized a dims.normalize b := by
  obtain ⟨count, hc, hg⟩ := grown_of_resize h
  have hb := resize_wellFormed ha hd h
  constructor
  · exact hb
  · exact hg.dims_eq
  · exact hg.kind_eq
  · exact hg.isComplex_eq
  · intro c hl hhas
    have hgrown := hg.has ha hl hhas
    refine ⟨hgrown, ?_⟩
    rw [hg.get_of_has ha hb hc hl hgrown, if_pos (Shape.covers_of_has hl hhas), get_of_has ha hhas,
      number_eq_shaped, Shape.position_of_length_ne_one hl]
  · intro c hl hhas hnot
    have hpos := ((Shape.has_of_length_ne_one hl).mp hhas)
    have hout : ¬ a.dims.covers (c.map (· - 1)) = true := by
      intro hcov
      apply hnot
      rw [Shape.holds_iff_has hl, Shape.holds_iff_covers]
      exact ⟨fun axis => (hpos axis).1, hcov⟩
    refine ⟨_, hg.get_of_has ha hb hc hl hhas, ?_⟩
    rw [if_neg hout]
    exact toCartesian_shaped_zero a.kind a.isComplex

end NDArray

namespace InPlace

open Copying NDArray

variable {a : NDArray}

/-! ### How the copy goes -/

def Copying.after (source : Array Float) (old new : Shape) (length k : Nat) : Except Stop Copying :=
  let rank := Shape.commonRank old new
  turns source (old.pad rank) (Shape.stridesFrom 1 (new.pad rank)) k
    ⟨List.replicate rank 0, 0, .replicate length 0⟩

/-- The copy takes a turn for each run along the first axis. It finds the counter at the coordinates of
    the element that is next, and leaves it at zero when no element is. -/
structure Walks (source : Array Float) (old new : Shape) (length : Nat) : Prop where
  whole : old.count / old.extent 0 * old.extent 0 = old.count
  turn : ∀ k < old.count / old.extent 0, k * old.extent 0 < old.count ∧ ∃ target,
    after source old new length k =
      .ok ⟨(old.pad (Shape.commonRank old new)).coordsOf (k * old.extent 0), k * old.extent 0, target⟩
  last : ∃ target,
    after source old new length (old.count / old.extent 0) =
        .ok ⟨List.replicate (Shape.commonRank old new) 0, old.count, target⟩ ∧
      copyInto source old new (.replicate length 0) = .ok target

theorem Fits.walks {source : Array Float} {old new : Shape} {length : Nat}
    (h : Fits old new source length) : Walks source old new length where
  whole := Nat.div_mul_cancel h.rows_dvd
  turn k hk := by
    have hlt : k * old.extent 0 < old.count := by
      calc k * old.extent 0 < old.count / old.extent 0 * old.extent 0 :=
            Nat.mul_lt_mul_of_pos_right hk h.extent_pos
        _ = old.count := Nat.div_mul_cancel h.rows_dvd
    obtain ⟨target, hturns, -⟩ := h.turns_eq rfl hlt.le
    exact ⟨hlt, target, hturns⟩
  last := ⟨_, h.turns_relocate rfl, h.copyInto_eq⟩

/-! ### All of it -/

/-- Growing fails if the new shape cannot be counted, else if an axis becomes shorter, else if memory is
    refused, and otherwise succeeds; if it fails nothing has changed. Elements keep their coordinates,
    whether they are copied or stay where they are, and new ones are zero. The copy goes through all
    elements and stops. -/
theorem resize_keeps (ha : a.WellFormed) (dims : Shape) (hd : ∀ d ∈ dims, d ≤ maxCount) :
    (dims.normalize.count? = none →
      (resize dims).run (ofArray a) = .error (.fault (.outOfMemory dims.normalize)) (ofArray a)) ∧
    ∀ count, dims.normalize.count? = some count →
      (a.ShrinksTo dims.normalize →
        (resize dims).run (ofArray a) = .error (.fault (.unsupported .shrinking)) (ofArray a)) ∧
      (¬ a.ShrinksTo dims.normalize → a.Refused dims.normalize count →
        (resize dims).run (ofArray a) = .error (.fault (.outOfMemory dims.normalize)) (ofArray a)) ∧
      (¬ a.ShrinksTo dims.normalize → ¬ a.Refused dims.normalize count →
        ∃ b, (resize dims).run (ofArray a) = .ok () (ofArray b) ∧ Resized a dims.normalize b) ∧
      (a.size ≠ 0 → ¬ a.ShrinksTo dims.normalize → ∀ source : Array Float, a.size ≤ source.size →
        ∀ length, count ≤ length → Walks source a.dims dims.normalize length) := by
  rw [run_resize ha]
  refine ⟨fun hnone => ?_, fun count hc => ⟨fun hs => ?_, fun hs hr => ?_, fun hs hr => ?_, ?_⟩⟩
  · rw [resize_of_count?_eq_none hnone]
    rfl
  · rw [resize_of_shrinksTo hc hs]
    rfl
  · rw [(resize_of_not_shrinksTo hc hs).1 hr]
    rfl
  · obtain ⟨b, hb⟩ := (resize_of_not_shrinksTo hc hs).2 hr
    refine ⟨b, ?_, resized_of_resize ha hd hb⟩
    rw [hb]
    rfl
  · intro h0 hs source hsource length hlength
    have hcount := Shape.count_of_count? hc
    have hle : ∀ axis, a.dims.extent axis ≤ dims.normalize.extent axis := by
      intro axis
      by_contra hlt
      exact hs ⟨h0, axis, by omega⟩
    exact Fits.walks ⟨hle, ha.two_axes, ha.counted, by rw [hcount, hc], h0, hsource, by rwa [hcount]⟩

/-- A square grows to pages and becomes no row, and its memory has an end. -/
theorem resize_keeps_square :
    square.WellFormed ∧
      (resize [2, maxCount]).run (ofArray square) =
        .error (.fault (.outOfMemory [2, maxCount])) (ofArray square) ∧
      (resize [1, 4]).run (ofArray square) = .error (.fault (.unsupported .shrinking)) (ofArray square) ∧
      (resize [2, 0x2000000000000000]).run (ofArray square) =
        .error (.fault (.outOfMemory [2, 0x2000000000000000])) (ofArray square) ∧
      (∃ b, (resize [3, 2, 2]).run (ofArray square) = .ok () (ofArray b) ∧
        b.get [2, 2] = .ok (.real 4) ∧ ∃ x, b.get [3, 2, 2] = .ok x ∧ x.toCartesian = ⟨0, 0⟩) ∧
      Walks square.real [2, 2] [3, 2, 2] 24 := by
  obtain ⟨huncounted, -⟩ := resize_keeps square_wellFormed [2, maxCount] (by decide)
  obtain ⟨-, hrow⟩ := resize_keeps square_wellFormed [1, 4] (by decide)
  obtain ⟨-, hlong⟩ := resize_keeps square_wellFormed [2, 0x2000000000000000] (by decide)
  obtain ⟨-, hpages⟩ := resize_keeps square_wellFormed [3, 2, 2] (by decide)
  obtain ⟨-, hrefused, -⟩ := hlong 0x4000000000000000 (by decide)
  obtain ⟨-, -, hgrown, hwalks⟩ := hpages 12 (by decide)
  have hlongs : ¬ square.ShrinksTo [2, 0x2000000000000000] :=
    fun h => absurd (exceeds_iff.mpr h.2) (by decide)
  have hpagess : ¬ square.ShrinksTo [3, 2, 2] := fun h => absurd (exceeds_iff.mpr h.2) (by decide)
  refine ⟨square_wellFormed, huncounted (by decide), ?_, ?_, ?_, ?_⟩
  · exact (hrow 4 (by decide)).1 ⟨by decide, 0, by decide⟩
  · exact hrefused hlongs ⟨0x8000000000000000, by decide, by decide⟩
  · obtain ⟨b, hrun, hb⟩ := hgrown hpagess (by
      rintro ⟨n, hn, hm⟩
      cases hn
      exact absurd hm (by decide))
    have hcorner := hb.kept [2, 2] (by decide) (by decide)
    have hnew : b.dims.Has [3, 2, 2] := by
      rw [hb.dims_eq]
      decide
    exact ⟨b, hrun, hcorner.2, hb.zero [3, 2, 2] (by decide) hnew (by decide)⟩
  · exact hwalks (by decide) hpagess square.real (by decide) 24 (by decide)

end InPlace
end NumericArrays

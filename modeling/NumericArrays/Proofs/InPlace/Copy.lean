import NumericArrays.Proofs.InPlace.Runs
import NumericArrays.Proofs.NDArray.WellFormed

/-! Copying run by run stays within both buffers, ends, and moves every element to its coordinates. -/
namespace NumericArrays.InPlace

variable {old new s t : Shape} {source target : Array Float} {p q d e first start rows : Nat}

/-! ### Where an element comes from -/

/-- Position in the old array of the element at a position of the new one. -/
def origin (old new : Shape) (p : Nat) : Option Nat :=
  if p < new.prod ∧ old.covers (new.coordsOf p) = true then some (old.offset (new.coordsOf p))
  else none

theorem origin_eq_some_iff (hle : ∀ axis, old.extent axis ≤ new.extent axis) :
    origin old new p = some q ↔ q < old.prod ∧ p = new.offset (old.coordsOf q) := by
  unfold origin
  constructor
  · intro h
    split at h
    · rename_i hin
      cases h
      refine ⟨Shape.offset_lt hin.2, ?_⟩
      rw [Shape.offset_congr (Shape.getD_coordsOf_offset hin.2), Shape.offset_coordsOf hin.1]
    · cases h
  · rintro ⟨hq, rfl⟩
    have hold := Shape.covers_coordsOf hq
    have hnew := Shape.covers_mono hle hold
    have hback := Shape.getD_coordsOf_offset hnew
    rw [if_pos ⟨Shape.offset_lt hnew, by rwa [Shape.covers_congr hback]⟩,
      Shape.offset_congr hback, Shape.offset_coordsOf hq]

/-- Ones at the end of the shapes change nothing. -/
theorem origin_pad (hle : ∀ axis, old.extent axis ≤ new.extent axis) (rank : Nat) :
    origin (old.pad rank) (new.pad rank) p = origin old new p := by
  have hle' : ∀ axis, (old.pad rank).extent axis ≤ (new.pad rank).extent axis := fun axis => by
    rw [Shape.extent_pad, Shape.extent_pad]
    exact hle axis
  have hiff : ∀ q, origin (old.pad rank) (new.pad rank) p = some q ↔
      origin old new p = some q := by
    intro q
    rw [origin_eq_some_iff hle', origin_eq_some_iff hle, Shape.prod_pad]
    refine and_congr_right fun hq => ?_
    have hoff : (new.pad rank).offset ((old.pad rank).coordsOf q) =
        new.offset (old.coordsOf q) := by
      rw [Shape.offset_congr_extent (Shape.extent_pad new rank)]
      refine Shape.offset_congr fun axis => ?_
      rw [Shape.getD_coordsOf_congr (Shape.extent_pad old rank) (by rwa [Shape.prod_pad])]
    rw [hoff]
  exact Option.ext hiff

/-! ### One run -/

theorem foldl_run (source : Array Float) (first rows : Nat) (h : start + rows ≤ target.size) :
    ((List.range rows).foldl
        (fun t i => t.setIfInBounds (start + i) (source.getD (first + i) 0)) target).size =
      target.size ∧
    ∀ p, ((List.range rows).foldl
        (fun t i => t.setIfInBounds (start + i) (source.getD (first + i) 0)) target).getD p 0 =
      if start ≤ p ∧ p < start + rows then source.getD (first + (p - start)) 0
      else target.getD p 0 := by
  induction rows with
  | zero =>
    refine ⟨rfl, fun p => ?_⟩
    rw [if_neg (by omega)]
    rfl
  | succ rows ih =>
    obtain ⟨hsize, hget⟩ := ih (by omega)
    rw [List.range_succ, List.foldl_append, List.foldl_cons, List.foldl_nil]
    constructor
    · rw [Array.size_setIfInBounds, hsize]
    · intro p
      rw [getD_setIfInBounds (by omega), hget]
      by_cases hp : p = start + rows
      · have hoff : first + (p - start) = first + rows := by omega
        rw [if_pos hp, if_pos (by omega), hoff]
      · rw [if_neg hp]
        congr 1
        rw [eq_iff_iff]
        omega

theorem copyRun_eq (ht : start + rows ≤ target.size) (hs : first + rows ≤ source.size)
    (htmax : start + rows ≤ maxCount) (hsmax : first + rows ≤ maxCount) :
    ∃ r, copyRun source start rows first target = .ok r ∧ r.size = target.size ∧
      ∀ p, r.getD p 0 = if start ≤ p ∧ p < start + rows then source.getD (first + (p - start)) 0
        else target.getD p 0 := by
  have hrun := foldl_run source first rows ht
  refine ⟨_, ?_, hrun⟩
  rw [copyRun, addWord_of_le htmax, ok_bind, addWord_of_le hsmax, ok_bind, if_pos ⟨ht, hs⟩]
  rfl

/-! ### All runs -/

/-- The elements before `first` are at their new places, and everything else is zero. -/
def Copied (old new : Shape) (source : Array Float) (first : Nat) (target : Array Float) : Prop :=
  ∀ p, target.getD p 0 =
    match origin old new p with
    | some q => if q < first then source.getD q 0 else 0
    | none => 0

/-- A run along the first axis stays a run. -/
theorem offset_run (hd : 0 < d) (hdvd : d ∣ first) {i : Nat} (hi : i < d) :
    Shape.offset (e :: t) (Shape.coordsOf (d :: s) (first + i)) =
      Shape.offset (e :: t) (0 :: s.coordsOf (first / d)) + i := by
  rw [Shape.coordsOf_cons_add hd hi hdvd, Shape.offset, Shape.offset]
  omega

theorem Copied.run (hle : ∀ axis, Shape.extent (d :: s) axis ≤ Shape.extent (e :: t) axis)
    (hd : 0 < d) (hdvd : d ∣ first) (hfirst : first + d ≤ List.prod (d :: s))
    (h : Copied (d :: s) (e :: t) source first target)
    (hstart : start = Shape.offset (e :: t) (0 :: s.coordsOf (first / d))) {r : Array Float}
    (hr : ∀ p, r.getD p 0 = if start ≤ p ∧ p < start + d then source.getD (first + (p - start)) 0
      else target.getD p 0) :
    Copied (d :: s) (e :: t) source (first + d) r := by
  have hrun : ∀ i < d, origin (d :: s) (e :: t) (start + i) = some (first + i) := by
    intro i hi
    rw [origin_eq_some_iff hle, offset_run hd hdvd hi, hstart]
    exact ⟨by omega, rfl⟩
  intro p
  rw [hr p]
  by_cases hin : start ≤ p ∧ p < start + d
  · -- the run overwrites the place
    obtain ⟨i, hi, rfl⟩ : ∃ i < d, p = start + i := ⟨p - start, by omega, by omega⟩
    rw [if_pos hin, hrun i hi, Nat.add_sub_cancel_left]
    simp only
    rw [if_pos (by omega)]
  · rw [if_neg hin, h p]
    cases ho : origin (d :: s) (e :: t) p with
    | none => rfl
    | some q =>
      have hout : ¬ (first ≤ q ∧ q < first + d) := by
        rintro ⟨hge, hlt⟩
        apply hin
        obtain ⟨-, hp⟩ := (origin_eq_some_iff hle).mp ho
        have hoff := offset_run (s := s) (e := e) (t := t) hd hdvd
          (show q - first < d by omega)
        rw [Nat.add_sub_cancel' hge, ← hp, ← hstart] at hoff
        omega
      simp only
      congr 1
      rw [eq_iff_iff]
      omega

/-! ### Turns -/

structure Copying where
  coord : List Nat
  first : Nat
  target : Array Float

namespace Copying

def turn (source : Array Float) (old : Shape) (strides : List Nat) (x : Copying) :
    Except Stop Copying := do
  let start ← runStart x.coord strides
  let target ← copyRun source start (old.extent 0) x.first x.target
  let first ← addWord x.first (old.extent 0)
  let coord ← advance old x.coord
  return ⟨coord, first, target⟩

def turns (source : Array Float) (old : Shape) (strides : List Nat) :
    Nat → Copying → Except Stop Copying
  | 0, x => .ok x
  | n + 1, x => do
    let y ← turn source old strides x
    turns source old strides n y

end Copying

open Copying

section

variable {strides : List Nat} {count n : Nat} {x y : Copying}

/-- A turn is what the copy does before it looks at its counter again. -/
theorem copyRuns_of_turn (hlt : x.first < count) (hrows : old.extent 0 ≠ 0)
    (h : turn source old strides x = .ok y) :
    y.first = x.first + old.extent 0 ∧
      copyRuns source old strides count x.coord x.first x.target =
        copyRuns source old strides count y.coord y.first y.target := by
  obtain ⟨start, hstart, h⟩ := exists_of_bind_ok h
  obtain ⟨target, hrun, h⟩ := exists_of_bind_ok h
  obtain ⟨next, hadd, h⟩ := exists_of_bind_ok h
  obtain ⟨coord, hcoord, h⟩ := exists_of_bind_ok h
  cases h
  refine ⟨eq_add_of_addWord hadd, ?_⟩
  rw [copyRuns, if_pos hlt, if_neg hrows, hstart, ok_bind, hrun, ok_bind]
  split
  · rename_i hfault
    rw [hadd] at hfault
    cases hfault
  · rename_i hsame
    obtain rfl := Except.ok.inj (hadd.symm.trans hsame)
    rw [hcoord, ok_bind]

/-- Turns that copy all there is are the whole copy. -/
theorem copyRuns_of_turns (hrows : old.extent 0 ≠ 0) (hn : x.first + n * old.extent 0 = count)
    (h : turns source old strides n x = .ok y) :
    copyRuns source old strides count x.coord x.first x.target = .ok y.target := by
  induction n generalizing x with
  | zero =>
    cases h
    rw [copyRuns, if_neg (by omega)]
  | succ n ih =>
    have hpos : 0 < old.extent 0 := Nat.pos_of_ne_zero hrows
    rw [Nat.add_mul, one_mul] at hn
    obtain ⟨z, hz, h⟩ := exists_of_bind_ok h
    have hlt : x.first < count := by omega
    obtain ⟨hfirst, hnext⟩ := copyRuns_of_turn hlt hrows hz
    rw [hnext]
    exact ih (by omega) h

end

/-- The last place of a run lies in the new array, so the whole run does. -/
theorem offset_add_le (hle : ∀ axis, Shape.extent (d :: s) axis ≤ Shape.extent (e :: t) axis)
    (hd : 0 < d) (hdvd : d ∣ first) (hroom : first + d ≤ List.prod (d :: s)) :
    Shape.offset (e :: t) (0 :: s.coordsOf (first / d)) + d ≤ List.prod (e :: t) := by
  have hcov : Shape.covers (e :: t) (Shape.coordsOf (d :: s) (first + (d - 1))) = true :=
    Shape.covers_mono hle (Shape.covers_coordsOf (by omega))
  have hlt := Shape.offset_lt hcov
  rw [offset_run hd hdvd (by omega)] at hlt
  omega

/-- The counter goes on to the next run. -/
theorem advance_run (hpos : 0 < List.prod (d :: s)) (hold : List.prod (d :: s) ≤ maxCount) (first : Nat) :
    advance (d :: s) (Shape.coordsOf (d :: s) first) = .ok (Shape.coordsOf (d :: s) (first + d)) := by
  have hextent : ∀ x ∈ s, ∃ axis, Shape.extent (d :: s) axis = x := by
    intro x hx
    obtain ⟨axis, -, rfl⟩ := Shape.exists_extent hx
    exact ⟨axis + 1, rfl⟩
  apply advance_coordsOf
  · intro x hx
    obtain ⟨axis, rfl⟩ := hextent x hx
    exact Shape.prod_pos_iff.mp hpos axis
  · intro x hx
    obtain ⟨axis, rfl⟩ := hextent x hx
    exact (Shape.extent_le_prod hpos axis).trans hold
  · exact Shape.prod_pos_iff.mp hpos 0

/-- A turn moves a run to its new place, within both buffers and within words. -/
theorem turn_eq (hle : ∀ axis, Shape.extent (d :: s) axis ≤ Shape.extent (e :: t) axis)
    (hlen : s.length = t.length) (hmax : List.prod (e :: t) ≤ maxCount)
    (htarget : List.prod (e :: t) ≤ target.size) (hsource : List.prod (d :: s) ≤ source.size)
    (hdvd : d ∣ first) (hd : 0 < d) (hroom : first + d ≤ List.prod (d :: s))
    (h : Copied (d :: s) (e :: t) source first target) :
    ∃ r, turn source (d :: s) (Shape.stridesFrom 1 (e :: t))
        ⟨Shape.coordsOf (d :: s) first, first, target⟩ =
          .ok ⟨Shape.coordsOf (d :: s) (first + d), first + d, r⟩ ∧
      r.size = target.size ∧ Copied (d :: s) (e :: t) source (first + d) r := by
  have hold : List.prod (d :: s) ≤ maxCount := (Shape.prod_le_prod hle).trans hmax
  have hlast := offset_add_le hle hd hdvd hroom
  have hcoord := Shape.coordsOf_cons_add (s := s) hd hd hdvd
  rw [add_zero] at hcoord
  have hstart : runStart (0 :: s.coordsOf (first / d)) (Shape.stridesFrom 1 (e :: t)) =
      .ok (Shape.offset (e :: t) (0 :: s.coordsOf (first / d))) := by
    apply runStart_eq
    · rw [Shape.length_coordsOf, hlen]
    · rw [Shape.offset] at hlast
      omega
  obtain ⟨r, hrun, hsize, hr⟩ := copyRun_eq (hlast.trans htarget) (hroom.trans hsource)
    (hlast.trans hmax) (hroom.trans hold)
  refine ⟨r, ?_, hsize, h.run hle hd hdvd hroom rfl hr⟩
  unfold turn
  simp only [Shape.extent_cons_zero, advance_run (by omega) hold, ok_bind]
  rw [hcoord, hstart, ok_bind, hrun, ok_bind, addWord_of_le (hroom.trans hold), ok_bind]
  rfl

/-- After any number of turns as many runs are at their new places, and the counter is at the next. -/
theorem turns_eq (hle : ∀ axis, Shape.extent (d :: s) axis ≤ Shape.extent (e :: t) axis)
    (hlen : s.length = t.length) (hmax : List.prod (e :: t) ≤ maxCount)
    (htarget : List.prod (e :: t) ≤ target.size) (hsource : List.prod (d :: s) ≤ source.size)
    (hd : 0 < d) (k : Nat) (hdvd : d ∣ first) (hk : first + k * d ≤ List.prod (d :: s))
    (h : Copied (d :: s) (e :: t) source first target) :
    ∃ r, turns source (d :: s) (Shape.stridesFrom 1 (e :: t)) k
        ⟨Shape.coordsOf (d :: s) first, first, target⟩ =
          .ok ⟨Shape.coordsOf (d :: s) (first + k * d), first + k * d, r⟩ ∧
      r.size = target.size ∧ Copied (d :: s) (e :: t) source (first + k * d) r := by
  induction k generalizing first target with
  | zero =>
    rw [zero_mul, add_zero]
    exact ⟨target, rfl, rfl, h⟩
  | succ k ih =>
    have hstep : first + (k + 1) * d = first + d + k * d := by ring
    rw [hstep] at hk ⊢
    obtain ⟨r, hturn, hsize, hcopied⟩ :=
      turn_eq hle hlen hmax htarget hsource hdvd hd (by omega) h
    obtain ⟨r', hturns, hsize', hdone⟩ :=
      ih (hsize ▸ htarget) (Nat.dvd_add hdvd dvd_rfl) hk hcopied
    refine ⟨r', ?_, hsize'.trans hsize, hdone⟩
    rw [turns, hturn, ok_bind, hturns]

theorem coordsOf_zero (s : Shape) : s.coordsOf 0 = List.replicate s.length 0 := by
  induction s with
  | nil => rfl
  | cons d s ih =>
    rw [Shape.coordsOf, Nat.zero_mod, Nat.zero_div, ih]
    rfl

theorem length_pad {rank : Nat} (h : s.length ≤ rank) : (s.pad rank).length = rank := by
  rw [Shape.pad, List.length_append, List.length_replicate]
  omega

/-- The buffer to which all elements are copied is the relocated one. -/
theorem Copied.eq_relocate (h : Copied old new source old.prod target)
    (hnew : new.count? = some new.prod) (hsize : new.prod ≤ target.size) :
    target = NDArray.relocate old new target.size source := by
  apply buffer_ext NDArray.size_relocate.symm
  intro p
  rw [NDArray.getD_relocate hnew hsize, h p, origin]
  by_cases hin : p < new.prod ∧ old.covers (new.coordsOf p) = true
  · have hlt := Shape.offset_lt hin.2
    rw [if_pos hin, if_pos hin]
    simp only
    rw [if_pos hlt]
  · rw [if_neg hin, if_neg hin]

theorem copied_zeros (length : Nat) : Copied old new source 0 (.replicate length 0) := by
  intro p
  rw [getD_replicate]
  cases origin old new p <;> rfl

theorem coordsOf_prod (h : 0 < s.prod) : s.coordsOf s.prod = List.replicate s.length 0 := by
  induction s with
  | nil => rfl
  | cons d s ih =>
    rw [List.prod_cons] at h
    have hd : 0 < d := Nat.pos_of_mul_pos_right h
    rw [Shape.coordsOf, List.prod_cons, Nat.mul_mod_right, Nat.mul_div_cancel_left _ hd,
      ih (Nat.pos_of_mul_pos_left h)]
    rfl

/-- Turns from the start on. The first axes of both shapes are there, so that runs lie along them. -/
theorem turns_start (hle : ∀ axis, old.extent axis ≤ new.extent axis) (hlen : old.length = new.length)
    (h1 : 1 ≤ old.length) (hpos : 0 < old.prod) (hmax : new.prod ≤ maxCount)
    (hsource : old.prod ≤ source.size) {length : Nat} (htarget : new.prod ≤ length) (k : Nat)
    (hk : k * old.extent 0 ≤ old.prod) :
    ∃ r, turns source old (Shape.stridesFrom 1 new) k
        ⟨List.replicate old.length 0, 0, .replicate length 0⟩ =
          .ok ⟨old.coordsOf (k * old.extent 0), k * old.extent 0, r⟩ ∧
      r.size = length ∧ Copied old new source (k * old.extent 0) r := by
  have hd := Shape.prod_pos_iff.mp hpos 0
  have hsize : (Array.replicate length (0 : Float)).size = length := Array.size_replicate
  rw [← coordsOf_zero]
  obtain ⟨d, s, rfl⟩ := List.exists_cons_of_length_pos h1
  obtain ⟨e, t, rfl⟩ := List.exists_cons_of_length_pos (hlen ▸ h1)
  have hturns := turns_eq hle (Nat.succ_injective hlen) hmax (by rwa [hsize]) hsource hd k
    (Nat.dvd_zero d) (by rwa [zero_add]) (copied_zeros length)
  rwa [zero_add, hsize] at hturns

/-- What a copy from a buffer of one shape to one of another asks for: there is something to copy, it can
    be counted, and every element has its place. -/
structure Fits (old new : Shape) (source : Array Float) (length : Nat) : Prop where
  le : ∀ axis, old.extent axis ≤ new.extent axis
  two_axes : 2 ≤ old.length
  counted : old.count? = some old.count
  counted_new : new.count? = some new.count
  not_empty : old.count ≠ 0
  source_size : old.count ≤ source.size
  room : new.count ≤ length

namespace Fits

variable {length k : Nat}

theorem extent_pos (h : Fits old new source length) : 0 < old.extent 0 := by
  have hpos : 0 < old.prod := by
    rw [← Shape.count_eq_prod h.counted]
    exact Nat.pos_of_ne_zero h.not_empty
  exact Shape.prod_pos_iff.mp hpos 0

/-- Runs along the first axis make up the whole. -/
theorem rows_dvd (h : Fits old new source length) : old.extent 0 ∣ old.count := by
  have hfirst : 0 < old.length := by
    have := h.two_axes
    omega
  rw [Shape.count_eq_prod h.counted]
  exact List.dvd_prod (Shape.extent_mem hfirst)

/-- After each turn the counter shows the coordinates of the first element that has not been copied. -/
theorem turns_eq (h : Fits old new source length) {rank : Nat} (hrank : rank = Shape.commonRank old new)
    (hk : k * old.extent 0 ≤ old.count) :
    ∃ r, turns source (old.pad rank) (Shape.stridesFrom 1 (new.pad rank)) k
        ⟨List.replicate rank 0, 0, .replicate length 0⟩ =
          .ok ⟨(old.pad rank).coordsOf (k * old.extent 0), k * old.extent 0, r⟩ ∧
      r.size = length ∧ Copied (old.pad rank) (new.pad rank) source (k * old.extent 0) r := by
  have hrank' : old.length ≤ rank := hrank ▸ le_max_left _ _
  have hlen₁ : (old.pad rank).length = rank := length_pad hrank'
  have hlen₂ : (new.pad rank).length = rank := length_pad (hrank ▸ le_max_right _ _)
  have hprod₁ : (old.pad rank).prod = old.count :=
    (Shape.prod_pad old rank).trans (Shape.count_eq_prod h.counted).symm
  have hprod₂ : (new.pad rank).prod = new.count :=
    (Shape.prod_pad new rank).trans (Shape.count_eq_prod h.counted_new).symm
  have hle : ∀ axis, (old.pad rank).extent axis ≤ (new.pad rank).extent axis := by
    intro axis
    rw [Shape.extent_pad, Shape.extent_pad]
    exact h.le axis
  have hone : 1 ≤ (old.pad rank).length := by
    have := h.two_axes
    omega
  have hsource := h.source_size
  have hroom := h.room
  have hmax := Shape.count_le h.counted_new
  have hpos := Nat.pos_of_ne_zero h.not_empty
  rw [← hprod₁] at hsource hk hpos
  rw [← hprod₂] at hroom hmax
  rw [← Shape.extent_pad old rank] at hk ⊢
  have hturns := turns_start hle (hlen₁.trans hlen₂.symm) hone hpos hmax hsource hroom k hk
  rwa [hlen₁] at hturns

/-- When all elements have been copied the counter is back at zero, and what the turns have filled is the
    relocated buffer. No turn passes a word or leaves a buffer. -/
theorem turns_relocate (h : Fits old new source length) {rank : Nat}
    (hrank : rank = Shape.commonRank old new) :
    turns source (old.pad rank) (Shape.stridesFrom 1 (new.pad rank)) (old.count / old.extent 0)
        ⟨List.replicate rank 0, 0, .replicate length 0⟩ =
      .ok ⟨List.replicate rank 0, old.count, NDArray.relocate old new length source⟩ := by
  have hlen : (old.pad rank).length = rank := length_pad (hrank ▸ le_max_left _ _)
  have hcount := Shape.count_eq_prod h.counted
  have hcount' := Shape.count_eq_prod h.counted_new
  have hprod : (old.pad rank).prod = old.count := (Shape.prod_pad old rank).trans hcount.symm
  have hwhole : old.count / old.extent 0 * old.extent 0 = old.count := Nat.div_mul_cancel h.rows_dvd
  obtain ⟨r, hturns, hsize, hdone⟩ := h.turns_eq hrank hwhole.le
  rw [hwhole] at hturns hdone
  have hcopied : Copied old new source old.prod r := by
    intro p
    rw [hdone p, origin_pad h.le, hcount]
  have hroom : new.prod ≤ r.size := by
    rw [hsize, ← hcount']
    exact h.room
  have hrelocate := hcopied.eq_relocate (hcount' ▸ h.counted_new) hroom
  rw [hsize] at hrelocate
  have hzero : (old.pad rank).coordsOf old.count = List.replicate rank 0 := by
    have hpos : 0 < (old.pad rank).prod := by
      rw [hprod]
      exact Nat.pos_of_ne_zero h.not_empty
    rw [← hprod, coordsOf_prod hpos, hlen]
  rw [hturns, hzero, hrelocate]

/-- Copying in place relocates. -/
theorem copyInto_eq (h : Fits old new source length) :
    copyInto source old new (.replicate length 0) = .ok (NDArray.relocate old new length source) := by
  have hprod : (new.pad (Shape.commonRank old new)).prod = new.count :=
    (Shape.prod_pad _ _).trans (Shape.count_eq_prod h.counted_new).symm
  have hpos : 0 < (new.pad (Shape.commonRank old new)).prod := by
    rw [Shape.prod_pad]
    refine (Nat.pos_of_ne_zero ?_).trans_le (Shape.prod_le_prod h.le)
    rw [← Shape.count_eq_prod h.counted]
    exact h.not_empty
  have hmax : 1 * (new.pad (Shape.commonRank old new)).prod ≤ maxCount := by
    rw [one_mul, hprod]
    exact Shape.count_le h.counted_new
  have hextent := Shape.extent_pad old (Shape.commonRank old new) 0
  have hrows : (old.pad (Shape.commonRank old new)).extent 0 ≠ 0 := hextent ▸ h.extent_pos.ne'
  have hwhole : 0 + old.count / old.extent 0 * (old.pad (Shape.commonRank old new)).extent 0 =
      old.count := by
    rw [zero_add, hextent, Nat.div_mul_cancel h.rows_dvd]
  unfold copyInto
  rw [if_neg h.not_empty]
  simp only [strides_of_countFrom? (Shape.countFrom?_of_pos hpos hmax), ok_bind]
  exact copyRuns_of_turns hrows hwhole (h.turns_relocate rfl)

end Fits

end NumericArrays.InPlace

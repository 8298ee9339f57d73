import Mathlib.Tactic.Common
import NumericArrays.NDArray.Write

/-! Elements by position after each operation that works on the buffers as a whole. -/
namespace NumericArrays

namespace Storage

/-- Zero stands for itself in every kind. -/
@[simp] theorem store_zero (k : Storage) : k.store 0 = 0 := by
  cases k <;> decide +kernel

@[simp] theorem store_one (k : Storage) : k.store 1 = 1 := by
  cases k <;> decide

theorem arithmetic_ne_logical (k l : Storage) : k.arithmetic l ≠ .logical := by
  cases k <;> cases l <;> decide

theorem promote_eq_logical {k l : Storage} (h : k.promote l = .logical) :
    k = .logical ∧ l = .logical := by
  cases k <;> cases l <;> first | exact ⟨rfl, rfl⟩ | exact absurd h (by decide)

end Storage

/-! ### Buffers -/

section Buffers

variable {buffer : Array Float} {f : Float → Float} {n p q : Nat} {x : Float}

theorem getD_of_size_le (h : buffer.size ≤ p) : buffer.getD p 0 = 0 := by
  simp [h]

theorem getD_of_lt (h : p < buffer.size) : buffer.getD p 0 = buffer[p] := by
  simp [h]

/-- Buffers of one length are equal if reading them is. -/
theorem buffer_ext {x y : Array Float} (hs : x.size = y.size)
    (h : ∀ p, x.getD p 0 = y.getD p 0) : x = y := by
  apply Array.ext hs
  intro p hx hy
  rw [← getD_of_lt hx, ← getD_of_lt hy, h p]

/-- A buffer is zero from `n` on exactly if reading there gives zero. -/
theorem getD_eq_zero_iff :
    (∀ p, n ≤ p → buffer.getD p 0 = 0) ↔
      ∀ p, n ≤ p → (h : p < buffer.size) → buffer[p] = 0 := by
  refine ⟨fun h p hp hlt => by rw [← getD_of_lt hlt, h p hp], fun h p hp => ?_⟩
  by_cases hlt : p < buffer.size
  · rw [getD_of_lt hlt, h p hp hlt]
  · exact getD_of_size_le (by omega)

theorem getD_map (hf : f 0 = 0) : (buffer.map f).getD p 0 = f (buffer.getD p 0) := by
  by_cases h : p < buffer.size
  · simp [h]
  · simp [h, hf]

theorem getD_replicate : (Array.replicate n (0 : Float)).getD p 0 = 0 := by
  by_cases h : p < n <;> simp [h]

theorem getD_extract : (buffer.extract 0 n).getD p 0 = if p < n then buffer.getD p 0 else 0 := by
  simp only [Array.getD_eq_getD_getElem?, Array.getElem?_extract, Nat.zero_add, Nat.sub_zero]
  by_cases hn : p < n
  · by_cases h : p < buffer.size
    · rw [if_pos (by omega), if_pos hn]
    · rw [if_neg (by omega), if_pos hn, Array.getElem?_eq_none (by omega)]
  · rw [if_neg (by omega), if_neg hn, Option.getD_none]

theorem getD_setIfInBounds (h : q < buffer.size) :
    (buffer.setIfInBounds q x).getD p 0 = if p = q then x else buffer.getD p 0 := by
  by_cases hp : p = q
  · subst hp
    simp [h]
  · simp [Array.getElem?_setIfInBounds_ne (Ne.symm hp), hp]

theorem getD_ofFn {g : Nat → Float} :
    (Array.ofFn fun i : Fin n => g i).getD p 0 = if p < n then g p else 0 := by
  by_cases h : p < n <;> simp [h]

theorem zero_beq_zero : ((0 : Float) == 0) = true := by decide

theorem all_beq_zero_iff {buffer : Array Float} :
    buffer.all (· == 0) = true ↔ ∀ p, (buffer.getD p 0 == 0) = true := by
  rw [Array.all_eq_true]
  constructor
  · intro h p
    by_cases hp : p < buffer.size
    · rw [getD_of_lt hp]
      exact h p hp
    · rw [getD_of_size_le (by omega)]
      exact zero_beq_zero
  · intro h p hp
    rw [← getD_of_lt hp]
    exact h p

theorem any_isNaN_iff {buffer : Array Float} :
    buffer.any (·.isNaN) = true ↔ ∃ p, (buffer.getD p 0).isNaN = true := by
  rw [Array.any_eq_true]
  constructor
  · rintro ⟨p, hp, h⟩
    refine ⟨p, ?_⟩
    rwa [getD_of_lt hp]
  · rintro ⟨p, h⟩
    by_cases hp : p < buffer.size
    · rw [getD_of_lt hp] at h
      exact ⟨p, hp, h⟩
    · rw [getD_of_size_le (by omega)] at h
      exact absurd h (by decide)

theorem size_extract (h : n ≤ buffer.size) : (buffer.extract 0 n).size = n := by
  simp [h]

end Buffers

namespace NDArray

variable {a b : NDArray} {p q : Nat}

theorem im_of_real (h : a.imag = none) : a.im p = 0 := by
  simp [im, h]

theorem im_of_complex {im : Array Float} (h : a.imag = some im) : a.im p = im.getD p 0 := by
  simp [NDArray.im, h]

theorem hasZeroImag_iff : a.hasZeroImag = true ↔ ∀ p < a.size, (a.im p == 0) = true := by
  unfold hasZeroImag imags
  cases h : a.imag with
  | none =>
    simp only [Option.map_none, im_of_real h, true_iff]
    exact fun _ _ => zero_beq_zero
  | some im =>
    simp only [Option.map_some, im_of_complex h, all_beq_zero_iff, getD_extract]
    constructor
    · intro hall p hp
      simpa only [if_pos hp] using hall p
    · intro hzero p
      split
      · exact hzero p ‹_›
      · exact zero_beq_zero

theorem any_isNaN_reals_iff :
    a.reals.any (·.isNaN) = true ↔ ∃ p < a.size, (a.re p).isNaN = true := by
  have hzero : (0 : Float).isNaN = false := by decide
  rw [any_isNaN_iff]
  refine exists_congr fun p => ?_
  rw [reals, getD_extract]
  by_cases hp : p < a.size
  · rw [if_pos hp]
    exact (and_iff_right hp).symm
  · rw [if_neg hp, hzero]
    exact iff_of_false Bool.false_ne_true fun h => hp h.1

theorem demote_of_zeroImag (h : a.hasZeroImag = true) : a.demote = { a with imag := none } := if_pos h

theorem cartesian_of_real (h : a.isComplex = false) (p : Nat) : a.cartesian p = ⟨a.re p, 0⟩ :=
  Cartesian.ext rfl (im_of_real (by simpa [isComplex] using h))

theorem isScalar_congr (h : a.dims = b.dims) : a.isScalar = b.isScalar := by
  rw [isScalar, isScalar, size, size, h]

theorem isComplex_iff : a.isComplex = true ↔ a.imag ≠ none := by
  simp [isComplex, Option.isSome_iff_ne_none]

/-! ### Well-formed arrays -/

/-- Well-formedness in terms of the numbers at positions. -/
theorem wellFormed_iff : a.WellFormed ↔
    2 ≤ a.dims.length ∧ (∀ d ∈ a.dims, d ≤ maxCount) ∧ a.dims.count? = some a.size ∧
      a.size ≤ a.capacity ∧ (∀ im, a.imag = some im → im.size = a.capacity) ∧
      (∀ p, a.size ≤ p → a.re p = 0) ∧ (∀ p, a.size ≤ p → a.im p = 0) ∧
      (a.kind = .logical → a.imag = none) := by
  have him : (∀ p, a.size ≤ p → a.im p = 0) ↔
      ∀ im, a.imag = some im → ∀ p, a.size ≤ p → (h : p < im.size) → im[p] = 0 := by
    cases h : a.imag with
    | none => simp [NDArray.im, h]
    | some im =>
      simp only [im_of_complex h, getD_eq_zero_iff, Option.some.injEq]
      exact ⟨fun h' _ he => he ▸ h', fun h' => h' im rfl⟩
  rw [him]
  simp only [re, getD_eq_zero_iff]
  exact ⟨fun h => ⟨h.1, h.2, h.3, h.4, h.5, h.6, h.7, h.8⟩,
    fun ⟨h1, h2, h3, h4, h5, h6, h7, h8⟩ => ⟨h1, h2, h3, h4, h5, h6, h7, h8⟩⟩

namespace WellFormed

theorem re_of_size_le (h : a.WellFormed) (hp : a.size ≤ p) : a.re p = 0 :=
  (wellFormed_iff.mp h).2.2.2.2.2.1 p hp

theorem im_of_size_le (h : a.WellFormed) (hp : a.size ≤ p) : a.im p = 0 :=
  (wellFormed_iff.mp h).2.2.2.2.2.2.1 p hp

theorem cartesian_of_size_le (h : a.WellFormed) (hp : a.size ≤ p) : a.cartesian p = ⟨0, 0⟩ := by
  rw [cartesian, h.re_of_size_le hp, h.im_of_size_le hp]

end WellFormed

/-- Buffers without room at the end need no zeros. -/
theorem wellFormed_exact {dims : Shape} {real : Array Float} {imag : Option (Array Float)}
    {kind : Storage} (h2 : 2 ≤ dims.length) (hd : ∀ d ∈ dims, d ≤ maxCount)
    (hc : dims.count? = some real.size) (hi : ∀ im, imag = some im → im.size = real.size)
    (hk : kind = .logical → imag = none) : WellFormed ⟨dims, real, imag, kind⟩ where
  two_axes := h2
  extent_le := hd
  counted := by simp [size, Shape.count, hc]
  size_le := by simp [size, capacity, Shape.count, hc]
  imag_size := hi
  real_zero p hp h := by
    simp only [size, Shape.count, hc, Option.getD_some] at hp h
    omega
  imag_zero im him p hp h := by
    have := hi im him
    simp only [size, Shape.count, hc, Option.getD_some] at hp h
    omega
  logical_real := hk

/-- New buffers, as long as the shape asks for. -/
theorem WellFormed.withBuffers (ha : a.WellFormed) {real : Array Float} {imag : Option (Array Float)}
    {kind : Storage} (hreal : real.size = a.size) (himag : ∀ im, imag = some im → im.size = a.size)
    (hk : kind = .logical → imag = none) : WellFormed ⟨a.dims, real, imag, kind⟩ :=
  wellFormed_exact ha.two_axes ha.extent_le (by rw [hreal]; exact ha.counted)
    (fun im him => (himag im him).trans hreal.symm) hk

/-! ### Changes of kind and form -/

@[simp] theorem dims_promote : a.promote.dims = a.dims := by
  unfold promote; split <;> rfl

@[simp] theorem real_promote : a.promote.real = a.real := by
  unfold promote; split <;> rfl

@[simp] theorem re_promote : a.promote.re p = a.re p := by
  rw [re, re, real_promote]

@[simp] theorem im_promote : a.promote.im p = a.im p := by
  unfold promote
  split
  · rfl
  · rename_i h
    rw [im_of_complex rfl, im_of_real h, getD_replicate]

@[simp] theorem cartesian_promote : a.promote.cartesian p = a.cartesian p := by
  rw [cartesian, cartesian, re_promote, im_promote]

@[simp] theorem size_promote : a.promote.size = a.size := by
  rw [size, size, dims_promote]

@[simp] theorem capacity_promote : a.promote.capacity = a.capacity := by
  rw [capacity, capacity, real_promote]

theorem isComplex_promote : a.promote.isComplex = true := by
  unfold promote isComplex
  split <;> simp_all

theorem kind_promote (h : a.kind = .logical → a.imag = none) :
    a.promote.kind = if a.kind = .logical then .double else a.kind := by
  unfold promote
  split
  · rename_i im him
    rw [if_neg]
    intro hk
    rw [h hk] at him
    simp at him
  · rfl

@[simp] theorem dims_retag (k : Storage) : (a.retag k).dims = a.dims := rfl

@[simp] theorem kind_retag (k : Storage) : (a.retag k).kind = k := rfl

@[simp] theorem re_retag (k : Storage) : (a.retag k).re p = k.store (a.re p) :=
  getD_map k.store_zero

@[simp] theorem im_retag (k : Storage) : (a.retag k).im p = k.store (a.im p) := by
  cases h : a.imag with
  | none => simp [im, retag, h]
  | some im =>
    rw [im_of_complex h, im_of_complex (by simp only [retag, h, Option.map_some]; rfl),
      getD_map k.store_zero]

@[simp] theorem size_retag (k : Storage) : (a.retag k).size = a.size := rfl

@[simp] theorem capacity_retag (k : Storage) : (a.retag k).capacity = a.capacity := by
  simp [capacity, retag]

@[simp] theorem isComplex_retag (k : Storage) : (a.retag k).isComplex = a.isComplex := by
  simp [isComplex, retag]

end NDArray
end NumericArrays

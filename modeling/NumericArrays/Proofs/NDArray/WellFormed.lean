import NumericArrays.Proofs.NDArray.Resize

/-! Whatever makes an array or changes the form of one yields a well-formed array. -/
namespace NumericArrays

section Answers

variable {ε α β : Type} {x : Except ε α} {r : β}

/-- What a computation with an answer went through. -/
theorem exists_of_bind_ok {f : α → Except ε β} (h : x >>= f = .ok r) :
    ∃ a, x = .ok a ∧ f a = .ok r := by
  cases x with
  | error e => cases h
  | ok a => exact ⟨a, rfl, h⟩

theorem exists_of_map_ok {f : α → β} (h : x.map f = .ok r) : ∃ a, x = .ok a ∧ f a = r := by
  cases x with
  | error e => cases h
  | ok a => exact ⟨a, rfl, Except.ok.inj h⟩

end Answers

namespace NDArray

variable {a b : NDArray} {dims : Shape} {kind : Storage} {p q : Nat}

/-! ### Making arrays -/

theorem normalize_extent_le (hd : ∀ d ∈ dims, d ≤ maxCount) : ∀ d ∈ dims.normalize, d ≤ maxCount := by
  intro d h
  rcases Shape.mem_normalize h with rfl | h
  · decide
  · exact hd d h

theorem wellFormed_empty : empty.WellFormed :=
  wellFormed_exact (by decide) (by decide) (by decide) (fun _ h => by cases h) (fun h => by cases h)

theorem wellFormed_ofNumber (x : Number) : (ofNumber x).WellFormed := by
  have hd : ∀ d ∈ ([1, 1] : Shape), d ≤ maxCount := by decide
  cases x with
  | real x => exact wellFormed_exact (by decide) hd (by rfl) (fun _ h => by cases h) fun _ => rfl
  | logical b => exact wellFormed_exact (by decide) hd (by rfl) (fun _ h => by cases h) fun _ => rfl
  | complex z =>
    exact wellFormed_exact (by decide) hd (by rfl) (fun _ h => by cases h; rfl) fun h => by cases h

theorem zeros?_wellFormed (hd : ∀ d ∈ dims, d ≤ maxCount) (h : zeros? dims kind = some a) :
    a.WellFormed := by
  simp only [zeros?, bind, Option.bind_eq_some_iff] at h
  obtain ⟨count, hc, h⟩ := h
  split at h <;> cases h
  exact wellFormed_exact (Shape.length_normalize dims) (normalize_extent_le hd)
    (by simpa using hc) (fun _ h => by cases h) fun _ => rfl

theorem ofReals?_wellFormed {real : Array Float} (hd : ∀ d ∈ dims, d ≤ maxCount)
    (h : ofReals? dims real kind = some a) : a.WellFormed := by
  simp only [ofReals?] at h
  split at h <;> cases h
  exact wellFormed_exact (Shape.length_normalize dims) (normalize_extent_le hd)
    ‹_› (fun _ h => by cases h) fun _ => rfl

theorem ofParts?_wellFormed {real imag : Array Float} (hd : ∀ d ∈ dims, d ≤ maxCount)
    (h : ofParts? dims real imag = some a) : a.WellFormed := by
  simp only [ofParts?, bind, Option.bind_eq_some_iff, ofReals?] at h
  obtain ⟨r, hr, h⟩ := h
  split at hr <;> cases hr
  rename_i hc
  split at h <;> cases h
  rename_i hi
  refine wellFormed_exact (Shape.length_normalize dims) (normalize_extent_le hd) hc
    (fun _ h => ?_) fun h => by cases h
  cases h
  simpa [size, Shape.count, hc] using hi

theorem ofFn?_wellFormed {f : Nat → Float} (hd : ∀ d ∈ dims, d ≤ maxCount)
    (h : ofFn? dims f = some a) : a.WellFormed := by
  simp only [ofFn?, bind, Option.bind_eq_some_iff] at h
  obtain ⟨count, hc, h⟩ := h
  split at h <;> cases h
  exact wellFormed_exact (Shape.length_normalize dims) (normalize_extent_le hd)
    (by simpa using hc) (fun _ h => by cases h) fun _ => rfl

/-! ### Changing arrays -/

theorem WellFormed.promote (ha : a.WellFormed) : a.promote.WellFormed := by
  cases h : a.imag with
  | some im => rwa [NDArray.promote, h]
  | none =>
    have hkind := kind_promote ha.logical_real
    refine wellFormed_iff.mpr ⟨?_, ?_, ?_, ?_, ?_, ?_, ?_, ?_⟩
    · rw [dims_promote]
      exact ha.two_axes
    · rw [dims_promote]
      exact ha.extent_le
    · rw [dims_promote, size_promote]
      exact ha.counted
    · rw [size_promote, capacity_promote]
      exact ha.size_le
    · intro im him
      rw [NDArray.promote, h] at him
      cases him
      rw [capacity_promote, Array.size_replicate]
    · intro p hp
      rw [re_promote]
      exact ha.re_of_size_le (by rwa [size_promote] at hp)
    · intro p hp
      rw [im_promote]
      exact ha.im_of_size_le (by rwa [size_promote] at hp)
    · intro hk
      rw [hkind] at hk
      split at hk
      · cases hk
      · contradiction

theorem WellFormed.demote (ha : a.WellFormed) : a.demote.WellFormed := by
  unfold NDArray.demote
  split
  · exact { ha with
      imag_size := fun _ h => by cases h
      imag_zero := fun _ h => by cases h
      logical_real := fun _ => rfl }
  · exact ha

/-- Conversion of both buffers keeps the zeros at their ends. -/
theorem WellFormed.retag (ha : a.WellFormed) (hk : kind = .logical → a.imag = none) :
    (a.retag kind).WellFormed := by
  refine wellFormed_iff.mpr ⟨ha.two_axes, ha.extent_le, ha.counted, ?_, ?_, ?_, ?_, ?_⟩
  · rw [capacity_retag]
    exact ha.size_le
  · intro im him
    obtain ⟨im', him', rfl⟩ := Option.map_eq_some_iff.mp him
    rw [capacity_retag, Array.size_map]
    exact ha.imag_size im' him'
  · intro p hp
    rw [re_retag, ha.re_of_size_le hp, Storage.store_zero]
  · intro p hp
    rw [im_retag, ha.im_of_size_le hp, Storage.store_zero]
  · intro h
    simp [NDArray.retag, hk h]

theorem WellFormed.dropImag (ha : a.WellFormed) : WellFormed { a with imag := none } :=
  { ha with
    imag_size := fun _ h => by cases h
    imag_zero := fun _ h => by cases h
    logical_real := fun _ => rfl }

theorem convert_wellFormed (ha : a.WellFormed) (h : a.convert kind = .ok b) : b.WellFormed := by
  unfold convert at h
  split at h
  · cases h
    exact ha
  · split at h
    · split at h
      · cases h
      · split at h
        · cases h
        · cases h
          exact ha.dropImag.retag fun _ => rfl
    · cases h
      exact ha.retag fun hl => by contradiction

/-! ### Storing -/

@[simp] theorem dims_store (z : Cartesian Float) : (a.store p z).dims = a.dims := rfl

@[simp] theorem kind_store (z : Cartesian Float) : (a.store p z).kind = a.kind := rfl

@[simp] theorem size_store (z : Cartesian Float) : (a.store p z).size = a.size := rfl

@[simp] theorem capacity_store (z : Cartesian Float) : (a.store p z).capacity = a.capacity := by
  simp [capacity, store]

@[simp] theorem isComplex_store (z : Cartesian Float) : (a.store p z).isComplex = a.isComplex := by
  simp [isComplex, store]

theorem re_store (ha : a.WellFormed) (hp : p < a.size) (z : Cartesian Float) :
    (a.store p z).re q = if q = p then a.kind.store z.re else a.re q :=
  getD_setIfInBounds (hp.trans_le ha.size_le)

theorem im_store (ha : a.WellFormed) (hp : p < a.size) {z : Cartesian Float}
    (hz : a.isComplex = false → z.im = 0) :
    (a.store p z).im q = if q = p then a.kind.store z.im else a.im q := by
  cases h : a.imag with
  | none =>
    rw [hz (by simp [isComplex, h]), Storage.store_zero, im_of_real h, ite_self]
    exact im_of_real (by simp [store, h])
  | some im =>
    rw [im_of_complex h]
    refine (im_of_complex (by simp only [store, h, Option.map_some]; rfl)).trans ?_
    exact getD_setIfInBounds (by rw [ha.imag_size im h]; exact hp.trans_le ha.size_le)

def stored (kind : Storage) (z : Cartesian Float) : Cartesian Float :=
  ⟨kind.store z.re, kind.store z.im⟩

theorem cartesian_store (ha : a.WellFormed) (hp : p < a.size) {z : Cartesian Float}
    (hz : a.isComplex = false → z.im = 0) :
    (a.store p z).cartesian q = if q = p then stored a.kind z else a.cartesian q := by
  rw [cartesian, re_store ha hp, im_store ha hp hz]
  split <;> rfl

theorem WellFormed.store (ha : a.WellFormed) (hp : p < a.size) (z : Cartesian Float) :
    (a.store p z).WellFormed := by
  refine wellFormed_iff.mpr ⟨ha.two_axes, ha.extent_le, ha.counted, ?_, ?_, ?_, ?_, ?_⟩
  · rw [capacity_store]
    exact ha.size_le
  · intro im him
    obtain ⟨im', him', rfl⟩ := Option.map_eq_some_iff.mp him
    rw [capacity_store, Array.size_setIfInBounds]
    exact ha.imag_size im' him'
  · intro q hq
    rw [re_store ha hp, if_neg (by rw [size_store] at hq; omega)]
    exact ha.re_of_size_le hq
  · intro q hq
    cases h : a.imag with
    | none => exact im_of_real (by simp [NDArray.store, h])
    | some im =>
      have hc : a.isComplex = true := by simp [isComplex, h]
      rw [im_store ha hp (by simp [hc]), if_neg (by rw [size_store] at hq; omega)]
      exact ha.im_of_size_le hq
  · intro hk
    simp [NDArray.store, ha.logical_real hk]

end NDArray
end NumericArrays

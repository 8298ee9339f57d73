import NumericArrays.Elementwise.Comparison
import NumericArrays.Elementwise.Logic
import NumericArrays.Elementwise.Sign
import NumericArrays.Proofs.NDArray.Capacity

/-! Operators element by element: their results are well formed, and the room at the end of the operands
    does not show in them. -/
namespace NumericArrays

def AnswersWellFormed (r : Except Fault Value) : Prop := ∀ v, r = .ok v → v.WellFormed

namespace NDArray

variable {a b : NDArray} {kind : Storage}

/-- Equal shape, kind and elements. An imaginary part of zero may be there or not, and so may room at the
    end. -/
structure SameElements (a b : NDArray) : Prop where
  dims_eq : a.dims = b.dims
  kind_eq : a.kind = b.kind
  cartesian_eq : ∀ p, a.cartesian p = b.cartesian p

namespace SameElements

theorem refl (a : NDArray) : a.SameElements a := ⟨rfl, rfl, fun _ => rfl⟩

theorem size_eq (h : a.SameElements b) : a.size = b.size := by
  rw [size, size, h.dims_eq]

theorem re_eq (h : a.SameElements b) (p : Nat) : a.re p = b.re p :=
  congrArg Cartesian.re (h.cartesian_eq p)

theorem im_eq (h : a.SameElements b) (p : Nat) : a.im p = b.im p :=
  congrArg Cartesian.im (h.cartesian_eq p)

theorem hasZeroImag_eq (h : a.SameElements b) : a.hasZeroImag = b.hasZeroImag := by
  rw [Bool.eq_iff_iff, hasZeroImag_iff, hasZeroImag_iff, h.size_eq]
  simp only [h.im_eq]

theorem checkTruth_eq (h : a.SameElements b) : a.checkTruth = b.checkTruth := by
  have hnan : a.reals.any (·.isNaN) = b.reals.any (·.isNaN) := by
    rw [Bool.eq_iff_iff, any_isNaN_reals_iff, any_isNaN_reals_iff, h.size_eq]
    simp only [h.re_eq]
  rw [checkTruth, checkTruth, h.hasZeroImag_eq, hnan]

end SameElements

theorem Twin.sameElements (h : a.Twin b) : a.SameElements b := ⟨h.dims_eq, h.kind_eq, h.cartesian_eq⟩

/-- Real results as long as their shape asks for. -/
theorem wellFormed_real (ha : a.WellFormed) (f : Nat → Float) :
    WellFormed ⟨a.dims, .ofFn fun i : Fin a.dims.count => f i, none, kind⟩ :=
  ha.withBuffers Array.size_ofFn (fun _ h => by cases h) fun _ => rfl

theorem wellFormed_complex (ha : a.WellFormed) (f : Nat → Cartesian Float) (hk : kind ≠ .logical) :
    WellFormed ⟨a.dims, (Array.ofFn fun i : Fin a.dims.count => f i).map (·.re),
      some ((Array.ofFn fun i : Fin a.dims.count => f i).map (·.im)), kind⟩ :=
  ha.withBuffers (Array.size_map.trans Array.size_ofFn)
    (fun _ h => by cases h; exact Array.size_map.trans Array.size_ofFn) fun h => absurd h hk

end NDArray

namespace Elementwise

variable {a a' b b' : NDArray} {dims : Shape}

/-- The result has the shape of one of the operands. -/
theorem broadcast_cases (h : broadcast a b = .ok dims) : dims = a.dims ∨ dims = b.dims := by
  unfold broadcast at h
  split at h
  · cases h
    exact .inr rfl
  · split at h
    · cases h
      exact .inl rfl
    · cases h

theorem exists_operand (ha : a.WellFormed) (hb : b.WellFormed) (h : broadcast a b = .ok dims) :
    ∃ c : NDArray, c.WellFormed ∧ c.dims = dims := by
  rcases broadcast_cases h with rfl | rfl
  · exact ⟨a, ha, rfl⟩
  · exact ⟨b, hb, rfl⟩

/-- Only shapes decide which elements are paired. -/
theorem source_congr (ha : a.dims = a'.dims) (i : Nat) : source a i = source a' i := by
  rw [source, source, NDArray.isScalar_congr ha]

theorem broadcast_congr (ha : a.dims = a'.dims) (hb : b.dims = b'.dims) :
    broadcast a b = broadcast a' b' := by
  unfold broadcast
  rw [NDArray.isScalar_congr ha, NDArray.isScalar_congr hb, ha, hb]

theorem bothScalar_congr (ha : a.dims = a'.dims) (hb : b.dims = b'.dims) :
    bothScalar a b = bothScalar a' b' := by
  rw [bothScalar, bothScalar, NDArray.isScalar_congr ha, NDArray.isScalar_congr hb]

theorem logicalResult_congr (ha : a.dims = a'.dims) (hb : b.dims = b'.dims) (f : Nat → Bool) :
    logicalResult a b dims f = logicalResult a' b' dims f := by
  rw [logicalResult, logicalResult, bothScalar_congr ha hb]

theorem logicalResult_wellFormed (ha : a.WellFormed) (hb : b.WellFormed)
    (h : broadcast a b = .ok dims) (f : Nat → Bool) : (logicalResult a b dims f).WellFormed := by
  obtain ⟨c, hc, rfl⟩ := exists_operand ha hb h
  unfold logicalResult
  split
  · trivial
  · exact NDArray.wellFormed_real hc fun i => ofBool (f i)

end Elementwise

open Elementwise

/-! ### Arithmetic -/

namespace Arithmetic

variable {op : Arithmetic} {a a' b b' : NDArray} {v v' w w' : Value}

def realAnswer (op : Arithmetic) (a b : NDArray) (dims : Shape) : Value :=
  let kind := a.kind.arithmetic b.kind
  if kind == .double && bothScalar a b then .number (.real (op.realElement a b 0))
  else .array ⟨dims, .ofFn fun i : Fin dims.count => op.realElement a b i, none, kind⟩

def complexAnswer (op : Arithmetic) (a b : NDArray) (dims : Shape) : Value :=
  let kind := a.kind.arithmetic b.kind
  if kind == .double && bothScalar a b then .number (.complex (op.complexElement a b 0))
  else
    let zs := Array.ofFn fun i : Fin dims.count => op.complexElement a b i
    .array ⟨dims, zs.map (·.re), some (zs.map (·.im)), kind⟩

theorem onArrays_eq (op : Arithmetic) (a b : NDArray) :
    op.onArrays a b = (broadcast a b).map fun dims =>
      if op.needsComplex a b dims.count then op.complexAnswer a b dims else op.realAnswer a b dims := by
  unfold onArrays realAnswer complexAnswer
  cases broadcast a b with
  | error e => rfl
  | ok dims =>
    simp only [bind, Except.bind, pure, Except.pure, Except.map]
    split <;> split <;> rfl

/-- An answer is a number, or an array of real or of complex elements that is not logical. -/
theorem onArrays_ok {r : Value} (h : op.onArrays a b = .ok r) :
    (∃ x, r = .number x) ∨ ∃ dims, broadcast a b = .ok dims ∧
      (r = .array ⟨dims, .ofFn fun i : Fin dims.count => op.realElement a b i, none,
          a.kind.arithmetic b.kind⟩ ∨
        r = .array ⟨dims, (Array.ofFn fun i : Fin dims.count => op.complexElement a b i).map (·.re),
          some ((Array.ofFn fun i : Fin dims.count => op.complexElement a b i).map (·.im)),
          a.kind.arithmetic b.kind⟩) := by
  rw [onArrays_eq] at h
  obtain ⟨dims, hdims, rfl⟩ := exists_of_map_ok h
  unfold complexAnswer realAnswer
  dsimp only
  split
  · split
    · exact .inl ⟨_, rfl⟩
    · exact .inr ⟨dims, hdims, .inr rfl⟩
  · split
    · exact .inl ⟨_, rfl⟩
    · exact .inr ⟨dims, hdims, .inl rfl⟩

theorem onArrays_wellFormed (ha : a.WellFormed) (hb : b.WellFormed) :
    AnswersWellFormed (op.onArrays a b) := by
  intro r h
  rcases onArrays_ok h with ⟨x, rfl⟩ | ⟨dims, hdims, hr⟩
  · trivial
  · obtain ⟨c, hc, rfl⟩ := exists_operand ha hb hdims
    rcases hr with rfl | rfl
    · exact NDArray.wellFormed_real hc _
    · exact NDArray.wellFormed_complex hc _ (Storage.arithmetic_ne_logical a.kind b.kind)

theorem realAnswer_congr (ha : a.SameElements a') (hb : b.SameElements b') (dims : Shape) :
    op.realAnswer a b dims = op.realAnswer a' b' dims := by
  have helement : ∀ i, op.realElement a b i = op.realElement a' b' i := by
    intro i
    unfold realElement
    rw [ha.kind_eq, hb.kind_eq, ha.re_eq, hb.re_eq, source_congr ha.dims_eq, source_congr hb.dims_eq]
  unfold realAnswer
  simp only [ha.kind_eq, hb.kind_eq, bothScalar_congr ha.dims_eq hb.dims_eq, helement]

theorem complexAnswer_congr (ha : a.SameElements a') (hb : b.SameElements b') (dims : Shape) :
    op.complexAnswer a b dims = op.complexAnswer a' b' dims := by
  have helement : ∀ i, op.complexElement a b i = op.complexElement a' b' i := by
    intro i
    unfold complexElement
    rw [ha.kind_eq, hb.kind_eq, ha.cartesian_eq, hb.cartesian_eq, source_congr ha.dims_eq,
      source_congr hb.dims_eq]
  unfold complexAnswer
  simp only [ha.kind_eq, hb.kind_eq, bothScalar_congr ha.dims_eq hb.dims_eq, helement]

theorem onArrays_of_twin (ha : a.Twin a') (hb : b.Twin b') : op.onArrays a b = op.onArrays a' b' := by
  have hneeds : ∀ n, op.needsComplex a b n = op.needsComplex a' b' n := by
    intro n
    unfold needsComplex
    simp only [ha.isComplex_eq, hb.isComplex_eq, ha.re_eq, hb.re_eq, source_congr ha.dims_eq,
      source_congr hb.dims_eq]
  rw [onArrays_eq, onArrays_eq, broadcast_congr ha.dims_eq hb.dims_eq]
  simp only [hneeds, realAnswer_congr ha.sameElements hb.sameElements,
    complexAnswer_congr ha.sameElements hb.sameElements]

theorem apply_wellFormed (hv : v.WellFormed) (hw : w.WellFormed) :
    AnswersWellFormed (op.apply v w) := by
  unfold apply
  split
  · intro r h
    cases h
    trivial
  · exact onArrays_wellFormed hv.toArray hw.toArray

theorem apply_of_twin (hv : v.Twin v') (hw : w.Twin w') : op.apply v w = op.apply v' w' := by
  have harrays : op.onArrays v.toArray w.toArray = op.onArrays v'.toArray w'.toArray :=
    onArrays_of_twin hv.toArray hw.toArray
  rcases hv.cases with ⟨x, rfl, rfl⟩ | ⟨a, a', rfl, rfl, -⟩
  · rcases hw.cases with ⟨y, rfl, rfl⟩ | ⟨b, b', rfl, rfl, -⟩
    · rfl
    · exact harrays
  · exact harrays

end Arithmetic

/-! ### Comparison and logic -/

namespace Comparison

variable {op : Comparison} {v v' w w' : Value}

theorem apply_ok {r : Value} (h : op.apply v w = .ok r) :
    ∃ dims f, broadcast v.toArray w.toArray = .ok dims ∧ r = logicalResult v.toArray w.toArray dims f := by
  unfold apply at h
  obtain ⟨dims, hdims, h⟩ := exists_of_bind_ok h
  cases h
  exact ⟨dims, _, hdims, rfl⟩

theorem apply_wellFormed (hv : v.WellFormed) (hw : w.WellFormed) :
    AnswersWellFormed (op.apply v w) := by
  intro r h
  obtain ⟨dims, f, hdims, rfl⟩ := apply_ok h
  exact logicalResult_wellFormed hv.toArray hw.toArray hdims f

/-- Real numbers compare as complex ones do. -/
theorem complex_ofReals (op : Comparison) (x y : Float) : op.complex ⟨x, 0⟩ ⟨y, 0⟩ = op.real x y := by
  cases op with
  | eq => simp [complex, real, zero_beq_zero]
  | ne => simp [complex, real, bne, zero_beq_zero]
  | lt | le | gt | ge => rfl

/-- Had the elements been compared as complex numbers, the outcome would be the same. -/
theorem element_eq_complex (op : Comparison) (a b : NDArray) (i : Nat) :
    op.element a b i = op.complex (a.cartesian (source a i)) (b.cartesian (source b i)) := by
  unfold element
  dsimp only
  split
  · rfl
  · rename_i hreal
    simp only [Bool.or_eq_true, not_or, Bool.not_eq_true] at hreal
    rw [NDArray.cartesian_of_real hreal.1, NDArray.cartesian_of_real hreal.2, complex_ofReals]

theorem apply_congr (hv : v.toArray.SameElements v'.toArray) (hw : w.toArray.SameElements w'.toArray) :
    op.apply v w = op.apply v' w' := by
  have helement : ∀ i, op.element v.toArray w.toArray i = op.element v'.toArray w'.toArray i := by
    intro i
    rw [element_eq_complex, element_eq_complex, hv.cartesian_eq, hw.cartesian_eq,
      source_congr hv.dims_eq, source_congr hw.dims_eq]
  unfold apply
  simp only [broadcast_congr hv.dims_eq hw.dims_eq, logicalResult_congr hv.dims_eq hw.dims_eq,
    funext helement]

theorem apply_of_twin (hv : v.Twin v') (hw : w.Twin w') : op.apply v w = op.apply v' w' :=
  apply_congr hv.toArray.sameElements hw.toArray.sameElements

end Comparison

namespace Connective

variable {op : Connective} {v v' w w' : Value}

theorem apply_ok {r : Value} (h : op.apply v w = .ok r) :
    ∃ dims f, broadcast v.toArray w.toArray = .ok dims ∧ r = logicalResult v.toArray w.toArray dims f := by
  unfold apply at h
  obtain ⟨-, -, h⟩ := exists_of_bind_ok h
  obtain ⟨-, -, h⟩ := exists_of_bind_ok h
  obtain ⟨dims, hdims, h⟩ := exists_of_bind_ok h
  cases h
  exact ⟨dims, _, hdims, rfl⟩

theorem apply_wellFormed (hv : v.WellFormed) (hw : w.WellFormed) :
    AnswersWellFormed (op.apply v w) := by
  intro r h
  obtain ⟨dims, f, hdims, rfl⟩ := apply_ok h
  exact logicalResult_wellFormed hv.toArray hw.toArray hdims f

theorem apply_congr (hv : v.toArray.SameElements v'.toArray) (hw : w.toArray.SameElements w'.toArray) :
    op.apply v w = op.apply v' w' := by
  unfold apply NDArray.truth
  simp only [hv.checkTruth_eq, hw.checkTruth_eq, broadcast_congr hv.dims_eq hw.dims_eq,
    logicalResult_congr hv.dims_eq hw.dims_eq, source_congr hv.dims_eq, source_congr hw.dims_eq,
    hv.re_eq, hw.re_eq]

theorem apply_of_twin (hv : v.Twin v') (hw : w.Twin w') : op.apply v w = op.apply v' w' :=
  apply_congr hv.toArray.sameElements hw.toArray.sameElements

end Connective

namespace Value

variable {v w : Value}

theorem not_ok {r : Value} (h : v.not = .ok r) :
    (∃ x, r = .number x) ∨ ∃ a, v = .array a ∧
      r = .array ⟨a.dims, .ofFn fun i : Fin a.size => ofBool !(a.truth i), none, .logical⟩ := by
  unfold not at h
  obtain ⟨-, -, h⟩ := exists_of_bind_ok h
  cases v with
  | number x =>
    cases h
    exact .inl ⟨_, rfl⟩
  | array a =>
    cases h
    exact .inr ⟨a, rfl, rfl⟩

theorem not_wellFormed (hv : v.WellFormed) : AnswersWellFormed v.not := by
  intro r h
  rcases not_ok h with ⟨x, rfl⟩ | ⟨a, rfl, rfl⟩
  · trivial
  · exact NDArray.wellFormed_real hv fun i => ofBool !(a.truth i)

theorem not_of_twin (h : v.Twin w) : v.not = w.not := by
  have hcheck := h.toArray.sameElements.checkTruth_eq
  rcases h.cases with ⟨x, rfl, rfl⟩ | ⟨a, b, rfl, rfl, hab⟩
  · rfl
  · change a.checkTruth = b.checkTruth at hcheck
    unfold not NDArray.truth
    simp only [toArray, hcheck, hab.re_eq, hab.dims_eq]
    rw [hab.size_eq]

/-! ### Signs -/

theorem neg_wellFormed (hv : v.WellFormed) : v.neg.WellFormed := by
  cases v with
  | number x => trivial
  | array a =>
    have ha : a.WellFormed := hv
    refine ha.withBuffers (Array.size_map.trans (NDArray.size_reals ha)) ?_ ?_
    · intro im him
      obtain ⟨im', him', rfl⟩ := Option.map_eq_some_iff.mp him
      exact Array.size_map.trans (NDArray.size_of_imags ha him')
    · intro hk
      exact absurd hk (Storage.arithmetic_ne_logical a.kind a.kind)

theorem neg_of_twin (h : v.Twin w) : v.neg = w.neg := by
  rcases h.cases with ⟨x, rfl, rfl⟩ | ⟨a, b, rfl, rfl, hab⟩
  · rfl
  · have halike := hab.alike
    unfold neg NDArray.neg
    simp only [halike.dims_eq, halike.reals_eq, halike.imags_eq, halike.kind_eq]

theorem conj_wellFormed (hv : v.WellFormed) : v.conj.WellFormed := by
  cases v with
  | number x => trivial
  | array a =>
    have ha : a.WellFormed := hv
    show NDArray.WellFormed (if a.isComplex = true then _ else a)
    split
    · refine ha.withBuffers (NDArray.size_reals ha) ?_ ?_
      · intro im him
        obtain ⟨im', him', rfl⟩ := Option.map_eq_some_iff.mp him
        exact Array.size_map.trans (NDArray.size_of_imags ha him')
      · intro hk
        rw [NDArray.imags_of_logical ha hk]
        rfl
    · exact ha

theorem Twin.conj (h : v.Twin w) : v.conj.Twin w.conj := by
  refine ⟨conj_wellFormed h.left, conj_wellFormed h.right, ?_⟩
  rcases h.cases with ⟨x, rfl, rfl⟩ | ⟨a, b, rfl, rfl, hab⟩
  · rfl
  · have halike := hab.alike
    show array (a.conj).trim = array (b.conj).trim
    unfold NDArray.conj
    rw [hab.isComplex_eq]
    split
    · have hconj : ({ a with real := a.reals, imag := a.imags.map (·.map (-·)) } : NDArray) =
          { b with real := b.reals, imag := b.imags.map (·.map (-·)) } := by
        simp only [halike.dims_eq, halike.reals_eq, halike.imags_eq, halike.kind_eq]
      rw [hconj]
    · rw [hab.trim_eq]

end Value
end NumericArrays

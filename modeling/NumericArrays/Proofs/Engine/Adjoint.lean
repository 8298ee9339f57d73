import NumericArrays.Proofs.Engine.Turned

/-! Transposing twice gives a matrix back, and the conjugate transpose is the transpose of the conjugate and
    the conjugate of the transpose. -/
namespace NumericArrays

/-! ### Conjugates of arrays -/

namespace NDArray

variable {a : NDArray} {kind : Storage}

theorem conj_of_complex (h : a.isComplex = true) :
    a.conj = { a with real := a.reals, imag := a.imags.map (·.map (-·)) } := if_pos h

theorem dims_conj (a : NDArray) : a.conj.dims = a.dims := by
  unfold conj
  split
  · rfl
  · rfl

theorem kind_conj (a : NDArray) : a.conj.kind = a.kind := by
  unfold conj
  split
  · rfl
  · rfl

theorem isComplex_conj (a : NDArray) : a.conj.isComplex = a.isComplex := by
  unfold conj
  split
  · simp [isComplex, imags]
  · rfl

/-- Room at the end is left away, and so is a sign that its zeros might get. -/
theorem cartesian_conj (ha : a.WellFormed) (h : a.isComplex = true) {p : Nat} (hp : p < a.size) :
    a.conj.cartesian p = (a.cartesian p).conj := by
  obtain ⟨im, him⟩ := Option.isSome_iff_exists.mp h
  have hlt : p < im.size := by
    rw [ha.imag_size im him]
    exact hp.trans_le ha.size_le
  have hre : a.conj.re p = a.re p := by
    rw [conj_of_complex h]
    exact getD_extract.trans (if_pos hp)
  have him' : a.conj.im p = -a.im p := by
    have hconj : a.conj.imag = some ((im.extract 0 a.size).map (-·)) := by
      rw [conj_of_complex h, imags, him]
      rfl
    rw [im_of_complex hconj, im_of_complex him]
    simp [hp, hlt]
  rw [cartesian, hre, him']
  rfl

theorem retag_conj (h : a.isComplex = true) (hk : kind ≠ .logical) :
    a.conj.retag kind = (a.retag kind).conj := by
  have hneg (x : Array Float) : (x.map (-·)).map kind.store = (x.map kind.store).map (-·) := by
    rw [Array.map_map, Array.map_map]
    exact congrArg (x.map ·) (funext (Storage.store_neg hk))
  rw [conj_of_complex h, conj_of_complex ((isComplex_retag kind).trans h)]
  simp only [retag, reals, imags, Array.map_extract, Option.map_map, Function.comp_def, hneg]
  rfl

end NDArray

theorem Value.dims_conj (v : Value) : v.conj.dims = v.dims := by
  cases v with
  | number x => rfl
  | array a => exact a.dims_conj

namespace Mat

variable {K : Type} {m n : Nat}

/-- What is done to every entry can be done after the entries have found their places. -/
theorem transposeWith_eq_mapColumns [Zero K] (f : K → K) (a : Mat K m n) :
    transposeWith f a = (transposeWith id a).mapColumns (·.map f) := by
  apply ext_entry
  intro j i
  have hmap : ((transposeWith id a).mapColumns (·.map f)).entry j i = f ((transposeWith id a).entry j i) := by
    rw [entry, mapColumns, get_map, get_map]
    rfl
  rw [hmap, entry_transposeWith, entry_transposeWith, id_eq]

/-- It can be done before as well. -/
theorem transposeWith_eq_of_entry [Zero K] (f : K → K) (a b : Mat K m n)
    (h : ∀ i j, b.entry i j = f (a.entry i j)) : transposeWith id b = transposeWith f a := by
  apply ext_entry
  intro j i
  rw [entry_transposeWith, entry_transposeWith, h, id_eq]

theorem toArray_mapColumns_conj (z : Mat (Cartesian Float) m n) (hm : m ≤ maxCount)
    (hsize : m * n ≤ maxCount) : (z.mapColumns (·.map Cartesian.conj)).toArray = z.toArray.conj := by
  have hflatten : (z.mapColumns (·.map Cartesian.conj)).columns.flatten.toArray =
      z.columns.flatten.toArray.map Cartesian.conj := by
    rw [← Vector.toArray_map, Vector.map_flatten]
    rfl
  have hall (f : Cartesian Float → Float) :
      (z.columns.flatten.toArray.map f).extract 0 z.toArray.size = z.columns.flatten.toArray.map f := by
    apply Array.extract_eq_self_of_le
    rw [Array.size_map, size_flatten, size_toArray z hm hsize]
  rw [NDArray.conj_of_complex rfl, toArray, hflatten]
  change _ = (⟨[m, n], (z.columns.flatten.toArray.map (·.re)).extract 0 z.toArray.size,
    some (((z.columns.flatten.toArray.map (·.im)).extract 0 z.toArray.size).map (-·)), .double⟩ : NDArray)
  rw [hall, hall]
  simp only [ArrayElement.pack, Array.map_map]
  rfl

end Mat

/-! ### Conjugate transposes -/

namespace Dense

variable {a : NDArray}

/-- The conjugate of the transpose. -/
theorem adjoint_eq_conj (ha : a.WellFormed) (h : a.dims.isMatrix = true) :
    transpose (Cartesian Float) Cartesian.conj a =
      (transpose (Cartesian Float) id a).map NDArray.conj := by
  rw [transpose_eq _ h, transpose_eq _ h, Mat.transposeWith_eq_mapColumns Cartesian.conj,
    Mat.toArray_mapColumns_conj _ ha.cols_le ha.cols_mul_rows_le]
  rfl

/-- The transpose of the conjugate. -/
theorem transpose_conj (ha : a.WellFormed) (h : a.dims.isMatrix = true) (hcomplex : a.isComplex = true) :
    transpose (Cartesian Float) id a.conj = transpose (Cartesian Float) Cartesian.conj a := by
  have hentry (i : Fin a.rows) (j : Fin a.cols) :
      (Mat.ofArray a.conj a.rows a.cols : Mat (Cartesian Float) _ _).entry i j =
        ((Mat.ofArray a a.rows a.cols : Mat (Cartesian Float) _ _).entry i j).conj := by
    have hplace : i.val + j.val * a.rows < a.size := by
      rw [ha.size_of_isMatrix h, ← ha.cols_eq h]
      exact Mat.place_lt i j
    rw [Mat.ofArray, Mat.ofArray, Mat.entry_ofFn, Mat.entry_ofFn]
    exact NDArray.cartesian_conj ha hcomplex hplace
  have hread := Mat.transposeWith_eq_of_entry Cartesian.conj _ _ hentry
  rw [transpose_eq _ h, transpose_eq _ (a.dims_conj.symm ▸ h), ← hread]
  rw [NDArray.conj_of_complex hcomplex]
  rfl

end Dense

namespace Engine

variable {e : Engine} {a : NDArray} {v w : Value}

theorem adjointed_of_real (h : v.isComplex = false) : e.adjointed v = e.transposed v := by
  unfold adjointed
  rw [h]
  rfl

theorem adjointed_of_complex (hcomplex : a.isComplex = true) (hunit : ¬ (Value.array a).dims.isUnit = true) :
    e.adjointed (.array a) = (do
      let h ← e.adjoint a
      Value.ofKind a.kind h) := by
  have hreal : ¬ (!(Value.array a).isComplex) = true := by
    change ¬ (!a.isComplex) = true
    rw [hcomplex]
    decide
  unfold adjointed
  rw [if_neg hreal, if_neg hunit]
  rfl

theorem transposed_of_complex (hcomplex : a.isComplex = true) (hunit : ¬ (Value.array a).dims.isUnit = true) :
    e.transposed (.array a) = (do
      let t ← e.transpose .complex a
      Value.ofKind a.kind t) := by
  unfold transposed
  rw [if_neg hunit]
  change (e.transpose (if a.isComplex then .complex else .real) a >>= _) = _
  rw [hcomplex]
  rfl

/-- The conjugate of the transpose, on complex matrices. -/
theorem adjointed_eq_conj (hv : Value.Planar (.array a)) (hcomplex : a.isComplex = true)
    (hunit : ¬ (Value.array a).dims.isUnit = true) (hw : dense.transposed (.array a) = pure w) :
    dense.adjointed (.array a) = pure w.conj := by
  have hkind : a.kind ≠ .logical := fun hk =>
    NDArray.isComplex_iff.mp hcomplex (hv.wellFormed.logical_real hk)
  obtain ⟨c, hc, hflipped, htransposed⟩ := transposed_array hv hunit
  obtain rfl : w = .array (c.retag a.kind) := by
    rw [hw] at htransposed
    exact Except.ok.inj (congrArg Logged.result htransposed)
  rw [hcomplex] at hc
  have htranspose : Dense.transpose (Cartesian Float) id a = .ok c := congrArg Logged.result hc
  have hadjoint : dense.adjoint a = pure c.conj := by
    refine congrArg Logged.ofExcept ?_
    rw [Dense.adjoint_eq_conj hv.wellFormed hv.isMatrix, htranspose]
    rfl
  have hccomplex : c.isComplex = true := hflipped.isComplex_eq.trans hcomplex
  rw [adjointed_of_complex hcomplex hunit, hadjoint]
  refine (ofKind_of_double (c.kind_conj.trans hflipped.kind_eq) hkind).trans ?_
  rw [NDArray.retag_conj hccomplex hkind]
  rfl

/-- The transpose of the conjugate, on complex matrices. -/
theorem transposed_conj (hv : Value.Planar (.array a)) (hcomplex : a.isComplex = true)
    (hunit : ¬ (Value.array a).dims.isUnit = true) :
    dense.transposed (.array a.conj) = dense.adjointed (.array a) := by
  have hunit' : ¬ (Value.array a.conj).dims.isUnit = true := by
    change ¬ a.conj.dims.isUnit = true
    rw [a.dims_conj]
    exact hunit
  have hread : dense.transpose .complex a.conj = dense.adjoint a :=
    congrArg Logged.ofExcept (Dense.transpose_conj hv.wellFormed hv.isMatrix hcomplex)
  rw [adjointed_of_complex hcomplex hunit,
    transposed_of_complex (a.isComplex_conj.trans hcomplex) hunit', hread, a.kind_conj]

/-- The conjugate transpose of every matrix is the conjugate of its transpose and the transpose of its
    conjugate. -/
theorem adjointed_eq (hv : v.Planar) (hw : dense.transposed v = pure w) (hturned : v.Turned w) :
    dense.adjointed v = pure w.conj ∧ dense.transposed v.conj = pure w.conj := by
  cases hcomplex : v.isComplex with
  | false =>
    have hreal : w.isComplex = false := hturned.isComplex_eq.trans hcomplex
    rw [adjointed_of_real hcomplex, Value.conj_of_real hcomplex, Value.conj_of_real hreal]
    exact ⟨hw, hw⟩
  | true =>
    by_cases hunit : v.dims.isUnit = true
    · obtain rfl : w = v := by
        rw [transposed_of_isUnit hunit] at hw
        exact (Except.ok.inj (congrArg Logged.result hw)).symm
      have hunit' : w.conj.dims.isUnit = true := w.dims_conj.symm ▸ hunit
      exact ⟨adjointed_of_isUnit hunit, transposed_of_isUnit hunit'⟩
    · cases v with
      | number x => exact absurd rfl hunit
      | array a =>
        have hadjointed := adjointed_eq_conj hv hcomplex hunit hw
        exact ⟨hadjointed, (transposed_conj hv hcomplex hunit).trans hadjointed⟩

/-- A transpose is made by writing each of its cells once. Every matrix whose elements are numbers of its
    kind has one, the transpose of that is the matrix itself, and the conjugate transpose is the conjugate of
    the transpose and the transpose of the conjugate. -/
theorem transpose_laws (hv : v.Planar) :
    (∀ (K : Type) [Zero K] (f : K → K) (m n : Nat) (x : Mat K m n),
      x.transposeWith f =
        (Mat.writes m n).foldl (fun out (j, i) => out.setEntry j i (f (x.entry i j))) .zero ∧
      ∀ cell, (Mat.writes m n).count cell = 1) ∧
    ∃ w, dense.transposed v = pure w ∧ v.Turned w ∧
      (∃ u, dense.transposed w = pure u ∧ u.Matches v) ∧
      dense.adjointed v = pure w.conj ∧ dense.transposed v.conj = pure w.conj := by
  obtain ⟨w, hw, hturned⟩ := exists_turned hv
  obtain ⟨u, hu, hback⟩ := exists_turned hturned.right
  constructor
  · intro K _ f m n x
    exact ⟨Mat.transposeWith_eq_foldl f x, Mat.count_writes⟩
  · exact ⟨w, hw, hturned, ⟨u, hu, hback.matches_of_turned hturned.symm⟩, adjointed_eq hv hw hturned⟩

/-- Two complex numbers of 32 bits, one of them infinite. -/
def complexRow : NDArray := ⟨[1, 2], #[1, 2], some #[3, Binary64.infinity], .single⟩

theorem complexRow_planar : Value.Planar (.array complexRow) where
  wellFormed := by
    refine NDArray.wellFormed_exact (by decide) (by decide) (by decide) ?_ fun h => by cases h
    intro im him
    obtain rfl := Option.some.inj him
    decide
  isMatrix := by decide
  faithful := by
    refine NDArray.faithful_of_mem (by decide +kernel) ?_
    intro im him
    obtain rfl := Option.some.inj him
    decide +kernel

/-- A row becomes a column, and the signs of the imaginary parts change. -/
theorem transpose_laws_complexRow : Value.Planar (.array complexRow) ∧
    ∃ w, dense.transposed (.array complexRow) = pure w ∧ Value.Turned (.array complexRow) w ∧
      dense.adjointed (.array complexRow) = pure w.conj ∧
      w.conj = .array ⟨[2, 1], #[1, 2], some #[-3, -Binary64.infinity], .single⟩ := by
  obtain ⟨-, w, hw, hturned, -, hadjointed, -⟩ := transpose_laws complexRow_planar
  refine ⟨complexRow_planar, w, hw, hturned, hadjointed, ?_⟩
  have hresult : (dense.adjointed (.array complexRow)).result =
      .ok (.array ⟨[2, 1], #[1, 2], some #[-3, -Binary64.infinity], .single⟩) := by decide +kernel
  rw [hadjointed] at hresult
  exact Except.ok.inj hresult

end Engine
end NumericArrays

import NumericArrays.Proofs.Elementwise.Transposes

/-! Division from the right is division from the left of the transposes, on the engine of this library. -/
namespace NumericArrays

open Elementwise

/-! ### Single elements -/

theorem Storage.arithmetic_comm (k l : Storage) : k.arithmetic l = l.arithmetic k := by
  cases k <;> cases l <;> rfl

theorem Value.Matches.trans {u v w : Value} (h : u.Matches v) (h' : v.Matches w) : u.Matches w where
  isNumber_eq := h.isNumber_eq.trans h'.isNumber_eq
  toArray :=
    { dims_same := Shape.same_iff.mpr fun axis =>
        (Shape.same_iff.mp h.toArray.dims_same axis).trans (Shape.same_iff.mp h'.toArray.dims_same axis)
      kind_eq := h.toArray.kind_eq.trans h'.toArray.kind_eq
      reals_eq := h.toArray.reals_eq.trans h'.toArray.reals_eq
      imags_eq := h.toArray.imags_eq.trans h'.toArray.imags_eq }

namespace Arithmetic

variable {a b r s : Value}

/-- Beside a single element the order of the operands decides about ones at the end of the shape only. -/
theorem resultDims_swap (h : a.size = 1 ∨ b.size = 1) (axis : Nat) :
    (resultDims a b).extent axis = (resultDims b a).extent axis := by
  by_cases ha : a.size = 1
  · by_cases hb : b.size = 1
    · rw [← Shape.same_iff.mp (same_resultDims ha hb), ← Shape.same_iff.mp (same_resultDims hb ha)]
    · rw [resultDims, resultDims, if_pos ha, if_neg hb]
  · rw [resultDims, resultDims, if_neg ha, if_pos (h.resolve_left ha)]

/-- Dividing a number by another one, from the right or from the left. -/
theorem Follows.matches_swapped (h : a.size = 1 ∨ b.size = 1) (hr : Follows .rightDiv a b r)
    (hs : Follows .leftDiv b a s) (hrw : r.WellFormed) (hsw : s.WellFormed) : r.Matches s := by
  have hruns : RunsComplex .leftDiv b a ↔ RunsComplex .rightDiv a b := by
    simp [RunsComplex, leavesReals, or_comm]
  have hkind : b.kind.arithmetic a.kind = a.kind.arithmetic b.kind := Storage.arithmetic_comm _ _
  have hsize : s.size = r.size := by
    rw [hr.size_eq, hs.size_eq, Shape.count_congr (resultDims_swap h)]
  constructor
  · rw [Bool.eq_iff_iff, hr.isNumber_iff, hs.isNumber_iff, hkind, and_left_comm]
  · apply NDArray.matches_of_cartesian hrw.toArray hsw.toArray
    · intro axis
      rw [Value.dims_toArray, Value.dims_toArray, Shape.same_iff.mp hr.dims_same,
        Shape.same_iff.mp hs.dims_same, resultDims_swap h]
    · rw [Value.kind_toArray, Value.kind_toArray, hr.kind_eq, hs.kind_eq, hkind]
    · rw [Value.isComplex_toArray, Value.isComplex_toArray, Bool.eq_iff_iff, hr.isComplex_iff,
        hs.isComplex_iff, hruns]
    · intro p hp
      rw [Value.size_toArray] at hp
      change r.element p = s.element p
      by_cases hcomplex : RunsComplex .rightDiv a b
      · rw [hr.element_complex hcomplex p hp, hs.element_complex (hruns.mpr hcomplex) p (hsize ▸ hp), hkind]
        rfl
      · rw [hr.element_real hcomplex p hp, hs.element_real (mt hruns.mp hcomplex) p (hsize ▸ hp), hkind]
        rfl

end Arithmetic

/-! ### Systems -/

namespace Dense

variable {a b c : NDArray}

structure RealResult (c : NDArray) : Prop where
  wellFormed : c.WellFormed
  isMatrix : c.dims.isMatrix = true
  kind_eq : c.kind = .double
  imag_none : c.imag = none

theorem realResult_of_result {m n : Nat} (hm : m ≤ maxCount) (hn : n ≤ maxCount) {f : Unit → Mat Float m n}
    (h : result Float f = .ok c) : RealResult c := by
  have hw := result_wellFormed hm hn h
  rw [result_eq] at h
  split at h
  · cases h
    exact ⟨hw, rfl, rfl, rfl⟩
  · cases h

theorem solve_realResult (ha : a.WellFormed) (hb : b.WellFormed) : (solve Float a b).Ensures RealResult :=
  solve_ensures fun _ _ h => realResult_of_result ha.cols_le hb.cols_le h

end Dense

namespace Value

inductive SameOutcome : Except Fault Value → Except Fault Value → Prop
  | fault (e : Fault) : SameOutcome (.error e) (.error e)
  | value {v w : Value} (h : v.Matches w) : SameOutcome (.ok v) (.ok w)

theorem SameOutcome.eq_error {r : Except Fault Value} {e : Fault} (h : SameOutcome (.error e) r) :
    r = .error e := by
  cases h
  rfl

theorem SameOutcome.exists_ok {r : Except Fault Value} {v : Value} (h : SameOutcome (.ok v) r) :
    ∃ w, r = .ok w ∧ v.Matches w := by
  cases h with
  | value h => exact ⟨_, rfl, h⟩

end Value

structure Logged.Agrees (x y : Logged Value) : Prop where
  events_eq : x.events = y.events
  result : Value.SameOutcome x.result y.result

namespace Engine

variable {a b : NDArray} {v w : Value}

/-- The solution `x` of `x * b = a` by way of the transposes: division from the left, then back again. -/
def leftDivTransposed (e : Engine) (a b : Value) : Logged Value := do
  let y ← e.transposed b
  let x ← e.transposed a
  let c ← e.leftDiv y x
  e.transposed c

theorem leftDivTransposed_eq {e : Engine} {x y : Value} (hx : e.transposed v = pure x)
    (hy : e.transposed w = pure y) : e.leftDivTransposed v w = e.leftDiv y x >>= e.transposed := by
  unfold leftDivTransposed
  rw [hy, hx]
  rfl

/-- The way over the transposes, on a single element. -/
theorem rightDiv_agrees_of_scalar (hv : v.Planar) (hw : w.Planar) (h : v.size = 1 ∨ w.size = 1) :
    (dense.rightDiv v w).Agrees (dense.leftDivTransposed v w) := by
  obtain ⟨x, hx, hvx⟩ := exists_turned hv
  obtain ⟨y, hy, hwy⟩ := exists_turned hw
  have hfit : Conforming v w := h.elim .inl fun hw => .inr (.inl hw)
  have hfit' : Conforming w v := h.elim (fun hv => .inr (.inl hv)) .inl
  obtain ⟨r, hr, hra⟩ := Arithmetic.exists_follows .rightDiv hfit
  obtain ⟨s, hs, hsa⟩ := Arithmetic.exists_follows .leftDiv hfit'
  obtain ⟨t, ht, hta⟩ := Arithmetic.exists_follows .leftDiv ((conforming_iff hwy hvx).mpr hfit')
  have hst : s.Turned t := Arithmetic.turned_of_follows hwy hvx hfit' hs ht hsa hta
  obtain ⟨u, hu, htu⟩ := exists_turned hst.right
  have hrs : r.Matches s := hra.matches_swapped h hsa
    (Arithmetic.apply_wellFormed hv.wellFormed hw.wellFormed r hr) hst.left.wellFormed
  have hright : dense.rightDiv v w = pure r := by
    unfold rightDiv
    rw [if_pos (Value.isScalar_or_iff.mpr h), hr]
    rfl
  have hsizes : y.size = 1 ∨ x.size = 1 := by
    rw [hwy.size_eq, hvx.size_eq]
    exact h.symm
  have hleft : dense.leftDiv y x = pure t := by
    unfold leftDiv
    rw [if_pos (Value.isScalar_or_iff.mpr hsizes), ht]
    rfl
  rw [hright, leftDivTransposed_eq hx hy, hleft]
  change Logged.Agrees (pure r) (dense.transposed t)
  rw [hu]
  exact ⟨rfl, .value (hrs.trans (hst.symm.matches_of_turned htu))⟩

/-- What follows after a system has been solved: the solution is converted after it has been transposed, or
    before. -/
theorem agrees_of_solved {solved : Logged NDArray} (hsolved : solved.Ensures Dense.RealResult)
    {kind : Storage} (hkind : kind ≠ .logical) :
    Logged.Agrees
      (do
        let c ← solved
        let d ← dense.transpose .real c
        Value.ofKind kind d)
      (do
        let c ← (do
          let c ← solved
          Value.ofKind kind c)
        dense.transposed c) := by
  cases hresult : solved.result with
  | error e =>
    rw [Logged.bind_of_error hresult, Logged.bind_of_error hresult]
    exact ⟨rfl, .fault e⟩
  | ok c =>
    have hc := hsolved c hresult
    have hreal : c.isComplex = false := by rw [NDArray.isComplex, hc.imag_none]; rfl
    obtain ⟨d, hd, hflipped⟩ := exists_flipped hc.wellFormed hc.isMatrix
    rw [hreal] at hd
    have hturned := turned_of_flipped hc.wellFormed hc.isMatrix hflipped fun h => absurd h hkind
    obtain ⟨t, ht, hct⟩ := exists_turned hturned.left
    have hafter : (do
        let d ← dense.transpose .real c
        Value.ofKind kind d : Logged Value) = pure (.array (d.retag kind)) := by
      change dense.transpose .real c = pure d at hd
      rw [hd]
      exact ofKind_of_double hflipped.kind_eq hkind
    have hbefore : (do
        let c ← solved
        Value.ofKind kind c : Logged Value) = ⟨solved.events, .ok (.array (c.retag kind))⟩ := by
      rw [Logged.bind_of_ok hresult, ofKind_of_double hc.kind_eq hkind]
      exact congrArg (Logged.mk · _) (List.append_nil _)
    rw [Logged.bind_of_ok hresult, hafter, hbefore, Logged.bind_of_ok rfl, ht]
    exact ⟨rfl, .value (hturned.matches_of_turned hct)⟩

/-- Only shapes and numbers enter into a system over the real numbers, not the kinds they are stored in. -/
theorem solve_of_kind (k l : Storage) :
    dense.solve .real { a with kind := k } { b with kind := l } = dense.solve .real a b :=
  Dense.solve_congr (K := Float) rfl rfl (fun _ _ => rfl) fun _ _ => rfl

section

variable (e : Engine) (hareal : a.isComplex = false) (hbreal : b.isComplex = false) (hasize : a.size ≠ 1)
  (hbsize : b.size ≠ 1)

include hareal hbreal

theorem coefficients_of_real : (Value.array a).coefficients (.array b) = .real := by
  change (if a.isComplex || b.isComplex then Coefficients.complex else .real) = .real
  rw [hareal, hbreal]
  rfl

include hasize hbsize

theorem leftDiv_of_real : e.leftDiv (.array a) (.array b) = (do
    let c ← e.solve .real a b
    Value.ofKind (a.kind.arithmetic b.kind) c) := by
  have hsizes : ¬ ((Value.array a).size = 1 ∨ (Value.array b).size = 1) := not_or_intro hasize hbsize
  unfold leftDiv
  rw [if_neg (mt Value.isScalar_or_iff.mp hsizes), coefficients_of_real hareal hbreal]
  rfl

theorem rightDiv_of_real : e.rightDiv (.array a) (.array b) = (do
    let y ← e.transpose .real b
    let x ← e.transpose .real a
    let c ← e.solve .real y x
    let d ← e.transpose .real c
    Value.ofKind (a.kind.arithmetic b.kind) d) := by
  have hsizes : ¬ ((Value.array a).size = 1 ∨ (Value.array b).size = 1) := not_or_intro hasize hbsize
  unfold rightDiv
  rw [if_neg (mt Value.isScalar_or_iff.mp hsizes), coefficients_of_real hareal hbreal]
  rfl

end

/-- The way over the transposes, on matrices of more than one element. -/
theorem rightDiv_agrees_of_matrices (ha : Value.Planar (.array a)) (hb : Value.Planar (.array b))
    (hareal : a.isComplex = false) (hbreal : b.isComplex = false) (hasize : a.size ≠ 1)
    (hbsize : b.size ≠ 1) :
    (dense.rightDiv (.array a) (.array b)).Agrees (dense.leftDivTransposed (.array a) (.array b)) := by
  obtain ⟨x, hx, hax, hxa⟩ := transposed_array ha fun h => hasize (ha.size_of_isUnit h)
  obtain ⟨y, hy, hby, hyb⟩ := transposed_array hb fun h => hbsize (hb.size_of_isUnit h)
  rw [hareal] at hx
  rw [hbreal] at hy
  change dense.transpose .real a = pure x at hx
  change dense.transpose .real b = pure y at hy
  have hxreal : (x.retag a.kind).isComplex = false := by
    rw [NDArray.isComplex_retag, hax.isComplex_eq, hareal]
  have hyreal : (y.retag b.kind).isComplex = false := by
    rw [NDArray.isComplex_retag, hby.isComplex_eq, hbreal]
  have hxsize : (x.retag a.kind).size ≠ 1 := by
    rw [NDArray.size_retag, hax.size_eq ha.wellFormed ha.isMatrix]
    exact hasize
  have hysize : (y.retag b.kind).size ≠ 1 := by
    rw [NDArray.size_retag, hby.size_eq hb.wellFormed hb.isMatrix]
    exact hbsize
  have hkind : b.kind.arithmetic a.kind = a.kind.arithmetic b.kind := Storage.arithmetic_comm _ _
  have hright : dense.rightDiv (.array a) (.array b) = (do
      let c ← dense.solve .real y x
      let d ← dense.transpose .real c
      Value.ofKind (a.kind.arithmetic b.kind) d) := by
    rw [rightDiv_of_real dense hareal hbreal hasize hbsize, hy, hx]
    rfl
  have hleft : dense.leftDiv (.array (y.retag b.kind)) (.array (x.retag a.kind)) = (do
      let c ← dense.solve .real y x
      Value.ofKind (a.kind.arithmetic b.kind) c) := by
    rw [leftDiv_of_real dense hyreal hxreal hysize hxsize, NDArray.kind_retag, NDArray.kind_retag, hkind,
      hby.retag_eq hb.faithful, hax.retag_eq ha.faithful, solve_of_kind]
  rw [hright, leftDivTransposed_eq hxa hyb, hleft]
  exact agrees_of_solved (Dense.solve_realResult hby.wellFormed hax.wellFormed)
    (Storage.arithmetic_ne_logical _ _)

/-- Division of real matrices from the right is the transpose of the division of their transposes from the
    left, on single elements, on empty matrices and on singular ones as well: there are the same warnings,
    and the same fault or the same value. -/
theorem rightDiv_agrees (hv : v.Planar) (hw : w.Planar) (hvreal : v.isComplex = false)
    (hwreal : w.isComplex = false) :
    (dense.rightDiv v w).Agrees (dense.leftDivTransposed v w) := by
  by_cases hone : v.size = 1 ∨ w.size = 1
  · exact rightDiv_agrees_of_scalar hv hw hone
  · rw [not_or] at hone
    match v, w, hone with
    | .array a, .array b, ⟨ha, hb⟩ => exact rightDiv_agrees_of_matrices hv hw hvreal hwreal ha hb
    | .number _, _, ⟨ha, _⟩ => exact absurd rfl ha
    | .array _, .number _, ⟨_, hb⟩ => exact absurd rfl hb

def flags : Value := .array ⟨[1, 2], #[1, 0], none, .logical⟩

def scales : Value := .array ⟨[2, 2], #[2, 0, 1, 0.5], none, .single⟩

/-- A matrix with two rows that are the same. -/
def doubled : Value := .array ⟨[2, 2], #[1, 1, 1, 1], none, .double⟩

theorem flags_planar : flags.Planar := .of_real (by decide) (by decide) (by decide +kernel)

theorem scales_planar : scales.Planar := .of_real (by decide) (by decide) (by decide +kernel)

theorem doubled_planar : doubled.Planar := .of_real (by decide) (by decide) (by decide +kernel)

/-- A row over a triangular matrix, and over a singular one. -/
theorem rightDiv_agrees_flags : flags.Planar ∧ scales.Planar ∧ doubled.Planar ∧
    (∃ t, (dense.leftDivTransposed flags scales).result = .ok t ∧
      Value.Matches (.array ⟨[1, 2], #[0.5, -1], none, .single⟩) t) ∧
    (dense.leftDivTransposed flags doubled).result = .error .singularMatrix := by
  have hscales := (rightDiv_agrees flags_planar scales_planar rfl rfl).result
  have hdoubled := (rightDiv_agrees flags_planar doubled_planar rfl rfl).result
  have hquotient :
      (dense.rightDiv flags scales).result = .ok (.array ⟨[1, 2], #[0.5, -1], none, .single⟩) := by
    decide +kernel
  have hsingular : (dense.rightDiv flags doubled).result = .error .singularMatrix := by decide +kernel
  rw [hquotient] at hscales
  rw [hsingular] at hdoubled
  exact ⟨flags_planar, scales_planar, doubled_planar, hscales.exists_ok, hdoubled.eq_error⟩

end Engine
end NumericArrays

import NumericArrays.Engine.Operators
import NumericArrays.Proofs.Elementwise.Operators
import NumericArrays.Proofs.Engine.Contract

/-! The matrix operators on any engine that does what is asked of engines. -/
namespace NumericArrays

namespace Value

variable {v v' w w' : Value} {kind : Storage} {c c' : NDArray}

theorem coefficients_of_twin (hv : v.Twin v') (hw : w.Twin w') :
    v.coefficients w = v'.coefficients w' := by
  unfold coefficients
  rw [hv.isComplex_eq, hw.isComplex_eq]

theorem ofKind_wellFormed (hc : c.WellFormed) : AnswersWellFormed (ofKind kind c) := by
  intro v h
  obtain ⟨b, hb, rfl⟩ := exists_of_map_ok h
  exact NDArray.convert_wellFormed hc hb

theorem ofKind_of_twin (h : c.Twin c') : (ofKind kind c).map trim = (ofKind kind c').map trim := by
  have hconvert : (c.convert kind).map NDArray.trim = (c'.convert kind).map NDArray.trim := by
    rw [NDArray.convert_trim h.left, h.trim_eq, NDArray.convert_trim h.right]
  unfold ofKind
  rw [map_array_trim, map_array_trim, hconvert]

end Value

namespace Engine

variable {e : Engine} {v v' w w' : Value}

/-! ### What results have in common

The property `P` of arrays is what the engine keeps, and conversion turns it into the property `Q` of values.
What operands with a single element come to is up to the elementwise operators. -/

/-- The way of a right division: both operands are turned over, and so is the solution. -/
def turned (e : Engine) (flip : NDArray → Logged NDArray) (k : Coefficients) (kind : Storage)
    (a b : NDArray) : Logged Value := do
  let y ← flip b
  let x ← flip a
  let c ← e.solve k y x
  let c ← flip c
  Value.ofKind kind c

section Kept

variable {P : NDArray → Prop} {Q : Value → Prop} (he : e.Keeps P)
  (hkind : ∀ {kind c}, P c → (Logged.ofExcept (Value.ofKind kind c)).Ensures Q)
include he hkind

theorem mul_ensures (hv : P v.toArray) (hw : P w.toArray)
    (hop : (Logged.ofExcept (Arithmetic.mul.apply v w)).Ensures Q) : (e.mul v w).Ensures Q := by
  unfold mul
  split
  · exact hop
  · exact (he.product _ _ _ hv hw).bind fun c hc => hkind hc

theorem leftDiv_ensures (hv : P v.toArray) (hw : P w.toArray)
    (hop : (Logged.ofExcept (Arithmetic.leftDiv.apply v w)).Ensures Q) : (e.leftDiv v w).Ensures Q := by
  unfold leftDiv
  split
  · exact hop
  · exact (he.solve _ _ _ hv hw).bind fun c hc => hkind hc

theorem turned_ensures {flip : NDArray → Logged NDArray} (hflip : ∀ a, P a → (flip a).Ensures P)
    {a b : NDArray} (ha : P a) (hb : P b) (k : Coefficients) (kind : Storage) :
    (e.turned flip k kind a b).Ensures Q := by
  refine (hflip b hb).bind fun y hy => (hflip a ha).bind fun x hx => ?_
  refine (he.solve k y x hy hx).bind fun c hc => (hflip c hc).bind fun d hd => ?_
  exact hkind hd

theorem rightDiv_ensures (hv : P v.toArray) (hw : P w.toArray)
    (hop : (Logged.ofExcept (Arithmetic.rightDiv.apply v w)).Ensures Q) : (e.rightDiv v w).Ensures Q := by
  unfold rightDiv
  split
  · exact hop
  · cases v.coefficients w with
    | real => exact turned_ensures he hkind (he.transpose .real) hv hw _ _
    | complex => exact turned_ensures he hkind he.adjoint hv hw _ _

theorem transposed_ensures (hv : P v.toArray) (hself : Q v) : (e.transposed v).Ensures Q := by
  unfold transposed
  split
  · exact Logged.ensures_pure hself
  · exact (he.transpose _ _ hv).bind fun c hc => hkind hc

theorem adjointed_ensures (hv : P v.toArray) (hself : Q v) (hconj : Q v.conj) :
    (e.adjointed v).Ensures Q := by
  unfold adjointed
  split
  · exact transposed_ensures he hkind hv hself
  · split
    · exact Logged.ensures_pure hconj
    · exact (he.adjoint _ hv).bind fun c hc => hkind hc

end Kept

/-! ### The room at the end of the operands -/

/-- Results that look alike still do as values of a kind. -/
theorem view_ofKind {x x' : Logged NDArray} (h : x.view NDArray.trim = x'.view NDArray.trim)
    (hx : x.Ensures NDArray.WellFormed) (hx' : x'.Ensures NDArray.WellFormed) (kind : Storage) :
    (do
      let c ← x
      Value.ofKind kind c : Logged Value).view Value.trim =
    (do
      let c ← x'
      Value.ofKind kind c : Logged Value).view Value.trim :=
  Logged.view_bind_of_twin h hx hx' fun _ _ hc => congrArg (Logged.mk []) (Value.ofKind_of_twin hc)

section Twins

variable (he : e.Sound) (hb : e.Blind) (hv : v.Twin v') (hw : w.Twin w')
include he hb hv

theorem transposed_of_twin : (e.transposed v).view Value.trim = (e.transposed v').view Value.trim := by
  have ha := hv.toArray
  unfold transposed
  dsimp only
  rw [hv.dims_eq, ha.isComplex_eq, ha.kind_eq]
  split
  · show (⟨[], .ok v.trim⟩ : Logged Value) = ⟨[], .ok v'.trim⟩
    rw [hv.trim_eq]
  · exact view_ofKind (hb.transpose _ _ _ ha) (he.transpose _ _ ha.left) (he.transpose _ _ ha.right) _

theorem adjointed_of_twin : (e.adjointed v).view Value.trim = (e.adjointed v').view Value.trim := by
  have ha := hv.toArray
  unfold adjointed
  dsimp only
  rw [hv.isComplex_eq, hv.dims_eq, ha.kind_eq]
  split
  · exact transposed_of_twin he hb hv
  · split
    · show (⟨[], .ok v.conj.trim⟩ : Logged Value) = ⟨[], .ok v'.conj.trim⟩
      rw [hv.conj.trim_eq]
    · exact view_ofKind (hb.adjoint _ _ ha) (he.adjoint _ ha.left) (he.adjoint _ ha.right) _

include hw

theorem mul_of_twin : (e.mul v w).view Value.trim = (e.mul v' w').view Value.trim := by
  have ha := hv.toArray
  have hc := hw.toArray
  unfold mul
  rw [hv.isScalar_eq, hw.isScalar_eq, hv.kind_eq, hw.kind_eq, Value.coefficients_of_twin hv hw]
  split
  · rw [Arithmetic.apply_of_twin hv hw]
  · exact view_ofKind (hb.product _ _ _ _ _ ha hc) (he.product _ _ _ ha.left hc.left)
      (he.product _ _ _ ha.right hc.right) _

theorem leftDiv_of_twin : (e.leftDiv v w).view Value.trim = (e.leftDiv v' w').view Value.trim := by
  have ha := hv.toArray
  have hc := hw.toArray
  unfold leftDiv
  rw [hv.isScalar_eq, hw.isScalar_eq, hv.kind_eq, hw.kind_eq, Value.coefficients_of_twin hv hw]
  split
  · rw [Arithmetic.apply_of_twin hv hw]
  · exact view_ofKind (hb.solve _ _ _ _ _ ha hc) (he.solve _ _ _ ha.left hc.left)
      (he.solve _ _ _ ha.right hc.right) _

end Twins

theorem turned_of_twin (he : e.Sound) (hb : e.Blind) {flip : NDArray → Logged NDArray}
    (hflip : ∀ a, a.WellFormed → (flip a).Ensures NDArray.WellFormed)
    (hsame : ∀ a a', a.Twin a' → (flip a).view NDArray.trim = (flip a').view NDArray.trim)
    {a a' b b' : NDArray} (ha : a.Twin a') (hbb : b.Twin b') (k : Coefficients) (kind : Storage) :
    (e.turned flip k kind a b).view Value.trim = (e.turned flip k kind a' b').view Value.trim := by
  refine Logged.view_bind_of_twin (hsame b b' hbb) (hflip b hbb.left) (hflip b' hbb.right)
    fun y y' hy => ?_
  refine Logged.view_bind_of_twin (hsame a a' ha) (hflip a ha.left) (hflip a' ha.right)
    fun x x' hx => ?_
  refine Logged.view_bind_of_twin (hb.solve k y y' x x' hy hx) (he.solve k y x hy.left hx.left)
    (he.solve k y' x' hy.right hx.right) fun c c' hc => ?_
  exact view_ofKind (hsame c c' hc) (hflip c hc.left) (hflip c' hc.right) kind

theorem rightDiv_of_twin (he : e.Sound) (hb : e.Blind) (hv : v.Twin v') (hw : w.Twin w') :
    (e.rightDiv v w).view Value.trim = (e.rightDiv v' w').view Value.trim := by
  have ha := hv.toArray
  have hc := hw.toArray
  unfold rightDiv
  rw [hv.isScalar_eq, hw.isScalar_eq, hv.kind_eq, hw.kind_eq, Value.coefficients_of_twin hv hw]
  split
  · rw [Arithmetic.apply_of_twin hv hw]
  · cases v'.coefficients w' with
    | real => exact turned_of_twin he hb (he.transpose .real) (hb.transpose .real) ha hc _ _
    | complex => exact turned_of_twin he hb he.adjoint hb.adjoint ha hc _ _

end Engine
end NumericArrays

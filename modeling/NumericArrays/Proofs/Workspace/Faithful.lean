import NumericArrays.Proofs.NDArray.Faithful
import NumericArrays.Proofs.Workspace.WellFormed

/-! Whatever is done, arrays hold numbers of their kind only. -/
namespace NumericArrays

namespace Value

theorem ofKind_faithful {c : NDArray} {kind : Storage} (hc : c.Faithful) :
    (Logged.ofExcept (ofKind kind c)).Ensures Faithful := by
  intro r h
  obtain ⟨b, hb, rfl⟩ := exists_of_map_ok h
  exact NDArray.convert_faithful hc hb

end Value

/-! ### Engines -/

structure Engine.Double (e : Engine) : Prop where
  product : ∀ k a b, (e.product k a b).Ensures (·.kind = .double)
  transpose : ∀ k a, (e.transpose k a).Ensures (·.kind = .double)
  adjoint : ∀ a, (e.adjoint a).Ensures (·.kind = .double)
  solve : ∀ k a b, (e.solve k a b).Ensures (·.kind = .double)

namespace Dense

variable {K : Type} [ArrayElement K] [LawfulArrayElement K] {m n : Nat} {a b c : NDArray}

theorem collect_kind (f : Unit → Mat K m n) : (Mat.collect f).kind = .double := by
  rw [Mat.collect_eq, Mat.toArray, LawfulArrayElement.pack_kind]

theorem result_kind {f : Unit → Mat K m n} (h : result K f = .ok c) : c.kind = .double := by
  obtain ⟨-, rfl⟩ := eq_collect_of_result h
  exact collect_kind f

theorem product_kind [Arith K] (h : product K a b = .ok c) : c.kind = .double := by
  obtain ⟨f, hf⟩ := exists_result_of_product h
  exact result_kind hf

theorem transpose_kind [Arith K] (f : K → K) (h : transpose K f a = .ok c) : c.kind = .double := by
  obtain ⟨-, g, rfl⟩ := exists_collect_of_transpose h
  exact collect_kind g

theorem solve_kind [Arith K] [MatrixScalar K Float] : (solve K a b).Ensures (·.kind = .double) :=
  solve_ensures fun _ _ h => result_kind h

end Dense

namespace Engine

variable {e : Engine}

theorem dense_double : dense.Double where
  product k a b := by
    cases k with
    | real | complex => exact fun c h => Dense.product_kind h
  transpose k a := by
    cases k with
    | real | complex => exact fun c h => Dense.transpose_kind id h
  adjoint a c h := Dense.transpose_kind Cartesian.conj h
  solve k a b := by
    cases k with
    | real | complex => exact Dense.solve_kind

/-- Every number is one of the kind double. -/
theorem Double.keeps (h : e.Double) : e.Keeps NDArray.Faithful where
  product k a b _ _ c hc := NDArray.faithful_of_double (h.product k a b c hc)
  transpose k a _ c hc := NDArray.faithful_of_double (h.transpose k a c hc)
  adjoint a _ c hc := NDArray.faithful_of_double (h.adjoint a c hc)
  solve k a b _ _ c hc := NDArray.faithful_of_double (h.solve k a b c hc)

end Engine

/-! ### Commands -/

namespace Workspace

open InPlace

variable {e : Engine} {s : Workspace} {v : Values} {x : Value}

theorem Made.faithful {a : NDArray} (h : Made a) : a.Faithful := by
  cases h with
  | single y => exact NDArray.ofNumber_faithful y
  | zeros h => exact NDArray.zeros?_faithful h
  | reals h => exact NDArray.faithful_of_double (NDArray.ofReals?_kind h)
  | parts h => exact NDArray.faithful_of_double (NDArray.ofParts?_kind h)
  | bools h => exact NDArray.ofBools?_faithful h
  | byPosition h => exact NDArray.faithful_of_double (NDArray.ofFn?_kind h)

theorem Construction.make_faithful {c : Construction} (h : c.make = some x) : x.Faithful := by
  obtain ⟨y, rfl⟩ | ⟨a, ha, rfl⟩ := make_cases h
  · trivial
  · exact ha.faithful

theorem Operation.eval_faithful (he : e.Keeps NDArray.Faithful) (hv : ∀ i, (v i).WellFormed)
    (hf : ∀ i, (v i).Faithful) (o : Operation) : (o.eval e v).Ensures Value.Faithful := by
  cases o with
  | arithmetic op i j => exact fun r h => Value.arithmetic_faithful h
  | comparison op i j => exact fun r h => Value.comparison_faithful h
  | connective op i j => exact fun r h => Value.connective_faithful h
  | not i => exact fun r h => Value.not_faithful h
  | neg i => exact Logged.ensures_pure (Value.neg_faithful (hf i))
  | conj i => exact Logged.ensures_pure (Value.conj_faithful (hv i) (hf i))
  | demote i => exact Logged.ensures_pure (Value.demote_faithful (hf i))
  | convert kind i => exact Value.ofKind_faithful (hf i).toArray
  | concat axis is =>
    intro y hy
    have hparts : ∀ w ∈ is.map v, w.Faithful := by
      intro w hw
      obtain ⟨i, -, rfl⟩ := List.mem_map.mp hw
      exact hf i
    obtain ⟨c, hc, rfl⟩ := exists_of_map_ok hy
    exact Value.concat_faithful hparts hc
  | mul i j =>
    exact Engine.mul_ensures he Value.ofKind_faithful (hf i).toArray (hf j).toArray
      fun r h => Value.arithmetic_faithful h
  | leftDiv i j =>
    exact Engine.leftDiv_ensures he Value.ofKind_faithful (hf i).toArray (hf j).toArray
      fun r h => Value.arithmetic_faithful h
  | rightDiv i j =>
    exact Engine.rightDiv_ensures he Value.ofKind_faithful (hf i).toArray (hf j).toArray
      fun r h => Value.arithmetic_faithful h
  | transposed i => exact Engine.transposed_ensures he Value.ofKind_faithful (hf i).toArray (hf i)
  | adjointed i =>
    exact Engine.adjointed_ensures he Value.ofKind_faithful (hf i).toArray (hf i)
      (Value.conj_faithful (hv i) (hf i))

theorem Change.apply_faithful {a b : NDArray} {c : Change} {r : Option Bool} (ha : a.WellFormed)
    (hv : ∀ i, (v i).WellFormed) (hf : a.Faithful) (h : c.apply v a = .ok (r, b)) : b.Faithful := by
  cases Change.changed_of_apply h with
  | set hset => exact NDArray.set_faithful ha (hv _) hf hset
  | resize hresize => exact NDArray.resize_faithful ha (Extents.shape_le _) hf hresize
  | promote => exact hf.promote
  | demote => exact hf.demote

theorem Assigns.faithful {c : Command} {target : Nat} (he : e.Keeps NDArray.Faithful)
    (hs : s.WellFormed) (hf : ∀ i, (s.values i).Faithful) (h : Assigns e s c target x) :
    x.Faithful := by
  cases h with
  | make hmake => exact Construction.make_faithful hmake
  | compute heval => exact Operation.eval_faithful he hs.values hf _ x heval
  | change happly =>
    exact Change.apply_faithful (hs.values target).toArray hs.values (hf target).toArray happly

/-- Whatever commands are carried out, arrays hold numbers of their kind. -/
theorem run_faithful (he : e.Sound) (hef : e.Keeps NDArray.Faithful) (hs : s.WellFormed)
    (hf : ∀ i, (s.values i).Faithful) (cs : List Command) (i : Nat) :
    ((run e s cs).2.values i).Faithful :=
  run_keeps he (fun hs hf hx => hx.faithful hef hs hf) hs hf cs i

/-- What a name stands for after some commands, on the engine of this library. -/
def Reachable (x : Value) : Prop :=
  ∃ (cs : List Command) (i : Nat), (run .dense blank cs).2.values i = x

theorem blank_faithful (i : Nat) : (blank.values i).Faithful := trivial

theorem Reachable.wellFormed (h : Reachable x) : x.WellFormed := by
  obtain ⟨cs, i, rfl⟩ := h
  exact (run_wellFormed Engine.dense_sound blank_wellFormed cs).1.values i

theorem Reachable.faithful (h : Reachable x) : x.Faithful := by
  obtain ⟨cs, i, rfl⟩ := h
  exact run_faithful Engine.dense_sound Engine.dense_double.keeps blank_wellFormed blank_faithful cs i

end Workspace
end NumericArrays

import NumericArrays.Proofs.Concat.Placement
import NumericArrays.Proofs.NDArray.Appending

/-! No operation leaves an empty array with room at its end, so what is appended to arrays as the
    operations yield them moves only when there is no room for it. -/
namespace NumericArrays

theorem Shape.prod_of_count_eq_zero {s : Shape} (h : s.count = 0) : s.prod = 0 := by
  cases hc : s.count? with
  | none =>
    rw [count, hc] at h
    cases h
  | some n => rw [← prod_of_count? hc, ← count_of_count? hc, h]

namespace NDArray

variable {a b : NDArray} {dims : Shape} {count : Nat} {kind : Storage}

/-- An empty array has no buffers. -/
def Snug (a : NDArray) : Prop := a.size = 0 → a.capacity = 0

theorem snug_of_capacity_le (h : a.capacity ≤ a.size) : a.Snug := by
  intro h0
  omega

theorem snug_of_size_ne_zero (h : a.size ≠ 0) : a.Snug := fun h0 => absurd h0 h

/-- Only the number of elements and the length of the buffers matter. -/
theorem Snug.congr (h : a.Snug) (hsize : b.size = a.size) (hcap : b.capacity = a.capacity) : b.Snug := by
  intro h0
  rw [hcap]
  exact h (hsize.symm.trans h0)

/-! ### Arrays -/

theorem zeros?_snug (h : zeros? dims kind = some a) : a.Snug := by
  simp only [zeros?, bind, Option.bind_eq_some_iff] at h
  obtain ⟨count, hc, h⟩ := h
  split at h <;> cases h
  exact snug_of_capacity_le (by simp [capacity, size, Shape.count_of_count? hc])

theorem ofReals?_snug {real : Array Float} (h : ofReals? dims real kind = some a) : a.Snug := by
  simp only [ofReals?] at h
  split at h <;> cases h
  exact snug_of_capacity_le (Shape.count_of_count? ‹_›).ge

theorem ofParts?_snug {real imag : Array Float} (h : ofParts? dims real imag = some a) : a.Snug := by
  simp only [ofParts?, bind, Option.bind_eq_some_iff] at h
  obtain ⟨r, hr, h⟩ := h
  split at h <;> cases h
  exact (ofReals?_snug hr).congr rfl rfl

theorem ofFn?_snug {f : Nat → Float} (h : ofFn? dims f = some a) : a.Snug := by
  simp only [ofFn?, bind, Option.bind_eq_some_iff] at h
  obtain ⟨count, hc, h⟩ := h
  split at h <;> cases h
  exact snug_of_capacity_le (by simp [capacity, size, Shape.count_of_count? hc])

theorem ofNumber_snug (x : Number) : (ofNumber x).Snug := by
  apply snug_of_size_ne_zero
  cases x <;> exact Nat.one_ne_zero

theorem Snug.promote (h : a.Snug) : a.promote.Snug := h.congr (size_promote ..) (capacity_promote ..)

theorem Snug.demote (h : a.Snug) : a.demote.Snug := by
  unfold NDArray.demote
  split
  · exact h.congr rfl rfl
  · exact h

theorem Snug.convert (h : a.Snug) (hb : a.convert kind = .ok b) : b.Snug := by
  have hretag : ∀ k, (a.retag k).Snug := fun k => h.congr rfl (capacity_retag k)
  unfold NDArray.convert at hb
  split at hb
  · cases hb
    exact h
  · split at hb
    · split at hb
      · cases hb
      · split at hb <;> cases hb
        exact (hretag .logical).congr rfl rfl
    · cases hb
      exact hretag kind

theorem neg_snug (ha : a.WellFormed) : a.neg.Snug := by
  apply snug_of_capacity_le
  show (a.reals.map (-·)).size ≤ a.size
  rw [Array.size_map, size_reals ha]

theorem Snug.conj (h : a.Snug) (ha : a.WellFormed) : a.conj.Snug := by
  unfold NDArray.conj
  split
  · exact snug_of_capacity_le (size_reals ha).le
  · exact h

/-! ### Growing and joining -/

theorem Grown.snug (h : Grown a dims count b) (ha : a.WellFormed) (hc : dims.count? = some count) :
    b.Snug := by
  have hsize : b.size = count := by rw [size, h.dims_eq, Shape.count_of_count? hc]
  cases h with
  | fresh h0 hm =>
    refine snug_of_capacity_le (hsize.trans_ge ?_)
    exact Array.size_replicate.le
  | room h0 hx | move h0 hx =>
    apply snug_of_size_ne_zero
    have hle := Shape.prod_le_prod hx
    rw [← ha.size_eq_prod, ← Shape.prod_of_count? hc] at hle
    omega

theorem resize_snug (ha : a.WellFormed) (h : a.resize dims = .ok b) : b.Snug := by
  obtain ⟨count, hc, hgrown⟩ := grown_of_resize h
  exact hgrown.snug ha hc

/-- There is an element after every write. -/
theorem set_snug {coords : List Nat} {v : Value} (ha : a.WellFormed) (h : a.set coords v = .ok b) :
    b.Snug := by
  obtain ⟨e, -, hwrite⟩ := write_of_set h
  obtain ⟨g, hroom, rfl⟩ := (write_ok_iff ha).mp hwrite
  have hpos := hroom.position_lt ha
  apply snug_of_size_ne_zero
  rw [size, dims_put]
  exact Nat.ne_zero_of_lt hpos

theorem snug_of_join {axis : Nat} {first : NDArray} {others : List NDArray}
    (hp : ∀ part ∈ first :: others, part.WellFormed) (h0 : first.size ≠ 0)
    (h : Concat.join axis first others = .ok a) : a.Snug := by
  by_cases hagree : Concat.Agree axis (first :: others)
  · rw [Concat.join_of_agree hagree] at h
    split at h <;> cases h
    have hpos : 0 < (Concat.joined axis first others).dims.prod := Concat.prod_joined_pos hp h0
    exact fun hzero => absurd (Shape.prod_of_count_eq_zero hzero) hpos.ne'
  · obtain ⟨part, -, -, herror⟩ := Concat.join_of_disagree hagree
    rw [herror] at h
    cases h

end NDArray

/-! ### Values -/

namespace Value

variable {v w r : Value}

def Snug : Value → Prop
  | number _ => True
  | array a => a.Snug

theorem Snug.toArray (h : v.Snug) : v.toArray.Snug := by
  cases v with
  | number x => exact NDArray.ofNumber_snug x
  | array a => exact h

theorem ofKind_snug {c : NDArray} {kind : Storage} (hc : c.Snug) :
    (Logged.ofExcept (ofKind kind c)).Ensures Snug := by
  intro r h
  obtain ⟨b, hb, rfl⟩ := exists_of_map_ok h
  exact hc.convert hb

theorem concat_snug {axis : Nat} {values : List Value} {c : NDArray} (hv : ∀ v ∈ values, v.WellFormed)
    (hs : ∀ v ∈ values, v.Snug) (h : concat axis values = .ok c) : c.Snug := by
  have hparts := parts_wellFormed hv
  unfold concat at h
  split at h
  · split at h
    · cases h
      exact fun _ => rfl
    · cases h
      exact (hs _ List.mem_cons_self).toArray
  · rename_i a heq
    cases h
    exact NDArray.snug_of_size_ne_zero (hparts _ (by rw [heq]; exact List.mem_cons_self)).2
  · rename_i first others _ heq
    rw [heq] at hparts
    exact NDArray.snug_of_join (fun part hmem => (hparts part hmem).1) (hparts first List.mem_cons_self).2 h

theorem logicalResult_snug {a b : NDArray} {dims : Shape} (f : Nat → Bool) :
    (Elementwise.logicalResult a b dims f).Snug := by
  unfold Elementwise.logicalResult
  split
  · trivial
  · exact NDArray.snug_of_capacity_le Array.size_ofFn.le

theorem arithmetic_snug {op : Arithmetic} (h : op.apply v w = .ok r) : r.Snug := by
  unfold Arithmetic.apply at h
  split at h
  · cases h
    trivial
  · rcases Arithmetic.onArrays_ok h with ⟨x, rfl⟩ | ⟨dims, -, rfl | rfl⟩
    · trivial
    · exact NDArray.snug_of_capacity_le Array.size_ofFn.le
    · exact NDArray.snug_of_capacity_le ((Array.size_map ..).trans Array.size_ofFn).le

theorem not_snug (h : v.not = .ok r) : r.Snug := by
  rcases not_ok h with ⟨x, rfl⟩ | ⟨a, rfl, rfl⟩
  · trivial
  · exact NDArray.snug_of_capacity_le Array.size_ofFn.le

theorem demote_snug (h : v.Snug) : v.demote.Snug := by
  cases v with
  | number x => trivial
  | array a =>
    show Value.Snug (if _ then _ else _)
    split
    · trivial
    · exact NDArray.Snug.demote h

theorem neg_snug (hv : v.WellFormed) : v.neg.Snug := by
  cases v with
  | number x => trivial
  | array a => exact NDArray.neg_snug hv

theorem conj_snug (hv : v.WellFormed) (h : v.Snug) : v.conj.Snug := by
  cases v with
  | number x => trivial
  | array a => exact NDArray.Snug.conj h hv

end Value

/-! ### Engines -/

namespace Dense

variable {K : Type} [ArrayElement K] [LawfulArrayElement K] {m n : Nat} {a b c : NDArray}

def PacksExactly (K : Type) [ArrayElement K] : Prop :=
  ∀ dims (data : Array K), (ArrayElement.pack dims data).capacity = data.size

theorem packsExactly_float : PacksExactly Float := fun _ _ => rfl

theorem packsExactly_cartesian : PacksExactly (Cartesian Float) := fun _ _ => Array.size_map ..

theorem collect_snug (hp : PacksExactly K) (f : Unit → Mat K m n) : (Mat.collect f).Snug := by
  intro h0
  rw [Mat.collect_eq, Mat.toArray] at h0 ⊢
  have hprod : List.prod [m, n] = 0 := by
    apply Shape.prod_of_count_eq_zero
    rw [← h0, NDArray.size, LawfulArrayElement.pack_dims]
  rw [hp]
  simpa [Nat.mul_comm] using hprod

theorem result_snug (hp : PacksExactly K) {f : Unit → Mat K m n} (h : result K f = .ok c) : c.Snug := by
  obtain ⟨-, rfl⟩ := eq_collect_of_result h
  exact collect_snug hp f

theorem product_snug [Arith K] (hp : PacksExactly K) (h : product K a b = .ok c) : c.Snug := by
  obtain ⟨f, hf⟩ := exists_result_of_product h
  exact result_snug hp hf

theorem transpose_snug [Arith K] (hp : PacksExactly K) (f : K → K) (h : transpose K f a = .ok c) :
    c.Snug := by
  obtain ⟨-, g, rfl⟩ := exists_collect_of_transpose h
  exact collect_snug hp g

theorem solve_snug [Arith K] [MatrixScalar K Float] (hp : PacksExactly K) :
    (solve K a b).Ensures NDArray.Snug :=
  solve_ensures fun _ _ h => result_snug hp h

end Dense

namespace Engine

theorem dense_keeps_snug : dense.Keeps NDArray.Snug where
  product k a b _ _ := by
    cases k with
    | real => exact fun c h => Dense.product_snug Dense.packsExactly_float h
    | complex => exact fun c h => Dense.product_snug Dense.packsExactly_cartesian h
  transpose k a _ := by
    cases k with
    | real => exact fun c h => Dense.transpose_snug Dense.packsExactly_float id h
    | complex => exact fun c h => Dense.transpose_snug Dense.packsExactly_cartesian id h
  adjoint a _ c h := Dense.transpose_snug Dense.packsExactly_cartesian Cartesian.conj h
  solve k a b _ _ := by
    cases k with
    | real => exact Dense.solve_snug Dense.packsExactly_float
    | complex => exact Dense.solve_snug Dense.packsExactly_cartesian

end Engine

/-! ### Commands -/

namespace Workspace

open InPlace

variable {e : Engine} {s : Workspace} {v : Values} {x : Value}

theorem Made.snug {a : NDArray} (h : Made a) : a.Snug := by
  cases h with
  | single y => exact NDArray.ofNumber_snug y
  | zeros h => exact NDArray.zeros?_snug h
  | reals h => exact NDArray.ofReals?_snug h
  | parts h => exact NDArray.ofParts?_snug h
  | bools h => exact NDArray.ofReals?_snug h
  | byPosition h => exact NDArray.ofFn?_snug h

theorem Construction.make_snug {c : Construction} (h : c.make = some x) : x.Snug := by
  obtain ⟨y, rfl⟩ | ⟨a, ha, rfl⟩ := make_cases h
  · trivial
  · exact ha.snug

theorem Operation.eval_snug (he : e.Keeps NDArray.Snug) (hv : ∀ i, (v i).WellFormed)
    (hs : ∀ i, (v i).Snug) (o : Operation) : (o.eval e v).Ensures Value.Snug := by
  cases o with
  | arithmetic op i j => exact fun r h => Value.arithmetic_snug h
  | comparison op i j =>
    intro r h
    obtain ⟨dims, f, -, rfl⟩ := Comparison.apply_ok h
    exact Value.logicalResult_snug f
  | connective op i j =>
    intro r h
    obtain ⟨dims, f, -, rfl⟩ := Connective.apply_ok h
    exact Value.logicalResult_snug f
  | not i => exact fun r h => Value.not_snug h
  | neg i => exact Logged.ensures_pure (Value.neg_snug (hv i))
  | conj i => exact Logged.ensures_pure (Value.conj_snug (hv i) (hs i))
  | demote i => exact Logged.ensures_pure (Value.demote_snug (hs i))
  | convert kind i => exact Value.ofKind_snug (hs i).toArray
  | concat axis is =>
    intro y hy
    have hparts : ∀ w ∈ is.map v, w.WellFormed ∧ w.Snug := by
      intro w hw
      obtain ⟨i, -, rfl⟩ := List.mem_map.mp hw
      exact ⟨hv i, hs i⟩
    obtain ⟨c, hc, rfl⟩ := exists_of_map_ok hy
    exact Value.concat_snug (fun w hw => (hparts w hw).1) (fun w hw => (hparts w hw).2) hc
  | mul i j =>
    exact Engine.mul_ensures he Value.ofKind_snug (hs i).toArray (hs j).toArray
      fun r h => Value.arithmetic_snug h
  | leftDiv i j =>
    exact Engine.leftDiv_ensures he Value.ofKind_snug (hs i).toArray (hs j).toArray
      fun r h => Value.arithmetic_snug h
  | rightDiv i j =>
    exact Engine.rightDiv_ensures he Value.ofKind_snug (hs i).toArray (hs j).toArray
      fun r h => Value.arithmetic_snug h
  | transposed i => exact Engine.transposed_ensures he Value.ofKind_snug (hs i).toArray (hs i)
  | adjointed i =>
    exact Engine.adjointed_ensures he Value.ofKind_snug (hs i).toArray (hs i)
      (Value.conj_snug (hv i) (hs i))

theorem Change.apply_snug {a b : NDArray} {c : Change} {r : Option Bool} (ha : a.WellFormed)
    (hs : a.Snug) (h : c.apply v a = .ok (r, b)) : b.Snug := by
  cases Change.changed_of_apply h with
  | set hset => exact NDArray.set_snug ha hset
  | resize hresize => exact NDArray.resize_snug ha hresize
  | promote => exact hs.promote
  | demote => exact hs.demote

theorem Assigns.snug {c : Command} {target : Nat} (he : e.Keeps NDArray.Snug) (hw : s.WellFormed)
    (hs : ∀ i, (s.values i).Snug) (h : Assigns e s c target x) : x.Snug := by
  cases h with
  | make hmake => exact Construction.make_snug hmake
  | compute heval => exact Operation.eval_snug he hw.values hs _ x heval
  | change happly => exact Change.apply_snug (hw.values target).toArray (hs target).toArray happly

theorem Reachable.snug (h : Reachable x) : x.Snug := by
  obtain ⟨cs, i, rfl⟩ := h
  exact run_keeps Engine.dense_sound (fun hw hs hx => hx.snug Engine.dense_keeps_snug hw hs)
    blank_wellFormed (fun _ => trivial) cs i

/-- What is appended moves seldom. The capacity changes only where it does not suffice for the position, or
    where the array is empty with room at its end, which no commands lead to. -/
theorem appending_moves_seldom :
    (∀ a : NDArray, Reachable (.array a) → ¬ (a.size = 0 ∧ a.capacity ≠ 0)) ∧
      ∀ (a : Nat → NDArray) (n : Nat → Nat) (v : Nat → Value) (steps : Nat),
        NDArray.Appending a n v steps →
          (∀ t < steps, (a (t + 1)).dims.isVector = true) ∧
          (∀ t < steps, (a (t + 1)).capacity ≠ (a t).capacity →
            (a t).capacity < n t ∨ (t = 0 ∧ (a t).size = 0 ∧ (a t).capacity ≠ 0)) ∧
          (∀ t ≤ steps, (a t).capacity ≤ max (a 0).capacity (2 * (a t).size)) ∧
          (∀ s t, s < t → t < steps → (a (s + 1)).capacity ≠ (a s).capacity →
            (a (t + 1)).capacity ≠ (a t).capacity → 2 * (a (s + 1)).capacity < (a (t + 1)).capacity) ∧
          ∀ M, 1 ≤ M → (∀ t < steps, n t ≤ M) → NDArray.moves a steps ≤ 2 + Nat.log 2 M := by
  constructor
  · rintro a ha ⟨h0, hcap⟩
    exact hcap (ha.snug h0)
  · intro a n v steps h
    refine ⟨fun t => h.isVector, fun t => h.lt_of_ne, fun t => h.capacity_le, ?_, fun M => h.moves_le⟩
    exact fun s t hst ht _ => h.two_mul_capacity_lt hst ht

/-- A row that starts out empty, with ones written to the positions 1, 2, 3 and so on. -/
def onesAppended : Nat → NDArray
  | 0 => .empty
  | t + 1 => ((onesAppended t).set [t + 1] (.number (.real 1))).toOption.getD .empty

/-- Buffers of 1, 4 and 10 numbers hold the first five ones. -/
theorem appending_moves_seldom_onesAppended :
    Reachable (.array (onesAppended 0)) ∧ (onesAppended 0).size = 0 ∧ (onesAppended 0).capacity = 0 ∧
      NDArray.Appending onesAppended (· + 1) (fun _ => .number (.real 1)) 5 ∧
      (onesAppended 5).dims = [1, 5] ∧ (onesAppended 5).capacity = 10 ∧
      NDArray.moves onesAppended 5 = 3 ∧ NDArray.moves onesAppended 5 ≤ 2 + Nat.log 2 5 := by
  obtain ⟨hempty, hrun⟩ := appending_moves_seldom
  have hreach : Reachable (.array (onesAppended 0)) := ⟨[.make 0 (.zeros [0, 0] .double)], 0, by decide⟩
  have happend : NDArray.Appending onesAppended (· + 1) (fun _ => .number (.real 1)) 5 :=
    ⟨NDArray.wellFormed_empty, .inr (by decide), by decide +kernel⟩
  obtain ⟨-, -, -, -, hmoves⟩ := hrun _ _ _ _ happend
  refine ⟨hreach, rfl, not_not.mp (not_and.mp (hempty _ hreach) rfl), happend, ?_, ?_, ?_, ?_⟩
  · decide +kernel
  · decide +kernel
  · decide +kernel
  · exact hmoves 5 (by decide) (by decide)

end Workspace
end NumericArrays

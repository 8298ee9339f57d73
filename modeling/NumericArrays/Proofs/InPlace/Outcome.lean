import NumericArrays.Proofs.InPlace.Write

/-! Every write in place comes to one of four ends, and the array is as before unless it is written. -/
namespace NumericArrays.InPlace

variable {a g : NDArray} {coords : List Nat} {v w : Value} {p : Nat}

theorem run_accommodate (v : Value) (z : Cartesian Float) :
    (accommodate v).run (ofArray g) = .ok () (ofArray (g.accommodate ⟨v.kind, v.isComplex, z⟩)) := by
  have hpromote : ∀ x : NDArray,
      (do if v.isComplex && (← get).imag.isNone then promote : Steps Unit).run (ofArray x) =
        .ok () (ofArray (if v.isComplex = true then x.promote else x)) := by
    intro x
    rw [run_get_bind]
    cases v.isComplex with
    | false => rfl
    | true =>
      cases him : x.imag with
      | none =>
        rw [if_pos (show (true && (ofArray x).imag.isNone) = true by simp [ofArray, him])]
        exact run_promote him
      | some im =>
        have hx : x.promote = x := by rw [NDArray.promote, him]
        rw [if_neg (show ¬ (true && (ofArray x).imag.isNone) = true by simp [ofArray, him]), hx]
        rfl
  unfold accommodate
  rw [run_get_bind]
  by_cases hk : g.kind = .logical ∧ v.kind ≠ .logical
  · rw [if_pos (show (ofArray g).kind = .logical ∧ v.kind ≠ .logical from hk)]
    rw [run_bind_ok (run_retag v.kind), hpromote, NDArray.accommodate, if_pos hk]
  · rw [if_neg (show ¬ ((ofArray g).kind = .logical ∧ v.kind ≠ .logical) from hk)]
    have hrun := hpromote g
    rw [NDArray.accommodate, if_neg hk]
    exact hrun

/-- Once the place is found nothing can fail. -/
theorem run_write (hg : g.WellFormed) (h : g.dims.position coords < g.size) (z : Cartesian Float) :
    (do accommodate v; store (g.dims.position coords) z : Steps Unit).run (ofArray g) =
      .ok () (ofArray (g.put coords ⟨v.kind, v.isComplex, z⟩)) := by
  have hacc := hg.accommodate ⟨v.kind, v.isComplex, z⟩
  rw [run_bind_ok (run_accommodate v z)]
  refine run_store ?_ hacc.imag_size z
  rw [NDArray.capacity_accommodate]
  exact h.trans_le hg.size_le

/-- Writing in place yields what writing to a copy yields, or the same fault and the array as it was. -/
theorem run_set (ha : a.WellFormed) (coords : List Nat) (v : Value) :
    (set coords v).run (ofArray a) = answer (ofArray a) (a.set coords v) := by
  unfold set NDArray.set Value.asEntry
  cases v.scalar? with
  | none => rfl
  | some z =>
    simp only [Option.map_some]
    cases h0 : coords.findIdx? (· == 0) with
    | some axis =>
      rw [NDArray.write_of_zero h0]
      exact run_bind_error (run_placeFor_of_zero ha h0) _
    | none =>
      have hpos := Shape.findIdx?_zero_eq_none_iff.mp h0
      by_cases h : a.dims.Has coords
      · rw [NDArray.write_of_has ha h, run_bind_ok (run_placeFor_of_has ha h)]
        exact run_write ha ((NDArray.Room.held h).position_lt ha) z
      · have hplace := run_placeFor_of_not_has ha hpos h
        rw [NDArray.write_of_not_has ha hpos h]
        cases hg : a.growFor coords with
        | error f =>
          rw [hg] at hplace
          exact run_bind_error hplace _
        | ok g =>
          have hroom : NDArray.Room a coords g := .grown g h hpos hg
          rw [hg] at hplace
          rw [run_bind_ok hplace]
          exact run_write (hroom.wellFormed ha) (hroom.position_lt ha) z

/-! ### Cells -/

variable {α : Type} {s : Steps α} {e : Stop}

theorem run_onCell_array (m : Memory) : (onCell s).run (.array m) =
    match s.run m with
    | .ok x m => .ok x (.array m)
    | .error e m => .error e (.array m) := by
  change (match s.run m with
    | .ok x m => do modify fun _ => Cell.array m; return x
    | .error e m => do modify fun _ => Cell.array m; throw e :
      EStateM Stop Cell α).run (.array m) = _
  cases s.run m with
  | ok x m => rfl
  | error e m => rfl

theorem run_onCell_number (y : Number) : (onCell s).run (.number y) =
    match s.run (ofArray (.ofNumber y)) with
    | .ok x m => .ok x (.array m)
    | .error e _ => .error e (.number y) := by
  change (match s.run (ofArray (.ofNumber y)) with
    | .ok x m => do modify fun _ => Cell.array m; return x
    | .error e _ => throw e : EStateM Stop Cell α).run (.number y) = _
  cases s.run (ofArray (.ofNumber y)) with
  | ok x m => rfl
  | error e m => rfl

theorem run_onCell_ok {x : α} {m : Memory} (h : s.run (ofArray w.toArray) = .ok x m) :
    (onCell s).run (Cell.ofValue w) = .ok x (.array m) := by
  cases w with
  | number y =>
    refine (run_onCell_number y).trans ?_
    rw [show s.run (ofArray (.ofNumber y)) = .ok x m from h]
  | array a =>
    refine (run_onCell_array (ofArray a)).trans ?_
    rw [show s.run (ofArray a) = .ok x m from h]

/-- Steps that fail and leave the array alone leave the cell alone. -/
theorem run_onCell_error (h : s.run (ofArray w.toArray) = .error e (ofArray w.toArray)) :
    (onCell s).run (Cell.ofValue w) = .error e (Cell.ofValue w) := by
  cases w with
  | number y =>
    refine (run_onCell_number y).trans ?_
    rw [show s.run (ofArray (.ofNumber y)) = .error e (ofArray (.ofNumber y)) from h]
    rfl
  | array a =>
    refine (run_onCell_array (ofArray a)).trans ?_
    rw [show s.run (ofArray a) = .error e (ofArray a) from h]
    rfl

/-- A number stays a number unless it is written to. -/
theorem run_setValue (hw : w.WellFormed) (coords : List Nat) (v : Value) :
    (setValue coords v).run (Cell.ofValue w) =
      match w.set coords v with
      | .ok u => .ok () (Cell.ofValue u)
      | .error f => .error (.fault f) (Cell.ofValue w) := by
  have hrun := run_set hw.toArray coords v
  unfold setValue Value.set
  cases hb : w.toArray.set coords v with
  | ok b =>
    rw [hb] at hrun
    exact run_onCell_ok hrun
  | error f =>
    rw [hb] at hrun
    exact run_onCell_error hrun

/-! ### The outcome of a write -/

/-- A write of anything but a single element is unsupported. Otherwise the first coordinate zero is
    named; otherwise the write fails only if the coordinates lie past the end and the memory for them is
    refused. No word overflows, no access misses a buffer, and the array is as it was after a fault. -/
theorem set_outcome (ha : a.WellFormed) (coords : List Nat) (v : Value) :
    (v.size ≠ 1 → (set coords v).run (ofArray a) =
      .error (.fault (.unsupported .nonScalarAssignment)) (ofArray a)) ∧
    (v.size = 1 → ∀ axis, coords.findIdx? (· == 0) = some axis →
      (set coords v).run (ofArray a) = .error (.fault (.indexBelowOne axis)) (ofArray a)) ∧
    (v.size = 1 → coords.findIdx? (· == 0) = none →
      ¬ a.dims.Has coords → a.refusesGrowth coords = true →
      (set coords v).run (ofArray a) =
        .error (.fault (.outOfMemory (a.grownDims coords))) (ofArray a)) ∧
    (v.size = 1 → coords.findIdx? (· == 0) = none →
      (a.dims.Has coords ∨ a.refusesGrowth coords = false) →
      ∃ b, b.WellFormed ∧ a.set coords v = .ok b ∧ (set coords v).run (ofArray a) = .ok () (ofArray b)) ∧
    ∀ w : Value, w.WellFormed → (setValue coords v).run (Cell.ofValue w) =
      match w.set coords v with
      | .ok u => .ok () (Cell.ofValue u)
      | .error f => .error (.fault f) (Cell.ofValue w) := by
  have hentry : v.size = 1 → ∃ e, a.set coords v = a.write coords e := by
    intro h1
    cases he : v.asEntry with
    | none => exact absurd h1 (Value.asEntry_eq_none_iff.mp he)
    | some e => exact ⟨e, by simp only [NDArray.set, he]⟩
  rw [run_set ha]
  refine ⟨fun h1 => ?_, fun h1 axis h0 => ?_, fun h1 h0 hn hr => ?_, fun h1 h0 hr => ?_,
    fun w hw => run_setValue hw coords v⟩
  · have hnone := Value.asEntry_eq_none_iff.mpr h1
    simp only [NDArray.set, hnone]
    rfl
  · obtain ⟨e, hset⟩ := hentry h1
    rw [hset, NDArray.write_of_zero h0]
    rfl
  · obtain ⟨e, hset⟩ := hentry h1
    have hpos := Shape.findIdx?_zero_eq_none_iff.mp h0
    rw [hset, NDArray.write_of_refused ha hpos hn hr]
    rfl
  · obtain ⟨e, hset⟩ := hentry h1
    have hpos := Shape.findIdx?_zero_eq_none_iff.mp h0
    obtain ⟨b, hb⟩ := NDArray.write_of_granted ha hpos hr (e := e)
    have hwell := NDArray.write_wellFormed ha hb
    rw [hset, hb]
    exact ⟨b, hwell, rfl, rfl⟩

def square : NDArray := ⟨[2, 2], #[1, 2, 3, 4], none, .double⟩

theorem square_wellFormed : square.WellFormed :=
  NDArray.wellFormed_exact (by decide) (by decide) (by rfl) (fun _ h => by cases h) fun _ => rfl

/-- A coordinate zero, a column as long as words reach, and one row and column more. -/
theorem set_outcome_square :
    square.WellFormed ∧
      (set [2, 0] (.number (.real 5))).run (ofArray square) =
        .error (.fault (.indexBelowOne 1)) (ofArray square) ∧
      (set [maxCount] (.number (.real 5))).run (ofArray square) =
        .error (.fault (.outOfMemory [maxCount, 1])) (ofArray square) ∧
      ∃ b, b.WellFormed ∧ square.set [3, 3] (.number (.real 5)) = .ok b ∧
        (set [3, 3] (.number (.real 5))).run (ofArray square) = .ok () (ofArray b) := by
  have hzero := set_outcome square_wellFormed [2, 0] (.number (.real 5))
  have hlong := set_outcome square_wellFormed [maxCount] (.number (.real 5))
  have hmore := set_outcome square_wellFormed [3, 3] (.number (.real 5))
  refine ⟨square_wellFormed, hzero.2.1 rfl 1 rfl, hlong.2.2.1 rfl rfl ?_ rfl,
    hmore.2.2.2.1 rfl rfl (.inr rfl)⟩
  rintro ⟨-, h⟩
  revert h
  decide

end NumericArrays.InPlace

import NumericArrays.InPlace.Write
import NumericArrays.Proofs.InPlace.Copy
import NumericArrays.Proofs.NDArray.Write

/-! Writing in place yields what writing to a copy yields, and leaves no trace of a write that fails. -/
namespace NumericArrays.InPlace

variable {α β : Type} {a g : NDArray} {m m' : Memory} {coords : List Nat} {dims : Shape} {p : Nat}

/-! ### Steps -/

theorem run_bind_ok {x : Steps α} {y : α} (h : x.run m = .ok y m') (f : α → Steps β) :
    (x >>= f).run m = (f y).run m' := by
  show EStateM.bind x f m = f y m'
  unfold EStateM.bind
  rw [show x m = .ok y m' from h]

theorem run_bind_error {x : Steps α} {e : Stop} (h : x.run m = .error e m') (f : α → Steps β) :
    (x >>= f).run m = .error e m' := by
  show EStateM.bind x f m = .error e m'
  unfold EStateM.bind
  rw [show x m = .error e m' from h]

def answer (start : Memory) : Except Fault NDArray → EStateM.Result Stop Memory Unit
  | .ok b => .ok () (ofArray b)
  | .error f => .error (.fault f) start

theorem run_get_bind (f : Memory → Steps β) : (get >>= f).run m = (f m).run m := rfl

theorem run_check_error {x : Except Stop α} {e : Stop} (h : x = .error e) (f : α → Steps β) :
    (check x >>= f).run m = .error e m := by
  rw [h]
  rfl

theorem run_check_ok {x : Except Stop α} {y : α} (h : x = .ok y) (f : α → Steps β) :
    (check x >>= f).run m = (f y).run m := by
  rw [h]
  rfl

/-! ### Growing -/

theorem allocate_of_refused {n : Nat} (h : ¬ isAllocatable n = true) :
    allocate dims n = .error (.fault (.outOfMemory dims)) := by
  rw [allocate, if_neg h]

theorem allocate_of_granted {n : Nat} (h : isAllocatable n = true) :
    allocate dims n = .ok (.replicate n 0) := by
  rw [allocate, if_pos h]

theorem freshBuffers_of_refused {n : Nat} (h : ¬ isAllocatable n = true) :
    freshBuffers m dims n = .error (.fault (.outOfMemory dims)) := by
  rw [freshBuffers, allocate_of_refused h]
  rfl

theorem movedBuffers_of_refused {n : Nat} (h : ¬ isAllocatable n = true) :
    movedBuffers m dims n = .error (.fault (.outOfMemory dims)) := by
  rw [movedBuffers, allocate_of_refused h]
  rfl

/-- If the first buffer is granted so is the second. -/
theorem freshBuffers_of_granted {n : Nat} (h : isAllocatable n = true) :
    freshBuffers m dims n = .ok (.replicate n 0, m.imag.map fun _ => .replicate n 0) := by
  unfold freshBuffers
  rw [allocate_of_granted h, ok_bind]
  cases m.imag with
  | none => rfl
  | some im => rfl

theorem movedBuffers_of_granted (ha : a.WellFormed) (h0 : a.size ≠ 0) {n : Nat}
    (hx : ∀ axis, a.dims.extent axis ≤ dims.extent axis) (hc : dims.count? = some dims.count)
    (hn : dims.count ≤ n) (h : isAllocatable n = true) :
    movedBuffers (ofArray a) dims n =
      .ok (NDArray.relocate a.dims dims n a.real,
        a.imag.map (NDArray.relocate a.dims dims n)) := by
  have hcopy : ∀ buffer : Array Float, a.size ≤ buffer.size →
      copyInto buffer a.dims dims (.replicate n 0) =
        .ok (NDArray.relocate a.dims dims n buffer) := fun buffer hb =>
    Fits.copyInto_eq ⟨hx, ha.two_axes, ha.counted, hc, h0, hb, hn⟩
  have hreal := hcopy a.real ha.size_le
  unfold movedBuffers
  rw [allocate_of_granted h, ok_bind]
  cases him : a.imag with
  | none =>
    simp only [ofArray, him, hreal, ok_bind]
    rfl
  | some im =>
    have himag := hcopy im (by rw [ha.imag_size im him]; exact ha.size_le)
    simp only [ofArray, him, hreal, himag, ok_bind]
    rfl

theorem run_setBoth (real : Array Float) (imag : Option (Array Float)) (len : Nat) :
    (do setBuffers real imag; setShape dims len : Steps Unit).run m =
      .ok () ⟨dims, len, real, imag, m.kind⟩ := rfl

theorem ofArray_mk {count : Nat} (h : dims.count? = some count) (real : Array Float)
    (imag : Option (Array Float)) (kind : Storage) :
    ofArray ⟨dims, real, imag, kind⟩ = ⟨dims, count, real, imag, kind⟩ := by
  unfold ofArray NDArray.size
  rw [Shape.count_of_count? h]

/-- New buffers and the shape are put into place unless memory is refused, before anything has changed. -/
theorem run_buffers {x : Except Stop (Array Float × Option (Array Float))} {real : Array Float}
    {imag : Option (Array Float)} {count n : Nat} (hc : dims.count? = some count)
    (hrefused : ¬ isAllocatable n = true → x = .error (.fault (.outOfMemory dims)))
    (hgranted : isAllocatable n = true → x = .ok (real, imag)) :
    (do
      let (real, imag) ← check x
      setBuffers real imag
      setShape dims count : Steps Unit).run (ofArray a) =
    answer (ofArray a)
      (if isAllocatable n then .ok { a with dims, real, imag } else .error (.outOfMemory dims)) := by
  by_cases hm : isAllocatable n = true
  · rw [run_check_ok (hgranted hm), run_setBoth, if_pos hm, answer, ofArray_mk hc]
    rfl
  · rw [run_check_error (hrefused hm), if_neg hm, answer]

/-- Growing in place yields what growing a copy yields, and nothing changes before it can succeed. -/
theorem run_resize (ha : a.WellFormed) (dims : Shape) :
    (resize dims).run (ofArray a) = answer (ofArray a) (a.resize dims) := by
  unfold resize
  cases hc : dims.normalize.count? with
  | none =>
    rw [NDArray.resize_of_count?_eq_none hc]
    simp only [hc]
    rfl
  | some count =>
    have hcount := Shape.count_of_count? hc
    simp only [hc]
    rw [run_get_bind]
    by_cases h0 : a.size = 0
    · rw [NDArray.resize_of_empty hc h0, if_pos (show (ofArray a).len = 0 from h0)]
      exact run_buffers hc freshBuffers_of_refused freshBuffers_of_granted
    rw [if_neg (show ¬ (ofArray a).len = 0 from h0)]
    cases hx : a.dims.exceeds dims.normalize with
    | true =>
      rw [NDArray.resize_of_exceeds hc h0 hx,
        if_pos (show (ofArray a).dims.exceeds dims.normalize = true from hx)]
      rfl
    | false =>
      rw [if_neg (show ¬ (ofArray a).dims.exceeds dims.normalize = true by simpa [ofArray] using hx)]
      have hroom : ((ofArray a).dims.isVector && dims.normalize.isVector &&
          decide (count ≤ (ofArray a).real.size)) = true ↔
            a.dims.isVector = true ∧ dims.normalize.isVector = true ∧ count ≤ a.capacity := by
        rw [Bool.and_eq_true, Bool.and_eq_true, decide_eq_true_iff, and_assoc]
        rfl
      by_cases hr : a.dims.isVector = true ∧ dims.normalize.isVector = true ∧ count ≤ a.capacity
      · rw [NDArray.resize_of_room hc h0 hx hr.1 hr.2.1 hr.2.2, if_pos (hroom.mpr hr), answer,
          ofArray_mk hc]
        rfl
      · rw [NDArray.resize_of_move hc h0 hx hr, if_neg (mt hroom.mp hr)]
        have hlength : dims.normalize.count ≤ min (growthFactor * count) maxCount := by
          have hle := Shape.le_of_count? hc
          rw [hcount, growthFactor]
          omega
        exact run_buffers hc movedBuffers_of_refused fun hm =>
          movedBuffers_of_granted ha h0 (Shape.exceeds_eq_false_iff.mp hx) (by rw [hcount, hc]) hlength hm

/-- The exchanged shape is put back when growing fails. -/
theorem run_growFor (ha : a.WellFormed) (coords : List Nat) :
    (growFor coords).run (ofArray a) = answer (ofArray a) (a.growFor coords) := by
  unfold growFor
  rw [run_get_bind]
  match coords with
  | [] => exact run_resize ha (a.dims.grownTo [])
  | x :: y :: rest => exact run_resize ha (a.dims.grownTo (x :: y :: rest))
  | [n] =>
    by_cases hv : a.dims.isVector = true
    · rw [NDArray.growFor_eq, NDArray.growthForm_of_isVector hv]
      simp only [NDArray.grownDims, NDArray.growthForm_of_isVector hv]
      rw [if_pos (show (ofArray a).dims.isVector = true from hv)]
      exact run_resize ha (a.dims.grownToCount n)
    · have hcolumn := ha.growthForm [n]
      have hsize := NDArray.size_growthForm ha [n]
      have hgrow := NDArray.growFor_eq a [n]
      have hdims : a.grownDims [n] = Shape.grownToCount [a.size, 1] n := by
        rw [NDArray.grownDims, NDArray.growthForm_of_not_isVector hv]
      rw [NDArray.growthForm_of_not_isVector hv] at hcolumn hsize hgrow
      have hmemory : ofArray { a with dims := [a.size, 1] } =
          { ofArray a with dims := [a.size, 1] } := by
        unfold ofArray
        rw [hsize]
      have hrun := run_resize hcolumn (a.grownDims [n])
      rw [← hgrow, hmemory, hdims] at hrun
      dsimp only
      rw [if_neg (show ¬ (ofArray a).dims.isVector = true from hv)]
      show EStateM.tryCatch (resize (Shape.grownToCount [a.size, 1] n)) _
        { ofArray a with dims := [a.size, 1] } = _
      unfold EStateM.tryCatch
      rw [show (resize (Shape.grownToCount [a.size, 1] n)) { ofArray a with dims := [a.size, 1] } =
        answer { ofArray a with dims := [a.size, 1] } (a.growFor [n]) from hrun]
      cases a.growFor [n] with
      | ok b => rfl
      | error f => rfl

/-! ### Finding the place -/

theorem locate_of_has (ha : a.WellFormed) (h : a.dims.Has coords) :
    locate (ofArray a).dims coords = .ok (some (a.dims.position coords)) := by
  show locate a.dims coords = .ok (some (a.dims.position coords))
  rw [locate_eq ha.counted, Shape.locate_of_has ha.counted h]
  rfl

theorem run_placeFor_of_zero (ha : a.WellFormed) {axis : Nat}
    (h : coords.findIdx? (· == 0) = some axis) :
    (placeFor coords).run (ofArray a) = .error (.fault (.indexBelowOne axis)) (ofArray a) := by
  have hlocate : locate (ofArray a).dims coords = .error (.fault (.indexBelowOne axis)) := by
    show locate a.dims coords = .error (.fault (.indexBelowOne axis))
    rw [locate_eq ha.counted, Shape.locate_of_zero h]
    rfl
  unfold placeFor
  rw [run_get_bind]
  exact run_check_error hlocate _

theorem run_placeFor_of_has (ha : a.WellFormed) (h : a.dims.Has coords) :
    (placeFor coords).run (ofArray a) = .ok (a.dims.position coords) (ofArray a) := by
  unfold placeFor
  rw [run_get_bind]
  exact run_check_ok (locate_of_has ha h) _

/-- After growing the coordinates are found. -/
theorem run_placeFor_of_not_has (ha : a.WellFormed) (hpos : ∀ axis, 1 ≤ coords.getD axis 1)
    (h : ¬ a.dims.Has coords) :
    (placeFor coords).run (ofArray a) =
      match a.growFor coords with
      | .ok g => .ok (g.dims.position coords) (ofArray g)
      | .error f => .error (.fault f) (ofArray a) := by
  have hlocate : locate (ofArray a).dims coords = .ok none := by
    show locate a.dims coords = .ok none
    rw [locate_eq ha.counted,
      Shape.locate_of_not_has ha.counted (Shape.findIdx?_zero_eq_none_iff.mpr hpos) h]
    rfl
  have hgrow := run_growFor ha coords
  unfold placeFor
  rw [run_get_bind, run_check_ok hlocate]
  cases hg : a.growFor coords with
  | error f =>
    rw [hg] at hgrow
    exact run_bind_error hgrow _
  | ok g =>
    have hroom : NDArray.Room a coords g := .grown g h hpos hg
    rw [hg] at hgrow
    rw [run_bind_ok hgrow, run_get_bind]
    exact run_check_ok (locate_of_has (hroom.wellFormed ha) (hroom.has ha)) _

/-! ### Storing -/

theorem run_retag (kind : Storage) : (retag kind).run (ofArray a) = .ok () (ofArray (a.retag kind)) :=
  rfl

theorem run_promote (h : a.imag = none) : promote.run (ofArray a) = .ok () (ofArray a.promote) := by
  have hpromote : a.promote = { a with
      imag := some (.replicate a.capacity 0)
      kind := if a.kind = .logical then .double else a.kind } := by
    rw [NDArray.promote, h]
  rw [hpromote]
  unfold promote
  rw [run_get_bind, if_pos (show (ofArray a).imag.isNone = true by simp [ofArray, h])]
  rfl

theorem run_store (hp : p < a.capacity) (hi : ∀ im, a.imag = some im → im.size = a.capacity)
    (z : Cartesian Float) : (store p z).run (ofArray a) = .ok () (ofArray (a.store p z)) := by
  obtain ⟨dims, real, imag, kind⟩ := a
  have hreal : storeIn p (kind.store z.re) real = .ok (real.setIfInBounds p (kind.store z.re)) :=
    if_pos hp
  unfold store
  rw [run_get_bind]
  refine (run_check_ok hreal _).trans ?_
  cases imag with
  | none => rfl
  | some im =>
    have himag : storeIn p (kind.store z.im) im = .ok (im.setIfInBounds p (kind.store z.im)) :=
      if_pos (by rw [hi im rfl]; exact hp)
    exact run_check_ok himag _

end NumericArrays.InPlace

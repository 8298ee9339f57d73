import NumericArrays.InPlace.Copy
import NumericArrays.Proofs.InPlace.Words
import NumericArrays.Proofs.Shape.Growth

/-! One run of the copy: where it starts, what it overwrites, and which run is next. -/
namespace NumericArrays

namespace Shape

variable {s t : Shape} {c : List Nat} {p q d : Nat}

theorem covers_congr_extent (h : ∀ axis, s.extent axis = t.extent axis) (c : List Nat) :
    s.covers c = t.covers c := by
  rw [Bool.eq_iff_iff, covers_iff, covers_iff]
  simp only [h]

theorem getD_coordsOf_congr (h : ∀ axis, s.extent axis = t.extent axis) (hp : p < s.prod)
    (axis : Nat) : (s.coordsOf p).getD axis 0 = (t.coordsOf p).getD axis 0 := by
  have hcov : t.covers (s.coordsOf p) = true := by
    rw [← covers_congr_extent h]
    exact covers_coordsOf hp
  have hback := getD_coordsOf_offset hcov axis
  rw [← offset_congr_extent h, offset_coordsOf hp] at hback
  exact hback.symm

/-! ### The next coordinates -/

theorem coordsOf_cons_add (h : 0 < d) {i : Nat} (hi : i < d) (hp : d ∣ p) :
    coordsOf (d :: s) (p + i) = i :: s.coordsOf (p / d) := by
  obtain ⟨j, rfl⟩ := hp
  rw [coordsOf, Nat.mul_add_mod, Nat.mod_eq_of_lt hi, Nat.mul_add_div h, Nat.div_eq_of_lt hi,
    add_zero, Nat.mul_div_cancel_left j h]

end Shape

namespace InPlace

variable {s old new : Shape} {c : List Nat} {p q d n : Nat}

/-- Counting up with carry goes on to the coordinates of the next position. -/
theorem carry_coordsOf (hpos : ∀ d ∈ s, 0 < d) (hle : ∀ d ∈ s, d ≤ maxCount) (p : Nat) :
    carry s (s.coordsOf p) = .ok (s.coordsOf (p + 1)) := by
  induction s generalizing p with
  | nil => rfl
  | cons d s ih =>
    have hd : 0 < d := hpos d List.mem_cons_self
    have hmax : d ≤ maxCount := hle d List.mem_cons_self
    have hmod : p % d < d := Nat.mod_lt p hd
    have hsplit : p = d * (p / d) + p % d := (Nat.div_add_mod p d).symm
    rw [Shape.coordsOf, carry, addWord_of_le (by omega), ok_bind]
    by_cases hin : p % d + 1 < d
    · -- no carry
      have hnext : p + 1 = d * (p / d) + (p % d + 1) := by omega
      have hm : (p + 1) % d = p % d + 1 := by
        rw [hnext, Nat.mul_add_mod, Nat.mod_eq_of_lt hin]
      have hdiv : (p + 1) / d = p / d := by
        rw [hnext, Nat.mul_add_div hd, Nat.div_eq_of_lt hin, add_zero]
      rw [if_pos hin, Shape.coordsOf, hm, hdiv]
      rfl
    · -- the coordinate goes back to zero
      have hfull : p % d + 1 = d := by omega
      have hnext : p + 1 = d * (p / d + 1) := by
        rw [Nat.mul_add, Nat.mul_one]
        omega
      have hm : (p + 1) % d = 0 := by rw [hnext, Nat.mul_mod_right]
      have hdiv : (p + 1) / d = p / d + 1 := by rw [hnext, Nat.mul_div_cancel_left _ hd]
      rw [if_neg hin, ih (fun e he => hpos e (List.mem_cons_of_mem d he))
        (fun e he => hle e (List.mem_cons_of_mem d he)), ok_bind, Shape.coordsOf, hm, hdiv]
      rfl

theorem advance_coordsOf (hpos : ∀ d ∈ s, 0 < d) (hle : ∀ d ∈ s, d ≤ maxCount) (hd : 0 < d)
    (p : Nat) : advance (d :: s) (Shape.coordsOf (d :: s) p) =
      .ok (Shape.coordsOf (d :: s) (p + d)) := by
  rw [Shape.coordsOf, Shape.coordsOf, advance, carry_coordsOf hpos hle, ok_map,
    Nat.add_mod_right, Nat.add_div_right p hd]

/-! ### The start of a run -/

theorem runStart_fold {unit : Nat} (hl : c.length ≤ s.length)
    (h : n + unit * s.offset c ≤ maxCount) :
    (c.zip (Shape.stridesFrom unit s)).foldlM
        (fun n (c, stride) => do addWord n (← mulWord c stride)) n =
      .ok (n + unit * s.offset c) := by
  induction s generalizing c n unit with
  | nil =>
    have hc : c = [] := List.length_eq_zero_iff.mp (by simpa using hl)
    subst hc
    rfl
  | cons d s ih =>
    cases c with
    | nil => rfl
    | cons x c =>
      have hsplit : n + unit * Shape.offset (d :: s) (x :: c) =
          n + x * unit + unit * d * Shape.offset s c := by
        rw [Shape.offset]
        ring
      rw [hsplit] at h ⊢
      have hx : n + x * unit ≤ maxCount := (Nat.le_add_right _ _).trans h
      rw [Shape.stridesFrom, List.zip_cons_cons, List.foldlM_cons]
      simp only [mulWord_of_le ((Nat.le_add_left _ _).trans hx), ok_bind, addWord_of_le hx]
      exact ih (by simpa using hl) h

/-- A run starts at the offset of its coordinates, of which the first is zero. -/
theorem runStart_eq (hl : c.length ≤ s.length) (h : d * s.offset c ≤ maxCount) :
    runStart (0 :: c) (Shape.stridesFrom 1 (d :: s)) =
      .ok (Shape.offset (d :: s) (0 :: c)) := by
  have hbound : 0 + d * Shape.offset s c ≤ maxCount := by rwa [zero_add]
  have hfold := runStart_fold hl hbound
  unfold runStart
  rw [Shape.stridesFrom, List.zip_cons_cons, List.drop_one, List.tail_cons, one_mul, hfold,
    Shape.offset]

end InPlace
end NumericArrays

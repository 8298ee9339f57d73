import NumericArrays.Concat.Turns
import NumericArrays.Proofs.Concat.Join

/-! Joining by turns ends with every part used up and with the buffers of the joined array. -/
namespace NumericArrays.Concat

variable {axis pages total r k n src : Nat} {kind : Storage} {parts : List NDArray} {part : NDArray}
  {f : NDArray → Nat → Float} {xs ys : List Float} {buffer source : Array Float}

/-! ### Buffers that are filled from the front -/

def filled (total : Nat) (xs : List Float) : Array Float :=
  (xs ++ List.replicate (total - xs.length) 0).toArray

theorem filled_nil (total : Nat) : filled total [] = .replicate total 0 := by
  simp [filled]

theorem filled_of_length (h : xs.length = total) : filled total xs = xs.toArray := by
  simp [filled, h]

/-- Zeros are there already. -/
theorem filled_append_zeros (h : xs.length + n ≤ total) :
    filled total (xs ++ List.replicate n 0) = filled total xs := by
  have hrest : total - xs.length = n + (total - (xs.length + n)) := by omega
  unfold filled
  rw [List.length_append, List.length_replicate, hrest, List.append_assoc, List.replicate_append_replicate]

theorem overwrite_filled (h : xs.length + ys.length ≤ total) :
    overwrite (filled total xs) xs.length ys = some (filled total (xs ++ ys)) := by
  have hsize : (filled total xs).size = total := by
    simp only [filled, List.size_toArray, List.length_append, List.length_replicate]
    omega
  have hrest : total - xs.length - ys.length = total - (xs.length + ys.length) := by omega
  unfold overwrite
  rw [if_pos (by rw [hsize]; exact h)]
  simp only [filled, List.take_left, List.drop_append, List.drop_replicate, List.length_append, hrest,
    List.drop_eq_nil_of_le (Nat.le_add_right xs.length ys.length), Nat.add_sub_cancel_left, List.nil_append]

/-! ### Pages -/

theorem length_page (f : NDArray → Nat → Float) (part : NDArray) (k : Nat) :
    (page axis f part k).length = pageSize axis part.dims := by
  simp [page]

/-- A page lies in one piece in a buffer that `f` reads. -/
theorem slice_eq_page (hf : ∀ p < buffer.size, f part p = buffer.getD p 0)
    (h : r * pageSize axis part.dims + pageSize axis part.dims ≤ buffer.size) :
    slice buffer (r * pageSize axis part.dims) (pageSize axis part.dims) = some (page axis f part r) := by
  unfold slice
  rw [if_pos h]
  congr 1
  apply List.ext_getElem
  · simp only [List.length_take, List.length_drop, Array.length_toList, length_page]
    omega
  · intro i h1 h2
    rw [length_page] at h2
    have hi : r * pageSize axis part.dims + i < buffer.size := by omega
    simp only [page, List.getElem_take, List.getElem_drop, Array.getElem_toList, List.getElem_map,
      List.getElem_range]
    rw [hf _ hi, getD_of_lt hi]

/-- Copying a page where the filled part of the target ends. -/
theorem copy_filled (kind : Storage) (hf : ∀ p < source.size, f part p = source.getD p 0)
    (h : r * pageSize axis part.dims + pageSize axis part.dims ≤ source.size)
    (ht : xs.length + pageSize axis part.dims ≤ total) :
    Turns.copy kind source (filled total xs) (r * pageSize axis part.dims) xs.length
        (pageSize axis part.dims) =
      some (filled total (xs ++ page axis (fun part p => kind.store (f part p)) part r)) := by
  have hpage : (page axis f part r).map kind.store =
      page axis (fun part p => kind.store (f part p)) part r := by
    simp [page, Function.comp_def]
  unfold Turns.copy
  rw [slice_eq_page hf h, Option.bind_some, hpage, overwrite_filled]
  rw [length_page]
  exact ht

theorem page_of_real (h : part.imag = none) :
    page axis (fun part p => kind.store (part.im p)) part r =
      List.replicate (pageSize axis part.dims) 0 := by
  simp only [page, NDArray.im_of_real h, kind.store_zero, List.map_const', List.length_range]

/-! ### The state after some rounds and some turns more -/

/-- What is written after `r` rounds and `k` turns more. -/
def flow (axis : Nat) (f : NDArray → Nat → Float) (parts : List NDArray) (r k : Nat) : List Float :=
  ((List.range r).flatMap fun i => parts.flatMap fun part => page axis f part i) ++
    (parts.take k).flatMap fun part => page axis f part r

theorem flow_succ (hk : k < parts.length) :
    flow axis f parts r (k + 1) = flow axis f parts r k ++ page axis f parts[k] r := by
  unfold flow
  rw [List.take_succ_eq_append_getElem hk, List.flatMap_append, List.append_assoc, List.flatMap_singleton]

theorem flow_round : flow axis f parts r parts.length = flow axis f parts (r + 1) 0 := by
  unfold flow
  rw [List.range_succ, List.flatMap_append, List.flatMap_singleton, List.take_length, List.take_zero,
    List.flatMap_nil, List.append_nil]

def roundSize (axis : Nat) (parts : List NDArray) : Nat :=
  (parts.map fun part => pageSize axis part.dims).sum

theorem length_flow (axis : Nat) (f : NDArray → Nat → Float) (parts : List NDArray) (r k : Nat) :
    (flow axis f parts r k).length =
    r * roundSize axis parts + roundSize axis (parts.take k) := by
  simp only [flow, roundSize, List.length_append, List.length_flatMap, length_page, List.map_const',
    List.length_range, List.sum_replicate, nsmul_eq_mul, Nat.cast_id]

theorem roundSize_take_succ (hk : k < parts.length) :
    roundSize axis (parts.take (k + 1)) =
      roundSize axis (parts.take k) + pageSize axis parts[k].dims := by
  simp only [roundSize, List.take_succ_eq_append_getElem hk, List.map_append, List.sum_append,
    List.map_cons, List.map_nil, List.sum_singleton]

theorem roundSize_take_le (axis : Nat) (parts : List NDArray) (k : Nat) : roundSize axis (parts.take k) ≤ roundSize axis parts := by
  have hsplit := congrArg (roundSize axis) (List.take_append_drop k parts)
  simp only [roundSize, List.map_append, List.sum_append] at hsplit ⊢
  omega

namespace Turns

def reached (axis : Nat) (kind : Storage) (parts : List NDArray) (total r k : Nat) : Turns where
  written := r * roundSize axis parts + roundSize axis (parts.take k)
  turn := k % parts.length
  taken := parts.mapIdx fun i part => (if i < k then r + 1 else r) * pageSize axis part.dims
  real := filled total (flow axis (fun part p => kind.store (part.re p)) parts r k)
  imag :=
    if parts.any (·.isComplex) then
      some (filled total (flow axis (fun part p => kind.store (part.im p)) parts r k))
    else none

theorem start_eq_reached : start parts total = reached axis kind parts total 0 0 := by
  have htaken : (parts.map fun _ => 0) =
      parts.mapIdx fun i part => (if i < 0 then 0 + 1 else 0) * pageSize axis part.dims := by
    apply List.ext_getElem
    · simp
    · intro i h1 h2
      simp
  unfold start reached
  rw [htaken]
  simp [flow, filled_nil, roundSize]

/-- After the turn of the last part a new round begins. -/
theorem reached_round : reached axis kind parts total r parts.length = reached axis kind parts total (r + 1) 0 := by
  have htaken : (parts.mapIdx fun i part => (if i < parts.length then r + 1 else r) * pageSize axis part.dims) =
      parts.mapIdx fun i part => (if i < 0 then r + 1 + 1 else r + 1) * pageSize axis part.dims := by
    apply List.ext_getElem
    · simp
    · intro i h1 h2
      simp only [List.length_mapIdx] at h1
      simp [h1]
  unfold reached
  rw [htaken]
  simp only [flow_round, List.take_length, Nat.mod_self, Nat.zero_mod, Nat.add_mul, Nat.one_mul]
  simp [roundSize]

theorem taken_succ (hk : k < parts.length) :
    (reached axis kind parts total r k).taken.set k
        (r * pageSize axis parts[k].dims + pageSize axis parts[k].dims) =
      (reached axis kind parts total r (k + 1)).taken := by
  apply List.ext_getElem
  · simp [reached]
  · intro i h1 h2
    simp only [reached, List.getElem_set, List.getElem_mapIdx]
    by_cases hik : k = i
    · subst hik
      rw [if_pos rfl, if_pos (Nat.lt_succ_self k), Nat.add_mul, Nat.one_mul]
    · rw [if_neg hik]
      congr 1
      by_cases hlt : i < k
      · rw [if_pos hlt, if_pos (by omega)]
      · rw [if_neg hlt, if_neg (by omega)]

/-! ### One turn -/

theorem copyImag_of_none (n : Nat) {dst : Nat} : copyImag kind part none src dst n = some none := rfl

/-- A real part leaves zeros where its imaginary parts would stand. -/
theorem copyImag_of_real (h : part.imag = none) (ht : xs.length + pageSize axis part.dims ≤ total) :
    copyImag kind part (some (filled total xs)) src xs.length (pageSize axis part.dims) =
      some (some (filled total (xs ++ page axis (fun part p => kind.store (part.im p)) part r))) := by
  have himags : part.imags = none := by
    rw [NDArray.imags, h]
    rfl
  rw [page_of_real h, filled_append_zeros ht]
  unfold copyImag
  rw [himags]

theorem copyImag_of_complex {im : Array Float} (hpart : part.WellFormed) (h : part.imag = some im)
    (hpage : r * pageSize axis part.dims + pageSize axis part.dims ≤ part.size)
    (ht : xs.length + pageSize axis part.dims ≤ total) :
    copyImag kind part (some (filled total xs)) (r * pageSize axis part.dims) xs.length
        (pageSize axis part.dims) =
      some (some (filled total (xs ++ page axis (fun part p => kind.store (part.im p)) part r))) := by
  have himags : part.imags = some (im.extract 0 part.size) := by
    rw [NDArray.imags, h]
    rfl
  have hsize : (im.extract 0 part.size).size = part.size := by
    apply size_extract
    rw [hpart.imag_size im h]
    exact hpart.size_le
  have him : ∀ p < (im.extract 0 part.size).size, part.im p = (im.extract 0 part.size).getD p 0 := by
    intro p hlt
    rw [getD_extract, if_pos (hsize ▸ hlt), NDArray.im_of_complex h]
  have hcopy := copy_filled kind (f := NDArray.im) him (by rw [hsize]; exact hpage) ht
  unfold copyImag
  simp only [himags, hcopy, Option.map_some]

theorem copy_reals (hpart : part.WellFormed)
    (hpage : r * pageSize axis part.dims + pageSize axis part.dims ≤ part.size)
    (ht : xs.length + pageSize axis part.dims ≤ total) :
    copy kind part.reals (filled total xs) (r * pageSize axis part.dims) xs.length
        (pageSize axis part.dims) =
      some (filled total (xs ++ page axis (fun part p => kind.store (part.re p)) part r)) := by
  have hsize : part.reals.size = part.size := size_extract hpart.size_le
  have hre : ∀ p < part.reals.size, part.re p = part.reals.getD p 0 := by
    intro p hlt
    rw [NDArray.reals, getD_extract, if_pos (hsize ▸ hlt)]
    rfl
  exact copy_filled kind hre (by rw [hsize]; exact hpage) ht

theorem next_eq {s : Turns} {real : Array Float} {imag : Option (Array Float)}
    (hpart : parts[s.turn]? = some part) (hsrc : s.taken[s.turn]? = some src)
    (hreal : copy kind part.reals s.real src s.written (pageSize axis part.dims) = some real)
    (himag : copyImag kind part s.imag src s.written (pageSize axis part.dims) = some imag) :
    next axis kind parts s = some
      { written := s.written + pageSize axis part.dims
        turn := (s.turn + 1) % parts.length
        taken := s.taken.set s.turn (src + pageSize axis part.dims)
        real, imag } := by
  unfold next
  simp only [bind, Option.bind, hpart, hsrc, hreal, himag]
  rfl

variable (hp : ∀ part ∈ parts, part.WellFormed)
  (hs : ∀ part ∈ parts, part.size = pages * pageSize axis part.dims)

/-- The result has room for the page of the next turn. -/
theorem room (axis : Nat) (hr : r < pages) (hk : k < parts.length) :
    r * roundSize axis parts + roundSize axis (parts.take k) + pageSize axis parts[k].dims ≤
      pages * roundSize axis parts := by
  have hround := roundSize_take_le axis parts (k + 1)
  rw [roundSize_take_succ hk] at hround
  calc _ ≤ r * roundSize axis parts + roundSize axis parts := by omega
    _ = (r + 1) * roundSize axis parts := (Nat.succ_mul _ _).symm
    _ ≤ pages * roundSize axis parts := Nat.mul_le_mul_right _ hr

section Page

variable (hr : r < pages) (hk : k < parts.length)

include hs hr in
/-- The part has a page left for the turn. -/
theorem page_le : r * pageSize axis parts[k].dims + pageSize axis parts[k].dims ≤ parts[k].size := by
  rw [hs _ (List.getElem_mem hk), ← Nat.succ_mul]
  exact Nat.mul_le_mul_right _ hr

include hr in
theorem length_flow_le (f : NDArray → Nat → Float) :
    (flow axis f parts r k).length + pageSize axis parts[k].dims ≤ pages * roundSize axis parts := by
  rw [length_flow]
  exact room axis hr hk

include hp hs hr in
theorem copy_reached :
    copy kind parts[k].reals (reached axis kind parts (pages * roundSize axis parts) r k).real
      (r * pageSize axis parts[k].dims) (r * roundSize axis parts + roundSize axis (parts.take k))
      (pageSize axis parts[k].dims) =
        some (reached axis kind parts (pages * roundSize axis parts) r (k + 1)).real := by
  have hlength := length_flow axis (fun part p => kind.store (part.re p)) parts r k
  simp only [reached]
  rw [flow_succ hk, ← hlength]
  exact copy_reals (hp _ (List.getElem_mem hk)) (page_le hs hr hk) (length_flow_le hr hk _)

include hp hs hr in
theorem copyImag_reached :
    copyImag kind parts[k] (reached axis kind parts (pages * roundSize axis parts) r k).imag
      (r * pageSize axis parts[k].dims) (r * roundSize axis parts + roundSize axis (parts.take k))
      (pageSize axis parts[k].dims) =
        some (reached axis kind parts (pages * roundSize axis parts) r (k + 1)).imag := by
  have hlength := length_flow axis (fun part p => kind.store (part.im p)) parts r k
  have hroom : (flow axis (fun part p => kind.store (part.im p)) parts r k).length +
      pageSize axis parts[k].dims ≤ pages * roundSize axis parts := length_flow_le hr hk _
  simp only [reached]
  by_cases hc : parts.any (·.isComplex) = true
  · rw [if_pos hc, if_pos hc, flow_succ hk, ← hlength]
    cases him : parts[k].imag with
    | none => exact copyImag_of_real him hroom
    | some im =>
      exact copyImag_of_complex (hp _ (List.getElem_mem hk)) him (page_le hs hr hk) hroom
  · rw [if_neg hc, if_neg hc, copyImag_of_none]

include hp hs hr hk in
/-- A turn adds a page of the part whose turn it is. -/
theorem next_reached :
    next axis kind parts (reached axis kind parts (pages * roundSize axis parts) r k) =
      some (reached axis kind parts (pages * roundSize axis parts) r (k + 1)) := by
  have hpartk : parts[k % parts.length]? = some parts[k] := by
    rw [Nat.mod_eq_of_lt hk, List.getElem?_eq_getElem hk]
  have htaken : (reached axis kind parts (pages * roundSize axis parts) r k).taken[k % parts.length]? =
      some (r * pageSize axis parts[k].dims) := by
    rw [Nat.mod_eq_of_lt hk]
    simp [reached, hk]
  rw [next_eq (s := reached axis kind parts (pages * roundSize axis parts) r k) hpartk htaken
    (copy_reached hp hs hr hk) (copyImag_reached hp hs hr hk)]
  congr 1
  apply Turns.ext
  · simp only [reached, roundSize_take_succ hk]
    omega
  · exact Nat.mod_add_mod _ _ _
  · rw [← taken_succ hk]
    simp only [reached, Nat.mod_eq_of_lt hk]
  · rfl
  · rfl

end Page

/-! ### All turns -/

include hp hs in
theorem after_round (hr : r < pages)
    (h : after axis kind parts (pages * roundSize axis parts) n =
      some (reached axis kind parts (pages * roundSize axis parts) r 0)) (hk : k ≤ parts.length) :
    after axis kind parts (pages * roundSize axis parts) (n + k) =
      some (reached axis kind parts (pages * roundSize axis parts) r k) := by
  induction k with
  | zero => exact h
  | succ k ih =>
    have hbefore := ih (by omega)
    rw [← Nat.add_assoc, after, hbefore, Option.bind_some, next_reached hp hs hr hk]

include hp hs in
theorem after_rounds (hr : r ≤ pages) :
    after axis kind parts (pages * roundSize axis parts) (r * parts.length) =
      some (reached axis kind parts (pages * roundSize axis parts) r 0) := by
  induction r with
  | zero =>
    rw [Nat.zero_mul, ← start_eq_reached]
    rfl
  | succ r ih =>
    rw [Nat.succ_mul, after_round hp hs hr (ih (by omega)) le_rfl, reached_round]

include hp hs in
/-- The turns end when all pages of all parts are written. -/
theorem endIn_reached (hpos : ∀ part ∈ parts, 0 < pageSize axis part.dims) :
    EndIn axis kind parts (pages * roundSize axis parts)
      (reached axis kind parts (pages * roundSize axis parts) pages 0) := by
  refine ⟨pages * parts.length, after_rounds hp hs le_rfl, Nat.le_add_right _ _, fun j hj => ?_⟩
  have hne : 0 < parts.length := Nat.pos_of_mul_pos_left (Nat.zero_lt_of_lt hj)
  have hr : j / parts.length < pages := (Nat.div_lt_iff_lt_mul hne).mpr hj
  have hk : j % parts.length < parts.length := Nat.mod_lt j hne
  have hstart : after axis kind parts (pages * roundSize axis parts) (j / parts.length * parts.length) =
      some (reached axis kind parts (pages * roundSize axis parts) (j / parts.length) 0) :=
    after_rounds hp hs hr.le
  have hj := after_round hp hs hr hstart hk.le
  rw [Nat.div_add_mod'] at hj
  refine ⟨_, hj, ?_⟩
  have hroom := room axis hr hk
  have hpage := hpos _ (List.getElem_mem hk)
  simp only [reached]
  omega

include hs in
/-- Nothing of any part is left over. -/
theorem taken_reached : (reached axis kind parts total pages 0).taken = parts.map NDArray.size := by
  apply List.ext_getElem
  · simp [reached]
  · intro i h1 h2
    rw [List.length_map] at h2
    simp only [reached, List.getElem_mapIdx, List.getElem_map, Nat.not_lt_zero, if_false]
    exact (hs _ (List.getElem_mem h2)).symm

theorem filled_flow : filled (pages * roundSize axis parts) (flow axis f parts pages 0) =
    interleave axis f parts pages := by
  have hlength := length_flow axis f parts pages 0
  rw [filled_of_length (by rw [hlength]; simp [roundSize])]
  simp [flow, interleave]

end Turns
end NumericArrays.Concat

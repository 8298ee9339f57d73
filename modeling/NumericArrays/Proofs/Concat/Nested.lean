import NumericArrays.Proofs.Concat.Tiles

/-! Joining what was joined before: groups of values along one axis, and then their results along the same
    axis or along another one. -/
namespace NumericArrays

namespace Storage

theorem logical_promote (k : Storage) : logical.promote k = k := by
  cases k <;> decide

theorem promote_logical (k : Storage) : k.promote logical = k := by
  cases k <;> decide

theorem promote_assoc (k l m : Storage) : (k.promote l).promote m = k.promote (l.promote m) := by
  cases k <;> cases l <;> cases m <;> decide

theorem promote_comm (k l : Storage) : k.promote l = l.promote k := by
  cases k <;> cases l <;> decide

end Storage

/-- Buffers without room at their end are not trimmed. -/
theorem NDArray.trim_of_capacity {a : NDArray} (ha : a.WellFormed) (h : a.capacity = a.size) :
    a.trim = a := by
  have hextract : ∀ x : Array Float, x.size = a.capacity → x.extract 0 a.size = x := by
    intro x hx
    rw [← h, ← hx, Array.extract_size]
  obtain ⟨dims, real, imag, kind⟩ := a
  have hreal : real.extract 0 _ = real := hextract real rfl
  unfold trim reals imags
  rw [hreal]
  cases imag with
  | none => rfl
  | some im => rw [Option.map_some, hextract im (ha.imag_size im rfl)]

namespace Concat

variable {axis k : Nat} {first a b x y : NDArray} {others parts xs ys : List NDArray}

/-! ### What is gathered from the parts -/

/-- A fold that combines by an operation with a neutral element may start there. -/
theorem foldl_start {α β : Type} {op : α → α → α} {e : α}
    (hassoc : ∀ x y z, op (op x y) z = op x (op y z)) (hleft : ∀ x, op e x = x)
    (hright : ∀ x, op x e = x) (f : β → α) (l : List β) (x : α) :
    l.foldl (fun y b => op y (f b)) x = op x (l.foldl (fun y b => op y (f b)) e) := by
  induction l generalizing x with
  | nil => exact (hright x).symm
  | cons b l ih => rw [List.foldl_cons, List.foldl_cons, ih, ih (op e (f b)), hleft, hassoc]

theorem rankOf_append (xs ys : List NDArray) : rankOf (xs ++ ys) = max (rankOf xs) (rankOf ys) := by
  rw [rankOf, List.foldl_append, foldl_start Nat.max_assoc Nat.zero_max Nat.max_zero]
  rfl

theorem rankOf_pair (x y : NDArray) : rankOf [x, y] = max x.dims.length y.dims.length := by
  simp [rankOf]

theorem kindOf_append (xs ys : List NDArray) : kindOf (xs ++ ys) = (kindOf xs).promote (kindOf ys) := by
  rw [kindOf, List.foldl_append,
    foldl_start Storage.promote_assoc Storage.logical_promote Storage.promote_logical]
  rfl

theorem kindOf_pair (x y : NDArray) : kindOf [x, y] = x.kind.promote y.kind := by
  simp only [kindOf, List.foldl_cons, List.foldl_nil, Storage.logical_promote]

theorem Agree.mono (h : Agree axis parts) (hsub : xs ⊆ parts) : Agree axis xs :=
  fun x hx y hy => h x (hsub hx) y (hsub hy)

theorem agree_pair (h : ∀ i, i ≠ axis → x.dims.extent i = y.dims.extent i) : Agree axis [x, y] := by
  intro u hu v hv i hi
  rcases List.mem_pair.mp hu with rfl | rfl <;> rcases List.mem_pair.mp hv with rfl | rfl
  · rfl
  · exact h i hi
  · exact (h i hi).symm
  · rfl

/-! ### The array that parts are joined to -/

/-- Parts that can be joined: elements are there, and they are numbers of their kind. -/
structure Sound (part : NDArray) : Prop where
  wellFormed : part.WellFormed
  nonempty : part.size ≠ 0
  faithful : part.Faithful

def combined (axis : Nat) : List NDArray → NDArray
  | [] => .empty
  | [a] => a
  | first :: second :: rest => joined axis first (second :: rest)

def alone (parts : List NDArray) : List (NDArray × List Tile) := parts.map fun a => (a, [.still a])

theorem map_fst_alone (parts : List NDArray) : (alone parts).map Prod.fst = parts := by
  rw [alone, List.map_map]
  exact List.map_id parts

structure Combines (axis : Nat) (parts : List NDArray) (c : NDArray) : Prop where
  sound : Sound c
  rank_eq : max c.dims.length (axis + 1) = max (rankOf parts) (axis + 1)
  extent_axis : c.dims.extent axis = (parts.map fun part => part.dims.extent axis).sum
  extent_of_ne : ∀ part ∈ parts, ∀ i, i ≠ axis → c.dims.extent i = part.dims.extent i
  kind_eq : c.kind = kindOf parts
  isComplex_eq : c.isComplex = parts.any (·.isComplex)
  size_eq : c.size = (parts.map NDArray.size).sum
  tiled : Tiled (row axis 0 (alone parts)) c

theorem length_joined (axis : Nat) (first : NDArray) (others : List NDArray) :
    (joined axis first others).dims.length = max (rankOf (first :: others)) (axis + 1) :=
  length_joinedDims (length_le_rankOf List.mem_cons_self)

section

variable (hp : ∀ part ∈ first :: others, Sound part) (h : Agree axis (first :: others))
  (hfits : ((first :: others).map NDArray.size).sum ≤ maxCount)

include hp h hfits

theorem joined_wellFormed : (joined axis first others).WellFormed := by
  have hfirst := hp first List.mem_cons_self
  have hw : ∀ part ∈ first :: others, part.WellFormed := fun part hmem => (hp part hmem).wellFormed
  exact join_wellFormed hfirst.wellFormed (fun part hmem => hw part (List.mem_cons_of_mem _ hmem))
    hfirst.nonempty (join_of_counted h (count?_joined hw hfirst.nonempty h hfits))

theorem size_joined : (joined axis first others).size = ((first :: others).map NDArray.size).sum := by
  rw [(joined_wellFormed hp h hfits).size_eq_prod, prod_joined (fun part hmem => (hp part hmem).wellFormed)
    (hp first List.mem_cons_self).nonempty h]

theorem joined_sound : Sound (joined axis first others) := by
  have hfirst := hp first List.mem_cons_self
  have hw : ∀ part ∈ first :: others, part.WellFormed := fun part hmem => (hp part hmem).wellFormed
  refine ⟨joined_wellFormed hp h hfits, ?_,
    join_faithful (join_of_counted h (count?_joined hw hfirst.nonempty h hfits))⟩
  have hpos := hfirst.nonempty
  rw [size_joined hp h hfits, List.map_cons, List.sum_cons]
  omega

theorem joins_of_sound : Joins axis (first :: others) (joined axis first others) :=
  joins_joined (fun part hmem => (hp part hmem).wellFormed) (hp first List.mem_cons_self).nonempty h
    (joined_wellFormed hp h hfits)

/-- The buffers are as long as the shape asks for. -/
theorem trim_joined : (joined axis first others).trim = joined axis first others := by
  have hw : ∀ part ∈ first :: others, part.WellFormed := fun part hmem => (hp part hmem).wellFormed
  have h0 := (hp first List.mem_cons_self).nonempty
  apply NDArray.trim_of_capacity (joined_wellFormed hp h hfits)
  have hcapacity : (joined axis first others).capacity = first.size / pageSize axis first.dims *
      ((first :: others).map fun part => pageSize axis part.dims).sum := size_interleave _
  rw [hcapacity, size_joined hp h hfits, ← List.sum_map_mul_left]
  exact congrArg List.sum (List.map_congr_left fun part hmem => (size_eq_pages_mul hw h0 h hmem).symm)

theorem combines_joined : Combines axis (first :: others) (joined axis first others) where
  sound := joined_sound hp h hfits
  rank_eq := by rw [length_joined, Nat.max_assoc, Nat.max_self]
  extent_axis := (joins_of_sound hp h hfits).extent_axis
  extent_of_ne := (joins_of_sound hp h hfits).extent_of_ne
  kind_eq := rfl
  isComplex_eq := by
    change Option.isSome (if _ then _ else _) = _
    split
    · rename_i hc
      exact hc.symm
    · rename_i hc
      exact (Bool.not_eq_true _ ▸ hc).symm
  size_eq := size_joined hp h hfits
  tiled := by
    have hjoins : Joins axis ((alone (first :: others)).map Prod.fst) (joined axis first others) := by
      rw [map_fst_alone]
      exact joins_of_sound hp h hfits
    refine hjoins.tiled ?_ ?_
    · intro x hx
      obtain ⟨part, hmem, rfl⟩ := List.mem_map.mp hx
      exact (hp part hmem).faithful
    · intro x hx
      obtain ⟨part, -, rfl⟩ := List.mem_map.mp hx
      exact tiled_still part

end

theorem join_eq_ok_iff (hp : ∀ part ∈ first :: others, Sound part) : join axis first others = .ok x ↔
    Agree axis (first :: others) ∧ ((first :: others).map NDArray.size).sum ≤ maxCount ∧
      x = joined axis first others := by
  have hw : ∀ part ∈ first :: others, part.WellFormed := fun part hmem => (hp part hmem).wellFormed
  have h0 := (hp first List.mem_cons_self).nonempty
  by_cases hagree : Agree axis (first :: others)
  · by_cases hfits : ((first :: others).map NDArray.size).sum ≤ maxCount
    · rw [join_of_counted hagree (count?_joined hw h0 hagree hfits), Except.ok.injEq,
        and_iff_right hagree, and_iff_right hfits, eq_comm]
    · have hnone : (joined axis first others).dims.count? = none := by
        rw [Shape.count?_eq_none_iff (prod_joined_pos hw h0), prod_joined hw h0 hagree]
        omega
      rw [join_of_agree hagree, hnone]
      simp only [hfits, false_and, and_false, iff_false]
      exact nofun
  · obtain ⟨part, -, -, herror⟩ := join_of_disagree hagree
    simp [herror, hagree]

theorem combines_single (ha : Sound a) : Combines axis [a] a where
  sound := ha
  rank_eq := by simp [rankOf]
  extent_axis := by simp
  extent_of_ne := by simp
  kind_eq := by simp only [kindOf, List.foldl_cons, List.foldl_nil, Storage.logical_promote]
  isComplex_eq := by simp
  size_eq := by simp
  tiled := by
    have hrow : row axis 0 (alone [a]) = [.still a] := by
      simp [alone, row, Tile.move_zero]
    rw [hrow]
    exact tiled_still a

theorem combines_combined (hne : parts ≠ []) (hp : ∀ part ∈ parts, Sound part) (h : Agree axis parts)
    (hfits : (parts.map NDArray.size).sum ≤ maxCount) : Combines axis parts (combined axis parts) := by
  match parts with
  | [a] => exact combines_single (hp a List.mem_cons_self)
  | first :: second :: rest => exact combines_joined hp h hfits

/-- The parts and their order along the axis determine all but the ones at the end of the shape. -/
theorem Combines.trim_eq (ha : Combines axis parts a) (hb : Combines axis parts b) (hne : parts ≠ [])
    (hla : axis < a.dims.length) (hlb : axis < b.dims.length) : a.trim = b.trim := by
  have hdims : a.dims = b.dims := by
    apply Shape.ext_extent
    · have hra := ha.rank_eq
      have hrb := hb.rank_eq
      omega
    · intro i
      by_cases hi : i = axis
      · rw [hi, ha.extent_axis, hb.extent_axis]
      · obtain ⟨part, hmem⟩ := List.exists_mem_of_ne_nil parts hne
        rw [ha.extent_of_ne part hmem i hi, hb.extent_of_ne part hmem i hi]
  exact ha.tiled.trim_eq hb.tiled (List.Subset.refl _) ha.sound.wellFormed hb.sound.wellFormed hdims
    (ha.kind_eq.trans hb.kind_eq.symm) (ha.isComplex_eq.trans hb.isComplex_eq.symm)

/-! ### Two arrays that were joined before -/

/-- Pieces of two rows of parts, one behind the other along an axis. -/
theorem tiled_pair (hp : ∀ part ∈ [x, y], Sound part) (h : Agree k [x, y])
    (hfits : ([x, y].map NDArray.size).sum ≤ maxCount) {tiles tiles' : List Tile} (hx : Tiled tiles x)
    (hy : Tiled tiles' y) :
    Tiled (tiles ++ tiles'.map (Tile.move k (x.dims.extent k))) (joined k x [y]) := by
  have hjoins : Joins k ([(x, tiles), (y, tiles')].map Prod.fst) (joined k x [y]) :=
    joins_of_sound hp h hfits
  have hzero : Tile.move k 0 = id := funext fun t => Tile.move_zero k t
  have htiled := hjoins.tiled
    (by simpa using ⟨(hp x (by simp)).faithful, (hp y (by simp)).faithful⟩) (by simpa using ⟨hx, hy⟩)
  simpa [row, hzero] using htiled

section

variable (hx : Combines axis xs x) (hy : Combines axis ys y)

include hx hy

theorem agree_append_iff (hnx : xs ≠ []) (hny : ys ≠ []) :
    Agree axis (xs ++ ys) ↔ Agree axis [x, y] := by
  obtain ⟨u, hu⟩ := List.exists_mem_of_ne_nil xs hnx
  obtain ⟨v, hv⟩ := List.exists_mem_of_ne_nil ys hny
  constructor
  · intro h
    have hoff : ∀ z ∈ [x, y], ∀ i, i ≠ axis → z.dims.extent i = u.dims.extent i := by
      intro z hz i hi
      rcases List.mem_pair.mp hz with rfl | rfl
      · exact hx.extent_of_ne u hu i hi
      · rw [hy.extent_of_ne v hv i hi]
        exact h v (List.mem_append_right _ hv) u (List.mem_append_left _ hu) i hi
    intro z hz w hw i hi
    rw [hoff z hz i hi, hoff w hw i hi]
  · intro h
    have hoff : ∀ z ∈ xs ++ ys, ∀ i, i ≠ axis → z.dims.extent i = x.dims.extent i := by
      intro z hz i hi
      rcases List.mem_append.mp hz with hz | hz
      · exact (hx.extent_of_ne z hz i hi).symm
      · rw [← hy.extent_of_ne z hz i hi]
        exact h y (by simp) x (by simp) i hi
    intro z hz w hw i hi
    rw [hoff z hz i hi, hoff w hw i hi]

theorem sum_size_append :
    ((xs ++ ys).map NDArray.size).sum = ([x, y].map NDArray.size).sum := by
  simp only [List.map_append, List.sum_append, List.map_cons, List.map_nil, List.sum_cons, List.sum_nil,
    hx.size_eq, hy.size_eq, Nat.add_zero]

/-- Two joined arrays consist of all the parts of the one and then all those of the other. -/
theorem combines_append (hnx : xs ≠ []) (hny : ys ≠ []) (h : Agree axis (xs ++ ys))
    (hfits : ((xs ++ ys).map NDArray.size).sum ≤ maxCount) :
    Combines axis (xs ++ ys) (joined axis x [y]) := by
  have hpair := (agree_append_iff hx hy hnx hny).mp h
  have hp : ∀ part ∈ [x, y], Sound part := by simpa using ⟨hx.sound, hy.sound⟩
  rw [sum_size_append hx hy] at hfits
  have hz := combines_joined hp hpair hfits
  constructor
  case sound => exact hz.sound
  case rank_eq =>
    have hrx := hx.rank_eq
    have hry := hy.rank_eq
    rw [hz.rank_eq, rankOf_pair, rankOf_append]
    omega
  case extent_axis =>
    rw [hz.extent_axis]
    simp [hx.extent_axis, hy.extent_axis]
  case extent_of_ne =>
    intro part hmem i hi
    rcases List.mem_append.mp hmem with hmem | hmem
    · rw [hz.extent_of_ne x (by simp) i hi, hx.extent_of_ne part hmem i hi]
    · rw [hz.extent_of_ne y (by simp) i hi, hy.extent_of_ne part hmem i hi]
  case kind_eq => rw [hz.kind_eq, kindOf_pair, kindOf_append, hx.kind_eq, hy.kind_eq]
  case isComplex_eq =>
    rw [hz.isComplex_eq, List.any_append, ← hx.isComplex_eq, ← hy.isComplex_eq]
    simp
  case size_eq => rw [hz.size_eq, sum_size_append hx hy]
  case tiled =>
    have htiled := tiled_pair hp hpair hfits hx.tiled hy.tiled
    have hsum : ((alone xs).map fun z => z.1.dims.extent axis).sum = x.dims.extent axis := by
      rw [hx.extent_axis, alone, List.map_map]
      rfl
    rw [alone, List.map_append, ← alone, ← alone, row_append, hsum, ← map_move_row]
    exact htiled

/-- It makes no difference whether parts are joined in two groups first. -/
theorem joined_combined (hnx : xs ≠ []) (hny : ys ≠ []) (hp : ∀ part ∈ xs ++ ys, Sound part)
    (h : Agree axis (xs ++ ys)) (hfits : ((xs ++ ys).map NDArray.size).sum ≤ maxCount) :
    joined axis x [y] = combined axis (xs ++ ys) := by
  obtain ⟨first, second, rest, heq⟩ : ∃ first second rest, xs ++ ys = first :: second :: rest := by
    match xs, ys, hnx, hny with
    | [u], v :: ys, _, _ => exact ⟨u, v, ys, rfl⟩
    | u :: v :: xs, ys, _, _ => exact ⟨u, v, xs ++ ys, rfl⟩
  have hpair := (agree_append_iff hx hy hnx hny).mp h
  have hpp : ∀ part ∈ [x, y], Sound part := by simpa using ⟨hx.sound, hy.sound⟩
  have hfits' := hfits
  rw [sum_size_append hx hy] at hfits'
  have hleft := combines_append hx hy hnx hny h hfits
  rw [heq] at hp h hfits hleft ⊢
  show _ = joined axis first (second :: rest)
  rw [← trim_joined hpp hpair hfits', ← trim_joined hp h hfits]
  refine hleft.trim_eq (combines_joined hp h hfits) (List.cons_ne_nil _ _) ?_ ?_
  · rw [length_joined]
    omega
  · rw [length_joined]
    omega

end

end Concat

/-! ### Values -/

namespace Value

open Concat

variable {axis inner outer : Nat} {values xs ys : List Value} {c x y : NDArray}

/-- Joins each group along one axis, and then the results along another one. The first fault is that of the
    whole. -/
def concatGroups (inner outer : Nat) (groups : List (List Value)) : Except Fault NDArray := do
  let parts ← groups.mapM (concat inner)
  concat outer (parts.map array)

theorem concatGroups_pair_eq_ok_iff : concatGroups inner outer [xs, ys] = .ok c ↔
    ∃ x y, concat inner xs = .ok x ∧ concat inner ys = .ok y ∧
      concat outer [.array x, .array y] = .ok c := by
  unfold concatGroups
  cases hx : concat inner xs with
  | error e => simp [hx, bind, Except.bind]
  | ok x =>
    cases hy : concat inner ys with
    | error e => simp [hx, hy, bind, Except.bind]
    | ok y => simp [hx, hy, bind, Except.bind, pure, Except.pure]

theorem nonempty_append (xs ys : List Value) : nonempty (xs ++ ys) = nonempty xs ++ nonempty ys := by
  rw [nonempty, List.filter_append, List.map_append]
  rfl

/-- Without elements anywhere the first value is the result. -/
theorem concat_of_nonempty_nil {v : Value} (h : nonempty (v :: values) = []) :
    concat axis (v :: values) = .ok v.toArray := by
  unfold concat
  rw [show ((v :: values).filter (!·.isEmpty)).map toArray = [] from h]

theorem exists_concat_of_nonempty_nil (axis : Nat) (h : nonempty values = []) :
    ∃ x, concat axis values = .ok x ∧ x.size = 0 := by
  cases values with
  | nil => exact ⟨.empty, rfl, rfl⟩
  | cons v values =>
    refine ⟨_, concat_of_nonempty_nil h, ?_⟩
    by_contra hv
    have hmem : v.toArray ∈ nonempty (v :: values) := by
      refine List.mem_map_of_mem (List.mem_filter.mpr ⟨List.mem_cons_self, ?_⟩)
      rw [size_toArray] at hv
      simpa [isEmpty] using hv
    rw [h] at hmem
    cases hmem

theorem size_of_nonempty_nil (h : nonempty values = []) (hx : concat axis values = .ok x) : x.size = 0 := by
  obtain ⟨y, hy, hy0⟩ := exists_concat_of_nonempty_nil axis h
  obtain rfl : x = y := Except.ok.inj (hx.symm.trans hy)
  exact hy0

theorem nonempty_pair {v w : Value} (hv : v.toArray.size ≠ 0) (hw : w.toArray.size ≠ 0) :
    nonempty [v, w] = [v.toArray, w.toArray] := by
  rw [size_toArray] at hv hw
  simp [nonempty, isEmpty, hv, hw]

/-- Only the values that are not empty matter if there are some. -/
theorem concat_congr (h : nonempty xs = nonempty ys) (hne : nonempty ys ≠ []) :
    concat axis xs = concat axis ys := by
  have hxs : (xs.filter (!·.isEmpty)).map toArray = nonempty xs := rfl
  have hys : (ys.filter (!·.isEmpty)).map toArray = nonempty ys := rfl
  unfold concat
  rw [hxs, hys, h]
  match nonempty ys, hne with
  | [a], _ => rfl
  | first :: second :: rest, _ => rfl

theorem sound_of_mem_nonempty (hv : ∀ v ∈ values, v.WellFormed ∧ v.Faithful) :
    ∀ part ∈ nonempty values, Sound part := by
  intro part hmem
  obtain ⟨hw, h0⟩ := parts_wellFormed (fun v h => (hv v h).1) part hmem
  exact ⟨hw, h0, nonempty_faithful (fun v h => (hv v h).2) part hmem⟩

/-- Joining succeeds if the shapes agree off the axis and the elements of all values can be counted. -/
theorem concat_eq_ok_iff (hv : ∀ v ∈ values, v.WellFormed ∧ v.Faithful) (hne : nonempty values ≠ []) :
    concat axis values = .ok c ↔ Agree axis (nonempty values) ∧
      ((nonempty values).map NDArray.size).sum ≤ maxCount ∧ c = combined axis (nonempty values) := by
  have hp := sound_of_mem_nonempty hv
  match hparts : nonempty values, hne with
  | [a], _ =>
    have hok : concat axis values = .ok a := by
      unfold concat
      rw [show (values.filter (!·.isEmpty)).map toArray = [a] from hparts]
    have hagree : Agree axis [a] := by
      intro x hx y hy i _
      rw [List.mem_singleton.mp hx, List.mem_singleton.mp hy]
    have hfits : ([a].map NDArray.size).sum ≤ maxCount := by
      rw [List.map_singleton, List.sum_singleton]
      exact Shape.count_le (hp a (by rw [hparts]; exact List.mem_cons_self)).wellFormed.counted
    rw [hok, Except.ok.injEq, and_iff_right hagree, and_iff_right hfits, eq_comm]
    rfl
  | first :: second :: rest, _ =>
    rw [hparts] at hp
    rw [concat_of_nonempty hparts, join_eq_ok_iff hp]
    rfl

/-- Joining succeeds if the shapes agree off the axis and the elements of all values can be counted. -/
theorem exists_concat_iff (hv : ∀ v ∈ values, v.WellFormed ∧ v.Faithful) :
    (∃ c, concat axis values = .ok c) ↔ Agree axis (nonempty values) ∧
      ((nonempty values).map NDArray.size).sum ≤ maxCount := by
  by_cases hne : nonempty values = []
  · obtain ⟨x, hx, -⟩ := exists_concat_of_nonempty_nil axis hne
    have hagree : Agree axis (nonempty values) := by
      rw [hne]
      exact fun a ha => by cases ha
    have hfits : ((nonempty values).map NDArray.size).sum ≤ maxCount := by simp [hne]
    exact iff_of_true ⟨x, hx⟩ ⟨hagree, hfits⟩
  · simp only [concat_eq_ok_iff hv hne, exists_and_left, exists_eq, and_true]

/-- The array that values are joined to, if they are. -/
theorem combines_of_concat (hv : ∀ v ∈ values, v.WellFormed ∧ v.Faithful) (hne : nonempty values ≠ [])
    (h : concat axis values = .ok c) : Combines axis (nonempty values) c := by
  obtain ⟨hagree, hfits, rfl⟩ := (concat_eq_ok_iff hv hne).mp h
  exact combines_combined hne (sound_of_mem_nonempty hv) hagree hfits

section

variable (hv : ∀ v ∈ xs ++ ys, v.WellFormed ∧ v.Faithful)

include hv

theorem concat_results_of_nonempty (hnx : nonempty xs ≠ []) (hny : nonempty ys ≠ [])
    (hx : concat axis xs = .ok x) (hy : concat axis ys = .ok y) :
    concat axis [.array x, .array y] = .ok c ↔ concat axis (xs ++ ys) = .ok c := by
  have hcx := combines_of_concat (fun v h => hv v (List.mem_append_left _ h)) hnx hx
  have hcy := combines_of_concat (fun v h => hv v (List.mem_append_right _ h)) hny hy
  have hpair : nonempty [.array x, .array y] = [x, y] :=
    nonempty_pair (v := .array x) (w := .array y) hcx.sound.nonempty hcy.sound.nonempty
  have hpv : ∀ v ∈ [array x, array y], v.WellFormed ∧ v.Faithful := by
    simpa using ⟨⟨hcx.sound.wellFormed, hcx.sound.faithful⟩,
      ⟨hcy.sound.wellFormed, hcy.sound.faithful⟩⟩
  have hp := sound_of_mem_nonempty hv
  have hne : nonempty (xs ++ ys) ≠ [] := by
    rw [nonempty_append]
    exact List.append_ne_nil_of_left_ne_nil hnx _
  rw [nonempty_append] at hp
  rw [concat_eq_ok_iff hpv (by simp [hpair]), hpair, ← agree_append_iff hcx hcy hnx hny,
    ← sum_size_append hcx hcy, concat_eq_ok_iff hv hne, nonempty_append]
  refine and_congr_right fun hagree => and_congr_right fun hfits => ?_
  rw [← joined_combined hcx hcy hnx hny hp hagree hfits]
  rfl

/-- Joining the results of two groups. Without elements in one of them the result of the other one stays as
    it is. -/
theorem concat_results (hxs : xs ≠ []) (hx : concat axis xs = .ok x) (hy : concat axis ys = .ok y) :
    concat axis [.array x, .array y] = .ok c ↔ concat axis (xs ++ ys) = .ok c := by
  by_cases hnx : nonempty xs = []
  · have hx0 := size_of_nonempty_nil hnx hx
    rw [concat_of_empty_left hx0]
    by_cases hny : nonempty ys = []
    · obtain ⟨v, vs, rfl⟩ := List.exists_cons_of_ne_nil hxs
      have hflat : nonempty (v :: (vs ++ ys)) = [] := by
        rw [← List.cons_append, nonempty_append, hnx, hny]
        rfl
      rw [if_pos (size_of_nonempty_nil hny hy), ← hx, List.cons_append, concat_of_nonempty_nil hnx,
        concat_of_nonempty_nil hflat]
    · have hflat : nonempty (xs ++ ys) = nonempty ys := by rw [nonempty_append, hnx, List.nil_append]
      have hcy := combines_of_concat (fun v h => hv v (List.mem_append_right _ h)) hny hy
      rw [if_neg hcy.sound.nonempty, ← hy, concat_congr hflat hny]
  · by_cases hny : nonempty ys = []
    · have hflat : nonempty (xs ++ ys) = nonempty xs := by rw [nonempty_append, hny, List.append_nil]
      have hcx := combines_of_concat (fun v h => hv v (List.mem_append_left _ h)) hnx hx
      rw [concat_of_empty_right hcx.sound.nonempty (size_of_nonempty_nil hny hy), ← hx,
        concat_congr hflat hnx]
    · exact concat_results_of_nonempty hv hnx hny hx hy

/-- What can be joined at once can be joined in groups. -/
theorem exists_concat_groups (h : concat axis (xs ++ ys) = .ok c) :
    (∃ x, concat axis xs = .ok x) ∧ ∃ y, concat axis ys = .ok y := by
  obtain ⟨hagree, hfits⟩ := (exists_concat_iff hv).mp ⟨c, h⟩
  rw [nonempty_append] at hagree hfits
  rw [List.map_append, List.sum_append] at hfits
  constructor
  · rw [exists_concat_iff fun v h => hv v (List.mem_append_left _ h)]
    exact ⟨hagree.mono (List.subset_append_left _ _), by omega⟩
  · rw [exists_concat_iff fun v h => hv v (List.mem_append_right _ h)]
    exact ⟨hagree.mono (List.subset_append_right _ _), by omega⟩

end

/-- Joining two groups first and then their results is joining all values at once: both fail, or both make
    the same array. They succeed if the shapes of all values that are not empty agree off the axis and their
    elements can be counted. -/
theorem concat_append (axis : Nat) {xs ys : List Value} (hxs : xs ≠ [])
    (hv : ∀ v ∈ xs ++ ys, v.WellFormed ∧ v.Faithful) :
    (∀ c, concatGroups axis axis [xs, ys] = .ok c ↔ concat axis (xs ++ ys) = .ok c) ∧
    ((∃ c, concat axis (xs ++ ys) = .ok c) ↔ Agree axis (nonempty (xs ++ ys)) ∧
      ((nonempty (xs ++ ys)).map NDArray.size).sum ≤ maxCount) := by
  refine ⟨fun c => ?_, exists_concat_iff hv⟩
  rw [concatGroups_pair_eq_ok_iff]
  constructor
  · rintro ⟨x, y, hx, hy, hc⟩
    exact (concat_results hv hxs hx hy).mp hc
  · intro hc
    obtain ⟨⟨x, hx⟩, y, hy⟩ := exists_concat_groups hv hc
    exact ⟨x, y, hx, hy, (concat_results hv hxs hx hy).mpr hc⟩

theorem rowStack_faithful : ∀ v ∈ rowStack, v.Faithful := by
  intro v hv
  have hrow : NDArray.Faithful ⟨[1, 2], #[1, 2], none, .single⟩ := NDArray.faithful_of_real (by decide)
  simp only [rowStack, List.mem_cons, List.not_mem_nil, or_false] at hv
  rcases hv with rfl | rfl | rfl
  · exact hrow
  · exact NDArray.faithful_of_double rfl
  · exact NDArray.faithful_of_double rfl

/-- The row alone survives its group, and the complex rows come behind it. -/
theorem concat_append_rows : rowStack.take 2 ≠ [] ∧
    (∀ v ∈ rowStack.take 2 ++ rowStack.drop 2, v.WellFormed ∧ v.Faithful) ∧
    ∃ c, concat 2 rowStack = .ok c ∧ concatGroups 2 2 [rowStack.take 2, rowStack.drop 2] = .ok c ∧
      c = ⟨[1, 2, 3], #[1, 2, 3, 4, 5, 6], some #[0, 0, 0, 0, 0, 7], .double⟩ := by
  have hne : rowStack.take 2 ≠ [] := List.cons_ne_nil _ _
  have hv : ∀ v ∈ rowStack.take 2 ++ rowStack.drop 2, v.WellFormed ∧ v.Faithful :=
    fun v hmem => ⟨rowStack_wellFormed v hmem, rowStack_faithful v hmem⟩
  have hflat : concat 2 rowStack =
      .ok ⟨[1, 2, 3], #[1, 2, 3, 4, 5, 6], some #[0, 0, 0, 0, 0, 7], .double⟩ := by decide
  exact ⟨hne, hv, _, hflat, ((concat_append 2 hne hv).1 _).mpr hflat, rfl⟩

end Value
end NumericArrays

import NumericArrays.Proofs.Mat.Entries

/-! Transposing by tiles reaches every place, and it does so once. -/
namespace NumericArrays.Mat

variable {K : Type} {m n : Nat}

/-- Every number below `n` is in a run. -/
theorem exists_run (edge : Nat) (hedge : 0 < edge) (i : Fin n) : ∃ run ∈ runs edge n, i ∈ run := by
  have hrun : i.val / edge < (n + edge - 1) / edge := by
    rw [Nat.div_lt_iff_lt_mul hedge]
    have hlast : n + edge - 1 < ((n + edge - 1) / edge + 1) * edge := by
      rw [mul_comm]
      exact Nat.lt_mul_div_succ _ hedge
    rw [Nat.add_mul, one_mul] at hlast
    omega
  refine ⟨_, List.mem_map.2 ⟨i.val / edge, List.mem_range.2 hrun, rfl⟩, ?_⟩
  simp

theorem mem_tiledPlaces (i : Fin m) (j : Fin n) : (i, j) ∈ tiledPlaces m n := by
  obtain ⟨is, his, hi⟩ := exists_run tileEdge (by decide) i
  obtain ⟨js, hjs, hj⟩ := exists_run tileEdge (by decide) j
  simp only [tiledPlaces, List.mem_flatMap, List.mem_map]
  exact ⟨js, hjs, is, his, j, hj, i, hi, rfl⟩

/-! ### Every place once -/

/-- No number is in two runs. -/
theorem nodup_flatten_runs (edge : Nat) : (runs edge n).flatten.Nodup := by
  rw [List.nodup_flatten]
  constructor
  · intro run hrun
    obtain ⟨b, -, rfl⟩ := List.mem_map.1 hrun
    exact (List.nodup_finRange n).filter _
  · rw [runs, List.pairwise_map]
    refine List.nodup_range.imp fun hne i hi hi' => hne ?_
    have hb := (List.mem_filter.1 hi).2
    have hb' := (List.mem_filter.1 hi').2
    exact (of_decide_eq_true hb).symm.trans (of_decide_eq_true hb')

theorem sum_count_runs {edge : Nat} (hedge : 0 < edge) (i : Fin n) :
    ((runs edge n).map (List.count i)).sum = 1 := by
  rw [← List.count_flatten]
  obtain ⟨run, hrun, hi⟩ := exists_run edge hedge i
  exact List.count_eq_one_of_mem (nodup_flatten_runs edge) (List.mem_flatten.2 ⟨run, hrun, hi⟩)

/-- A tile holds a place as often as its rows hold the one index and its columns the other. -/
theorem count_tile (is : List (Fin m)) (js : List (Fin n)) (i : Fin m) (j : Fin n) :
    (js.flatMap fun j => is.map fun i => (i, j)).count (i, j) = js.count j * is.count i := by
  induction js with
  | nil => simp
  | cons j' js ih =>
    rw [List.flatMap_cons, List.count_append, ih, List.count_cons, Nat.add_mul, Nat.add_comm]
    congr 1
    by_cases hj : j' = j
    · subst hj
      have hcolumn := List.count_map_of_injective is (fun i => (i, j')) (Prod.mk_left_injective j') i
      simpa using hcolumn
    · have hout : (i, j) ∉ is.map fun i => (i, j') := by simp [hj]
      rw [List.count_eq_zero_of_not_mem hout]
      simp [hj]

theorem count_tiledPlaces (i : Fin m) (j : Fin n) : (tiledPlaces m n).count (i, j) = 1 := by
  have htile (js : List (Fin n)) :
      (((runs tileEdge m).flatMap fun is => js.flatMap fun j => is.map fun i => (i, j)).count (i, j)) =
        js.count j := by
    rw [List.count_flatMap]
    simp only [Function.comp_def, count_tile, List.sum_map_mul_left]
    rw [sum_count_runs (by decide), Nat.mul_one]
  rw [tiledPlaces, List.count_flatMap]
  simp only [Function.comp_def, htile]
  exact sum_count_runs (by decide) j

def writes (m n : Nat) : List (Fin n × Fin m) := (tiledPlaces m n).map Prod.swap

theorem count_writes (cell : Fin n × Fin m) : (writes m n).count cell = 1 := by
  rw [writes, ← Prod.swap_swap cell, List.count_map_of_injective _ _ Prod.swap_injective]
  exact count_tiledPlaces cell.2 cell.1

theorem transposeWith_eq_foldl [Zero K] (f : K → K) (a : Mat K m n) : transposeWith f a =
    (writes m n).foldl (fun out (j, i) => out.setEntry j i (f (a.entry i j))) zero := by
  rw [writes, List.foldl_map]
  rfl

/-! ### Entries -/

/-- Writing the places of a list, in whatever order and however often. -/
theorem entry_foldl_setEntry (f : K → K) (a : Mat K m n) (places : List (Fin m × Fin n)) (out : Mat K n m)
    (i : Fin m) (j : Fin n) :
    (places.foldl (fun out (i, j) => out.setEntry j i (f (a.entry i j))) out).entry j i =
      if (i, j) ∈ places then f (a.entry i j) else out.entry j i := by
  induction places generalizing out with
  | nil => simp
  | cons place places ih =>
    rw [List.foldl_cons, ih, entry_setEntry]
    by_cases hlater : (i, j) ∈ places
    · rw [if_pos hlater, if_pos (List.mem_cons_of_mem _ hlater)]
    · by_cases hhere : (i, j) = place
      · subst hhere
        simp
      · have hne : ¬ (j = place.2 ∧ i = place.1) := fun h => hhere (Prod.ext h.2 h.1)
        rw [if_neg hlater, if_neg hne, if_neg (by simp [hhere, hlater])]

theorem entry_transposeWith [Zero K] (f : K → K) (a : Mat K m n) (i : Fin m) (j : Fin n) :
    (transposeWith f a).entry j i = f (a.entry i j) := by
  rw [transposeWith, entry_foldl_setEntry, if_pos (mem_tiledPlaces i j)]

end NumericArrays.Mat

import NumericArrays.Kernel.LU
import NumericArrays.Proofs.Kernel.Triangular

/-! Elimination in memory takes the steps of elimination on matrices, and stays within its buffers. The order of
    the rows is a permutation after every step. -/
namespace NumericArrays.Kernel

def indices {n : Nat} (perm : Vector (Fin n) n) : Array Nat := (perm.map Fin.val).toArray

section Indices

variable {n : Nat} (perm : Vector (Fin n) n)

theorem indices_ofFn_id : indices (.ofFn (id : Fin n → Fin n)) = .range n := by
  apply Array.ext_getElem?
  intro i
  by_cases hi : i < n
  · simp [indices, hi]
  · simp [indices, not_lt.1 hi]

theorem fetch_indices (i : Fin n) : fetch (indices perm) i = .ok (perm.get i).val := by
  rw [indices, fetch_toArray, Mat.get_map]

theorem exchange_indices (i j : Fin n) :
    exchange (indices perm) i j = .ok (indices (perm.swap i j i.isLt j.isLt)) := by
  have hmap : (perm.map Fin.val).swap i j i.isLt j.isLt = (perm.swap i j i.isLt j.isLt).map Fin.val := by
    apply Vector.ext
    intro k hk
    change ((perm.map Fin.val).swap i j i.isLt j.isLt).get ⟨k, hk⟩ =
      ((perm.swap i j i.isLt j.isLt).map Fin.val).get ⟨k, hk⟩
    rw [Mat.get_swap, Mat.get_map, Mat.get_map, Mat.get_swap]
  rw [indices, exchange_toArray, hmap, indices]

/-- Indices that are all different are those below `n` in some order. -/
theorem indices_perm (h : Function.Bijective perm.get) : (indices perm).toList.Perm (List.range n) := by
  have hlist : (indices perm).toList = ((List.finRange n).map (Equiv.ofBijective perm.get h)).map Fin.val := by
    apply List.ext_getElem
    · simp [indices]
    · intro i hi _
      simp [indices]
      rfl
  rw [hlist, ← List.map_coe_finRange_eq_range]
  exact (Equiv.Perm.map_finRange_perm (Equiv.ofBijective perm.get h)).map Fin.val

end Indices

namespace Elimination

open Buffer (ofMat)
open InPlace (Stop ok_bind ok_map)
open Mat (after fromRow mem_after)
open MatrixScalar (modulus)

variable {K R : Type} [Arith K] [Arith R] [LT R] [DecidableLT R] [RealScalar R] [MatrixScalar K R]
variable {m n : Nat}

def ofLU (f : LU K n) : Elimination K := ⟨ofMat f.packed, indices f.perm⟩

/-! ### One column -/

section Column

variable (h : n * n ≤ maxCount) (a : Mat K n n) (c : Fin n)

include h

omit [Arith K] [Arith R] [RealScalar R] in
theorem pivot_ofMat : pivot (ofMat a) c = .ok ((LU.pivot a c).1.val, (LU.pivot a c).2) := by
  let enc (best : Fin n × R) : Nat × R := (best.1.val, best.2)
  rw [pivot, Buffer.read_ofMat h, ok_bind, Buffer.nrows_ofMat, between_succ]
  refine foldlM_eq_foldl enc (fun best i =>
    let size := modulus (a.entry i c)
    if best.2 < size then (i, size) else best) (fun best i _ => ?_) (c, modulus (a.entry c c))
  rw [Buffer.read_ofMat h, ok_bind]
  simp only [enc]
  split <;> rfl

omit [Arith R] [LT R] [DecidableLT R] [RealScalar R] [MatrixScalar K R] h in
/-- The column is scaled, and its multiples are taken off those after it. -/
theorem clearColumn_eq :
    (after c).foldl
      (fun b j => b.changeColumn j fun x => fromRow (c + 1) (fun i y => y - x.get c * (b.columns.get c).get i) x)
      (a.changeColumn c (fromRow (c + 1) fun _ x => x * (1 / a.entry c c))) = LU.clearColumn a c := by
  apply Mat.ext_entry
  intro i j
  rw [LU.entry_clear, Mat.entry,
    Mat.columns_get_foldl_after fun v x => fromRow (c + 1) (fun i y => y - x.get c * v.get i) x]
  simp only [Mat.columns_get_changeColumn, if_true]
  rcases lt_trichotomy j c with hj | rfl | hj
  · rw [if_neg (lt_asymm hj), if_neg (ne_of_lt hj), if_pos (Or.inr hj)]
    rfl
  · rw [if_neg (lt_irrefl j), if_pos rfl, Mat.get_fromRow]
    by_cases hi : i ≤ j
    · rw [if_neg (by omega), if_pos (Or.inl hi)]
      rfl
    · rw [if_pos (by omega), if_neg (by omega), if_pos rfl]
      rfl
  · rw [if_pos hj, if_neg (ne_of_gt hj), Mat.get_fromRow, Mat.get_fromRow]
    by_cases hi : i ≤ c
    · rw [if_neg (by omega), if_pos (Or.inl hi)]
      rfl
    · rw [if_pos (by omega), if_pos (by omega), if_neg (by omega), if_neg (ne_of_gt hj)]
      rfl

omit [Arith R] [LT R] [DecidableLT R] [RealScalar R] [MatrixScalar K R] in
theorem reduceLater_ofMat {j : Fin n} (hj : c < j) : reduceLater c (ofMat a) j =
    .ok (ofMat (a.changeColumn j fun x => fromRow (c + 1) (fun i y => y - x.get c * (a.columns.get c).get i) x)) := by
  rw [reduceLater, Buffer.read_ofMat h, ok_bind, Buffer.alterBeside_ofMat h a hj c.isLt]
  rfl

omit [Arith R] [LT R] [DecidableLT R] [RealScalar R] [MatrixScalar K R] in
theorem clearColumn_ofMat : clearColumn (ofMat a) c = .ok (ofMat (LU.clearColumn a c)) := by
  rw [clearColumn, Buffer.read_ofMat h, ok_bind]
  change (do
    let b ← (ofMat a).alterColumn c (c + 1) fun _ x => x * (1 / a.entry c c)
    (between (c + 1) b.nrows).foldlM (reduceLater c) b) = _
  rw [Buffer.alterColumn_ofMat h a c c.isLt, ok_bind, Buffer.nrows_ofMat, between_succ,
    foldlM_eq_foldl ofMat _ fun b j hj => reduceLater_ofMat h b c (mem_after.1 hj), clearColumn_eq]

end Column

/-! ### Rows in another order -/

omit [Arith K] in
theorem start_ofMat (a : Mat K n n) : start (ofMat a) = ofLU ⟨a, .ofFn id⟩ := by
  rw [start, Buffer.nrows_ofMat, ofLU, indices_ofFn_id]

omit [Arith K] in
theorem bring_ofLU (h : n * n ≤ maxCount) (f : LU K n) (c i : Fin n) :
    (ofLU f).bring c i = .ok (ofLU ⟨f.packed.swapRows c i, f.perm.swap c i c.isLt i.isLt⟩) := by
  rw [bring]
  split
  · rename_i hic
    obtain rfl := Fin.ext hic
    rw [Mat.swapRows_self, Mat.swap_self]
  · change (do
      let perm ← exchange (indices f.perm) c i
      let packed ← (ofMat f.packed).swapRows c i
      return (⟨packed, perm⟩ : Elimination K)) = _
    rw [exchange_indices, ok_bind, Buffer.swapRows_ofMat h, ok_bind]
    rfl

/-! ### Any number of columns -/

def answer (f : Option (LU K n)) : Except Stop (Elimination K) :=
  match f with
  | some f => .ok (ofLU f)
  | none => .error (.fault .singularMatrix)

omit [RealScalar R] in
theorem step_ofLU (h : n * n ≤ maxCount) (f : LU K n) (c : Fin n) : (ofLU f).step c = answer (f.step c) := by
  rw [step, LU.step]
  change (do
    let found ← pivot (ofMat f.packed) c
    if found.2 == 0 then throw (Stop.fault .singularMatrix)
    else
      let s ← (ofLU f).bring c found.1
      let packed ← clearColumn s.packed c
      return { s with packed }) = _
  rw [pivot_ofMat h, ok_bind]
  dsimp only
  split
  · rfl
  · rw [bring_ofLU h, ok_bind]
    change (do
      let packed ← clearColumn (ofMat (f.packed.swapRows c (LU.pivot f.packed c).1)) c
      return _) = _
    rw [clearColumn_ofMat h, ok_bind]
    rfl

omit [RealScalar R] in
theorem upTo_ofMat (h : n * n ≤ maxCount) (a : Mat K n n) (k : Nat) (hk : k ≤ n) :
    upTo (ofMat a) k = answer (LU.factorUpTo a k hk) := by
  induction k with
  | zero => exact congrArg Except.ok (start_ofMat a)
  | succ k ih =>
    have hbefore := ih (Nat.le_of_succ_le hk)
    rw [upTo] at hbefore ⊢
    rw [List.range_succ, List.foldlM_append, hbefore, LU.factorUpTo]
    cases LU.factorUpTo a k (Nat.le_of_succ_le hk) with
    | none => rfl
    | some f =>
      change (List.foldlM step (ofLU f) [k]) = answer (f.step ⟨k, hk⟩)
      rw [List.foldlM_cons, step_ofLU h f ⟨k, hk⟩]
      exact bind_pure _

/-! ### The order of the rows -/

/-- The rows are those of the matrix in some order. The row that is looked for next is one of those left, and
    when it is brought to the diagonal the rows are still in some order. -/
structure Orderly (n k : Nat) (s : Elimination K) : Prop where
  perm : s.perm.toList.Perm (List.range n)
  next : k < n → ∃ i size t, pivot s.packed k = .ok (i, size) ∧ k ≤ i ∧ i < n ∧ s.bring k i = .ok t ∧
    t.perm.toList.Perm (List.range n)

omit [RealScalar R] in
theorem bijective_perm (a : Mat K n n) {k : Nat} (hk : k ≤ n) {f : LU K n} (h : LU.factorUpTo a k hk = some f) :
    Function.Bijective f.perm.get := by
  induction k generalizing f with
  | zero =>
    cases h
    exact Mat.bijective_get_ofFn_id
  | succ k ih =>
    obtain ⟨g, hg, hstep⟩ := Option.bind_eq_some_iff.1 h
    obtain ⟨i, -, -, -, rfl⟩ := LU.step_spec hstep
    exact Mat.bijective_get_swap (ih (Nat.le_of_succ_le hk) hg) _ i

omit [Arith K] [Arith R] [RealScalar R] in
theorem orderly_ofLU (h : n * n ≤ maxCount) {f : LU K n} (hf : Function.Bijective f.perm.get) (k : Nat) :
    (ofLU f).Orderly n k where
  perm := indices_perm f.perm hf
  next hk := by
    let c : Fin n := ⟨k, hk⟩
    let i : Fin n := (LU.pivot f.packed c).1
    have hpivot : pivot (ofMat f.packed) k = .ok (i.val, (LU.pivot f.packed c).2) := pivot_ofMat h f.packed c
    exact ⟨i, _, _, hpivot, (LU.pivot_place f.packed c).1, i.isLt, bring_ofLU h f c i,
      indices_perm _ (Mat.bijective_get_swap hf c i)⟩

omit [RealScalar R] in
/-- After any number of steps the rows are in some order, unless a column had no pivot. -/
theorem upTo_orderly (h : n * n ≤ maxCount) (a : Mat K n n) {k : Nat} (hk : k ≤ n) :
    (∃ s, upTo (ofMat a) k = .ok s ∧ s.Orderly n k) ∨ upTo (ofMat a) k = .error (.fault .singularMatrix) := by
  rw [upTo_ofMat h a k hk]
  cases hf : LU.factorUpTo a k hk with
  | none => exact .inr rfl
  | some f => exact .inl ⟨ofLU f, rfl, orderly_ofLU h (bijective_perm a hk hf) k⟩

/-! ### What the factors are used for -/

omit [Arith K] [RealScalar R] in
theorem pivotRatio_ofMat (h : n * n ≤ maxCount) (f : LU K n) : pivotRatio (ofMat f.packed) = .ok f.pivotRatio := by
  have hsizes : (List.range n).mapM (fun i => modulus <$> (ofMat f.packed).read i i) = .ok f.pivotSizes := by
    rw [← List.map_coe_finRange_eq_range, List.mapM_map, mapM_eq_map fun i _ => ?_]
    · rfl
    · rw [Function.comp_apply, Buffer.read_ofMat h, ok_map]
  rw [pivotRatio, Buffer.nrows_ofMat, hsizes]
  rfl

variable {k : Nat}

/-- Forward substitution does not depend on what the vector held before. -/
theorem forward_ofLU (h : n * n ≤ maxCount) (hb : n * k ≤ maxCount) (f : LU K n) (b : Mat K n k) (j : Fin k)
    (y : Vector K n) : (ofLU f).forward (ofMat b) j y.toArray =
      .ok (Mat.forward f.packed.entry (fun _ x => x) fun i => b.entry (f.perm.get i) j).toArray := by
  rw [← Mat.foldl_unknown _ _ _ y, forward]
  change (List.range n).foldlM _ y.toArray = _
  rw [← List.map_coe_finRange_eq_range, foldlM_eq_foldl Vector.toArray]
  intro y i _
  change (do
    let row ← fetch (indices f.perm) i
    let start ← (ofMat b).read row j
    let rest ← takeOff ((ofMat f.packed).read i) (fetch y.toArray) (List.range i) start
    put y.toArray i rest) = _
  rw [fetch_indices, ok_bind, Buffer.read_ofMat hb, ok_bind, Mat.range_eq_before,
    takeOff_eq (fun j _ => Buffer.read_ofMat h f.packed i j) (fun j _ => fetch_toArray y j), ok_bind, put_toArray]
  rfl

theorem solve_ofLU (h : n * n ≤ maxCount) (hb : n * k ≤ maxCount) (f : LU K n) (b : Mat K n k) :
    (ofLU f).solve (ofMat b) = .ok (ofMat (b.mapColumns f.solveColumn)) := by
  let enc (s : Mat K n k × Vector K n) : Buffer K × Array K := (ofMat s.1, s.2.toArray)
  let middle (j : Fin k) : Vector K n :=
    Mat.forward f.packed.entry (fun _ x => x) fun i => b.entry (f.perm.get i) j
  let solution (j : Fin k) : Vector K n := Mat.backward f.packed.entry (middle j).get
  let start : Mat K n k × Vector K n := (Mat.zero, .replicate n 0)
  have hcolumn (s : Mat K n k × Vector K n) (j : Fin k) : (ofLU f).solveColumn (ofMat b) (enc s) j =
      .ok (enc (s.1.changeColumn j (Mat.overlay (solution j)), middle j)) := by
    have hback := backward_ofMat h hb f.packed le_rfl le_rfl le_rfl (fetch_toArray (middle j)) s.1 j
    rw [solveColumn, forward_ofLU h hb, ok_bind]
    change (do
      let x ← backward (ofMat f.packed) n (fetch (middle j).toArray) j (ofMat s.1)
      return (x, (middle j).toArray)) = _
    rw [hback]
    rfl
  have hloop : (List.range k).foldlM ((ofLU f).solveColumn (ofMat b)) (enc start) =
      .ok (enc ((List.finRange k).foldl
        (fun s j => (s.1.changeColumn j (Mat.overlay (solution j)), middle j)) start)) := by
    rw [← List.map_coe_finRange_eq_range, foldlM_eq_foldl enc _ fun s j _ => hcolumn s j]
  rw [solve]
  change (do
    let x ← Buffer.zeros n k
    let t ← (List.range k).foldlM ((ofLU f).solveColumn (ofMat b)) (x, .replicate n 0)
    return t.1) = _
  rw [Buffer.zeros_eq hb, ok_bind]
  change (do
    let t ← (List.range k).foldlM ((ofLU f).solveColumn (ofMat b)) (enc start)
    return t.1) = _
  rw [hloop, ok_bind]
  change Except.ok (ofMat (Prod.fst _)) = _
  rw [Loop.fst_foldl (fun (x : Mat K n k) j => x.changeColumn j (Mat.overlay (solution j))) middle]
  refine congrArg (fun b => Except.ok (ofMat b)) (Mat.ext_columns fun j => ?_)
  rw [Mat.columns_get_foldl_finRange fun j => Mat.overlay (solution j), Mat.overlay_self,
    Mat.columns_get_mapColumns]
  rfl

end Elimination
end NumericArrays.Kernel

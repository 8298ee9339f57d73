import NumericArrays.Kernel.QR
import NumericArrays.Proofs.Kernel.LU

/-! Reflections in memory take the steps of reflections on matrices, and stay within their buffers. The order of
    the columns is a permutation after every step. -/
namespace NumericArrays.Kernel

open Buffer (ofMat)
open InPlace (Stop ok_bind ok_map)
open Mat (after fromRow mem_after)
open MatrixScalar (conj modulus normSq)

variable {K R : Type} [Arith K] [Arith R] [LT R] [DecidableLT R] [RealScalar R] [MatrixScalar K R]
variable {m n p steps : Nat}

omit [Arith R] [LT R] [DecidableLT R] [RealScalar R] in
/-- The product of the rests of two vectors. -/
theorem dot_extract (v x : Vector K m) {row : Nat} {l : List (Fin m)} (h : between row m = l.map Fin.val) :
    dot (v.toArray.extract row m) (x.toArray.extract row m) =
      l.foldl (fun sum i => sum + conj (v.get i) * x.get i) 0 := by
  rw [dot, ← Array.foldl_toList, Array.toList_zip, toList_extract v h, toList_extract x h, List.zip_map',
    List.foldl_map]

omit [Arith R] [LT R] [DecidableLT R] [RealScalar R] in
/-- The leading entry of a column is changed by itself, and then those below it. -/
theorem changeColumn_reflect (a : Mat K m n) (c : Fin m) (v : Vector K m) (t : K) (j : Fin n) {component : K}
    (h : component =
      ((after c).foldl (fun sum i => sum + conj (v.get i) * a.entry i j) 0 + a.entry c j) * t) :
    (a.setEntry c j (a.entry c j - component)).changeColumn j
        (fromRow (c + 1) fun i x => x - component * v.get i) =
      a.changeColumn j (PivotedQR.reflect c v t) := by
  apply Mat.ext_entry
  intro i l
  rw [Mat.entry_changeColumn, Mat.entry_changeColumn]
  by_cases hl : l = j
  · subst hl
    have hentry : ((a.setEntry c l (a.entry c l - component)).columns.get l).get i =
        if i = c then a.entry c l - component else a.entry i l := by
      change (a.setEntry c l _).entry i l = _
      rw [Mat.entry_setEntry]
      simp
    rw [if_pos rfl, if_pos rfl, Mat.get_fromRow, hentry, PivotedQR.reflect, Mat.get_ofFn, h]
    rcases lt_trichotomy i c with hi | rfl | hi
    · rw [if_neg (by omega), if_neg (ne_of_lt hi), if_pos hi]
      rfl
    · rw [if_neg (by omega), if_pos rfl, if_neg (lt_irrefl i), if_pos rfl]
      rfl
    · rw [if_pos (by omega), if_neg (ne_of_gt hi), if_neg (lt_asymm hi), if_neg (ne_of_gt hi)]
      rfl
  · rw [if_neg hl, if_neg hl, Mat.entry_setEntry, if_neg fun h => hl h.2]

namespace Reflections

/-- Factors as they lie in memory, with room for those to come. -/
def ofQR (f : PivotedQR K m n steps) : Reflections K :=
  ⟨ofMat f.packed, f.factors.toArray ++ Array.replicate (min m n - steps) 0, indices f.perm⟩

/-! ### One column -/

section Column

variable (h : m * n ≤ maxCount) (a : Mat K m n) {c : Fin m} {d : Fin n} (hcd : d.val = c)

include h hcd

omit [Arith K] [RealScalar R] in
theorem pivot_ofMat : pivot (ofMat a) c = .ok ((PivotedQR.pivot a c d).1.val, (PivotedQR.pivot a c d).2) := by
  let enc (best : Fin n × R) : Nat × R := (best.1.val, best.2)
  have hlength (j : Fin n) : ((a.columns.get j).toArray.extract c m).foldl (fun sum x => sum + normSq x) 0 =
      PivotedQR.lengthSq a c j := by
    rw [← Array.foldl_toList, toList_extract _ (between_self c), List.foldl_map]
    rfl
  rw [pivot, Buffer.ncols_ofMat, ← hcd, between_self]
  change (List.map Fin.val (d :: after d)).foldlM _ (enc (d, -1)) = _
  rw [foldlM_eq_foldl enc (fun best j =>
    let length := PivotedQR.lengthSq a c j
    if best.2 < length then (j, length) else best)]
  · rfl
  · intro best j _
    rw [hcd, Buffer.column_ofMat h a j c.isLt.le, ok_bind, hlength]
    simp only [enc]
    split <;> rfl

omit [LT R] [DecidableLT R] [RealScalar R] [Arith R] in
theorem reflectLater_ofMat {j : Fin n} (hj : d < j) (t : K) : reflectLater t c (ofMat a) j =
    .ok (ofMat (a.changeColumn j (PivotedQR.reflect c (a.columns.get d) t))) := by
  have hrow : c.val + 1 ≤ m := c.isLt
  let component := ((after c).foldl (fun sum i => sum + conj (a.entry i d) * a.entry i j) 0 + a.entry c j) * t
  let b := a.setEntry c j (a.entry c j - component)
  have htwo := Buffer.twoColumns_ofMat h a hj hrow
  have hbeside := Buffer.alterBeside_ofMat h b hj hrow fun x y => x - component * y
  rw [hcd] at htwo hbeside
  rw [reflectLater, htwo, ok_bind]
  dsimp only
  rw [Buffer.read_ofMat h, ok_bind, ok_bind, Buffer.write_ofMat h, ok_bind, dot_extract _ _ (between_succ c)]
  change (ofMat b).alterBeside c j (c + 1) (fun x y => x - component * y) = _
  rw [hbeside, ← changeColumn_reflect a c (a.columns.get d) t j rfl]
  refine congrArg (fun f => Except.ok (ofMat (b.changeColumn j f))) (Mat.fromRow_congr fun i x _ => ?_)
  rw [Mat.entry_setEntry, if_neg fun h => absurd h.2 (ne_of_lt hj)]
  rfl

end Column

/-! ### Steps -/

omit [Arith K] in
/-- The next factor takes the place of a zero. -/
theorem put_next {k : Nat} (h : steps < k) (v : Vector K steps) (t z : K) :
    put (v.toArray ++ Array.replicate (k - steps) z) steps t =
      .ok ((v.push t).toArray ++ Array.replicate (k - (steps + 1)) z) := by
  have hlt : steps < (v.toArray ++ Array.replicate (k - steps) z).size := by
    rw [Array.size_append, Vector.size_toArray, Array.size_replicate]
    omega
  rw [put, if_pos hlt]
  congr 1
  apply Array.ext_getElem?
  intro p
  rw [Array.getElem?_setIfInBounds, Array.getElem?_append, Array.getElem?_append, Vector.size_toArray,
    Vector.size_toArray, Vector.toArray_push, Array.getElem?_push, Vector.size_toArray, Array.getElem?_replicate,
    Array.getElem?_replicate]
  rcases lt_trichotomy p steps with hp | rfl | hp
  · rw [if_neg (ne_of_gt hp), if_pos hp, if_pos (by omega), if_neg (ne_of_lt hp)]
  · rw [if_pos rfl, if_pos hlt, if_pos (by omega), if_pos rfl]
  · rw [if_neg (ne_of_lt hp), if_neg (show ¬ p < steps by omega), if_neg (show ¬ p < steps + 1 by omega)]
    exact if_congr (by omega) rfl rfl

omit [Arith R] [LT R] [DecidableLT R] [RealScalar R] [MatrixScalar K R] in
theorem start_ofMat (a : Mat K m n) : start (ofMat a) = ofQR ⟨a, #v[], .ofFn id⟩ := by
  rw [start, Buffer.nrows_ofMat, Buffer.ncols_ofMat, ofQR, indices_ofFn_id]
  simp

omit [Arith R] [LT R] [DecidableLT R] [RealScalar R] [MatrixScalar K R] in
theorem bring_ofQR (h : m * n ≤ maxCount) (f : PivotedQR K m n steps) (d j : Fin n) :
    (ofQR f).bring d j =
      .ok (ofQR ⟨f.packed.swapColumns d j, f.factors, f.perm.swap d j d.isLt j.isLt⟩) := by
  rw [bring]
  split
  · rename_i hjd
    obtain rfl := Fin.ext hjd
    rw [Mat.swapColumns_self, Mat.swap_self]
  · change (do
      let packed ← (ofMat f.packed).swapColumns d j
      let perm ← exchange (indices f.perm) d j
      return { ofQR f with packed, perm }) = _
    rw [Buffer.swapColumns_ofMat h, ok_bind, exchange_indices, ok_bind]
    rfl

def cleared (f : PivotedQR K m n steps) (hm : steps < m) (hn : steps < n) (length : R) :
    PivotedQR K m n (steps + 1) :=
  let c : Fin m := ⟨steps, hm⟩
  let d : Fin n := ⟨steps, hn⟩
  let (a, t) := PivotedQR.clearColumn f.packed c d (PivotedQR.directed length (f.packed.entry c d))
  ⟨a, f.factors.push t, f.perm⟩

omit [Arith R] [LT R] [DecidableLT R] [RealScalar R] in
/-- A reflection sees of its vector what is below the leading row. -/
theorem reflect_congr {c : Fin m} {v w : Vector K m} (h : ∀ i, c < i → v.get i = w.get i) (t : K)
    (x : Vector K m) : PivotedQR.reflect c v t x = PivotedQR.reflect c w t x := by
  have hdot : (after c).foldl (fun sum i => sum + conj (v.get i) * x.get i) 0 =
      (after c).foldl (fun sum i => sum + conj (w.get i) * x.get i) 0 := by
    apply List.foldl_ext
    intro sum i hi
    rw [h i (mem_after.1 hi)]
  rw [PivotedQR.reflect, PivotedQR.reflect, hdot]
  congr 1
  funext i
  split
  · rfl
  · split
    · rfl
    · rw [h i (by omega)]

omit [Arith R] [LT R] [DecidableLT R] [RealScalar R] in
/-- The column is scaled, those after it are reflected along it, and its leading entry comes last. -/
theorem clearColumn_eq (a : Mat K m n) (c : Fin m) (d : Fin n) (sigma : K) :
    ((after d).foldl
      (fun b j => b.changeColumn j (PivotedQR.reflect c (b.columns.get d) ((a.entry c d + sigma) / sigma)))
      (a.changeColumn d (fromRow (c + 1) fun _ x => x * (1 / (a.entry c d + sigma))))).setEntry c d (-sigma) =
      (PivotedQR.clearColumn a c d sigma).1 := by
  let inverse := 1 / (a.entry c d + sigma)
  let t := (a.entry c d + sigma) / sigma
  let scaled := a.changeColumn d (fromRow (c + 1) fun _ x => x * inverse)
  let v := Vector.ofFn fun i : Fin m => a.entry i d * inverse
  have hself : scaled.columns.get d = fromRow (c + 1) (fun _ x => x * inverse) (a.columns.get d) := by
    rw [Mat.columns_get_changeColumn, if_pos rfl]
  have hother {j : Fin n} (hj : j ≠ d) : scaled.columns.get j = a.columns.get j := by
    rw [Mat.columns_get_changeColumn, if_neg hj]
  have hv : ∀ i, c < i → (scaled.columns.get d).get i = v.get i := by
    intro i hi
    rw [hself, Mat.get_fromRow, if_pos (by omega), Mat.get_ofFn]
    rfl
  apply Mat.ext_entry
  intro i j
  rw [Mat.entry_setEntry, Mat.entry, Mat.columns_get_foldl_after fun v => PivotedQR.reflect c v t]
  change _ = ((Vector.ofFn fun j : Fin n => if j < d then a.columns.get j
    else if j = d then .ofFn fun i => if i < c then a.entry i d else if i = c then -sigma else v.get i
    else PivotedQR.reflect c v t (a.columns.get j)).get j).get i
  rw [Mat.get_ofFn]
  rcases lt_trichotomy j d with hj | rfl | hj
  · rw [if_neg fun h => absurd h.2 (ne_of_lt hj), if_neg (lt_asymm hj), if_pos hj, hother (ne_of_lt hj)]
  · rw [if_neg (lt_irrefl j), if_neg (lt_irrefl j), if_pos rfl, Mat.get_ofFn, hself, Mat.get_fromRow]
    rcases lt_trichotomy i c with hi | rfl | hi
    · rw [if_neg fun h => absurd h.1 (ne_of_lt hi), if_neg (by omega), if_pos hi]
      rfl
    · rw [if_pos ⟨rfl, rfl⟩, if_neg (lt_irrefl i), if_pos rfl]
    · rw [if_neg fun h => absurd h.1 (ne_of_gt hi), if_pos (by omega), if_neg (lt_asymm hi),
        if_neg (ne_of_gt hi), Mat.get_ofFn]
      rfl
  · rw [if_neg fun h => absurd h.2 (ne_of_gt hj), if_pos hj, if_neg (lt_asymm hj), if_neg (ne_of_gt hj),
      hother (ne_of_gt hj), reflect_congr hv]

omit [LT R] [DecidableLT R] [RealScalar R] in
theorem clearColumn_ofQR (h : m * n ≤ maxCount) (f : PivotedQR K m n steps) (hm : steps < m) (hn : steps < n)
    (length : R) : (ofQR f).clearColumn steps length = .ok (ofQR (cleared f hm hn length)) := by
  let c : Fin m := ⟨steps, hm⟩
  let d : Fin n := ⟨steps, hn⟩
  let sigma := PivotedQR.directed length (f.packed.entry c d)
  let lead := f.packed.entry c d + sigma
  let t := lead / sigma
  let inverse := 1 / lead
  let scaled := f.packed.changeColumn d (fromRow (steps + 1) fun _ x => x * inverse)
  let reflected := (after d).foldl
    (fun a j => a.changeColumn j (PivotedQR.reflect c (a.columns.get d) t)) scaled
  have hput : put (ofQR f).factors steps t = .ok ((f.factors.push t).toArray ++
      Array.replicate (min m n - (steps + 1)) 0) := put_next (by omega) f.factors t 0
  have hread : (ofMat f.packed).read steps steps = .ok (f.packed.entry c d) := Buffer.read_ofMat h f.packed c d
  have hscaled : (ofMat f.packed).alterColumn steps (steps + 1) (fun _ x => x * inverse) = .ok (ofMat scaled) :=
    Buffer.alterColumn_ofMat h f.packed d hm _
  have hloop : (between (steps + 1) n).foldlM (reflectLater t steps) (ofMat scaled) = .ok (ofMat reflected) := by
    rw [show between (steps + 1) n = _ from between_succ d]
    exact foldlM_eq_foldl ofMat _ (fun a j hj => reflectLater_ofMat (c := c) (d := d) h a rfl (mem_after.1 hj) t) scaled
  have hwrite : (ofMat reflected).write steps steps (-sigma) = .ok (ofMat (reflected.setEntry c d (-sigma))) :=
    Buffer.write_ofMat h reflected c d _
  rw [clearColumn]
  change (do
    let x ← (ofMat f.packed).read steps steps
    let sigma := PivotedQR.directed length x
    let lead := x + sigma
    let t := lead / sigma
    let factors ← put (ofQR f).factors steps t
    let inverse := 1 / lead
    let a ← (ofMat f.packed).alterColumn steps (steps + 1) fun _ x => x * inverse
    let a ← (between (steps + 1) a.ncols).foldlM (reflectLater t steps) a
    let packed ← a.write steps steps (-sigma)
    return { ofQR f with packed, factors }) = _
  rw [hread, ok_bind]
  change (do
    let factors ← put (ofQR f).factors steps t
    let a ← (ofMat f.packed).alterColumn steps (steps + 1) fun _ x => x * inverse
    let a ← (between (steps + 1) a.ncols).foldlM (reflectLater t steps) a
    let packed ← a.write steps steps (-sigma)
    return { ofQR f with packed, factors }) = _
  rw [hput, ok_bind, hscaled, ok_bind, Buffer.ncols_ofMat, hloop, ok_bind, hwrite, ok_bind]
  rw [show reflected.setEntry c d (-sigma) = _ from clearColumn_eq f.packed c d sigma]
  rfl

theorem step_ofQR (h : m * n ≤ maxCount) (f : PivotedQR K m n steps) (hm : steps < m) (hn : steps < n) :
    (ofQR f).step steps = .ok (ofQR (f.step hm hn)) := by
  have hpivot := pivot_ofMat h f.packed (c := ⟨steps, hm⟩) (d := ⟨steps, hn⟩) rfl
  have hput (g : PivotedQR K m n steps) : put (ofQR g).factors steps 0 =
      .ok (ofQR ⟨g.packed, g.factors.push 0, g.perm⟩).factors :=
    put_next (k := min m n) (by omega) g.factors 0 (0 : K)
  rw [step, PivotedQR.step]
  change (do
    let found ← pivot (ofMat f.packed) steps
    let s ← (ofQR f).bring steps found.1
    let lengthSq := if found.2 < 0 then 0 else found.2
    if lengthSq == 0 then
      let factors ← put s.factors steps 0
      return { s with factors }
    else s.clearColumn steps (RealScalar.sqrt lengthSq)) = _
  rw [hpivot, ok_bind]
  generalize PivotedQR.pivot f.packed ⟨steps, hm⟩ ⟨steps, hn⟩ = found
  obtain ⟨j, best⟩ := found
  have hbring := bring_ofQR h f ⟨steps, hn⟩ j
  dsimp only at hbring ⊢
  rw [hbring, ok_bind]
  generalize (if best < 0 then 0 else best) = lengthSq
  by_cases hzero : (lengthSq == 0) = true
  · rw [if_pos hzero, if_pos hzero, hput, ok_bind]
    rfl
  · rw [if_neg hzero, if_neg hzero, clearColumn_ofQR h _ hm hn]
    rfl

theorem upTo_ofMat (h : m * n ≤ maxCount) (a : Mat K m n) (k : Nat) (hk : k ≤ min m n) :
    upTo (ofMat a) k = .ok (ofQR (PivotedQR.factorUpTo a k hk)) := by
  induction k with
  | zero => exact congrArg Except.ok (start_ofMat a)
  | succ k ih =>
    have hbefore := ih (Nat.le_of_succ_le hk)
    rw [upTo] at hbefore ⊢
    rw [List.range_succ, List.foldlM_append, hbefore, ok_bind, List.foldlM_cons, step_ofQR h _ (by omega) (by omega)]
    rfl

theorem factor_ofMat (h : m * n ≤ maxCount) (a : Mat K m n) :
    factor (ofMat a) = .ok (ofQR (PivotedQR.factor a)) := upTo_ofMat h a (min m n) le_rfl

/-! ### The order of the columns -/

/-- The columns are those of the matrix in some order. The column that is looked for next is one of those left,
    and when it is brought forward the columns are still in some order. -/
structure Orderly (m n k : Nat) (s : Reflections K) : Prop where
  perm : s.perm.toList.Perm (List.range n)
  next : k < min m n → ∃ j length t, pivot s.packed k = .ok (j, length) ∧ k ≤ j ∧ j < n ∧ s.bring k j = .ok t ∧
    t.perm.toList.Perm (List.range n)

omit [Arith K] [RealScalar R] in
/-- Lengths that are no numbers are passed over. -/
theorem le_pivot_place (a : Mat K m n) (c : Fin m) (d : Fin n) : d ≤ (PivotedQR.pivot a c d).1 := by
  refine List.foldlRecOn (motive := fun best : Fin n × R => d ≤ best.1) (d :: after d) _ le_rfl ?_
  intro best hbest j hj
  dsimp only
  split
  · exact Mat.mem_cons_after.1 hj
  · exact hbest

theorem perm_step (f : PivotedQR K m n steps) (hm : steps < m) (hn : steps < n) :
    ∃ d j : Fin n, (f.step hm hn).perm = f.perm.swap d j d.isLt j.isLt := by
  refine ⟨⟨steps, hn⟩, (PivotedQR.pivot f.packed ⟨steps, hm⟩ ⟨steps, hn⟩).1, ?_⟩
  rw [PivotedQR.step, apply_ite PivotedQR.perm]
  exact ite_self _

theorem bijective_perm (a : Mat K m n) (k : Nat) (hk : k ≤ min m n) :
    Function.Bijective (PivotedQR.factorUpTo a k hk).perm.get := by
  induction k with
  | zero => exact Mat.bijective_get_ofFn_id
  | succ k ih =>
    have hm : k < m := by omega
    have hn : k < n := by omega
    obtain ⟨d, j, hperm⟩ := perm_step (PivotedQR.factorUpTo a k (Nat.le_of_succ_le hk)) hm hn
    have hnext : (PivotedQR.factorUpTo a (k + 1) hk).perm = _ := hperm
    rw [hnext]
    exact Mat.bijective_get_swap (ih _) d j

omit [RealScalar R] in
theorem orderly_ofQR (h : m * n ≤ maxCount) {f : PivotedQR K m n steps} (hf : Function.Bijective f.perm.get) :
    (ofQR f).Orderly m n steps where
  perm := indices_perm f.perm hf
  next hk := by
    let c : Fin m := ⟨steps, by omega⟩
    let d : Fin n := ⟨steps, by omega⟩
    let j : Fin n := (PivotedQR.pivot f.packed c d).1
    have hpivot : pivot (ofMat f.packed) steps = .ok (j.val, (PivotedQR.pivot f.packed c d).2) :=
      pivot_ofMat h f.packed (c := c) (d := d) rfl
    exact ⟨j, _, _, hpivot, le_pivot_place f.packed c d, j.isLt, bring_ofQR h f d j,
      indices_perm _ (Mat.bijective_get_swap hf d j)⟩

/-- After any number of steps the columns are in some order. -/
theorem upTo_orderly (h : m * n ≤ maxCount) (a : Mat K m n) {k : Nat} (hk : k ≤ min m n) :
    ∃ s, upTo (ofMat a) k = .ok s ∧ s.Orderly m n k :=
  ⟨_, upTo_ofMat h a k hk, orderly_ofQR h (bijective_perm a k hk)⟩

/-! ### What the factors are used for -/

omit [Arith R] [LT R] [DecidableLT R] [RealScalar R] [MatrixScalar K R] in
/-- The factors with their steps. -/
theorem zipIdx_factors (f : PivotedQR K m n (min m n)) :
    (ofQR f).factors.toList.zipIdx = (List.finRange (min m n)).map fun s => (f.factors.get s, s.val) := by
  have hfactors : (ofQR f).factors = f.factors.toArray := by simp [ofQR]
  rw [hfactors, zipIdx_toArray]

section Uses

variable {k : Nat} (hx : m * k ≤ maxCount)

include hx

section Turning

variable [Std.Commutative fun x y : K => x + y]

omit [Arith R] [LT R] [DecidableLT R] [RealScalar R] in
/-- The leading entry is the first term of the sum here, and the last one where columns are cleared. -/
theorem reflectColumn_ofMat (v : Vector K m) (t : K) (c : Fin m) (x : Mat K m k) (j : Fin k) :
    reflectColumn (v.toArray.extract (c + 1) m) t c (ofMat x) j =
      .ok (ofMat (x.changeColumn j (PivotedQR.reflect c v t))) := by
  have hrow : c.val + 1 ≤ m := c.isLt
  let component := (x.entry c j + (after c).foldl (fun sum i => sum + conj (v.get i) * x.entry i j) 0) * t
  rw [reflectColumn, Buffer.read_ofMat hx, ok_bind, Buffer.column_ofMat hx x j hrow, ok_bind,
    dot_extract _ _ (between_succ c)]
  change (do
    let lead ← (.ok (x.entry c j) : Except Stop K)
    let x ← (ofMat x).write c j (lead - component)
    x.alterColumn j (c + 1) (along (v.toArray.extract (c + 1) m) fun x y => x - component * y)) = _
  rw [ok_bind, Buffer.write_ofMat hx, ok_bind, Buffer.alterColumn_along hx _ j hrow v]
  refine congrArg (fun b => Except.ok (ofMat b)) (changeColumn_reflect x c v t j ?_)
  have hcomm : Std.Commutative fun x y : K => x + y := inferInstance
  exact congrArg (· * t) (hcomm.comm _ _)

omit [Arith R] [LT R] [DecidableLT R] [RealScalar R] in
theorem reflectAt_ofQR (h : m * n ≤ maxCount) (f : PivotedQR K m n (min m n)) (s : Fin (min m n)) (x : Mat K m k) :
    (ofQR f).reflectAt (ofMat x) (f.factors.get s) s = .ok (ofMat (x.mapColumns (f.reflectAt s))) := by
  have hcolumn : (ofMat f.packed).column s (s + 1) =
      .ok ((f.packed.columns.get (s.castLE (Nat.min_le_right m n))).toArray.extract (s + 1) m) :=
    Buffer.column_ofMat h f.packed (s.castLE (Nat.min_le_right m n)) (by omega)
  have hreflect : f.reflectAt s = if f.factors.get s == 0 then id else PivotedQR.reflect (s.castLE (Nat.min_le_left m n))
      (f.packed.columns.get (s.castLE (Nat.min_le_right m n))) (f.factors.get s) := by
    funext x
    rw [PivotedQR.reflectAt]
    split <;> rfl
  rw [reflectAt, hreflect]
  by_cases ht : (f.factors.get s == 0) = true
  · rw [if_pos ht, if_pos ht]
    refine congrArg (fun b => Except.ok (ofMat b)) (Mat.ext_columns fun j => ?_)
    rw [Mat.columns_get_mapColumns]
    rfl
  · rw [if_neg ht, if_neg ht, ← Mat.foldl_changeColumn]
    change (do
      let v ← (ofMat f.packed).column s (s + 1)
      (List.range k).foldlM (reflectColumn v (f.factors.get s) s) (ofMat x)) = _
    rw [hcolumn, ok_bind, ← List.map_coe_finRange_eq_range]
    exact foldlM_eq_foldl ofMat _
      (fun x j _ => reflectColumn_ofMat hx _ _ (s.castLE (Nat.min_le_left m n)) x j) x

omit [Arith R] [LT R] [DecidableLT R] [RealScalar R] in
theorem applyAdjoint_ofQR (h : m * n ≤ maxCount) (f : PivotedQR K m n (min m n)) (x : Mat K m k) :
    (ofQR f).applyAdjoint (ofMat x) = .ok (ofMat (x.mapColumns f.applyAdjoint)) := by
  rw [applyAdjoint, zipIdx_factors, foldlM_eq_foldl ofMat (fun x s => x.mapColumns (f.reflectAt s))
    fun x s _ => reflectAt_ofQR hx h f s x, Mat.foldl_mapColumns]
  rfl

omit [Arith R] [LT R] [DecidableLT R] [RealScalar R] in
theorem applyOrthogonal_ofQR (h : m * n ≤ maxCount) (f : PivotedQR K m n (min m n)) (x : Mat K m k) :
    (ofQR f).applyOrthogonal (ofMat x) = .ok (ofMat (x.mapColumns f.applyOrthogonal)) := by
  rw [applyOrthogonal, zipIdx_factors, ← List.map_reverse,
    foldlM_eq_foldl ofMat (fun x s => x.mapColumns (f.reflectAt s))
      fun x s _ => reflectAt_ofQR hx h f s x, Mat.foldl_mapColumns]
  refine congrArg (fun g => Except.ok (ofMat (x.mapColumns g))) (funext fun x => ?_)
  rw [List.foldl_reverse]
  rfl

end Turning

end Uses

/-! ### The rank -/

theorem countWhile_eq {test : Nat → Except Stop Bool} {p : Nat → Bool} (i k : Nat)
    (h : ∀ j, i ≤ j → j < i + k → test j = .ok (p j)) :
    countWhile test i k = .ok ((List.range' i k).takeWhile p).length := by
  induction k generalizing i with
  | zero => rfl
  | succ k ih =>
    rw [countWhile, h i le_rfl (by omega), ok_bind, ih (i + 1) fun j hj hj' => h j (by omega) (by omega),
      List.range'_succ, List.takeWhile_cons]
    split <;> rfl

omit [Arith K] [LT R] [DecidableLT R] in
theorem tolerance_of_pos (f : PivotedQR K m n (min m n)) (hk : 0 < min m n) : f.tolerance =
    RealScalar.ofNat (max m n) * RealScalar.epsilon * modulus (f.upper ⟨0, hk⟩ ⟨0, hk⟩) := by
  rw [PivotedQR.tolerance]
  generalize f.upper = u
  revert u hk
  generalize min m n = k
  intro hk u
  cases k with
  | zero => exact absurd hk (lt_irrefl 0)
  | succ k => rfl

omit [Arith K] in
theorem rank_ofMat (h : m * n ≤ maxCount) (f : PivotedQR K m n (min m n)) :
    rank (ofMat f.packed) = .ok f.rank := by
  rw [rank]
  change (if min m n = 0 then (pure 0 : Except Stop Nat)
    else do
      let first ← (ofMat f.packed).read 0 0
      let tolerance := RealScalar.ofNat (max m n) * RealScalar.epsilon * modulus first
      countWhile (fun i => do return tolerance < modulus (← (ofMat f.packed).read i i)) 0 (min m n)) = _
  by_cases hk : min m n = 0
  · have hzero : f.rank = 0 := by
      have hle := f.rank_le
      omega
    rw [if_pos hk, hzero]
    rfl
  · have hpos : 0 < min m n := Nat.pos_of_ne_zero hk
    have hread (i : Fin (min m n)) : (ofMat f.packed).read i i = .ok (f.upper i i) :=
      Buffer.read_ofMat h f.packed (i.castLE (Nat.min_le_left m n)) (i.castLE (Nat.min_le_right m n))
    let counts (i : Nat) : Bool :=
      if hi : i < min m n then f.tolerance < modulus (f.upper ⟨i, hi⟩ ⟨i, hi⟩) else false
    rw [if_neg hk, show (ofMat f.packed).read 0 0 = _ from hread ⟨0, hpos⟩, ok_bind, ← tolerance_of_pos f hpos,
      countWhile_eq (p := counts) 0 (min m n) fun i _ hi => ?_]
    · rw [← List.range_eq_range', ← List.map_coe_finRange_eq_range, List.takeWhile_map, List.length_map]
      refine congrArg (fun l : List (Fin (min m n)) => Except.ok l.length) (congrArg (List.takeWhile · _) ?_)
      funext i
      exact dif_pos i.isLt
    · have hlt : i < min m n := by omega
      have hcounts : counts i = decide (f.tolerance < modulus (f.upper ⟨i, hlt⟩ ⟨i, hlt⟩)) := dif_pos hlt
      rw [show (ofMat f.packed).read i i = _ from hread ⟨i, hlt⟩, ok_bind, hcounts]
      rfl

end Reflections
end NumericArrays.Kernel

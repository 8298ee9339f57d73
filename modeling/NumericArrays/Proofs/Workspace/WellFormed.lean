import NumericArrays.Proofs.Engine.Dense
import NumericArrays.Proofs.Workspace.Step

/-! Whatever is done with well-formed values, on success or on a fault, all values stay well formed. -/
namespace NumericArrays

namespace Value

variable {x y : Value}

theorem demote_wellFormed (hx : x.WellFormed) : x.demote.WellFormed := by
  cases x with
  | number y => trivial
  | array a =>
    show Value.WellFormed (if _ then _ else _)
    split
    · trivial
    · exact NDArray.WellFormed.demote hx

/-- Reading yields numbers. -/
theorem get_wellFormed {coords : List Nat} (h : x.get coords = .ok y) : y.WellFormed := by
  cases x with
  | number z =>
    obtain ⟨p, -, rfl⟩ := exists_of_map_ok h
    trivial
  | array a =>
    obtain ⟨z, -, rfl⟩ := exists_of_map_ok h
    trivial

end Value

namespace Workspace

open InPlace

variable {e : Engine} {s : Workspace} {v : Values} {x : Value}

def Answer.WellFormed (r : Answer) : Prop := ∀ x, r.result = .ok (.value x) → x.WellFormed

/-! ### One command -/

theorem Made.wellFormed {a : NDArray} (h : Made a) : a.WellFormed := by
  have hd := Extents.shape_le
  cases h with
  | single y => exact NDArray.wellFormed_ofNumber y
  | zeros h => exact NDArray.zeros?_wellFormed (hd _) h
  | reals h => exact NDArray.ofReals?_wellFormed (hd _) h
  | parts h => exact NDArray.ofParts?_wellFormed (hd _) h
  | bools h => exact NDArray.ofReals?_wellFormed (hd _) h
  | byPosition h => exact NDArray.ofFn?_wellFormed (hd _) h

theorem Construction.make_wellFormed {c : Construction} (h : c.make = some x) : x.WellFormed := by
  obtain ⟨y, rfl⟩ | ⟨a, ha, rfl⟩ := make_cases h
  · trivial
  · exact ha.wellFormed

theorem Operation.eval_wellFormed (he : e.Sound) (hv : ∀ i, (v i).WellFormed) (o : Operation) :
    (o.eval e v).Ensures Value.WellFormed := by
  cases o with
  | arithmetic op i j => exact Arithmetic.apply_wellFormed (hv i) (hv j)
  | comparison op i j => exact Comparison.apply_wellFormed (hv i) (hv j)
  | connective op i j => exact Connective.apply_wellFormed (hv i) (hv j)
  | not i => exact Value.not_wellFormed (hv i)
  | neg i => exact Logged.ensures_pure (Value.neg_wellFormed (hv i))
  | conj i => exact Logged.ensures_pure (Value.conj_wellFormed (hv i))
  | demote i => exact Logged.ensures_pure (Value.demote_wellFormed (hv i))
  | convert kind i => exact Value.ofKind_wellFormed (hv i).toArray
  | concat axis is =>
    intro y hy
    have hparts : ∀ w ∈ is.map v, w.WellFormed := by
      intro w hw
      obtain ⟨i, -, rfl⟩ := List.mem_map.mp hw
      exact hv i
    obtain ⟨c, hc, rfl⟩ := exists_of_map_ok hy
    exact Value.concat_wellFormed hparts hc
  | mul i j =>
    exact Engine.mul_ensures he.keeps Value.ofKind_wellFormed (hv i).toArray (hv j).toArray
      (Arithmetic.apply_wellFormed (hv i) (hv j))
  | leftDiv i j =>
    exact Engine.leftDiv_ensures he.keeps Value.ofKind_wellFormed (hv i).toArray (hv j).toArray
      (Arithmetic.apply_wellFormed (hv i) (hv j))
  | rightDiv i j =>
    exact Engine.rightDiv_ensures he.keeps Value.ofKind_wellFormed (hv i).toArray (hv j).toArray
      (Arithmetic.apply_wellFormed (hv i) (hv j))
  | transposed i =>
    exact Engine.transposed_ensures he.keeps Value.ofKind_wellFormed (hv i).toArray (hv i)
  | adjointed i =>
    exact Engine.adjointed_ensures he.keeps Value.ofKind_wellFormed (hv i).toArray (hv i)
      (Value.conj_wellFormed (hv i))

theorem Query.answer_wellFormed {q : Query} (h : q.answer v = .ok (.value x)) : x.WellFormed := by
  have hget : ∀ {coords i}, ((v i).get coords).map Reply.value = .ok (.value x) → x.WellFormed := by
    intro coords i h
    obtain ⟨y, hy, hr⟩ := exists_of_map_ok h
    cases hr
    exact Value.get_wellFormed hy
  cases q with
  | get coords i => exact hget h
  | getAt index i =>
    obtain ⟨coords, -, hanswer⟩ := exists_of_bind_ok h
    exact hget hanswer
  | text i => cases h
  | equal i j => cases h

/-! ### Any sequence of commands -/

theorem Assigns.wellFormed {c : Command} {target : Nat} (he : e.Sound) (hs : s.WellFormed)
    (h : Assigns e s c target x) : x.WellFormed := by
  cases h with
  | make hmake => exact Construction.make_wellFormed hmake
  | compute heval => exact Operation.eval_wellFormed he hs.values _ x heval
  | change happly => exact Change.apply_wellFormed (hs.values target).toArray happly

theorem step_wellFormed (he : e.Sound) (hs : s.WellFormed) (c : Command) :
    (step e s c).2.WellFormed ∧ (step e s c).1.WellFormed := by
  obtain ⟨target, x, hx, hnext, hanswer⟩ | ⟨hnext, hanswer⟩ := step_cases hs c
  · have hw := hx.wellFormed he hs
    rw [hnext]
    refine ⟨hs.put (Cell.wellFormed_ofValue hw) target, fun y hy => ?_⟩
    rwa [hanswer y hy]
  · rw [hnext]
    refine ⟨hs, fun y hy => ?_⟩
    obtain ⟨q, hq⟩ := hanswer y hy
    exact Query.answer_wellFormed hq

theorem run_wellFormed (he : e.Sound) (hs : s.WellFormed) (cs : List Command) :
    (run e s cs).2.WellFormed ∧ ∀ p ∈ (run e s cs).1, p.2.WellFormed := by
  induction cs generalizing s with
  | nil =>
    constructor
    · exact hs
    · intro p hp
      cases hp
  | cons c cs ih =>
    obtain ⟨hnext, hanswer⟩ := step_wellFormed he hs c
    obtain ⟨hlast, hanswers⟩ := ih hnext
    constructor
    · exact hlast
    · intro p hp
      rcases List.mem_cons.mp hp with rfl | hp
      · exact hanswer
      · exact hanswers p hp

/-- What is true of the value that a command puts under a name stays true of all values. -/
theorem step_keeps {P : Value → Prop} (hs : s.WellFormed) (hp : ∀ i, P (s.values i)) (c : Command)
    (hassigns : ∀ {target x}, Assigns e s c target x → P x) (i : Nat) : P ((step e s c).2.values i) := by
  obtain ⟨target, x, hx, hnext, -⟩ | ⟨hnext, -⟩ := step_cases (e := e) hs c
  · rw [hnext]
    show P (if i = target then Cell.ofValue x else s.cell i).value
    split
    · rw [Cell.value_ofValue]
      exact hassigns hx
    · exact hp i
  · rw [hnext]
    exact hp i

theorem run_keeps {P : Value → Prop} (he : e.Sound)
    (hassigns : ∀ {s : Workspace} {c target x}, s.WellFormed → (∀ i, P (s.values i)) →
      Assigns e s c target x → P x)
    (hs : s.WellFormed) (hp : ∀ i, P (s.values i)) (cs : List Command) (i : Nat) :
    P ((run e s cs).2.values i) := by
  induction cs generalizing s with
  | nil => exact hp i
  | cons c cs ih =>
    have hnext := step_keeps hs hp c fun hx => hassigns hs hp hx
    exact ih (step_wellFormed he hs c).1 hnext

/-- Commands keep all arrays well formed, whether they succeed or not, and yield nothing but well-formed
    values, on every engine that makes well-formed matrices. The one of this library does. -/
theorem wellFormed_throughout :
    Engine.dense.Sound ∧
      ∀ e : Engine, e.Sound → ∀ s : Workspace, s.WellFormed → ∀ cs : List Command,
        (run e s cs).2.WellFormed ∧ ∀ p ∈ (run e s cs).1, p.2.WellFormed := by
  refine ⟨Engine.dense_sound, fun e he s hs cs => ?_⟩
  exact run_wellFormed he hs cs

/-- Every name stands for zero. -/
def blank : Workspace := ⟨fun _ => .number (.real 0)⟩

theorem blank_wellFormed : blank.WellFormed := fun _ => trivial

/-- A square of truth values is made, a complex number is written past its end, a write fails, and the
    square is multiplied by itself. -/
def squaring : List Command :=
  [.make 0 (.zeros [2, 2] .logical), .make 1 (.number (.complex ⟨1, 2⟩)), .change 0 (.set [3, 3] 1),
    .change 0 (.set [0] 1), .compute 2 (.mul 0 0)]

theorem wellFormed_throughout_squaring :
    blank.WellFormed ∧ Engine.dense.Sound ∧ (run .dense blank squaring).2.WellFormed ∧
      ((run .dense blank squaring).2.values 2).get [3, 3] = .ok (.number (.complex ⟨-3, 4⟩)) := by
  obtain ⟨hdense, hrun⟩ := wellFormed_throughout
  have hkept := hrun .dense hdense blank blank_wellFormed squaring
  exact ⟨blank_wellFormed, hdense, hkept.1, by decide +kernel⟩

end Workspace
end NumericArrays

import NumericArrays.Proofs.Workspace.WellFormed

/-! Two workspaces that differ only in the room at the end of their arrays give the same answers, as long
    as neither is refused memory. -/
namespace NumericArrays

theorem Value.demote_of_twin {x y : Value} (h : x.Twin y) : x.demote.trim = y.demote.trim := by
  rcases h.cases with ⟨z, rfl, rfl⟩ | ⟨a, b, rfl, rfl, hab⟩
  · rfl
  · have hd := hab.demote
    unfold Value.demote
    dsimp only
    rw [hd.isScalar_eq, hd.dims_eq, hd.kind_eq, hd.number_eq]
    split
    · rfl
    · exact congrArg Value.array hd.trim_eq

namespace Workspace

open InPlace

variable {e : Engine} {s t : Workspace} {v w : Values} {a b : NDArray}

/-! ### One command -/

structure Twin (s t : Workspace) : Prop where
  left : s.WellFormed
  right : t.WellFormed
  trim_eq : ∀ i, (s.values i).trim = (t.values i).trim

theorem Twin.values (h : s.Twin t) (i : Nat) : (s.values i).Twin (t.values i) :=
  ⟨h.left.values i, h.right.values i, h.trim_eq i⟩

theorem concat_of_twin (h : ∀ i, (v i).Twin (w i)) (axis : Nat) (is : List Nat) :
    (Value.concat axis (is.map v)).map NDArray.trim = (Value.concat axis (is.map w)).map NDArray.trim := by
  have htrim : (is.map v).map Value.trim = (is.map w).map Value.trim := by
    rw [List.map_map, List.map_map]
    exact List.map_congr_left fun i _ => (h i).trim_eq
  have hparts : ∀ {u : Values}, (∀ i, (u i).WellFormed) → ∀ x ∈ is.map u, x.WellFormed := by
    intro u hu x hx
    obtain ⟨i, -, rfl⟩ := List.mem_map.mp hx
    exact hu i
  rw [← Value.concat_trim (hparts fun i => (h i).left), htrim,
    Value.concat_trim (hparts fun i => (h i).right)]

theorem Operation.eval_of_twin (he : e.Sound) (hb : e.Blind) (h : ∀ i, (v i).Twin (w i))
    (o : Operation) : (o.eval e v).view Value.trim = (o.eval e w).view Value.trim := by
  have hof : ∀ {x y : Except Fault Value}, x.map Value.trim = y.map Value.trim →
      (Logged.ofExcept x).view Value.trim = (Logged.ofExcept y).view Value.trim :=
    fun hxy => congrArg (Logged.mk []) hxy
  have hpure : ∀ {x y : Value}, x.trim = y.trim →
      (pure x : Logged Value).view Value.trim = (pure y : Logged Value).view Value.trim :=
    fun hxy => congrArg (fun x => Logged.mk [] (Except.ok x)) hxy
  cases o with
  | arithmetic op i j => exact hof (congrArg _ (Arithmetic.apply_of_twin (h i) (h j)))
  | comparison op i j => exact hof (congrArg _ (Comparison.apply_of_twin (h i) (h j)))
  | connective op i j => exact hof (congrArg _ (Connective.apply_of_twin (h i) (h j)))
  | not i => exact hof (congrArg _ (Value.not_of_twin (h i)))
  | neg i => exact hpure (congrArg _ (Value.neg_of_twin (h i)))
  | conj i => exact hpure (h i).conj.trim_eq
  | demote i => exact hpure (Value.demote_of_twin (h i))
  | convert kind i => exact hof (Value.ofKind_of_twin (h i).toArray)
  | concat axis is =>
    apply hof
    rw [Value.map_array_trim, Value.map_array_trim, concat_of_twin h]
  | mul i j => exact Engine.mul_of_twin he hb (h i) (h j)
  | leftDiv i j => exact Engine.leftDiv_of_twin he hb (h i) (h j)
  | rightDiv i j => exact Engine.rightDiv_of_twin he hb (h i) (h j)
  | transposed i => exact Engine.transposed_of_twin he hb (h i)
  | adjointed i => exact Engine.adjointed_of_twin he hb (h i)

/-- Coordinates read from twins are the same. -/
theorem mapM_toIndex_of_twin (h : ∀ i, (v i).Twin (w i)) (index : List Nat) :
    (index.map v).mapM Value.toIndex = (index.map w).mapM Value.toIndex := by
  induction index with
  | nil => rfl
  | cons i index ih =>
    rw [List.map_cons, List.map_cons, List.mapM_cons, List.mapM_cons, (h i).toIndex_eq, ih]

theorem Query.answer_of_twin (h : ∀ i, (v i).Twin (w i)) (q : Query) : q.answer v = q.answer w := by
  cases q with
  | get coords i =>
    show ((v i).get coords).map _ = ((w i).get coords).map _
    rw [(h i).get_eq]
  | getAt index i =>
    unfold answer
    simp only [mapM_toIndex_of_twin h, (h i).get_eq]
  | text i => exact congrArg (fun x => Except.ok (Reply.text x)) (h i).text_eq
  | equal i j => exact congrArg (fun b => Except.ok (Reply.truth b)) ((h i).equal_eq (h j))

theorem setAt_of_twin {is js : List Value} {x y : Value} (h : a.Twin b)
    (hindex : is.mapM Value.toIndex = js.mapM Value.toIndex) (hx : x.Twin y)
    (hma : ¬ OutOfMemory (a.setAt is x)) (hmb : ¬ OutOfMemory (b.setAt js y)) :
    (a.setAt is x).map NDArray.trim = (b.setAt js y).map NDArray.trim := by
  unfold NDArray.setAt at hma hmb ⊢
  rw [← hindex] at hmb ⊢
  cases hc : is.mapM Value.toIndex with
  | error f => rfl
  | ok coords =>
    rw [hc] at hma hmb
    exact h.set hx hma hmb

theorem outOfMemory_map {α β : Type} {r : Except Fault α} (f : α → β) (h : OutOfMemory r) :
    OutOfMemory (r.map f) := by
  obtain ⟨dims, rfl⟩ := h
  exact ⟨dims, rfl⟩

def Change.seen (r : Except Fault (Option Bool × NDArray)) : Except Fault (Option Bool × NDArray) :=
  r.map fun (b, x) => (b, x.trim)

theorem Change.apply_of_twin (hv : ∀ i, (v i).Twin (w i)) (h : a.Twin b) (c : Change)
    (hma : ¬ OutOfMemory (c.apply v a)) (hmb : ¬ OutOfMemory (c.apply w b)) :
    seen (c.apply v a) = seen (c.apply w b) := by
  have hsilent : ∀ {x y : Except Fault NDArray}, x.map NDArray.trim = y.map NDArray.trim →
      seen (x.map (none, ·)) = seen (y.map (none, ·)) := by
    intro x y hxy
    have hseen : ∀ z : Except Fault NDArray,
        seen (z.map (none, ·)) = (z.map NDArray.trim).map (none, ·) := by
      intro z
      cases z <;> rfl
    rw [hseen, hseen, hxy]
  cases c with
  | set coords i =>
    exact hsilent (h.set (hv i) (mt (outOfMemory_map _) hma) (mt (outOfMemory_map _) hmb))
  | setAt index i =>
    exact hsilent (setAt_of_twin h (mapM_toIndex_of_twin hv index) (hv i)
      (mt (outOfMemory_map _) hma) (mt (outOfMemory_map _) hmb))
  | resize dims =>
    exact hsilent (h.resize dims.shape_le (mt (outOfMemory_map _) hma)
      (mt (outOfMemory_map _) hmb))
  | promote => exact congrArg (fun x => Except.ok (none, x)) h.promote.trim_eq
  | demote =>
    show Except.ok (some a.hasZeroImag, a.demote.trim) = Except.ok (some b.hasZeroImag, b.demote.trim)
    rw [h.hasZeroImag_eq, h.demote.trim_eq]

/-! ### Any sequence of commands -/

def Reply.trim : Reply → Reply
  | .value v => .value v.trim
  | r => r

def Answer.trim (r : Answer) : Answer := ⟨r.events, r.result.map Reply.trim⟩

def Answer.RefusesMemory (r : Answer) : Prop :=
  ∃ dims, r.result = .error (.fault (.outOfMemory dims))

theorem Twin.put (h : s.Twin t) {c d : Cell} (hc : c.WellFormed) (hd : d.WellFormed)
    (hcd : c.value.trim = d.value.trim) (target : Nat) : (s.put target c).Twin (t.put target d) := by
  refine ⟨h.left.put hc target, h.right.put hd target, fun i => ?_⟩
  show (if i = target then c else s.cell i).value.trim = (if i = target then d else t.cell i).value.trim
  split
  · exact hcd
  · exact h.trim_eq i

theorem Twin.put_values (h : s.Twin t) {x y : Value} (hx : x.WellFormed) (hy : y.WellFormed)
    (hxy : x.trim = y.trim) (target : Nat) :
    (s.put target (.ofValue x)).Twin (t.put target (.ofValue y)) := by
  refine h.put (Cell.wellFormed_ofValue hx) (Cell.wellFormed_ofValue hy) ?_ target
  rw [Cell.value_ofValue, Cell.value_ofValue, hxy]

theorem compute_of_twin (he : e.Sound) (hb : e.Blind) (h : s.Twin t) (target : Nat) (o : Operation) :
    (step e s (.compute target o)).1.trim = (step e t (.compute target o)).1.trim ∧
      (step e s (.compute target o)).2.Twin (step e t (.compute target o)).2 := by
  obtain ⟨hevents, hresult⟩ := Logged.mk.inj (o.eval_of_twin he hb h.values)
  have hleft := o.eval_wellFormed he h.left.values
  have hright := o.eval_wellFormed he h.right.values
  obtain ⟨f, hx, hy⟩ | ⟨x, y, hx, hy, hxy⟩ := cases_of_map_eq hresult
  · rw [step_compute_of_error hx, step_compute_of_error hy, hevents]
    constructor
    · rfl
    · exact h
  · rw [step_compute_of_ok hx, step_compute_of_ok hy, hevents]
    constructor
    · show Answer.mk _ (.ok (.value x.trim)) = Answer.mk _ (.ok (.value y.trim))
      rw [hxy]
    · exact h.put_values (hleft x hx) (hright y hy) hxy target

/-- A change to twins is answered alike and leaves twins unless one of them is refused memory. -/
theorem change_of_twin (h : s.Twin t) (target : Nat) (c : Change)
    (hs : ¬ (step e s (.change target c)).1.RefusesMemory)
    (ht : ¬ (step e t (.change target c)).1.RefusesMemory) :
    (step e s (.change target c)).1.trim = (step e t (.change target c)).1.trim ∧
      (step e s (.change target c)).2.Twin (step e t (.change target c)).2 := by
  have hgranted : ∀ {u : Workspace}, u.WellFormed → ¬ (step e u (.change target c)).1.RefusesMemory →
      ¬ OutOfMemory (c.apply u.values (u.values target).toArray) := by
    rintro u hu hstep ⟨dims, hm⟩
    rw [step_change_of_error hu hm] at hstep
    exact hstep ⟨dims, rfl⟩
  have hseen := c.apply_of_twin h.values (h.values target).toArray (hgranted h.left hs)
    (hgranted h.right ht)
  obtain ⟨f, hx, hy⟩ | ⟨⟨r, x⟩, ⟨r', y⟩, hx, hy, hsame⟩ := cases_of_map_eq hseen
  · rw [step_change_of_error h.left hx, step_change_of_error h.right hy]
    constructor
    · rfl
    · exact h
  · obtain ⟨rfl, hxy⟩ := Prod.mk.inj hsame
    have hxw := Change.apply_wellFormed (h.left.values target).toArray hx
    have hyw := Change.apply_wellFormed (h.right.values target).toArray hy
    have hvalues : (Value.array x).trim = (Value.array y).trim := congrArg Value.array hxy
    rw [step_change_of_ok h.left hx, step_change_of_ok h.right hy]
    constructor
    · rfl
    · exact h.put_values (x := .array x) (y := .array y) hxw hyw hvalues target

/-- Only changes ask for memory that depends on the room. -/
theorem step_of_twin (he : e.Sound) (hb : e.Blind) (h : s.Twin t) (c : Command)
    (hgranted : ∀ target k, c = .change target k →
      ¬ (step e s c).1.RefusesMemory ∧ ¬ (step e t c).1.RefusesMemory) :
    (step e s c).1.trim = (step e t c).1.trim ∧ (step e s c).2.Twin (step e t c).2 := by
  cases c with
  | make target c =>
    cases hc : c.make with
    | none =>
      rw [step_make_of_none hc, step_make_of_none hc]
      constructor
      · rfl
      · exact h
    | some x =>
      have hx := Construction.make_wellFormed hc
      rw [step_make_of_some hc, step_make_of_some hc]
      constructor
      · rfl
      · exact h.put_values hx hx rfl target
  | compute target o => exact compute_of_twin he hb h target o
  | change target c =>
    obtain ⟨hs, ht⟩ := hgranted target c rfl
    exact change_of_twin h target c hs ht
  | look q =>
    have hanswer := q.answer_of_twin h.values
    constructor
    · show Answer.trim ⟨[], (q.answer s.values).mapError .fault⟩ =
        Answer.trim ⟨[], (q.answer t.values).mapError .fault⟩
      rw [hanswer]
    · exact h

/-- No change was refused memory. -/
def Granted (rs : List (Command × Answer)) : Prop :=
  ∀ target c r, (Command.change target c, r) ∈ rs → ¬ r.RefusesMemory

def trimmed (rs : List (Command × Answer)) : List (Command × Answer) :=
  rs.map fun (c, r) => (c, r.trim)

theorem run_of_twin (he : e.Sound) (hb : e.Blind) (h : s.Twin t) (cs : List Command)
    (hs : Granted (run e s cs).1) (ht : Granted (run e t cs).1) :
    trimmed (run e s cs).1 = trimmed (run e t cs).1 ∧ (run e s cs).2.Twin (run e t cs).2 := by
  induction cs generalizing s t with
  | nil => exact ⟨rfl, h⟩
  | cons c cs ih =>
    have hgranted : ∀ target k, c = .change target k →
        ¬ (step e s c).1.RefusesMemory ∧ ¬ (step e t c).1.RefusesMemory := by
      rintro target k rfl
      exact ⟨hs target k _ List.mem_cons_self, ht target k _ List.mem_cons_self⟩
    obtain ⟨hanswer, hnext⟩ := step_of_twin he hb h c hgranted
    have hlater : ∀ {u : Workspace}, Granted (run e u (c :: cs)).1 →
        Granted (run e (step e u c).2 cs).1 :=
      fun hu target k r hr => hu target k r (List.mem_cons_of_mem _ hr)
    obtain ⟨hanswers, hlast⟩ := ih hnext (hlater hs) (hlater ht)
    constructor
    · show (c, (step e s c).1.trim) :: trimmed (run e (step e s c).2 cs).1 =
        (c, (step e t c).1.trim) :: trimmed (run e (step e t c).2 cs).1
      rw [hanswer, hanswers]
    · exact hlast

/-- Workspaces whose arrays have the same shapes, kinds and elements answer every sequence of commands
    alike, values in the answers again compared by shape, kind and elements, and are such workspaces again
    at the end, provided no change is refused memory. The engine must not see the room either; the one of
    this library does not. -/
theorem capacity_unobservable :
    Engine.dense.Sound ∧ Engine.dense.Blind ∧
      ∀ e : Engine, e.Sound → e.Blind → ∀ s t : Workspace, s.Twin t → ∀ cs : List Command,
        Granted (run e s cs).1 → Granted (run e t cs).1 →
          trimmed (run e s cs).1 = trimmed (run e t cs).1 ∧ (run e s cs).2.Twin (run e t cs).2 := by
  refine ⟨Engine.dense_sound, Engine.dense_blind, fun e he hb s t h cs hs ht => ?_⟩
  exact run_of_twin he hb h cs hs ht

def pairBuffer (room : Nat) : Array Float := #[1, 2] ++ .replicate room 0

def rowWith (room : Nat) : Workspace := ⟨fun _ => .ofValue (.array ⟨[1, 2], pairBuffer room, none, .double⟩)⟩

theorem rowWith_wellFormed (room : Nat) : (rowWith room).WellFormed := by
  refine fun _ => Cell.wellFormed_ofValue (v := .array _) ?_
  constructor
  case two_axes => exact le_rfl
  case extent_le =>
    show ∀ d ∈ ([1, 2] : Shape), d ≤ maxCount
    decide
  case counted => rfl
  case size_le =>
    show 2 ≤ (pairBuffer room).size
    simp [pairBuffer]
  case imag_size => intro im h; cases h
  case imag_zero => intro im h; cases h
  case logical_real => intro h; cases h
  case real_zero =>
    intro p hp
    change 2 ≤ p at hp
    show ∀ h : p < (#[1, 2] ++ Array.replicate room (0 : Float)).size,
      (#[1, 2] ++ Array.replicate room (0 : Float))[p] = 0
    intro h
    rw [Array.getElem_append_right (by simpa using hp), Array.getElem_replicate]

theorem rowWith_twin (m n : Nat) : (rowWith m).Twin (rowWith n) := by
  refine ⟨rowWith_wellFormed m, rowWith_wellFormed n, fun _ => congrArg Value.array ?_⟩
  have hpair : ∀ room : Nat, (pairBuffer room).extract 0 2 = #[1, 2] := by
    intro room
    simp [pairBuffer]
  show NDArray.mk [1, 2] ((pairBuffer m).extract 0 2) none .double =
    NDArray.mk [1, 2] ((pairBuffer n).extract 0 2) none .double
  rw [hpair, hpair]

theorem granted_of_isOk {rs : List (Command × Answer)} (h : (rs.all fun p => p.2.result.isOk) = true) :
    Granted rs := by
  rintro target c r hr ⟨dims, hm⟩
  have hok := List.all_eq_true.mp h _ hr
  simp only [hm] at hok
  cases hok

/-- A third element is written, for which the longer of two rows may have room already. -/
def stretching : List Command := [.make 1 (.number (.real 3)), .change 0 (.set [3] 1), .look (.text 0)]

/-- A row without room moves where one with room for two more does not. -/
theorem capacity_unobservable_stretching :
    (rowWith 0).Twin (rowWith 2) ∧ Engine.dense.Sound ∧ Engine.dense.Blind ∧
      Granted (run .dense (rowWith 0) stretching).1 ∧ Granted (run .dense (rowWith 2) stretching).1 ∧
      trimmed (run .dense (rowWith 0) stretching).1 = trimmed (run .dense (rowWith 2) stretching).1 ∧
      (run .dense (rowWith 0) stretching).2.cell 0 ≠ (run .dense (rowWith 2) stretching).2.cell 0 := by
  obtain ⟨hsound, hblind, hruns⟩ := capacity_unobservable
  have hs : Granted (run .dense (rowWith 0) stretching).1 := granted_of_isOk (by decide +kernel)
  have ht : Granted (run .dense (rowWith 2) stretching).1 := granted_of_isOk (by decide +kernel)
  have hsame := hruns .dense hsound hblind _ _ (rowWith_twin 0 2) stretching hs ht
  exact ⟨rowWith_twin 0 2, hsound, hblind, hs, ht, hsame.1, by decide +kernel⟩

end Workspace
end NumericArrays

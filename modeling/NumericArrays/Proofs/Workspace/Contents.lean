import NumericArrays.Proofs.Sheet.Contents
import NumericArrays.Proofs.Workspace.Faithful

/-! What arrays hold that commands lead to: numbers of their kind at all times, and after writes what a plain
    map of addresses holds. -/
namespace NumericArrays

namespace NDArray

variable {a : NDArray}

theorem Truthful.not_nan (h : a.Truthful) (hk : a.kind = .logical) (p : Nat) :
    (a.re p).isNaN = false := by
  rcases h hk p with hp | hp
  · rw [hp]
    rfl
  · rw [hp]
    rfl

/-! ### Writes -/

/-- After a write the element is in its place and all others are where they were; after any sequence of
    writes an array reads what a plain map of addresses reads that was written to likewise. Where numbers
    are to be the same in a new kind the truth values must be 0 and 1, as they are in every array that
    commands can make. -/
theorem contents_of_set :
    (∀ a, Workspace.Reachable (.array a) → a.WellFormed ∧ a.Truthful) ∧
      ∀ a : NDArray, a.WellFormed →
        (∀ coords v b, v.WellFormed → a.set coords v = .ok b → a.Wrote coords v b) ∧
          ∀ writes b, a.Truthful → (∀ w ∈ writes, w.2.WellFormed) → a.setAll writes = .ok b →
            b.sheet = writes.foldl (fun s w => s.set w.1 w.2) a.sheet ∧
              ∀ c x, b.get c = .ok x ↔ b.sheet.read c = some x := by
  refine ⟨fun a h => ⟨h.wellFormed, h.faithful.truthful⟩, fun a ha => ⟨?_, ?_⟩⟩
  · intro coords v b hv h
    exact wrote_of_set ha hv h
  · intro writes b ht hw h
    obtain ⟨hb, hsheet⟩ := sheet_setAll ha ht hw h
    exact ⟨hsheet, fun c x => get_eq_ok_iff hb⟩

def truthPair : NDArray := ⟨[1, 2], #[1, 0], none, .logical⟩

/-- The pair grows to a square of doubles. -/
theorem contents_of_set_truthPair :
    ∃ b, Workspace.Reachable (.array truthPair) ∧ truthPair.WellFormed ∧ truthPair.Truthful ∧
      truthPair.set [2, 2] (.number (.real 0.5)) = .ok b ∧
      truthPair.Wrote [2, 2] (.number (.real 0.5)) b ∧
      truthPair.setAll [([2, 2], .number (.real 0.5))] = .ok b ∧
      b.sheet = truthPair.sheet.set [2, 2] (.number (.real 0.5)) := by
  have hreach : Workspace.Reachable (.array truthPair) :=
    ⟨[.make 0 (.bools [1, 2] #[true, false])], 0, by decide +kernel⟩
  obtain ⟨hmade, hset⟩ := contents_of_set
  obtain ⟨ha, ht⟩ := hmade truthPair hreach
  obtain ⟨hone, hall⟩ := hset truthPair ha
  obtain ⟨b, hb⟩ : ∃ b, truthPair.set [2, 2] (.number (.real 0.5)) = .ok b := ⟨_, rfl⟩
  have hwrites : truthPair.setAll [([2, 2], .number (.real 0.5))] = .ok b := by
    simp only [setAll, List.foldlM_cons, List.foldlM_nil, hb]
    rfl
  have hw : ∀ w ∈ [(([2, 2] : List Nat), Value.number (.real 0.5))], w.2.WellFormed := by
    intro w hw
    rw [List.mem_singleton.mp hw]
    trivial
  exact ⟨b, hreach, ha, ht, hb, hone _ _ _ trivial hb, hwrites, (hall _ _ ht hw hwrites).1⟩

end NDArray

namespace Workspace

/-! ### Kinds -/

/-- On every engine with double results, commands that start from numbers do not lead to a logical array
    that holds anything but 0 and 1, nor to a single array that holds what 32 bits cannot represent. The
    engine of this library is one of them. -/
theorem kinds_throughout :
    Engine.dense.Sound ∧ Engine.dense.Double ∧
      ∀ e : Engine, e.Sound → e.Double → ∀ (cs : List Command) (i : Nat) (a : NDArray),
        (run e blank cs).2.values i = .array a →
          (a.kind = .logical → a.imag = none ∧
            ∀ p < a.size, (a.re p = 0 ∨ a.re p = 1) ∧ (a.re p).isNaN = false) ∧
          (a.kind = .single → ∀ p < a.size,
            Storage.single.store (a.re p) = a.re p ∧ Storage.single.store (a.im p) = a.im p) := by
  refine ⟨Engine.dense_sound, Engine.dense_double, fun e he hdouble cs i a ha => ?_⟩
  have hwf : a.WellFormed := by
    have hi := (run_wellFormed he blank_wellFormed cs).1.values i
    rwa [ha] at hi
  have hf : a.Faithful := by
    have hi := run_faithful he hdouble.keeps blank_wellFormed blank_faithful cs i
    rwa [ha] at hi
  constructor
  · intro hk
    exact ⟨hwf.logical_real hk, fun p _ => ⟨hf.truthful hk p, hf.truthful.not_nan hk p⟩⟩
  · intro hk p _
    have hre := hf.re p
    have him := hf.im p
    rw [hk] at hre him
    exact ⟨hre, him⟩

/-- A row of truth values is divided by a single 3, and its negative is compared with it. -/
def rounding : List Command :=
  [.make 0 (.bools [1, 2] #[true, false]), .make 1 (.number (.real 3)), .compute 1 (.convert .single 1),
    .compute 2 (.arithmetic .rightDiv 0 1), .compute 3 (.neg 2), .compute 4 (.comparison .lt 3 2)]

/-- A third has been rounded to 32 bits, and its negative is less than it. -/
theorem kinds_throughout_rounding :
    Engine.dense.Sound ∧ Engine.dense.Double ∧
      (∃ a, (run .dense blank rounding).2.values 3 = .array a ∧ a.kind = .single ∧
        Storage.single.store (a.re 0) = a.re 0 ∧ a.re 0 ≠ -1 / 3) ∧
      ∃ a, (run .dense blank rounding).2.values 4 = .array a ∧ a.kind = .logical ∧
        (a.re 0 = 0 ∨ a.re 0 = 1) ∧ (a.re 1 = 0 ∨ a.re 1 = 1) := by
  obtain ⟨hsound, hdouble, hrun⟩ := kinds_throughout
  have hkinds := hrun .dense hsound hdouble rounding
  have hsingle : ((run .dense blank rounding).2.values 3) =
      .array ⟨[1, 2], #[-Binary64.narrow (1 / 3), -0], none, .single⟩ := by decide +kernel
  have hlogical : ((run .dense blank rounding).2.values 4) =
      .array ⟨[1, 2], #[1, 0], none, .logical⟩ := by decide +kernel
  refine ⟨hsound, hdouble, ⟨_, hsingle, rfl, ?_, by decide +kernel⟩, ⟨_, hlogical, rfl, ?_⟩⟩
  · exact ((hkinds 3 _ hsingle).2 rfl 0 (by decide)).1
  · have helements := ((hkinds 4 _ hlogical).1 rfl).2
    exact ⟨(helements 0 (by decide)).1, (helements 1 (by decide)).1⟩

end Workspace
end NumericArrays

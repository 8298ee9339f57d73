import NumericArrays.Engine.Basic
import NumericArrays.Proofs.NDArray.Capacity

/-! What is asked of a matrix engine: arrays as the constructors make them, and answers that do not depend
    on the room at the end of its operands. -/
namespace NumericArrays

/-- Outcomes of which `f` shows the same are the same fault, or results of which it shows the same. -/
theorem cases_of_map_eq {α γ : Type} {f : α → γ} {x y : Except Fault α} (h : x.map f = y.map f) :
    (∃ e, x = .error e ∧ y = .error e) ∨ ∃ a b, x = .ok a ∧ y = .ok b ∧ f a = f b := by
  cases x with
  | error e =>
    cases y with
    | error e' => exact .inl ⟨e, rfl, congrArg Except.error (Except.error.inj h).symm⟩
    | ok b => cases h
  | ok a =>
    cases y with
    | error e => cases h
    | ok b => exact .inr ⟨a, b, rfl, rfl, Except.ok.inj h⟩

namespace Logged

variable {α β γ δ : Type} {P : α → Prop} {Q : β → Prop} {x y : Logged α}

/-- The result has the property if there is one. -/
def Ensures (P : α → Prop) (x : Logged α) : Prop := ∀ a, x.result = .ok a → P a

theorem ensures_pure {a : α} (h : P a) : (pure a : Logged α).Ensures P := by
  intro b hb
  cases hb
  exact h

theorem Ensures.bind {f : α → Logged β} (hx : x.Ensures P) (hf : ∀ a, P a → (f a).Ensures Q) :
    (x >>= f).Ensures Q := by
  intro b hb
  cases h : x.result with
  | error e =>
    rw [bind_of_error h] at hb
    cases hb
  | ok a =>
    rw [bind_of_ok h] at hb
    exact hf a (hx a h) b hb

/-- Whatever is computed first, what follows decides. -/
theorem ensures_bind_last {f : α → Logged β} (h : ∀ a, (f a).Ensures Q) : (x >>= f).Ensures Q :=
  Ensures.bind (P := fun _ => True) (fun _ _ => trivial) fun a _ => h a

/-- The log, and what `f` shows of the result. -/
def view (f : α → γ) (x : Logged α) : Logged γ := ⟨x.events, x.result.map f⟩

/-- Computations that look the same go on to look the same if what follows cannot tell their results
    apart. -/
theorem view_bind {f : α → γ} {g : β → δ} {k l : α → Logged β} (h : x.view f = y.view f)
    (hx : x.Ensures P) (hy : y.Ensures P)
    (hk : ∀ a b, P a → P b → f a = f b → (k a).view g = (l b).view g) :
    (x >>= k).view g = (y >>= l).view g := by
  obtain ⟨hevents, hresult⟩ := Logged.mk.inj h
  obtain ⟨e, hxr, hyr⟩ | ⟨a, b, hxr, hyr, hab⟩ := cases_of_map_eq hresult
  · rw [bind_of_error hxr, bind_of_error hyr, hevents]
  · obtain ⟨hlater, hlast⟩ := Logged.mk.inj (hk a b (hx a hxr) (hy b hyr) hab)
    rw [bind_of_ok hxr, bind_of_ok hyr]
    show (⟨_, _⟩ : Logged δ) = ⟨_, _⟩
    rw [hevents, hlater, hlast]

/-- Arrays that look the same are twins. -/
theorem view_bind_of_twin {x y : Logged NDArray} {g : β → δ} {k l : NDArray → Logged β}
    (h : x.view NDArray.trim = y.view NDArray.trim) (hx : x.Ensures NDArray.WellFormed)
    (hy : y.Ensures NDArray.WellFormed) (hk : ∀ a b, a.Twin b → (k a).view g = (l b).view g) :
    (x >>= k).view g = (y >>= l).view g :=
  view_bind h hx hy fun a b ha hb hab => hk a b ⟨ha, hb, hab⟩

end Logged

namespace Engine

structure Sound (e : Engine) : Prop where
  product : ∀ k a b, a.WellFormed → b.WellFormed → (e.product k a b).Ensures NDArray.WellFormed
  transpose : ∀ k a, a.WellFormed → (e.transpose k a).Ensures NDArray.WellFormed
  adjoint : ∀ a, a.WellFormed → (e.adjoint a).Ensures NDArray.WellFormed
  solve : ∀ k a b, a.WellFormed → b.WellFormed → (e.solve k a b).Ensures NDArray.WellFormed

structure Keeps (e : Engine) (P : NDArray → Prop) : Prop where
  product : ∀ k a b, P a → P b → (e.product k a b).Ensures P
  transpose : ∀ k a, P a → (e.transpose k a).Ensures P
  adjoint : ∀ a, P a → (e.adjoint a).Ensures P
  solve : ∀ k a b, P a → P b → (e.solve k a b).Ensures P

theorem Sound.keeps {e : Engine} (h : e.Sound) : e.Keeps NDArray.WellFormed :=
  ⟨h.product, h.transpose, h.adjoint, h.solve⟩

/-- The room at the end of the operands is not seen, neither in the log nor in the result. -/
structure Blind (e : Engine) : Prop where
  product : ∀ k a a' b b', a.Twin a' → b.Twin b' →
    (e.product k a b).view NDArray.trim = (e.product k a' b').view NDArray.trim
  transpose : ∀ k a a', a.Twin a' →
    (e.transpose k a).view NDArray.trim = (e.transpose k a').view NDArray.trim
  adjoint : ∀ a a', a.Twin a' → (e.adjoint a).view NDArray.trim = (e.adjoint a').view NDArray.trim
  solve : ∀ k a a' b b', a.Twin a' → b.Twin b' →
    (e.solve k a b).view NDArray.trim = (e.solve k a' b').view NDArray.trim

end Engine
end NumericArrays

import NumericArrays.InPlace.Basic
import NumericArrays.Proofs.Mat.Entries

/-! Loops. A checked loop none of whose steps stops is a plain one, and what a plain one leaves behind is found
    out index by index. -/
namespace NumericArrays

/-! ### Checked loops -/

namespace Kernel

open InPlace (Stop)

variable {σ τ ι κ : Type}

/-- Steps that are plain ones on the states `enc` shows. -/
theorem foldlM_eq_foldl (enc : σ → τ) (next : σ → ι → σ) {index : ι → κ} {step : τ → κ → Except Stop τ}
    {l : List ι} (h : ∀ s, ∀ i ∈ l, step (enc s) (index i) = .ok (enc (next s i))) (s : σ) :
    (l.map index).foldlM step (enc s) = .ok (enc (l.foldl next s)) := by
  induction l generalizing s with
  | nil => rfl
  | cons i l ih =>
    rw [List.map_cons, List.foldlM_cons, h s i List.mem_cons_self]
    exact ih (fun s j hj => h s j (List.mem_cons_of_mem i hj)) (next s i)

theorem mapM_eq_map {α β : Type} {f : α → Except Stop β} {g : α → β} {l : List α}
    (h : ∀ x ∈ l, f x = .ok (g x)) : l.mapM f = .ok (l.map g) := by
  induction l with
  | nil => rfl
  | cons x l ih =>
    rw [List.mapM_cons, h x List.mem_cons_self, ih fun y hy => h y (List.mem_cons_of_mem x hy)]
    rfl

end Kernel

/-! ### What a loop leaves behind -/

namespace Loop

variable {σ ι α : Type} {step : σ → ι → σ}

/-- What no step touches stays. -/
theorem foldl_keeps {β : Type} {f : σ → β} {l : List ι} (h : ∀ s, ∀ i ∈ l, f (step s i) = f s) (s : σ) :
    f (l.foldl step s) = f s :=
  List.foldlRecOn (motive := fun t => f t = f s) l step rfl fun t ht i hi => (h t i hi).trans ht

/-- One of two things that a loop carries, if the other has no bearing on it. -/
theorem fst_foldl {τ : Type} (f : σ → ι → σ) (g : ι → τ) (l : List ι) (s : σ × τ) :
    (l.foldl (fun s i => (f s.1 i, g i)) s).1 = l.foldl f s.1 :=
  (List.foldl_hom Prod.fst fun _ _ => rfl).symm

/-- Every step changes its own part of the state, as long as an invariant holds. -/
theorem foldl_each (observe : σ → ι → α) (change : ι → α → α) {I : σ → Prop} {l : List ι} (hl : l.Nodup)
    (hI : ∀ s, ∀ i ∈ l, I s → I (step s i))
    (hset : ∀ s, ∀ i ∈ l, I s → observe (step s i) i = change i (observe s i))
    (hkeep : ∀ s, ∀ i ∈ l, ∀ j, j ≠ i → observe (step s i) j = observe s j) {s : σ} (hs : I s) (j : ι) :
    (j ∈ l → observe (l.foldl step s) j = change j (observe s j)) ∧
      (j ∉ l → observe (l.foldl step s) j = observe s j) := by
  induction l generalizing s with
  | nil => exact ⟨fun h => absurd h List.not_mem_nil, fun _ => rfl⟩
  | cons i l ih =>
    obtain ⟨hi, hl⟩ := List.nodup_cons.1 hl
    have hstep := ih hl (fun s k hk => hI s k (List.mem_cons_of_mem i hk))
      (fun s k hk => hset s k (List.mem_cons_of_mem i hk))
      (fun s k hk => hkeep s k (List.mem_cons_of_mem i hk)) (hI s i List.mem_cons_self hs)
    rw [List.foldl_cons]
    constructor
    · intro hj
      by_cases hji : j = i
      · subst hji
        rw [hstep.2 hi, hset s j List.mem_cons_self hs]
      · have hjl : j ∈ l := List.mem_of_ne_of_mem hji hj
        rw [hstep.1 hjl, hkeep s i List.mem_cons_self j hji]
    · intro hj
      have hji : j ≠ i := fun h => hj (h ▸ List.mem_cons_self)
      rw [hstep.2 fun h => hj (List.mem_cons_of_mem i h), hkeep s i List.mem_cons_self j hji]

/-- Every step finds its own value from those found before it. -/
theorem foldl_finds (step : σ → ι → σ) (observe : σ → ι → α) (value : ι → α) (l : List ι)
    (hset : ∀ l₁ i l₂, l = l₁ ++ i :: l₂ → ∀ s, (∀ j ∈ l₁, observe s j = value j) →
      observe (step s i) i = value i)
    (hkeep : ∀ s i j, j ≠ i → observe (step s i) j = observe s j) (s : σ) :
    ∀ i ∈ l, observe (l.foldl step s) i = value i := by
  induction l using List.reverseRecOn with
  | nil => simp
  | append_singleton l i ih =>
    have hbefore : ∀ j ∈ l, observe (l.foldl step s) j = value j := by
      apply ih
      rintro l₁ k l₂ rfl
      exact hset l₁ k (l₂ ++ [i]) (by simp)
    intro j hj
    rw [List.foldl_append, List.foldl_cons, List.foldl_nil]
    by_cases hji : j = i
    · subst hji
      exact hset l j [] rfl _ hbefore
    · rw [hkeep _ _ _ hji]
      exact hbefore j (by simpa [hji] using hj)

end Loop

namespace Mat

variable {K : Type} {m n : Nat}

/-- Columns changed in a loop. What is done to a column may depend on columns the loop does not change, which an
    invariant tells about. -/
theorem columns_get_foldl {I : Mat K m n → Prop} {f : Mat K m n → Fin n → Vector K m → Vector K m}
    {g : Fin n → Vector K m → Vector K m} {l : List (Fin n)} (hl : l.Nodup)
    (hI : ∀ a, ∀ j ∈ l, I a → I (a.changeColumn j (f a j))) (hf : ∀ a, ∀ j ∈ l, I a → f a j = g j)
    {a : Mat K m n} (ha : I a) (j : Fin n) :
    (l.foldl (fun a j => a.changeColumn j (f a j)) a).columns.get j =
      if j ∈ l then g j (a.columns.get j) else a.columns.get j := by
  obtain ⟨hin, hout⟩ := Loop.foldl_each (fun a j => a.columns.get j) g hl hI
    (fun a j hj ha => by rw [columns_get_changeColumn, if_pos rfl, hf a j hj ha])
    (fun a j _ k hk => by rw [columns_get_changeColumn, if_neg hk]) ha j
  split
  · exact hin ‹_›
  · exact hout ‹_›

/-- All columns changed one after the other. -/
theorem columns_get_foldl_finRange (f : Fin n → Vector K m → Vector K m) (a : Mat K m n) (j : Fin n) :
    ((List.finRange n).foldl (fun a j => a.changeColumn j (f j)) a).columns.get j = f j (a.columns.get j) := by
  rw [columns_get_foldl (I := fun _ => True) (g := f) (List.nodup_finRange n) (fun _ _ _ _ => trivial)
    (fun _ _ _ _ => rfl) trivial, if_pos (List.mem_finRange j)]

theorem foldl_changeColumn (f : Vector K m → Vector K m) (a : Mat K m n) :
    (List.finRange n).foldl (fun a j => a.changeColumn j f) a = a.mapColumns f := by
  apply ext_columns
  intro j
  rw [columns_get_foldl_finRange fun _ => f, columns_get_mapColumns]

/-- All columns changed again and again. -/
theorem foldl_mapColumns {ι : Type} (f : ι → Vector K m → Vector K m) (l : List ι) (a : Mat K m n) :
    l.foldl (fun a i => a.mapColumns (f i)) a = a.mapColumns fun x => l.foldl (fun x i => f i x) x := by
  apply ext_columns
  intro j
  rw [columns_get_mapColumns]
  exact (List.foldl_hom (fun a : Mat K m n => a.columns.get j) fun a i =>
    (columns_get_mapColumns (f i) a j).symm).symm

/-- One column changed again and again. -/
theorem foldl_changeColumn_same {ι : Type} (f : ι → Vector K m → Vector K m) (l : List ι) (a : Mat K m n)
    (j : Fin n) : l.foldl (fun a i => a.changeColumn j (f i)) a =
      a.changeColumn j fun x => l.foldl (fun x i => f i x) x := by
  apply ext_columns
  intro k
  induction l generalizing a with
  | nil =>
    rw [columns_get_changeColumn]
    split
    · rw [‹k = j›]
      rfl
    · rfl
  | cons i l ih =>
    rw [List.foldl_cons, ih]
    simp only [columns_get_changeColumn, if_pos, List.foldl_cons]
    split
    · rfl
    · rfl

end Mat

/-- In a list in order, what comes before an element stands before it. -/
theorem mem_of_pairwise {ι : Type} {r : ι → ι → Prop} [Std.Asymm r] {l l₁ l₂ : List ι} {i j : ι}
    (hl : l.Pairwise r) (h : l = l₁ ++ i :: l₂) (hj : j ∈ l) (hji : r j i) : j ∈ l₁ := by
  subst h
  rw [List.mem_append, List.mem_cons] at hj
  obtain hj | rfl | hj := hj
  · exact hj
  · exact absurd hji (asymm hji)
  · have hij : r i j := (List.pairwise_cons.1 (List.pairwise_append.1 hl).2.1).1 j hj
    exact absurd hji (asymm hij)

end NumericArrays

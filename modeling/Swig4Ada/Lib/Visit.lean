import Mathlib.Data.List.Basic

/-!
# A search that goes through a list

A step of the search takes an item and a state, and says whether the search ends with the item.
A search that visits one list and then another visits the two as one.
-/

namespace Swig4Ada.Lib

variable {α σ : Type} {step : α → σ → Option (σ × Bool)} {l l' : List α} {s s' s'' : σ}
  {found : Bool}

/-- A search through a list, up to the first item that ends it. -/
def visit (step : α → σ → Option (σ × Bool)) : List α → σ → Option (σ × Bool)
  | [], s => some (s, false)
  | x :: rest, s => do
      let (s, found) ← step x s
      if found then some (s, true) else visit step rest s

/-- What a search does behind another. -/
def visitNext (search : σ → Option (σ × Bool)) (r : σ × Bool) : Option (σ × Bool) :=
  if r.2 then some (r.1, true) else search r.1

theorem visit_cons (x : α) :
    visit step (x :: l) s = (step x s).bind (visitNext (visit step l)) := rfl

theorem visit_append : visit step (l ++ l') s =
    (visit step l s).bind (visitNext (visit step l')) := by
  induction l generalizing s with
  | nil => rfl
  | cons x l ih =>
      rw [List.cons_append, visit_cons, visit_cons, Option.bind_assoc]
      congr 1
      funext r
      rw [visitNext, visitNext]
      split
      · rfl
      · rw [ih]

/-- A run of a search whose steps are of a kind. -/
inductive Visits (P : α → σ → σ → Bool → Prop) : List α → σ → σ → Bool → Prop
  | none (s : σ) : Visits P [] s s false
  | last {x : α} {rest : List α} {s s' : σ} : P x s s' true → Visits P (x :: rest) s s' true
  | next {x : α} {rest : List α} {s s' s'' : σ} {found : Bool} :
      P x s s' false → Visits P rest s' s'' found → Visits P (x :: rest) s s'' found

/-- Steps that keep an invariant make a run. -/
theorem visits_of_steps {P : α → σ → σ → Bool → Prop} {I : σ → Prop}
    (hstep : ∀ x ∈ l, ∀ s, I s → ∃ s' found, step x s = some (s', found) ∧
      P x s s' found ∧ I s') (hs : I s) :
    ∃ s' found, visit step l s = some (s', found) ∧ Visits P l s s' found := by
  induction l generalizing s with
  | nil => exact ⟨s, false, rfl, .none s⟩
  | cons x l ih =>
      obtain ⟨s₁, found, hx, hP, hI⟩ := hstep x List.mem_cons_self s hs
      rw [visit_cons, hx, Option.bind_some, visitNext]
      cases found with
      | true => exact ⟨s₁, true, rfl, .last hP⟩
      | false =>
          obtain ⟨s₂, found, hrest, hvisits⟩ :=
            ih (fun y hy => hstep y (List.mem_cons_of_mem _ hy)) hI
          exact ⟨s₂, found, hrest, .next hP hvisits⟩

/-- What every step of a run relates, the run relates. -/
theorem Visits.related {P : α → σ → σ → Bool → Prop} {R : σ → σ → Prop}
    (h : Visits P l s s' found) (hrefl : ∀ s, R s s)
    (htrans : ∀ s s' s'', R s s' → R s' s'' → R s s'')
    (hstep : ∀ x ∈ l, ∀ s s' found, P x s s' found → R s s') : R s s' := by
  induction h with
  | none s => exact hrefl s
  | last hP => exact hstep _ List.mem_cons_self _ _ _ hP
  | next hP _ ih =>
      exact htrans _ _ _ (hstep _ List.mem_cons_self _ _ _ hP)
        (ih fun y hy => hstep y (List.mem_cons_of_mem _ hy))

end Swig4Ada.Lib

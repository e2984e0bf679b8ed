import Mathlib

/-!
# Runs of a partial step function

A run keeps the actions that were done and the states they were done in. What holds at its
start and is kept by every step that meets a condition holds to the end of a run of such
steps; and when a step that does not meet the condition is seen in the next state, the
condition is exactly what every state of the run tells.
-/

namespace Swig4Ada.Lib

variable {σ α : Type}

/-- A run from `start`, with the last action first. -/
inductive Run (step : α → σ → Option σ) (start : σ) : List (σ × α) → σ → Prop
  | start : Run step start [] start
  | step {trace : List (σ × α)} {s s' : σ} {a : α} :
      Run step start trace s → step a s = some s' → Run step start ((s, a) :: trace) s'

namespace Run

variable {step : α → σ → Option σ} {start s : σ} {trace : List (σ × α)} {I P : σ → Prop}
  {C : σ → α → Prop}

/-- The states of a run hold an invariant. -/
theorem invariant (h : Run step start trace s) (hstart : I start)
    (hkeeps : ∀ s a s', I s → C s a → step a s = some s' → I s')
    (hC : ∀ x ∈ trace, C x.1 x.2) : I s ∧ ∀ x ∈ trace, I x.1 := by
  induction h with
  | start => exact ⟨hstart, fun x hx => absurd hx List.not_mem_nil⟩
  | @step trace s s' a hrun hstep ih =>
      obtain ⟨hI, hall⟩ := ih fun x hx => hC x (List.mem_cons_of_mem _ hx)
      refine ⟨hkeeps s a s' hI (hC (s, a) List.mem_cons_self) hstep, fun x hx => ?_⟩
      rcases List.mem_cons.1 hx with rfl | hx
      · exact hI
      · exact hall x hx

/-- A property that the invariant gives, and that is lost in a step outside the condition,
holds in all states of a run just when all steps meet the condition. -/
theorem forall_iff (h : Run step start trace s) (hstart : I start)
    (hkeeps : ∀ s a s', I s → C s a → step a s = some s' → I s') (hP : ∀ s, I s → P s)
    (hlost : ∀ s a s', I s → ¬ C s a → step a s = some s' → ¬ P s') :
    (P s ∧ ∀ x ∈ trace, P x.1) ↔ ∀ x ∈ trace, C x.1 x.2 := by
  constructor
  · intro hall
    induction h with
    | start => exact fun x hx => absurd hx List.not_mem_nil
    | @step trace s s' a hrun hstep ih =>
        have hbefore := ih ⟨hall.2 (s, a) List.mem_cons_self,
          fun x hx => hall.2 x (List.mem_cons_of_mem _ hx)⟩
        have hI := (hrun.invariant hstart hkeeps hbefore).1
        intro x hx
        rcases List.mem_cons.1 hx with rfl | hx
        · by_contra hC
          exact hlost s a s' hI hC hstep hall.1
        · exact hbefore x hx
  · intro hC
    obtain ⟨hI, hall⟩ := h.invariant hstart hkeeps hC
    exact ⟨hP s hI, fun x hx => hP x.1 (hall x hx)⟩

end Run

end Swig4Ada.Lib

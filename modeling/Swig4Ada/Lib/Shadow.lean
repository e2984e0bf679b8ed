import Mathlib

/-!
# One run that stands for a family of runs

A run which leaves something open can stand for the runs that fill it in. While
it goes on, every run of the family does, with a related result; when it stops,
the reason says what the family may do. `Shadows` puts the two together, and is
carried through a computation by `Shadows.bind` and `Shadows.foldlM`.
-/

namespace Swig4Ada.Lib

variable {ι ε ε' β β' γ γ' τ : Type}

def errorOf : Except ε γ → Option ε
  | .ok _ => none
  | .error e => some e

/-- `a` stands for the runs `c i`: `R` relates the results, and `E` says what a
stop of `a` means for the errors of the others. -/
def Shadows (E : ε → (ι → Option ε') → Prop) (R : ι → β → γ → Prop) (a : Except ε β)
    (c : ι → Except ε' γ) : Prop :=
  match a with
  | .ok x => ∀ i, ∃ y, c i = .ok y ∧ R i x y
  | .error e => E e fun i => errorOf (c i)

/-- What a stop means is about runs that may still go on, and then fail. -/
def Persistent (E : ε → (ι → Option ε') → Prop) : Prop :=
  ∀ e c c', E e c → (∀ i x, c i = some x → c' i = some x) → E e c'

theorem errorOf_bind {c : Except ε γ} {g : γ → Except ε γ'} {e : ε}
    (h : errorOf c = some e) : errorOf (c >>= g) = some e := by
  cases c with
  | ok y => cases h
  | error e' => exact h

namespace Shadows

variable {E : ε → (ι → Option ε') → Prop} {R : ι → β → γ → Prop} {R' : ι → β' → γ' → Prop}

theorem ok {x : β} {ys : ι → γ} (h : ∀ i, R i x (ys i)) :
    Shadows E R (.ok x) fun i => .ok (ys i) :=
  fun i => ⟨ys i, rfl, h i⟩

theorem bind (hE : Persistent E) {a : Except ε β} {c : ι → Except ε' γ}
    {f : β → Except ε β'} {g : γ → Except ε' γ'} (h : Shadows E R a c)
    (hf : ∀ (x : β) (ys : ι → γ), (∀ i, R i x (ys i)) → Shadows E R' (f x) fun i => g (ys i)) :
    Shadows E R' (a >>= f) fun i => c i >>= g := by
  cases a with
  | ok x =>
      choose ys hys hR using h
      have hrun : (fun i => c i >>= g) = fun i => g (ys i) := by
        funext i
        rw [hys i]
        rfl
      rw [hrun]
      exact hf x ys hR
  | error e => exact hE e _ _ h fun i x hx => errorOf_bind hx

theorem ite {p : Prop} [Decidable p] {a a' : Except ε β} {c c' : ι → Except ε' γ}
    (h : p → Shadows E R a c) (h' : ¬ p → Shadows E R a' c') :
    Shadows E R (if p then a else a') fun i => if p then c i else c' i := by
  by_cases hp : p
  · simpa only [if_pos hp] using h hp
  · simpa only [if_neg hp] using h' hp

/-- The rule for a loop over a list. -/
theorem foldlM (hE : Persistent E) {f : β → τ → Except ε β} {g : γ → τ → Except ε' γ}
    (hstep : ∀ (t : τ) (x : β) (ys : ι → γ), (∀ i, R i x (ys i)) → Shadows E R (f x t) fun i => g (ys i) t)
    (ts : List τ) : ∀ (x : β) (ys : ι → γ), (∀ i, R i x (ys i)) →
      Shadows E R (ts.foldlM f x) fun i => ts.foldlM g (ys i) := by
  induction ts with
  | nil => exact fun x ys h => ok h
  | cons t ts ih =>
      intro x ys h
      simp only [List.foldlM_cons]
      exact (hstep t x ys h).bind hE ih

end Shadows

end Swig4Ada.Lib

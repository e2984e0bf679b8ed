import Mathlib.Data.List.Basic

/-!
# Loops

A loop over `0 .. n - 1` in an error monad that can go on at every turn from the
states of an invariant ends, in a state of the invariant. The invariant may mention
the number of turns made.

A property of the state and the next item, at every turn of a loop over a list, can be
decided along the loop.
-/

namespace Swig4Ada.Lib

variable {ε σ : Type}

theorem range_foldlM_ok {I : Nat → σ → Prop} {f : σ → Nat → Except ε σ} {n : Nat} {s : σ}
    (hstart : I 0 s)
    (hstep : ∀ i s, i < n → I i s → ∃ s', f s i = .ok s' ∧ I (i + 1) s') :
    ∃ s', (List.range n).foldlM f s = .ok s' ∧ I n s' := by
  induction n with
  | zero => exact ⟨s, rfl, hstart⟩
  | succ n ih =>
      obtain ⟨s₁, hrun, hinv⟩ := ih fun i s hi hI => hstep i s (by omega) hI
      obtain ⟨s₂, hlast, hinv'⟩ := hstep n s₁ (by omega) hinv
      refine ⟨s₂, ?_, hinv'⟩
      rw [List.range_succ, List.foldlM_append, hrun]
      show [n].foldlM f s₁ = .ok s₂
      rw [List.foldlM_cons, hlast]
      rfl

section Along

variable {α : Type} (f : σ → α → σ) (P : σ → α → Prop)

/-- `P` at every turn of a loop from a state on. -/
def Along : List α → σ → Prop
  | [], _ => True
  | a :: as, s => P s a ∧ Along as (f s a)

def decidableAlong [∀ s a, Decidable (P s a)] : ∀ (as : List α) (s : σ), Decidable (Along f P as s)
  | [], _ => .isTrue trivial
  | a :: as, s =>
      have := decidableAlong as (f s a)
      inferInstanceAs (Decidable (P s a ∧ Along f P as (f s a)))

instance [∀ s a, Decidable (P s a)] (as : List α) (s : σ) : Decidable (Along f P as s) :=
  decidableAlong f P as s

variable {f P}

theorem along_iff {as : List α} {s : σ} :
    Along f P as s ↔ ∀ p a t, as = p ++ a :: t → P (p.foldl f s) a := by
  induction as generalizing s with
  | nil => exact ⟨fun _ p a t h => absurd h.symm (by simp), fun _ => trivial⟩
  | cons b as ih =>
      constructor
      · rintro ⟨hhere, hrest⟩ p a t h
        cases p with
        | nil =>
            obtain ⟨rfl, -⟩ := List.cons.inj h
            exact hhere
        | cons c p =>
            obtain ⟨rfl, htail⟩ := List.cons.inj h
            exact ih.1 hrest p a t htail
      · intro h
        refine ⟨h [] b as rfl, ih.2 fun p a t htail => ?_⟩
        exact h (b :: p) a t (by rw [htail]; rfl)

end Along

end Swig4Ada.Lib

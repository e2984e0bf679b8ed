import Mathlib

/-!
# Texts with marked tokens

A marked text is a list of characters and of tokens; written out, each token is a text of its
own. Where no token overlaps another or itself, a token occurs in the written text at its
marks, and elsewhere only where the characters that are left without any token spell it.
-/

namespace Swig4Ada.Lib

variable {α K : Type}

/-- The text with the tokens written out. -/
def written (token : K → List α) (items : List (α ⊕ K)) : List α :=
  items.flatMap (Sum.elim (fun a => [a]) token)

/-- The text with the tokens left out. -/
def unmarked (items : List (α ⊕ K)) : List α := items.filterMap Sum.getLeft?

/-- No part of a token at its end begins another, or the same one unless it is all of it. -/
def NoOverlap (token : K → List α) : Prop :=
  ∀ k j, ∀ i < (token k).length, i ≠ 0 ∨ k ≠ j →
    ¬ (token k).drop i <+: token j ∧ ¬ token j <+: (token k).drop i

variable {token : K → List α} {items pre post : List (α ⊕ K)} {k : K}

@[simp] theorem written_nil : written token [] = [] := rfl

@[simp] theorem written_char (a : α) :
    written token (.inl a :: items) = a :: written token items := rfl

@[simp] theorem written_token :
    written token (.inr k :: items) = token k ++ written token items := rfl

theorem written_append : written token (pre ++ post) = written token pre ++ written token post :=
  List.flatMap_append

theorem unmarked_append : unmarked (pre ++ post) = unmarked pre ++ unmarked post :=
  List.filterMap_append

@[simp] theorem unmarked_char (a : α) : unmarked (.inl a :: items) = a :: unmarked items := rfl

@[simp] theorem unmarked_token : unmarked (.inr k :: items) = unmarked items := rfl

/-- The characters that a text begins with when the rest of a token does. -/
theorem written_prefix (h : NoOverlap token) (i : Nat)
    (hp : (token k).drop i <+: written token items) :
    (i = 0 ∧ ∃ post, items = .inr k :: post) ∨ (token k).drop i <+: unmarked items := by
  induction items generalizing i with
  | nil => exact Or.inr hp
  | cons x items ih =>
      cases hd : (token k).drop i with
      | nil => exact Or.inr List.nil_prefix
      | cons a u =>
          have hu : u = (token k).drop (i + 1) := by
            rw [← List.tail_drop, hd]
            rfl
          rw [hd] at hp
          cases x with
          | inl c =>
              rw [written_char] at hp
              obtain ⟨rfl, hrest⟩ := List.cons_prefix_cons.1 hp
              rw [hu] at hrest ⊢
              rcases ih (i + 1) hrest with ⟨hzero, -⟩ | hunmarked
              · cases hzero
              · exact Or.inr (List.cons_prefix_cons.2 ⟨rfl, hunmarked⟩)
          | inr j =>
              have hi : i < (token k).length := by
                by_contra hi
                rw [List.drop_of_length_le (by omega)] at hd
                cases hd
              by_cases hwhole : i = 0 ∧ k = j
              · exact Or.inl ⟨hwhole.1, items, by rw [hwhole.2]⟩
              · have hno := h k j i hi (by
                  by_contra hand
                  exact hwhole ⟨by_contra fun hne => hand (Or.inl hne),
                    by_contra fun hne => hand (Or.inr hne)⟩)
                rw [hd] at hno
                rw [written_token] at hp
                rcases List.prefix_or_prefix_of_prefix hp (List.prefix_append _ _) with hin | hin
                · exact absurd hin hno.1
                · exact absurd hin hno.2

/-- Where a token occurs in the written text. -/
theorem occurs (h : NoOverlap token) {i : Nat} (hi : i < (written token items).length)
    (hp : token k <+: (written token items).drop i) :
    (∃ pre post, items = pre ++ .inr k :: post ∧ i = (written token pre).length) ∨
      token k <:+: unmarked items := by
  induction items generalizing i with
  | nil => exact absurd hi (Nat.not_lt_zero i)
  | cons x items ih =>
      have hlater : ∀ m, m < (written token items).length →
          token k <+: (written token items).drop m →
          i = (written token [x]).length + m →
          (∃ pre post, x :: items = pre ++ .inr k :: post ∧ i = (written token pre).length) ∨
            token k <:+: unmarked (x :: items) := by
        intro m hm hp' heq
        rcases ih hm hp' with ⟨pre, post, rfl, hpre⟩ | hin
        · refine Or.inl ⟨x :: pre, post, rfl, ?_⟩
          rw [heq, hpre, ← List.length_append, ← written_append]
          rfl
        · refine Or.inr (hin.trans ?_)
          cases x with
          | inl a => exact (List.suffix_cons a _).isInfix
          | inr j => exact List.infix_rfl
      have hstart : i = 0 → (∃ pre post, x :: items = pre ++ .inr k :: post ∧
          i = (written token pre).length) ∨ token k <:+: unmarked (x :: items) := by
        intro hzero
        rw [hzero] at hp ⊢
        rcases written_prefix h 0 hp with ⟨-, post, hpost⟩ | hunmarked
        · exact Or.inl ⟨[], post, hpost, rfl⟩
        · exact Or.inr hunmarked.isInfix
      cases x with
      | inl a =>
          cases i with
          | zero => exact hstart rfl
          | succ i =>
              rw [written_char, List.length_cons] at hi
              exact hlater i (Nat.lt_of_succ_lt_succ hi) hp (Nat.add_comm i 1)
      | inr j =>
          rw [written_token, List.length_append] at hi
          by_cases hzero : i = 0
          · exact hstart hzero
          · by_cases hin : i < (token j).length
            · have hno := h j k i hin (Or.inl hzero)
              rw [written_token, List.drop_append_of_le_length (by omega)] at hp
              rcases List.prefix_or_prefix_of_prefix hp (List.prefix_append _ _) with hpre | hpre
              · exact absurd hpre hno.2
              · exact absurd hpre hno.1
            · have hlen : (written token [(.inr j : α ⊕ K)]).length = (token j).length := by
                rw [written_token, written_nil, List.append_nil]
              rw [written_token, List.drop_append, List.drop_of_length_le (by omega),
                List.nil_append] at hp
              exact hlater (i - (token j).length) (by omega) hp (by rw [hlen]; omega)

end Swig4Ada.Lib

import Mathlib

/-!
# Nesting of one kind of bracket

`nesting opening closing n l` reads a text from a place where `n` brackets are open:
how many are open behind it, and nothing when one is closed that was not open. A text
is balanced when nothing is open before it, behind it, and it closes nothing else.
Read backwards it nests too, with the roles of the brackets changed.
-/

namespace Swig4Ada.Lib

variable {α : Type} [DecidableEq α] (opening closing : α)

def nesting : Nat → List α → Option Nat
  | n, [] => some n
  | 0, x :: l => if x = closing then none else nesting (if x = opening then 1 else 0) l
  | n + 1, x :: l =>
      if x = closing then nesting n l
      else nesting (if x = opening then n + 2 else n + 1) l

def Balanced (l : List α) : Prop := nesting opening closing 0 l = some 0

instance (l : List α) : Decidable (Balanced opening closing l) :=
  inferInstanceAs (Decidable (nesting opening closing 0 l = some 0))

variable {opening closing} {n k : Nat} {l m : List α}

@[simp] theorem nesting_nil : nesting opening closing n [] = some n := by
  cases n <;> rfl

theorem nesting_closed : nesting opening closing 0 (closing :: l) = none := by
  rw [nesting, if_pos rfl]

example : nesting '(' ')' 0 "f(a))".toList = none := by decide +kernel

theorem nesting_closing : nesting opening closing (n + 1) (closing :: l) =
    nesting opening closing n l := by
  rw [nesting, if_pos rfl]

theorem nesting_other {x : α} (h : x ≠ closing) : nesting opening closing n (x :: l) =
    nesting opening closing (if x = opening then n + 1 else n) l := by
  cases n with
  | zero => rw [nesting, if_neg h]
  | succ n => rw [nesting, if_neg h]

theorem nesting_append :
    nesting opening closing n (l ++ m) =
      (nesting opening closing n l).bind fun k => nesting opening closing k m := by
  induction l generalizing n with
  | nil => rfl
  | cons x l ih =>
      cases n with
      | zero =>
          rw [List.cons_append, nesting, nesting]
          by_cases hx : x = closing
          · rw [if_pos hx, if_pos hx]
            rfl
          · rw [if_neg hx, if_neg hx, ih]
      | succ n =>
          rw [List.cons_append, nesting, nesting]
          by_cases hx : x = closing
          · rw [if_pos hx, if_pos hx, ih]
          · rw [if_neg hx, if_neg hx, ih]

/-- Other characters do not count. -/
theorem nesting_filter {p : α → Bool} (ho : p opening = true) (hc : p closing = true)
    (n : Nat) (l : List α) :
    nesting opening closing n (l.filter p) = nesting opening closing n l := by
  induction l generalizing n with
  | nil => rfl
  | cons x l ih =>
      by_cases hp : p x = true
      · rw [List.filter_cons_of_pos hp]
        cases n with
        | zero => rw [nesting, nesting, ih]
        | succ n => rw [nesting, nesting, ih, ih]
      · have hclosing : x ≠ closing := fun h => hp (by rw [h]; exact hc)
        have hopening : x ≠ opening := fun h => hp (by rw [h]; exact ho)
        rw [List.filter_cons_of_neg hp, ih, nesting_other hclosing, if_neg hopening]

/-- More open brackets stay open. -/
theorem nesting_add (h : nesting opening closing n l = some k) (j : Nat) :
    nesting opening closing (n + j) l = some (k + j) := by
  induction l generalizing n with
  | nil =>
      obtain rfl : n = k := by simpa [nesting] using h
      rfl
  | cons x l ih =>
      cases n with
      | zero =>
          rw [nesting] at h
          by_cases hx : x = closing
          · rw [if_pos hx] at h
            cases h
          · rw [if_neg hx] at h
            have hrest := ih h
            cases j with
            | zero => simpa [nesting, hx] using h
            | succ j =>
                rw [Nat.zero_add, nesting, if_neg hx]
                by_cases ho : x = opening
                · rw [if_pos ho] at hrest ⊢
                  rw [← hrest]
                  congr 1
                  omega
                · rw [if_neg ho] at hrest ⊢
                  rw [← hrest]
                  congr 1
                  omega
      | succ n =>
          rw [Nat.succ_add]
          rw [nesting] at h ⊢
          by_cases hx : x = closing
          · rw [if_pos hx] at h ⊢
            exact ih h
          · rw [if_neg hx] at h ⊢
            by_cases ho : x = opening
            · rw [if_pos ho] at h ⊢
              rw [← ih h]
              congr 1
              omega
            · rw [if_neg ho] at h ⊢
              rw [← ih h]
              congr 1
              omega

/-- Where a text closes what was not open, it has been balanced before. -/
theorem nesting_eq_none (h : nesting opening closing n l = none) :
    ∃ u w, l = u ++ closing :: w ∧ nesting opening closing n u = some 0 := by
  induction l generalizing n with
  | nil => cases h
  | cons x l ih =>
      cases n with
      | zero =>
          rw [nesting] at h
          by_cases hx : x = closing
          · exact ⟨[], l, by rw [hx]; rfl, rfl⟩
          · rw [if_neg hx] at h
            obtain ⟨u, w, rfl, hu⟩ := ih h
            refine ⟨x :: u, w, rfl, ?_⟩
            rw [nesting, if_neg hx]
            exact hu
      | succ n =>
          rw [nesting] at h
          by_cases hx : x = closing
          · rw [if_pos hx] at h
            obtain ⟨u, w, rfl, hu⟩ := ih h
            refine ⟨x :: u, w, rfl, ?_⟩
            rw [nesting, if_pos hx]
            exact hu
          · rw [if_neg hx] at h
            obtain ⟨u, w, rfl, hu⟩ := ih h
            refine ⟨x :: u, w, rfl, ?_⟩
            rw [nesting, if_neg hx]
            exact hu

/-- A text opens as many brackets as it closes and leaves open. -/
theorem nesting_count (hne : opening ≠ closing) (h : nesting opening closing n l = some k) :
    n + l.count opening = k + l.count closing := by
  induction l generalizing n with
  | nil =>
      obtain rfl : n = k := by simpa [nesting] using h
      rfl
  | cons x l ih =>
      by_cases hc : x = closing
      · subst hc
        cases n with
        | zero =>
            rw [nesting_closed] at h
            cases h
        | succ n =>
            rw [nesting_closing] at h
            have hrest := ih h
            rw [List.count_cons_self, List.count_cons_of_ne hne.symm]
            omega
      · rw [nesting_other hc] at h
        have hrest := ih h
        rw [List.count_cons_of_ne hc]
        by_cases ho : x = opening
        · subst ho
          rw [if_pos rfl] at hrest
          rw [List.count_cons_self]
          omega
        · rw [if_neg ho] at hrest
          rw [List.count_cons_of_ne ho]
          exact hrest

/-- Before a place inside of a balanced text no more is closed than opened. -/
theorem Balanced.count_left (hne : opening ≠ closing) (h : Balanced opening closing (l ++ m)) :
    l.count closing ≤ l.count opening := by
  rw [Balanced, nesting_append] at h
  cases hl : nesting opening closing 0 l with
  | none =>
      rw [hl] at h
      cases h
  | some k =>
      have hcount := nesting_count hne hl
      omega

/-- What follows a balanced text in a balanced one. -/
theorem Balanced.right (hl : Balanced opening closing l)
    (h : Balanced opening closing (l ++ m)) : Balanced opening closing m := by
  rw [Balanced, nesting_append, hl] at h
  exact h

/-- A balanced text in the middle of another one. -/
theorem Balanced.insert {w : List α} (h : Balanced opening closing (l ++ m))
    (hw : Balanced opening closing w) : Balanced opening closing (l ++ w ++ m) := by
  rw [Balanced, nesting_append] at h
  cases hl : nesting opening closing 0 l with
  | none =>
      rw [hl] at h
      cases h
  | some k =>
      rw [hl] at h
      have hmiddle := nesting_add hw k
      rw [Nat.zero_add] at hmiddle
      rw [Balanced, nesting_append, nesting_append, hl, Option.bind_some, hmiddle]
      exact h

theorem nesting_of_not_mem (ho : opening ∉ l) (hc : closing ∉ l) :
    nesting opening closing n l = some n := by
  induction l generalizing n with
  | nil => rfl
  | cons x l ih =>
      have hxc : x ≠ closing := fun h => hc (h ▸ List.mem_cons_self)
      have hxo : x ≠ opening := fun h => ho (h ▸ List.mem_cons_self)
      have hrest : ∀ j, nesting opening closing j l = some j := fun j =>
        ih (fun h => ho (List.mem_cons_of_mem _ h)) (fun h => hc (List.mem_cons_of_mem _ h))
      cases n with
      | zero => rw [nesting, if_neg hxc, if_neg hxo, hrest]
      | succ n => rw [nesting, if_neg hxc, if_neg hxo, hrest]

theorem nesting_reverse (hne : opening ≠ closing) (h : nesting opening closing n l = some k) :
    nesting closing opening k l.reverse = some n := by
  induction l generalizing n with
  | nil =>
      obtain rfl : n = k := by simpa [nesting] using h
      rfl
  | cons x l ih =>
      rw [List.reverse_cons, nesting_append]
      cases n with
      | zero =>
          rw [nesting] at h
          by_cases hx : x = closing
          · rw [if_pos hx] at h
            cases h
          · rw [if_neg hx] at h
            rw [ih h]
            by_cases ho : x = opening <;> simp [nesting, hx, ho]
      | succ n =>
          rw [nesting] at h
          by_cases hx : x = closing
          · rw [if_pos hx] at h
            rw [ih h]
            have ho : x ≠ opening := fun ho => hne (ho.symm.trans hx)
            cases n <;> simp [nesting, hx, hne.symm]
          · rw [if_neg hx] at h
            rw [ih h]
            by_cases ho : x = opening <;> simp [nesting, hx, ho]

theorem Balanced.reverse (hne : opening ≠ closing) (h : Balanced opening closing l) :
    Balanced closing opening l.reverse :=
  nesting_reverse hne h

end Swig4Ada.Lib

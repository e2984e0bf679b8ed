import Swig4Ada.Lib.Brackets

/-!
# Texts without a separator outside of brackets

A text is unbroken when its brackets are balanced and a separator stands inside of brackets
only: a scanner that goes past brackets as a whole meets no separator in it. The rules of
`Unbroken` follow such a scanner; `unbroken_iff` says the same of the text itself.
-/

namespace Swig4Ada.Lib

variable {α : Type} [DecidableEq α]

inductive Unbroken (sep opening closing : α) : List α → Prop
  | nil : Unbroken sep opening closing []
  | other {x : α} {l : List α} : x ≠ sep → x ≠ opening → x ≠ closing →
      Unbroken sep opening closing l → Unbroken sep opening closing (x :: l)
  | nested {u l : List α} : Balanced opening closing u →
      Unbroken sep opening closing l → Unbroken sep opening closing (opening :: (u ++ closing :: l))

variable {sep opening closing : α} {l m u w : List α}

theorem balanced_append (hl : Balanced opening closing l) (hm : Balanced opening closing m) :
    Balanced opening closing (l ++ m) := by
  rw [Balanced, nesting_append, hl]
  exact hm

theorem balanced_cons {x : α} (ho : x ≠ opening) (hc : x ≠ closing) :
    Balanced opening closing (x :: l) ↔ Balanced opening closing l := by
  rw [Balanced, nesting_other hc, if_neg ho, Balanced]

theorem balanced_nested (hne : opening ≠ closing) (hu : Balanced opening closing u)
    (hl : Balanced opening closing l) : Balanced opening closing (opening :: (u ++ closing :: l)) := by
  rw [Balanced, nesting_other hne, if_pos rfl, nesting_append, nesting_add hu 1]
  exact nesting_closing.trans hl

/-- The bracket that closes the first one of a balanced text. -/
theorem balanced_opening (hne : opening ≠ closing)
    (h : Balanced opening closing (opening :: l)) :
    ∃ u w, l = u ++ closing :: w ∧ Balanced opening closing u ∧ Balanced opening closing w := by
  rw [Balanced, nesting_other hne, if_pos rfl] at h
  have hnone : nesting opening closing 0 l = none := by
    cases hl : nesting opening closing 0 l with
    | none => rfl
    | some k =>
        rw [nesting_add hl 1] at h
        cases h
  obtain ⟨u, w, rfl, hu⟩ := nesting_eq_none hnone
  refine ⟨u, w, rfl, hu, ?_⟩
  rw [nesting_append, nesting_add hu 1] at h
  exact nesting_closing.symm.trans h

namespace Unbroken

theorem balanced (hne : opening ≠ closing) (h : Unbroken sep opening closing l) :
    Balanced opening closing l := by
  induction h with
  | nil => rfl
  | other _ ho hc _ ih => exact (balanced_cons ho hc).2 ih
  | nested hu _ ih => exact balanced_nested hne hu ih

theorem append (hl : Unbroken sep opening closing l) (hm : Unbroken sep opening closing m) :
    Unbroken sep opening closing (l ++ m) := by
  induction hl with
  | nil => exact hm
  | other hs ho hc _ ih => exact other hs ho hc ih
  | nested hu _ ih =>
      rw [List.cons_append, List.append_assoc, List.cons_append]
      exact nested hu ih

theorem of_not_mem (h : ∀ x ∈ l, x ≠ sep ∧ x ≠ opening ∧ x ≠ closing) :
    Unbroken sep opening closing l := by
  induction l with
  | nil => exact nil
  | cons x l ih =>
      obtain ⟨hs, ho, hc⟩ := h x List.mem_cons_self
      exact other hs ho hc (ih fun y hy => h y (List.mem_cons_of_mem _ hy))

theorem getLast?_ne (hsc : sep ≠ closing) (h : Unbroken sep opening closing l) :
    l.getLast? ≠ some sep := by
  induction h with
  | nil => exact nofun
  | @other x l hs _ _ _ ih =>
      cases l with
      | nil =>
          rw [List.getLast?_singleton]
          exact fun he => hs (Option.some.inj he)
      | cons y l => rwa [List.getLast?_cons_cons]
  | @nested u l _ _ ih =>
      rw [← List.cons_append, List.getLast?_append]
      cases l with
      | nil => exact fun he => hsc (Option.some.inj he).symm
      | cons y l =>
          rw [List.getLast?_cons_cons]
          cases hlast : (y :: l).getLast? with
          | none => exact absurd (List.getLast?_eq_none_iff.1 hlast) (List.cons_ne_nil _ _)
          | some z =>
              rw [hlast] at ih
              exact ih

theorem head?_ne (hso : sep ≠ opening) (h : Unbroken sep opening closing l) :
    l.head? ≠ some sep := by
  cases h with
  | nil => exact nofun
  | other hs _ _ _ => exact fun he => hs (Option.some.inj he)
  | nested _ _ => exact fun he => hso (Option.some.inj he).symm

end Unbroken

/-- The bracket that closes is the first one behind a balanced text. -/
theorem balanced_closing_unique (hu : Balanced opening closing u)
    (hw : Balanced opening closing w) (h : u ++ closing :: l = w ++ closing :: m) :
    u = w ∧ l = m := by
  have hno : ∀ {a b : List α}, Balanced opening closing a →
      ¬ Balanced opening closing (a ++ closing :: b) := by
    intro a b ha hab
    rw [Balanced, nesting_append, ha] at hab
    have hclosed : nesting opening closing 0 (closing :: b) = some 0 := hab
    rw [nesting_closed] at hclosed
    cases hclosed
  rcases List.append_eq_append_iff.1 h with ⟨v, rfl, hv⟩ | ⟨v, rfl, hv⟩
  · cases v with
    | nil => exact ⟨(List.append_nil u).symm, (List.cons.inj hv).2⟩
    | cons x v =>
        obtain ⟨rfl, -⟩ := List.cons.inj hv
        exact absurd hw (hno hu)
  · cases v with
    | nil => exact ⟨List.append_nil w, (List.cons.inj hv).2.symm⟩
    | cons x v =>
        obtain ⟨rfl, -⟩ := List.cons.inj hv
        exact absurd hu (hno hw)

theorem Unbroken.not_balanced (hne : opening ≠ closing) (hso : sep ≠ opening)
    (h : Unbroken sep opening closing l) (hl : l = u ++ sep :: w) :
    ¬ Balanced opening closing u := by
  intro hu
  induction h generalizing u with
  | nil => exact List.append_ne_nil_of_right_ne_nil u (List.cons_ne_nil sep w) hl.symm
  | other hs ho hc _ ih =>
      cases u with
      | nil => exact hs (List.cons.inj hl).1
      | cons y u =>
          obtain ⟨rfl, hrest⟩ := List.cons.inj hl
          exact ih hrest ((balanced_cons ho hc).1 hu)
  | nested hv _ ih =>
      cases u with
      | nil => exact hso (List.cons.inj hl).1.symm
      | cons y u =>
          obtain ⟨rfl, hrest⟩ := List.cons.inj hl
          obtain ⟨a, b, rfl, ha, hb⟩ := balanced_opening hne hu
          rw [List.append_eq, List.append_assoc, List.cons_append] at hrest
          exact ih (balanced_closing_unique hv ha hrest).2 hb

/-- A balanced text is unbroken up to its first separator outside of brackets. -/
theorem Balanced.unbroken_or (sep : α) (hne : opening ≠ closing)
    (h : Balanced opening closing l) :
    Unbroken sep opening closing l ∨
      ∃ u w, l = u ++ sep :: w ∧ Unbroken sep opening closing u := by
  obtain ⟨n, hn⟩ : ∃ n, l.length = n := ⟨_, rfl⟩
  induction n using Nat.strong_induction_on generalizing l with
  | _ n ih =>
      cases l with
      | nil => exact Or.inl Unbroken.nil
      | cons x l =>
          rw [List.length_cons] at hn
          by_cases hs : x = sep
          · exact Or.inr ⟨[], l, by rw [hs]; rfl, Unbroken.nil⟩
          · by_cases hc : x = closing
            · rw [hc, Balanced, nesting_closed] at h
              cases h
            · by_cases ho : x = opening
              · rw [ho] at h ⊢
                obtain ⟨v, m, rfl, hv, hm⟩ := balanced_opening hne h
                rw [List.length_append, List.length_cons] at hn
                rcases ih m.length (by omega) hm rfl with hwhole | ⟨u, w, rfl, hu⟩
                · exact Or.inl (Unbroken.nested hv hwhole)
                · refine Or.inr ⟨opening :: (v ++ closing :: u), w, ?_, Unbroken.nested hv hu⟩
                  rw [List.cons_append, List.append_assoc, List.cons_append]
              · rcases ih l.length (by omega) ((balanced_cons ho hc).1 h) rfl with
                  hwhole | ⟨u, w, rfl, hu⟩
                · exact Or.inl (Unbroken.other hs ho hc hwhole)
                · exact Or.inr ⟨x :: u, w, rfl, Unbroken.other hs ho hc hu⟩

theorem unbroken_iff (hne : opening ≠ closing) (hso : sep ≠ opening) :
    Unbroken sep opening closing l ↔ Balanced opening closing l ∧
      ∀ u w, l = u ++ sep :: w → ¬ Balanced opening closing u := by
  refine ⟨fun h => ⟨h.balanced hne, fun u w => h.not_balanced hne hso⟩, fun ⟨h, htop⟩ => ?_⟩
  rcases h.unbroken_or sep hne with hwhole | ⟨u, w, hl, hu⟩
  · exact hwhole
  · exact absurd (hu.balanced hne) (htop u w hl)

/-- Only separators and brackets count. -/
theorem unbroken_filter {sep : α} {p : α → Bool} (hne : opening ≠ closing) (hso : sep ≠ opening)
    (hs : p sep = true) (ho : p opening = true) (hc : p closing = true) :
    Unbroken sep opening closing (l.filter p) ↔ Unbroken sep opening closing l := by
  constructor
  · intro h
    have hbalanced : Balanced opening closing l := by
      rw [Balanced, ← nesting_filter ho hc]
      exact h.balanced hne
    rcases hbalanced.unbroken_or sep hne with hl | ⟨u, w, rfl, hu⟩
    · exact hl
    · rw [List.filter_append, List.filter_cons_of_pos hs] at h
      refine absurd ?_ (h.not_balanced hne hso rfl)
      rw [Balanced, nesting_filter ho hc]
      exact hu.balanced hne
  · intro h
    induction h with
    | nil => exact Unbroken.nil
    | @other x l hxs hxo hxc _ ih =>
        by_cases hp : p x = true
        · rw [List.filter_cons_of_pos hp]
          exact Unbroken.other hxs hxo hxc ih
        · rwa [List.filter_cons_of_neg hp]
    | @nested u l hu _ ih =>
        rw [List.filter_cons_of_pos ho, List.filter_append, List.filter_cons_of_pos hc]
        refine Unbroken.nested ?_ ih
        rw [Balanced, nesting_filter ho hc]
        exact hu

theorem unbroken_iff_take (hne : opening ≠ closing) (hso : sep ≠ opening) :
    Unbroken sep opening closing l ↔ Balanced opening closing l ∧
      ∀ i < l.length, l[i]? = some sep → ¬ Balanced opening closing (l.take i) := by
  rw [unbroken_iff hne hso]
  refine and_congr_right fun _ => ⟨fun h i _ hi => ?_, fun h u w hl => ?_⟩
  · obtain ⟨hlt, hget⟩ := List.getElem?_eq_some_iff.1 hi
    refine h (l.take i) (l.drop (i + 1)) ?_
    rw [← hget, ← List.drop_eq_getElem_cons hlt, List.take_append_drop]
  · have hlt : u.length < l.length := by
      rw [hl, List.length_append, List.length_cons]
      omega
    have hsep : l[u.length]? = some sep := by
      rw [hl, List.getElem?_append_right (Nat.le_refl _), Nat.sub_self]
      rfl
    have hu := h u.length hlt hsep
    rwa [hl, List.take_left] at hu

end Swig4Ada.Lib

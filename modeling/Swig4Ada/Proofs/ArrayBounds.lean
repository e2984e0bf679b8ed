import Swig4Ada.Ada.TypeText
import Swig4Ada.Lib.Brackets

/-!
# When the bounds of all arrays are deleted

A type is here its text with the array elements marked. Neither loop knows where an element
ends: the one that looks for a period never deletes one, so a period in a dimension stays;
the one that looks for a closing parenthesis deletes as many of these as of the opening ones
only where there are no other parentheses between.
-/

namespace Swig4Ada.Ada

open Swig4Ada.Lib

/-! ## Types with arrays -/

/-- A dimension is an expression, so its parentheses nest. -/
def Dimension : Type := { l : List Char // Balanced '(' ')' l }

inductive Part
  | other (text : List Char)
  | array (dimension : Dimension)

def Part.text : Part → List Char
  | .other text => text
  | .array d => 'a' :: '(' :: (d.1 ++ [')', '.'])

def Part.stripped : Part → List Char
  | .other text => text
  | .array _ => ['a', '.']

def typeText (parts : List Part) : List Char := parts.flatMap Part.text

/-- The text with `a.` for each `a(dim).`. -/
def strippedText (parts : List Part) : List Char := parts.flatMap Part.stripped

/-- A loop ends without an exception, and with the bounds stripped. -/
def StripsBounds (loop : Nat → List Char → Option (Except StripFault (List Char)))
    (parts : List Part) : Prop :=
  ∃ fuel, loop fuel (typeText parts) = some (.ok (strippedText parts))

/-- No dimension has a period or a parenthesis, and there is no `a(` but at the arrays. -/
structure PlainBounds (parts : List Part) : Prop where
  period : ∀ d, Part.array d ∈ parts → '.' ∉ d.1
  parenthesis : ∀ d, Part.array d ∈ parts → ')' ∉ d.1
  elsewhere : ¬ ['a', '('] <:+: strippedText parts

variable {pre rest text r : List Char} {parts : List Part} {fuel : Nat}

/-! ## Positions -/

theorem index_array (h : ¬ ['a', '('] <:+: pre ++ ['a']) :
    index ['a', '('] (pre ++ 'a' :: '(' :: rest) = some pre.length := by
  induction pre with
  | nil => simp [index]
  | cons c pre ih =>
      have hnot : ¬ ['a', '('].isPrefixOf (c :: (pre ++ 'a' :: '(' :: rest)) = true := by
        rw [List.isPrefixOf_iff_prefix]
        intro hp
        obtain ⟨hc, hp⟩ := List.cons_prefix_cons.1 hp
        cases pre with
        | nil => exact absurd (List.cons_prefix_cons.1 hp).1 (by decide)
        | cons x pre =>
            have hx := (List.cons_prefix_cons.1 hp).1
            exact h ⟨[], pre ++ ['a'], by rw [hc, hx]; rfl⟩
      have hrest : ¬ ['a', '('] <:+: pre ++ ['a'] :=
        fun hin => h (hin.trans (List.suffix_cons _ _).isInfix)
      rw [List.cons_append, index, if_neg hnot, ih hrest]
      rfl

theorem lastIndex_some {c : Char} {k e : Nat} (h : lastIndex c text k = some e) :
    e ≤ k ∧ text[e]? = some c := by
  induction k with
  | zero =>
      rw [lastIndex] at h
      split at h
      next hc => exact Option.some.inj h ▸ ⟨le_refl 0, hc⟩
      next => cases h
  | succ k ih =>
      rw [lastIndex] at h
      split at h
      next hc => exact Option.some.inj h ▸ ⟨le_refl _, hc⟩
      next =>
        obtain ⟨hle, hc⟩ := ih h
        exact ⟨by omega, hc⟩

theorem lastIndex_eq {c : Char} {k e : Nat} (hle : e ≤ k) (hc : text[e]? = some c)
    (hafter : ∀ i, e < i → i ≤ k → text[i]? ≠ some c) : lastIndex c text k = some e := by
  induction k with
  | zero =>
      obtain rfl : e = 0 := by omega
      rw [lastIndex, if_pos hc]
  | succ k ih =>
      rw [lastIndex]
      by_cases he : e = k + 1
      · rw [← he, if_pos hc]
      · rw [if_neg (hafter (k + 1) (by omega) (le_refl _))]
        exact ih (by omega) fun i hi hik => hafter i hi (by omega)

/-! ## Where the dimensions are plain -/

theorem deleteBounds_array (d : List Char) :
    deleteBounds (pre ++ 'a' :: '(' :: (d ++ ')' :: rest)) pre.length
        (some (pre.length + 2 + d.length)) = pre ++ 'a' :: rest := by
  have htake : (pre ++ 'a' :: '(' :: (d ++ ')' :: rest)).take (pre.length + 1) = pre ++ ['a'] := by
    rw [List.take_append, List.take_of_length_le (by omega), Nat.add_sub_cancel_left]
    rfl
  have hdrop : (pre ++ 'a' :: '(' :: (d ++ ')' :: rest)).drop (pre.length + 2 + d.length + 1) =
      rest := by
    rw [show pre ++ 'a' :: '(' :: (d ++ ')' :: rest) = (pre ++ 'a' :: '(' :: (d ++ [')'])) ++ rest by
      simp]
    exact List.drop_left' (by simp; omega)
  have hlt : pre.length < pre.length + 2 + d.length := by omega
  rw [deleteBounds, if_pos hlt, htake, hdrop, List.append_assoc]
  rfl

theorem firstParenthesis_array {d : List Char} (h : ')' ∉ d) :
    firstParenthesis (pre ++ 'a' :: '(' :: (d ++ ')' :: rest)) pre.length =
      .ok (some (pre.length + 2 + d.length)) := by
  have hd : ')' ∉ 'a' :: '(' :: d := by
    simp only [List.mem_cons, not_or]
    exact ⟨by decide, by decide, h⟩
  have hindex := index_char hd rest
  rw [firstParenthesis, List.drop_left]
  rw [List.cons_append, List.cons_append] at hindex
  rw [hindex, Option.map_some, List.length_cons, List.length_cons]
  congr 2
  omega

theorem lastParenthesis_array {d : List Char} (h : '.' ∉ d) :
    lastParenthesis (pre ++ 'a' :: '(' :: (d ++ ')' :: '.' :: rest)) pre.length =
      .ok (some (pre.length + 2 + d.length)) := by
  have hd : '.' ∉ 'a' :: '(' :: (d ++ [')']) := by
    simp only [List.mem_cons, List.mem_append, not_or, List.not_mem_nil]
    exact ⟨by decide, by decide, h, by decide, id⟩
  have hindex := index_char hd rest
  rw [List.cons_append, List.cons_append, List.append_assoc] at hindex
  have hlen : ('a' :: '(' :: (d ++ [')'])).length = 3 + d.length := by
    simp only [List.length_cons, List.length_append, List.length_nil]
    omega
  have hat : ∀ i, (pre ++ 'a' :: '(' :: (d ++ ')' :: '.' :: rest))[pre.length + 2 + d.length + i]? =
      (')' :: '.' :: rest)[i]? := by
    intro i
    rw [show pre ++ 'a' :: '(' :: (d ++ ')' :: '.' :: rest) =
        (pre ++ 'a' :: '(' :: d) ++ ')' :: '.' :: rest by simp,
      List.getElem?_append_right (by simp; omega)]
    congr 1
    simp
    omega
  have hlast : lastIndex ')' (pre ++ 'a' :: '(' :: (d ++ ')' :: '.' :: rest))
      (pre.length + (3 + d.length)) = some (pre.length + 2 + d.length) := by
    refine lastIndex_eq (by omega) (hat 0) fun i hi hik => ?_
    obtain rfl : i = pre.length + 2 + d.length + 1 := by omega
    rw [hat 1]
    exact fun h => absurd (Option.some.inj h) (by decide)
  have hcons : 'a' :: '(' :: (d ++ ')' :: '.' :: rest) =
      'a' :: '(' :: (d ++ ([')'] ++ '.' :: rest)) := rfl
  rw [lastParenthesis, List.drop_left, hcons, hindex, hlen]
  exact congrArg Except.ok hlast

theorem strippedText_cons (p : Part) (parts : List Part) :
    strippedText (p :: parts) = p.stripped ++ strippedText parts := rfl

theorem typeText_cons (p : Part) (parts : List Part) :
    typeText (p :: parts) = p.text ++ typeText parts := rfl

/-- Before the first array there is no `a(` that is none, where there is none at all. -/
theorem notInfix_before {d : Dimension}
    (h : ¬ ['a', '('] <:+: pre ++ strippedText (.array d :: parts)) :
    ¬ ['a', '('] <:+: pre ++ ['a'] := by
  intro hin
  refine h (hin.trans ⟨[], '.' :: strippedText parts, ?_⟩)
  rw [strippedText_cons, Part.stripped]
  simp

/-- `finds` says that the end of the bounds is found where an array begins. -/
theorem strips_of_finds {boundsEnd : BoundsEnd} (pre : List Char)
    (hfinds : ∀ d, Part.array d ∈ parts → ∀ pre rest,
      boundsEnd (pre ++ 'a' :: '(' :: (d.1 ++ ')' :: '.' :: rest)) pre.length =
        .ok (some (pre.length + 2 + d.1.length)))
    (helse : ¬ ['a', '('] <:+: pre ++ strippedText parts) :
    ∃ fuel, stripBoundsLoop boundsEnd fuel (pre ++ typeText parts) =
      some (.ok (pre ++ strippedText parts)) := by
  induction parts generalizing pre with
  | nil =>
      refine ⟨1, ?_⟩
      have hnone : index ['a', '('] (pre ++ typeText []) = none := index_eq_none_iff.2 helse
      rw [stripBoundsLoop, hnone]
      rfl
  | cons p parts ih =>
      have hrest := fun pre => ih pre fun d hd => hfinds d (List.mem_cons_of_mem _ hd)
      cases p with
      | other text =>
          rw [strippedText_cons, Part.stripped, ← List.append_assoc] at helse
          obtain ⟨fuel, hfuel⟩ := hrest _ helse
          refine ⟨fuel, ?_⟩
          rw [strippedText_cons, typeText_cons, Part.stripped, Part.text, ← List.append_assoc,
            ← List.append_assoc]
          exact hfuel
      | array d =>
          have hbefore := notInfix_before helse
          rw [strippedText_cons, Part.stripped, ← List.append_assoc] at helse
          obtain ⟨fuel, hfuel⟩ := hrest _ helse
          have htext : pre ++ typeText (.array d :: parts) =
              pre ++ 'a' :: '(' :: (d.1 ++ ')' :: '.' :: typeText parts) := by
            rw [typeText_cons, Part.text]
            simp
          refine ⟨fuel + 1, ?_⟩
          rw [htext, stripBoundsLoop, index_array hbefore]
          simp only
          rw [hfinds d List.mem_cons_self]
          simp only
          rw [deleteBounds_array]
          rw [List.append_assoc, List.append_assoc] at hfuel
          exact hfuel

/-! ## What a loop cannot do -/

theorem stripBoundsLoop_ends {boundsEnd : BoundsEnd}
    (h : stripBoundsLoop boundsEnd fuel text = some (.ok r)) : ¬ ['a', '('] <:+: r := by
  induction fuel generalizing text with
  | zero => cases h
  | succ fuel ih =>
      rw [stripBoundsLoop] at h
      split at h
      next hnone =>
        obtain rfl := Except.ok.inj (Option.some.inj h)
        exact index_eq_none_iff.1 hnone
      next =>
        split at h
        · cases h
        · exact ih h

/-- What is deleted, and what is left. -/
theorem deleteBounds_split (text : List Char) {start e : Nat} (hlt : start < e) :
    text = text.take (start + 1) ++ ((text.drop (start + 1)).take (e - start) ++
      text.drop (e + 1)) ∧
    deleteBounds text start (some e) = text.take (start + 1) ++ text.drop (e + 1) := by
  refine ⟨?_, by rw [deleteBounds, if_pos hlt]⟩
  have hdrop : text.drop (e + 1) = (text.drop (start + 1)).drop (e - start) := by
    rw [List.drop_drop]
    congr 1
    omega
  rw [hdrop, List.take_append_drop, List.take_append_drop]

/-! ### Periods -/

/-- The loop that looks for a period leaves all of them. -/
theorem count_lastParenthesis (h : stripBoundsLoop lastParenthesis fuel text = some (.ok r)) :
    r.count '.' = text.count '.' := by
  induction fuel generalizing text with
  | zero => cases h
  | succ fuel ih =>
      rw [stripBoundsLoop] at h
      split at h
      · obtain rfl := Except.ok.inj (Option.some.inj h)
        rfl
      next start hstart =>
        split at h
        next => cases h
        next e he =>
          rw [ih h]
          cases e with
          | none => rfl
          | some e =>
              by_cases hlt : start < e
              · obtain ⟨hsplit, hdeleted⟩ := deleteBounds_split text hlt
                rw [hdeleted]
                conv_rhs => rw [hsplit]
                rw [lastParenthesis] at he
                split at he
                · cases he
                next period hperiod =>
                  obtain ⟨hle, hclose⟩ := lastIndex_some (Except.ok.inj he)
                  have hne : e ≠ start + period := by
                    rintro rfl
                    rw [← List.getElem?_drop, index_getElem hperiod] at hclose
                    exact absurd (Option.some.inj hclose) (by decide)
                  have hnone : '.' ∉ (text.drop (start + 1)).take (e - start) := by
                    intro hmem
                    have hdrop : (text.drop (start + 1)).take (e - start) =
                        ((text.drop start).take (e - start + 1)).drop 1 := by
                      rw [List.drop_take, List.drop_drop, Nat.add_sub_cancel]
                    rw [hdrop] at hmem
                    exact index_take hperiod (List.take_subset_take_left _ (by omega)
                      (List.mem_of_mem_drop hmem))
                  rw [List.count_append, List.count_append, List.count_append,
                    List.count_eq_zero.2 hnone, Nat.zero_add]
              · rw [deleteBounds, if_neg hlt]

theorem count_le (c : Char) (parts : List Part) :
    (strippedText parts).count c ≤ (typeText parts).count c := by
  induction parts with
  | nil => exact le_refl _
  | cons p parts ih =>
      rw [strippedText_cons, typeText_cons, List.count_append, List.count_append]
      have hp : p.stripped.count c ≤ p.text.count c := by
        cases p with
        | other text => exact le_refl _
        | array d =>
            have hend : ['.'].Sublist (d.1 ++ [')', '.']) :=
              ((List.Sublist.refl ['.']).cons ')').trans (List.sublist_append_right d.1 _)
            exact ((hend.cons '(').cons_cons 'a').count_le c
      omega

/-- As many periods in both texts are none in the dimensions. -/
theorem period_of_count (h : (strippedText parts).count '.' = (typeText parts).count '.')
    {d : Dimension} (hd : Part.array d ∈ parts) : '.' ∉ d.1 := by
  induction parts with
  | nil => exact absurd hd List.not_mem_nil
  | cons p parts ih =>
      have hle := count_le '.' parts
      rw [strippedText_cons, typeText_cons, List.count_append, List.count_append] at h
      have harray : ∀ d : Dimension, (Part.array d).text.count '.' = d.1.count '.' + 1 ∧
          (Part.array d).stripped.count '.' = 1 := by
        intro d
        refine ⟨?_, by rfl⟩
        rw [Part.text, List.count_cons_of_ne (by decide), List.count_cons_of_ne (by decide),
          List.count_append]
        rfl
      rcases List.mem_cons.1 hd with rfl | hd
      · obtain ⟨htext, hstripped⟩ := harray d
        rw [← List.count_eq_zero]
        omega
      · refine ih ?_ hd
        cases p with
        | other text => exact Nat.add_left_cancel h
        | array d' =>
            obtain ⟨htext, hstripped⟩ := harray d'
            omega

/-! ### Parentheses -/

/-- How many more parentheses are closed than opened. -/
def excess (text : List Char) : Int := text.count ')' - text.count '('

theorem excess_append (a b : List Char) : excess (a ++ b) = excess a + excess b := by
  rw [excess, excess, excess, List.count_append, List.count_append]
  push_cast
  ring

theorem nesting_excess {n k : Nat} {l : List Char} (h : nesting '(' ')' n l = some k) :
    (n : Int) = k + excess l := by
  induction l generalizing n with
  | nil =>
      obtain rfl : n = k := by simpa [nesting] using h
      simp [excess]
  | cons x l ih =>
      have hx : excess (x :: l) = excess [x] + excess l := excess_append [x] l
      rw [hx]
      by_cases hclose : x = ')'
      · subst hclose
        cases n with
        | zero =>
            rw [nesting, if_pos rfl] at h
            cases h
        | succ n =>
            rw [nesting, if_pos rfl] at h
            have hih := ih h
            have hone : excess [')'] = 1 := rfl
            push_cast
            omega
      · by_cases hopen : x = '('
        · subst hopen
          have hone : excess ['('] = -1 := rfl
          cases n with
          | zero =>
              rw [nesting, if_neg hclose, if_pos rfl] at h
              have hih := ih h
              push_cast at hih ⊢
              omega
          | succ n =>
              rw [nesting, if_neg hclose, if_pos rfl] at h
              have hih := ih h
              push_cast at hih ⊢
              omega
        · have hzero : excess [x] = 0 := by
            rw [excess, List.count_singleton, List.count_singleton]
            simp [hclose, hopen]
          cases n with
          | zero =>
              rw [nesting, if_neg hclose, if_neg hopen] at h
              have hih := ih h
              omega
          | succ n =>
              rw [nesting, if_neg hclose, if_neg hopen] at h
              have hih := ih h
              omega

theorem excess_nonpos {l : List Char} (h : ')' ∉ l) : excess l ≤ 0 := by
  rw [excess, List.count_eq_zero.2 h]
  omega

theorem excess_stripped (parts : List Part) : excess (strippedText parts) = excess (typeText parts) := by
  induction parts with
  | nil => rfl
  | cons p parts ih =>
      rw [strippedText_cons, typeText_cons, excess_append, excess_append, ih]
      cases p with
      | other text => rfl
      | array d =>
          have hd := nesting_excess d.2
          have htext : (Part.array d).text = ['a', '('] ++ (d.1 ++ [')', '.']) := rfl
          have hends : excess ['a', '('] = -1 ∧ excess [')', '.'] = 1 ∧ excess ['a', '.'] = 0 :=
            ⟨rfl, rfl, rfl⟩
          rw [htext, excess_append, excess_append, Part.stripped]
          push_cast at hd
          omega

theorem index_behind_array {t : List Char} {k : Nat}
    (h : index [')'] ('a' :: '(' :: t) = some k) : ∃ j, k = j + 2 ∧ index [')'] t = some j := by
  rw [index, if_neg (by simp), index, if_neg (by simp), Option.map_map] at h
  obtain ⟨j, hj, rfl⟩ := Option.map_eq_some_iff.1 h
  exact ⟨j, rfl, hj⟩

theorem take_succ_index {c : Char} {t : List Char} {j : Nat} (h : index [c] t = some j) :
    t.take (j + 1) = t.take j ++ [c] := by
  rw [List.take_add_one, index_getElem h]
  rfl

/-- What such a turn deletes is an opening parenthesis and all up to the first closing one. -/
theorem excess_deleted {t : List Char} {j : Nat} (h : index [')'] t = some j) :
    excess (('(' :: t).take (j + 2)) = excess (t.take j) := by
  have hends : excess ['('] = -1 ∧ excess [')'] = 1 := ⟨rfl, rfl⟩
  have hcons : '(' :: (t.take j ++ [')']) = ['('] ++ (t.take j ++ [')']) := rfl
  rw [List.take_succ_cons, take_succ_index h, hcons, excess_append, excess_append]
  omega

/-- A turn that looks for the first parenthesis deletes an opening one, what is between,
and it. -/
theorem excess_turn {start : Nat} (hstart : index ['a', '('] text = some start) {e : Option Nat}
    (he : firstParenthesis text start = .ok e) :
    excess text ≤ excess (deleteBounds text start e) := by
  cases e with
  | none => exact le_refl _
  | some e =>
      by_cases hlt : start < e
      · obtain ⟨hsplit, hdeleted⟩ := deleteBounds_split text hlt
        obtain ⟨k, hk, rfl⟩ := Option.map_eq_some_iff.1 (Except.ok.inj he)
        rw [hdeleted]
        conv_lhs => rw [hsplit]
        rw [excess_append, excess_append, excess_append]
        obtain ⟨t, ht⟩ := index_prefix hstart
        rw [← ht] at hk
        obtain ⟨j, rfl, hj⟩ := index_behind_array (t := t) hk
        have hdrop : text.drop (start + 1) = '(' :: t := by
          rw [← List.drop_drop, ← ht]
          rfl
        have hnonpos := excess_nonpos (index_take hj)
        rw [hdrop, Nat.add_sub_cancel_left, excess_deleted hj]
        omega
      · rw [deleteBounds, if_neg hlt]

theorem excess_firstParenthesis (h : stripBoundsLoop firstParenthesis fuel text = some (.ok r)) :
    excess text ≤ excess r := by
  induction fuel generalizing text with
  | zero => cases h
  | succ fuel ih =>
      rw [stripBoundsLoop] at h
      split at h
      · obtain rfl := Except.ok.inj (Option.some.inj h)
        exact le_refl _
      next start hstart =>
        split at h
        next => cases h
        next e he => exact le_trans (excess_turn hstart he) (ih h)

/-- A dimension with parentheses has an opening one before the first closing one. -/
theorem excess_before {d : Dimension} {u w : List Char} (hd : d.1 = u ++ ')' :: w) :
    excess u < 0 := by
  have hnest : nesting '(' ')' 0 d.1 = some 0 := d.2
  rw [hd, nesting_append] at hnest
  cases hk : nesting '(' ')' 0 u with
  | none =>
      rw [hk] at hnest
      cases hnest
  | some k =>
      rw [hk] at hnest
      have hexcess := nesting_excess hk
      cases k with
      | zero =>
          change nesting '(' ')' 0 (')' :: w) = some 0 at hnest
          rw [nesting, if_pos rfl] at hnest
          cases hnest
      | succ k =>
          push_cast at hexcess
          omega

/-- The turn at an array, where the text up to the first closing parenthesis is deleted. -/
theorem turn_first {u rest : List Char} (hbefore : ¬ ['a', '('] <:+: pre ++ ['a'])
    (hu : ')' ∉ u)
    (h : stripBoundsLoop firstParenthesis fuel (pre ++ 'a' :: '(' :: (u ++ ')' :: rest)) =
      some (.ok r)) :
    ∃ fuel', stripBoundsLoop firstParenthesis fuel' (pre ++ 'a' :: rest) = some (.ok r) := by
  cases fuel with
  | zero => cases h
  | succ fuel =>
      rw [stripBoundsLoop, index_array hbefore] at h
      simp only at h
      rw [firstParenthesis_array hu] at h
      simp only at h
      rw [deleteBounds_array] at h
      exact ⟨fuel, h⟩

theorem excess_array (pre u rest : List Char) :
    excess (pre ++ 'a' :: '(' :: (u ++ ')' :: rest)) =
      excess (pre ++ 'a' :: rest) + excess u := by
  have hends : excess ['a', '('] = -1 ∧ excess [')'] = 1 ∧ excess ['a'] = 0 := ⟨rfl, rfl, rfl⟩
  have hlong : pre ++ 'a' :: '(' :: (u ++ ')' :: rest) =
      pre ++ (['a', '('] ++ (u ++ ([')'] ++ rest))) := rfl
  have hshort : pre ++ 'a' :: rest = pre ++ (['a'] ++ rest) := rfl
  rw [hlong, hshort]
  simp only [excess_append]
  omega

theorem parenthesis_of_excess (pre : List Char) (helse : ¬ ['a', '('] <:+: pre ++ strippedText parts)
    (h : stripBoundsLoop firstParenthesis fuel (pre ++ typeText parts) = some (.ok r))
    (hr : excess r = excess (pre ++ typeText parts)) {d : Dimension}
    (hd : Part.array d ∈ parts) : ')' ∉ d.1 := by
  induction parts generalizing pre fuel with
  | nil => exact absurd hd List.not_mem_nil
  | cons p parts ih =>
      cases p with
      | other text =>
          rw [strippedText_cons, Part.stripped, ← List.append_assoc] at helse
          rw [typeText_cons, Part.text, ← List.append_assoc] at h hr
          rcases List.mem_cons.1 hd with hd | hd
          · cases hd
          · exact ih _ helse h hr hd
      | array d' =>
          have hbefore := notInfix_before helse
          rw [strippedText_cons, Part.stripped, ← List.append_assoc] at helse
          have htext : pre ++ typeText (.array d' :: parts) =
              pre ++ 'a' :: '(' :: (d'.1 ++ ')' :: '.' :: typeText parts) := by
            rw [typeText_cons, Part.text]
            simp
          rw [htext] at h hr
          have hplain : ')' ∉ d'.1 := by
            intro hmem
            obtain ⟨u, w, hsplit, hu⟩ := List.eq_append_cons_of_mem hmem
            have hneg := excess_before hsplit
            rw [hsplit, List.append_assoc, List.cons_append] at h hr
            obtain ⟨fuel', h⟩ := turn_first hbefore hu h
            have hle := excess_firstParenthesis h
            rw [excess_array] at hr
            omega
          have hzero := nesting_excess d'.2
          rw [excess_array] at hr
          obtain ⟨fuel', h⟩ := turn_first hbefore hplain h
          rcases List.mem_cons.1 hd with hd | hd
          · cases hd
            exact hplain
          · rw [List.append_assoc] at helse
            refine ih (pre ++ ['a', '.']) ?_
              (?_ : stripBoundsLoop firstParenthesis fuel' _ = some (.ok r)) ?_ hd
            · rw [List.append_assoc]
              exact helse
            · rw [List.append_assoc]
              exact h
            · rw [List.append_assoc, hr]
              push_cast at hzero
              change excess (pre ++ 'a' :: '.' :: typeText parts) + excess d'.1 =
                excess (pre ++ 'a' :: '.' :: typeText parts)
              omega

/-! ## The loops -/

theorem stripsBounds_iff (parts : List Part) :
    StripsBounds stripArrayBounds parts ∧ StripsBounds myStrippedBounds parts ↔
      PlainBounds parts := by
  constructor
  · rintro ⟨⟨fuel, hlast⟩, fuel', hfirst⟩
    have helse := stripBoundsLoop_ends hlast
    refine ⟨fun d hd => period_of_count (count_lastParenthesis hlast) hd, fun d hd => ?_, helse⟩
    exact parenthesis_of_excess [] helse hfirst (excess_stripped parts) hd
  · rintro ⟨hperiod, hparenthesis, helse⟩
    constructor
    · exact strips_of_finds [] (fun d hd _ _ => lastParenthesis_array (hperiod d hd)) helse
    · exact strips_of_finds []
        (fun d hd _ _ => firstParenthesis_array (hparenthesis d hd)) helse

/-- `char [(2)+1]`, where the first closing parenthesis is not the last one. -/
theorem nestedDimension_kept :
    ¬ ∀ parts : List Part, StripsBounds stripArrayBounds parts ∧
      StripsBounds myStrippedBounds parts := by
  intro h
  obtain ⟨-, fuel, hfuel⟩ :=
    h [.array ⟨['(', '2', ')', '+', '1'], by decide⟩, .other ['c', 'h', 'a', 'r']]
  cases fuel with
  | zero => cases hfuel
  | succ fuel =>
      cases fuel with
      | zero => cases hfuel
      | succ fuel => cases hfuel

end Swig4Ada.Ada

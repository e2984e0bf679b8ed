import Swig4Ada.Lib.Unbroken
import Swig4Ada.Proofs.Qualifiers
import Swig4Ada.Swig.TypeParts

/-!
# Types as sequences of elements

An element is a text that is not empty and has no dot outside of its parentheses, whatever is
in them. A type is a sequence of elements with a dot behind each but the last, which may have
one. Pushing builds exactly these texts, and splitting and popping read the elements back,
because each of them goes past parentheses as a whole.

Between the parentheses of a function or a template stands a sequence of the same kind with
commas, and a parameter may be any text without a comma outside of its own parentheses.
-/

namespace Swig4Ada.Swig

open Swig4Ada.Lib Swig4Ada.Ada

/-! ## Elements -/

instance (l : List Char) : Decidable (Unbroken '.' '(' ')' l) :=
  decidable_of_iff _ (unbroken_iff_take (by decide) (by decide)).symm

instance (l : List Char) : Decidable (Unbroken ',' '(' ')' l) :=
  decidable_of_iff _ (unbroken_iff_take (by decide) (by decide)).symm

/-- An element without the dot behind it. -/
structure TypePart where
  text : List Char
  nonempty : text ≠ []
  unbroken : Unbroken '.' '(' ')' text

/-- The text of an element as it is pushed. -/
def TypePart.pushed (e : TypePart) (dotted : Bool) : List Char :=
  if dotted then e.text ++ ['.'] else e.text

/-- The text without a dot at its end. -/
def undotted (l : List Char) : List Char :=
  if l.getLast? = some '.' then l.dropLast else l

/-- The elements pushed from the last one to the first. -/
def pushAll (es : List (TypePart × Bool)) : List Char :=
  es.foldr (fun e t => swigTypePush t (e.1.pushed e.2)) []

/-- The elements that popping gives until the type is empty. -/
inductive Pops : List Char → List (List Char) → Prop
  | done : Pops [] []
  | step {t e rest : List Char} {es : List (List Char)} :
      swigTypePop t = some (e, rest) → Pops rest es → Pops t (e :: es)

/-- The elements of a type as they stand in it: all have a dot but the last, which has one
where `dotted` says so. -/
def writtenParts (dotted : Bool) : List TypePart → List (List Char)
  | [] => []
  | [e] => [e.pushed dotted]
  | e :: f :: es => e.pushed true :: writtenParts dotted (f :: es)

def partsText (dotted : Bool) (es : List TypePart) : List Char := (writtenParts dotted es).flatten

/-- No element of the type is empty: no dot stands at its beginning or behind another dot,
outside of parentheses that nest. -/
structure IsTypeText (t : List Char) : Prop where
  balanced : Balanced '(' ')' t
  nonempty : ∀ u w, t = u ++ '.' :: w → Balanced '(' ')' u → u ≠ [] ∧ u.getLast? ≠ some '.'

namespace TypePart

variable (e : TypePart) (dotted : Bool)

theorem text_getLast? : e.text.getLast? ≠ some '.' := e.unbroken.getLast?_ne (by decide)

theorem text_head? (rest : List Char) : (e.text ++ rest).head? ≠ some '.' := by
  rw [List.head?_append_of_ne_nil _ e.nonempty]
  exact e.unbroken.head?_ne (by decide)

theorem pushed_ne_nil : e.pushed dotted ≠ [] := by
  cases dotted with
  | false => exact e.nonempty
  | true => exact List.append_ne_nil_of_right_ne_nil _ (List.cons_ne_nil _ _)

theorem undotted_text : undotted e.text = e.text := if_neg e.text_getLast?

theorem undotted_dot (l : List Char) : undotted (l ++ ['.']) = l := by
  rw [undotted, if_pos List.getLast?_concat, List.dropLast_concat]

theorem undotted_pushed : undotted (e.pushed dotted) = e.text := by
  cases dotted with
  | false => exact e.undotted_text
  | true => exact undotted_dot e.text

end TypePart

variable {l t rest : List Char}

theorem delEnds_unbroken (h : Unbroken '.' '(' ')' l) (hrest : DelEnds t rest) :
    DelEnds (l ++ t) rest := by
  induction h with
  | nil => exact hrest
  | other hdot hopen _ _ ih => exact DelEnds.other hdot hopen ih
  | nested hu _ ih =>
      rw [List.cons_append, List.append_assoc, List.cons_append]
      exact DelEnds.parens hu ih

/-- An element is gone past with its dot, or it is the last one. -/
theorem TypePart.delEnds (e : TypePart) {dotted : Bool} (h : dotted = true ∨ rest = []) :
    DelEnds (e.pushed dotted ++ rest) rest := by
  cases dotted with
  | false =>
      obtain rfl := h.resolve_left Bool.false_ne_true
      exact delEnds_unbroken e.unbroken DelEnds.nil
  | true =>
      rw [pushed, if_pos rfl, List.append_assoc]
      exact delEnds_unbroken e.unbroken (DelEnds.dot rest)

/-- One call of `SwigType_pop`. -/
theorem swigTypePop_element {e : List Char} (hne : e ≠ []) (hrest : rest.head? ≠ some '.')
    (h : DelEnds (e ++ rest) rest) : swigTypePop (e ++ rest) = some (e, rest) := by
  have hafter : afterElement (e ++ rest) = rest := h _ (Nat.lt_succ_self _)
  rw [swigTypePop, if_neg (List.append_ne_nil_of_left_ne_nil hne rest), hafter]
  dsimp only
  rw [if_neg hrest, List.length_append, Nat.add_sub_cancel, List.take_left]

theorem partsText_head? (dotted : Bool) (es : List TypePart) :
    (partsText dotted es).head? ≠ some '.' := by
  have hpushed : ∀ (e : TypePart) (d : Bool) (rest : List Char),
      (e.pushed d ++ rest).head? ≠ some '.' := by
    intro e d rest
    cases d with
    | false => exact e.text_head? rest
    | true =>
        rw [TypePart.pushed, if_pos rfl, List.append_assoc]
        exact e.text_head? _
  match es with
  | [] => exact nofun
  | [e] => exact hpushed e dotted []
  | e :: f :: es => exact hpushed e true _

theorem partsText_ne_nil (dotted : Bool) {es : List TypePart} (h : es ≠ []) :
    partsText dotted es ≠ [] := by
  match es with
  | [] => exact absurd rfl h
  | [e] => exact List.append_ne_nil_of_left_ne_nil (e.pushed_ne_nil dotted) _
  | e :: f :: es => exact List.append_ne_nil_of_left_ne_nil (e.pushed_ne_nil true) _

/-! ## Reading the elements back -/

theorem swigTypeSplit_parts {dotted : Bool} (es : List TypePart) {fuel : Nat}
    (hfuel : (partsText dotted es).length ≤ fuel) :
    swigTypeSplit fuel (partsText dotted es) = writtenParts dotted es := by
  have hnil : ∀ fuel, swigTypeSplit fuel [] = [] := by
    intro fuel
    cases fuel <;> rfl
  have hpos : ∀ (e : TypePart) (d : Bool), 0 < (e.pushed d).length := fun e d =>
    List.length_pos_of_ne_nil (e.pushed_ne_nil d)
  induction es generalizing fuel with
  | nil => exact hnil fuel
  | cons e es ih =>
      cases es with
      | nil =>
          have hone := swigTypeSplit_element [] (e.pushed_ne_nil dotted) (by simp)
            (e.delEnds (Or.inr rfl)) (fuel - 1)
          have hlen := hpos e dotted
          rw [partsText, writtenParts, List.flatten_singleton] at hfuel
          rw [hnil, List.append_nil, Nat.sub_add_cancel (by omega)] at hone
          rw [partsText, writtenParts, List.flatten_singleton]
          exact hone
      | cons f es =>
          have hone := swigTypeSplit_element (partsText dotted (f :: es)) (e.pushed_ne_nil true)
            (partsText_head? dotted _) (e.delEnds (Or.inl rfl)) (fuel - 1)
          have hlen := hpos e true
          rw [partsText, writtenParts, List.flatten_cons, List.length_append] at hfuel
          rw [Nat.sub_add_cancel (by omega)] at hone
          rw [partsText, writtenParts, List.flatten_cons]
          exact hone.trans (by rw [ih (by rw [partsText]; omega)])

theorem pops_parts (dotted : Bool) (es : List TypePart) :
    Pops (partsText dotted es) (writtenParts dotted es) := by
  induction es with
  | nil => exact Pops.done
  | cons e es ih =>
      cases es with
      | nil =>
          have hone := swigTypePop_element (e.pushed_ne_nil dotted) (by simp)
            (e.delEnds (Or.inr rfl))
          rw [List.append_nil] at hone
          rw [partsText, writtenParts, List.flatten_singleton]
          exact Pops.step hone Pops.done
      | cons f es =>
          rw [partsText, writtenParts, List.flatten_cons]
          exact Pops.step (swigTypePop_element (e.pushed_ne_nil true) (partsText_head? dotted _)
            (e.delEnds (Or.inl rfl))) ih

theorem undotted_written (dotted : Bool) (es : List TypePart) :
    (writtenParts dotted es).map undotted = es.map TypePart.text := by
  induction es with
  | nil => rfl
  | cons e es ih =>
      cases es with
      | nil =>
          rw [writtenParts, List.map_singleton, e.undotted_pushed]
          rfl
      | cons f es =>
          rw [writtenParts, List.map_cons, ih, e.undotted_pushed]
          rfl

/-! ## Pushing -/

theorem swigTypePush_nil (e : TypePart) (dotted : Bool) :
    swigTypePush [] (e.pushed dotted) = e.pushed dotted := by
  rw [swigTypePush, if_neg (e.pushed_ne_nil dotted), if_neg fun h => h.1 rfl, List.append_nil]

/-- In front of other elements an element gets a dot when it has none. -/
theorem swigTypePush_cons (e : TypePart) (dotted : Bool) (ht : t ≠ []) :
    swigTypePush t (e.pushed dotted) = e.pushed true ++ t := by
  rw [swigTypePush, if_neg (e.pushed_ne_nil dotted)]
  cases dotted with
  | false =>
      rw [if_pos ⟨ht, e.text_getLast?⟩, TypePart.pushed, TypePart.pushed, if_pos rfl,
        if_neg Bool.false_ne_true, List.append_assoc]
      rfl
  | true =>
      rw [if_neg]
      rw [TypePart.pushed, if_pos rfl]
      exact fun h => h.2 List.getLast?_concat

theorem pushAll_eq (es : List (TypePart × Bool)) :
    ∃ dotted, pushAll es = partsText dotted (es.map Prod.fst) := by
  induction es with
  | nil => exact ⟨false, rfl⟩
  | cons e es ih =>
      obtain ⟨dotted, hrest⟩ := ih
      cases es with
      | nil =>
          refine ⟨e.2, ?_⟩
          rw [pushAll, List.foldr_cons, List.foldr_nil, swigTypePush_nil]
          exact (List.flatten_singleton).symm
      | cons f es =>
          have hne := partsText_ne_nil dotted (List.cons_ne_nil f.1 (es.map Prod.fst))
          exact ⟨dotted, by
            rw [pushAll, List.foldr_cons, ← pushAll, hrest, List.map_cons,
              swigTypePush_cons _ _ hne]
            rfl⟩
/-! ## Well-formed texts -/

theorem IsTypeText.parts (h : IsTypeText t) : ∃ dotted es, t = partsText dotted es := by
  obtain ⟨n, hn⟩ : ∃ n, t.length = n := ⟨_, rfl⟩
  induction n using Nat.strong_induction_on generalizing t with
  | _ n ih =>
      rcases h.balanced.unbroken_or '.' (by decide) with hwhole | ⟨u, w, rfl, hu⟩
      · by_cases hnil : t = []
        · exact ⟨false, [], hnil⟩
        · exact ⟨false, [⟨t, hnil, hwhole⟩], (List.flatten_singleton).symm⟩
      · have hbalanced := hu.balanced (by decide)
        let e : TypePart := ⟨u, (h.nonempty u w rfl hbalanced).1, hu⟩
        by_cases hnil : w = []
        · exact ⟨true, [e], by rw [hnil]; exact (List.flatten_singleton).symm⟩
        · have hw : Balanced '(' ')' w := by
            have := h.balanced
            rw [Lib.Balanced, nesting_append, hbalanced] at this
            exact this
          have hrest : IsTypeText w := by
            refine ⟨hw, fun a b hab ha => ?_⟩
            have hdot : Balanced '(' ')' (u ++ '.' :: a) :=
              balanced_append hbalanced ((balanced_cons (by decide) (by decide)).2 ha)
            have hlast := (h.nonempty (u ++ '.' :: a) b (by
              rw [hab, List.append_assoc, List.cons_append]) hdot).2
            cases a with
            | nil => exact absurd List.getLast?_concat hlast
            | cons x a =>
                refine ⟨List.cons_ne_nil _ _, ?_⟩
                rwa [List.getLast?_append_of_ne_nil _ (List.cons_ne_nil _ _),
                  List.getLast?_cons_cons] at hlast
          rw [List.length_append, List.length_cons] at hn
          obtain ⟨dotted, es, rfl⟩ := ih w.length (by omega) hrest rfl
          cases es with
          | nil => exact absurd rfl hnil
          | cons f es =>
              refine ⟨dotted, e :: f :: es, ?_⟩
              rw [partsText, partsText, writtenParts, List.flatten_cons, TypePart.pushed,
                if_pos rfl, List.append_assoc]
              rfl

theorem IsTypeText.nil : IsTypeText [] where
  balanced := rfl
  nonempty := fun u _ h _ =>
    absurd h.symm (List.append_ne_nil_of_right_ne_nil u (List.cons_ne_nil _ _))

theorem IsTypeText.single (e : TypePart) : IsTypeText e.text where
  balanced := e.unbroken.balanced (by decide)
  nonempty := fun _ _ h hu =>
    absurd hu (e.unbroken.not_balanced (by decide) (by decide) h)

theorem IsTypeText.cons (e : TypePart) (ht : IsTypeText t) :
    IsTypeText (e.text ++ '.' :: t) where
  balanced := balanced_append (e.unbroken.balanced (by decide))
    ((balanced_cons (by decide) (by decide)).2 ht.balanced)
  nonempty := by
    intro u w h hu
    rcases List.append_eq_append_iff.1 h with ⟨a, rfl, ha⟩ | ⟨a, ha, hw⟩
    · -- the dot is that of the element or one behind it
      cases a with
      | nil =>
          rw [List.append_nil]
          exact ⟨e.nonempty, e.text_getLast?⟩
      | cons x a =>
          obtain ⟨rfl, hrest⟩ := List.cons.inj ha
          have hbalanced : Balanced '(' ')' a := by
            rw [Lib.Balanced, nesting_append, e.unbroken.balanced (by decide)] at hu
            exact (balanced_cons (by decide) (by decide)).1 hu
          obtain ⟨hne, hlast⟩ := ht.nonempty a w hrest hbalanced
          refine ⟨List.append_ne_nil_of_right_ne_nil _ (List.cons_ne_nil _ _), ?_⟩
          rwa [List.getLast?_append_of_ne_nil _ (List.cons_ne_nil _ _),
            List.getLast?_cons_of_ne_nil hne]
    · cases a with
      | nil =>
          rw [List.append_nil] at ha
          rw [← ha]
          exact ⟨e.nonempty, e.text_getLast?⟩
      | cons x a =>
          obtain ⟨rfl, -⟩ := List.cons.inj hw
          exact absurd hu (e.unbroken.not_balanced (by decide) (by decide) ha)

theorem isTypeText_parts (dotted : Bool) (es : List TypePart) :
    IsTypeText (partsText dotted es) := by
  have hdot : ∀ (e : TypePart) (rest : List Char), e.pushed true ++ rest = e.text ++ '.' :: rest :=
    fun e rest => List.append_assoc e.text ['.'] rest
  induction es with
  | nil => exact IsTypeText.nil
  | cons e es ih =>
      cases es with
      | nil =>
          rw [partsText, writtenParts, List.flatten_singleton]
          cases dotted with
          | false => exact IsTypeText.single e
          | true =>
              have h := IsTypeText.cons e IsTypeText.nil
              rwa [← hdot, List.append_nil] at h
      | cons f es =>
          rw [partsText, writtenParts, List.flatten_cons, hdot]
          exact IsTypeText.cons e ih

/-- What was pushed is split and popped in the order of the elements, and splitting loses
nothing of a well-formed type. -/
theorem pushAll_read (es : List (TypePart × Bool)) :
    (swigTypeSplit (pushAll es).length (pushAll es)).map undotted = es.map (·.1.text) ∧
      (∃ popped, Pops (pushAll es) popped ∧ popped.map undotted = es.map (·.1.text)) ∧
      ∀ t, IsTypeText t → (swigTypeSplit t.length t).flatten = t := by
  obtain ⟨dotted, hpushed⟩ := pushAll_eq es
  have htexts : (writtenParts dotted (es.map Prod.fst)).map undotted = es.map (·.1.text) := by
    rw [undotted_written, List.map_map]
    rfl
  refine ⟨?_, ⟨writtenParts dotted (es.map Prod.fst), ?_, htexts⟩, ?_⟩
  · rw [hpushed, swigTypeSplit_parts _ (Nat.le_refl _), htexts]
  · rw [hpushed]
    exact pops_parts dotted _
  · intro t ht
    obtain ⟨dotted, es, rfl⟩ := ht.parts
    rw [swigTypeSplit_parts _ (Nat.le_refl _), partsText]

/-- `a(1.5)`, which has a dot in its parentheses. -/
def dottedArray : TypePart := ⟨['a', '(', '1', '.', '5', ')'], by decide, by decide⟩

/-- `Foo<(p.int)>`. -/
def pointerTemplate : TypePart :=
  ⟨['F', 'o', 'o', '<', '(', 'p', '.', 'i', 'n', 't', ')', '>'], by decide, by decide⟩

theorem dottedArray_read :
    (swigTypeSplit 19 (pushAll [(dottedArray, false), (pointerTemplate, true)])).map undotted =
        [dottedArray.text, pointerTemplate.text] ∧
      (swigTypeSplit 19 "a(1.5).Foo<(p.int)>".toList).flatten = "a(1.5).Foo<(p.int)>".toList :=
  have h := pushAll_read [(dottedArray, false), (pointerTemplate, true)]
  ⟨h.1, h.2.2 "a(1.5).Foo<(p.int)>".toList
    (isTypeText_parts false [dottedArray, pointerTemplate])⟩

/-! ## Parentheses -/

theorem parmText_of_nesting {n k : Nat} (rest : List Char)
    (h : nesting '(' ')' n l = some k) : parmText n (l ++ rest) = l ++ parmText k rest := by
  induction l generalizing n with
  | nil =>
      obtain rfl : n = k := by simpa using h
      rfl
  | cons x l ih =>
      by_cases hx : x = ')'
      · cases n with
        | zero =>
            rw [hx, nesting_closed] at h
            cases h
        | succ n =>
            rw [hx, nesting_closing] at h
            rw [List.cons_append, parmText, if_pos hx, ih h]
            rfl
      · rw [nesting_other hx] at h
        cases n with
        | zero =>
            rw [List.cons_append, parmText, if_neg hx, ih h]
            rfl
        | succ n =>
            rw [List.cons_append, parmText, if_neg hx, ih h]
            rfl

/-- What `SwigType_parm` takes is what stands in the first parentheses. -/
theorem parmText_balanced (h : Balanced '(' ')' l) (rest : List Char) :
    parmText 0 (l ++ ')' :: rest) = l := by
  rw [parmText_of_nesting _ h, parmText, if_pos rfl, List.append_nil]

theorem swigTypeParm_open {name : List Char} (hname : ∀ x ∈ name, x ≠ '(' ∧ x ≠ '.')
    (h : Balanced '(' ')' l) (rest : List Char) :
    swigTypeParm (name ++ '(' :: (l ++ ')' :: rest)) = some l := by
  have hdrop : (name ++ '(' :: (l ++ ')' :: rest)).dropWhile (fun x => x ≠ '(' && x ≠ '.') =
      '(' :: (l ++ ')' :: rest) := by
    rw [List.dropWhile_append_of_pos fun x hx => by simpa using hname x hx]
    rfl
  rw [swigTypeParm, hdrop]
  dsimp only
  rw [if_neg (by decide), parmText_balanced h]

/-! ## Parameters

A parameter is read up to a comma or a parenthesis that it did not open. -/

/-- A text that can stand between commas: a type, or a value. -/
structure IsParameter (l : List Char) : Prop where
  nonempty : l ≠ []
  unbroken : Unbroken ',' '(' ')' l

theorem parmlistLoop_nested {n k : Nat} {u item : List Char} (rest : List Char)
    (h : nesting '(' ')' n u = some k) :
    parmlistLoop (n + 1) item (u ++ rest) = parmlistLoop (k + 1) (item ++ u) rest := by
  induction u generalizing n item with
  | nil =>
      obtain rfl : n = k := by simpa using h
      rw [List.nil_append, List.append_nil]
  | cons x u ih =>
      have hstep : item ++ x :: u = (item ++ [x]) ++ u := by
        rw [List.append_assoc]
        rfl
      rw [List.cons_append, parmlistLoop, hstep]
      by_cases hx : x = ')'
      · cases n with
        | zero =>
            rw [hx, nesting_closed] at h
            cases h
        | succ n =>
            rw [hx, nesting_closing] at h
            rw [if_neg (by rw [hx]; decide), if_pos hx]
            exact ih h
      · rw [nesting_other hx] at h
        by_cases ho : x = '('
        · rw [if_pos ho] at h ⊢
          exact ih h
        · rw [if_neg ho] at h
          rw [if_neg ho, if_neg hx]
          exact ih h

theorem parmlistLoop_unbroken {item : List Char} (rest : List Char)
    (h : Unbroken ',' '(' ')' l) :
    parmlistLoop 0 item (l ++ rest) = parmlistLoop 0 (item ++ l) rest := by
  induction h generalizing item with
  | nil => rw [List.nil_append, List.append_nil]
  | @other x l hcomma hopen hclose _ ih =>
      rw [List.cons_append, parmlistLoop, if_neg hcomma, if_neg hopen, if_neg hclose, ih,
        List.append_assoc]
      rfl
  | @nested u l hu _ ih =>
      rw [List.cons_append, List.append_assoc, List.cons_append, parmlistLoop,
        if_neg (by decide), if_pos rfl, parmlistLoop_nested _ hu, parmlistLoop, if_neg (by decide),
        if_pos rfl, ih]
      simp only [List.append_assoc, List.cons_append, List.nil_append]

/-- A parameter ends at the comma behind it, or at the parenthesis. -/
theorem parmlistLoop_close {item : List Char} (h : item ≠ []) (rest : List Char) :
    parmlistLoop 0 item (')' :: rest) = [item] := by
  rw [parmlistLoop, if_neg (by decide), if_neg (by decide), if_pos rfl, if_neg h]

theorem parmlistLoop_joined {items : List (List Char)} (h : ∀ i ∈ items, IsParameter i)
    (rest : List Char) :
    parmlistLoop 0 [] ([','].intercalate items ++ ')' :: rest) = items := by
  induction items with
  | nil => rfl
  | cons i items ih =>
      obtain ⟨hne, hi⟩ := h i List.mem_cons_self
      cases items with
      | nil =>
          rw [List.intercalate_singleton, parmlistLoop_unbroken _ hi, List.nil_append,
            parmlistLoop_close hne]
      | cons j items =>
          rw [List.intercalate_cons_cons, List.append_assoc, List.append_assoc,
            parmlistLoop_unbroken _ hi, List.nil_append, List.cons_append, parmlistLoop,
            if_pos rfl, List.nil_append, ih fun k hk => h k (List.mem_cons_of_mem _ hk)]

theorem functionParms_eq (parms : List TypeParm) :
    functionParms parms = [','].intercalate (parms.map TypeParm.type) := by
  induction parms with
  | nil => rfl
  | cons p parms ih =>
      cases parms with
      | nil => rw [functionParms, List.map_singleton, List.intercalate_singleton]
      | cons q parms =>
          have hjoin : [','].intercalate (p.type :: q.type :: parms.map TypeParm.type) =
              p.type ++ ',' :: [','].intercalate (q.type :: parms.map TypeParm.type) := by
            rw [List.intercalate_cons_cons, List.append_assoc]
            rfl
          rw [functionParms, ih]
          exact hjoin.symm

/-- Behind the first parameter, each that has no default has a comma in front of it. -/
theorem templateParms_later (parms : List TypeParm) :
    templateParms false parms =
      ((parms.filter (·.default.isNone)).map TypeParm.argument).flatMap (',' :: ·) := by
  induction parms with
  | nil => rfl
  | cons p parms ih =>
      rw [templateParms]
      cases hp : p.default with
      | some d => rw [List.filter_cons_of_neg (by simp [hp]), ← ih]; rfl
      | none =>
          rw [List.filter_cons_of_pos (by simp [hp]), List.map_cons, List.flatMap_cons, ← ih]
          rfl

theorem intercalate_comma (i : List Char) (items : List (List Char)) :
    [','].intercalate (i :: items) = i ++ items.flatMap (',' :: ·) := by
  induction items generalizing i with
  | nil => rw [List.intercalate_singleton, List.flatMap_nil, List.append_nil]
  | cons j items ih =>
      rw [List.intercalate_cons_cons, ih, List.flatMap_cons, List.append_assoc]
      rfl

/-- The arguments are joined where the first parameter has no default: otherwise a comma would
stand in front of them. -/
theorem templateParms_eq {p : TypeParm} {parms : List TypeParm} (h : p.default = none) :
    templateParms true (p :: parms) =
      [','].intercalate (((p :: parms).filter (·.default.isNone)).map TypeParm.argument) := by
  rw [templateParms, if_neg (by simp [h]), templateParms_later,
    List.filter_cons_of_pos (by simp [h]), List.map_cons, intercalate_comma]
  rfl

theorem swigTypeParmlist_open {name rest : List Char} (h : ∀ x ∈ name, x ≠ '(' ∧ x ≠ '.') :
    swigTypeParmlist (name ++ '(' :: rest) = some (some (parmlistLoop 0 [] rest)) := by
  have hdrop : (name ++ '(' :: rest).dropWhile (fun x => x ≠ '(' && x ≠ '.') = '(' :: rest := by
    rw [List.dropWhile_append_of_pos fun x hx => by simpa using h x hx]
    rfl
  rw [swigTypeParmlist, hdrop]
  rfl

/-- What `SwigType_add_template` puts behind a name. -/
def templateArguments (parms : List TypeParm) : List Char := swigTypeAddTemplate [] parms

theorem swigTypeParmlist_template {parms : List TypeParm}
    (h : ∀ p ∈ parms, p.default = none → IsParameter p.argument)
    (hfirst : ∀ p, parms.head? = some p → p.default = none) :
    swigTypeParmlist (templateArguments parms) =
      some (some ((parms.filter (·.default.isNone)).map TypeParm.argument)) := by
  have hopen : templateArguments parms = ['<'] ++ '(' :: (templateParms true parms ++ [')', '>']) := by
    simp [templateArguments, swigTypeAddTemplate]
  rw [hopen, swigTypeParmlist_open (by simp)]
  cases parms with
  | nil => rfl
  | cons p parms =>
      rw [templateParms_eq (hfirst p rfl), parmlistLoop_joined]
      intro i hi
      obtain ⟨q, hq, rfl⟩ := List.mem_map.1 hi
      obtain ⟨hmem, hnone⟩ := List.mem_filter.1 hq
      exact h q hmem (by simpa using hnone)

/-- The list of parameters is read back from a function type, and from the arguments of a
template when no parameter has a default. -/
theorem swigTypeParmlist_added {parms : List TypeParm} (t : List Char) :
    ((∀ p ∈ parms, IsParameter p.type) →
      swigTypeParmlist (swigTypeAddFunction t parms) =
        some (some (parms.map TypeParm.type))) ∧
    ((∀ p ∈ parms, p.default = none ∧ IsParameter p.argument) →
      swigTypeParmlist (templateArguments parms) =
        some (some (parms.map TypeParm.argument))) := by
  refine ⟨fun h => ?_, fun h => ?_⟩
  · have hopen : swigTypeAddFunction t parms =
        ['f'] ++ '(' :: (functionParms parms ++ ')' :: ('.' :: t)) := by
      simp [swigTypeAddFunction]
    rw [hopen, swigTypeParmlist_open (by simp), functionParms_eq, parmlistLoop_joined]
    intro i hi
    obtain ⟨p, hp, rfl⟩ := List.mem_map.1 hi
    exact h p hp
  · have hall : parms.filter (·.default.isNone) = parms :=
      List.filter_eq_self.2 fun p hp => by rw [(h p hp).1]; rfl
    rw [swigTypeParmlist_template (fun p hp _ => (h p hp).2)
      (fun p hp => (h p (List.mem_of_head? hp)).1), hall]

/-- `f(f(int,char).void,Foo<(int,char)>)` and `<(f(int,char).void,Foo<(int,char)>)>`. -/
theorem nestedParms_read :
    let parms : List TypeParm := [⟨"f(int,char).void".toList, none, none⟩,
      ⟨"Foo<(int,char)>".toList, none, none⟩]
    swigTypeParmlist (swigTypeAddFunction ['i', 'n', 't'] parms) =
        some (some ["f(int,char).void".toList, "Foo<(int,char)>".toList]) ∧
      swigTypeParmlist (templateArguments parms) =
        some (some ["f(int,char).void".toList, "Foo<(int,char)>".toList]) := by
  intro parms
  have htypes : ∀ p ∈ parms, p.default = none ∧ IsParameter p.type := by
    intro p hp
    rcases List.mem_pair.1 hp with rfl | rfl
    · exact ⟨rfl, ⟨by decide, by decide⟩⟩
    · exact ⟨rfl, ⟨by decide, by decide⟩⟩
  have h := @swigTypeParmlist_added parms ['i', 'n', 't']
  refine ⟨h.1 fun p hp => (htypes p hp).2, h.2 fun p hp => ?_⟩
  rcases List.mem_pair.1 hp with rfl | rfl
  · exact htypes _ hp
  · exact htypes _ hp

end Swig4Ada.Swig

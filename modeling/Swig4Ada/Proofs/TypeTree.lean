import Swig4Ada.Proofs.ScopeName
import Swig4Ada.Proofs.TypeParts
import Swig4Ada.Swig.TypeTree

/-!
# Reading the text of a type

The functions that take a type apart read its tree again: the elements, the parameters of a
function and the arguments of a template stand in the text where the tree has them.
-/

namespace Swig4Ada.Swig

open Lib Doh Ada

/-! ## Characters -/

/-- A character that is not special in a type. -/
def NameChar (c : Char) : Prop := c ∉ ['.', ',', '(', ')', '<', '>']

def NameText (l : List Char) : Prop := ∀ c ∈ l, NameChar c

section Texts

variable {l m : List Char}

theorem NameText.append (hl : NameText l) (hm : NameText m) : NameText (l ++ m) := by
  intro c hc
  rcases List.mem_append.1 hc with hc | hc
  · exact hl c hc
  · exact hm c hc

theorem NameText.not_mem (h : NameText l) {c : Char} (hc : c ∈ ['.', ',', '(', ')', '<', '>']) :
    c ∉ l := fun hmem => h c hmem hc

theorem NameText.unbroken (h : NameText l) {sep : Char}
    (hsep : sep ∈ ['.', ',', '(', ')', '<', '>']) : Unbroken sep '(' ')' l := by
  refine Unbroken.of_not_mem fun x hx => ⟨?_, ?_, ?_⟩
  · rintro rfl
    exact h x hx hsep
  · rintro rfl
    exact h '(' hx (by simp)
  · rintro rfl
    exact h ')' hx (by simp)

end Texts

theorem ScopePart.text_chars (p : ScopePart) :
    ∀ c ∈ p.text, c ∉ ['.', ',', '(', ')', '<', '>', ':'] := by
  intro c hc hmem
  rcases p.chars c hc with h | rfl | rfl
  · have hall : ['.', ',', '(', ')', '<', '>', ':'].all (!isIdentifierChar ·) = true := by decide
    have hno := List.all_eq_true.1 hall c hmem
    rw [h] at hno
    cases hno
  · exact absurd hmem (by decide)
  · exact absurd hmem (by decide)

theorem ScopePart.nameText (p : ScopePart) : NameText p.text :=
  fun c hc hmem => p.text_chars c hc (List.mem_append_left [':'] hmem)

theorem ScopePart.no_colon (p : ScopePart) : ':' ∉ p.text := fun h => p.text_chars ':' h (by simp)

theorem moreText_nameText (more : List ScopePart) : NameText (moreText more) := by
  intro c hc
  obtain ⟨p, _, hp⟩ := List.mem_flatMap.1 hc
  rcases List.mem_cons.1 hp with rfl | hp
  · exact fun h => absurd h (by decide)
  rcases List.mem_cons.1 hp with rfl | hp
  · exact fun h => absurd h (by decide)
  · exact p.nameText c hp

theorem colonsIf_nameText (leading : Bool) : NameText (colonsIf leading) := by
  cases leading with
  | false => exact fun c hc => absurd hc List.not_mem_nil
  | true =>
      intro c hc hmem
      rcases List.mem_pair.1 hc with rfl | rfl
      · exact absurd hmem (by decide)
      · exact absurd hmem (by decide)

theorem pathText_nameText (leading : Bool) (first : ScopePart) (more : List ScopePart) :
    NameText (pathText leading first more) :=
  ((colonsIf_nameText leading).append first.nameText).append (moreText_nameText more)

theorem pathText_ne_nil (leading : Bool) (first : ScopePart) (more : List ScopePart) :
    pathText leading first more ≠ [] :=
  List.append_ne_nil_of_left_ne_nil (List.append_ne_nil_of_right_ne_nil _ first.nonempty) _

/-! ## Words -/

theorem markLiterals_map (state : Option (Char × Bool)) (text : List Char) :
    (markLiterals state text).map Prod.fst = text := by
  induction text generalizing state with
  | nil => rw [markLiterals, List.map_nil]
  | cons c rest ih =>
      cases state with
      | none =>
          rw [markLiterals]
          split
          · rw [List.map_cons, ih]
          · rw [List.map_cons, ih]
      | some state => rw [markLiterals, List.map_cons, ih]

/-- The words of a text, literals or not. -/
theorem literalWords_map (text : List Char) :
    (literalWords text).map Prod.fst = Lib.words isIdentifierChar text := by
  have hwords := @words_map _ isIdentifierChar _ Prod.fst (markLiterals none text)
  rw [markLiterals_map] at hwords
  rw [hwords, literalWords, List.map_map]
  rfl

theorem literalWords_flatMap (f : List Char → List Char) (text : List Char) :
    ((literalWords text).flatMap fun x => f x.1) = (Lib.words isIdentifierChar text).flatMap f := by
  rw [← literalWords_map, List.flatMap_map]

namespace Writing

variable (w : Writing)

@[simp] theorem words_plain (inLiterals : Bool) (text : List Char) :
    w.words false inLiterals text = text := by
  have hplain : w.words false inLiterals text = (literalWords text).flatMap fun x => id x.1 :=
    List.flatMap_congr fun x _ => if_neg fun h => Bool.false_ne_true h.1.1
  rw [hplain, literalWords_flatMap, List.flatMap_id, words_flatten]

/-- In literals and outside of them it is every word that is replaced. -/
theorem words_all (text : List Char) :
    w.words true true text = replaceWord isIdentifierChar w.pat w.rep text := by
  have hall : w.words true true text =
      (literalWords text).flatMap fun x => if x.1 = w.pat then w.rep else x.1 := by
    refine List.flatMap_congr fun x _ => if_congr ?_ rfl rfl
    exact and_iff_right ⟨rfl, fun _ => rfl⟩
  rw [hall, literalWords_flatMap fun v => if v = w.pat then w.rep else v]
  rfl

end Writing

/-! ## How trees are written -/

/-- The replacement is a name without arguments. -/
def PlainName (rep : List Char) : Prop := rep ≠ [] ∧ NameText rep

namespace Writing

variable (pat rep : List Char)

@[simp] theorem plain_path (leading : Bool) (first : ScopePart) (more : List ScopePart) :
    (plain pat rep).path leading first more = pathText leading first more :=
  if_neg fun h => Bool.false_ne_true h.1

@[simp] theorem plain_templateName (leading : Bool) (first : ScopePart) (more : List ScopePart) :
    (plain pat rep).templateName leading first more = pathText leading first more :=
  if_neg fun h => Bool.false_ne_true h.1

@[simp] theorem plain_letter : (plain pat rep).letter = ['a'] :=
  if_neg fun h => Bool.false_ne_true h.1

variable {pat rep} {w : Writing}

/-- What is written is well formed when the replacement is, and always when there is none. -/
structure Sound (w : Writing) : Prop where
  path : ∀ leading first more, w.path leading first more ≠ [] ∧
    NameText (w.path leading first more)
  templateName : ∀ leading first more, NameText (w.templateName leading first more)
  expr : ∀ e : ExprText, w.words w.exprs false e.text ≠ [] ∧
    ∀ sep ∈ ['.', ','], Unbroken sep '(' ')' (w.words w.exprs false e.text)
  other : ∀ e : OtherExpr, w.words w.exprs false e.text ≠ [] ∧
    Unbroken ',' '(' ')' (w.words w.exprs false e.text)
  dim : ∀ d : Dimension, Lib.Balanced '(' ')' (w.words w.dims w.literals d.text)
  letter : NameText w.letter

end Writing

theorem ExprText.unbroken_dot (e : ExprText) : Unbroken '.' '(' ')' e.text := by
  refine (unbroken_iff (by decide) (by decide)).2
    ⟨e.unbroken.balanced (by decide), fun u v huv => ?_⟩
  have hmem : '.' ∈ e.text := by rw [huv]; exact List.mem_append_right u List.mem_cons_self
  exact absurd List.mem_cons_self (e.chars '.' hmem)

theorem ExprText.unbroken_sep (e : ExprText) : ∀ sep ∈ ['.', ','], Unbroken sep '(' ')' e.text := by
  intro sep hsep
  rcases List.mem_pair.1 hsep with rfl | rfl
  · exact e.unbroken_dot
  · exact e.unbroken

theorem ExprText.text_ne_nil (e : ExprText) : e.text ≠ [] := by
  obtain ⟨c, hc, _⟩ := e.notName
  exact List.ne_nil_of_mem hc

theorem OtherExpr.text_ne_nil (e : OtherExpr) : e.text ≠ [] := by
  obtain ⟨c, hc, _⟩ := e.notName
  exact List.ne_nil_of_mem hc

theorem Writing.plain_sound (pat rep : List Char) : (Writing.plain pat rep).Sound where
  path leading first more := by
    rw [Writing.plain_path]
    exact ⟨pathText_ne_nil _ _ _, pathText_nameText _ _ _⟩
  templateName leading first more := by
    rw [Writing.plain_templateName]
    exact pathText_nameText _ _ _
  expr e := by
    rw [show (plain pat rep).exprs = false from rfl, words_plain]
    exact ⟨e.text_ne_nil, e.unbroken_sep⟩
  other e := by
    rw [show (plain pat rep).exprs = false from rfl, words_plain]
    exact ⟨e.text_ne_nil, e.unbroken⟩
  dim d := by
    rw [show (plain pat rep).dims = false from rfl, words_plain]
    exact d.balanced
  letter := by
    rw [Writing.plain_letter]
    intro c hc
    obtain rfl := List.mem_singleton.1 hc
    exact fun h => absurd h (by decide)

/-! ## Nesting -/

theorem unbroken_parens {sep : Char} {name inside rest : List Char}
    (hname : Unbroken sep '(' ')' name) (hinside : Lib.Balanced '(' ')' inside)
    (hrest : Unbroken sep '(' ')' rest) :
    Unbroken sep '(' ')' (name ++ '(' :: (inside ++ ')' :: rest)) :=
  hname.append (Unbroken.nested hinside hrest)

section Written

variable {w : Writing}

theorem Writing.Sound.inClass (hw : w.Sound) : w.inClass.Sound := by
  unfold Writing.inClass
  cases w.classes with
  | true => exact hw
  | false => exact Writing.plain_sound _ _

theorem FixedElement.unbroken (e : FixedElement) {sep : Char} (hsep : sep ∈ ['.', ',']) :
    Unbroken sep '(' ')' e.text := by
  have hletter : ∀ c ∈ ['p', 'r', 'z', 'q'], Unbroken sep '(' ')' [c] := by
    intro c hc
    refine Unbroken.of_not_mem fun x hx => ?_
    obtain rfl := List.mem_singleton.1 hx
    refine ⟨?_, ?_, ?_⟩
    · rintro rfl
      rcases List.mem_pair.1 hsep with rfl | rfl
      · exact absurd hc (by decide)
      · exact absurd hc (by decide)
    · rintro rfl
      exact absurd hc (by decide)
    · rintro rfl
      exact absurd hc (by decide)
  cases e with
  | pointer => exact hletter 'p' (by simp)
  | reference => exact hletter 'r' (by simp)
  | rvalueReference => exact hletter 'z' (by simp)
  | qualifier q h =>
      have hq : Unbroken '(' '(' ')' q := by
        refine Unbroken.of_not_mem fun x hx => ?_
        have hne : ∀ d ∈ ['(', ')'], x ≠ d := by
          rintro d hd rfl
          rcases h x hx with hx | rfl
          · rcases List.mem_pair.1 hd with rfl | rfl
            · cases hx
            · cases hx
          · exact absurd hd (by decide)
        exact ⟨hne '(' (by simp), hne '(' (by simp), hne ')' (by simp)⟩
      exact unbroken_parens (hletter 'q' (by simp)) (hq.balanced (by decide)) Unbroken.nil

theorem unbroken_dot_cons {rest : List Char} (h : Unbroken ',' '(' ')' rest) :
    Unbroken ',' '(' ')' ('.' :: rest) := Unbroken.other (by decide) (by decide) (by decide) h

theorem unbroken_letter {sep c : Char} (hsep : sep ∈ ['.', ',']) (hc : c ∈ ['f', 'm', '<', '>']) :
    Unbroken sep '(' ')' [c] := by
  have hne : ∀ d ∈ ['.', ',', '(', ')'], c ≠ d := by
    rintro d hd rfl
    exact absurd hd (by revert hc; simp; rintro (rfl | rfl | rfl | rfl) <;> decide)
  refine Unbroken.of_not_mem fun x hx => ?_
  obtain rfl := List.mem_singleton.1 hx
  exact ⟨hne sep (List.mem_append_left ['(', ')'] hsep), hne '(' (by simp), hne ')' (by simp)⟩

/-- A template with its arguments, and what is behind them. -/
theorem unbroken_template {sep : Char} {name inside rest : List Char} (hsep : sep ∈ ['.', ','])
    (hname : Unbroken sep '(' ')' name) (hinside : Lib.Balanced '(' ')' inside)
    (hrest : Unbroken sep '(' ')' rest) :
    Unbroken sep '(' ')' (name ++ '<' :: '(' :: (inside ++ ')' :: '>' :: rest)) := by
  have hopen := hname.append (unbroken_letter hsep (c := '<') (by simp))
  have hclose := (unbroken_letter hsep (c := '>') (by simp)).append hrest
  have hwhole := unbroken_parens hopen hinside hclose
  rw [List.append_assoc] at hwhole
  exact hwhole

end Written

mutual
theorem TypeTree.unbroken {w : Writing} (hw : w.Sound) :
    ∀ t : TypeTree, Unbroken ',' '(' ')' (t.write w)
  | .nil => Unbroken.nil
  | .varargs => Unbroken.other (by decide) (by decide) (by decide)
      (Unbroken.nested (u := ['.', '.', '.']) (by decide) Unbroken.nil)
  | .expr e => (hw.expr e).2 ',' (by simp)
  | .other e => (hw.other e).2
  | .base leading name => name.unbroken hw leading ',' (by simp)
  | .fixed e t => (e.unbroken (by simp)).append (unbroken_dot_cons (t.unbroken hw))
  | .array dim t =>
      unbroken_parens (hw.letter.unbroken (by simp)) (hw.dim dim)
        (unbroken_dot_cons (t.unbroken hw))
  | .member leading name t =>
      unbroken_parens (unbroken_letter (c := 'm') (by simp) (by simp))
        ((name.unbroken hw.inClass leading ',' (by simp)).balanced (by decide))
        (unbroken_dot_cons (t.unbroken hw))
  | .function parms t =>
      unbroken_parens (unbroken_letter (c := 'f') (by simp) (by simp)) (parms.balanced hw)
        (unbroken_dot_cons (t.unbroken hw))

theorem NameTree.unbroken {w : Writing} (hw : w.Sound) (leading : Bool) (sep : Char)
    (hsep : sep ∈ ['.', ',']) : ∀ n : NameTree, Unbroken sep '(' ')' (n.write w leading)
  | .path first more => (hw.path leading first more).2.unbroken (List.mem_append_left _ hsep)
  | .template first more args =>
      unbroken_template hsep
        ((hw.templateName leading first more).unbroken (List.mem_append_left _ hsep))
        (args.balanced hw) Unbroken.nil
  | .nested first more args suffix =>
      unbroken_template hsep
        ((hw.templateName leading first more).unbroken (List.mem_append_left _ hsep))
        (args.balanced hw) (suffix.unbroken hw true sep hsep)

theorem TypeTrees.balanced {w : Writing} (hw : w.Sound) :
    ∀ ts : TypeTrees, Lib.Balanced '(' ')' (ts.write w)
  | .nil => rfl
  | .cons t .nil => (t.unbroken hw).balanced (by decide)
  | .cons t (.cons u us) =>
      balanced_append ((t.unbroken hw).balanced (by decide))
        ((balanced_cons (by decide) (by decide)).2 (TypeTrees.balanced hw (.cons u us)))
end

/-! ## Texts and elements -/

mutual
theorem TypeTree.write_plain (pat rep : List Char) :
    ∀ t : TypeTree, t.write (.plain pat rep) = t.text
  | .nil => rfl
  | .varargs => rfl
  | .expr e => (Writing.words_plain _ _ e.text).trans (Writing.words_plain _ _ e.text).symm
  | .other e => (Writing.words_plain _ _ e.text).trans (Writing.words_plain _ _ e.text).symm
  | .base leading name => name.write_plain pat rep leading
  | .fixed e t => congrArg (e.text ++ '.' :: ·) (t.write_plain pat rep)
  | .array dim t => by
      show (Writing.plain pat rep).letter ++
          '(' :: ((Writing.plain pat rep).words false false dim.text ++ ')' :: '.' :: _) =
        (Writing.plain [] []).letter ++
          '(' :: ((Writing.plain [] []).words false false dim.text ++ ')' :: '.' :: t.text)
      rw [t.write_plain pat rep, Writing.plain_letter, Writing.plain_letter, Writing.words_plain,
        Writing.words_plain]
  | .member leading name t => by
      show 'm' :: '(' :: (name.write (.plain pat rep) leading ++ ')' :: '.' :: _) =
        'm' :: '(' :: (name.text leading ++ ')' :: '.' :: t.text)
      rw [name.write_plain pat rep leading, t.write_plain pat rep]
  | .function parms t => by
      show 'f' :: '(' :: (parms.write _ ++ ')' :: '.' :: _) =
        'f' :: '(' :: (parms.text ++ ')' :: '.' :: t.text)
      rw [parms.write_plain pat rep, t.write_plain pat rep]

theorem NameTree.write_plain (pat rep : List Char) (leading : Bool) :
    ∀ n : NameTree, n.write (.plain pat rep) leading = n.text leading
  | .path first more => by
      show (Writing.plain pat rep).path leading first more =
        (Writing.plain [] []).path leading first more
      rw [Writing.plain_path, Writing.plain_path]
  | .template first more args => by
      show (Writing.plain pat rep).templateName leading first more ++ '<' :: '(' :: (_ ++ _) =
        (Writing.plain [] []).templateName leading first more ++ '<' :: '(' :: (args.text ++ _)
      rw [args.write_plain pat rep, Writing.plain_templateName, Writing.plain_templateName]
  | .nested first more args suffix => by
      show (Writing.plain pat rep).templateName leading first more ++
          '<' :: '(' :: (_ ++ ')' :: '>' :: _) =
        (Writing.plain [] []).templateName leading first more ++
          '<' :: '(' :: (args.text ++ ')' :: '>' :: suffix.text true)
      rw [args.write_plain pat rep, suffix.write_plain pat rep true, Writing.plain_templateName,
        Writing.plain_templateName]

theorem TypeTrees.write_plain (pat rep : List Char) :
    ∀ ts : TypeTrees, ts.write (.plain pat rep) = ts.text
  | .nil => rfl
  | .cons t .nil => t.write_plain pat rep
  | .cons t (.cons u us) => by
      show _ ++ ',' :: _ = t.text ++ ',' :: (TypeTrees.cons u us).text
      rw [t.write_plain pat rep, TypeTrees.write_plain pat rep (.cons u us)]
end

/-- The elements of a type as they are written, with their dots. -/
def TypeTree.elements (w : Writing) : TypeTree → List (List Char)
  | .nil => []
  | .varargs => ["v(...)".toList]
  | .expr e => [w.words w.exprs false e.text]
  | .other e => [w.words w.exprs false e.text]
  | .base leading name => [name.write w leading]
  | .fixed e t => (e.text ++ ['.']) :: t.elements w
  | .array dim t =>
      (w.letter ++ '(' :: (w.words w.dims w.literals dim.text ++ [')', '.'])) :: t.elements w
  | .member leading name t =>
      ('m' :: '(' :: (name.write w.inClass leading ++ [')', '.'])) :: t.elements w
  | .function parms t => ('f' :: '(' :: (parms.write w ++ [')', '.'])) :: t.elements w

def TypeTrees.texts (w : Writing) : TypeTrees → List (List Char)
  | .nil => []
  | .cons t ts => t.write w :: ts.texts w

theorem TypeTree.elements_flatten (w : Writing) : ∀ t : TypeTree, (t.elements w).flatten = t.write w
  | .nil => rfl
  | .varargs => rfl
  | .expr _ => List.flatten_singleton
  | .other _ => List.flatten_singleton
  | .base _ _ => List.flatten_singleton
  | .fixed e t => by
      rw [elements, List.flatten_cons, t.elements_flatten w, List.append_assoc]
      rfl
  | .array dim t => by
      rw [elements, List.flatten_cons, t.elements_flatten w, List.append_assoc, List.cons_append,
        List.append_assoc]
      rfl
  | .member leading name t => by
      rw [elements, List.flatten_cons, t.elements_flatten w, List.cons_append, List.cons_append,
        List.append_assoc]
      rfl
  | .function parms t => by
      rw [elements, List.flatten_cons, t.elements_flatten w, List.cons_append, List.cons_append,
        List.append_assoc]
      rfl

theorem TypeTrees.intercalate_texts (w : Writing) :
    ∀ ts : TypeTrees, [','].intercalate (ts.texts w) = ts.write w
  | .nil => rfl
  | .cons t .nil => List.intercalate_singleton
  | .cons t (.cons u us) => by
      show [','].intercalate (t.write w :: u.write w :: us.texts w) = t.write w ++ ',' :: _
      rw [List.intercalate_cons_cons, List.append_assoc]
      exact congrArg (t.write w ++ ',' :: ·) (TypeTrees.intercalate_texts w (.cons u us))

/-! ## Splitting -/

theorem swigTypeSplit_nil (fuel : Nat) : swigTypeSplit fuel [] = [] := by
  cases fuel with
  | zero => rfl
  | succ fuel => rfl

theorem split_last {e : List Char} {fuel : Nat} (hne : e ≠ []) (he : Unbroken '.' '(' ')' e)
    (hfuel : e.length ≤ fuel) : swigTypeSplit fuel e = [e] := by
  have hpos := List.length_pos_of_ne_nil hne
  obtain ⟨fuel, rfl⟩ : ∃ f, fuel = f + 1 := ⟨fuel - 1, by omega⟩
  have hone := swigTypeSplit_element [] hne (by simp) (delEnds_unbroken he DelEnds.nil) fuel
  rwa [List.append_nil, swigTypeSplit_nil] at hone

theorem split_dotted {e rest : List Char} {fuel : Nat} (he : Unbroken '.' '(' ')' e)
    (hrest : rest.head? ≠ some '.') (hfuel : (e ++ '.' :: rest).length ≤ fuel) :
    ∃ fuel', rest.length ≤ fuel' ∧
      swigTypeSplit fuel (e ++ '.' :: rest) = (e ++ ['.']) :: swigTypeSplit fuel' rest := by
  rw [List.length_append, List.length_cons] at hfuel
  obtain ⟨fuel, rfl⟩ : ∃ f, fuel = f + 1 := ⟨fuel - 1, by omega⟩
  have hends : DelEnds ((e ++ ['.']) ++ rest) rest := by
    rw [List.append_assoc]
    exact delEnds_unbroken he (DelEnds.dot rest)
  have hone := swigTypeSplit_element rest (List.append_ne_nil_of_right_ne_nil e (by simp)) hrest
    hends fuel
  rw [List.append_assoc] at hone
  exact ⟨fuel, by omega, hone⟩

/-- An element of a letter and parentheses. -/
theorem split_parens {name inside rest : List Char} {fuel : Nat} (hname : NameText name)
    (hinside : Lib.Balanced '(' ')' inside) (hrest : rest.head? ≠ some '.')
    (hfuel : (name ++ '(' :: (inside ++ ')' :: '.' :: rest)).length ≤ fuel) :
    ∃ fuel', rest.length ≤ fuel' ∧
      swigTypeSplit fuel (name ++ '(' :: (inside ++ ')' :: '.' :: rest)) =
        (name ++ '(' :: (inside ++ [')', '.'])) :: swigTypeSplit fuel' rest := by
  have helement : Unbroken '.' '(' ')' (name ++ '(' :: (inside ++ [')'])) :=
    unbroken_parens (hname.unbroken (by simp)) hinside Unbroken.nil
  have hwhole : ∀ tail, name ++ '(' :: (inside ++ ')' :: '.' :: tail) =
      (name ++ '(' :: (inside ++ [')'])) ++ '.' :: tail := by simp
  have hone : name ++ '(' :: (inside ++ [')', '.']) =
      (name ++ '(' :: (inside ++ [')'])) ++ ['.'] := hwhole []
  rw [hwhole] at hfuel ⊢
  rw [hone]
  exact split_dotted helement hrest hfuel

theorem letter_nameText {c : Char} (h : NameChar c) : NameText [c] := by
  intro d hd
  obtain rfl := List.mem_singleton.1 hd
  exact h

section Split

variable {w : Writing}

theorem NameTree.write_ne_nil (hw : w.Sound) (leading : Bool) (n : NameTree) :
    n.write w leading ≠ [] := by
  cases n with
  | path first more => exact (hw.path leading first more).1
  | template first more args => exact List.append_ne_nil_of_right_ne_nil _ (List.cons_ne_nil _ _)
  | nested first more args suffix =>
      exact List.append_ne_nil_of_right_ne_nil _ (List.cons_ne_nil _ _)

theorem TypeTree.write_ne_nil (hw : w.Sound) {t : TypeTree} (h : ¬ t.IsNil) : t.write w ≠ [] := by
  cases t with
  | nil => exact absurd trivial h
  | varargs => exact List.cons_ne_nil _ _
  | expr e => exact (hw.expr e).1
  | other e => exact (hw.other e).1
  | base leading name => exact name.write_ne_nil hw leading
  | fixed e t => exact List.append_ne_nil_of_right_ne_nil _ (List.cons_ne_nil _ _)
  | array dim t => exact List.append_ne_nil_of_right_ne_nil _ (List.cons_ne_nil _ _)
  | member leading name t => exact List.cons_ne_nil _ _
  | function parms t => exact List.cons_ne_nil _ _

theorem TypeTree.write_head? (hw : w.Sound) {t : TypeTree} (h : ¬ t.IsOther) :
    (t.write w).head? ≠ some '.' := by
  cases t with
  | nil => exact nofun
  | varargs => exact fun h => absurd (Option.some.inj h) (by decide)
  | expr e => exact ((hw.expr e).2 '.' (by simp)).head?_ne (by decide)
  | other e => exact absurd trivial h
  | base leading name => exact (name.unbroken hw leading '.' (by simp)).head?_ne (by decide)
  | fixed e t =>
      show (e.text ++ '.' :: t.write w).head? ≠ some '.'
      cases e with
      | pointer => exact fun h => absurd (Option.some.inj h) (by decide)
      | reference => exact fun h => absurd (Option.some.inj h) (by decide)
      | rvalueReference => exact fun h => absurd (Option.some.inj h) (by decide)
      | qualifier q hq => exact fun h => absurd (Option.some.inj h) (by decide)
  | array dim t =>
      have helement : Unbroken '.' '(' ')'
          (w.letter ++ '(' :: (w.words w.dims w.literals dim.text ++ [')'])) :=
        unbroken_parens (hw.letter.unbroken (by simp)) (hw.dim dim) Unbroken.nil
      have hhead := helement.head?_ne (by decide)
      show (w.letter ++ '(' :: _).head? ≠ some '.'
      cases hletter : w.letter with
      | nil => exact fun h => absurd (Option.some.inj h) (by decide)
      | cons x l =>
          rw [hletter] at hhead
          exact hhead
  | member leading name t => exact fun h => absurd (Option.some.inj h) (by decide)
  | function parms t => exact fun h => absurd (Option.some.inj h) (by decide)

/-- Splitting reads the elements of a type. -/
theorem TypeTree.split_write (hw : w.Sound) : ∀ (t : TypeTree) {fuel : Nat}, t.Wf →
    ¬ t.IsOther → (t.write w).length ≤ fuel → swigTypeSplit fuel (t.write w) = t.elements w
  | .nil, fuel, _, _, _ => swigTypeSplit_nil fuel
  | .varargs, _, _, _, hfuel => split_last (show "v(...)".toList ≠ [] by decide)
      (show Unbroken '.' '(' ')' "v(...)".toList by decide) hfuel
  | .other _, _, _, hother, _ => absurd trivial hother
  | .expr e, _, _, _, hfuel => split_last (hw.expr e).1 ((hw.expr e).2 '.' (by simp)) hfuel
  | .base leading name, _, _, _, hfuel =>
      split_last (name.write_ne_nil hw leading) (name.unbroken hw leading '.' (by simp)) hfuel
  | .fixed e t, _, ⟨hother, hwf⟩, _, hfuel => by
      obtain ⟨fuel', hle, hone⟩ := split_dotted (e.unbroken (by simp)) (t.write_head? hw hother) hfuel
      exact hone.trans (congrArg _ (t.split_write hw hwf hother hle))
  | .array dim t, _, ⟨hother, hwf⟩, _, hfuel => by
      obtain ⟨fuel', hle, hone⟩ :=
        split_parens hw.letter (hw.dim dim) (t.write_head? hw hother) hfuel
      exact hone.trans (congrArg _ (t.split_write hw hwf hother hle))
  | .member leading name t, _, ⟨_, hother, hwf⟩, _, hfuel => by
      obtain ⟨fuel', hle, hone⟩ := @split_parens ['m'] (name.write w.inClass leading) (t.write w) _
        (letter_nameText (by simp [NameChar]))
        ((name.unbroken hw.inClass leading ',' (by simp)).balanced (by decide))
        (t.write_head? hw hother) hfuel
      exact hone.trans (congrArg _ (t.split_write hw hwf hother hle))
  | .function parms t, _, ⟨_, hother, hwf⟩, _, hfuel => by
      obtain ⟨fuel', hle, hone⟩ := @split_parens ['f'] (parms.write w) (t.write w) _
        (letter_nameText (by simp [NameChar])) (parms.balanced hw) (t.write_head? hw hother) hfuel
      exact hone.trans (congrArg _ (t.split_write hw hwf hother hle))

theorem TypeTrees.isParameter (hw : w.Sound) : ∀ ts : TypeTrees, ts.Wf →
    ∀ i ∈ ts.texts w, IsParameter i
  | .nil, _ => fun i hi => absurd hi List.not_mem_nil
  | .cons t ts, h => by
      intro i hi
      rcases List.mem_cons.1 hi with rfl | hi
      · exact ⟨t.write_ne_nil hw h.1, t.unbroken hw⟩
      · exact ts.isParameter hw h.2.2 i hi

end Split

end Swig4Ada.Swig

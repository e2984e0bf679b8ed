import Swig4Ada.Lib.Unbroken
import Swig4Ada.CParse.Template
import Swig4Ada.Proofs.Replace
import Swig4Ada.Proofs.TypeObj

/-!
# The type that is deduced for a template parameter

`does_parm_match` compares a pattern with the argument behind its typedefs, while
`partial_arg` takes what the pattern has before `$n` out of the argument as it is
written, at the first place where it stands. The two agree when the argument is written
with the elements of the pattern. When these come from a typedef nothing is taken out,
and the pattern's elements are there twice once the type is put back. What a pattern has
behind `$n` is not taken out at all.

The typedefs are a parameter. Of them the proofs use that elements in front of a type are
kept, where they hold no template arguments.
-/

namespace Swig4Ada.CParse

open Swig4Ada.Doh Swig4Ada.Lib Swig4Ada.Swig

/-! ## Patterns -/

/-- A pattern with one parameter in it. -/
structure Pattern where
  before : List Char
  parameter : Nat
  after : List Char
  alone : '$' ∉ before ∧ '$' ∉ after

namespace Pattern

def text (P : Pattern) : List Char := P.before ++ dollar P.parameter ++ P.after

/-- A type in place of the parameter. -/
def put (P : Pattern) (type : List Char) : List Char := P.before ++ type ++ P.after

end Pattern

/-- The text of a sequence of elements. -/
def elementsText (es : List Constructor) : List Char := es.flatMap Constructor.text

/-- The brackets of the template arguments of a type nest. -/
def Nests (t : WellFormed) : Prop :=
  ∀ i ∈ t.templates, Balanced '<' '>' i.args ∧ Balanced '(' ')' i.args

/-- The elements that a pattern has before its parameter, or before the element that the
parameter is in, are whole and hold no template arguments. -/
inductive Pattern.Elemental (P : Pattern) : Prop
  | last (es : List Constructor) (hbefore : P.before = elementsText es) (hafter : P.after = [])
      (hplain : '<' ∉ P.before)
  | inside (es : List Constructor) (element : Nested → Constructor) (letter : Char)
      (x y : List Char) (rest : WellFormed)
      (hbefore : P.before = elementsText es ++ letter :: '(' :: x)
      (hafter : P.after = y ++ ')' :: '.' :: rest.text)
      (helement : ∀ i : Nested, (element i).text = letter :: '(' :: (i.1 ++ [')', '.']))
      (hnested : Balanced '(' ')' (x ++ y)) (hrest : Nests rest)
      (hplain : '<' ∉ P.before ∧ '<' ∉ y)

variable {Node : Type} {T : TemplateTable Node} {P : Pattern} {t : WellFormed}
  {s u v type : List Char}

/-- Typedef reduction keeps the elements in front of a type. -/
def KeepsElements (T : TemplateTable Node) : Prop :=
  ∀ (es : List Constructor) (t : WellFormed), '<' ∉ elementsText es → Nests t →
    T.typedefReduce (elementsText es ++ t.text) = elementsText es ++ T.typedefReduce t.text

/-- The type that is deduced, put back, is the argument up to typedef reduction. -/
def PutBack (T : TemplateTable Node) (P : Pattern) (s : List Char) : Prop :=
  Balanced '(' ')' (partialArg s P.text) ∧
    T.typedefReduce (P.put (partialArg s P.text)) = T.typedefReduce s

/-! ## What is taken out -/

theorem eraseFirst_prefix : eraseFirst u (u ++ v) = v := by
  have hfirst : strstr u (u ++ v) = some 0 :=
    strstr_eq_some (List.prefix_append u v) fun i hi => absurd hi (Nat.not_lt_zero i)
  rw [eraseFirst, hfirst]
  simp

theorem eraseFirst_absent (h : ¬ u <:+: s) : eraseFirst u s = s := by
  have hnone : strstr u s = none := by
    rw [strstr_eq_none]
    intro i hi
    exact h (hi.isInfix.trans (List.drop_suffix i s).isInfix)
  rw [eraseFirst, hnone]

theorem eraseFirst_found (h : u <:+: s) : ∃ a b, s = a ++ u ++ b ∧ eraseFirst u s = a ++ b := by
  cases hfind : strstr u s with
  | none =>
      obtain ⟨a, b, rfl⟩ := h
      refine absurd ?_ (strstr_eq_none.1 hfind a.length)
      rw [List.append_assoc, List.drop_left]
      exact List.prefix_append u b
  | some k =>
      obtain ⟨b, hb⟩ := (strstr_sound hfind).1
      refine ⟨s.take k, b, ?_, ?_⟩
      · rw [List.append_assoc, hb, List.take_append_drop]
      · rw [eraseFirst, hfind]
        simp only
        rw [← List.drop_drop, ← hb, List.drop_left]

theorem takeWhile_before : P.text.takeWhile (· ≠ '$') = P.before := by
  rw [Pattern.text, dollar, List.append_assoc, List.cons_append,
    List.takeWhile_append_of_pos fun c hc => ?_]
  · simp
  · exact decide_eq_true fun h => P.alone.1 (h ▸ hc)

theorem dollar_mem : '$' ∈ P.text := by simp [Pattern.text, dollar]

theorem partialArg_eq : partialArg s P.text = eraseFirst P.before s := by
  rw [partialArg, if_pos dollar_mem, takeWhile_before]
  by_cases hnil : P.before = []
  · have hwhole : eraseFirst [] s = s := eraseFirst_prefix (u := [])
    rw [hnil, hwhole, stringReplace, replaceSimple, if_pos rfl]
    rfl
  · rw [stringReplace_first hnil]
    rfl

/-! ## What is matched -/

theorem dollar_chars {n : Nat} {c : Char} (h : c ∈ dollar n) : c = '$' ∨ c.isDigit = true := by
  rcases List.mem_cons.1 h with h | h
  · exact Or.inl h
  · exact Or.inr (Nat.isDigit_of_mem_toDigits (by decide) (by decide) h)

/-- The parameter stands at one place of its pattern only. -/
theorem dollar_once {i : Nat} (h : dollar P.parameter <+: P.text.drop i) :
    i = P.before.length := by
  have hget : P.text[i]? = some '$' := by
    obtain ⟨r, hr⟩ := h
    have hhead : (P.text.drop i)[0]? = some '$' := by
      rw [← hr]
      rfl
    simpa using hhead
  have hdigits : '$' ∉ Nat.toDigits 10 P.parameter := by
    intro hmem
    have hdigit := Nat.isDigit_of_mem_toDigits (by decide) (by decide) hmem
    exact absurd hdigit (by decide)
  rw [Pattern.text, dollar, List.append_assoc, List.cons_append] at hget
  rcases Nat.lt_trichotomy i P.before.length with hlt | heq | hlt
  · rw [List.getElem?_append_left hlt] at hget
    exact absurd (List.mem_of_getElem? hget) P.alone.1
  · exact heq
  · rw [List.getElem?_append_right (Nat.le_of_lt hlt)] at hget
    obtain ⟨j, hj⟩ : ∃ j, i - P.before.length = j + 1 := ⟨i - P.before.length - 1, by omega⟩
    rw [hj, List.getElem?_cons_succ] at hget
    rcases List.mem_append.1 (List.mem_of_getElem? hget) with hmem | hmem
    · exact absurd hmem hdigits
    · exact absurd hmem P.alone.2

/-- What `Replaceid` makes of the pattern. -/
theorem replacedId_pattern (type : List Char) :
    replacedId P.text (dollar P.parameter) type =
      if MatchMode.identifier.rejects P.text P.before.length (dollar P.parameter).length
        then (P.text, 0) else (P.put type, 1) := by
  have hoccurs : dollar P.parameter <+: P.text.drop P.before.length := by
    rw [Pattern.text, List.append_assoc, List.drop_left]
    exact List.prefix_append _ _
  have hmade : replaceSimple .identifier _ type P.text false (-1) = _ :=
    replaceSimple_once (List.cons_ne_nil '$' _) hoccurs fun i => dollar_once
  rw [replacedId, replaceId, stringReplace]
  refine (congrArg (Option.getD · (P.text, 0)) hmade).trans ?_
  rw [Option.getD_some]
  have htake : P.text.take P.before.length = P.before := by
    rw [Pattern.text, List.append_assoc, List.take_left]
  have hdrop : P.text.drop (P.before.length + (dollar P.parameter).length) = P.after := by
    rw [Pattern.text, ← List.length_append, List.drop_left]
  rw [← dollar, htake, hdrop, Pattern.put]

/-- `Replaceid` puts a type in place of the parameter, or it finds nothing to replace. -/
theorem replacedId_text :
    (∀ type, replacedId P.text (dollar P.parameter) type = (P.put type, 1)) ∨
      ∀ type, replacedId P.text (dollar P.parameter) type = (P.text, 0) := by
  cases hrejects :
      MatchMode.identifier.rejects P.text P.before.length (dollar P.parameter).length with
  | false => exact Or.inl fun type => by rw [replacedId_pattern, hrejects]; rfl
  | true => exact Or.inr fun type => by rw [replacedId_pattern, hrejects]; rfl

/-- The reduced argument begins with the pattern without its parameter, or it is the
pattern as it stands. -/
theorem doesParmMatch_accepted
    (h : (doesParmMatch T s P.text (dollar P.parameter)).1.isMatch = true) :
    ∃ m, (m = [] ∨ m = dollar P.parameter) ∧ P.put m <+: T.typedefReduce s := by
  simp only [doesParmMatch] at h
  rcases replacedId_text (P := P) with hput | hkept
  · rw [hput, hput, if_pos rfl] at h
    split at h
    · next hbegins => exact ⟨[], Or.inl rfl, List.isPrefixOf_iff_prefix.1 hbegins⟩
    · cases h
  · rw [hkept, hkept, if_neg Nat.zero_ne_one] at h
    split at h
    · next hequal =>
        refine ⟨dollar P.parameter, Or.inr rfl, ?_⟩
        rw [of_decide_eq_true hequal]
        exact List.prefix_rfl
    · cases h

/-! ## Brackets -/

theorem constructor_balanced (e : Constructor) : Balanced '(' ')' e.text := by
  have hnested : ∀ (letter : Char) (i : Nested), letter ≠ '(' → letter ≠ ')' →
      Balanced '(' ')' (letter :: '(' :: (i.1 ++ [')', '.'])) := by
    intro letter i ho hc
    exact (balanced_cons ho hc).2 (balanced_nested (by decide) i.2 rfl)
  cases e with
  | pointer => rfl
  | reference => rfl
  | rvalueReference => rfl
  | qualifier i => exact hnested 'q' i (by decide) (by decide)
  | array i => exact hnested 'a' i (by decide) (by decide)
  | function i => exact hnested 'f' i (by decide) (by decide)
  | memberPointer i => exact hnested 'm' i (by decide) (by decide)

theorem elements_balanced (es : List Constructor) : Balanced '(' ')' (elementsText es) := by
  induction es with
  | nil => rfl
  | cons e es ih => exact balanced_append (constructor_balanced e) ih

theorem name_balanced (name : Name) : Balanced '(' ')' name.1 := by
  refine nesting_of_not_mem (fun h => ?_) fun h => ?_
  · exact absurd (name.2 _ h) (by decide)
  · exact absurd (name.2 _ h) (by decide)

theorem template_balanced {i : TemplateId} (h : Balanced '(' ')' i.args) :
    Balanced '(' ')' i.text := by
  rw [TemplateId.text, templateText]
  refine balanced_append (name_balanced i.name) ?_
  have hargs : Balanced '(' ')' ('(' :: (i.args ++ [')', '>'])) :=
    balanced_nested (by decide) h rfl
  simpa using (balanced_cons (by decide) (by decide)).2 hargs

theorem text_balanced (h : Nests t) : Balanced '(' ')' t.text := by
  refine balanced_append (elements_balanced t.constructors) ?_
  refine balanced_append ?_ (name_balanced t.tail)
  have htemplates : ∀ is : List TemplateId, (∀ i ∈ is, Balanced '(' ')' i.args) →
      Balanced '(' ')' (is.flatMap TemplateId.text) := by
    intro is his
    induction is with
    | nil => rfl
    | cons i is ih =>
        exact balanced_append (template_balanced (his i List.mem_cons_self))
          (ih fun j hj => his j (List.mem_cons_of_mem _ hj))
  exact htemplates _ fun i hi => (h i hi).2

/-! ## The elements of the pattern are written -/

/-- What is left behind them is the type. -/
theorem putBack_prefix (hs : Balanced '(' ')' s) (hpattern : Balanced '(' ')' (P.before ++ P.after))
    (hafter : P.after = []) (hbegins : P.before <+: s) : PutBack T P s := by
  obtain ⟨r, rfl⟩ := hbegins
  rw [hafter, List.append_nil] at hpattern
  rw [PutBack, partialArg_eq, eraseFirst_prefix, Pattern.put, hafter, List.append_nil]
  exact ⟨hpattern.right hs, rfl⟩

/-! ## They are not -/

theorem partialArg_absent (h : ¬ P.before <:+: s) : partialArg s P.text = s := by
  rw [partialArg_eq, eraseFirst_absent h]

/-- The elements are there twice. -/
theorem not_putBack_last {es : List Constructor} (hkeeps : KeepsElements T) (ht : Nests t)
    (hbefore : P.before = elementsText es) (hplain : '<' ∉ P.before) (hafter : P.after = [])
    (habsent : ¬ P.before <:+: t.text) : ¬ PutBack T P t.text := by
  intro hback
  rw [PutBack, partialArg_absent habsent, Pattern.put, hafter, List.append_nil] at hback
  rw [hbefore] at hplain habsent hback
  have htwice : elementsText es ++ T.typedefReduce t.text = T.typedefReduce t.text :=
    (hkeeps es t hplain ht).symm.trans hback.2
  rw [List.append_left_eq_self.1 htwice] at habsent
  exact habsent (List.nil_prefix.isInfix)

/-- An element around the parameter stays open in what is taken out. -/
theorem not_putBack_open {x y : List Char} {letter : Char} {es : List Constructor}
    (hs : Balanced '(' ')' s) (hbefore : P.before = elementsText es ++ letter :: '(' :: x)
    (hnested : Balanced '(' ')' (x ++ y)) (hletter : letter ≠ ')') (hfound : P.before <:+: s) :
    ¬ PutBack T P s := by
  intro hback
  obtain ⟨a, b, rfl, herased⟩ := eraseFirst_found hfound
  have hrest : Balanced '(' ')' (a ++ b) := by
    rw [← herased, ← partialArg_eq]
    exact hback.1
  have hwhole := nesting_count (by decide) hs
  have hleft := nesting_count (by decide) hrest
  have helements := nesting_count (by decide) (elements_balanced es)
  have hinside := hnested.count_left (by decide)
  simp only [List.count_append] at hwhole hleft
  have hopen : P.before.count ')' < P.before.count '(' := by
    rw [hbefore, List.count_append, List.count_append, List.count_cons_of_ne hletter,
      List.count_cons_of_ne (by decide)]
    have hmore : x.count '(' + 1 ≤ (letter :: '(' :: x).count '(' := by
      rw [← List.count_cons_self]
      exact (List.sublist_cons_self letter ('(' :: x)).count_le '('
    omega
  omega

theorem not_less_elements {es : List Constructor} {e : Constructor} (hes : '<' ∉ elementsText es)
    (he : '<' ∉ e.text) : '<' ∉ elementsText (es ++ [e]) := by
  rw [elementsText, List.flatMap_append, List.flatMap_singleton]
  exact fun h => (List.mem_append.1 h).elim hes he

/-- The element around the parameter holds the whole argument, and so more than it should. -/
theorem not_putBack_inside {es : List Constructor} {element : Nested → Constructor} {letter : Char}
    {x y : List Char} {rest : WellFormed} (hkeeps : KeepsElements T) (ht : Nests t)
    (hname : '$' ∉ t.text) (hsimple : '<' ∉ t.text)
    (haccepted : (doesParmMatch T t.text P.text (dollar P.parameter)).1.isMatch = true)
    (hbefore : P.before = elementsText es ++ letter :: '(' :: x)
    (hafter : P.after = y ++ ')' :: '.' :: rest.text)
    (helement : ∀ i : Nested, (element i).text = letter :: '(' :: (i.1 ++ [')', '.']))
    (hnested : Balanced '(' ')' (x ++ y)) (hrest : Nests rest)
    (hplain : '<' ∉ P.before ∧ '<' ∉ y) (habsent : ¬ P.before <:+: t.text) :
    ¬ PutBack T P t.text := by
  intro hback
  have hput : ∀ m, P.put m =
      elementsText es ++ letter :: '(' :: (x ++ m ++ y ++ ')' :: '.' :: rest.text) := by
    intro m
    rw [Pattern.put, hbefore, hafter]
    simp only [List.append_assoc, List.cons_append]
  have hwhole : Balanced '(' ')' (x ++ t.text ++ y) := hnested.insert (text_balanced ht)
  obtain ⟨i, hi⟩ : ∃ i : Nested, i.1 = x ++ t.text ++ y := ⟨⟨_, hwhole⟩, rfl⟩
  have htext : (element i).text = letter :: '(' :: (x ++ t.text ++ y ++ [')', '.']) := by
    rw [helement, hi]
  have hless : '<' ∉ elementsText (es ++ [element i]) := by
    have hbeforeless := hplain.1
    rw [hbefore, List.mem_append] at hbeforeless
    push Not at hbeforeless
    refine not_less_elements hbeforeless.1 ?_
    have hx := hbeforeless.2
    simp only [List.mem_cons, not_or] at hx
    rw [htext]
    simp [hx, hsimple, hplain.2]
  have hreduced : T.typedefReduce t.text =
      elementsText es ++ letter :: '(' :: (x ++ t.text ++ y ++
        ')' :: '.' :: T.typedefReduce rest.text) := by
    have hkept := hkeeps _ rest hless hrest
    have hback := hback.2
    rw [partialArg_absent habsent, hput] at hback
    rw [← hback]
    simpa [elementsText, htext] using hkept
  obtain ⟨m, hm, hbegins⟩ := doesParmMatch_accepted haccepted
  rw [hput, hreduced, List.prefix_append_right_inj, List.cons_prefix_cons,
    List.cons_prefix_cons] at hbegins
  have hmbalanced : Balanced '(' ')' m := by
    rcases hm with rfl | rfl
    · rfl
    · refine nesting_of_not_mem (fun h => ?_) fun h => ?_
      · exact absurd (dollar_chars h) (by decide)
      · exact absurd (dollar_chars h) (by decide)
  obtain ⟨z, hz⟩ := hbegins.2.2
  rw [List.append_assoc, List.cons_append] at hz
  have heq := (balanced_closing_unique (hnested.insert hmbalanced) hwhole hz).1
  obtain rfl : m = t.text := List.append_cancel_left (List.append_cancel_right heq)
  rcases hm with hnil | hdollar
  · exact t.baseText_ne_nil (List.append_eq_nil_iff.1 hnil).2
  · rw [hdollar] at hname
    exact hname List.mem_cons_self

/-! ## Arguments without templates -/

theorem baseText_dotless (hsimple : '<' ∉ t.baseText) : '.' ∉ t.baseText := by
  have hnone : t.templates = [] := by
    cases htemplates : t.templates with
    | nil => rfl
    | cons i is =>
        refine absurd ?_ hsimple
        simp [WellFormed.baseText, htemplates, TemplateId.text, templateText]
  intro hdot
  rw [WellFormed.baseText, hnone] at hdot
  exact absurd (t.tail.2 _ hdot) (by decide)

/-- A text of elements that is longer than another one has more dots. -/
theorem elementsText_dots {es : List Constructor} (h : elementsText es = u ++ v) (hv : v ≠ []) :
    u.count '.' < (elementsText es).count '.' := by
  obtain ⟨w, c, rfl⟩ : ∃ w c, v = w ++ [c] :=
    ⟨_, _, (List.dropLast_append_getLast hv).symm⟩
  have hdot : elementsText es = [] ∨ ∃ l, elementsText es = l ++ ['.'] :=
    WellFormed.prefixText_dot ⟨es, [], ⟨['x'], by simp [isPlain]⟩, Or.inr (List.cons_ne_nil _ _)⟩
  rcases hdot with hnil | ⟨l, hl⟩
  · rw [hnil] at h
    simp at h
  · have hlast : ['.'] = [c] :=
      List.append_inj_right' (hl.symm.trans (h.trans (List.append_assoc u w [c]).symm)) rfl
    rw [h, ← hlast, List.count_append, List.count_append]
    simp

/-- The elements of the pattern come first, where there are enough of them. -/
theorem before_prefix {es : List Constructor} (hkeeps : KeepsElements T) (ht : Nests t)
    (hsimple : '<' ∉ t.text) (hbefore : P.before = elementsText es)
    (hreduced : P.before <+: T.typedefReduce t.text) (hfound : P.before <:+: t.text) :
    P.before <+: t.text := by
  have hparts : '<' ∉ elementsText t.constructors ∧ '<' ∉ t.baseText := by
    rw [WellFormed.text, List.mem_append] at hsimple
    push Not at hsimple
    exact hsimple
  have hkept : T.typedefReduce t.text =
      elementsText t.constructors ++ T.typedefReduce t.baseText :=
    hkeeps t.constructors { t with constructors := [] } hparts.1 ht
  rw [hkept] at hreduced
  have helements : elementsText t.constructors <+: t.text := List.prefix_append _ t.baseText
  rcases List.prefix_or_prefix_of_prefix hreduced (List.prefix_append _ _) with hshort | hlong
  · exact hshort.trans helements
  · obtain ⟨v, hv⟩ := hlong
    by_cases hnil : v = []
    · rw [hnil, List.append_nil] at hv
      rw [← hv]
      exact helements
    · have hmore := elementsText_dots (hbefore.symm.trans hv.symm) hnil
      have hless := hfound.sublist.count_le '.'
      have hdots : t.text.count '.' = (elementsText t.constructors).count '.' := by
        rw [WellFormed.text, List.count_append,
          List.count_eq_zero_of_not_mem (baseText_dotless hparts.2)]
        rfl
      rw [hbefore] at hless
      omega

/-! ## The type that is put back -/

/-- It is the argument when the parameter ends the pattern and the argument is written with
what is before it; among the arguments without templates, and among all those that have the
elements in front if anywhere, only then. -/
theorem partialArg_right (P : Pattern) (t : WellFormed) (ht : Nests t) (hname : '$' ∉ t.text)
    (hpattern : Balanced '(' ')' (P.before ++ P.after))
    (haccepted : (doesParmMatch T t.text P.text (dollar P.parameter)).1.isMatch = true) :
    (P.after = [] ∧ P.before <+: t.text → PutBack T P t.text) ∧
      (KeepsElements T → P.Elemental →
        ('<' ∉ t.text ∨ P.after = [] ∧ (P.before <:+: t.text → P.before <+: t.text)) →
        (PutBack T P t.text ↔ P.after = [] ∧ P.before <+: t.text)) := by
  have henough : P.after = [] ∧ P.before <+: t.text → PutBack T P t.text := fun h =>
    putBack_prefix (text_balanced ht) hpattern h.1 h.2
  refine ⟨henough, fun hkeeps helemental hwhere => ⟨fun hback => ?_, henough⟩⟩
  cases helemental with
  | last es hbefore hafter hplain =>
      have hfirst : P.before <:+: t.text → P.before <+: t.text := by
        rcases hwhere with hsimple | hfirst
        · obtain ⟨m, -, hbegins⟩ := doesParmMatch_accepted haccepted
          rw [Pattern.put, List.append_assoc] at hbegins
          exact before_prefix hkeeps ht hsimple hbefore
            ((List.prefix_append _ _).trans hbegins)
        · exact hfirst.2
      refine ⟨hafter, hfirst ?_⟩
      by_contra habsent
      exact not_putBack_last hkeeps ht hbefore hplain hafter habsent hback
  | inside es element letter x y rest hbefore hafter helement hnested hrest hplain =>
      have hsimple : '<' ∉ t.text := by
        rcases hwhere with hsimple | hlast
        · exact hsimple
        · rw [hafter] at hlast
          simp at hlast
      have hletter : letter ≠ ')' := by
        obtain ⟨i, -⟩ : ∃ i : Nested, i.1 = [] := ⟨⟨[], rfl⟩, rfl⟩
        have hbalanced : nesting '(' ')' 0 (element i).text = some 0 :=
          constructor_balanced (element i)
        rintro rfl
        rw [helement, nesting_closed] at hbalanced
        cases hbalanced
      by_cases hfound : P.before <:+: t.text
      · exact absurd hback
          (not_putBack_open (text_balanced ht) hbefore hnested hletter hfound)
      · exact absurd hback (not_putBack_inside hkeeps ht hname hsimple haccepted hbefore hafter
          helement hnested hrest hplain hfound)

/-! ## A typedef of a reference -/

/-- The only typedef is `typedef int &IR`. -/
def referenceTable : TemplateTable Unit where
  clookup := fun _ => none
  clookupLocal := fun _ => none
  typedefReduce := fun type =>
    (swigTypePrefix type).getD [] ++
      if swigTypeBase type = ['I', 'R'] then "r.int".toList else swigTypeBase type
  typeQualify := id
  templateDefargs := id
  isTemplate := fun _ => false
  template := fun _ => none
  partials := fun _ => []

/-- `template<class T> class A<T &>`. -/
def referencePattern : Pattern where
  before := ['r', '.']
  parameter := 1
  after := []
  alone := by simp

def typedefName : WellFormed where
  constructors := []
  templates := []
  tail := ⟨['I', 'R'], by simp [isPlain]⟩
  based := Or.inr (by simp)

def writtenReference : WellFormed where
  constructors := [.reference]
  templates := []
  tail := ⟨"int".toList, by simp [isPlain]⟩
  based := Or.inr (by simp)

theorem referenceTable_keeps : KeepsElements referenceTable := by
  intro es t _ ht
  have hbalanced : ∀ i ∈ t.templates, Balanced '<' '>' i.args := fun i hi => (ht i hi).1
  have hwhole : elementsText es ++ t.text =
      WellFormed.text { t with constructors := es ++ t.constructors } := by
    simp [elementsText, WellFormed.text, WellFormed.prefixText, WellFormed.baseText]
  have hbegins := WellFormed.swigTypePrefix_text
    (t := { t with constructors := es ++ t.constructors }) hbalanced
  have hbase := WellFormed.swigTypeBase_text
    (t := { t with constructors := es ++ t.constructors }) hbalanced
  simp only [referenceTable]
  rw [hwhole, hbegins, hbase, t.swigTypePrefix_text hbalanced, t.swigTypeBase_text hbalanced]
  rw [Option.getD_some, Option.getD_some, ← List.append_assoc]
  exact congrArg (· ++ _) (List.flatMap_append)

/-- The type is right for `int &`, and not for `IR`. -/
theorem partialArg_reference :
    PutBack referenceTable referencePattern writtenReference.text ∧
      ¬ PutBack referenceTable referencePattern typedefName.text := by
  have helemental : referencePattern.Elemental :=
    .last [.reference] rfl rfl (by simp [referencePattern])
  have hwritten := (partialArg_right referencePattern writtenReference (fun _ h => nomatch h)
    (by decide) rfl (show (doesParmMatch referenceTable _ _ _).1.isMatch = true by decide)).1
  have hnamed := (partialArg_right referencePattern typedefName (fun _ h => nomatch h)
    (by decide) rfl (show (doesParmMatch referenceTable _ _ _).1.isMatch = true by decide)).2
    referenceTable_keeps helemental (Or.inl (by decide))
  refine ⟨hwritten ⟨rfl, by decide⟩, fun hback => ?_⟩
  exact absurd (hnamed.1 hback).2 (by decide)

/-- The deduced type is the typedef name itself: put back it is a reference to a reference. -/
theorem typedef_twice :
    (doesParmMatch referenceTable typedefName.text referencePattern.text (dollar 1)).1.isMatch =
        true ∧
      partialArg typedefName.text referencePattern.text = typedefName.text ∧
      referenceTable.typedefReduce (referencePattern.put typedefName.text) = "r.r.int".toList ∧
      referenceTable.typedefReduce typedefName.text = "r.int".toList ∧
      ¬ PutBack referenceTable referencePattern typedefName.text := by
  have hdeduced : partialArg typedefName.text referencePattern.text = typedefName.text := by
    decide
  refine ⟨by decide, hdeduced, by decide, by decide, fun hback => ?_⟩
  have hequal := hback.2
  rw [hdeduced] at hequal
  exact absurd hequal (by decide)

end Swig4Ada.CParse

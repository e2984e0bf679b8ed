import Swig4Ada.Lib.Brackets
import Swig4Ada.Swig.TypeObj

/-!
# Where a type is split

A well-formed type is a sequence of constructors and a base name. The two functions
that split it count the brackets of one kind at a time, so a template argument list is
gone past as a whole when its angle brackets are balanced, whatever else is in it; and
the parentheses of a constructor when they are. An argument that is an expression may
hold a `<` or a `>` that is no bracket, and then the splits disagree.

Nothing is needed of the template arguments but that balance, and for a template with
a name of its scope behind it the balance is needed exactly.
-/

namespace Swig4Ada.Swig

open Swig4Ada.Doh Swig4Ada.Lib

/-! ## Well-formed types -/

/-- A character that none of the functions looks for. -/
def isPlain (x : Char) : Bool := x ≠ '.' ∧ x ≠ '<' ∧ x ≠ '>' ∧ x ≠ '(' ∧ x ≠ ')'

/-- The name of a class or a scope, or what is between two names, as `::`. -/
def Name : Type := { l : List Char // ∀ x ∈ l, isPlain x = true }

/-- What is in the parentheses of a constructor: qualifiers, a dimension, parameters or
a class, with parentheses that nest. -/
def Nested : Type := { l : List Char // Balanced '(' ')' l }

inductive Constructor
  | pointer
  | reference
  | rvalueReference
  | qualifier (inside : Nested)
  | array (inside : Nested)
  | function (inside : Nested)
  | memberPointer (inside : Nested)

/-- A constructor is its letter, and what stands in parentheses if anything does. -/
def Constructor.parts : Constructor → Char × Option Nested
  | .pointer => ('p', none)
  | .reference => ('r', none)
  | .rvalueReference => ('z', none)
  | .qualifier inside => ('q', some inside)
  | .array inside => ('a', some inside)
  | .function inside => ('f', some inside)
  | .memberPointer inside => ('m', some inside)

def Constructor.text (e : Constructor) : List Char :=
  e.parts.1 :: (match e.parts.2 with
    | none => ['.']
    | some inside => '(' :: inside.1 ++ [')', '.'])

/-- `<(args)>`. -/
def templateText (args : List Char) : List Char := ['<', '('] ++ args ++ [')', '>']

/-- A name with template arguments. -/
structure TemplateId where
  name : Name
  args : List Char
  named : name.1 ≠ []

def TemplateId.text (i : TemplateId) : List Char := i.name.1 ++ templateText i.args

/-- A type: `tail` is the name behind the last template arguments, or the whole base. -/
structure WellFormed where
  constructors : List Constructor
  templates : List TemplateId
  tail : Name
  based : templates ≠ [] ∨ tail.1 ≠ []

namespace WellFormed

def prefixText (t : WellFormed) : List Char := t.constructors.flatMap Constructor.text

def baseText (t : WellFormed) : List Char := t.templates.flatMap TemplateId.text ++ t.tail.1

def text (t : WellFormed) : List Char := t.prefixText ++ t.baseText

/-- The laws of splitting: the constructors are the prefix and the others the base; and
of a base with templates, the first one's arguments are taken out. -/
structure Splits (t : WellFormed) : Prop where
  prefix_eq : swigTypePrefix t.text = some t.prefixText
  base_eq : swigTypeBase t.text = t.baseText
  template : ∀ first others, t.templates = first :: others →
    swigTypeTemplateprefix t.baseText = first.name.1 ∧
      swigTypeTemplateargs t.baseText = some (templateText first.args) ∧
      swigTypeTemplatesuffix t.baseText = others.flatMap TemplateId.text ++ t.tail.1

end WellFormed

/-! ## From the left -/

section Left

variable {opening closing : Char}

theorem skipNested_of_nesting {n k : Nat} {l rest : List Char}
    (h : nesting opening closing n l = some k) :
    skipNested opening closing (n + 1) (l ++ rest) =
      skipNested opening closing (k + 1) rest := by
  induction l generalizing n with
  | nil =>
      obtain rfl : n = k := by simpa [nesting] using h
      rfl
  | cons x l ih =>
      rw [List.cons_append, skipNested]
      cases n with
      | zero =>
          rw [nesting] at h
          by_cases hx : x = closing
          · rw [if_pos hx] at h
            cases h
          · rw [if_neg hx] at h ⊢
            by_cases ho : x = opening
            · rw [if_pos ho] at h ⊢
              exact ih h
            · rw [if_neg ho] at h ⊢
              exact ih h
      | succ n =>
          rw [nesting] at h
          by_cases hx : x = closing
          · rw [if_pos hx] at h ⊢
            exact ih h
          · rw [if_neg hx] at h ⊢
            by_cases ho : x = opening
            · rw [if_pos ho] at h ⊢
              exact ih h
            · rw [if_neg ho] at h ⊢
              exact ih h

theorem skipNested_balanced {l : List Char} (h : Balanced opening closing l) (rest : List Char) :
    skipNested opening closing 1 (l ++ closing :: rest) = (0, rest) := by
  rw [show 1 = 0 + 1 from rfl, skipNested_of_nesting h, skipNested, if_pos rfl, skipNested]

end Left

/-- With turns enough for the text, the loop of `SwigType_base` gives `base`. -/
def BaseEnds (c lastop base : List Char) : Prop :=
  ∀ fuel, c.length < fuel → baseLoop fuel c lastop = base

section Base

variable {name l rest lastop base : List Char}

theorem BaseEnds.nil : BaseEnds [] lastop lastop := by
  intro fuel hfuel
  cases fuel with
  | zero => cases hfuel
  | succ fuel => rfl

theorem BaseEnds.plain (hname : ∀ x ∈ name, isPlain x = true) (h : BaseEnds rest lastop base) :
    BaseEnds (name ++ rest) lastop base := by
  induction name with
  | nil => exact h
  | cons x name ih =>
      intro fuel hfuel
      obtain ⟨fuel, rfl⟩ : ∃ f, fuel = f + 1 := ⟨fuel - 1, by omega⟩
      obtain ⟨hdot, hlt, -, hpar, -⟩ : x ≠ '.' ∧ x ≠ '<' ∧ x ≠ '>' ∧ x ≠ '(' ∧ x ≠ ')' := by
        simpa [isPlain] using hname x List.mem_cons_self
      rw [List.cons_append, baseLoop, if_neg hdot, if_neg hlt, if_neg hpar]
      refine ih (fun y hy => hname y (List.mem_cons_of_mem _ hy)) fuel ?_
      simp only [List.cons_append, List.length_cons] at hfuel
      omega

theorem BaseEnds.dot (hrest : rest ≠ []) (h : BaseEnds rest rest base) :
    BaseEnds ('.' :: rest) lastop base := by
  intro fuel hfuel
  obtain ⟨fuel, rfl⟩ : ∃ f, fuel = f + 1 := ⟨fuel - 1, by omega⟩
  rw [baseLoop, if_pos rfl, if_neg hrest]
  refine h fuel ?_
  simp only [List.length_cons] at hfuel
  omega

theorem BaseEnds.angles (hl : Balanced '<' '>' l) (h : BaseEnds rest lastop base) :
    BaseEnds ('<' :: (l ++ '>' :: rest)) lastop base := by
  intro fuel hfuel
  obtain ⟨fuel, rfl⟩ : ∃ f, fuel = f + 1 := ⟨fuel - 1, by omega⟩
  rw [baseLoop, if_neg (by decide), if_pos rfl, skipNested_balanced hl]
  refine h fuel ?_
  simp only [List.length_cons, List.length_append] at hfuel
  omega

theorem BaseEnds.parens (hl : Balanced '(' ')' l) (h : BaseEnds rest lastop base) :
    BaseEnds ('(' :: (l ++ ')' :: rest)) lastop base := by
  intro fuel hfuel
  obtain ⟨fuel, rfl⟩ : ∃ f, fuel = f + 1 := ⟨fuel - 1, by omega⟩
  rw [baseLoop, if_neg (by decide), if_neg (by decide), if_pos rfl, skipNested_balanced hl]
  refine h fuel ?_
  simp only [List.length_cons, List.length_append] at hfuel
  omega

end Base

/-! ## From the right -/

theorem skipNestedBack_of_nesting {opening closing : Char} (hne : opening ≠ closing)
    {n k : Nat} {l : List Char} {y : Char} {rest : List Char}
    (h : nesting closing opening n l = some k) :
    skipNestedBack opening closing (n + 1) (l ++ y :: rest) =
      skipNestedBack opening closing (k + 1) (y :: rest) := by
  induction l generalizing n with
  | nil =>
      obtain rfl : n = k := by simpa [nesting] using h
      rfl
  | cons x l ih =>
      -- There is always something behind the head.
      obtain ⟨z, r, hz⟩ : ∃ z r, l ++ y :: rest = z :: r :=
        List.exists_cons_of_ne_nil (by simp)
      rw [List.cons_append, hz, skipNestedBack, ← hz]
      cases n with
      | zero =>
          rw [nesting] at h
          by_cases hx : x = opening
          · rw [if_pos hx] at h
            cases h
          · rw [if_neg hx] at h
            rw [if_neg hx]
            by_cases hc : x = closing
            · rw [if_pos hc] at h ⊢
              exact ih h
            · rw [if_neg hc] at h ⊢
              exact ih h
      | succ n =>
          rw [nesting] at h
          by_cases hx : x = opening
          · have hc : x ≠ closing := fun hc => hne (hx.symm.trans hc)
            rw [if_pos hx] at h
            rw [if_neg hc, if_pos hx]
            exact ih h
          · rw [if_neg hx] at h
            rw [if_neg hx]
            by_cases hc : x = closing
            · rw [if_pos hc] at h ⊢
              exact ih h
            · rw [if_neg hc] at h ⊢
              exact ih h

theorem skipNestedBack_balanced {opening closing : Char} (hne : opening ≠ closing)
    {l : List Char} (h : Balanced opening closing l) (y : Char) (rest : List Char) :
    skipNestedBack opening closing 1 (l.reverse ++ opening :: y :: rest) = y :: rest := by
  rw [show 1 = 0 + 1 from rfl, skipNestedBack_of_nesting hne (h.reverse hne), skipNestedBack,
    if_neg hne, if_pos rfl]
  rfl

/-- With turns enough, the loop of `SwigType_prefix` gives `result` from what is before
`d`, given backwards. -/
def PrefixEnds (before result : List Char) : Prop :=
  ∀ fuel, before.length < fuel → prefixLoop fuel before = some result

theorem PrefixEnds.nil : PrefixEnds [] [] := by
  intro fuel hfuel
  cases fuel with
  | zero => cases hfuel
  | succ fuel => rfl

theorem PrefixEnds.dot (before : List Char) :
    PrefixEnds ('.' :: before) ('.' :: before).reverse := by
  intro fuel hfuel
  obtain ⟨fuel, rfl⟩ : ∃ f, fuel = f + 1 := ⟨fuel - 1, by omega⟩
  simp [prefixLoop]

theorem PrefixEnds.plain {name before result : List Char}
    (hname : ∀ x ∈ name, isPlain x = true) (h : PrefixEnds before result) :
    PrefixEnds (name ++ before) result := by
  induction name with
  | nil => exact h
  | cons x name ih =>
      intro fuel hfuel
      obtain ⟨fuel, rfl⟩ : ∃ f, fuel = f + 1 := ⟨fuel - 1, by omega⟩
      obtain ⟨hdot, -, hgt, -, hpar⟩ : x ≠ '.' ∧ x ≠ '<' ∧ x ≠ '>' ∧ x ≠ '(' ∧ x ≠ ')' := by
        simpa [isPlain] using hname x List.mem_cons_self
      rw [List.cons_append, prefixLoop]
      simp only [hgt, hdot, if_false, List.head?_cons, Option.some.injEq, hpar]
      refine ih (fun y hy => hname y (List.mem_cons_of_mem _ hy)) fuel ?_
      simp only [List.cons_append, List.length_cons] at hfuel
      omega

/-- The character before the `<` is gone past with the template arguments. -/
theorem PrefixEnds.angles {l before result : List Char} {y : Char}
    (hl : Balanced '<' '>' l) (hy : isPlain y = true) (h : PrefixEnds before result) :
    PrefixEnds ('>' :: (l.reverse ++ '<' :: y :: before)) result := by
  intro fuel hfuel
  obtain ⟨fuel, rfl⟩ : ∃ f, fuel = f + 1 := ⟨fuel - 1, by omega⟩
  obtain ⟨hdot, -, -, -, hpar⟩ : y ≠ '.' ∧ y ≠ '<' ∧ y ≠ '>' ∧ y ≠ '(' ∧ y ≠ ')' := by
    simpa [isPlain] using hy
  rw [prefixLoop]
  simp only [if_true, skipNestedBack_balanced (show '<' ≠ '>' by decide) hl, List.head?_cons,
    Option.some.injEq, hpar, hdot, if_false]
  refine h fuel ?_
  simp only [List.length_cons, List.length_append] at hfuel
  omega

/-! ## Template arguments -/

theorem nesting_parens {n : Nat} {l : List Char} :
    nesting '<' '>' n ('(' :: (l ++ [')'])) = nesting '<' '>' n l := by
  have hopen : ∀ m, nesting '<' '>' n ('(' :: m) = nesting '<' '>' n m := by
    intro m
    cases n <;> simp [nesting]
  have hclose : ∀ k, nesting '<' '>' k [')'] = some k := by
    intro k
    cases k <;> simp [nesting]
  rw [hopen, nesting_append]
  simp [hclose]

theorem closeAngles_close (n : Nat) (c : List Char) :
    closeAngles (n + 1) ('>' :: c) = ('>' :: (closeAngles n c).1, (closeAngles n c).2) := by
  rw [closeAngles]
  simp

theorem closeAngles_open (n : Nat) (c : List Char) :
    closeAngles (n + 1) ('<' :: c) =
      ('<' :: (closeAngles (n + 2) c).1, (closeAngles (n + 2) c).2) := by
  rw [closeAngles]
  simp

theorem closeAngles_other (n : Nat) {x : Char} (hclose : x ≠ '>') (hopen : x ≠ '<')
    (c : List Char) :
    closeAngles (n + 1) (x :: c) =
      (x :: (closeAngles (n + 1) c).1, (closeAngles (n + 1) c).2) := by
  rw [closeAngles]
  simp [hclose, hopen]

theorem closeAngles_of_nesting {n k : Nat} {l : List Char}
    (h : nesting '<' '>' n l = some k) (rest : List Char) :
    closeAngles (n + 1) (l ++ rest) =
      (l ++ (closeAngles (k + 1) rest).1, (closeAngles (k + 1) rest).2) := by
  induction l generalizing n with
  | nil =>
      obtain rfl : n = k := by simpa [nesting] using h
      rfl
  | cons x l ih =>
      rw [List.cons_append]
      by_cases hx : x = '>'
      · subst hx
        cases n with
        | zero => cases h
        | succ n =>
            have hl : nesting '<' '>' n l = some k := h
            rw [closeAngles_close, ih hl]
            rfl
      · by_cases ho : x = '<'
        · subst ho
          have hl : nesting '<' '>' (n + 1) l = some k := by
            cases n <;> exact h
          rw [closeAngles_open, ih hl]
          rfl
        · have hl : nesting '<' '>' n l = some k := by
            cases n <;> simpa [nesting, hx, ho] using h
          rw [closeAngles_other n hx ho, ih hl]
          rfl

theorem strstr_template {name rest : List Char} (hname : ∀ x ∈ name, isPlain x = true) :
    strstr ['<', '('] (name ++ '<' :: '(' :: rest) = some name.length := by
  induction name with
  | nil => simp [strstr]
  | cons x name ih =>
      obtain ⟨-, hlt, -⟩ : x ≠ '.' ∧ x ≠ '<' ∧ x ≠ '>' ∧ x ≠ '(' ∧ x ≠ ')' := by
        simpa [isPlain] using hname x List.mem_cons_self
      rw [List.cons_append, strstr, ih fun y hy => hname y (List.mem_cons_of_mem _ hy)]
      simp [Ne.symm hlt]

/-- What the three functions give is decided by where the first angle bracket closes. -/
theorem template_parts {name : List Char} (hname : ∀ x ∈ name, isPlain x = true)
    (inside : List Char) :
    swigTypeTemplateprefix (name ++ '<' :: '(' :: inside) = name ∧
      swigTypeTemplateargs (name ++ '<' :: '(' :: inside) =
        some ('<' :: (closeAngles 1 ('(' :: inside)).1) ∧
      swigTypeTemplatesuffix (name ++ '<' :: '(' :: inside) =
        (closeAngles 1 ('(' :: inside)).2 := by
  have hdrop : (name ++ '<' :: '(' :: inside).drop (name.length + 1) = '(' :: inside := by
    rw [← List.drop_drop, List.drop_left]
    rfl
  rw [ swigTypeTemplateprefix, swigTypeTemplateargs, swigTypeTemplatesuffix,
    strstr_template hname]
  simp [hdrop]

/-! ## Well-formed types are split -/

theorem Constructor.letter_plain (e : Constructor) : ∀ x ∈ [e.parts.1], isPlain x = true := by
  cases e <;> simp [parts, isPlain]

theorem BaseEnds.constructor (e : Constructor) {rest lastop base : List Char}
    (hrest : rest ≠ []) (h : BaseEnds rest rest base) :
    BaseEnds (e.text ++ rest) lastop base := by
  rw [Constructor.text]
  cases e.parts.2 with
  | none =>
      have hend : BaseEnds ([e.parts.1] ++ '.' :: rest) lastop base :=
        (BaseEnds.dot hrest h).plain e.letter_plain
      exact hend
  | some inside =>
      have hend : BaseEnds ([e.parts.1] ++ '(' :: (inside.1 ++ ')' :: '.' :: rest)) lastop
          base := ((BaseEnds.dot hrest h).parens inside.2).plain e.letter_plain
      simpa using hend

theorem Constructor.text_dot (e : Constructor) : ∃ l, e.text = l ++ ['.'] := by
  rw [text]
  cases e.parts.2 with
  | none => exact ⟨[e.parts.1], rfl⟩
  | some inside => exact ⟨e.parts.1 :: '(' :: (inside.1 ++ [')']), by simp⟩

theorem BaseEnds.templates {is : List TemplateId} {rest lastop base : List Char}
    (hbalanced : ∀ i ∈ is, Balanced '<' '>' i.args) (h : BaseEnds rest lastop base) :
    BaseEnds (is.flatMap TemplateId.text ++ rest) lastop base := by
  induction is with
  | nil => exact h
  | cons i is ih =>
      have hi : Balanced '<' '>' ('(' :: (i.args ++ [')'])) :=
        nesting_parens.trans (hbalanced i List.mem_cons_self)
      have htext := (BaseEnds.angles hi
        (ih fun j hj => hbalanced j (List.mem_cons_of_mem _ hj))).plain i.name.2
      simpa [TemplateId.text, templateText] using htext

theorem PrefixEnds.templates {is : List TemplateId} {before result : List Char}
    (hbalanced : ∀ i ∈ is, Balanced '<' '>' i.args) (h : PrefixEnds before result) :
    PrefixEnds ((is.flatMap TemplateId.text).reverse ++ before) result := by
  induction is generalizing before with
  | nil => exact h
  | cons i is ih =>
      have hi : Balanced '<' '>' ('(' :: (i.args ++ [')'])) :=
        nesting_parens.trans (hbalanced i List.mem_cons_self)
      have hplain : ∀ x ∈ i.name.1.reverse, isPlain x = true := fun x hx =>
        i.name.2 x (List.mem_reverse.1 hx)
      obtain ⟨y, name, hname⟩ := List.exists_cons_of_ne_nil
        (show i.name.1.reverse ≠ [] by simpa using i.named)
      rw [hname] at hplain
      have htext := PrefixEnds.angles hi (hplain y List.mem_cons_self)
        (h.plain fun x hx => hplain x (List.mem_cons_of_mem _ hx))
      have hstep := ih (fun j hj => hbalanced j (List.mem_cons_of_mem _ hj)) htext
      simpa [TemplateId.text, templateText, hname] using hstep

namespace WellFormed

variable (t : WellFormed)

theorem baseText_last : ∃ l x, t.baseText = l ++ [x] ∧ x ≠ '.' := by
  rcases List.eq_nil_or_concat t.tail.1 with htail | ⟨l, x, htail⟩
  · have hsome := t.based.resolve_right fun h => h htail
    obtain ⟨is, i, hi⟩ := (List.eq_nil_or_concat t.templates).resolve_left hsome
    refine ⟨is.flatMap TemplateId.text ++ i.name.1 ++ '<' :: '(' :: (i.args ++ [')']), '>',
      ?_, by decide⟩
    rw [baseText, hi, htail]
    simp [TemplateId.text, templateText]
  · have hx := t.tail.2 x (by rw [htail]; simp)
    refine ⟨t.templates.flatMap TemplateId.text ++ l, x, ?_, ?_⟩
    · rw [baseText, htail]
      simp
    · rintro rfl
      exact absurd hx (by decide)

theorem baseText_ne_nil : t.baseText ≠ [] := by
  obtain ⟨l, x, h, -⟩ := t.baseText_last
  rw [h]
  simp

theorem prefixText_dot : t.prefixText = [] ∨ ∃ l, t.prefixText = l ++ ['.'] := by
  rcases List.eq_nil_or_concat t.constructors with h | ⟨es, e, h⟩
  · left
    rw [prefixText, h]
    rfl
  · right
    obtain ⟨l, hl⟩ := e.text_dot
    refine ⟨es.flatMap Constructor.text ++ l, ?_⟩
    rw [prefixText, h]
    simp [hl]

theorem swigTypeBase_text (hbalanced : ∀ i ∈ t.templates, Balanced '<' '>' i.args) :
    swigTypeBase t.text = t.baseText := by
  have hbase : ∀ lastop, BaseEnds t.baseText lastop lastop := by
    intro lastop
    have htail : BaseEnds t.tail.1 lastop lastop := by
      simpa using BaseEnds.nil.plain t.tail.2
    exact htail.templates hbalanced
  have hwhole : ∀ es : List Constructor,
      BaseEnds (es.flatMap Constructor.text ++ t.baseText)
        (es.flatMap Constructor.text ++ t.baseText) t.baseText := by
    intro es
    induction es with
    | nil => exact hbase _
    | cons e es ih =>
        rw [List.flatMap_cons, List.append_assoc]
        exact BaseEnds.constructor e (by simp [t.baseText_ne_nil]) ih
  exact hwhole t.constructors _ (Nat.lt_succ_self _)

theorem swigTypePrefix_text (hbalanced : ∀ i ∈ t.templates, Balanced '<' '>' i.args) :
    swigTypePrefix t.text = some t.prefixText := by
  have hends : PrefixEnds t.prefixText.reverse t.prefixText := by
    rcases t.prefixText_dot with h | ⟨l, h⟩
    · rw [h]
      exact PrefixEnds.nil
    · rw [h]
      simpa using PrefixEnds.dot l.reverse
  have hplain : ∀ x ∈ t.tail.1.reverse, isPlain x = true := fun x hx =>
    t.tail.2 x (List.mem_reverse.1 hx)
  have hend : PrefixEnds t.text.reverse t.prefixText := by
    simpa [text, baseText] using (hends.templates hbalanced).plain hplain
  have hhead : t.text.reverse.head? ≠ some '.' := by
    obtain ⟨l, x, h, hx⟩ := t.baseText_last
    simpa [text, h] using hx
  rw [swigTypePrefix]
  simp only [if_neg hhead]
  refine hend _ ?_
  rw [List.length_reverse]
  exact Nat.lt_succ_self _

theorem baseText_template {first : TemplateId} {others : List TemplateId}
    (h : t.templates = first :: others) :
    t.baseText = first.name.1 ++ '<' :: '(' ::
      (first.args ++ ')' :: '>' :: (others.flatMap TemplateId.text ++ t.tail.1)) := by
  rw [baseText, h]
  simp [TemplateId.text, templateText]

/-- The arguments are taken out as they are when they are balanced. -/
theorem template_of_balanced {first : TemplateId} {others : List TemplateId}
    (h : t.templates = first :: others) (hbalanced : Balanced '<' '>' first.args) :
    swigTypeTemplateprefix t.baseText = first.name.1 ∧
      swigTypeTemplateargs t.baseText = some (templateText first.args) ∧
      swigTypeTemplatesuffix t.baseText = others.flatMap TemplateId.text ++ t.tail.1 := by
  have hinside : nesting '<' '>' 0 ('(' :: (first.args ++ [')'])) = some 0 :=
    nesting_parens.trans hbalanced
  have hclose : closeAngles 1 ('(' :: (first.args ++ ')' :: '>' ::
      (others.flatMap TemplateId.text ++ t.tail.1))) =
      ('(' :: (first.args ++ [')', '>']), others.flatMap TemplateId.text ++ t.tail.1) := by
    have hrun := closeAngles_of_nesting hinside
      ('>' :: (others.flatMap TemplateId.text ++ t.tail.1))
    rw [closeAngles_close] at hrun
    simpa [closeAngles] using hrun
  obtain ⟨hpre, hargs, hsuffix⟩ := template_parts first.name.2
    (first.args ++ ')' :: '>' :: (others.flatMap TemplateId.text ++ t.tail.1))
  rw [t.baseText_template h, hpre, hargs, hsuffix, hclose]
  exact ⟨rfl, rfl, rfl⟩

theorem splits_of_balanced (h : ∀ i ∈ t.templates, Balanced '<' '>' i.args) : t.Splits where
  prefix_eq := t.swigTypePrefix_text h
  base_eq := t.swigTypeBase_text h
  template first others htemplates := t.template_of_balanced htemplates
    (h first (by rw [htemplates]; exact List.mem_cons_self))

/-- Brackets that do not balance end the arguments too early or, when something follows
them, too late. -/
theorem balanced_of_args {first : TemplateId} {others : List TemplateId}
    (h : t.templates = first :: others) (hscope : others ≠ [] ∨ t.tail.1 ≠ [])
    (hargs : swigTypeTemplateargs t.baseText = some (templateText first.args)) :
    Balanced '<' '>' first.args := by
  obtain ⟨rest, hrest⟩ : ∃ rest, rest = others.flatMap TemplateId.text ++ t.tail.1 := ⟨_, rfl⟩
  have hne : rest ≠ [] := by
    rw [hrest]
    rcases hscope with hothers | htail
    · obtain ⟨i, is, rfl⟩ := List.exists_cons_of_ne_nil hothers
      simp [TemplateId.text, templateText]
    · simp [htail]
  rw [t.baseText_template h, ← hrest, (template_parts first.name.2 _).2.1] at hargs
  have hclosed : (closeAngles 1 ('(' :: (first.args ++ ')' :: '>' :: rest))).1 =
      '(' :: (first.args ++ [')', '>']) := by
    simpa [templateText] using hargs
  have hlength := congrArg List.length hclosed
  simp only [List.length_cons, List.length_append, List.length_nil] at hlength
  have hinside : nesting '<' '>' 0 ('(' :: (first.args ++ [')'])) =
      nesting '<' '>' 0 first.args := nesting_parens
  cases hnest : nesting '<' '>' 0 first.args with
  | none =>
      obtain ⟨u, w, hsplit, hu⟩ := nesting_eq_none hnest
      have hu' : nesting '<' '>' 0 ('(' :: u) = some 0 := by simpa [nesting] using hu
      have hrun := closeAngles_of_nesting hu' ('>' :: (w ++ ')' :: '>' :: rest))
      rw [closeAngles_close] at hrun
      have hshort : (closeAngles 1 ('(' :: (first.args ++ ')' :: '>' :: rest))).1 =
          '(' :: (u ++ ['>']) := by
        rw [hsplit]
        simpa [closeAngles] using congrArg Prod.fst hrun
      rw [hshort, hsplit] at hlength
      simp only [List.length_cons, List.length_append, List.length_nil] at hlength
      omega
  | some k =>
      cases k with
      | zero => exact hnest
      | succ k =>
          have hrun := closeAngles_of_nesting (hinside.trans hnest) ('>' :: rest)
          rw [closeAngles_close] at hrun
          obtain ⟨x, r, rfl⟩ := List.exists_cons_of_ne_nil hne
          -- At least one more character is gone past.
          have hlong : 1 ≤ (closeAngles (k + 1) (x :: r)).1.length := by
            rw [closeAngles]
            simp
          have hwhole : (closeAngles 1 ('(' :: (first.args ++ ')' :: '>' :: x :: r))).1 =
              '(' :: (first.args ++ ')' :: '>' :: (closeAngles (k + 1) (x :: r)).1) := by
            simpa using congrArg Prod.fst hrun
          rw [hwhole] at hlength
          simp only [List.length_cons, List.length_append] at hlength
          omega

end WellFormed

/-- A type whose template arguments all balance their angle brackets is split right; and
when a template is followed by more of the name, no other arguments are. -/
theorem splits_iff_balanced (t : WellFormed) :
    ((∀ i ∈ t.templates, Balanced '<' '>' i.args) → t.Splits) ∧
      ∀ (first : TemplateId) (others : List TemplateId),
        t.templates = first :: others → (∀ i ∈ others, Balanced '<' '>' i.args) →
          (others ≠ [] ∨ t.tail.1 ≠ []) →
            (t.Splits ↔ Balanced '<' '>' first.args) := by
  refine ⟨t.splits_of_balanced, fun first others h hothers hscope => ⟨?_, ?_⟩⟩
  · intro hsplits
    exact t.balanced_of_args h hscope (hsplits.template first others h).2.1
  · intro hfirst
    refine t.splits_of_balanced fun i hi => ?_
    rw [h] at hi
    rcases List.mem_cons.1 hi with rfl | hi
    · exact hfirst
    · exact hothers i hi

/-! ## An argument with a comparison -/

/-- `A<(4 >= 2,p.int)>`. -/
def comparedTemplate : WellFormed where
  constructors := []
  templates := [⟨⟨"A".toList, by simp [isPlain]⟩, "4 >= 2,p.int".toList, by simp⟩]
  tail := ⟨[], by simp⟩
  based := Or.inl (by simp)

/-- The base is what follows the dot of `p.int`, and there is no prefix. -/
theorem comparedTemplate_lost :
    swigTypePrefix comparedTemplate.text = some [] ∧
      swigTypeBase comparedTemplate.text = "int)>".toList ∧
      [] ++ swigTypeBase comparedTemplate.text ≠ comparedTemplate.text ∧
      swigTypeTemplateargs comparedTemplate.baseText = some "<(4 >".toList := by
  decide

end Swig4Ada.Swig

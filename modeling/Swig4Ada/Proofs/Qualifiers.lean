import Swig4Ada.Ada.TypeMaps
import Swig4Ada.Proofs.ArrayBounds
import Swig4Ada.Lib.Marked
import Swig4Ada.Proofs.TypeObj

/-!
# What `strip_all_qualifiers` leaves of a type

A type is here its text with the qualifiers and the tags marked: its constructors, with what
is in their parentheses, and its base with template arguments. The tokens that are deleted
do not overlap, so where none of them is spelled by the rest of the text, a marked one is
deleted wherever it is. `SwigType_strip_qualifiers` drops the constructors that are
qualifiers, and what is inside of the others it leaves alone.
-/

namespace Swig4Ada.Ada

open Swig4Ada.Lib Swig4Ada.Swig

/-! ## Types with marks -/

inductive Mark
  | const
  | volatile
  /-- The element of both qualifiers. -/
  | constVolatile
  | struct
  | enum
deriving DecidableEq, Repr

instance : Fintype Mark :=
  ⟨{.const, .volatile, .constVolatile, .struct, .enum}, fun k => by cases k <;> decide⟩

def Mark.text : Mark → List Char
  | .const => ['q', '(', 'c', 'o', 'n', 's', 't', ')', '.']
  | .volatile => ['q', '(', 'v', 'o', 'l', 'a', 't', 'i', 'l', 'e', ')', '.']
  | .constVolatile => "q(const volatile).".toList
  | .struct => ['s', 't', 'r', 'u', 'c', 't', ' ']
  | .enum => ['e', 'n', 'u', 'm', ' ']

def Mark.isQualifier : Mark → Bool
  | .const | .volatile | .constVolatile => true
  | .struct | .enum => false

/-- A text with its qualifier elements, and its tags where they are separate words. -/
abbrev MarkedText := List (Char ⊕ Mark)

def plainText (text : List Char) : MarkedText := text.map Sum.inl

/-- A marked token is no part of a longer word. -/
def apart : Char ⊕ Mark → Char ⊕ Mark → Bool
  | .inl c, .inr _ => !(c.isAlphanum || c = '_')
  | _, _ => true

/-- What is in parentheses, with parentheses that nest. -/
structure Inside where
  items : MarkedText
  nested : Balanced '(' ')' (written Mark.text items)
  apart : items.IsChain fun x y => apart x y = true

inductive TypeElement
  | qualifier (q : { q : Mark // q.isQualifier = true })
  /-- A pointer or a reference: the letter alone. -/
  | letter (c : Char) (h : isPlain c = true)
  /-- An array, a function or a pointer to a member. -/
  | parens (c : Char) (h : isPlain c = true) (hq : c ≠ 'q') (inside : Inside)

def TypeElement.items : TypeElement → MarkedText
  | .qualifier q => [.inr q.1]
  | .letter c _ => plainText [c, '.']
  | .parens c _ _ inside => plainText [c, '('] ++ inside.items ++ plainText [')', '.']

/-- A tag in front of a name. -/
def Tag : Type := { q : Mark // q.isQualifier = false }

/-- A type: `tail` is the name behind the last template arguments, or the whole base. -/
structure TaggedType where
  elements : List TypeElement
  tag : Option Tag
  templates : List (Name × Inside)
  tail : Name

namespace TaggedType

def templateItems (i : Name × Inside) : MarkedText :=
  plainText i.1.1 ++ plainText ['<', '('] ++ i.2.items ++ plainText [')', '>']

def baseItems (t : TaggedType) : MarkedText :=
  (t.tag.map fun tag => (.inr tag.1 : Char ⊕ Mark)).toList ++
    t.templates.flatMap templateItems ++ plainText t.tail.1

def items (t : TaggedType) : MarkedText := t.elements.flatMap TypeElement.items ++ t.baseItems

def text (t : TaggedType) : List Char := written Mark.text t.items

/-- The text without any qualifier element, on any level, and without the tags. -/
def stripped (t : TaggedType) : List Char := unmarked t.items

def Untagged (t : TaggedType) : Prop :=
  ∀ k : Mark, k.isQualifier = false → (.inr k : Char ⊕ Mark) ∉ t.items

/-- All qualifiers are elements of the type itself. -/
structure TopLevel (t : TaggedType) : Prop where
  untagged : t.tag = none
  parens : ∀ c h hq inside, TypeElement.parens c h hq inside ∈ t.elements →
    ∀ k : Mark, .inr k ∉ inside.items
  templates : ∀ i ∈ t.templates, ∀ k : Mark, .inr k ∉ i.2.items

end TaggedType

/-! ## Deleting tokens -/

theorem noOverlap_marks : NoOverlap Mark.text := by
  unfold NoOverlap
  decide

variable {items : MarkedText} {k : Mark}

/-- The text without the marks of one token. -/
def without (k : Mark) (items : MarkedText) : MarkedText :=
  items.filter fun x => !decide (x = .inr k)

theorem without_eq (h : (.inr k : Char ⊕ Mark) ∉ items) : without k items = items :=
  List.filter_eq_self.2 fun x hx => by
    have hne : x ≠ .inr k := fun hk => h (hk ▸ hx)
    simp [hne]

theorem unmarked_without (k : Mark) (items : MarkedText) :
    unmarked (without k items) = unmarked items := by
  induction items with
  | nil => rfl
  | cons x items ih =>
      rw [without] at ih ⊢
      by_cases hx : x = .inr k
      · rw [List.filter_cons_of_neg (by simp [hx]), ih, hx]
        rfl
      · rw [List.filter_cons_of_pos (by simp [hx])]
        cases x with
        | inl c => exact congrArg (c :: ·) ih
        | inr j => exact ih

theorem mem_without {j : Mark} :
    (.inr j : Char ⊕ Mark) ∈ without k items ↔ .inr j ∈ items ∧ j ≠ k := by
  rw [without, List.mem_filter]
  simp

theorem rid_written {fuel : Nat} (hnot : ¬ k.text <:+: unmarked items)
    (hfuel : items.countP (fun x => decide (x = .inr k)) ≤ fuel) :
    rid k.text fuel (written Mark.text items) = written Mark.text (without k items) := by
  induction fuel generalizing items with
  | zero =>
      have hnone := List.countP_eq_zero.1 (Nat.le_zero.1 hfuel)
      rw [rid, without_eq fun hmem => hnone _ hmem (decide_eq_true rfl)]
  | succ fuel ih =>
      rw [rid]
      cases hi : index k.text (written Mark.text items) with
      | none =>
          have hnone : (.inr k : Char ⊕ Mark) ∉ items := by
            intro hmem
            obtain ⟨pre, post, rfl⟩ := List.append_of_mem hmem
            refine index_eq_none_iff.1 hi ⟨written Mark.text pre, written Mark.text post, ?_⟩
            rw [written_append, written_token, List.append_assoc]
          rw [without_eq hnone]
      | some i =>
          have hprefix := index_prefix hi
          have hlt : i < (written Mark.text items).length := by
            by_contra hge
            rw [List.drop_of_length_le (by omega)] at hprefix
            have hnil := List.prefix_nil.1 hprefix
            cases k <;> cases hnil
          rcases occurs noOverlap_marks hlt hprefix with ⟨pre, post, rfl, hpre⟩ | hin
          · have hrest : (written Mark.text (pre ++ .inr k :: post)).take i ++
                (written Mark.text (pre ++ .inr k :: post)).drop (i + k.text.length) =
                written Mark.text (pre ++ post) := by
              rw [written_append, written_token, hpre, List.take_left, ← List.drop_drop,
                List.drop_left, List.drop_left, written_append]
            have hone : (.inr k :: post : MarkedText).countP (fun x => decide (x = .inr k)) =
                post.countP (fun x => decide (x = .inr k)) + 1 :=
              List.countP_cons_of_pos (by simp)
            rw [List.countP_append, hone] at hfuel
            have hsame : unmarked (pre ++ post) = unmarked (pre ++ .inr k :: post) := by
              rw [unmarked_append, unmarked_append, unmarked_token]
            show rid k.text fuel _ = _
            rw [hrest, ih (by rw [hsame]; exact hnot) (by rw [List.countP_append]; omega)]
            congr 1
            rw [without, without, List.filter_append, List.filter_append,
              List.filter_cons_of_neg (by simp)]
          · exact absurd hin hnot

/-- Every mark is written out with a character at least. -/
theorem countP_le_length (p : Char ⊕ Mark → Bool) (items : MarkedText) :
    items.countP p ≤ (written Mark.text items).length := by
  induction items with
  | nil => exact Nat.le_refl 0
  | cons x items ih =>
      have hcons : (x :: items).countP p ≤ items.countP p + 1 := by
        rw [List.countP_cons]
        split <;> omega
      have hlong : (written Mark.text items).length + 1 ≤ (written Mark.text (x :: items)).length := by
        cases x with
        | inl c => exact Nat.le_refl _
        | inr k =>
            rw [written_token, List.length_append]
            have hk : 0 < k.text.length := by cases k <;> decide
            omega
      omega

theorem ridAll_written (hnot : ¬ k.text <:+: unmarked items) {token : List Char}
    (htoken : token = k.text) :
    rid token ((written Mark.text items).length + 1) (written Mark.text items) =
      written Mark.text (without k items) := by
  rw [htoken]
  exact rid_written hnot (Nat.le_succ_of_le (countP_le_length _ _))

theorem written_of_unmarked (h : ∀ j : Mark, (.inr j : Char ⊕ Mark) ∉ items) :
    written Mark.text items = unmarked items := by
  induction items with
  | nil => rfl
  | cons x items ih =>
      have htail := ih fun j hj => h j (List.mem_cons_of_mem _ hj)
      cases x with
      | inl c => rw [written_char, unmarked_char, htail]
      | inr j => exact absurd List.mem_cons_self (h j)

/-- A token is spelled by characters without any mark. -/
def Spelled (text : List Char) : Prop := ∃ k : Mark, k.text <:+: text

theorem stripAllQualifiers_written (hnot : ¬ Spelled (unmarked items))
    (hsingle : (.inr .constVolatile : Char ⊕ Mark) ∉ items) :
    stripAllQualifiers (written Mark.text items) = unmarked items := by
  have hrid : ∀ (k : Mark) {token : String} {m : MarkedText}, unmarked m = unmarked items →
      token.toList = k.text →
      rid token.toList ((written Mark.text m).length + 1) (written Mark.text m) =
        written Mark.text (without k m) :=
    fun k _ _ hm htoken => ridAll_written (fun hin => hnot ⟨k, hm ▸ hin⟩) htoken
  have h₁ := unmarked_without .const items
  have h₂ := (unmarked_without .volatile _).trans h₁
  have h₃ := (unmarked_without .struct _).trans h₂
  have h₄ := (unmarked_without .enum _).trans h₃
  rw [stripAllQualifiers, List.foldl_cons, hrid .const rfl (by decide), List.foldl_cons,
    hrid .volatile h₁ (by decide), List.foldl_cons, hrid .struct h₂ (by decide),
    List.foldl_cons, hrid .enum h₃ (by decide), List.foldl_nil]
  rw [← h₄]
  have hnone : ∀ j : Mark, (.inr j : Char ⊕ Mark) ∉
      without .enum (without .struct (without .volatile (without .const items))) := by
    intro j hj
    simp only [mem_without] at hj
    cases j with
    | const => exact hj.1.1.1.2 rfl
    | volatile => exact hj.1.1.2 rfl
    | constVolatile => exact hsingle hj.1.1.1.1
    | struct => exact hj.1.2 rfl
    | enum => exact hj.2 rfl
  exact written_of_unmarked hnone

/-! ## Dropping elements -/

/-- With turns enough for the text, `SwigType_del_element` leaves `rest`. -/
def DelEnds (c rest : List Char) : Prop := ∀ fuel, c.length < fuel → delElement fuel c = rest

section DelElement

variable {name l c rest : List Char}

theorem DelEnds.nil : DelEnds [] [] := by
  intro fuel hfuel
  cases fuel with
  | zero => cases hfuel
  | succ fuel => rfl

theorem DelEnds.dot (c : List Char) : DelEnds ('.' :: c) c := by
  intro fuel hfuel
  obtain ⟨fuel, rfl⟩ : ∃ f, fuel = f + 1 := ⟨fuel - 1, by omega⟩
  rw [delElement, if_pos rfl]

theorem DelEnds.other {x : Char} (hdot : x ≠ '.') (hpar : x ≠ '(') (h : DelEnds c rest) :
    DelEnds (x :: c) rest := by
  intro fuel hfuel
  obtain ⟨fuel, rfl⟩ : ∃ f, fuel = f + 1 := ⟨fuel - 1, by omega⟩
  rw [delElement, if_neg hdot, if_neg hpar]
  refine h fuel ?_
  rw [List.length_cons] at hfuel
  omega

theorem DelEnds.plain (hname : ∀ x ∈ name, isPlain x = true) (h : DelEnds c rest) :
    DelEnds (name ++ c) rest := by
  induction name with
  | nil => exact h
  | cons x name ih =>
      obtain ⟨hdot, -, -, hpar, -⟩ : x ≠ '.' ∧ x ≠ '<' ∧ x ≠ '>' ∧ x ≠ '(' ∧ x ≠ ')' := by
        simpa [isPlain] using hname x List.mem_cons_self
      exact DelEnds.other hdot hpar (ih fun y hy => hname y (List.mem_cons_of_mem _ hy))

theorem DelEnds.parens (hl : Balanced '(' ')' l) (h : DelEnds c rest) :
    DelEnds ('(' :: (l ++ ')' :: c)) rest := by
  intro fuel hfuel
  obtain ⟨fuel, rfl⟩ : ∃ f, fuel = f + 1 := ⟨fuel - 1, by omega⟩
  rw [delElement, if_neg (by decide), if_pos rfl, skipNested_balanced hl]
  refine h fuel ?_
  simp only [List.length_cons, List.length_append] at hfuel
  omega

end DelElement

/-- One turn of `SwigType_split`. -/
theorem swigTypeSplit_element {e : List Char} (rest : List Char) (hne : e ≠ []) (hrest : rest.head? ≠ some '.')
    (h : DelEnds (e ++ rest) rest) (fuel : Nat) :
    swigTypeSplit (fuel + 1) (e ++ rest) = e :: swigTypeSplit fuel rest := by
  obtain ⟨x, e, rfl⟩ := List.exists_cons_of_ne_nil hne
  have hdel := h ((e ++ rest).length + 2) (by
    rw [List.cons_append, List.length_cons]
    omega)
  rw [List.cons_append] at hdel ⊢
  rw [swigTypeSplit, hdel, if_neg hrest]
  congr 1
  rw [← List.cons_append, List.length_append, Nat.add_sub_cancel, List.take_left]

@[simp] theorem written_plainText (l : List Char) : written Mark.text (plainText l) = l := by
  induction l with
  | nil => rfl
  | cons c l ih => exact congrArg (c :: ·) ih

@[simp] theorem unmarked_plainText (l : List Char) : unmarked (plainText l) = l := by
  induction l with
  | nil => rfl
  | cons c l ih => exact congrArg (c :: ·) ih

namespace TypeElement

def text (e : TypeElement) : List Char := written Mark.text e.items

theorem text_parens {c : Char} {h : isPlain c = true} {hq : c ≠ 'q'} {inside : Inside} :
    (parens c h hq inside).text =
      c :: '(' :: (written Mark.text inside.items ++ [')', '.']) := by
  rw [text, items, written_append, written_append, written_plainText, written_plainText]
  rfl

theorem text_qualifier (q : { q : Mark // q.isQualifier = true }) :
    ∃ l, Balanced '(' ')' l ∧ (qualifier q).text = 'q' :: '(' :: (l ++ [')', '.']) := by
  have hmark : ∀ k : Mark, k.isQualifier = true →
      Balanced '(' ')' ((k.text.drop 2).dropLast.dropLast) ∧
        k.text = 'q' :: '(' :: ((k.text.drop 2).dropLast.dropLast ++ [')', '.']) := by
    decide
  have htext : (qualifier q).text = q.1.text := List.append_nil _
  exact ⟨_, (hmark q.1 q.2).1, htext.trans (hmark q.1 q.2).2⟩

/-- An element is a letter and perhaps something in parentheses. -/
theorem text_cases (e : TypeElement) :
    ∃ c, isPlain c = true ∧ (e.text = [c, '.'] ∨
      ∃ l, Balanced '(' ')' l ∧ e.text = c :: '(' :: (l ++ [')', '.'])) := by
  cases e with
  | qualifier q => exact ⟨'q', by decide, Or.inr (text_qualifier q)⟩
  | letter c h => exact ⟨c, h, Or.inl rfl⟩
  | parens c h hq inside => exact ⟨c, h, Or.inr ⟨_, inside.nested, text_parens⟩⟩

theorem text_ne_nil (e : TypeElement) : e.text ≠ [] := by
  obtain ⟨c, -, htext | ⟨l, -, htext⟩⟩ := e.text_cases
  · rw [htext]
    exact List.cons_ne_nil _ _
  · rw [htext]
    exact List.cons_ne_nil _ _

/-- An element does not begin with a dot. -/
theorem text_head (e : TypeElement) (rest : List Char) : (e.text ++ rest).head? ≠ some '.' := by
  obtain ⟨c, hc, htext⟩ := e.text_cases
  have hdot : c ≠ '.' := by
    rintro rfl
    cases hc
  have hhead : (e.text ++ rest).head? = some c := by
    rcases htext with htext | ⟨l, -, htext⟩ <;> rw [htext] <;> rfl
  rw [hhead]
  exact fun h => hdot (Option.some.inj h)

theorem delEnds (e : TypeElement) (rest : List Char) : DelEnds (e.text ++ rest) rest := by
  obtain ⟨c, hc, htext | ⟨l, hl, htext⟩⟩ := e.text_cases
  · rw [htext]
    have hname : ∀ x ∈ [c], isPlain x = true := by simpa using hc
    change DelEnds ([c] ++ '.' :: rest) rest
    exact DelEnds.plain hname (DelEnds.dot rest)
  · have hwhole : e.text ++ rest = [c] ++ '(' :: (l ++ ')' :: '.' :: rest) := by
      rw [htext]
      simp
    rw [hwhole]
    exact DelEnds.plain (by simpa using hc) (DelEnds.parens hl (DelEnds.dot rest))

theorem isqualifier_qualifier (q : { q : Mark // q.isQualifier = true }) :
    swigTypeIsqualifier (qualifier q).text = true := by
  obtain ⟨l, -, htext⟩ := text_qualifier q
  rw [htext]
  rfl

theorem isqualifier_letter (c : Char) (h : isPlain c = true) :
    swigTypeIsqualifier (letter c h).text = false :=
  Bool.and_eq_false_iff.2 (Or.inr rfl)

theorem isqualifier_parens {c : Char} {h : isPlain c = true} {hq : c ≠ 'q'} {inside : Inside} :
    swigTypeIsqualifier (parens c h hq inside).text = false := by
  rw [text_parens]
  exact Bool.and_eq_false_iff.2 (Or.inl (beq_eq_false_iff_ne.2 (Ne.symm hq)))

end TypeElement

theorem swigTypeSplit_elements {base : List Char} (hhead : base.head? ≠ some '.')
    (hbase : DelEnds base []) (es : List TypeElement) {fuel : Nat}
    (hfuel : (es.flatMap TypeElement.text ++ base).length ≤ fuel) :
    swigTypeSplit fuel (es.flatMap TypeElement.text ++ base) =
      es.map TypeElement.text ++ (if base = [] then [] else [base]) := by
  have hnil : ∀ fuel, swigTypeSplit fuel [] = [] := by
    intro fuel
    cases fuel <;> rfl
  induction es generalizing fuel with
  | nil =>
      by_cases hempty : base = []
      · rw [hempty]
        exact hnil fuel
      · rw [if_neg hempty]
        have hpos := List.length_pos_of_ne_nil hempty
        obtain ⟨fuel, rfl⟩ : ∃ f, fuel = f + 1 := ⟨fuel - 1, by
          simp only [List.flatMap_nil, List.nil_append] at hfuel
          omega⟩
        have hone := swigTypeSplit_element [] hempty (by simp)
          (by rw [List.append_nil]; exact hbase) fuel
        rw [List.append_nil, hnil] at hone
        exact hone
  | cons e es ih =>
      have hpos := List.length_pos_of_ne_nil e.text_ne_nil
      rw [List.flatMap_cons, List.append_assoc] at hfuel ⊢
      rw [List.length_append] at hfuel
      obtain ⟨fuel, rfl⟩ : ∃ f, fuel = f + 1 := ⟨fuel - 1, by omega⟩
      have hrest : (es.flatMap TypeElement.text ++ base).head? ≠ some '.' := by
        cases es with
        | nil => exact hhead
        | cons e' es =>
            rw [List.flatMap_cons, List.append_assoc]
            exact e'.text_head _
      rw [swigTypeSplit_element _ e.text_ne_nil hrest (e.delEnds _), ih (by omega)]
      rfl

namespace TaggedType

variable {t : TaggedType}

def baseText (t : TaggedType) : List Char := written Mark.text t.baseItems

theorem text_eq (t : TaggedType) :
    t.text = t.elements.flatMap TypeElement.text ++ t.baseText := by
  have helements : ∀ es : List TypeElement,
      written Mark.text (es.flatMap TypeElement.items) = es.flatMap TypeElement.text := by
    intro es
    induction es with
    | nil => rfl
    | cons e es ih =>
        rw [List.flatMap_cons, List.flatMap_cons, written_append, ih]
        rfl
  rw [text, items, written_append, helements]
  rfl

theorem baseText_eq (t : TaggedType) (h : t.TopLevel) :
    t.baseText = t.templates.flatMap (fun i => i.1.1 ++ '<' :: '(' ::
      (written Mark.text i.2.items ++ [')', '>'])) ++ t.tail.1 := by
  have htemplates : ∀ is : List (Name × Inside), written Mark.text (is.flatMap templateItems) =
      is.flatMap fun i => i.1.1 ++ '<' :: '(' :: (written Mark.text i.2.items ++ [')', '>']) := by
    intro is
    induction is with
    | nil => rfl
    | cons i is ih =>
        rw [List.flatMap_cons, List.flatMap_cons, written_append, ih, templateItems]
        simp [written_append]
  rw [baseText, baseItems, h.untagged, written_append, written_append, htemplates,
    written_plainText]
  rfl

/-- A base is one element: all its dots are in template arguments. -/
theorem delEnds_base (h : t.TopLevel) : DelEnds t.baseText [] := by
  have htail : DelEnds t.tail.1 [] := by
    have := DelEnds.plain t.tail.2 DelEnds.nil
    rwa [List.append_nil] at this
  rw [t.baseText_eq h]
  induction t.templates with
  | nil => exact htail
  | cons i is ih =>
      rw [List.flatMap_cons, List.append_assoc, List.append_assoc]
      refine DelEnds.plain i.1.2 (DelEnds.other (by decide) (by decide) ?_)
      have hin := DelEnds.parens i.2.nested (DelEnds.other (x := '>') (by decide) (by decide) ih)
      simpa using hin

/-- A base begins with a name or with template arguments. -/
theorem base_head (h : t.TopLevel) :
    t.baseText.head? ≠ some '.' ∧ swigTypeIsqualifier t.baseText = false := by
  have hname : ∀ (name : Name) (rest : List Char), (∀ x, rest.head? = some x → x = '<') →
      (name.1 ++ rest).head? ≠ some '.' ∧ swigTypeIsqualifier (name.1 ++ rest) = false := by
    intro name rest hrest
    obtain ⟨name, hplain⟩ := name
    have hnot : ∀ {x : Char} {r : List Char}, x ≠ '(' → ['('].isPrefixOf (x :: r) = false :=
      fun hx => Bool.and_eq_false_iff.2 (Or.inl (beq_eq_false_iff_ne.2 (Ne.symm hx)))
    have hhead : ∀ {l r : List Char}, (∀ x ∈ l, isPlain x = true) →
        (∀ x, r.head? = some x → x = '<') →
        (l ++ r).head? ≠ some '.' ∧ ['('].isPrefixOf (l ++ r) = false := by
      intro l r hl hr
      cases l with
      | nil =>
          cases r with
          | nil => exact ⟨by simp, rfl⟩
          | cons y r =>
              obtain rfl := hr y rfl
              exact ⟨by simp, hnot (by decide)⟩
      | cons x l =>
          obtain ⟨hdot, -, -, hpar, -⟩ : x ≠ '.' ∧ x ≠ '<' ∧ x ≠ '>' ∧ x ≠ '(' ∧ x ≠ ')' := by
            simpa [isPlain] using hl x List.mem_cons_self
          exact ⟨by simpa using hdot, hnot hpar⟩
    refine ⟨(hhead hplain hrest).1, ?_⟩
    cases name with
    | nil =>
        cases rest with
        | nil => rfl
        | cons y rest =>
            obtain rfl := hrest y rfl
            rfl
    | cons x name =>
        exact Bool.and_eq_false_iff.2
          (Or.inr (hhead (fun y hy => hplain y (List.mem_cons_of_mem _ hy)) hrest).2)
  rw [t.baseText_eq h]
  cases t.templates with
  | nil =>
      have := hname t.tail [] (by simp)
      rwa [List.append_nil] at this
  | cons i is =>
      rw [List.flatMap_cons, List.append_assoc, List.append_assoc]
      refine hname i.1 _ fun x hx => ?_
      simpa using hx.symm

theorem unmarked_element {e : TypeElement} (h : t.TopLevel) (he : e ∈ t.elements) :
    unmarked e.items = if swigTypeIsqualifier e.text then [] else e.text := by
  cases e with
  | qualifier q => rw [if_pos (TypeElement.isqualifier_qualifier q)]; rfl
  | letter c hc => rw [TypeElement.isqualifier_letter]; rfl
  | parens c hc hq inside =>
      rw [TypeElement.isqualifier_parens, TypeElement.text_parens,
        written_of_unmarked (h.parens c hc hq inside he)]
      simp [TypeElement.items, unmarked_append]

theorem unmarked_base (h : t.TopLevel) : unmarked t.baseItems = t.baseText := by
  refine (written_of_unmarked fun k hk => ?_).symm
  simp only [baseItems, h.untagged, Option.map_none, Option.toList_none, List.nil_append,
    List.mem_append, List.mem_flatMap, templateItems, plainText, List.mem_map] at hk
  rcases hk with ⟨i, hi, ((⟨c, -, hc⟩ | ⟨c, -, hc⟩) | hin) | ⟨c, -, hc⟩⟩ | ⟨c, -, hc⟩
  · cases hc
  · cases hc
  · exact h.templates i hi k hin
  · cases hc
  · cases hc

theorem swigTypeStripQualifiers_text (h : t.TopLevel) :
    swigTypeStripQualifiers t.text = t.stripped := by
  have helements : ∀ es : List TypeElement, (∀ e ∈ es, e ∈ t.elements) →
      ((es.map TypeElement.text).filter (!swigTypeIsqualifier ·)).flatten =
        unmarked (es.flatMap TypeElement.items) := by
    intro es hes
    induction es with
    | nil => rfl
    | cons e es ih =>
        have htail := ih fun e' he' => hes e' (List.mem_cons_of_mem _ he')
        have hhead := unmarked_element h (hes e List.mem_cons_self)
        rw [List.flatMap_cons, unmarked_append, hhead, ← htail, List.map_cons, List.filter_cons]
        cases swigTypeIsqualifier e.text <;> rfl
  have hbase : ((if t.baseText = [] then [] else [t.baseText]).filter
      (!swigTypeIsqualifier ·)).flatten = t.baseText := by
    by_cases hempty : t.baseText = []
    · rw [if_pos hempty, hempty]
      rfl
    · rw [if_neg hempty, List.filter_cons_of_pos (by rw [(base_head h).2]; rfl)]
      simp
  rw [swigTypeStripQualifiers, t.text_eq,
    swigTypeSplit_elements (base_head h).1 (delEnds_base h) _ (Nat.le_refl _), List.filter_append,
    List.flatten_append, helements _ (fun _ he => he), hbase, stripped, items, unmarked_append,
    unmarked_base h]

end TaggedType

/-- Each qualifier and each tag is deleted, on every level, and nothing else; and where the
qualifiers are all on the top level, `SwigType_strip_qualifiers` does the same. -/
theorem stripAllQualifiers_text (t : TaggedType) (hspelled : ¬ Spelled t.stripped)
    (hsingle : (.inr .constVolatile : Char ⊕ Mark) ∉ t.items) :
    stripAllQualifiers t.text = t.stripped ∧
      (t.TopLevel → swigTypeStripQualifiers t.text = stripAllQualifiers t.text) := by
  have hstripped := stripAllQualifiers_written hspelled hsingle
  exact ⟨hstripped, fun h => (TaggedType.swigTypeStripQualifiers_text h).trans hstripped.symm⟩

/-- `q(const).p.char`. -/
def constPointer : TaggedType where
  elements := [.qualifier ⟨.const, rfl⟩, .letter 'p' rfl]
  tag := none
  templates := []
  tail := ⟨['c', 'h', 'a', 'r'], by simp [isPlain]⟩

theorem constPointer_stripped :
    stripAllQualifiers constPointer.text = constPointer.stripped ∧
      (constPointer.TopLevel →
        swigTypeStripQualifiers constPointer.text = stripAllQualifiers constPointer.text) :=
  stripAllQualifiers_text constPointer (by unfold Spelled; decide) (by
    simp [constPointer, TaggedType.items, TaggedType.baseItems, TypeElement.items, plainText])

/-! ## A qualifier of a parameter -/

/-- `f(q(const).int).void`. -/
def constParameter : TaggedType where
  elements := [.parens 'f' rfl (by decide)
    ⟨.inr .const :: plainText ['i', 'n', 't'], by decide, by decide⟩]
  tag := none
  templates := []
  tail := ⟨['v', 'o', 'i', 'd'], by simp [isPlain]⟩

/-- The qualifier is no element of the type but part of one. -/
theorem constParameter_differs :
    constParameter.Untagged ∧
      stripAllQualifiers constParameter.text = "f(int).void".toList ∧
      swigTypeStripQualifiers constParameter.text = "f(q(const).int).void".toList := by
  refine ⟨fun k hk => ?_, by decide, by decide⟩
  cases k with
  | const => cases hk
  | volatile => cases hk
  | constVolatile => cases hk
  | struct =>
      simp [constParameter, TaggedType.items, TaggedType.baseItems, TypeElement.items, plainText]
  | enum =>
      simp [constParameter, TaggedType.items, TaggedType.baseItems, TypeElement.items, plainText]

end Swig4Ada.Ada

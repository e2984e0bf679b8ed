import Swig4Ada.Ada.Identifier

/-!
# Which C names become Ada identifiers

The names that are converted are C identifiers, those of types with the namespaces
before them and the suffix of a pointer or of an array behind. The steps before the
suffixes leave a stem without a double underscore that starts with a letter. They
look for an underscore at the end of the whole text, so one before a suffix is
seen by none of them and meets the underscore of the word the suffix is replaced
by. Of two stars the last one only is replaced, and one reserved word is not in
the list.
-/

namespace Swig4Ada.Ada

/-- The reserved words of Ada 2012. -/
def ada2012Words : List String := "some" :: reservedWords

/-- A legal Ada identifier, of the characters a C identifier has. -/
structure LegalIdentifier (text : List Char) : Prop where
  letter : ∃ c, text.head? = some c ∧ c.isAlpha = true
  plain : ∀ c ∈ text, isSymbolChar c = true
  single : ¬ ['_', '_'] <:+: text
  last : text.getLast? ≠ some '_'
  notReserved : lowered text ∉ ada2012Words.map String.toList

/-- What `register` puts behind the name of a C type. -/
inductive TypeSuffix where
  | none
  | pointer
  | pointerPointer
  | array
  | pointerArray
  deriving DecidableEq

def TypeSuffix.text : TypeSuffix → List Char
  | .none => []
  | .pointer => ['*']
  | .pointerPointer => ['*', '*']
  | .array => ['[', ']']
  | .pointerArray => ['*', '[', ']']

/-- A C identifier with the namespaces it is in and the suffix of its type. The name of
a variable, a function or an enumerator has no suffix. -/
structure ConvertedName where
  scope : List (List Char)
  base : List Char
  suffix : TypeSuffix
  isIdentifier : IsCIdentifier base
  noDigit : ∀ c, base.head? = some c → isDigit c = false

def scopeText : List (List Char) → List Char
  | [] => []
  | name :: names => name ++ ([':', ':'] ++ scopeText names)

def ConvertedName.text (name : ConvertedName) : List Char :=
  scopeText name.scope ++ (name.base ++ name.suffix.text)

/-- The conversion ends, its result is a legal identifier, and it is left alone by a
second conversion. -/
structure ConvertedRight (name : List Char) : Prop where
  ends : index ['_', '_'] (widenUnderscores (theLoopText name).length (theLoopText name)) = none
  legal : LegalIdentifier (toAdaIdentifier name)
  idem : toAdaIdentifier (toAdaIdentifier name) = toAdaIdentifier name

/-! ## The namespaces -/

theorem index_colons {before behind : List Char} (h : ':' ∉ before) :
    index [':', ':'] (before ++ ':' :: ':' :: behind) = some before.length := by
  induction before with
  | nil => simp [index]
  | cons c cs ih =>
      obtain ⟨hc, hcs⟩ := not_or.1 fun hm => h (List.mem_cons.2 hm)
      have hnot : ¬ [':', ':'].isPrefixOf (c :: (cs ++ ':' :: ':' :: behind)) = true := by
        rw [List.isPrefixOf_iff_prefix]
        exact fun hp => hc (List.cons_prefix_cons.1 hp).1
      rw [List.cons_append, index, if_neg hnot, ih hcs]
      rfl

theorem stripNamespaces_colons {front rest : List Char} (h : ':' ∉ rest) :
    stripNamespaces (front ++ ':' :: ':' :: rest) = rest := by
  have hreverse : (front ++ ':' :: ':' :: rest).reverse =
      rest.reverse ++ ':' :: ':' :: front.reverse := by simp
  have hindex : index [':', ':'] (front ++ ':' :: ':' :: rest).reverse = some rest.length := by
    rw [hreverse, index_colons (by rwa [List.mem_reverse]), List.length_reverse]
  have hsplit : front ++ ':' :: ':' :: rest = (front ++ [':', ':']) ++ rest := by simp
  rw [stripNamespaces, hindex]
  dsimp only
  rw [hsplit, List.length_append, Nat.add_sub_cancel, List.drop_left]

theorem scopeText_end (scope : List (List Char)) :
    scopeText scope = [] ∨ ∃ front, scopeText scope = front ++ [':', ':'] := by
  induction scope with
  | nil => exact Or.inl rfl
  | cons name names ih =>
      rcases ih with ih | ⟨front, ih⟩
      · exact Or.inr ⟨name, by rw [scopeText, ih]; rfl⟩
      · exact Or.inr ⟨name ++ ([':', ':'] ++ front), by rw [scopeText, ih]; simp⟩

theorem stripNamespaces_scope {scope : List (List Char)} {rest : List Char} (h : ':' ∉ rest) :
    stripNamespaces (scopeText scope ++ rest) = rest := by
  rcases scopeText_end scope with hs | ⟨front, hs⟩
  · rw [hs, List.nil_append, stripNamespaces_self h]
  · rw [hs, List.append_assoc]
    exact stripNamespaces_colons h

/-! ## The stem -/

theorem index_append {text suffix : List Char} (h : '_' ∉ suffix) :
    index ['_', '_'] (text ++ suffix) = index ['_', '_'] text := by
  induction text with
  | nil =>
      rw [List.nil_append, index_eq_none_iff.2 fun hin => h (hin.subset List.mem_cons_self)]
      rfl
  | cons c cs ih =>
      have hprefix : ['_', '_'].isPrefixOf (c :: cs ++ suffix) =
          ['_', '_'].isPrefixOf (c :: cs) := by
        cases cs with
        | nil =>
            cases suffix with
            | nil => rfl
            | cons d ds =>
                have hd : ('_' == d) = false := by
                  rw [beq_eq_false_iff_ne]
                  exact fun he => h (he ▸ List.mem_cons_self)
                simp [List.isPrefixOf, hd]
        | cons d ds => simp [List.isPrefixOf]
      rw [List.cons_append] at hprefix ⊢
      rw [index, index, hprefix, ih]

theorem index_lt {text : List Char} {i : Nat} (h : index ['_', '_'] text = some i) :
    i + 2 ≤ text.length := by
  have hsplit := congrArg List.length (index_eq_some h)
  simp only [List.length_append, List.length_take, List.length_drop, List.length_cons,
    List.length_nil] at hsplit
  omega

theorem widenUnderscores_append {fuel : Nat} {text suffix : List Char} (h : '_' ∉ suffix) :
    widenUnderscores fuel (text ++ suffix) = widenUnderscores fuel text ++ suffix := by
  induction fuel generalizing text with
  | zero => rfl
  | succ fuel ih =>
      rw [widenUnderscores, widenUnderscores, index_append h]
      cases hi : index ['_', '_'] text with
      | none => rfl
      | some i =>
          have hlt := index_lt hi
          dsimp only
          rw [List.take_append_of_le_length (by omega), List.drop_append_of_le_length (by omega),
            ← ih]
          simp only [List.append_assoc]

theorem head?_widenUnderscores (fuel : Nat) (text : List Char) :
    (widenUnderscores fuel text).head? = text.head? := by
  induction fuel generalizing text with
  | zero => rfl
  | succ fuel ih =>
      rw [widenUnderscores]
      cases hi : index ['_', '_'] text with
      | none => rfl
      | some i =>
          dsimp only
          rw [ih]
          conv_rhs => rw [index_eq_some hi]
          cases text.take i <;> rfl

theorem getLast?_widenUnderscores (fuel : Nat) (text : List Char) :
    (widenUnderscores fuel text).getLast? = text.getLast? := by
  induction fuel generalizing text with
  | zero => rfl
  | succ fuel ih =>
      rw [widenUnderscores]
      cases hi : index ['_', '_'] text with
      | none => rfl
      | some i =>
          dsimp only
          rw [ih]
          conv_rhs => rw [index_eq_some hi]
          rw [List.getLast?_append, List.getLast?_append, List.getLast?_append,
            List.getLast?_append]
          rfl

theorem widened_ne_nil {fuel : Nat} {text : List Char} (h : text ≠ []) :
    widenUnderscores fuel text ≠ [] := by
  intro hnil
  have hhead := head?_widenUnderscores fuel text
  rw [hnil] at hhead
  exact h (List.head?_eq_none_iff.1 hhead.symm)

/-- What the steps before the suffixes make of an identifier with a suffix. -/
structure IsStem (base stem : List Char) : Prop where
  letter : ∃ c, stem.head? = some c ∧ c.isAlpha = true
  plain : ∀ c ∈ stem, isSymbolChar c = true
  single : ¬ ['_', '_'] <:+: stem
  last : stem.getLast? = some '_' ↔ base.getLast? = some '_'

theorem isAlpha_of_symbol {c : Char} (hsymbol : isSymbolChar c = true) (hdigit : isDigit c = false)
    (hunder : c ≠ '_') : c.isAlpha = true := by
  rw [isSymbolChar, hdigit] at hsymbol
  simp only [Bool.or_false, Bool.or_eq_true, decide_eq_true_eq, hunder, or_false] at hsymbol
  rw [Char.isAlpha, Char.isUpper, Char.isLower]
  simp only [Bool.or_eq_true, Bool.and_eq_true, decide_eq_true_eq]
  exact hsymbol

theorem headed_letter {text : List Char} (hne : text ≠ [])
    (hplain : ∀ c ∈ text, isSymbolChar c = true)
    (hdigit : ∀ c, text.head? = some c → isDigit c = false) :
    ∃ c, (headed text).head? = some c ∧ c.isAlpha = true := by
  rw [headed]
  by_cases hu : text.head? = some '_'
  · rw [if_pos hu]
    exact ⟨'a', rfl, by decide⟩
  · rw [if_neg hu]
    obtain ⟨c, cs, rfl⟩ := List.exists_cons_of_ne_nil hne
    exact ⟨c, rfl, isAlpha_of_symbol (hplain c List.mem_cons_self) (hdigit c rfl)
      fun hc => hu (by rw [hc]; rfl)⟩

theorem headed_getLast? {text : List Char} : (headed text).getLast? = some '_' ↔
    text.getLast? = some '_' := by
  rw [headed]
  split
  · cases text with
    | nil => simp
    | cons c cs => rw [List.getLast?_cons_cons]
  · rfl

theorem headed_widened {base : List Char} {fuel : Nat} (h : IsCIdentifier base)
    (hdigit : ∀ c, base.head? = some c → isDigit c = false) (hfuel : base.length ≤ fuel) :
    IsStem base (headed (widenUnderscores fuel base)) := by
  have hplain : ∀ c ∈ widenUnderscores fuel base, isSymbolChar c = true := widened_plain h.2
  have hne : widenUnderscores fuel base ≠ [] := widened_ne_nil h.1
  refine ⟨headed_letter hne hplain ?_, headed_plain hplain, headed_single ?_, ?_⟩
  · rw [head?_widenUnderscores]
    exact hdigit
  · exact widenUnderscores_single ((doubles_le_length base).trans hfuel)
  · rw [headed_getLast?, getLast?_widenUnderscores]

/-! ## The suffixes -/

theorem replaceTail_append (pattern by' text : List Char) :
    replaceTail pattern by' (text ++ pattern) = text ++ by' := by
  have hsuffix : pattern.isSuffixOf (text ++ pattern) = true :=
    List.isSuffixOf_iff_suffix.2 (List.suffix_append text pattern)
  rw [replaceTail, if_pos hsuffix, List.length_append, Nat.add_sub_cancel, List.take_left]

/-- A pattern with another last character is not at the end. -/
theorem replaceTail_other {pattern by' text : List Char} {c d : Char} (hc : c ≠ d) :
    replaceTail (pattern ++ [c]) by' (text ++ [d]) = text ++ [d] := by
  have hsuffix : ¬ (pattern ++ [c]).isSuffixOf (text ++ [d]) = true := by
    rw [List.isSuffixOf_iff_suffix]
    rintro ⟨front, hfront⟩
    rw [← List.append_assoc] at hfront
    exact hc (List.cons.inj (List.append_inj_right' hfront rfl)).1
  rw [replaceTail, if_neg hsuffix]

theorem suffixed_pointer (stem : List Char) :
    suffixed (stem ++ ['*']) = stem ++ "_pointer".toList := by
  have h₁ := @replaceTail_other ['*', '['] "_Pointer_array".toList stem ']' '*' (by decide)
  have h₂ := @replaceTail_other ['['] "_array".toList stem ']' '*' (by decide)
  simp only [List.cons_append, List.nil_append] at h₁ h₂
  rw [suffixed, h₁, h₂, replaceTail_append]

theorem suffixed_pointerPointer (stem : List Char) :
    suffixed (stem ++ ['*', '*']) = stem ++ '*' :: "_pointer".toList := by
  have hsplit : stem ++ ['*', '*'] = (stem ++ ['*']) ++ ['*'] := by simp
  rw [hsplit, suffixed_pointer, List.append_assoc]
  rfl

theorem suffixed_array {stem : List Char} (h : '*' ∉ stem) :
    suffixed (stem ++ ['[', ']']) = stem ++ "_array".toList := by
  have hstar : '*' ∉ stem ++ ['[', ']'] := by
    rw [List.mem_append]
    exact fun hm => hm.elim h (by decide)
  have hresult : '*' ∉ stem ++ "_array".toList := by
    rw [List.mem_append]
    exact fun hm => hm.elim h (by decide)
  rw [suffixed, replaceTail_self List.mem_cons_self hstar, replaceTail_append,
    replaceTail_self List.mem_cons_self hresult]

theorem suffixed_pointerArray {stem : List Char} (hstar : '*' ∉ stem) (hbracket : '[' ∉ stem) :
    suffixed (stem ++ ['*', '[', ']']) = stem ++ "_Pointer_array".toList := by
  have hbracket' : '[' ∉ stem ++ "_Pointer_array".toList := by
    rw [List.mem_append]
    exact fun hm => hm.elim hbracket (by decide)
  have hstar' : '*' ∉ stem ++ "_Pointer_array".toList := by
    rw [List.mem_append]
    exact fun hm => hm.elim hstar (by decide)
  rw [suffixed, replaceTail_append, replaceTail_self List.mem_cons_self hbracket',
    replaceTail_self List.mem_cons_self hstar']

theorem not_reserved_of_mem {text : List Char} {c : Char}
    (hwords : ∀ w ∈ reservedWords.map String.toList, toLower c ∉ w) (h : c ∈ text) :
    isReservedWord text = false := by
  rw [isReservedWord, decide_eq_false_iff_not]
  exact fun hmem => hwords _ hmem (List.mem_map.2 ⟨c, h, rfl⟩)

theorem suffix_not_reserved {base : List Char} {suffix : TypeSuffix} (h : suffix ≠ .none) :
    isReservedWord (base ++ suffix.text) = false := by
  have hstar : ∀ w ∈ reservedWords.map String.toList, toLower '*' ∉ w := by decide
  have hbracket : ∀ w ∈ reservedWords.map String.toList, toLower ']' ∉ w := by decide
  cases suffix with
  | none => exact absurd rfl h
  | pointer => exact not_reserved_of_mem hstar (by simp [TypeSuffix.text])
  | pointerPointer => exact not_reserved_of_mem hstar (by simp [TypeSuffix.text])
  | array => exact not_reserved_of_mem hbracket (by simp [TypeSuffix.text])
  | pointerArray => exact not_reserved_of_mem hbracket (by simp [TypeSuffix.text])

theorem headed_append {text suffix : List Char} (h : text ≠ []) :
    headed (text ++ suffix) = headed text ++ suffix := by
  rw [headed, headed, List.head?_append_of_ne_nil _ h]
  split <;> rfl

theorem colon_not_mem (name : ConvertedName) : ':' ∉ name.base ++ name.suffix.text := by
  rw [List.mem_append]
  rintro (hm | hm)
  · exact not_mem_of_plain name.isIdentifier.2 (by decide) hm
  · cases hs : name.suffix <;> rw [hs] at hm <;> revert hm <;> decide

theorem toAdaIdentifier_base {name : ConvertedName} (h : name.suffix = .none) :
    toAdaIdentifier name.text = toAdaIdentifier name.base := by
  have hcolon := colon_not_mem name
  have htext : name.suffix.text = [] := by rw [h]; rfl
  have hstrip := @stripNamespaces_scope name.scope _ hcolon
  rw [htext, List.append_nil] at hcolon hstrip
  rw [ConvertedName.text, htext, List.append_nil]
  simp only [toAdaIdentifier, hstrip, stripNamespaces_self hcolon]

theorem toAdaIdentifier_suffixed {name : ConvertedName} (h : name.suffix ≠ .none) :
    ∃ stem, IsStem name.base stem ∧
      toAdaIdentifier name.text = suffixed (stem ++ name.suffix.text) := by
  have hunder : '_' ∉ name.suffix.text := by cases name.suffix <;> decide
  have hlast : (name.base ++ name.suffix.text).getLast? ≠ some '_' := by
    intro hl
    rw [List.getLast?_append] at hl
    revert h hl
    cases name.suffix <;> simp [TypeSuffix.text]
  obtain ⟨fuel, hfuel⟩ : ∃ n, n = (name.base ++ name.suffix.text).length := ⟨_, rfl⟩
  have hle : name.base.length ≤ fuel := by
    rw [hfuel, List.length_append]
    omega
  have hne : widenUnderscores fuel name.base ≠ [] := widened_ne_nil name.isIdentifier.1
  have hheaded := @headed_append _ name.suffix.text hne
  refine ⟨headed (widenUnderscores fuel name.base),
    headed_widened name.isIdentifier name.noDigit hle, ?_⟩
  have hend : (headed (widenUnderscores fuel name.base) ++ name.suffix.text).getLast? ≠
      some '_' := by
    intro hl
    rw [List.getLast?_append] at hl
    revert h hl
    cases name.suffix <;> simp [TypeSuffix.text]
  rw [headed] at hheaded
  simp only [toAdaIdentifier, ConvertedName.text, stripNamespaces_scope (colon_not_mem name),
    suffix_not_reserved h, Bool.false_eq_true, if_false, ← hfuel, widenUnderscores_append hunder,
    hheaded, if_neg hend]
  rfl

/-! ## Legal results -/

theorem single_append {stem word : List Char} (hstem : ¬ ['_', '_'] <:+: stem)
    (hlast : stem.getLast? ≠ some '_') (hword : ¬ ['_', '_'] <:+: word) :
    ¬ ['_', '_'] <:+: stem ++ word := by
  induction stem with
  | nil => exact hword
  | cons c cs ih =>
      have htail : ¬ ['_', '_'] <:+: cs :=
        fun hin => hstem (hin.trans (List.suffix_cons c cs).isInfix)
      rw [List.cons_append, List.infix_cons_iff]
      rintro (hp | hin)
      · obtain ⟨hc, hp⟩ := List.cons_prefix_cons.1 hp
        cases cs with
        | nil => exact hlast (by rw [← hc]; rfl)
        | cons d ds =>
            obtain ⟨hd, -⟩ := List.cons_prefix_cons.1 hp
            exact hstem ⟨[], ds, by rw [← hc, ← hd]; rfl⟩
      · cases cs with
        | nil => exact hword hin
        | cons d ds => exact ih htail (by rwa [List.getLast?_cons_cons] at hlast) hin

theorem underscore_not_word {text : List Char} (h : '_' ∈ text) :
    lowered text ∉ ada2012Words.map String.toList := by
  have hwords : ∀ w ∈ ada2012Words.map String.toList, '_' ∉ w := by decide
  exact fun hmem => hwords _ hmem (List.mem_map.2 ⟨'_', h, by decide⟩)

/-- The words behind the underscore. -/
def pointerWord : List Char := ['p', 'o', 'i', 'n', 't', 'e', 'r']

def arrayWord : List Char := ['a', 'r', 'r', 'a', 'y']

def pointerArrayWord : List Char :=
  ['P', 'o', 'i', 'n', 't', 'e', 'r', '_', 'a', 'r', 'r', 'a', 'y']

/-- A stem with a word behind: legal where the stem does not end in an underscore. -/
theorem stem_legal_iff {base stem word : List Char} (hstem : IsStem base stem)
    (hplain : word.all isSymbolChar = true) (hsingle : ¬ ['_', '_'] <:+: '_' :: word)
    (hlast : ('_' :: word).getLast? ≠ some '_') :
    LegalIdentifier (stem ++ '_' :: word) ↔ base.getLast? ≠ some '_' := by
  rw [ne_eq, ← hstem.last]
  constructor
  · intro hlegal hend
    obtain ⟨front, rfl⟩ := List.getLast?_eq_some_iff.1 hend
    exact hlegal.single ⟨front, word, by simp⟩
  · intro hend
    have hunder : '_' ∈ stem ++ '_' :: word :=
      List.mem_append_right _ List.mem_cons_self
    obtain ⟨c, hc, halpha⟩ := hstem.letter
    refine ⟨⟨c, ?_, halpha⟩, ?_, single_append hstem.single hend hsingle, ?_,
      underscore_not_word hunder⟩
    · rw [List.head?_append, hc]
      rfl
    · intro d hd
      rcases List.mem_append.1 hd with hd | hd
      · exact hstem.plain d hd
      · rcases List.mem_cons.1 hd with rfl | hd
        · decide
        · exact List.all_eq_true.1 hplain d hd
    · rw [List.getLast?_append_of_ne_nil _ (List.cons_ne_nil _ _)]
      exact hlast

theorem legal_left_alone {text : List Char} (h : LegalIdentifier text) :
    toAdaIdentifier text = text := by
  have hreserved : isReservedWord text = false := by
    rw [isReservedWord, decide_eq_false_iff_not]
    exact fun hmem => h.notReserved (List.mem_cons_of_mem _ hmem)
  refine toAdaIdentifier_eq_self ⟨h.plain, hreserved, h.single, ?_, h.last⟩
  obtain ⟨c, hc, halpha⟩ := h.letter
  rw [hc]
  rintro ⟨rfl⟩
  exact absurd halpha (by decide)

theorem convertedRight_iff_legal (self : List Char) :
    ConvertedRight self ↔ LegalIdentifier (toAdaIdentifier self) := by
  refine ⟨ConvertedRight.legal, fun h => ⟨?_, h, legal_left_alone h⟩⟩
  exact index_eq_none_iff.2 (widenUnderscores_single (doubles_le_length _))

/-! ## Names without a suffix -/

theorem theLoopText_letter {base : List Char} (h : IsCIdentifier base)
    (hdigit : ∀ c, base.head? = some c → isDigit c = false) :
    theLoopText base ≠ [] ∧ ∀ c, (theLoopText base).head? = some c → isDigit c = false := by
  have hstrip := stripNamespaces_self (not_mem_of_plain h.2 (c := ':') (by decide))
  rw [theLoopText, hstrip]
  split
  · refine ⟨List.cons_ne_nil _ _, fun c hc => ?_⟩
    obtain rfl : 't' = c := Option.some.inj hc
    decide
  · exact ⟨h.1, hdigit⟩

/-- The result for an identifier starts with a letter. -/
theorem base_letter {base : List Char} (h : IsCIdentifier base)
    (hdigit : ∀ c, base.head? = some c → isDigit c = false) :
    ∃ c, (toAdaIdentifier base).head? = some c ∧ c.isAlpha = true := by
  obtain ⟨hne, hloop⟩ := theLoopText_letter h hdigit
  rw [toAdaIdentifier_symbol h.2, ended_head?]
  refine headed_letter ?_ (widened_plain (theLoopText_plain h.2)) ?_
  · exact widened_ne_nil hne
  · rw [head?_widenUnderscores]
    exact hloop

theorem base_legal_iff {base : List Char} (h : IsCIdentifier base)
    (hdigit : ∀ c, base.head? = some c → isDigit c = false) :
    LegalIdentifier (toAdaIdentifier base) ↔ lowered base ≠ "some".toList := by
  have hada := toAdaIdentifier_isAda h
  by_cases hu : '_' ∈ base ∨ isReservedWord base = true
  · have hbase : lowered base ≠ "some".toList := by
      rcases hu with hu | hu
      · intro hsome
        exact underscore_not_word hu (hsome ▸ by decide)
      · rw [isReservedWord, decide_eq_true_eq] at hu
        exact fun hsome => absurd (hsome ▸ hu) (by decide)
    exact ⟨fun _ => hbase, fun _ => ⟨base_letter h hdigit, hada.plain, hada.single, hada.last,
      underscore_not_word (underscore_mem_toAdaIdentifier h.2 hu)⟩⟩
  · obtain ⟨hunder, hr⟩ := not_or.1 hu
    rw [Bool.not_eq_true] at hr
    have heq := toAdaIdentifier_notReserved h.2 hunder hr
    rw [isReservedWord, decide_eq_false_iff_not] at hr
    constructor
    · intro hlegal hsome
      refine hlegal.notReserved ?_
      rw [heq, hsome]
      decide
    · intro hsome
      refine ⟨base_letter h hdigit, hada.plain, hada.single, hada.last, ?_⟩
      rw [heq, ada2012Words, List.map_cons, List.mem_cons]
      exact fun hmem => hmem.elim hsome hr

/-! ## The result -/

/-- A name becomes a legal identifier that a second conversion leaves alone: without a suffix
where it is not the reserved word that is missing in the list, with one where it does not end
in an underscore and the suffix is not two stars. -/
theorem convertedRight_iff (name : ConvertedName) : ConvertedRight name.text ↔
    (name.suffix = .none → lowered name.base ≠ "some".toList) ∧
      (name.suffix ≠ .none → name.base.getLast? ≠ some '_') ∧
      name.suffix ≠ .pointerPointer := by
  rw [convertedRight_iff_legal]
  by_cases hnone : name.suffix = .none
  · rw [toAdaIdentifier_base hnone, base_legal_iff name.isIdentifier name.noDigit, hnone]
    simp
  · obtain ⟨stem, hstem, heq⟩ := toAdaIdentifier_suffixed hnone
    have hstar : '*' ∉ stem := not_mem_of_plain hstem.plain (by decide)
    have hbracket : '[' ∉ stem := not_mem_of_plain hstem.plain (by decide)
    rw [heq]
    cases hs : name.suffix with
    | none => exact absurd hs hnone
    | pointer =>
        rw [TypeSuffix.text, suffixed_pointer]
        refine (@stem_legal_iff _ _ pointerWord hstem (by decide) (by decide)
          (by decide)).trans ?_
        simp
    | pointerPointer =>
        rw [TypeSuffix.text, suffixed_pointerPointer]
        refine iff_of_false (fun hlegal => ?_) (by simp)
        exact absurd (hlegal.plain '*' (List.mem_append_right _ List.mem_cons_self)) (by decide)
    | array =>
        rw [TypeSuffix.text, suffixed_array hstar]
        refine (@stem_legal_iff _ _ arrayWord hstem (by decide) (by decide)
          (by decide)).trans ?_
        simp
    | pointerArray =>
        rw [TypeSuffix.text, suffixed_pointerArray hstar hbracket]
        refine (@stem_legal_iff _ _ pointerArrayWord hstem (by decide) (by decide)
          (by decide)).trans ?_
        simp

/-- The pointer to a pointer keeps a star, the name with an underscore at its end gets a
double one, and `some` is left as it is. -/
theorem illegal_identifiers : ¬ ConvertedRight ['T', '*', '*'] ∧
    ¬ ConvertedRight ['T', '_', '*'] ∧ ¬ ConvertedRight ['s', 'o', 'm', 'e'] := by
  refine ⟨fun h => ?_, fun h => ?_, fun h => ?_⟩
  · exact absurd (h.legal.plain '*' (by decide)) (by decide)
  · exact h.legal.single (by decide)
  · exact h.legal.notReserved (by decide)

end Swig4Ada.Ada

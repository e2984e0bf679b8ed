import Swig4Ada.Ada.ExpressionResolver
import Swig4Ada.Lib.CText

/-!
# Ada identifiers (`ada_Utility.to_ada_Identifier`)

A C name becomes an Ada identifier: the namespaces are stripped, a reserved word
gets a prefix, double underscores are widened until none is left, an underscore
at either end gets an `a`, and the suffixes of pointers and arrays are spelled
out. The names of enumerators are C identifiers, and for these the conversion is
idempotent: what it makes has none of the shapes it would change.
-/

namespace Swig4Ada.Ada

/-- `ada.Characters.Handling.To_Lower`, on Latin-1. -/
def toLower (c : Char) : Char :=
  if 'A' ≤ c ∧ c ≤ 'Z' then Char.ofNat (c.toNat + 32)
  else if 192 ≤ c.toNat ∧ c.toNat ≤ 222 ∧ c.toNat ≠ 215 then Char.ofNat (c.toNat + 32)
  else c

def lowered (text : List Char) : List Char := text.map toLower

/-- The reserved words of `is_reserved_Word`. -/
def reservedWords : List String :=
  ["abort", "abs", "abstract", "accept", "access", "aliased", "all", "and", "array", "at",
    "begin", "body", "case", "constant", "declare", "delay", "delta", "digits", "do", "else",
    "elsif", "end", "entry", "exception", "exit", "for", "function", "generic", "goto", "if",
    "in", "interface", "is", "limited", "loop", "mod", "new", "not", "null", "of", "or",
    "others", "out", "overriding", "package", "pragma", "private", "procedure", "protected",
    "raise", "range", "record", "rem", "renames", "requeue", "return", "reverse", "select",
    "separate", "subtype", "synchronized", "tagged", "task", "terminate", "then", "type",
    "until", "use", "when", "while", "with", "xor"]

def isReservedWord (self : List Char) : Bool :=
  decide (lowered self ∈ reservedWords.map String.toList)

/-- `strip_Namespaces`: everything up to the last `::` is replaced by nothing. -/
def stripNamespaces (self : List Char) : List Char :=
  match index [':', ':'] self.reverse with
  | none => self
  | some back => self.drop (self.length - back)

/-- The loop that replaces the first `__` by `_a_` until none is left. Each turn
makes one pair of underscores fewer. -/
def widenUnderscores : Nat → List Char → List Char
  | 0, theIdentifier => theIdentifier
  | fuel + 1, theIdentifier =>
      match index ['_', '_'] theIdentifier with
      | none => theIdentifier
      | some start =>
          widenUnderscores fuel
            (theIdentifier.take start ++ (['_', 'a', '_'] ++ theIdentifier.drop (start + 2)))

/-- Replaces the end of a text, when it is the pattern. -/
def replaceTail (pattern by' text : List Char) : List Char :=
  if pattern.isSuffixOf text then text.take (text.length - pattern.length) ++ by' else text

def toAdaIdentifier (self : List Char) : List Char :=
  let theIdentifier := stripNamespaces self
  let theIdentifier :=
    if isReservedWord theIdentifier then ['t', 'h', 'e', '_'] ++ theIdentifier
    else theIdentifier
  let theIdentifier := widenUnderscores theIdentifier.length theIdentifier
  let theIdentifier :=
    if theIdentifier.head? = some '_' then 'a' :: theIdentifier else theIdentifier
  let theIdentifier :=
    if theIdentifier.getLast? = some '_' then theIdentifier ++ ['a'] else theIdentifier
  let theIdentifier := replaceTail ['*', '[', ']'] "_Pointer_array".toList theIdentifier
  let theIdentifier := replaceTail ['[', ']'] "_array".toList theIdentifier
  replaceTail ['*'] "_pointer".toList theIdentifier

/-! ## The position of a pattern -/

theorem index_eq_some {pattern text : List Char} {i : Nat} (h : index pattern text = some i) :
    text = text.take i ++ (pattern ++ text.drop (i + pattern.length)) := by
  induction text generalizing i with
  | nil =>
      rw [index] at h
      by_cases hp : pattern = []
      · simp_all
      · rw [if_neg hp] at h
        cases h
  | cons c cs ih =>
      rw [index] at h
      by_cases hp : pattern.isPrefixOf (c :: cs) = true
      · rw [if_pos hp] at h
        obtain rfl : 0 = i := Option.some.inj h
        obtain ⟨rest, hrest⟩ := List.isPrefixOf_iff_prefix.1 hp
        rw [← hrest]
        simp
      · rw [if_neg hp] at h
        obtain ⟨j, hj, rfl⟩ := Option.map_eq_some_iff.1 h
        rw [List.take_succ_cons, List.cons_append, show j + 1 + pattern.length =
          j + pattern.length + 1 by omega, List.drop_succ_cons, ← ih hj]

example : index "::".toList "std::size_t".toList = some 3 := by decide +kernel

theorem index_eq_none_iff {pattern text : List Char} :
    index pattern text = none ↔ ¬ pattern <:+: text := by
  induction text with
  | nil =>
      rw [index]
      by_cases hp : pattern = []
      · simp [hp]
      · simp [hp]
  | cons c cs ih =>
      rw [index, List.infix_cons_iff, ← List.isPrefixOf_iff_prefix]
      by_cases hp : pattern.isPrefixOf (c :: cs) = true
      · simp [hp]
      · rw [if_neg hp, Option.map_eq_none_iff, ih]
        simp [hp]

theorem index_char {c : Char} {before : List Char} (h : c ∉ before) (rest : List Char) :
    index [c] (before ++ c :: rest) = some before.length := by
  induction before with
  | nil => simp [index]
  | cons x before ih =>
      obtain ⟨hx, hbefore⟩ := not_or.1 fun hm => h (List.mem_cons.2 hm)
      rw [List.cons_append, index, ih hbefore]
      simp [hx]

/-- The text before the first occurrence has none. -/
theorem index_take_free {pattern text : List Char} {i : Nat} (h : index pattern text = some i) :
    ¬ pattern <:+: text.take i ∨ pattern = [] := by
  induction text generalizing i with
  | nil =>
      rw [index] at h
      by_cases hp : pattern = []
      · exact Or.inr hp
      · rw [if_neg hp] at h
        cases h
  | cons c cs ih =>
      rw [index] at h
      by_cases hp : pattern.isPrefixOf (c :: cs) = true
      · rw [if_pos hp] at h
        obtain rfl : 0 = i := Option.some.inj h
        by_cases hnil : pattern = []
        · exact Or.inr hnil
        · exact Or.inl fun hin => hnil (List.eq_nil_of_infix_nil hin)
      · rw [if_neg hp] at h
        obtain ⟨j, hj, rfl⟩ := Option.map_eq_some_iff.1 h
        refine (ih hj).imp (fun hnot hin => ?_) id
        rw [List.take_succ_cons] at hin
        rcases List.infix_cons_iff.1 hin with hpre | hin
        · refine hp (List.isPrefixOf_iff_prefix.2 (hpre.trans ?_))
          rw [← List.take_succ_cons]
          exact List.take_prefix _ _
        · exact hnot hin

theorem index_take {c : Char} {text : List Char} {i : Nat} (h : index [c] text = some i) :
    c ∉ text.take i := by
  have hfree := (index_take_free h).resolve_right (List.cons_ne_nil _ _)
  exact fun hmem => hfree ((List.singleton_infix_iff c _).2 hmem)

theorem index_prefix {pattern text : List Char} {i : Nat} (h : index pattern text = some i) :
    pattern <+: text.drop i := by
  induction text generalizing i with
  | nil =>
      rw [index] at h
      split at h
      next hnil => exact hnil ▸ List.nil_prefix
      next => cases h
  | cons x text ih =>
      rw [index] at h
      split at h
      next heq =>
        obtain rfl := Option.some.inj h
        exact List.isPrefixOf_iff_prefix.1 heq
      next =>
        obtain ⟨j, hj, rfl⟩ := Option.map_eq_some_iff.1 h
        exact ih hj

theorem index_getElem {c : Char} {text : List Char} {i : Nat} (h : index [c] text = some i) :
    text[i]? = some c := by
  obtain ⟨rest, hrest⟩ := index_prefix h
  have hhead : (text.drop i)[0]? = some c := by
    rw [← hrest]
    rfl
  rwa [List.getElem?_drop, Nat.add_zero] at hhead

/-! ## No double underscore is left -/

/-- The number of adjacent pairs of underscores. -/
def doubles : List Char → Nat
  | a :: b :: cs => (if a = '_' ∧ b = '_' then 1 else 0) + doubles (b :: cs)
  | _ => 0

theorem doubles_append (l m : List Char) (c : Char) :
    doubles (l ++ c :: m) = doubles (l ++ [c]) + doubles (c :: m) := by
  induction l with
  | nil => simp [doubles]
  | cons a l ih =>
      cases l with
      | nil => simp [doubles]
      | cons b l =>
          simp only [List.cons_append, doubles] at ih ⊢
          omega

example : doubles "a___b".toList = 2 := by decide +kernel

theorem doubles_le_length (text : List Char) : doubles text ≤ text.length := by
  induction text with
  | nil => simp [doubles]
  | cons a l ih =>
      cases l with
      | nil => simp [doubles]
      | cons b l =>
          rw [doubles, List.length_cons]
          split <;> omega

theorem doubles_pos {text : List Char} (h : ['_', '_'] <:+: text) : 0 < doubles text := by
  obtain ⟨l, m, rfl⟩ := h
  rw [List.append_assoc, List.cons_append, doubles_append]
  simp [doubles]

theorem widenUnderscores_single {fuel : Nat} {text : List Char} (h : doubles text ≤ fuel) :
    ¬ ['_', '_'] <:+: widenUnderscores fuel text := by
  induction fuel generalizing text with
  | zero =>
      intro hin
      have hpos := doubles_pos hin
      rw [widenUnderscores] at hpos
      omega
  | succ fuel ih =>
      rw [widenUnderscores]
      cases hi : index ['_', '_'] text with
      | none => exact index_eq_none_iff.1 hi
      | some i =>
          refine ih ?_
          have hsplit := index_eq_some hi
          rw [hsplit] at h
          simp only [List.cons_append, List.nil_append, List.length_cons,
            List.length_nil] at h ⊢
          rw [doubles_append] at h ⊢
          simp [doubles] at h ⊢
          omega

/-- A text without double underscores is left alone. -/
example : widenUnderscores 2 "a__b".toList = "a_a_b".toList := by decide +kernel

theorem widenUnderscores_self {fuel : Nat} {text : List Char} (h : ¬ ['_', '_'] <:+: text) :
    widenUnderscores fuel text = text := by
  cases fuel with
  | zero => rfl
  | succ fuel => rw [widenUnderscores, index_eq_none_iff.2 h]

/-- Every character of the widened text is one of the text or an `a`. -/
theorem mem_widenUnderscores {fuel : Nat} {text : List Char} {c : Char}
    (h : c ∈ widenUnderscores fuel text) : c ∈ text ∨ c = 'a' := by
  induction fuel generalizing text with
  | zero => exact Or.inl h
  | succ fuel ih =>
      rw [widenUnderscores] at h
      cases hi : index ['_', '_'] text with
      | none => simp_all
      | some i =>
          rw [hi] at h
          rcases ih h with hc | hc
          · have hsplit := index_eq_some hi
            rw [hsplit]
            simp only [List.mem_append, List.mem_cons, List.not_mem_nil, or_false,
              List.length_cons, List.length_nil] at hc ⊢
            tauto
          · exact Or.inr hc

theorem underscore_mem_widenUnderscores {fuel : Nat} {text : List Char} (h : '_' ∈ text) :
    '_' ∈ widenUnderscores fuel text := by
  induction fuel generalizing text with
  | zero => exact h
  | succ fuel ih =>
      rw [widenUnderscores]
      cases index ['_', '_'] text with
      | none => exact h
      | some i => exact ih (by simp)

/-! ## The steps -/

/-- The text that the loop over the double underscores gets. -/
def theLoopText (self : List Char) : List Char :=
  if isReservedWord (stripNamespaces self) then ['t', 'h', 'e', '_'] ++ stripNamespaces self
  else stripNamespaces self

/-- The step that puts an `a` before an underscore. -/
def headed (text : List Char) : List Char :=
  if text.head? = some '_' then 'a' :: text else text

/-- The step that puts an `a` behind an underscore. -/
def ended (text : List Char) : List Char :=
  if text.getLast? = some '_' then text ++ ['a'] else text

/-- The last three steps. -/
def suffixed (text : List Char) : List Char :=
  replaceTail ['*'] "_pointer".toList
    (replaceTail ['[', ']'] "_array".toList
      (replaceTail ['*', '[', ']'] "_Pointer_array".toList text))

theorem toAdaIdentifier_eq (self : List Char) : toAdaIdentifier self =
    suffixed (ended (headed (widenUnderscores (theLoopText self).length (theLoopText self)))) :=
  rfl

theorem single_cons_a {text : List Char} (h : ¬ ['_', '_'] <:+: text) :
    ¬ ['_', '_'] <:+: 'a' :: text := by
  rw [List.infix_cons_iff]
  rintro (hp | hin)
  · have hhead := (List.cons_prefix_cons.1 hp).1
    cases hhead
  · exact h hin

theorem single_append_a {text : List Char} (h : ¬ ['_', '_'] <:+: text) :
    ¬ ['_', '_'] <:+: text ++ ['a'] := by
  have hreverse : ∀ {l : List Char}, ['_', '_'] <:+: l ↔ ['_', '_'] <:+: l.reverse := by
    intro l
    rw [← List.reverse_infix]
    rfl
  rw [hreverse, List.reverse_append]
  show ¬ ['_', '_'] <:+: 'a' :: text.reverse
  exact single_cons_a (by rwa [← hreverse])

theorem headed_plain {text : List Char} (hplain : ∀ c ∈ text, isSymbolChar c = true) :
    ∀ c ∈ headed text, isSymbolChar c = true := by
  intro c hc
  rw [headed] at hc
  split at hc
  · rcases List.mem_cons.1 hc with rfl | hc
    · decide
    · exact hplain c hc
  · exact hplain c hc

theorem headed_single {text : List Char} (h : ¬ ['_', '_'] <:+: text) :
    ¬ ['_', '_'] <:+: headed text := by
  rw [headed]
  split
  · exact single_cons_a h
  · exact h

theorem headed_head? (text : List Char) : (headed text).head? ≠ some '_' := by
  rw [headed]
  split
  · exact fun h => absurd (Option.some.inj h) (by decide)
  · assumption

theorem mem_headed {text : List Char} {c : Char} (h : c ∈ text) : c ∈ headed text := by
  rw [headed]
  split
  · exact List.mem_cons_of_mem 'a' h
  · exact h

theorem ended_plain {text : List Char} (hplain : ∀ c ∈ text, isSymbolChar c = true) :
    ∀ c ∈ ended text, isSymbolChar c = true := by
  intro c hc
  rw [ended] at hc
  split at hc
  · rcases List.mem_append.1 hc with hc | hc
    · exact hplain c hc
    · obtain rfl : c = 'a' := by simpa using hc
      decide
  · exact hplain c hc

theorem ended_single {text : List Char} (h : ¬ ['_', '_'] <:+: text) :
    ¬ ['_', '_'] <:+: ended text := by
  rw [ended]
  split
  · exact single_append_a h
  · exact h

theorem ended_head? (text : List Char) : (ended text).head? = text.head? := by
  rw [ended]
  split
  · rename_i hl
    exact List.head?_append_of_ne_nil _ (List.ne_nil_of_mem (List.mem_of_getLast? hl))
  · rfl

theorem ended_getLast? (text : List Char) : (ended text).getLast? ≠ some '_' := by
  rw [ended]
  split
  · simp
  · assumption

theorem mem_ended {text : List Char} {c : Char} (h : c ∈ text) : c ∈ ended text := by
  rw [ended]
  split
  · exact List.mem_append_left _ h
  · exact h

/-! ## Idempotence on C identifiers -/

/-- A C identifier. -/
def IsCIdentifier (name : List Char) : Prop :=
  name ≠ [] ∧ ∀ c ∈ name, isSymbolChar c = true

theorem not_reserved_of_underscore {text : List Char} (h : '_' ∈ text) :
    isReservedWord text = false := by
  have hwords : ∀ w ∈ reservedWords.map String.toList, '_' ∉ w := by decide
  rw [isReservedWord, decide_eq_false_iff_not]
  intro hmem
  exact hwords _ hmem (List.mem_map.2 ⟨'_', h, by decide⟩)

theorem stripNamespaces_self {text : List Char} (h : ':' ∉ text) :
    stripNamespaces text = text := by
  have hnone : index [':', ':'] text.reverse = none := by
    refine index_eq_none_iff.2 fun hin => h ?_
    exact List.mem_reverse.1 (hin.subset List.mem_cons_self)
  rw [stripNamespaces, hnone]

theorem replaceTail_self {pattern by' text : List Char} {c : Char} (hc : c ∈ pattern)
    (h : c ∉ text) : replaceTail pattern by' text = text := by
  have hsuffix : ¬ pattern.isSuffixOf text = true := by
    rw [List.isSuffixOf_iff_suffix]
    exact fun hs => h (hs.subset hc)
  rw [replaceTail, if_neg hsuffix]

/-- A text in which the conversion finds nothing to do. -/
structure IsAdaIdentifier (text : List Char) : Prop where
  plain : ∀ c ∈ text, isSymbolChar c = true
  notReserved : isReservedWord text = false
  single : ¬ ['_', '_'] <:+: text
  head : text.head? ≠ some '_'
  last : text.getLast? ≠ some '_'

theorem not_mem_of_plain {text : List Char} {c : Char}
    (h : ∀ d ∈ text, isSymbolChar d = true) (hc : isSymbolChar c = false) : c ∉ text := by
  intro hmem
  rw [h c hmem] at hc
  cases hc

/-- What the steps up to the underscores make of an identifier. -/
theorem toAdaIdentifier_eq_self {text : List Char} (h : IsAdaIdentifier text) :
    toAdaIdentifier text = text := by
  have hcolon := not_mem_of_plain h.plain (c := ':') (by decide)
  have hstar := not_mem_of_plain h.plain (c := '*') (by decide)
  have hbracket := not_mem_of_plain h.plain (c := '[') (by decide)
  simp only [toAdaIdentifier, stripNamespaces_self hcolon, h.notReserved,
    widenUnderscores_self h.single, if_neg h.head, if_neg h.last, Bool.false_eq_true,
    if_false]
  rw [replaceTail_self List.mem_cons_self hstar, replaceTail_self List.mem_cons_self hbracket,
    replaceTail_self List.mem_cons_self hstar]

theorem suffixed_self {text : List Char} (hstar : '*' ∉ text) (hbracket : '[' ∉ text) :
    suffixed text = text := by
  rw [suffixed, replaceTail_self List.mem_cons_self hstar,
    replaceTail_self List.mem_cons_self hbracket, replaceTail_self List.mem_cons_self hstar]

theorem theLoopText_plain {name : List Char} (hplain : ∀ c ∈ name, isSymbolChar c = true) :
    ∀ c ∈ theLoopText name, isSymbolChar c = true := by
  have hstrip := stripNamespaces_self (not_mem_of_plain hplain (c := ':') (by decide))
  rw [theLoopText, hstrip]
  split
  · intro c hc
    rcases List.mem_append.1 hc with hc | hc
    · simp only [List.mem_cons, List.not_mem_nil, or_false] at hc
      rcases hc with rfl | rfl | rfl | rfl <;> decide
    · exact hplain c hc
  · exact hplain

theorem widened_plain {fuel : Nat} {text : List Char}
    (hplain : ∀ c ∈ text, isSymbolChar c = true) :
    ∀ c ∈ widenUnderscores fuel text, isSymbolChar c = true := by
  intro c hc
  rcases mem_widenUnderscores hc with hc | rfl
  · exact hplain c hc
  · decide

/-- No suffix is found in what the steps make of an identifier. -/
theorem toAdaIdentifier_symbol {name : List Char} (hplain : ∀ c ∈ name, isSymbolChar c = true) :
    toAdaIdentifier name =
      ended (headed (widenUnderscores (theLoopText name).length (theLoopText name))) := by
  have hended := ended_plain (headed_plain
    (@widened_plain (theLoopText name).length _ (theLoopText_plain hplain)))
  rw [toAdaIdentifier_eq, suffixed_self (not_mem_of_plain hended (by decide))
    (not_mem_of_plain hended (by decide))]

/-- An identifier without underscores is changed where it is a reserved word only. -/
theorem toAdaIdentifier_notReserved {name : List Char} (hplain : ∀ c ∈ name, isSymbolChar c = true)
    (hunder : '_' ∉ name) (hreserved : isReservedWord name = false) :
    toAdaIdentifier name = name := by
  refine toAdaIdentifier_eq_self ⟨hplain, hreserved, fun hin => hunder (hin.subset
    List.mem_cons_self), fun hh => hunder (List.mem_of_head? hh), fun hl => hunder
    (List.mem_of_getLast? hl)⟩

theorem underscore_mem_toAdaIdentifier {name : List Char}
    (hplain : ∀ c ∈ name, isSymbolChar c = true)
    (h : '_' ∈ name ∨ isReservedWord name = true) : '_' ∈ toAdaIdentifier name := by
  have hstrip := stripNamespaces_self (not_mem_of_plain hplain (c := ':') (by decide))
  have hloop : '_' ∈ theLoopText name := by
    rw [theLoopText, hstrip]
    split
    · simp
    · rename_i hr
      exact h.resolve_right hr
  rw [toAdaIdentifier_symbol hplain]
  exact mem_ended (mem_headed (underscore_mem_widenUnderscores hloop))

theorem toAdaIdentifier_isAda {name : List Char} (h : IsCIdentifier name) :
    IsAdaIdentifier (toAdaIdentifier name) := by
  have hloop := theLoopText_plain h.2
  have hreserved : isReservedWord (toAdaIdentifier name) = false := by
    by_cases hu : '_' ∈ name ∨ isReservedWord name = true
    · exact not_reserved_of_underscore (underscore_mem_toAdaIdentifier h.2 hu)
    · obtain ⟨hunder, hr⟩ := not_or.1 hu
      rw [Bool.not_eq_true] at hr
      rw [toAdaIdentifier_notReserved h.2 hunder hr, hr]
  have heq := toAdaIdentifier_symbol h.2
  refine ⟨?_, hreserved, ?_, ?_, ?_⟩
  · rw [heq]
    exact ended_plain (headed_plain (widened_plain hloop))
  · rw [heq]
    exact ended_single (headed_single (widenUnderscores_single (doubles_le_length _)))
  · rw [heq, ended_head?]
    exact headed_head? _
  · rw [heq]
    exact ended_getLast? _

theorem toAdaIdentifier_idem {name : List Char} (h : IsCIdentifier name) :
    toAdaIdentifier (toAdaIdentifier name) = toAdaIdentifier name :=
  toAdaIdentifier_eq_self (toAdaIdentifier_isAda h)

end Swig4Ada.Ada

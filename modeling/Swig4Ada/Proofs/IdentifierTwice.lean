import Swig4Ada.Proofs.Identifier

/-!
# Which names a second conversion changes

The first conversion leaves no namespace, no reserved word, no double underscore and no
underscore at an end. But the word that it writes for a pointer or array suffix begins with an
underscore, and nothing looks at the text again.
-/

namespace Swig4Ada.Ada

/-! ## Parts of a text -/
theorem infix_around {pattern before behind : List Char} {c : Char} (hc : c ∉ pattern)
    (h : pattern <:+: before ++ c :: behind) : pattern <:+: before ∨ pattern <:+: behind := by
  induction before with
  | nil =>
      rcases List.infix_cons_iff.1 h with hp | hin
      · cases pattern with
        | nil => exact Or.inl (List.nil_infix)
        | cons d ds => exact absurd ((List.cons_prefix_cons.1 hp).1 ▸ List.mem_cons_self) hc
      · exact Or.inr hin
  | cons a before ih =>
      rcases List.infix_cons_iff.1 h with hp | hin
      · have hfront : a :: before <+: a :: before ++ c :: behind := List.prefix_append _ _
        rcases Nat.le_total pattern.length (a :: before).length with hlen | hlen
        · exact Or.inl (List.prefix_of_prefix_length_le hp hfront hlen).isInfix
        · obtain ⟨rest, hrest⟩ := List.prefix_of_prefix_length_le hfront hp hlen
          rw [← hrest] at hp hc
          have hp : a :: before ++ rest <+: a :: before ++ c :: behind := hp
          cases rest with
          | nil =>
              rw [← hrest, List.append_nil]
              exact Or.inl List.infix_rfl
          | cons d ds =>
              have hd := (List.cons_prefix_cons.1 ((List.prefix_append_right_inj _).1 hp)).1
              exact absurd (List.mem_append_right _ (hd ▸ List.mem_cons_self)) hc
      · exact (ih hin).imp (fun hb => hb.trans (List.suffix_cons a before).isInfix) id

theorem suffix_behind {pattern before behind : List Char} {c : Char} (hc : c ∉ pattern)
    (h : pattern <:+ before ++ c :: behind) : pattern <:+ behind := by
  have hback : c :: behind <:+ before ++ c :: behind := List.suffix_append _ _
  rcases Nat.lt_or_ge behind.length pattern.length with hlen | hlen
  · have hin := List.suffix_of_suffix_length_le hback h (by rw [List.length_cons]; exact hlen)
    exact absurd (hin.subset List.mem_cons_self) hc
  · exact List.suffix_of_suffix_length_le h ((List.suffix_cons c behind).trans hback) hlen

theorem stripNamespaces_single (self : List Char) : ¬ [':', ':'] <:+: stripNamespaces self := by
  have hreverse : ∀ {l : List Char}, [':', ':'] <:+: l ↔ [':', ':'] <:+: l.reverse := by
    intro l
    rw [← List.reverse_infix]
    rfl
  rw [stripNamespaces, hreverse]
  cases hi : index [':', ':'] self.reverse with
  | none => exact index_eq_none_iff.1 hi
  | some back =>
      dsimp only
      rw [← List.take_reverse]
      exact (index_take_free hi).resolve_right (List.cons_ne_nil _ _)

/-! ## Where a text is left alone -/

/-- The ends that the last steps spell out. -/
def suffixTexts : List (List Char) := [['*'], ['[', ']'], ['*', '[', ']']]

/-- A name whose suffix stands alone or behind an underscore, when the namespaces are gone. -/
def SuffixBare (name : List Char) : Prop :=
  ∃ suffix ∈ suffixTexts, stripNamespaces name = suffix ∨ '_' :: suffix <:+ stripNamespaces name

theorem length_widenUnderscores (fuel : Nat) (text : List Char) :
    text.length ≤ (widenUnderscores fuel text).length := by
  induction fuel generalizing text with
  | zero => exact Nat.le_refl _
  | succ fuel ih =>
      rw [widenUnderscores]
      cases hi : index ['_', '_'] text with
      | none => exact Nat.le_refl _
      | some i =>
          have hlong := index_lt hi
          refine Nat.le_trans ?_ (ih _)
          simp only [List.length_append, List.length_take, List.length_drop, List.length_cons,
            List.length_nil]
          omega

theorem length_widenUnderscores_lt {fuel : Nat} {text : List Char} (hfuel : 0 < fuel)
    (h : ['_', '_'] <:+: text) : text.length < (widenUnderscores fuel text).length := by
  obtain ⟨fuel, rfl⟩ : ∃ f, fuel = f + 1 := ⟨fuel - 1, by omega⟩
  rw [widenUnderscores]
  cases hi : index ['_', '_'] text with
  | none => exact absurd h (index_eq_none_iff.1 hi)
  | some i =>
      have hlong := index_lt hi
      refine Nat.lt_of_lt_of_le ?_ (length_widenUnderscores fuel _)
      simp only [List.length_append, List.length_take, List.length_drop, List.length_cons,
        List.length_nil]
      omega

theorem length_replaceTail {pattern by' : List Char} (h : pattern.length < by'.length)
    (text : List Char) : text.length ≤ (replaceTail pattern by' text).length ∧
      (pattern <:+ text → text.length < (replaceTail pattern by' text).length) := by
  by_cases hs : pattern.isSuffixOf text = true
  · rw [replaceTail, if_pos hs, List.length_append, List.length_take]
    have hlong := (List.isSuffixOf_iff_suffix.1 hs).length_le
    exact ⟨by omega, fun _ => by omega⟩
  · rw [replaceTail, if_neg hs]
    exact ⟨Nat.le_refl _, fun hp => absurd (List.isSuffixOf_iff_suffix.2 hp) hs⟩

theorem replaceTail_none {pattern by' text : List Char} (h : ¬ pattern <:+ text) :
    replaceTail pattern by' text = text := by
  rw [replaceTail, if_neg (fun hs => h (List.isSuffixOf_iff_suffix.1 hs))]

theorem suffixed_none {text : List Char} (h : ∀ suffix ∈ suffixTexts, ¬ suffix <:+ text) :
    suffixed text = text := by
  have h₁ : ¬ ['*'] <:+ text := h _ List.mem_cons_self
  have h₂ : ¬ ['[', ']'] <:+ text := h _ (List.mem_cons_of_mem _ List.mem_cons_self)
  have h₃ : ¬ ['*', '[', ']'] <:+ text :=
    h _ (List.mem_cons_of_mem _ (List.mem_cons_of_mem _ List.mem_cons_self))
  rw [suffixed, replaceTail_none h₃, replaceTail_none h₂, replaceTail_none h₁]

theorem length_suffixed (text : List Char) : text.length ≤ (suffixed text).length := by
  rw [suffixed]
  exact ((length_replaceTail (by decide) text).1.trans
    (length_replaceTail (by decide) _).1).trans (length_replaceTail (by decide) _).1

/-- The last steps lengthen a text that has one of the ends. -/
theorem length_suffixed_lt {text suffix : List Char} (hmem : suffix ∈ suffixTexts)
    (h : suffix <:+ text) : text.length < (suffixed text).length := by
  rw [suffixed]
  have h₁ := @length_replaceTail ['*', '[', ']'] "_Pointer_array".toList (by decide)
  have h₂ := @length_replaceTail ['[', ']'] "_array".toList (by decide)
  have h₃ := @length_replaceTail ['*'] "_pointer".toList (by decide)
  by_cases hlong : ['*', '[', ']'] <:+ text
  · exact Nat.lt_of_lt_of_le ((h₁ text).2 hlong) ((h₂ _).1.trans (h₃ _).1)
  · rw [replaceTail_none hlong]
    by_cases harray : ['[', ']'] <:+ text
    · exact Nat.lt_of_lt_of_le ((h₂ text).2 harray) (h₃ _).1
    · rw [replaceTail_none harray]
      refine (h₃ text).2 ?_
      rcases List.mem_cons.1 hmem with rfl | hmem
      · exact h
      rcases List.mem_cons.1 hmem with rfl | hmem
      · exact absurd h harray
      · exact absurd (List.mem_singleton.1 hmem ▸ h) hlong

/-- Where the conversion leaves a text alone that has no namespace and is no reserved word. -/
theorem toAdaIdentifier_self_iff {text : List Char} (hcolons : ¬ [':', ':'] <:+: text)
    (hreserved : isReservedWord text = false) :
    toAdaIdentifier text = text ↔ ¬ ['_', '_'] <:+: text ∧ text.head? ≠ some '_' ∧
      text.getLast? ≠ some '_' ∧ ∀ suffix ∈ suffixTexts, ¬ suffix <:+ text := by
  have hstrip : stripNamespaces text = text := by
    have hnone : index [':', ':'] text.reverse = none := by
      refine index_eq_none_iff.2 fun hin => hcolons ?_
      rw [← List.reverse_infix]
      exact hin
    rw [stripNamespaces, hnone]
  have hloop : theLoopText text = text := by
    rw [theLoopText, hstrip, hreserved, if_neg Bool.false_ne_true]
  have hheaded : ∀ t : List Char, t.length ≤ (headed t).length := by
    intro t
    rw [headed]
    split <;> simp
  have hended : ∀ t : List Char, t.length ≤ (ended t).length := by
    intro t
    rw [ended]
    split <;> simp
  rw [toAdaIdentifier_eq, hloop]
  constructor
  · intro hself
    have hlen := congrArg List.length hself
    have hsingle : ¬ ['_', '_'] <:+: text := by
      intro hin
      have hpos : 0 < text.length := Nat.lt_of_lt_of_le (by decide) hin.length_le
      have h₁ := length_widenUnderscores_lt hpos hin
      have h₂ := hheaded (widenUnderscores text.length text)
      have h₃ := hended (headed (widenUnderscores text.length text))
      have h₄ := length_suffixed (ended (headed (widenUnderscores text.length text)))
      omega
    rw [widenUnderscores_self hsingle] at hlen
    have h₁ := hheaded text
    have h₂ := hended (headed text)
    have h₃ := length_suffixed (ended (headed text))
    have hhead : text.head? ≠ some '_' := by
      intro hh
      rw [headed, if_pos hh, List.length_cons] at h₁
      rw [headed, if_pos hh] at h₂ h₃ hlen
      rw [List.length_cons] at h₂
      omega
    rw [show headed text = text by rw [headed, if_neg hhead]] at h₂ h₃ hlen
    have hlast : text.getLast? ≠ some '_' := by
      intro hl
      rw [ended, if_pos hl] at h₃ hlen
      rw [List.length_append, List.length_singleton] at h₃
      omega
    rw [show ended text = text by rw [ended, if_neg hlast]] at hlen
    refine ⟨hsingle, hhead, hlast, fun suffix hmem hs => ?_⟩
    have h₄ := length_suffixed_lt hmem hs
    omega
  · rintro ⟨hsingle, hhead, hlast, hsuffix⟩
    rw [widenUnderscores_self hsingle, headed, if_neg hhead, ended, if_neg hlast,
      suffixed_none hsuffix]

/-! ## What the first conversion leaves -/

theorem underscore_not_suffix {suffix : List Char} (h : suffix ∈ suffixTexts) : '_' ∉ suffix := by
  have hall : ∀ suffix ∈ suffixTexts, '_' ∉ suffix := by decide
  exact hall suffix h

theorem infix_cons_other {pattern text : List Char} {c : Char} (hc : c ∉ pattern)
    (h : pattern <:+: c :: text) : pattern <:+: text := by
  rcases @infix_around pattern [] text c hc h with hnil | hin
  · exact hnil.trans (List.nil_infix)
  · exact hin

theorem widenUnderscores_infix {pattern : List Char} (hunder : '_' ∉ pattern) (ha : 'a' ∉ pattern)
    {fuel : Nat} {text : List Char} (h : pattern <:+: widenUnderscores fuel text) :
    pattern <:+: text := by
  induction fuel generalizing text with
  | zero => exact h
  | succ fuel ih =>
      rw [widenUnderscores] at h
      cases hi : index ['_', '_'] text with
      | none =>
          rw [hi] at h
          exact h
      | some i =>
          rw [hi] at h
          rcases infix_around hunder (ih h) with hfront | hback
          · exact hfront.trans (List.take_prefix _ _).isInfix
          · exact (infix_cons_other hunder (infix_cons_other ha hback)).trans
              (List.drop_suffix _ _).isInfix

theorem widenUnderscores_suffix {pattern : List Char} (hunder : '_' ∉ pattern)
    {fuel : Nat} {text : List Char} (h : pattern <:+ widenUnderscores fuel text) :
    pattern <:+ text := by
  induction fuel generalizing text with
  | zero => exact h
  | succ fuel ih =>
      rw [widenUnderscores] at h
      cases hi : index ['_', '_'] text with
      | none =>
          rw [hi] at h
          exact h
      | some i =>
          rw [hi] at h
          have hback : pattern <:+ (text.take i ++ ['_', 'a']) ++ '_' :: text.drop (i + 2) := by
            have hin := ih h
            simp only [List.append_assoc, List.cons_append, List.nil_append] at hin ⊢
            exact hin
          exact (suffix_behind hunder hback).trans (List.drop_suffix _ _)

/-- The text before the last steps. -/
def worded (name : List Char) : List Char :=
  ended (headed (widenUnderscores (theLoopText name).length (theLoopText name)))

theorem worded_colons (name : List Char) : ¬ [':', ':'] <:+: worded name := by
  intro hin
  have ha : 'a' ∉ [':', ':'] := by decide
  have hunder : '_' ∉ [':', ':'] := by decide
  have hheaded : [':', ':'] <:+:
      headed (widenUnderscores (theLoopText name).length (theLoopText name)) := by
    rw [worded, ended] at hin
    split at hin
    · rcases infix_around ha hin with hin | hnil
      · exact hin
      · exact absurd hnil (by decide)
    · exact hin
  have hwidened : [':', ':'] <:+:
      widenUnderscores (theLoopText name).length (theLoopText name) := by
    rw [headed] at hheaded
    split at hheaded
    · exact infix_cons_other ha hheaded
    · exact hheaded
  have hloop := widenUnderscores_infix hunder ha hwidened
  rw [theLoopText] at hloop
  split at hloop
  · rcases @infix_around _ ['t', 'h', 'e'] _ '_' hunder hloop with hthe | hstrip
    · exact absurd hthe (by decide)
    · exact stripNamespaces_single name hstrip
  · exact stripNamespaces_single name hloop

theorem worded_suffix {name suffix : List Char} (hmem : suffix ∈ suffixTexts)
    (h : suffix <:+ worded name) : suffix <:+ stripNamespaces name := by
  have hunder := underscore_not_suffix hmem
  have hall : ∀ suffix ∈ suffixTexts, 'a' ∉ suffix := by decide
  have ha := hall suffix hmem
  have hheaded : suffix <:+
      headed (widenUnderscores (theLoopText name).length (theLoopText name)) := by
    rw [worded, ended] at h
    split at h
    · have hnil : suffix <:+ [] := suffix_behind ha h
      rw [List.suffix_nil.1 hnil]
      exact List.nil_suffix
    · exact h
  have hwidened : suffix <:+ widenUnderscores (theLoopText name).length (theLoopText name) := by
    rw [headed] at hheaded
    split at hheaded
    · exact @suffix_behind suffix [] _ 'a' ha hheaded
    · exact hheaded
  have hloop := widenUnderscores_suffix hunder hwidened
  rw [theLoopText] at hloop
  split at hloop
  · exact @suffix_behind _ ['t', 'h', 'e'] _ '_' hunder hloop
  · exact hloop

theorem worded_single (name : List Char) : ¬ ['_', '_'] <:+: worded name :=
  ended_single (headed_single (widenUnderscores_single (doubles_le_length _)))

theorem worded_head? (name : List Char) : (worded name).head? ≠ some '_' := by
  rw [worded, ended_head?]
  exact headed_head? _

theorem worded_not_reserved (name : List Char) : isReservedWord (worded name) = false := by
  by_cases hunder : '_' ∈ theLoopText name
  · exact not_reserved_of_underscore
      (mem_ended (mem_headed (underscore_mem_widenUnderscores hunder)))
  · have hloop : isReservedWord (theLoopText name) = false := by
      rw [theLoopText] at hunder ⊢
      split at hunder
      · exact absurd (List.mem_append_left _ (by decide)) hunder
      · rename_i hreserved
        rw [if_neg hreserved]
        exact Bool.eq_false_iff.2 hreserved
    have hsingle : ¬ ['_', '_'] <:+: theLoopText name :=
      fun hin => hunder (hin.subset List.mem_cons_self)
    have hhead : (theLoopText name).head? ≠ some '_' := fun hh => hunder (List.mem_of_head? hh)
    have hlast : (theLoopText name).getLast? ≠ some '_' :=
      fun hl => hunder (List.mem_of_getLast? hl)
    rwa [worded, widenUnderscores_self hsingle, headed, if_neg hhead, ended, if_neg hlast]

/-- The steps leave a suffix and work on the stem. -/
theorem worded_stem {name stem suffix : List Char} (hmem : suffix ∈ suffixTexts)
    (hstrip : stripNamespaces name = stem ++ suffix) : ∃ fuel,
    worded name = headed (widenUnderscores fuel stem) ++ suffix := by
  have hunder := underscore_not_suffix hmem
  have hstar : ∀ w ∈ reservedWords.map String.toList, toLower '*' ∉ w := by decide
  have hbracket : ∀ w ∈ reservedWords.map String.toList, toLower ']' ∉ w := by decide
  have hreserved : isReservedWord (stem ++ suffix) = false := by
    have hany : ∀ suffix ∈ suffixTexts, '*' ∈ suffix ∨ ']' ∈ suffix := by decide
    rcases hany suffix hmem with hin | hin
    · exact not_reserved_of_mem hstar (List.mem_append_right _ hin)
    · exact not_reserved_of_mem hbracket (List.mem_append_right _ hin)
  have hloop : theLoopText name = stem ++ suffix := by
    rw [theLoopText, hstrip, hreserved, if_neg Bool.false_ne_true]
  have hhead : suffix.head? ≠ some '_' := fun hh => hunder (List.mem_of_head? hh)
  have hall : ∀ suffix ∈ suffixTexts, suffix ≠ [] := by decide
  have hne := hall suffix hmem
  refine ⟨(stem ++ suffix).length, ?_⟩
  have hheaded : headed (widenUnderscores (stem ++ suffix).length stem ++ suffix) =
      headed (widenUnderscores (stem ++ suffix).length stem) ++ suffix := by
    by_cases hnil : widenUnderscores (stem ++ suffix).length stem = []
    · rw [hnil, List.nil_append, headed, if_neg hhead]
      rfl
    · exact headed_append hnil
  have hlast : (headed (widenUnderscores (stem ++ suffix).length stem) ++ suffix).getLast? ≠
      some '_' := by
    rw [List.getLast?_append_of_ne_nil _ hne]
    exact fun hl => hunder (List.mem_of_getLast? hl)
  rw [worded, hloop, widenUnderscores_append hunder, hheaded, ended, if_neg hlast]

/-! ## The second conversion -/

/-- A stem with a word behind it is left alone where it has a letter at its end. -/
theorem stem_twice {stem word : List Char} (hcolons : ¬ [':', ':'] <:+: stem)
    (hsingle : ¬ ['_', '_'] <:+: stem) (hhead : stem.head? ≠ some '_')
    (hword : ':' ∉ word) (hwordSingle : ¬ ['_', '_'] <:+: '_' :: word)
    (hwordLast : ('_' :: word).getLast? ≠ some '_')
    (hwordEnd : ∀ suffix ∈ suffixTexts, ¬ suffix <:+ word) :
    toAdaIdentifier (stem ++ '_' :: word) = stem ++ '_' :: word ↔
      stem ≠ [] ∧ stem.getLast? ≠ some '_' := by
  have hno : ¬ [':', ':'] <:+: stem ++ '_' :: word := by
    intro hin
    rcases infix_around (by decide) hin with hin | hin
    · exact hcolons hin
    · exact hword (hin.subset List.mem_cons_self)
  have hreserved : isReservedWord (stem ++ '_' :: word) = false :=
    not_reserved_of_underscore (List.mem_append_right _ List.mem_cons_self)
  rw [toAdaIdentifier_self_iff hno hreserved]
  constructor
  · rintro ⟨hjoined, hfirst, -, -⟩
    refine ⟨fun hnil => hfirst (by rw [hnil]; rfl), fun hl => ?_⟩
    obtain ⟨front, rfl⟩ := List.getLast?_eq_some_iff.1 hl
    exact hjoined ⟨front, word, by simp⟩
  · rintro ⟨hne, hlast⟩
    refine ⟨single_append hsingle hlast hwordSingle, ?_, ?_, fun suffix hmem hs => ?_⟩
    · rwa [List.head?_append_of_ne_nil _ hne]
    · rwa [List.getLast?_append_of_ne_nil _ (List.cons_ne_nil _ _)]
    · exact hwordEnd suffix hmem (suffix_behind (underscore_not_suffix hmem) hs)

/-- The word that the last steps write for a suffix. -/
structure IsSpelledOut (suffix word : List Char) : Prop where
  mem : suffix ∈ suffixTexts
  colon : ':' ∉ word
  single : ¬ ['_', '_'] <:+: '_' :: word
  last : ('_' :: word).getLast? ≠ some '_'
  ends : ∀ other ∈ suffixTexts, ¬ other <:+ word

theorem pointer_spelledOut : IsSpelledOut ['*'] pointerWord :=
  ⟨by decide, by decide, by decide, by decide, by decide⟩

theorem array_spelledOut : IsSpelledOut ['[', ']'] arrayWord :=
  ⟨by decide, by decide, by decide, by decide, by decide⟩

theorem pointerArray_spelledOut : IsSpelledOut ['*', '[', ']'] pointerArrayWord :=
  ⟨by decide, by decide, by decide, by decide, by decide⟩

/-- The longest suffix decides. -/
theorem suffixBare_iff {name stem suffix : List Char} (hmem : suffix ∈ suffixTexts)
    (hstrip : stripNamespaces name = stem ++ suffix)
    (hlongest : ∀ other ∈ suffixTexts, other <:+ stripNamespaces name →
      other.length ≤ suffix.length) :
    SuffixBare name ↔ stem = [] ∨ stem.getLast? = some '_' := by
  have hback : suffix <:+ stripNamespaces name := ⟨stem, hstrip.symm⟩
  constructor
  · rintro ⟨other, hother, he | hs⟩
    · have hshort := hlongest other hother (he ▸ List.suffix_rfl)
      rw [← he, hstrip, List.length_append] at hshort
      exact Or.inl (List.eq_nil_of_length_eq_zero (by omega))
    · have hs' : other <:+ stripNamespaces name := (List.suffix_cons '_' other).trans hs
      have hshort := hlongest other hother hs'
      rcases Nat.lt_or_ge other.length suffix.length with hlt | hge
      · have hin := List.suffix_of_suffix_length_le hs hback
          (by rw [List.length_cons]; omega)
        exact absurd (hin.subset List.mem_cons_self) (underscore_not_suffix hmem)
      · obtain rfl := (List.suffix_of_suffix_length_le hback hs' hge).eq_of_length (by omega)
        obtain ⟨front, hfront⟩ := hs
        rw [hstrip, List.append_cons] at hfront
        exact Or.inr (by rw [← List.append_cancel_right hfront, List.getLast?_concat])
  · rintro (hnil | hl)
    · exact ⟨suffix, hmem, Or.inl (by rw [hstrip, hnil]; rfl)⟩
    · obtain ⟨front, rfl⟩ := List.getLast?_eq_some_iff.1 hl
      exact ⟨suffix, hmem, Or.inr ⟨front, by rw [hstrip, List.append_assoc]; rfl⟩⟩

theorem headed_last (text : List Char) : (headed text).getLast? = text.getLast? := by
  rw [headed]
  split
  · cases text with
    | nil => simp_all
    | cons c cs => rw [List.getLast?_cons_cons]
  · rfl

/-- A name with a suffix. The last steps are given by what they write for it. -/
theorem twice_stem {name stem suffix word : List Char} (hword : IsSpelledOut suffix word)
    (hstrip : stripNamespaces name = stem ++ suffix)
    (hlongest : ∀ other ∈ suffixTexts, other <:+ stripNamespaces name →
      other.length ≤ suffix.length)
    (hspelled : ∀ front : List Char, front.getLast? = stem.getLast? →
      suffixed (front ++ suffix) = front ++ '_' :: word) :
    toAdaIdentifier (toAdaIdentifier name) = toAdaIdentifier name ↔ ¬ SuffixBare name := by
  obtain ⟨fuel, hworded⟩ := worded_stem hword.mem hstrip
  obtain ⟨front, hfront⟩ : ∃ f, headed (widenUnderscores fuel stem) = f := ⟨_, rfl⟩
  have hlast : front.getLast? = stem.getLast? := by
    rw [← hfront, headed_last, getLast?_widenUnderscores]
  rw [hfront] at hworded
  have hpart : front <+: worded name := ⟨suffix, hworded.symm⟩
  have hconverted : toAdaIdentifier name = front ++ '_' :: word := by
    rw [toAdaIdentifier_eq]
    show suffixed (worded name) = _
    rw [hworded, hspelled front hlast]
  have hempty : front = [] ↔ stem = [] := by
    rw [← List.getLast?_eq_none_iff, hlast, List.getLast?_eq_none_iff]
  rw [hconverted, stem_twice (fun hin => worded_colons name (hin.trans hpart.isInfix))
    (fun hin => worded_single name (hin.trans hpart.isInfix)) (hfront ▸ headed_head? _)
    hword.colon hword.single hword.last hword.ends,
    suffixBare_iff hword.mem hstrip hlongest, not_or, hlast, ne_eq, hempty]

/-- Where a second conversion leaves a name alone. -/
theorem toAdaIdentifier_twice (name : List Char) :
    toAdaIdentifier (toAdaIdentifier name) = toAdaIdentifier name ↔ ¬ SuffixBare name := by
  have hmem : ∀ other ∈ suffixTexts,
      other = ['*'] ∨ other = ['[', ']'] ∨ other = ['*', '[', ']'] := by decide
  have hstarBracket : ∀ front back : List Char, front ++ ['*'] ≠ back ++ [']'] := fun front back h =>
    absurd (List.append_inj_right' h rfl) (by decide)
  have hother : ∀ front : List Char, ¬ ['[', ']'] <:+ front ++ ['*'] := by
    rintro front ⟨back, hback⟩
    rw [List.append_cons] at hback
    exact hstarBracket _ _ hback.symm
  by_cases hlong : ['*', '[', ']'] <:+ stripNamespaces name
  · obtain ⟨stem, hstem⟩ := hlong
    refine twice_stem pointerArray_spelledOut hstem.symm (fun other hin _ => ?_)
      (fun front _ => ?_)
    · rcases hmem other hin with rfl | rfl | rfl <;> decide
    · have h₁ := @replaceTail_other ['['] "_array".toList
        (front ++ "_Pointer_arra".toList) ']' 'y' (by decide)
      have h₂ := @replaceTail_other [] "_pointer".toList
        (front ++ "_Pointer_arra".toList) '*' 'y' (by decide)
      rw [List.append_assoc] at h₁ h₂
      rw [suffixed, replaceTail_append]
      exact (congrArg _ h₁).trans h₂
  by_cases harray : ['[', ']'] <:+ stripNamespaces name
  · obtain ⟨stem, hstem⟩ := harray
    have hstar : stem.getLast? ≠ some '*' := by
      intro hl
      obtain ⟨front, rfl⟩ := List.getLast?_eq_some_iff.1 hl
      exact hlong ⟨front, by rw [← hstem, List.append_assoc]; rfl⟩
    refine twice_stem array_spelledOut hstem.symm (fun other hin hs => ?_)
      (fun front hfront => ?_)
    · rcases hmem other hin with rfl | rfl | rfl
      · decide
      · decide
      · exact absurd hs hlong
    · have hnot : ¬ ['*', '[', ']'] <:+ front ++ ['[', ']'] := by
        rintro ⟨back, hback⟩
        have hback : back ++ ['*'] ++ ['[', ']'] = front ++ ['[', ']'] := by
          rw [← hback, List.append_assoc]
          rfl
        rw [← List.append_cancel_right hback, List.getLast?_concat] at hfront
        exact hstar hfront.symm
      have h₂ := @replaceTail_other [] "_pointer".toList (front ++ "_arra".toList) '*' 'y'
        (by decide)
      rw [List.append_assoc] at h₂
      rw [suffixed, replaceTail_none hnot, replaceTail_append]
      exact h₂
  by_cases hpointer : ['*'] <:+ stripNamespaces name
  · obtain ⟨stem, hstem⟩ := hpointer
    refine twice_stem pointer_spelledOut hstem.symm (fun other hin hs => ?_)
      (fun front _ => suffixed_pointer front)
    rcases hmem other hin with rfl | rfl | rfl
    · decide
    · exact absurd hs harray
    · exact absurd hs hlong
  · have hnone : ∀ other ∈ suffixTexts, ¬ other <:+ stripNamespaces name := by
      intro other hin
      rcases hmem other hin with rfl | rfl | rfl
      · exact hpointer
      · exact harray
      · exact hlong
    have hworded : ∀ other ∈ suffixTexts, ¬ other <:+ worded name :=
      fun other hin hs => hnone other hin (worded_suffix hin hs)
    have hconverted : toAdaIdentifier name = worded name := by
      rw [toAdaIdentifier_eq]
      exact suffixed_none hworded
    rw [hconverted]
    refine iff_of_true ?_ ?_
    · exact (toAdaIdentifier_self_iff (worded_colons name) (worded_not_reserved name)).2
        ⟨worded_single name, worded_head? name, ended_getLast? _, hworded⟩
    · rintro ⟨suffix, hin, he | hs⟩
      · exact hnone suffix hin (he ▸ List.suffix_rfl)
      · exact hnone suffix hin ((List.suffix_cons '_' suffix).trans hs)

end Swig4Ada.Ada

import Swig4Ada.Doxygen.Tokens

/-!
# What the tokens of a Doxygen comment keep

A line falls into segments: words, white space and the characters of quoted text, which are
kept, and what begins with a special character. Where no command, tag or entity is known the
tokens of a line are its segments, less the entities and commands, which are left out. The
slash behind an opening bracket and letters behind an ampersand that end the line are lost as
well.
-/

namespace Swig4Ada.Doxygen

/-! ## Segments -/

inductive Segment
  | kept (text : List Char)
  /-- An opening bracket, with what could be the name of a tag. -/
  | bracket (slash : Bool) (name : List Char)
  | closing
  /-- An ampersand and letters that are not an entity. -/
  | ampersand (letters : List Char)
  | entity (letters : List Char)
  /-- An ampersand and letters up to the end of the line. -/
  | lastLetters (letters : List Char)
  | word (sign : Char) (name blanks : List Char)
  | escaped (sign : Char) (name : List Char)
deriving DecidableEq, Repr

namespace Segment

/-- The characters of the line. -/
def text : Segment → List Char
  | kept text => text
  | bracket slash name => '<' :: ((if slash then ['/'] else []) ++ name)
  | closing => ['>']
  | ampersand letters => '&' :: letters
  | entity letters => '&' :: (letters ++ [';'])
  | lastLetters letters => '&' :: letters
  | word sign name blanks => sign :: (name ++ blanks)
  | escaped sign name => sign :: name

/-- The characters of its tokens, when nothing is known. -/
def left : Segment → List Char
  | kept text => text
  | bracket _ name => '<' :: name
  | closing => ['>']
  | ampersand letters => '&' :: letters
  | entity _ => []
  | lastLetters _ => []
  | word _ _ _ => []
  | escaped _ _ => []

/-- A command, a tag or an entity that is known. -/
def Known (features : Features) (ends : List (List Char)) : Segment → Prop
  | bracket _ name => name ≠ [] ∧ (commandBelongs features ends ('<' :: name)).1 ≠ .none
  | entity letters => (commandBelongs features ends ('&' :: letters)).1 ≠ .none
  | word _ name _ => (commandBelongs features ends name).1 ≠ .none
  | escaped _ _ => True
  | _ => False

instance (features : Features) (ends : List (List Char)) (s : Segment) :
    Decidable (s.Known features ends) := by
  cases s <;> unfold Known <;> infer_instance

/-- An entity, or a command with the white space behind it. -/
def isCommand : Segment → Bool
  | entity _ => true
  | word _ _ _ => true
  | escaped _ _ => true
  | _ => false

/-- A slash behind an opening bracket, or an ampersand with only letters up to the end. -/
def isCut : Segment → Bool
  | bracket slash _ => slash
  | lastLetters _ => true
  | _ => false

end Segment

/-- The segment behind a sign for a command, and what follows it. -/
def commandSegment (c : Char) (t : List Char) : Segment × List Char :=
  let name := upTo (fun c => !isWordChar c) t
  let r := (findFirst (fun c => !isWordChar c) t).getD []
  let plain := (.word c name (upTo (fun c => !isBlank c) r),
    (findFirst (fun c => !isBlank c) r).getD [])
  match t with
  | [] => plain
  | d :: u =>
      if d ∈ [' ', '\'', '\t', '\n'] then (.kept [c], t)
      else if d ∈ ['$', '@', '\\', '&', '~', '<', '>', '#', '%', '"', '.'] then
        (.escaped c [d], u)
      else if d = ':' ∧ u.head? = some ':' then (.escaped c [':', ':'], u.tail)
      else plain

/-- The segment that begins with a special character, outside of quotes, and what follows. -/
def specialSegment (c : Char) (t : List Char) : Segment × List Char :=
  if c = '\\' ∨ c = '@' then commandSegment c t
  else if c = ' ' ∨ c = '\t' then
    (.kept (c :: upTo (fun c => !isBlank c) t), (findFirst (fun c => !isBlank c) t).getD [])
  else if c = '<' then
    let slash := decide (t.head? = some '/')
    let t := if slash then t.tail else t
    (.bracket slash (upTo endsTag t), (findFirst endsTag t).getD [])
  else if c = '>' then (.closing, t)
  else if c = '&' then
    let letters := upTo (fun c => !isLetter c) t
    match findFirst (fun c => !isLetter c) t with
    | none => (.lastLetters letters, [])
    | some r =>
        if r.head? = some ';' ∧ letters ≠ [] then (.entity letters, r.tail)
        else (.ampersand letters, r)
  else (.kept [c], t)

/-- The segments of a line, from a place that is in quotes or is not. -/
def segmentsFrom : Nat → Bool → List Char → List Segment
  | 0, _, _ => []
  | _, _, [] => []
  | fuel + 1, quoted, c :: t =>
      if isSpecial c = false then
        .kept (upTo isSpecial (c :: t)) ::
          segmentsFrom fuel quoted ((findFirst isSpecial (c :: t)).getD [])
      else if quoted then .kept [c] :: segmentsFrom fuel (decide (c ≠ '"')) t
      else
        let r := specialSegment c t
        r.1 :: segmentsFrom fuel (decide (c = '"')) r.2

/-- Each turn goes past a character. -/
def segments (quoted : Bool) (t : List Char) : List Segment := segmentsFrom t.length quoted t

/-! ## Positions -/

variable {p : Char → Bool} {t u : List Char} {c : Char} {features : Features} {st : Tokenizer}
  {cmd : List Char}

theorem findFirst_getD : (findFirst p t).getD [] = t.dropWhile fun c => !p c := by
  rw [findFirst]
  split
  · next h => exact h.symm
  · rfl

example : findFirst (· = '@') "see @ref x".toList = some "@ref x".toList := by decide +kernel

theorem upTo_findFirst : upTo p t ++ (findFirst p t).getD [] = t := by
  rw [findFirst_getD]
  exact List.takeWhile_append_dropWhile

theorem findFirst_here (hc : p c = true) : findFirst p (c :: t) = some (c :: t) := by
  rw [findFirst, List.dropWhile_cons, hc]
  rfl

theorem findFirst_some (h : findFirst p t = some (c :: u)) : p c = true := by
  have hdrop : t.dropWhile (fun c => !p c) = c :: u := by
    rw [← findFirst_getD, h]
    rfl
  have hhead := List.head?_dropWhile_not (fun c => !p c) t
  rw [hdrop] at hhead
  simpa using hhead

theorem findFirst_shorter (hc : p c = false) :
    ((findFirst p (c :: t)).getD []).length ≤ t.length := by
  rw [findFirst_getD, List.dropWhile_cons, hc]
  exact (List.dropWhile_suffix _).length_le

/-! ## The text of the segments -/

theorem commandSegment_text :
    (commandSegment c t).1.text ++ (commandSegment c t).2 = c :: t := by
  have hword : ∀ t, (Segment.word c (upTo (fun c => !isWordChar c) t)
      (upTo (fun c => !isBlank c) ((findFirst (fun c => !isWordChar c) t).getD []))).text ++
      (findFirst (fun c => !isBlank c) ((findFirst (fun c => !isWordChar c) t).getD [])).getD [] =
        c :: t := by
    intro t
    rw [Segment.text, List.cons_append, List.append_assoc, upTo_findFirst, upTo_findFirst]
  cases t with
  | nil => exact hword []
  | cons d u =>
      rw [commandSegment]
      by_cases hblank : d ∈ [' ', '\'', '\t', '\n']
      · rw [if_pos hblank]
        rfl
      · rw [if_neg hblank]
        by_cases hescaped : d ∈ ['$', '@', '\\', '&', '~', '<', '>', '#', '%', '"', '.']
        · rw [if_pos hescaped]
          rfl
        · rw [if_neg hescaped]
          by_cases hcolon : d = ':' ∧ u.head? = some ':'
          · rw [if_pos hcolon]
            obtain ⟨rfl, hu⟩ := hcolon
            cases u with
            | nil => cases hu
            | cons x u =>
                obtain rfl : x = ':' := Option.some.inj hu
                rfl
          · rw [if_neg hcolon]
            exact hword (d :: u)

theorem specialSegment_text (hc : isSpecial c = true) :
    (specialSegment c t).1.text ++ (specialSegment c t).2 = c :: t := by
  rw [specialSegment]
  split
  · exact commandSegment_text
  split
  · rw [Segment.text, List.cons_append, upTo_findFirst]
  split
  · next hbracket =>
      subst hbracket
      by_cases hslash : t.head? = some '/'
      · obtain ⟨u, rfl⟩ : ∃ u, t = '/' :: u := by
          cases t with
          | nil => cases hslash
          | cons x t => exact ⟨t, by rw [Option.some.inj hslash]⟩
        simp only [List.head?_cons, decide_true, if_true, List.tail_cons, Segment.text]
        rw [List.cons_append, List.append_assoc, upTo_findFirst]
        rfl
      · simp only [hslash, decide_false, Bool.false_eq_true, if_false, Segment.text]
        rw [List.cons_append, List.append_assoc, upTo_findFirst]
        rfl
  split
  · next hclosing =>
      subst hclosing
      rfl
  split
  · next hamp =>
      subst hamp
      have happend := upTo_findFirst (p := fun c => !isLetter c) (t := t)
      cases hfind : findFirst (fun c => !isLetter c) t with
      | none =>
          rw [hfind] at happend
          exact congrArg ('&' :: ·) happend
      | some r =>
          rw [hfind] at happend
          simp only
          split
          · next hentity =>
              cases r with
              | nil => cases hentity.1
              | cons x r =>
                  obtain rfl : x = ';' := Option.some.inj hentity.1
                  rw [Segment.text, List.cons_append, List.append_assoc]
                  exact congrArg ('&' :: ·) happend
          · exact congrArg ('&' :: ·) happend
  · rfl

theorem commandSegment_pos : 0 < (commandSegment c t).1.text.length := by
  cases t with
  | nil => exact Nat.succ_pos _
  | cons d u =>
      rw [commandSegment]
      split
      · exact Nat.succ_pos _
      split
      · exact Nat.succ_pos _
      split
      · exact Nat.succ_pos _
      · exact Nat.succ_pos _

theorem specialSegment_pos : 0 < (specialSegment c t).1.text.length := by
  rw [specialSegment]
  split
  · exact commandSegment_pos
  split
  · exact Nat.succ_pos _
  split
  · exact Nat.succ_pos _
  split
  · exact Nat.succ_pos _
  split
  · split
    · exact Nat.succ_pos _
    · simp only
      split
      · exact Nat.succ_pos _
      · exact Nat.succ_pos _
  · exact Nat.succ_pos _

theorem specialSegment_length (hc : isSpecial c = true) :
    (specialSegment c t).2.length ≤ t.length := by
  have hlen := congrArg List.length (specialSegment_text (t := t) hc)
  have hpos := specialSegment_pos (c := c) (t := t)
  rw [List.length_append, List.length_cons] at hlen
  omega

theorem segmentsFrom_text {fuel : Nat} {quoted : Bool} (h : t.length ≤ fuel) :
    (segmentsFrom fuel quoted t).flatMap Segment.text = t := by
  induction fuel generalizing quoted t with
  | zero =>
      rw [List.length_eq_zero_iff.1 (Nat.le_zero.1 h)]
      rfl
  | succ fuel ih =>
      cases t with
      | nil => rfl
      | cons c t =>
          rw [List.length_cons] at h
          rw [segmentsFrom]
          split
          · next hc =>
              have hshorter := findFirst_shorter (t := t) hc
              rw [List.flatMap_cons, ih (by omega)]
              exact upTo_findFirst
          · next hc =>
              split
              · rw [List.flatMap_cons, ih (by omega)]
                rfl
              · have hspecial : isSpecial c = true := by simpa using hc
                have hshorter := specialSegment_length (t := t) hspecial
                rw [List.flatMap_cons, ih (by omega)]
                exact specialSegment_text hspecial

/-- The segments are the line. -/
theorem segments_text (quoted : Bool) (t : List Char) :
    (segments quoted t).flatMap Segment.text = t := segmentsFrom_text (Nat.le_refl _)

/-! ## Tokens -/

/-- The characters of a token; the commands for single characters are read as these. -/
def Token.reading (k : Token) : List Char :=
  match k.type with
  | .endLine => []
  | .plainString => k.string
  | .command =>
      if k.string = "&lt".toList then ['<']
      else if k.string = "&gt".toList then ['>']
      else if k.string = "&amp".toList then ['&']
      else k.string

/-- From `st` on tokens with the characters `added` were made, and nothing is known. -/
structure Adds (st : Tokenizer) (quoted : Bool) (st' : Tokenizer) (added : List Char) : Prop where
  tokens : ∃ new, st'.tokens = st.tokens ++ new ∧ new.flatMap Token.reading = added
  quoted : st'.isInQuotedString = quoted
  verbatim : st'.isVerbatimText = st.isVerbatimText
  ends : st'.ends = st.ends

namespace Adds

variable {st' st'' : Tokenizer} {q q' : Bool} {v w : List Char}

theorem none : Adds st st.isInQuotedString st [] :=
  ⟨⟨[], (List.append_nil _).symm, rfl⟩, rfl, rfl, rfl⟩

theorem trans (h : Adds st q st' v) (h' : Adds st' q' st'' w) : Adds st q' st'' (v ++ w) := by
  obtain ⟨new, hnew, rfl⟩ := h.tokens
  obtain ⟨new', hnew', rfl⟩ := h'.tokens
  refine ⟨⟨new ++ new', ?_, List.flatMap_append⟩, h'.quoted, h'.verbatim.trans h.verbatim,
    h'.ends.trans h.ends⟩
  rw [hnew', hnew, List.append_assoc]

theorem plain (s : List Char) : Adds st st.isInQuotedString (st.push .plainString s) s :=
  ⟨⟨[⟨.plainString, s⟩], rfl, List.append_nil s⟩, rfl, rfl, rfl⟩

/-- Quotes begin or end. -/
theorem turn (h : Adds { st with isInQuotedString := q } q' st' v) : Adds st q' st' v :=
  ⟨h.tokens, h.quoted, h.verbatim, h.ends⟩

end Adds

theorem addDoxyCommand_unknown (h : (commandBelongs features st.ends cmd).1 = .none) :
    addDoxyCommand features st cmd = (false, st) := by
  have hends : (commandBelongs features st.ends cmd).2 = st.ends := by
    rw [commandBelongs] at h ⊢
    split
    · rfl
    · next htable =>
        rw [htable] at h
        simp only at h
        split
        · rfl
        · next halias =>
            rw [if_neg halias] at h
            split
            · next hignored =>
                rw [if_pos hignored] at h
                cases h
            · rfl
  rw [addDoxyCommand, if_neg (not_not.2 h), hends]

theorem belongs_table {kind : DoxyCommandEnum}
    (h : doxygenCommands (stringToLower cmd) = some kind) (ends : List (List Char)) :
    commandBelongs features ends cmd = (kind, ends) := by
  rw [commandBelongs, h]

theorem addDoxyCommand_table {kind : DoxyCommandEnum}
    (h : doxygenCommands (stringToLower cmd) = some kind) (hkind : kind ≠ .none) :
    addDoxyCommand features st cmd = (true, st.push .command cmd) := by
  rw [addDoxyCommand, belongs_table h]
  exact if_pos hkind

/-- The commands for single characters are known. -/
theorem adds_character {x : Char}
    (h : (cmd, x) ∈ [("&lt".toList, '<'), ("&gt".toList, '>'), ("&amp".toList, '&')]) :
    Adds st st.isInQuotedString (addDoxyCommand features st cmd).2 [x] := by
  have htable : doxygenCommands (stringToLower cmd) = some .commandHtmlEntity ∧
      Token.reading ⟨.command, cmd⟩ = [x] := by
    simp only [List.mem_cons, Prod.mk.injEq, List.not_mem_nil, or_false] at h
    rcases h with ⟨rfl, rfl⟩ | ⟨rfl, rfl⟩ | ⟨rfl, rfl⟩
    · exact ⟨by decide +kernel, rfl⟩
    · exact ⟨by decide +kernel, rfl⟩
    · exact ⟨by decide +kernel, rfl⟩
  rw [addDoxyCommand_table htable.1 nofun]
  exact ⟨⟨[⟨.command, cmd⟩], rfl, by simp [htable.2]⟩, rfl, rfl, rfl⟩

/-- What begins verbatim text is known. -/
theorem verbatim_known (h : cmd ∈ verbatimCommands) (ends : List (List Char)) :
    (commandBelongs features ends cmd).1 ≠ .none := by
  obtain ⟨kind, hkind, hne⟩ : ∃ kind, doxygenCommands (stringToLower cmd) = some kind ∧
      kind ≠ .none := by
    simp only [verbatimCommands, List.mem_cons, List.not_mem_nil, or_false] at h
    rcases h with rfl | rfl | rfl | rfl | rfl
    · exact ⟨.commandEndCommand, by decide +kernel, nofun⟩
    · exact ⟨.commandUnique, by decide +kernel, nofun⟩
    · exact ⟨.commandUnique, by decide +kernel, nofun⟩
    · exact ⟨.commandUnique, by decide +kernel, nofun⟩
    · exact ⟨.commandUnique, by decide +kernel, nofun⟩
  rw [belongs_table hkind]
  exact hne

/-! ## Special characters -/

theorem adds_word
    (h : (commandBelongs features st.ends (upTo (fun c => !isWordChar c) t)).1 = .none) :
    Adds st st.isInQuotedString (processWordCommands features st t).1 [] ∧
      (processWordCommands features st t).2.getD [] = (findFirst (fun c => !isBlank c)
        ((findFirst (fun c => !isWordChar c) t).getD [])).getD [] := by
  have hverbatim : upTo (fun c => !isWordChar c) t ∉ verbatimCommands :=
    fun hmem => verbatim_known hmem st.ends h
  rw [processWordCommands, addDoxyCommand_unknown h, if_neg hverbatim]
  refine ⟨Adds.none, ?_⟩
  cases findFirst (fun c => !isWordChar c) t with
  | none => rfl
  | some r => rfl

/-- A sign for a command that is not known. -/
theorem adds_command (hsign : c = '\\' ∨ c = '@')
    (hknown : ¬ (commandSegment c t).1.Known features st.ends) :
    ∃ r, processNormalComment features st c t = some r ∧
      Adds st st.isInQuotedString r.1 (commandSegment c t).1.left ∧
      r.2.getD [] = (commandSegment c t).2 := by
  rw [processNormalComment, if_pos hsign]
  cases t with
  | nil =>
      obtain ⟨hadds, hrest⟩ := adds_word (t := []) (not_not.1 hknown)
      exact ⟨_, rfl, hadds, hrest⟩
  | cons d u =>
      rw [commandSegment] at hknown ⊢
      rw [processEscapedChars]
      by_cases hblank : d ∈ [' ', '\'', '\t', '\n']
      · rw [if_pos hblank, if_pos hblank]
        exact ⟨_, rfl, Adds.plain [c], rfl⟩
      · rw [if_neg hblank] at hknown ⊢
        rw [if_neg hblank]
        by_cases hescaped : d ∈ ['$', '@', '\\', '&', '~', '<', '>', '#', '%', '"', '.']
        · rw [if_pos hescaped] at hknown
          exact absurd trivial hknown
        · rw [if_neg hescaped] at hknown ⊢
          rw [if_neg hescaped]
          by_cases hcolon : d = ':' ∧ u.head? = some ':'
          · rw [if_pos hcolon] at hknown
            exact absurd trivial hknown
          · rw [if_neg hcolon] at hknown ⊢
            rw [if_neg hcolon]
            obtain ⟨hadds, hrest⟩ := adds_word (not_not.1 hknown)
            exact ⟨_, rfl, hadds, hrest⟩

/-- What could be the name of a tag, behind an opening bracket. -/
def tagText (t : List Char) : List Char := if t.head? = some '/' then t.tail else t

theorem specialSegment_bracket : specialSegment '<' t =
    (.bracket (decide (t.head? = some '/')) (upTo endsTag (tagText t)),
      (findFirst endsTag (tagText t)).getD []) := by
  by_cases hslash : t.head? = some '/'
  · simp [specialSegment, tagText, hslash]
  · simp [specialSegment, tagText, hslash]

/-- An opening bracket that does not begin a known tag. -/
theorem adds_bracket (hknown : ¬ (specialSegment '<' t).1.Known features st.ends) :
    ∃ r, processHtmlTags features st t = some r ∧
      Adds st st.isInQuotedString r.1 (specialSegment '<' t).1.left ∧
      r.2.getD [] = (specialSegment '<' t).2 := by
  rw [specialSegment_bracket] at hknown ⊢
  have hunknown : (if upTo endsTag (tagText t) = [] then (false, st)
      else addDoxyCommand features st ('<' :: upTo endsTag (tagText t))) = (false, st) := by
    split
    · rfl
    · next hne =>
        refine addDoxyCommand_unknown ?_
        by_contra h
        exact hknown ⟨hne, h⟩
  have hprocess : processHtmlTags features st t =
      some ((addDoxyCommand features st "&lt".toList).2.push .plainString
          (upTo endsTag (tagText t)), findFirst endsTag (tagText t)) := by
    rw [tagText] at hunknown ⊢
    simp only [processHtmlTags, decide_eq_true_eq, hunknown, Bool.false_eq_true, if_false]
  refine ⟨_, hprocess, ?_, rfl⟩
  have hchar : Adds st st.isInQuotedString (addDoxyCommand features st "&lt".toList).2 ['<'] :=
    adds_character List.mem_cons_self
  rw [← hchar.quoted]
  exact hchar.trans (Adds.plain _)

/-- An ampersand that does not begin a known entity. -/
theorem adds_ampersand (hknown : ¬ (specialSegment '&' t).1.Known features st.ends) :
    Adds st st.isInQuotedString (processHtmlEntities features st t).1
        (specialSegment '&' t).1.left ∧
      (processHtmlEntities features st t).2.getD [] = (specialSegment '&' t).2 := by
  have hseg : specialSegment '&' t =
      match findFirst (fun c => !isLetter c) t with
      | none => (.lastLetters (upTo (fun c => !isLetter c) t), [])
      | some r =>
          if r.head? = some ';' ∧ upTo (fun c => !isLetter c) t ≠ [] then
            (.entity (upTo (fun c => !isLetter c) t), r.tail)
          else (.ampersand (upTo (fun c => !isLetter c) t), r) := rfl
  rw [hseg] at hknown ⊢
  rw [processHtmlEntities]
  cases hfind : findFirst (fun c => !isLetter c) t with
  | none => exact ⟨Adds.none, rfl⟩
  | some r =>
      rw [hfind] at hknown
      simp only at hknown ⊢
      by_cases hentity : r.head? = some ';' ∧ upTo (fun c => !isLetter c) t ≠ []
      · rw [if_pos hentity] at hknown ⊢
        rw [if_pos hentity, addDoxyCommand_unknown (not_not.1 hknown)]
        exact ⟨Adds.none, rfl⟩
      · rw [if_neg hentity, if_neg hentity]
        refine ⟨?_, rfl⟩
        have hchar : Adds st st.isInQuotedString
            (addDoxyCommand features st "&amp".toList).2 ['&'] :=
          adds_character (List.mem_cons_of_mem _ (List.mem_cons_of_mem _ List.mem_cons_self))
        rw [← hchar.quoted]
        exact hchar.trans (Adds.plain _)

/-- A special character outside of quotes. -/
theorem adds_special (hc : isSpecial c = true) (hquoted : st.isInQuotedString = false)
    (hknown : ¬ (specialSegment c t).1.Known features st.ends) :
    ∃ r, processNormalComment features st c t = some r ∧
      Adds st (decide (c = '"')) r.1 (specialSegment c t).1.left ∧
      r.2.getD [] = (specialSegment c t).2 := by
  have hspecial : c = '\\' ∨ c = '@' ∨ c = '<' ∨ c = '>' ∨ c = '&' ∨ c = '"' ∨ c = ' ' ∨
      c = '\t' := by
    simpa [isSpecial] using hc
  have hquote : c ≠ '"' → decide (c = '"') = st.isInQuotedString := by
    intro h
    rw [hquoted, decide_eq_false h]
  have hblank : c = ' ' ∨ c = '\t' → ∃ r, processNormalComment features st c t = some r ∧
      Adds st st.isInQuotedString r.1 (specialSegment c t).1.left ∧
      r.2.getD [] = (specialSegment c t).2 := by
    intro hx
    have hsign : ¬ (c = '\\' ∨ c = '@') := by
      rcases hx with rfl | rfl <;> decide
    rw [processNormalComment, specialSegment, if_neg hsign, if_neg hsign, if_pos hx, if_pos hx]
    exact ⟨_, rfl, Adds.plain _, rfl⟩
  rcases hspecial with rfl | rfl | rfl | rfl | rfl | rfl | rfl | rfl
  · rw [hquote (by decide)]
    exact adds_command (Or.inl rfl) hknown
  · rw [hquote (by decide)]
    exact adds_command (Or.inr rfl) hknown
  · rw [hquote (by decide)]
    exact adds_bracket hknown
  · rw [hquote (by decide)]
    exact ⟨_, rfl, adds_character (List.mem_cons_of_mem _ List.mem_cons_self), rfl⟩
  · rw [hquote (by decide)]
    obtain ⟨hadds, hrest⟩ := adds_ampersand hknown
    exact ⟨_, rfl, hadds, hrest⟩
  · exact ⟨_, rfl, (Adds.plain _).turn, rfl⟩
  · rw [hquote (by decide)]
    exact hblank (Or.inl rfl)
  · rw [hquote (by decide)]
    exact hblank (Or.inr rfl)

/-! ## Words and lines -/

theorem adds_pushWord (s : List Char) : Adds st st.isInQuotedString (pushWord st s) s := by
  rw [pushWord]
  split
  · next hmark =>
      cases hlast : s.getLast? with
      | none =>
          rw [hlast] at hmark
          exact absurd hmark.1 Bool.false_ne_true
      | some x =>
          have happend : s.dropLast ++ [x] = s := by
            rw [List.getLast?_eq_some_iff] at hlast
            obtain ⟨u, rfl⟩ := hlast
            rw [List.dropLast_concat]
          conv => arg 4; rw [← happend]
          exact (Adds.plain _).trans (Adds.plain _)
  · exact Adds.plain s

/-- Behind a word the same turn goes on at the next special character. -/
theorem tokenizeWords_word {fuel : Nat} (hc : isSpecial c = false) :
    tokenizeWords features (fuel + 1) st (some (c :: t)) =
      tokenizeWords features (fuel + 1) (pushWord st (upTo isSpecial (c :: t)))
        (findFirst isSpecial (c :: t)) := by
  have hhead : ¬ (c :: t).head?.any isSpecial = true := by
    rw [List.head?_cons, Option.any_some, hc]
    exact Bool.false_ne_true
  rw [tokenizeWords, if_neg hhead]
  cases hfind : findFirst isSpecial (c :: t) with
  | none => rfl
  | some r =>
      cases r with
      | nil =>
          rw [findFirst] at hfind
          split at hfind
          · cases hfind
          · next hne => exact absurd (Option.some.inj hfind) hne
      | cons d u =>
          have hd := findFirst_some hfind
          have hhead' : (d :: u).head?.any isSpecial = true := hd
          rw [tokenizeWords, if_pos hhead', findFirst_here hd]

theorem tokenizeWords_special {fuel : Nat} (hc : isSpecial c = true) :
    tokenizeWords features (fuel + 1) st (some (c :: t)) =
      (processSpecial features st c t).bind fun r => tokenizeWords features fuel r.1 r.2 := by
  have hhead : (c :: t).head?.any isSpecial = true := hc
  rw [tokenizeWords, if_pos hhead, findFirst_here hc]

/-- A special character in quotes. -/
theorem adds_quoted (hquoted : st.isInQuotedString = true) (hverbatim : st.isVerbatimText = false) :
    ∃ st', processSpecial features st c t = some (st', some t) ∧
      Adds st (decide (c ≠ '"')) st' [c] := by
  rw [processSpecial, if_neg (by rw [hverbatim]; exact Bool.false_ne_true), if_pos hquoted]
  refine ⟨_, rfl, ?_⟩
  by_cases hq : c = '"'
  · rw [if_pos hq, decide_eq_false (not_not.2 hq)]
    exact (Adds.plain [c]).turn
  · rw [if_neg hq, decide_eq_true hq, ← hquoted]
    exact Adds.plain [c]

theorem adds_end {n m : Nat} {q : Bool} {pos : Option (List Char)} (hpos : pos.getD [] = [])
    (hm : 0 < m) : ∃ q' st', tokenizeWords features m st pos = some st' ∧
      Adds st q' st' ((segmentsFrom n q []).flatMap Segment.left) := by
  have hnone : segmentsFrom n q [] = [] := by cases n <;> rfl
  obtain ⟨m, rfl⟩ : ∃ k, m = k + 1 := ⟨m - 1, by omega⟩
  rw [hnone]
  cases pos with
  | none => exact ⟨_, st, by rw [tokenizeWords], Adds.none⟩
  | some r =>
      obtain rfl : r = [] := hpos
      exact ⟨_, _, rfl, Adds.plain []⟩

/-- The tokens of the words of a line are its segments, where nothing is known. -/
theorem adds_words {n m : Nat} {pos : Option (List Char)} (hpos : pos.getD [] = t)
    (hverbatim : st.isVerbatimText = false) (hn : t.length ≤ n) (hm : t.length < m)
    (hknown : ∀ s ∈ segmentsFrom n st.isInQuotedString t, ¬ s.Known features st.ends) :
    ∃ q st', tokenizeWords features m st pos = some st' ∧
      Adds st q st' ((segmentsFrom n st.isInQuotedString t).flatMap Segment.left) := by
  induction n generalizing st pos t m with
  | zero =>
      obtain rfl := List.length_eq_zero_iff.1 (Nat.le_zero.1 hn)
      exact adds_end hpos hm
  | succ n ih =>
      cases t with
      | nil => exact adds_end hpos hm
      | cons c t =>
          obtain ⟨m, rfl⟩ : ∃ k, m = k + 1 := ⟨m - 1, by omega⟩
          obtain rfl : pos = some (c :: t) := by
            cases pos with
            | none => cases hpos
            | some r => exact congrArg some hpos
          rw [List.length_cons] at hn hm
          rw [segmentsFrom] at hknown ⊢
          by_cases hc : isSpecial c = false
          · rw [if_pos hc] at hknown ⊢
            have hword : Adds st _ _ _ := adds_pushWord (upTo isSpecial (c :: t))
            have hshorter := findFirst_shorter (t := t) hc
            rw [← hword.quoted, ← hword.ends] at hknown
            obtain ⟨q, st', hwords, hadds⟩ := ih rfl (hword.verbatim.trans hverbatim) (by omega)
              (show _ < m + 1 by omega) fun s hs => hknown s (List.mem_cons_of_mem _ hs)
            rw [hword.quoted] at hadds
            exact ⟨q, st', (tokenizeWords_word hc).trans hwords, hword.trans hadds⟩
          · rw [if_neg hc] at hknown ⊢
            have hspecial : isSpecial c = true := by simpa using hc
            rw [tokenizeWords_special hspecial]
            cases hquoted : st.isInQuotedString with
            | true =>
                rw [hquoted, if_pos rfl] at hknown
                rw [if_pos rfl]
                obtain ⟨st₁, hprocess, hchar⟩ := adds_quoted (t := t) hquoted hverbatim
                rw [← hchar.quoted, ← hchar.ends] at hknown
                have hrest : (some t).getD [] = t := rfl
                obtain ⟨q, st', hwords, hadds⟩ := ih hrest
                  (hchar.verbatim.trans hverbatim) (by omega) (show t.length < m by omega)
                  fun s hs => hknown s (List.mem_cons_of_mem _ hs)
                rw [hchar.quoted] at hadds
                refine ⟨q, st', ?_, hchar.trans hadds⟩
                rw [hprocess]
                exact hwords
            | false =>
                rw [hquoted, if_neg Bool.false_ne_true] at hknown
                rw [if_neg Bool.false_ne_true]
                obtain ⟨r, hprocess, hchar, hrest⟩ :=
                  adds_special hspecial hquoted (hknown _ List.mem_cons_self)
                have hshorter := specialSegment_length (t := t) hspecial
                rw [← hchar.quoted, ← hchar.ends] at hknown
                obtain ⟨q, st', hwords, hadds⟩ := ih hrest (hchar.verbatim.trans hverbatim)
                  (by omega) (show _ < m by omega) fun s hs => hknown s (List.mem_cons_of_mem _ hs)
                rw [hchar.quoted] at hadds
                refine ⟨q, st', ?_, hchar.trans hadds⟩
                rw [processSpecial, if_neg (by rw [hverbatim]; exact Bool.false_ne_true),
                  if_neg (by rw [hquoted]; exact Bool.false_ne_true), hprocess]
                exact hwords

/-- A line behind its decoration: white space, characters that start a comment, and a blank. -/
def content (line : List Char) : List Char :=
  let t := line.dropWhile isBlank
  let u := t.dropWhile isStartOfDoxyCommentChar
  if u.length = t.length then line
  else if u.head? = some ' ' then u.tail
  else u

/-- The segments of a line from its first word on. -/
def lineSegments (quoted : Bool) (line : List Char) : List Segment :=
  segments quoted ((content line).dropWhile isBlank)

theorem findFirst_not {q : Char → Bool} : findFirst (fun c => !q c) t =
    match t.dropWhile q with
    | [] => none
    | r => some r := by
  cases hrest : t.dropWhile q with
  | nil => simp only [findFirst, Bool.not_not, hrest]
  | cons c u => simp only [findFirst, Bool.not_not, hrest]

theorem upTo_not {q : Char → Bool} : upTo (fun c => !q c) t = t.takeWhile q := by
  simp only [upTo, Bool.not_not]

/-- A line that is blank behind its decoration gives the end of the line only; else the words
of the line follow its first white space. -/
theorem tokenizeLine_content (line : List Char) :
    ((content line).dropWhile isBlank = [] →
      tokenizeLine features st line = some (st.push .endLine ['\n'])) ∧
    ((content line).dropWhile isBlank ≠ [] →
      ∃ st', Adds st st.isInQuotedString st' ((content line).takeWhile isBlank) ∧
        tokenizeLine features st line =
          tokenizeFrom features st' ((content line).dropWhile isBlank)) := by
  rw [content, tokenizeLine]
  simp only [findFirst_not, upTo_not]
  cases ht : line.dropWhile isBlank with
  | nil =>
      simp only [List.dropWhile_nil, if_true, ht]
      exact ⟨fun _ => trivial, fun h => absurd rfl h⟩
  | cons c t =>
      cases hu : (c :: t).dropWhile isStartOfDoxyCommentChar with
      | nil =>
          have hlen : ¬ ([] : List Char).length = (c :: t).length := nofun
          simp only [hu, if_neg hlen]
          exact ⟨fun _ => trivial, fun h => absurd rfl h⟩
      | cons d u =>
          by_cases hlen : (d :: u).length = (c :: t).length
          · have hsame : d :: u = c :: t := by
              rw [← hu]
              exact (List.dropWhile_suffix _).eq_of_length (by rw [hu, hlen])
            obtain ⟨rfl, rfl⟩ := List.cons.inj hsame
            simp only [hu, if_true, ht]
            exact ⟨fun h => (nomatch h), fun _ => ⟨_, Adds.plain _, rfl⟩⟩
          · simp only [hu, if_neg hlen]
            generalize (if (d :: u).head? = some ' ' then (d :: u).tail else d :: u) = w
            cases hw : w.dropWhile isBlank with
            | nil => exact ⟨fun _ => rfl, fun h => absurd rfl h⟩
            | cons x w' =>
                refine ⟨fun h => (nomatch h), fun _ => ⟨_, ?_, rfl⟩⟩
                split
                · next hnil =>
                    rw [hnil]
                    exact Adds.none
                · exact Adds.plain _

/-- What there is left of a line. -/
def lineLeft (quoted : Bool) (line : List Char) : List Char :=
  if (content line).dropWhile isBlank = [] then []
  else (content line).takeWhile isBlank ++ (lineSegments quoted line).flatMap Segment.left

/-- The tokens of a line in which nothing is known are what there is left of it, and its end. -/
theorem tokenizeLine_left {line : List Char} (hverbatim : st.isVerbatimText = false)
    (hknown : ∀ s ∈ lineSegments st.isInQuotedString line, ¬ s.Known features st.ends) :
    ∃ q st', tokenizeLine features st line = some (st'.push .endLine ['\n']) ∧
      Adds st q st' (lineLeft st.isInQuotedString line) := by
  obtain ⟨hblank, hwords⟩ : _ ∧ (_ → ∃ st', _ ∧ tokenizeLine features st line = _) :=
    tokenizeLine_content line
  by_cases hnil : (content line).dropWhile isBlank = []
  · rw [lineLeft, if_pos hnil]
    exact ⟨_, st, hblank hnil, Adds.none⟩
  · rw [lineLeft, if_neg hnil]
    obtain ⟨st₁, hfirst, hline⟩ := hwords hnil
    rw [← hfirst.quoted, ← hfirst.ends, lineSegments, segments] at hknown
    have hrest : (some ((content line).dropWhile isBlank)).getD [] =
        (content line).dropWhile isBlank := rfl
    obtain ⟨q, st₂, hst₂, hadds⟩ := adds_words hrest (hfirst.verbatim.trans hverbatim)
      (Nat.le_refl _) (Nat.lt_succ_self _) hknown
    rw [hfirst.quoted] at hadds
    refine ⟨q, st₂, ?_, hfirst.trans hadds⟩
    rw [hline, tokenizeFrom]
    exact congrArg (Option.map (·.push .endLine ['\n'])) hst₂

theorem left_eq {segs : List Segment} (h : ∀ s ∈ segs, s.isCut = false) :
    segs.flatMap Segment.left = (segs.filter fun s => !s.isCommand).flatMap Segment.text := by
  induction segs with
  | nil => rfl
  | cons s segs ih =>
      have hs := h s List.mem_cons_self
      rw [List.flatMap_cons, ih fun s hs => h s (List.mem_cons_of_mem _ hs)]
      cases s with
      | bracket slash name =>
          obtain rfl : slash = false := hs
          rfl
      | lastLetters letters => cases hs
      | _ => rfl

/-- Where nothing is known, and no slash follows an opening bracket and no letters follow an
ampersand to the end, the tokens of a line are its content, less the entities and the commands;
those of a line that is blank behind its decoration are the end of the line. -/
theorem tokenizeLine_keeps (features : Features) (st : Tokenizer) (line : List Char)
    (hverbatim : st.isVerbatimText = false)
    (hknown : ∀ s ∈ lineSegments st.isInQuotedString line, ¬ s.Known features st.ends)
    (hcut : ∀ s ∈ lineSegments st.isInQuotedString line, s.isCut = false) :
    (content line).takeWhile isBlank ++
        (lineSegments st.isInQuotedString line).flatMap Segment.text = content line ∧
      ∃ st' new, tokenizeLine features st line = some st' ∧
        st'.tokens = st.tokens ++ (new ++ [⟨.endLine, ['\n']⟩]) ∧
        new.flatMap Token.reading =
          if (content line).dropWhile isBlank = [] then []
          else (content line).takeWhile isBlank ++
            ((lineSegments st.isInQuotedString line).filter fun s => !s.isCommand).flatMap
              Segment.text := by
  constructor
  · rw [lineSegments, segments_text, List.takeWhile_append_dropWhile]
  · obtain ⟨q, st₁, hline, hadds⟩ := tokenizeLine_left hverbatim hknown
    obtain ⟨new, hnew, hreading⟩ := hadds.tokens
    refine ⟨st₁.push .endLine ['\n'], new, hline, ?_, ?_⟩
    · show st₁.tokens ++ [_] = _
      rw [hnew, List.append_assoc]
    · rw [hreading, lineLeft, left_eq hcut]

def noFeatures : Features := ⟨fun _ => false, fun _ => false, fun _ => []⟩

/-- A line with brackets, an ampersand and quotes. -/
theorem comparison_kept :
    ∃ st' new,
      tokenizeLine noFeatures ⟨[], false, false, []⟩ " * if x<y & \"z\"".toList = some st' ∧
      st'.tokens = new ++ [⟨.endLine, ['\n']⟩] ∧
      new.flatMap Token.reading = "if x<y & \"z\"".toList := by
  obtain ⟨-, st', new, hline, htokens, hreading⟩ :=
    tokenizeLine_keeps noFeatures ⟨[], false, false, []⟩ " * if x<y & \"z\"".toList rfl
      (by decide +kernel) (by decide)
  exact ⟨st', new, hline, htokens, hreading⟩

/-- An entity that is not known is left out. -/
theorem entity_left_out :
    content "a &foo; b".toList = "a &foo; b".toList ∧
      (∀ s ∈ lineSegments false "a &foo; b".toList, ¬ s.Known noFeatures []) ∧
      (tokenizeLine noFeatures ⟨[], false, false, []⟩ "a &foo; b".toList).map
        (fun st => st.tokens.flatMap Token.reading) = some "a  b".toList := by
  decide +kernel

/-! ## Comments -/

/-- In none of the lines anything is known, in the state in which it is read. -/
def LinesUnknown (features : Features) : Tokenizer → List (List Char) → Prop
  | _, [] => True
  | st, line :: lines =>
      (∀ s ∈ lineSegments st.isInQuotedString line, ¬ s.Known features st.ends) ∧
        ∀ st', tokenizeLine features st line = some st' → LinesUnknown features st' lines

/-- The tokens of line after line are what there is left of it, and its end. -/
inductive LinesLeft : Tokenizer → List (List Char) → Tokenizer → Prop
  | none (st : Tokenizer) : LinesLeft st [] st
  | line {st st₁ st' : Tokenizer} {q : Bool} {line : List Char} {lines : List (List Char)} :
      Adds st q st₁ (lineLeft st.isInQuotedString line) →
      LinesLeft (st₁.push .endLine ['\n']) lines st' → LinesLeft st (line :: lines) st'

theorem tokenizeLines_left {lines : List (List Char)} (hverbatim : st.isVerbatimText = false)
    (h : LinesUnknown features st lines) :
    ∃ st', lines.foldlM (tokenizeLine features) st = some st' ∧ LinesLeft st lines st' := by
  induction lines generalizing st with
  | nil => exact ⟨st, rfl, .none st⟩
  | cons line lines ih =>
      obtain ⟨q, st₁, hline, hadds⟩ := tokenizeLine_left hverbatim h.1
      have hplain : (st₁.push .endLine ['\n']).isVerbatimText = false :=
        hadds.verbatim.trans hverbatim
      obtain ⟨st', hlines, hleft⟩ := ih hplain (h.2 _ hline)
      refine ⟨st', ?_, .line hadds hleft⟩
      rw [List.foldlM_cons, hline]
      exact hlines

/-- The lines that `tokenizeDoxygenComment` goes through. -/
def commentLines (doxygenComment : List Char) : List (List Char) :=
  let lines := doxygenComment.splitOn '\n'
  if doxygenComment.getLast? = some ' ' ∧ lines.getLast?.any (·.all isBlank) then lines.dropLast
  else lines

/-- A comment in which nothing is known becomes the tokens of what is left of its lines. -/
theorem tokenizeDoxygenComment_left (doxygenComment : List Char)
    (h : LinesUnknown features ⟨[], false, false, []⟩ (commentLines doxygenComment)) :
    ∃ st', tokenizeDoxygenComment features doxygenComment = some st' ∧
      LinesLeft ⟨[], false, false, []⟩ (commentLines doxygenComment) st' :=
  tokenizeLines_left rfl h

end Swig4Ada.Doxygen

import Swig4Ada.Preprocessor.Reading

/-!
# The line machine and the directives of a text

`Fits` says which readings of a text go with which states of the machine. As long as
nothing is swallowed and every character is in its place, the two stay together
(`fits_step`), so that the directives are right; and at the first character out of its
place they are wrong (`not_right_of_not_inPlace`).
-/

namespace Swig4Ada.Preprocessor

variable {σ : Type} {W : FileWorld σ}

/-! ## Turns of the machine -/

section Turns

variable {fs fs' : FileState σ} {c : Char} {n : Nat}

theorem readFileChar_taken (h : fileStep W fs c = (fs', false)) :
    readFileChar W (n + 1) fs c = fs' := by
  simp only [readFileChar, h, Bool.false_eq_true, if_false]

theorem readFileChar_again (h : fileStep W fs c = (fs', true)) :
    readFileChar W (n + 1) fs c = readFileChar W n fs' c := by
  simp only [readFileChar, h, if_true]

theorem fileStep_line {line : ParseState σ} {again : Bool} (hmode : fs.line.mode ≠ .swigBlock)
    (h : parseStep W.toWorld fs.line c = (line, again)) (hline : line.mode ≠ .swigBlock) :
    fileStep W fs c = (fs.withLine line, again) := by
  rw [fileStep, if_neg hmode, h]
  exact if_neg hline

theorem fileStep_block (hmode : fs.line.mode = .swigBlock) :
    fileStep W fs c = blockStep W fs c := if_pos hmode

/-- The mode behind a character in state 1. -/
def textMode (c : Char) : Mode :=
  if c = '%' then .percent
  else if c = '\n' then .start
  else if isQuote c then .skip c false false
  else if c = '/' then .slash
  else .text

theorem readFile_text (hmode : fs.line.mode = .text) :
    (readFileChar W (n + 1) fs c).line.mode = textMode c := by
  have hstep : ∃ line, parseStep W.toWorld fs.line c = (line, false) ∧ line.mode = textMode c := by
    simp only [parseStep, hmode, textMode, isQuote, Bool.or_eq_true, decide_eq_true_iff]
    split
    · exact ⟨_, rfl, rfl⟩
    split
    · exact ⟨_, rfl, rfl⟩
    split
    · exact ⟨_, rfl, rfl⟩
    split <;> exact ⟨_, rfl, rfl⟩
  obtain ⟨line, hline, hm⟩ := hstep
  have hblock : line.mode ≠ .swigBlock := by
    rw [hm, textMode]
    repeat' split
    all_goals exact fun h => nomatch h
  rw [readFileChar_taken (fileStep_line (hmode.trans_ne (by decide)) hline hblock)]
  exact hm

theorem readFile_start (hmode : fs.line.mode = .start) :
    (readFileChar W (n + 2) fs c).line.mode =
      if c = '#' then .hash else if isSpace c then .start else textMode c := by
  have hne : fs.line.mode ≠ .swigBlock := hmode.trans_ne (by decide)
  by_cases hhash : c = '#'
  · have hstep : parseStep W.toWorld fs.line c =
        ({ addChunk W.toWorld fs.line with cppLines := 1, mode := .hash }, false) := by
      simp only [parseStep, hmode, if_pos hhash]
    rw [if_pos hhash, readFileChar_taken (fileStep_line hne hstep fun h => nomatch h)]
    rfl
  by_cases hspace : isSpace c = true
  · have hstep : parseStep W.toWorld fs.line c = (putChunk fs.line c .start, false) := by
      simp only [parseStep, hmode, if_neg hhash, if_pos hspace]
    rw [if_neg hhash, if_pos hspace,
      readFileChar_taken (fileStep_line hne hstep fun h => nomatch h)]
    rfl
  · have hstep : parseStep W.toWorld fs.line c = ({ fs.line with mode := .text }, true) := by
      simp only [parseStep, hmode, if_neg hhash, if_neg hspace]
    rw [if_neg hhash, if_neg hspace,
      readFileChar_again (fileStep_line hne hstep fun h => nomatch h)]
    exact readFile_text rfl

theorem openGroup_mode (st : ParseState σ) (condition : Bool × List Report) :
    (openGroup st condition).mode = st.mode ∨ (openGroup st condition).mode = .outside := by
  rw [openGroup]
  split
  · split <;> exact .inl rfl
  · exact .inr rfl

/-- At the end of a directive the machine is in the first column, unless there was no room
for a conditional. -/
theorem carryOut_mode (W : World σ) (st : ParseState σ) :
    (carryOut W st).mode = st.mode ∨ (carryOut W st).mode = .outside := by
  have helif : (elifGroup W st).mode = st.mode := by
    rw [elifGroup]
    repeat' split
    all_goals rfl
  have helse : (elseGroup st).mode = st.mode := by
    unfold elseGroup
    split
    · rfl
    · simp only
      split
      · rfl
      · split <;> rfl
  have hendif : (endifGroup st).mode = st.mode := by
    unfold endifGroup
    split
    · rfl
    · simp only
      split <;> rfl
  have hallowed : ∀ name, (allowedDirective W st name).mode = st.mode := by
    intro name
    cases name
    case define =>
      simp only [allowedDirective]
      split <;> rfl
    all_goals rfl
  rw [carryOut]
  split
  · exact openGroup_mode _ _
  · exact openGroup_mode _ _
  · exact openGroup_mode _ _
  · exact .inl helif
  · exact .inl helse
  · exact .inl hendif
  · split
    · exact .inl (hallowed _)
    · exact .inl rfl

theorem readFile_directive (hmode : fs.line.mode = .directive) :
    (readFileChar W (n + 1) fs c).line.mode = .start ∨
      (readFileChar W (n + 1) fs c).line.mode = .outside := by
  have hend : (directiveEnd W.toWorld fs.line).mode = .start ∨
      (directiveEnd W.toWorld fs.line).mode = .outside := by
    rw [directiveEnd]
    exact carryOut_mode _ _
  have hstep : parseStep W.toWorld fs.line c = (directiveEnd W.toWorld fs.line, false) := by
    simp only [parseStep, hmode]
  have hblock : (directiveEnd W.toWorld fs.line).mode ≠ .swigBlock := by
    rcases hend with h | h <;> (rw [h]; exact fun h => nomatch h)
  rw [readFileChar_taken (fileStep_line (hmode.trans_ne (by decide)) hstep hblock)]
  exact hend

/-- The mode of a directive behind a character of its value. -/
def valueMode (c : Char) : Mode :=
  if c = '/' then .valueSlash
  else if isQuote c then .skip c false true
  else if c = '\\' then .valueBackslash
  else .value

/-- A line break in state 43. -/
theorem readValue_newline (line : ParseState σ) :
    readValue line '\n' = ({ line with mode := .directive }, true) := by
  simp only [readValue, if_true]

theorem readValue_mode (line : ParseState σ) (hc : c ≠ '\n') :
    ∃ line', readValue line c = (line', false) ∧ line'.mode = valueMode c := by
  simp only [readValue, valueMode, isQuote, if_neg hc, Bool.or_eq_true, decide_eq_true_iff]
  split
  · exact ⟨_, rfl, rfl⟩
  split
  · exact ⟨_, rfl, rfl⟩
  split <;> exact ⟨_, rfl, rfl⟩

theorem valueMode_ne (c : Char) : valueMode c ≠ .swigBlock := by
  rw [valueMode]
  repeat' split
  all_goals exact fun h => nomatch h

/-- The directive is at its end, or cannot be carried out. -/
def AtEnd (mode : Mode) : Prop := mode = .start ∨ mode = .outside

/-- A step that reads a value. -/
theorem readFile_readValue (line : ParseState σ) (hmode : fs.line.mode ≠ .swigBlock)
    (hstep : parseStep W.toWorld fs.line c = readValue line c) :
    (c = '\n' → AtEnd (readFileChar W (n + 2) fs c).line.mode) ∧
      (c ≠ '\n' → (readFileChar W (n + 1) fs c).line.mode = valueMode c) := by
  constructor
  · intro hc
    subst hc
    rw [readValue_newline] at hstep
    rw [readFileChar_again (fileStep_line hmode hstep fun h => nomatch h)]
    exact readFile_directive rfl
  · intro hc
    obtain ⟨line', hline, hm⟩ := readValue_mode line hc
    rw [hline] at hstep
    rw [readFileChar_taken (fileStep_line hmode hstep (by rw [hm]; exact valueMode_ne c))]
    exact hm

theorem readFile_value (hmode : fs.line.mode = .value) :
    (c = '\n' → AtEnd (readFileChar W (n + 2) fs c).line.mode) ∧
      (c ≠ '\n' → (readFileChar W (n + 1) fs c).line.mode = valueMode c) :=
  readFile_readValue fs.line (hmode.trans_ne (by decide))
    (by simp only [parseStep, hmode])

theorem isSpace_newline : isSpace '\n' = true := by decide

theorem readFile_beforeValue (hmode : fs.line.mode = .beforeValue) :
    (c = '\n' → AtEnd (readFileChar W (n + 2) fs c).line.mode) ∧
      (c ≠ '\n' → (readFileChar W (n + 1) fs c).line.mode =
        if isSpace c then .beforeValue else valueMode c) := by
  have hne : fs.line.mode ≠ .swigBlock := hmode.trans_ne (by decide)
  by_cases hspace : isSpace c = true
  · by_cases hc : c = '\n'
    · subst hc
      have hstep : parseStep W.toWorld fs.line '\n' =
          ({ fs.line with mode := .directive }, true) := by
        simp only [parseStep, hmode, isSpace_newline, if_true]
      rw [readFileChar_again (fileStep_line hne hstep fun h => nomatch h)]
      exact ⟨fun _ => readFile_directive rfl, fun h => absurd rfl h⟩
    · have hstep : parseStep W.toWorld fs.line c = (fs.line, false) := by
        simp only [parseStep, hmode, if_pos hspace, if_neg hc]
      rw [readFileChar_taken (fileStep_line hne hstep hne), if_pos hspace]
      exact ⟨fun h => absurd h hc, fun _ => by
        rw [readFileChar_taken (fileStep_line hne hstep hne)]
        exact hmode⟩
  · have hc : c ≠ '\n' := by
      intro hc
      subst hc
      exact hspace isSpace_newline
    have hstep : parseStep W.toWorld fs.line c =
        readValue { fs.line with mode := .value } c := by
      simp only [parseStep, hmode, if_neg hspace]
    rw [if_neg hspace]
    exact readFile_readValue _ hne hstep

theorem readFile_name (hmode : fs.line.mode = .name) :
    (c = '\n' → AtEnd (readFileChar W (n + 2) fs c).line.mode) ∧
      (c ≠ '\n' → (readFileChar W (n + 2) fs c).line.mode =
        if isSpace c then .beforeValue else if isIdChar c then .name else valueMode c) := by
  have hne : fs.line.mode ≠ .swigBlock := hmode.trans_ne (by decide)
  by_cases hname : isSpace c ∨ ¬ isIdChar c
  · by_cases hc : c = '\n'
    · subst hc
      have hstep : parseStep W.toWorld fs.line '\n' =
          ({ fs.line with value := [], comment := [], mode := .directive }, true) := by
        simp only [parseStep, hmode, if_pos hname, if_true]
      rw [readFileChar_again (fileStep_line hne hstep fun h => nomatch h)]
      exact ⟨fun _ => readFile_directive rfl, fun h => absurd rfl h⟩
    have hstep : parseStep W.toWorld fs.line c =
        ({ fs.line with value := [], comment := [], mode := .beforeValue }, !isSpace c) := by
      simp only [parseStep, hmode, if_pos hname, if_neg hc]
    refine ⟨fun h => absurd h hc, fun _ => ?_⟩
    by_cases hspace : isSpace c = true
    · rw [hspace] at hstep
      rw [readFileChar_taken (fileStep_line hne hstep fun h => nomatch h), if_pos hspace]
      rfl
    · have hid : ¬ isIdChar c = true := hname.resolve_left hspace
      rw [Bool.not_eq_true] at hspace
      rw [hspace] at hstep
      rw [readFileChar_again (fileStep_line hne hstep fun h => nomatch h), hspace,
        (readFile_beforeValue rfl).2 hc, hspace, if_neg hid]
  · have hstep : parseStep W.toWorld fs.line c =
        ({ fs.line with id := fs.line.id ++ [c] }, false) := by
      simp only [parseStep, hmode, if_neg hname]
    rw [not_or, not_not] at hname
    have hc : c ≠ '\n' := by
      intro hc
      subst hc
      exact hname.1 isSpace_newline
    refine ⟨fun h => absurd h hc, fun _ => ?_⟩
    rw [readFileChar_taken (fileStep_line hne hstep hne), if_neg hname.1, if_pos hname.2]
    exact hmode

theorem readFile_hash (hmode : fs.line.mode = .hash) :
    (c = '\n' → (readFileChar W (n + 3) fs c).line.mode = .start) ∧
      (c ≠ '\n' → (readFileChar W (n + 3) fs c).line.mode =
        if isSpace c then .hash else if isIdChar c then .name else valueMode c) := by
  have hne : fs.line.mode ≠ .swigBlock := hmode.trans_ne (by decide)
  by_cases hc : c = '\n'
  · have hstep : parseStep W.toWorld fs.line c = (putChunk fs.line c .start, false) := by
      simp only [parseStep, hmode, if_pos hc]
    rw [readFileChar_taken (fileStep_line hne hstep fun h => nomatch h)]
    exact ⟨fun _ => rfl, fun h => absurd hc h⟩
  refine ⟨fun h => absurd h hc, fun _ => ?_⟩
  by_cases hspace : isSpace c = true
  · have hstep : parseStep W.toWorld fs.line c = (fs.line, false) := by
      simp only [parseStep, hmode, if_neg hc, if_pos hspace]
    rw [readFileChar_taken (fileStep_line hne hstep hne), if_pos hspace]
    exact hmode
  · have hstep : parseStep W.toWorld fs.line c =
        ({ fs.line with id := [], mode := .name }, true) := by
      simp only [parseStep, hmode, if_neg hc, if_neg hspace]
    rw [readFileChar_again (fileStep_line hne hstep fun h => nomatch h),
      (readFile_name rfl).2 hc, if_neg hspace, if_neg hspace]

end Turns

/-! ## Machine and reading -/

/-- The readings of a text that go with a mode. -/
def Fits (mode : Mode) (part : BlockPart) (r : Reading) : Prop :=
  match mode with
  | .start | .text => r = .text ∨ r = .lineStart
  | .slash => r = .slash
  | .lineComment => r = .lineComment
  | .blockComment => r = .blockComment false
  | .blockCommentStar => r = .blockComment true
  | .hash | .name | .beforeValue => ∃ previous, previous ≠ '\\' ∧ r = .directive .plain previous
  | .value => ∃ previous, r = .directive .plain previous
  | .valueBackslash => r = .directive .plain '\\'
  | .valueSlash => ∃ previous, previous ≠ '\\' ∧ r = .directive .slash previous
  | .valueLineComment => ∃ previous, r = .directive .lineComment previous
  | .valueBlockComment => ∃ previous, r = .directive (.blockComment false) previous
  | .valueBlockCommentStar => ∃ previous, r = .directive (.blockComment true) previous
  | .directive => False
  | .percent | .swigName | .code | .codePercent => r = .text
  | .embedded | .embeddedBackslash => r.inDirective = false
  | .skip quote escaped inValue =>
      isQuote quote = true ∧
        if inValue then ∃ previous, r = .directive (.literal quote escaped) previous
        else r = .literal quote escaped
  | .swigBlock => if part.ofBlock then r = .text else r.inDirective = false
  | .outside => r.inDirective = false

def FitsBoth (x : FileState σ × Reading) : Prop := Fits x.1.line.mode x.1.part x.2

theorem inDirective_of_fits {mode : Mode} {part : BlockPart} {r : Reading}
    (h : Fits mode part r) : mode.inDirective = r.inDirective := by
  cases mode
  case start | text => rcases h with h | h <;> (subst h; rfl)
  case hash | name | beforeValue | valueSlash =>
    obtain ⟨previous, -, h⟩ := h
    subst h
    rfl
  case value | valueLineComment | valueBlockComment | valueBlockCommentStar =>
    obtain ⟨previous, h⟩ := h
    subst h
    rfl
  case directive => exact h.elim
  case embedded | embeddedBackslash | outside => exact h.symm
  case skip quote escaped inValue =>
    obtain ⟨-, h⟩ := h
    cases inValue
    case false =>
      simp only [Bool.false_eq_true, if_false] at h
      subst h
      rfl
    case true =>
      simp only [if_true] at h
      obtain ⟨previous, h⟩ := h
      subst h
      rfl
  case swigBlock =>
    rw [Fits] at h
    split at h
    · subst h
      rfl
    · exact h.symm
  all_goals
    subst h
    rfl

/-! ## Directives -/

namespace Reading

theorem textNext_inDirective (c : Char) : (textNext c).inDirective = false := by
  rw [textNext]
  repeat' split
  all_goals rfl

/-- A directive is entered at a hash that begins a line. -/
theorem enters_iff {r : Reading} {c : Char} (h : r.inDirective = false) :
    (r.next c).inDirective = true ↔ r = .lineStart ∧ c = '#' := by
  have htext : (textNext c).inDirective ≠ true := by
    rw [textNext_inDirective]
    exact Bool.false_ne_true
  cases r
  case lineStart =>
    rw [next]
    by_cases hc : c = '#'
    · rw [if_pos hc]
      exact ⟨fun _ => ⟨rfl, hc⟩, fun _ => rfl⟩
    rw [if_neg hc]
    refine ⟨fun hin => ?_, fun hin => absurd hin.2 hc⟩
    split at hin
    · cases hin
    · exact absurd hin htext
  case text => exact ⟨fun hin => absurd hin htext, fun hin => nomatch hin.1⟩
  case slash =>
    refine ⟨fun hin => ?_, fun hin => nomatch hin.1⟩
    rw [next] at hin
    split at hin
    · cases hin
    split at hin
    · cases hin
    · exact absurd hin htext
  case literal | lineComment | blockComment =>
    refine ⟨fun hin => ?_, fun hin => nomatch hin.1⟩
    simp only [next] at hin
    repeat' split at hin
    all_goals cases hin
  case directive => cases h

theorem stays_out {r : Reading} {c : Char} (h : r.inDirective = false)
    (hc : r = .lineStart → c ≠ '#') : (r.next c).inDirective = false := by
  by_contra hin
  rw [Bool.not_eq_false] at hin
  have hhash := (enters_iff h).1 hin
  exact hc hhash.1 hhash.2

/-- A directive is left at its end. -/
theorem leaves_iff {r : Reading} {c : Char} (h : r.inDirective = true) :
    (r.next c).inDirective = false ↔ r.ends c = true := by
  cases r
  case directive part previous =>
    rw [next]
    split
    · rename_i hends
      exact ⟨fun _ => hends, fun _ => rfl⟩
    · rename_i hends
      exact ⟨fun hout => Bool.noConfusion hout, fun hin => absurd hin hends⟩
  all_goals cases h

theorem not_ends_of_not_inDirective {r : Reading} {c : Char} (h : r.inDirective = false) :
    r.ends c = false := by
  cases r
  case directive => cases h
  all_goals rfl

end Reading

/-- In a block the reading rests, and is that of text. -/
theorem text_of_inBlock {mode : Mode} {part : BlockPart} {r : Reading} (h : Fits mode part r)
    (hblock : inBlock mode part = true) : r = .text := by
  cases mode
  case code | codePercent => exact h
  case swigBlock =>
    have hpart : part.ofBlock = true := hblock
    rw [Fits, if_pos hpart] at h
    exact h
  all_goals cases hblock

theorem readBoth_cases {x : FileState σ × Reading} {c : Char} (h : FitsBoth x)
    (h' : FitsBoth (readBoth W x c)) :
    (readBoth W x c).2 = x.2.next c ∨ x.2 = .text ∧ (readBoth W x c).2 = .text := by
  by_cases hrest : (inBlock (readFileChar W 3 x.1 c).line.mode (readFileChar W 3 x.1 c).part ||
      x.1.line.mode = .codePercent) = true
  · have hr : (readBoth W x c).2 = x.2 := if_pos hrest
    have htext : x.2 = .text := by
      rw [Bool.or_eq_true, decide_eq_true_iff] at hrest
      rcases hrest with hrest | hrest
      · rw [← hr]
        exact text_of_inBlock h' hrest
      · rw [FitsBoth, hrest] at h
        exact h
    exact .inr ⟨htext, hr.trans htext⟩
  · exact .inl (if_neg hrest)

theorem right_of_fits {x : FileState σ × Reading} {c : Char} (h : FitsBoth x)
    (h' : FitsBoth (readBoth W x c)) : DirectiveRight x (readBoth W x c) c := by
  have hin := inDirective_of_fits h
  have hin' := inDirective_of_fits h'
  rcases readBoth_cases h h' with hr | ⟨htext, hr⟩
  · rw [hr] at hin'
    constructor
    · rw [hin, hin']
      refine ⟨fun hmode => (Reading.enters_iff hmode.1).1 hmode.2, fun hhash => ?_⟩
      have hout : x.2.inDirective = false := by
        rw [hhash.1]
        rfl
      exact ⟨hout, (Reading.enters_iff hout).2 hhash⟩
    · rw [hin, hin']
      refine ⟨fun hmode => (Reading.leaves_iff hmode.1).1 hmode.2, fun hends => ?_⟩
      have hdirective : x.2.inDirective = true := by
        by_contra hout
        rw [Bool.not_eq_true] at hout
        rw [Reading.not_ends_of_not_inDirective hout] at hends
        cases hends
      exact ⟨hdirective, (Reading.leaves_iff hdirective).2 hends⟩
  · rw [htext] at hin
    rw [hr] at hin'
    constructor
    · rw [hin', htext]
      exact ⟨fun hmode => Bool.noConfusion hmode.2, fun hhash => Reading.noConfusion hhash.1⟩
    · rw [hin, htext]
      exact ⟨fun hmode => Bool.noConfusion hmode.1, fun hends => Bool.noConfusion hends⟩

/-! ## One character -/

section Step

variable {x : FileState σ × Reading} {c : Char}

/-- A character behind which the machine is in no block. -/
theorem fits_of_mode {mode : Mode} (hmode : (readFileChar W 3 x.1 c).line.mode = mode)
    (hcode : x.1.line.mode ≠ .codePercent) (hblock : ∀ part, inBlock mode part = false)
    (h : ∀ part, Fits mode part (x.2.next c)) : FitsBoth (readBoth W x c) := by
  have hr : (readBoth W x c).2 = x.2.next c := by
    refine if_neg ?_
    rw [hmode, hblock, decide_eq_false hcode]
    exact Bool.false_ne_true
  rw [FitsBoth, hr]
  show Fits (readFileChar W 3 x.1 c).line.mode _ _
  rw [hmode]
  exact h _

theorem textMode_fits (c : Char) (part : BlockPart) :
    Fits (textMode c) part (Reading.textNext c) ∧ inBlock (textMode c) part = false := by
  rw [textMode, Reading.textNext]
  by_cases hpercent : c = '%'
  · subst hpercent
    exact ⟨rfl, rfl⟩
  rw [if_neg hpercent]
  by_cases hnl : c = '\n'
  · rw [if_pos hnl, if_pos hnl]
    exact ⟨.inr rfl, rfl⟩
  rw [if_neg hnl, if_neg hnl]
  by_cases hslash : c = '/'
  · subst hslash
    exact ⟨rfl, rfl⟩
  rw [if_neg hslash, if_neg hslash]
  by_cases hquote : isQuote c = true
  · rw [if_pos hquote, if_pos hquote]
    exact ⟨⟨hquote, rfl⟩, rfl⟩
  · rw [if_neg hquote, if_neg hquote]
    exact ⟨.inl rfl, rfl⟩

/-- A character that is read as text. -/
theorem fits_text (hmode : (readFileChar W 3 x.1 c).line.mode = textMode c)
    (hcode : x.1.line.mode ≠ .codePercent) (h : x.2.next c = Reading.textNext c) :
    FitsBoth (readBoth W x c) :=
  fits_of_mode hmode hcode (fun part => (textMode_fits c part).2) fun part => by
    rw [h]
    exact (textMode_fits c part).1

/-- A line start that is no hash is read as blank or as text. -/
theorem lineStart_next {c : Char} (hc : c ≠ '#') : Reading.lineStart.next c =
    if isSpace c then .lineStart else Reading.textNext c := by
  rw [Reading.next, if_neg hc]

theorem not_isQuote {p : Char → Bool} {c : Char} (hc : p c = true) (hdouble : p '"' = false)
    (hsingle : p '\'' = false) : isQuote c ≠ true := by
  intro hquote
  simp only [isQuote, Bool.or_eq_true, decide_eq_true_iff] at hquote
  rcases hquote with rfl | rfl
  · exact Bool.false_ne_true (hdouble.symm.trans hc)
  · exact Bool.false_ne_true (hsingle.symm.trans hc)

theorem text_nextSpace {c : Char} (hspace : isSpace c = true) :
    Reading.textNext c = .text ∨ Reading.textNext c = .lineStart := by
  have hslash : c ≠ '/' := by rintro rfl; exact absurd hspace (by decide)
  rw [Reading.textNext, if_neg hslash, if_neg (not_isQuote hspace rfl rfl)]
  split
  · exact .inr rfl
  · exact .inl rfl

theorem fits_start (h : FitsBoth x) (hmode : x.1.line.mode = .start) (hp : InPlace x c) :
    FitsBoth (readBoth W x c) := by
  rw [FitsBoth, hmode] at h
  rw [InPlace, hmode] at hp
  have hcode : x.1.line.mode ≠ .codePercent := hmode.trans_ne (by decide)
  have hread := readFile_start (W := W) (c := c) (n := 1) hmode
  by_cases hhash : c = '#'
  · rw [if_pos hhash] at hread
    have hstart : x.2 = .lineStart := h.resolve_left fun htext => hp htext hhash
    refine fits_of_mode hread hcode (fun _ => rfl) fun _ => ?_
    rw [hstart, hhash]
    exact ⟨'#', by decide, rfl⟩
  rw [if_neg hhash] at hread
  by_cases hspace : isSpace c = true
  · rw [if_pos hspace] at hread
    refine fits_of_mode hread hcode (fun _ => rfl) fun _ => ?_
    rcases h with h | h
    · rw [h, Reading.next]
      exact text_nextSpace hspace
    · rw [h, lineStart_next hhash, if_pos hspace]
      exact .inr rfl
  · rw [if_neg hspace] at hread
    refine fits_text hread hcode ?_
    rcases h with h | h
    · rw [h]
      rfl
    · rw [h, lineStart_next hhash, if_neg hspace]

theorem textMode_space {c : Char} (hspace : isSpace c = true) :
    textMode c = .start ∨ textMode c = .text := by
  have hpercent : c ≠ '%' := by rintro rfl; exact absurd hspace (by decide)
  have hslash : c ≠ '/' := by rintro rfl; exact absurd hspace (by decide)
  rw [textMode, if_neg hpercent, if_neg hslash, if_neg (not_isQuote hspace rfl rfl)]
  split
  · exact .inl rfl
  · exact .inr rfl

/-- Text, in the machine, where the reading may be at the start of a line. -/
theorem fits_asText (h : x.2 = .text ∨ x.2 = .lineStart)
    (hmode : (readFileChar W 3 x.1 c).line.mode = textMode c)
    (hcode : x.1.line.mode ≠ .codePercent) (hp : x.2 = .lineStart → c ≠ '#') :
    FitsBoth (readBoth W x c) := by
  rcases h with h | h
  · refine fits_text hmode hcode ?_
    rw [h]
    rfl
  have hhash := hp h
  by_cases hspace : isSpace c = true
  · have hnext : x.2.next c = .lineStart := by rw [h, lineStart_next hhash, if_pos hspace]
    rcases textMode_space hspace with hm | hm
    · refine fits_of_mode (hmode.trans hm) hcode (fun _ => rfl) fun _ => ?_
      rw [hnext]
      exact .inr rfl
    · refine fits_of_mode (hmode.trans hm) hcode (fun _ => rfl) fun _ => ?_
      rw [hnext]
      exact .inr rfl
  · refine fits_text hmode hcode ?_
    rw [h, lineStart_next hhash, if_neg hspace]

/-- A step that takes the character. -/
theorem readFile_taken {line : ParseState σ} (hmode : x.1.line.mode ≠ .swigBlock)
    (hstep : parseStep W.toWorld x.1.line c = (line, false)) (hline : line.mode ≠ .swigBlock) :
    (readFileChar W 3 x.1 c).line.mode = line.mode := by
  rw [readFileChar_taken (fileStep_line hmode hstep hline)]
  rfl

theorem fits_taken {line : ParseState σ} (hmode : x.1.line.mode ≠ .swigBlock)
    (hcode : x.1.line.mode ≠ .codePercent)
    (hstep : parseStep W.toWorld x.1.line c = (line, false))
    (hblock : ∀ part, inBlock line.mode part = false)
    (h : ∀ part, Fits line.mode part (x.2.next c)) : FitsBoth (readBoth W x c) := by
  refine fits_of_mode (readFile_taken hmode hstep fun hline => ?_) hcode hblock h
  have hbody := hblock .body
  rw [hline] at hbody
  cases hbody

theorem fits_slash (h : x.2 = .slash) (hmode : x.1.line.mode = .slash)
    (hu : isQuote c = false) : FitsBoth (readBoth W x c) := by
  have hne : x.1.line.mode ≠ .swigBlock := hmode.trans_ne (by decide)
  have hcode : x.1.line.mode ≠ .codePercent := hmode.trans_ne (by decide)
  by_cases hslash : c = '/'
  · have hstep : parseStep W.toWorld x.1.line c = (putChunk x.1.line c .lineComment, false) := by
      simp only [parseStep, hmode, if_pos hslash]
    refine fits_taken hne hcode hstep (fun _ => rfl) fun _ => ?_
    rw [h, Reading.next, if_pos hslash]
    rfl
  by_cases hstar : c = '*'
  · have hstep : parseStep W.toWorld x.1.line c = (putChunk x.1.line c .blockComment, false) := by
      simp only [parseStep, hmode, if_neg hslash, if_pos hstar]
    refine fits_taken hne hcode hstep (fun _ => rfl) fun _ => ?_
    rw [h, Reading.next, if_neg hslash, if_pos hstar]
    rfl
  · have hstep : parseStep W.toWorld x.1.line c = (putChunk x.1.line c .text, false) := by
      simp only [parseStep, hmode, if_neg hslash, if_neg hstar]
    refine fits_taken hne hcode hstep (fun _ => rfl) fun _ => ?_
    rw [h, Reading.next, if_neg hslash, if_neg hstar, Reading.textNext, if_neg hslash, hu]
    split
    · exact .inr rfl
    · exact .inl rfl

theorem fits_lineComment (h : x.2 = .lineComment) (hmode : x.1.line.mode = .lineComment) :
    FitsBoth (readBoth W x c) := by
  have hne : x.1.line.mode ≠ .swigBlock := hmode.trans_ne (by decide)
  have hcode : x.1.line.mode ≠ .codePercent := hmode.trans_ne (by decide)
  have hstep : parseStep W.toWorld x.1.line c =
      (putChunk x.1.line c (if c = '\n' then .start else .lineComment), false) := by
    simp only [parseStep, hmode]
  by_cases hnl : c = '\n'
  · rw [if_pos hnl] at hstep
    refine fits_taken hne hcode hstep (fun _ => rfl) fun _ => ?_
    rw [h, Reading.next, if_pos hnl]
    exact .inr rfl
  · rw [if_neg hnl] at hstep
    refine fits_taken hne hcode hstep (fun _ => rfl) fun _ => ?_
    rw [h, Reading.next, if_neg hnl]
    rfl

theorem fits_blockComment {star : Bool} (h : x.2 = .blockComment star)
    (hmode : x.1.line.mode = if star then .blockCommentStar else .blockComment) :
    FitsBoth (readBoth W x c) := by
  have hne : x.1.line.mode ≠ .swigBlock := hmode.trans_ne (by cases star <;> decide)
  have hcode : x.1.line.mode ≠ .codePercent := hmode.trans_ne (by cases star <;> decide)
  have hstep : parseStep W.toWorld x.1.line c =
      (putChunk x.1.line c (if star ∧ c = '/' then .text
        else if c = '*' then .blockCommentStar else .blockComment), false) := by
    cases star
    · have hm : x.1.line.mode = .blockComment := hmode
      simp [parseStep, hm]
    · have hm : x.1.line.mode = .blockCommentStar := hmode
      simp only [parseStep, hm, true_and]
      split <;> rfl
  by_cases hend : star ∧ c = '/'
  · rw [if_pos hend] at hstep
    refine fits_taken hne hcode hstep (fun _ => rfl) fun _ => ?_
    rw [h, Reading.next, if_pos hend]
    exact .inl rfl
  rw [if_neg hend] at hstep
  by_cases hstar : c = '*'
  · rw [if_pos hstar] at hstep
    refine fits_taken hne hcode hstep (fun _ => rfl) fun _ => ?_
    rw [h, Reading.next, if_neg hend, decide_eq_true hstar]
    rfl
  · rw [if_neg hstar] at hstep
    refine fits_taken hne hcode hstep (fun _ => rfl) fun _ => ?_
    rw [h, Reading.next, if_neg hend, decide_eq_false hstar]
    rfl

theorem fits_skip {quote : Char} {escaped inValue : Bool}
    (hmode : x.1.line.mode = .skip quote escaped inValue) (h : FitsBoth x)
    (hp : inValue = true → c = '\n' → x.2.behindBackslash = true) :
    FitsBoth (readBoth W x c) := by
  have hcode : x.1.line.mode ≠ .codePercent := hmode.trans_ne (by rintro ⟨⟩)
  rw [FitsBoth, hmode] at h
  obtain ⟨hquote, h⟩ := h
  have hstep : ∃ line, parseStep W.toWorld x.1.line c = (line, false) ∧ line.mode =
      if escaped then .skip quote false inValue
      else if c = quote then if inValue then .value else .text
      else .skip quote (c = '\\') inValue := by
    simp only [parseStep, hmode]
    split <;> exact ⟨_, rfl, rfl⟩
  obtain ⟨line, hstep, hm⟩ := hstep
  have hblock : line.mode ≠ .swigBlock := by
    rw [hm]
    repeat' split
    all_goals exact fun h => nomatch h
  have hread := (readFile_taken (hmode.trans_ne (by rintro ⟨⟩)) hstep hblock).trans hm
  -- A directive goes on.
  have hnext : inValue = true → ∀ part previous, x.2 = .directive part previous →
      x.2.next c = .directive (part.next c) c := by
    intro hvalue part previous hr
    rw [hr, Reading.next]
    refine if_neg fun hends => ?_
    simp only [Reading.ends, Bool.and_eq_true, decide_eq_true_iff] at hends
    have hback := hp hvalue hends.1.1
    rw [hr] at hback
    exact hends.1.2 (of_decide_eq_true hback)
  cases inValue
  case false =>
    simp only [Bool.false_eq_true, if_false] at h hread
    cases escaped
    case true =>
      refine fits_of_mode hread hcode (fun _ => rfl) fun _ => ?_
      rw [h]
      exact ⟨hquote, rfl⟩
    case false =>
      simp only [Bool.false_eq_true, if_false] at hread
      by_cases hend : c = quote
      · rw [if_pos hend] at hread
        refine fits_of_mode hread hcode (fun _ => rfl) fun _ => ?_
        rw [h, Reading.next, if_neg Bool.false_ne_true, if_pos hend]
        exact .inl rfl
      · rw [if_neg hend] at hread
        refine fits_of_mode hread hcode (fun _ => rfl) fun _ => ?_
        rw [h, Reading.next, if_neg Bool.false_ne_true, if_neg hend]
        exact ⟨hquote, rfl⟩
  case true =>
    simp only [if_true] at h hread
    obtain ⟨previous, h⟩ := h
    have hgo := hnext rfl _ _ h
    cases escaped
    case true =>
      refine fits_of_mode hread hcode (fun _ => rfl) fun _ => ?_
      rw [hgo]
      exact ⟨hquote, _, rfl⟩
    case false =>
      simp only [Bool.false_eq_true, if_false] at hread
      by_cases hend : c = quote
      · rw [if_pos hend] at hread
        refine fits_of_mode hread hcode (fun _ => rfl) fun _ => ?_
        rw [hgo, DirectivePart.next, if_neg Bool.false_ne_true, if_pos hend]
        exact ⟨_, rfl⟩
      · rw [if_neg hend] at hread
        refine fits_of_mode hread hcode (fun _ => rfl) fun _ => ?_
        rw [hgo, DirectivePart.next, if_neg Bool.false_ne_true, if_neg hend]
        exact ⟨hquote, _, rfl⟩

/-! ## One character of a directive -/

theorem fits_atEnd (hend : AtEnd (readFileChar W 3 x.1 c).line.mode)
    (hcode : x.1.line.mode ≠ .codePercent) (h : x.2.next c = .lineStart) :
    FitsBoth (readBoth W x c) := by
  rcases hend with hmode | hmode
  · refine fits_of_mode hmode hcode (fun _ => rfl) fun _ => ?_
    rw [h]
    exact .inr rfl
  · refine fits_of_mode hmode hcode (fun _ => rfl) fun _ => ?_
    rw [h]
    rfl

/-- A directive ends at a line break that is not behind a backslash. -/
theorem next_newline {part : DirectivePart} {previous : Char} (hpart : part.inBlockComment = false)
    (hback : previous ≠ '\\') : (Reading.directive part previous).next '\n' = .lineStart := by
  have hends : (Reading.directive part previous).ends '\n' = true := by
    simp [Reading.ends, hpart, hback]
  rw [Reading.next, if_pos hends]

/-- It goes on at any other character. -/
theorem next_directive {part : DirectivePart} {previous c : Char} (hc : c ≠ '\n') :
    (Reading.directive part previous).next c = .directive (part.next c) c := by
  have hends : (Reading.directive part previous).ends c ≠ true := by
    simp [Reading.ends, hc]
  rw [Reading.next, if_neg hends]

/-- Behind a backslash it goes on at every character. -/
theorem next_backslash {part : DirectivePart} :
    (Reading.directive part '\\').next c = .directive (part.next c) c := by
  have hends : (Reading.directive part '\\').ends c ≠ true := by
    simp [Reading.ends]
  rw [Reading.next, if_neg hends]

theorem valueMode_fits (c : Char) (part : BlockPart) :
    Fits (valueMode c) part (.directive (DirectivePart.plainNext c) c) ∧
      inBlock (valueMode c) part = false := by
  rw [valueMode, DirectivePart.plainNext]
  by_cases hslash : c = '/'
  · subst hslash
    exact ⟨⟨'/', by decide, rfl⟩, rfl⟩
  rw [if_neg hslash, if_neg hslash]
  by_cases hquote : isQuote c = true
  · rw [if_pos hquote, if_pos hquote]
    exact ⟨⟨hquote, c, rfl⟩, rfl⟩
  rw [if_neg hquote, if_neg hquote]
  by_cases hback : c = '\\'
  · subst hback
    exact ⟨rfl, rfl⟩
  · rw [if_neg hback]
    exact ⟨⟨c, rfl⟩, rfl⟩

/-- A character that is read as one of a value. -/
theorem fits_valueMode (hmode : (readFileChar W 3 x.1 c).line.mode = valueMode c)
    (hcode : x.1.line.mode ≠ .codePercent)
    (h : x.2.next c = .directive (DirectivePart.plainNext c) c) : FitsBoth (readBoth W x c) :=
  fits_of_mode hmode hcode (fun part => (valueMode_fits c part).2) fun part => by
    rw [h]
    exact (valueMode_fits c part).1

theorem plainNext_of {p : Char → Bool} {c : Char} (hp : ['/', '\\', '\'', '"'].any p = false)
    (hc : p c = true) : DirectivePart.plainNext c = .plain ∧ c ≠ '\\' := by
  have hne : ∀ x ∈ ['/', '\\', '\'', '"'], c ≠ x := by
    rintro x hx rfl
    exact List.any_eq_false.1 hp c hx hc
  have hquote : isQuote c ≠ true := by
    simp only [isQuote, ne_eq, Bool.or_eq_true, decide_eq_true_iff]
    rintro (h | h)
    · exact hne _ (by simp) h
    · exact hne _ (by simp) h
  rw [DirectivePart.plainNext, if_neg (hne '/' (by simp)), if_neg hquote]
  exact ⟨rfl, hne _ (by simp)⟩

theorem space_plainNext {c : Char} (hspace : isSpace c = true) :
    DirectivePart.plainNext c = .plain ∧ c ≠ '\\' := plainNext_of (by decide) hspace

theorem idChar_plainNext {c : Char} (hid : isIdChar c = true) :
    DirectivePart.plainNext c = .plain ∧ c ≠ '\\' := plainNext_of (by decide) hid

/-- In front of the value: behind the hash, in the name or behind it. -/
theorem fits_head (spaceMode : Mode) (named : Bool) {previous : Char} (hback : previous ≠ '\\')
    (h : x.2 = .directive .plain previous) (hcode : x.1.line.mode ≠ .codePercent)
    (hspaceMode : spaceMode = .hash ∨ spaceMode = .beforeValue)
    (hnl : c = '\n' → AtEnd (readFileChar W 3 x.1 c).line.mode)
    (hread : c ≠ '\n' → (readFileChar W 3 x.1 c).line.mode =
      if isSpace c then spaceMode else if named && isIdChar c then .name else valueMode c) :
    FitsBoth (readBoth W x c) := by
  by_cases hc : c = '\n'
  · refine fits_atEnd (hnl hc) hcode ?_
    rw [h, hc]
    exact next_newline rfl hback
  have hnext : x.2.next c = .directive (DirectivePart.plainNext c) c := by
    rw [h, next_directive hc]
    rfl
  have hread := hread hc
  by_cases hspace : isSpace c = true
  · rw [if_pos hspace] at hread
    obtain ⟨hplain, hc'⟩ := space_plainNext hspace
    rw [hplain] at hnext
    rcases hspaceMode with rfl | rfl
    · refine fits_of_mode hread hcode (fun _ => rfl) fun _ => ?_
      rw [hnext]
      exact ⟨c, hc', rfl⟩
    · refine fits_of_mode hread hcode (fun _ => rfl) fun _ => ?_
      rw [hnext]
      exact ⟨c, hc', rfl⟩
  rw [if_neg hspace] at hread
  by_cases hid : (named && isIdChar c) = true
  · rw [if_pos hid] at hread
    rw [Bool.and_eq_true] at hid
    obtain ⟨hplain, hc'⟩ := idChar_plainNext hid.2
    rw [hplain] at hnext
    refine fits_of_mode hread hcode (fun _ => rfl) fun _ => ?_
    rw [hnext]
    exact ⟨c, hc', rfl⟩
  · rw [if_neg hid] at hread
    exact fits_valueMode hread hcode hnext

theorem fits_hash (h : FitsBoth x) (hmode : x.1.line.mode = .hash) :
    FitsBoth (readBoth W x c) := by
  rw [FitsBoth, hmode] at h
  obtain ⟨previous, hback, h⟩ := h
  have hread := readFile_hash (W := W) (c := c) (n := 0) hmode
  exact fits_head .hash true hback h (hmode.trans_ne (by decide)) (.inl rfl)
    (fun hc => .inl (hread.1 hc)) hread.2

theorem fits_name (h : FitsBoth x) (hmode : x.1.line.mode = .name) :
    FitsBoth (readBoth W x c) := by
  rw [FitsBoth, hmode] at h
  obtain ⟨previous, hback, h⟩ := h
  have hread := readFile_name (W := W) (c := c) (n := 1) hmode
  exact fits_head .beforeValue true hback h (hmode.trans_ne (by decide)) (.inr rfl)
    hread.1 hread.2

theorem fits_beforeValue (h : FitsBoth x) (hmode : x.1.line.mode = .beforeValue) :
    FitsBoth (readBoth W x c) := by
  rw [FitsBoth, hmode] at h
  obtain ⟨previous, hback, h⟩ := h
  have hnl := (readFile_beforeValue (W := W) (c := c) (n := 1) hmode).1
  have hread := (readFile_beforeValue (W := W) (c := c) (n := 2) hmode).2
  exact fits_head .beforeValue false hback h (hmode.trans_ne (by decide)) (.inr rfl)
    hnl hread

theorem fits_value (h : FitsBoth x) (hmode : x.1.line.mode = .value) (hp : InPlace x c) :
    FitsBoth (readBoth W x c) := by
  rw [FitsBoth, hmode] at h
  rw [InPlace, hmode] at hp
  obtain ⟨previous, h⟩ := h
  have hcode : x.1.line.mode ≠ .codePercent := hmode.trans_ne (by decide)
  have hnl := (readFile_value (W := W) (c := c) (n := 1) hmode).1
  have hread := (readFile_value (W := W) (c := c) (n := 2) hmode).2
  by_cases hc : c = '\n'
  · refine fits_atEnd (hnl hc) hcode ?_
    have hback := hp hc
    rw [h] at hback
    rw [h, hc]
    exact next_newline rfl (of_decide_eq_false hback)
  · refine fits_valueMode (hread hc) hcode ?_
    rw [h, next_directive hc]
    rfl

theorem fits_valueBackslash (h : FitsBoth x) (hmode : x.1.line.mode = .valueBackslash) :
    FitsBoth (readBoth W x c) := by
  rw [FitsBoth, hmode] at h
  have hne : x.1.line.mode ≠ .swigBlock := hmode.trans_ne (by decide)
  have hcode : x.1.line.mode ≠ .codePercent := hmode.trans_ne (by decide)
  have hnext : x.2.next c = .directive (DirectivePart.plainNext c) c := by
    rw [h, next_backslash]
    rfl
  by_cases hc : c = '\n'
  · have hstep : parseStep W.toWorld x.1.line c =
        ({ putValue x.1.line c .value with cppLines := x.1.line.cppLines + 1 }, false) := by
      simp only [parseStep, hmode, if_pos hc]
    refine fits_taken hne hcode hstep (fun _ => rfl) fun _ => ?_
    rw [hnext, hc]
    exact ⟨_, rfl⟩
  · have hstep : parseStep W.toWorld x.1.line c = ({ x.1.line with mode := .value }, true) := by
      simp only [parseStep, hmode, if_neg hc]
    have hread : (readFileChar W 3 x.1 c).line.mode = valueMode c := by
      rw [readFileChar_again (fileStep_line hne hstep fun h => nomatch h)]
      exact (readFile_value rfl).2 hc
    exact fits_valueMode hread hcode hnext

theorem fits_valueSlash (h : FitsBoth x) (hmode : x.1.line.mode = .valueSlash)
    (hu : isQuote c = false) : FitsBoth (readBoth W x c) := by
  rw [FitsBoth, hmode] at h
  obtain ⟨previous, hback, h⟩ := h
  have hne : x.1.line.mode ≠ .swigBlock := hmode.trans_ne (by decide)
  have hcode : x.1.line.mode ≠ .codePercent := hmode.trans_ne (by decide)
  by_cases hnl : c = '\n'
  · have hstep : parseStep W.toWorld x.1.line c =
        (putValue x.1.line '/' .directive, true) := by
      subst hnl
      simp [parseStep, hmode]
    have hread : AtEnd (readFileChar W 3 x.1 c).line.mode := by
      rw [readFileChar_again (fileStep_line hne hstep fun h => nomatch h)]
      exact readFile_directive rfl
    refine fits_atEnd hread hcode ?_
    rw [h, hnl]
    exact next_newline rfl hback
  have hnext : x.2.next c = .directive (DirectivePart.slash.next c) c := by
    rw [h, next_directive hnl]
  by_cases hslash : c = '/'
  · have hstep : parseStep W.toWorld x.1.line c =
        ({ x.1.line with mode := .valueLineComment }, false) := by
      simp only [parseStep, hmode, if_pos hslash]
    refine fits_taken hne hcode hstep (fun _ => rfl) fun _ => ?_
    rw [hnext, DirectivePart.next, if_pos hslash]
    exact ⟨_, rfl⟩
  by_cases hstar : c = '*'
  · have hstep : parseStep W.toWorld x.1.line c =
        ({ x.1.line with mode := .valueBlockComment }, false) := by
      simp only [parseStep, hmode, if_neg hslash, if_pos hstar]
    refine fits_taken hne hcode hstep (fun _ => rfl) fun _ => ?_
    rw [hnext, DirectivePart.next, if_neg hslash, if_pos hstar]
    exact ⟨_, rfl⟩
  · have hstep : parseStep W.toWorld x.1.line c =
        (putValue (putValue x.1.line '/' .value) c .value, false) := by
      simp only [parseStep, hmode, if_neg hslash, if_neg hstar, if_neg hnl]
    refine fits_taken hne hcode hstep (fun _ => rfl) fun _ => ?_
    rw [hnext, DirectivePart.next, if_neg hslash, if_neg hstar, DirectivePart.plainNext,
      if_neg hslash, hu]
    exact ⟨_, rfl⟩

theorem fits_valueLineComment (h : FitsBoth x) (hmode : x.1.line.mode = .valueLineComment)
    (hp : InPlace x c) : FitsBoth (readBoth W x c) := by
  rw [FitsBoth, hmode] at h
  rw [InPlace, hmode] at hp
  obtain ⟨previous, h⟩ := h
  have hne : x.1.line.mode ≠ .swigBlock := hmode.trans_ne (by decide)
  have hcode : x.1.line.mode ≠ .codePercent := hmode.trans_ne (by decide)
  by_cases hc : c = '\n'
  · have hstep : parseStep W.toWorld x.1.line c = ({ x.1.line with mode := .directive }, true) := by
      simp only [parseStep, hmode, if_pos hc]
    have hread : AtEnd (readFileChar W 3 x.1 c).line.mode := by
      rw [readFileChar_again (fileStep_line hne hstep fun h => nomatch h)]
      exact readFile_directive rfl
    refine fits_atEnd hread hcode ?_
    have hback := hp hc
    rw [h] at hback
    rw [h, hc]
    exact next_newline rfl (of_decide_eq_false hback)
  · have hstep : parseStep W.toWorld x.1.line c =
        (putComment x.1.line c .valueLineComment, false) := by
      simp only [parseStep, hmode, if_neg hc]
    refine fits_taken hne hcode hstep (fun _ => rfl) fun _ => ?_
    rw [h, next_directive hc]
    exact ⟨_, rfl⟩

/-- A block comment goes on at every character. -/
theorem next_blockComment {star : Bool} {previous : Char} :
    (Reading.directive (.blockComment star) previous).next c =
      .directive ((DirectivePart.blockComment star).next c) c := by
  have hends : (Reading.directive (.blockComment star) previous).ends c ≠ true := by
    simp [Reading.ends, DirectivePart.inBlockComment]
  rw [Reading.next, if_neg hends]

theorem fits_valueBlockComment {star : Bool} {previous : Char}
    (h : x.2 = .directive (.blockComment star) previous)
    (hmode : x.1.line.mode = if star then .valueBlockCommentStar else .valueBlockComment) :
    FitsBoth (readBoth W x c) := by
  have hne : x.1.line.mode ≠ .swigBlock := hmode.trans_ne (by cases star <;> decide)
  have hcode : x.1.line.mode ≠ .codePercent := hmode.trans_ne (by cases star <;> decide)
  have hstep : ∃ line, parseStep W.toWorld x.1.line c = (line, false) ∧ line.mode =
      if star ∧ c = '/' then .value
        else if c = '*' then .valueBlockCommentStar else .valueBlockComment := by
    cases star
    · have hm : x.1.line.mode = .valueBlockComment := hmode
      simp only [parseStep, hm, Bool.false_eq_true, false_and, if_false]
      split <;> exact ⟨_, rfl, rfl⟩
    · have hm : x.1.line.mode = .valueBlockCommentStar := hmode
      simp only [parseStep, hm, true_and]
      split
      · exact ⟨_, rfl, rfl⟩
      split <;> exact ⟨_, rfl, rfl⟩
  obtain ⟨line, hstep, hm⟩ := hstep
  have hblock : ∀ part, inBlock line.mode part = false := by
    intro part
    rw [hm]
    repeat' split
    all_goals rfl
  refine fits_taken hne hcode hstep hblock fun _ => ?_
  rw [hm, h, next_blockComment, DirectivePart.next]
  by_cases hend : star ∧ c = '/'
  · rw [if_pos hend, if_pos hend]
    exact ⟨_, rfl⟩
  rw [if_neg hend, if_neg hend]
  by_cases hstar : c = '*'
  · rw [if_pos hstar, decide_eq_true hstar]
    exact ⟨_, rfl⟩
  · rw [if_neg hstar, decide_eq_false hstar]
    exact ⟨_, rfl⟩

/-! ## One character of a SWIG directive -/

/-- A character behind which the machine is in a block. -/
theorem fits_of_inBlock (htext : x.2 = .text)
    (h : inBlock (readFileChar W 3 x.1 c).line.mode (readFileChar W 3 x.1 c).part = true) :
    FitsBoth (readBoth W x c) := by
  have hr : (readBoth W x c).2 = .text := by
    rw [← htext]
    exact if_pos (by rw [h]; rfl)
  rw [FitsBoth, hr]
  show Fits (readFileChar W 3 x.1 c).line.mode (readFileChar W 3 x.1 c).part .text
  generalize (readFileChar W 3 x.1 c).line.mode = mode at h
  cases mode
  case code | codePercent => rfl
  case swigBlock =>
    have hpart : (readFileChar W 3 x.1 c).part.ofBlock = true := h
    rw [Fits, if_pos hpart]
  all_goals cases h

/-- A character behind which an inclusion is still being read. -/
theorem fits_inclusion (hmode : (readFileChar W 3 x.1 c).line.mode = .swigBlock)
    (hcode : x.1.line.mode ≠ .codePercent)
    (hpart : (readFileChar W 3 x.1 c).part.ofBlock = false)
    (hr : x.2.inDirective = false) (hp : x.2 = .lineStart → c ≠ '#') :
    FitsBoth (readBoth W x c) := by
  have hnext : (readBoth W x c).2 = x.2.next c := by
    refine if_neg ?_
    rw [hmode, decide_eq_false hcode, Bool.or_false]
    show ¬ (readFileChar W 3 x.1 c).part.ofBlock = true
    rw [hpart]
    exact Bool.false_ne_true
  rw [FitsBoth, hnext]
  show Fits (readFileChar W 3 x.1 c).line.mode (readFileChar W 3 x.1 c).part _
  rw [hmode, Fits, hpart, if_neg Bool.false_ne_true]
  exact Reading.stays_out hr hp

theorem fits_percent (h : FitsBoth x) (hmode : x.1.line.mode = .percent)
    (hu : Unswallowed x c) : FitsBoth (readBoth W x c) := by
  rw [FitsBoth, hmode] at h
  rw [Unswallowed, hmode] at hu
  have hne : x.1.line.mode ≠ .swigBlock := hmode.trans_ne (by decide)
  have hcode : x.1.line.mode ≠ .codePercent := hmode.trans_ne (by decide)
  have hnext : x.2.next c = if c = '\n' then .lineStart else .text := by
    rw [h, Reading.next, Reading.textNext, if_neg hu.2, hu.1]
    rfl
  by_cases hbrace : c = '{'
  · have hstep : ∃ line, parseStep W.toWorld x.1.line c = (line, false) ∧ line.mode = .code := by
      simp only [parseStep, hmode, if_pos hbrace]
      exact ⟨_, rfl, rfl⟩
    obtain ⟨line, hstep, hm⟩ := hstep
    refine fits_of_inBlock h ?_
    have hread := readFile_taken hne hstep (hm.trans_ne (by decide))
    rw [hread, hm]
    rfl
  by_cases hhash : c = '#'
  · have hstep : parseStep W.toWorld x.1.line c =
        (putChunk (addChunk W.toWorld x.1.line) c .embedded, false) := by
      simp only [parseStep, hmode, if_neg hbrace, if_pos hhash]
    refine fits_taken hne hcode hstep (fun _ => rfl) fun _ => ?_
    rw [hnext]
    split <;> rfl
  by_cases hid : isIdentifier c = true
  · have hstep : parseStep W.toWorld x.1.line c =
        ({ x.1.line with decl := ['%', c], mode := .swigName }, false) := by
      simp only [parseStep, hmode, if_neg hbrace, if_neg hhash, if_pos hid]
    have hnl : c ≠ '\n' := by rintro rfl; exact absurd hid (by decide)
    refine fits_taken hne hcode hstep (fun _ => rfl) fun _ => ?_
    rw [hnext, if_neg hnl]
    rfl
  · have hstep : parseStep W.toWorld x.1.line c =
        (putChunk (putChunk x.1.line '%' .text) c .text, false) := by
      simp only [parseStep, hmode, if_neg hbrace, if_neg hhash, if_neg hid]
    refine fits_taken hne hcode hstep (fun _ => rfl) fun _ => ?_
    rw [hnext]
    split
    · exact .inr rfl
    · exact .inl rfl

theorem fits_code (h : x.2 = .text) (hmode : x.1.line.mode = .code) :
    FitsBoth (readBoth W x c) := by
  have hne : x.1.line.mode ≠ .swigBlock := hmode.trans_ne (by decide)
  have hstep : parseStep W.toWorld x.1.line c =
      (putChunk x.1.line c (if c = '%' then .codePercent else .code), false) := by
    simp only [parseStep, hmode]
  refine fits_of_inBlock h ?_
  by_cases hc : c = '%'
  · rw [if_pos hc] at hstep
    rw [readFile_taken hne hstep fun h => nomatch h]
    rfl
  · rw [if_neg hc] at hstep
    rw [readFile_taken hne hstep fun h => nomatch h]
    rfl

theorem fits_codePercent (h : x.2 = .text) (hmode : x.1.line.mode = .codePercent) :
    FitsBoth (readBoth W x c) := by
  have hstep : ∃ line, parseStep W.toWorld x.1.line c = (line, false) ∧
      (line.mode = .text ∨ line.mode = .code) := by
    simp only [parseStep, hmode]
    split
    · exact ⟨_, rfl, .inl rfl⟩
    · exact ⟨_, rfl, .inr rfl⟩
  obtain ⟨line, hstep, hm⟩ := hstep
  have hread := readFile_taken (c := c) (hmode.trans_ne (by decide)) hstep
    (by rcases hm with hm | hm <;> (rw [hm]; exact fun h => nomatch h))
  have hr : (readBoth W x c).2 = .text := by
    rw [← h]
    exact if_pos (by rw [hmode]; simp)
  rw [FitsBoth, hr]
  show Fits (readFileChar W 3 x.1 c).line.mode _ _
  rw [hread]
  rcases hm with hm | hm
  · rw [hm]
    exact .inl rfl
  · rw [hm]
    rfl

theorem fits_embedded (h : x.2.inDirective = false) (hmode : x.1.line.mode = .embedded)
    (hu : Unswallowed x c) (hp : InPlace x c) : FitsBoth (readBoth W x c) := by
  rw [Unswallowed, hmode] at hu
  rw [InPlace, hmode] at hp
  have hout := Reading.stays_out h hp
  have hstep : ∃ line, parseStep W.toWorld x.1.line c = (line, false) ∧ line.mode =
      if c = '\n' then .start else if c = '\\' then .embeddedBackslash else .embedded := by
    simp only [parseStep, hmode]
    split
    · exact ⟨_, rfl, rfl⟩
    split <;> exact ⟨_, rfl, rfl⟩
  obtain ⟨line, hstep, hm⟩ := hstep
  have hblock : ∀ part, inBlock line.mode part = false := by
    intro part
    rw [hm]
    repeat' split
    all_goals rfl
  refine fits_taken (hmode.trans_ne (by decide)) (hmode.trans_ne (by decide)) hstep hblock
    fun _ => ?_
  rw [hm]
  by_cases hc : c = '\n'
  · rw [if_pos hc]
    have hinside := hu hc
    subst hc
    refine .inr ?_
    generalize x.2 = r at h hinside
    cases r
    case literal | blockComment => cases hinside
    case directive => cases h
    all_goals rfl
  · rw [if_neg hc]
    split <;> exact hout

theorem fits_embeddedBackslash (h : x.2.inDirective = false)
    (hmode : x.1.line.mode = .embeddedBackslash) (hp : InPlace x c) :
    FitsBoth (readBoth W x c) := by
  rw [InPlace, hmode] at hp
  have hstep : parseStep W.toWorld x.1.line c = (putChunk x.1.line c .embedded, false) := by
    simp only [parseStep, hmode]
  exact fits_taken (hmode.trans_ne (by decide)) (hmode.trans_ne (by decide)) hstep (fun _ => rfl)
    fun _ => Reading.stays_out h hp

/-- A step that gives the character back to state 1. -/
theorem readFile_againText {fs : FileState σ} {n : Nat} (hstep : fileStep W x.1 c = (fs, true))
    (hmode : fs.line.mode = .text) : (readFileChar W (n + 2) x.1 c).line.mode = textMode c := by
  rw [readFileChar_again hstep]
  exact readFile_text hmode

theorem putBlock_inBlock (fs : FileState σ) (c : Char) {part : BlockPart}
    (hmode : fs.line.mode = .swigBlock) (hpart : part.ofBlock = true) :
    inBlock (fs.putBlock c part).line.mode (fs.putBlock c part).part = true := by
  have hm : (fs.putBlock c part).line.mode = .swigBlock := by
    rw [← hmode]
    simp only [FileState.putBlock]
    split <;> rfl
  rw [hm]
  exact hpart

/-- The body of a block. -/
theorem readFile_body {fs : FileState σ} {n : Nat} (hmode : fs.line.mode = .swigBlock)
    (hpart : fs.part = .body) : inBlock (readFileChar W (n + 1) fs c).line.mode
      (readFileChar W (n + 1) fs c).part = true := by
  have hstep : fileStep W fs c =
      (fs.putBlock c (if c = '%' then .statement [] else .body), false) := by
    rw [fileStep_block hmode, blockStep, hpart]
  rw [readFileChar_taken hstep]
  refine putBlock_inBlock fs c hmode ?_
  split <;> rfl

theorem startFilename_part (fs : FileState σ) (c : Char) :
    (startFilename fs c).2 = false ∧ (startFilename fs c).1.line = fs.line ∧
      (startFilename fs c).1.part.ofBlock = false := by
  simp only [startFilename]
  split
  · exact ⟨rfl, rfl, rfl⟩
  split <;> exact ⟨rfl, rfl, rfl⟩

theorem openBlock_cases {fs : FileState σ} (hmode : fs.line.mode = .swigBlock) :
    ((openBlock W fs).line.mode = .swigBlock ∧
        ((openBlock W fs).part = .body ∨ (openBlock W fs).part = .optionsBlank)) ∨
      (openBlock W fs).line.mode = .text := by
  rw [openBlock]
  split
  · exact .inl ⟨hmode, .inl rfl⟩
  split
  · exact .inl ⟨hmode, .inl rfl⟩
  split
  · exact .inl ⟨hmode, .inr rfl⟩
  · exact .inr rfl

theorem swigDirective_mode (st : ParseState σ) :
    (swigDirective st).mode = .swigBlock ∨ (swigDirective st).mode = .text := by
  rw [swigDirective]
  split
  · exact .inl rfl
  split <;> exact .inr rfl

/-- In front of the options and of the file name of an inclusion. -/
theorem readFile_blank {fs : FileState σ} {n : Nat} (hmode : fs.line.mode = .swigBlock)
    (hpart : fs.part = .optionsBlank ∨ fs.part = .filenameBlank) :
    (readFileChar W (n + 1) fs c).line.mode = .swigBlock ∧
      (readFileChar W (n + 1) fs c).part.ofBlock = false := by
  have hstep : ∃ fs', fileStep W fs c = (fs', false) ∧ fs'.line = fs.line ∧
      fs'.part.ofBlock = false := by
    rw [fileStep_block hmode, blockStep.eq_def]
    obtain ⟨hfalse, hline, hname⟩ := startFilename_part fs c
    have hstart : ∃ fs', startFilename fs c = (fs', false) ∧ fs'.line = fs.line ∧
        fs'.part.ofBlock = false := ⟨_, Prod.ext rfl hfalse, hline, hname⟩
    rcases hpart with hpart | hpart
    · simp only [hpart]
      split
      · exact ⟨_, rfl, rfl, rfl⟩
      split
      · exact ⟨_, rfl, rfl, rfl⟩
      · exact hstart
    · simp only [hpart]
      split
      · exact ⟨_, rfl, rfl, rfl⟩
      · exact hstart
  obtain ⟨fs', hstep, hline, hpart⟩ := hstep
  rw [readFileChar_taken hstep, hline]
  exact ⟨hmode, hpart⟩

theorem fits_swigName (h : x.2 = .text) (hmode : x.1.line.mode = .swigName) :
    FitsBoth (readBoth W x c) := by
  have hne : x.1.line.mode ≠ .swigBlock := hmode.trans_ne (by decide)
  have hcode : x.1.line.mode ≠ .codePercent := hmode.trans_ne (by decide)
  by_cases hid : isIdChar c = true
  · have hstep : parseStep W.toWorld x.1.line c =
        ({ x.1.line with decl := x.1.line.decl ++ [c] }, false) := by
      simp [parseStep, hmode, hid]
    have hnl : c ≠ '\n' := by rintro rfl; exact absurd hid (by decide)
    have hslash : c ≠ '/' := by rintro rfl; exact absurd hid (by decide)
    have hread := (readFile_taken hne hstep hne).trans hmode
    refine fits_of_mode hread hcode (fun _ => rfl) fun _ => ?_
    rw [h, Reading.next, Reading.textNext, if_neg hnl, if_neg hslash,
      if_neg (not_isQuote hid rfl rfl)]
    rfl
  have hstep : parseStep W.toWorld x.1.line c = (swigDirective x.1.line, true) := by
    simp [parseStep, hmode, hid]
  have htextMode : ∀ fs, fileStep W x.1 c = (fs, true) → fs.line.mode = .text →
      FitsBoth (readBoth W x c) := by
    intro fs hfs hm
    refine fits_text (readFile_againText hfs hm) hcode ?_
    rw [h]
    rfl
  by_cases hdirective : (swigDirective x.1.line).mode = .swigBlock
  · have hfs : fileStep W x.1 c = (openBlock W (x.1.withLine (swigDirective x.1.line)), true) := by
      rw [fileStep, if_neg hne, hstep]
      exact if_pos hdirective
    have hmode' : (x.1.withLine (swigDirective x.1.line)).line.mode = .swigBlock := hdirective
    rcases openBlock_cases (W := W) hmode' with ⟨hm, hbody | hblank⟩ | hm
    · refine fits_of_inBlock h ?_
      rw [readFileChar_again hfs]
      exact readFile_body hm hbody
    · obtain ⟨hblock, hpart⟩ := readFile_blank (W := W) (c := c) (n := 1) hm (.inl hblank)
      rw [← readFileChar_again hfs] at hblock hpart
      refine fits_inclusion hblock hcode hpart ?_ fun hstart => ?_
      · rw [h]
        rfl
      · rw [h] at hstart
        cases hstart
    · exact htextMode _ hfs hm
  · have hm := (swigDirective_mode x.1.line).resolve_left hdirective
    exact htextMode _ (fileStep_line hne hstep hdirective) hm

theorem endInclude_mode (fs : FileState σ) : (endInclude W fs).line.mode = .text := by
  simp only [endInclude]
  split <;> rfl

theorem closeBlock_mode (fs : FileState σ) :
    (closeBlock W fs).line.mode = .start ∨ (closeBlock W fs).line.mode = .text := by
  rw [closeBlock]
  split
  · exact .inl rfl
  · exact .inr rfl

theorem endStatement_cases {fs : FileState σ} (read : List Char)
    (hmode : fs.line.mode = .swigBlock) :
    ((endStatement W fs read).line.mode = .swigBlock ∧ (endStatement W fs read).part = .body) ∨
      (endStatement W fs read).line.mode = .start ∨ (endStatement W fs read).line.mode = .text := by
  rw [endStatement]
  simp only
  split
  · refine .inl ?_
    split <;> exact ⟨hmode, rfl⟩
  · have hclose : ∀ (g : FileState σ) (p : Prop) [Decidable p],
        g.line.mode = .swigBlock ∧ g.part = .body →
          ((if p then closeBlock W g else g).line.mode = .swigBlock ∧
              (if p then closeBlock W g else g).part = .body) ∨
            (if p then closeBlock W g else g).line.mode = .start ∨
              (if p then closeBlock W g else g).line.mode = .text := by
      intro g p _ hg
      by_cases hp : p
      · rw [if_pos hp]
        exact .inr (closeBlock_mode g)
      · rw [if_neg hp]
        exact .inl hg
    refine hclose _ _ ?_
    split <;> exact ⟨hmode, rfl⟩

theorem fits_inside {fs : FileState σ} (hmode : x.1.line.mode = .swigBlock)
    (hstep : fileStep W x.1 c = (fs, false)) (hline : fs.line = x.1.line)
    (hpart : fs.part.ofBlock = false) (hr : x.2.inDirective = false)
    (hp : x.2 = .lineStart → c ≠ '#') : FitsBoth (readBoth W x c) := by
  have hread := readFileChar_taken (n := 2) hstep
  refine fits_inclusion ?_ (hmode.trans_ne (by decide)) ?_ hr hp
  · rw [hread, hline]
    exact hmode
  · rw [hread]
    exact hpart

theorem fits_swigBlock (h : FitsBoth x) (hmode : x.1.line.mode = .swigBlock)
    (hu : Unswallowed x c) (hp : InPlace x c) : FitsBoth (readBoth W x c) := by
  rw [FitsBoth, hmode, Fits] at h
  rw [Unswallowed, hmode] at hu
  rw [InPlace, hmode] at hp
  have hcode : x.1.line.mode ≠ .codePercent := hmode.trans_ne (by decide)
  cases hpart : x.1.part
  case optionsBlank =>
    rw [hpart] at h
    obtain ⟨hblock, hpart⟩ := readFile_blank (W := W) (c := c) (n := 2) hmode (.inl hpart)
    exact fits_inclusion hblock hcode hpart h hp
  case filenameBlank =>
    rw [hpart] at h
    obtain ⟨hblock, hpart⟩ := readFile_blank (W := W) (c := c) (n := 2) hmode (.inr hpart)
    exact fits_inclusion hblock hcode hpart h hp
  case options level =>
    rw [hpart] at h
    have hstep : ∃ fs, fileStep W x.1 c = (fs, false) ∧ fs.line = x.1.line ∧
        fs.part.ofBlock = false := by
      rw [fileStep_block hmode, blockStep.eq_def]
      simp only [hpart]
      split
      · exact ⟨_, rfl, rfl, by split <;> rfl⟩
      split <;> exact ⟨_, rfl, rfl, rfl⟩
    obtain ⟨fs, hstep, hline, hpart⟩ := hstep
    exact fits_inside hmode hstep hline hpart h hp
  case filename close =>
    rw [hpart] at h hu
    by_cases hclose : c = close
    · have hstep : fileStep W x.1 c = (endInclude W x.1, false) := by
        rw [fileStep_block hmode, blockStep.eq_def]
        simp only [hpart, if_pos hclose]
      have hread : (readFileChar W 3 x.1 c).line.mode = .text := by
        rw [readFileChar_taken hstep]
        exact endInclude_mode _
      exact fits_of_mode hread hcode (fun _ => rfl) fun _ => Or.inl (hu hclose)
    · have hstep : fileStep W x.1 c = ({ x.1 with fn := x.1.fn ++ [c] }, false) := by
        rw [fileStep_block hmode, blockStep.eq_def]
        simp only [hpart, if_neg hclose]
      exact fits_inside hmode hstep rfl (congrArg BlockPart.ofBlock hpart) h hp
  case bareFilename =>
    rw [hpart] at h hu
    by_cases hspace : isSpace c = true
    · have hstep : fileStep W x.1 c = (endInclude W x.1, true) := by
        rw [fileStep_block hmode, blockStep.eq_def]
        simp only [hpart, if_pos hspace]
      refine fits_text (readFile_againText hstep (endInclude_mode _)) hcode ?_
      rcases hu hspace with hr | hr
      · rw [hr]
        rfl
      · have hslash : c ≠ '/' := by rintro rfl; exact absurd hspace (by decide)
        have hstar : c ≠ '*' := by rintro rfl; exact absurd hspace (by decide)
        rw [hr, Reading.next, if_neg hslash, if_neg hstar]
    · have hstep : fileStep W x.1 c = ({ x.1 with fn := x.1.fn ++ [c] }, false) := by
        rw [fileStep_block hmode, blockStep.eq_def]
        simp only [hpart, if_neg hspace]
      exact fits_inside hmode hstep rfl (congrArg BlockPart.ofBlock hpart) h hp
  case body =>
    rw [hpart] at h
    exact fits_of_inBlock h (readFile_body hmode hpart)
  case statement read =>
    rw [hpart] at h
    have hstep : ∃ part : BlockPart, part.ofBlock = true ∧
        fileStep W x.1 c = (x.1.putBlock c part, false) := by
      rw [fileStep_block hmode, blockStep.eq_def]
      simp only [hpart]
      refine ⟨_, ?_, rfl⟩
      split
      · rfl
      split <;> rfl
    obtain ⟨part, hblock, hstep⟩ := hstep
    refine fits_of_inBlock h ?_
    rw [readFileChar_taken hstep]
    exact putBlock_inBlock _ _ hmode hblock
  case statementEnd read =>
    rw [hpart] at h
    by_cases hspace : isSpace c = true
    · have hstep : fileStep W x.1 c = (endStatement W x.1 read, true) := by
        rw [fileStep_block hmode, blockStep.eq_def]
        simp only [hpart, if_pos hspace]
      have hnext : x.2.next c = Reading.textNext c := by
        rw [show x.2 = .text from h]
        rfl
      rcases endStatement_cases (W := W) read hmode with ⟨hm, hbody⟩ | hm | hm
      · refine fits_of_inBlock h ?_
        rw [readFileChar_again hstep]
        exact readFile_body hm hbody
      · have hhash : c ≠ '#' := by rintro rfl; exact absurd hspace (by decide)
        have hread : (readFileChar W 3 x.1 c).line.mode = .start := by
          rw [readFileChar_again hstep, readFile_start hm, if_neg hhash, if_pos hspace]
        refine fits_of_mode hread hcode (fun _ => rfl) fun _ => ?_
        rw [hnext]
        exact text_nextSpace hspace
      · exact fits_text (readFile_againText hstep hm) hcode hnext
    · have hstep : fileStep W x.1 c = ({ x.1 with part := .body }, true) := by
        rw [fileStep_block hmode, blockStep.eq_def]
        simp only [hpart, if_neg hspace]
      refine fits_of_inBlock h ?_
      rw [readFileChar_again hstep]
      exact readFile_body hmode rfl

/-- Machine and reading stay together at a character in its place. -/
theorem fits_step (h : FitsBoth x) (hu : Unswallowed x c) (hp : InPlace x c) :
    FitsBoth (readBoth W x c) := by
  cases hmode : x.1.line.mode
  case start => exact fits_start h hmode hp
  case text =>
    rw [InPlace, hmode] at hp
    have hfit := h
    rw [FitsBoth, hmode] at hfit
    exact fits_asText hfit (readFile_text hmode) (hmode.trans_ne (by decide)) hp
  case slash =>
    rw [FitsBoth, hmode] at h
    rw [Unswallowed, hmode] at hu
    exact fits_slash h hmode hu
  case lineComment =>
    rw [FitsBoth, hmode] at h
    exact fits_lineComment h hmode
  case blockComment =>
    rw [FitsBoth, hmode] at h
    exact fits_blockComment h hmode
  case blockCommentStar =>
    rw [FitsBoth, hmode] at h
    exact fits_blockComment h hmode
  case hash => exact fits_hash h hmode
  case name => exact fits_name h hmode
  case beforeValue => exact fits_beforeValue h hmode
  case value => exact fits_value h hmode hp
  case valueBackslash => exact fits_valueBackslash h hmode
  case valueSlash =>
    rw [Unswallowed, hmode] at hu
    exact fits_valueSlash h hmode hu
  case valueLineComment => exact fits_valueLineComment h hmode hp
  case valueBlockComment =>
    rw [FitsBoth, hmode] at h
    obtain ⟨previous, h⟩ := h
    exact fits_valueBlockComment h hmode
  case valueBlockCommentStar =>
    rw [FitsBoth, hmode] at h
    obtain ⟨previous, h⟩ := h
    exact fits_valueBlockComment h hmode
  case directive =>
    rw [FitsBoth, hmode] at h
    exact h.elim
  case percent => exact fits_percent h hmode hu
  case code =>
    rw [FitsBoth, hmode] at h
    exact fits_code h hmode
  case codePercent =>
    rw [FitsBoth, hmode] at h
    exact fits_codePercent h hmode
  case embedded =>
    have hfit := h
    rw [FitsBoth, hmode] at hfit
    exact fits_embedded hfit hmode hu hp
  case embeddedBackslash =>
    rw [FitsBoth, hmode] at h
    exact fits_embeddedBackslash h hmode hp
  case swigName =>
    rw [FitsBoth, hmode] at h
    exact fits_swigName h hmode
  case skip quote escaped inValue =>
    refine fits_skip hmode h fun hvalue => ?_
    subst hvalue
    rw [InPlace, hmode] at hp
    exact hp
  case swigBlock => exact fits_swigBlock h hmode hu hp
  case outside =>
    rw [Unswallowed, hmode] at hu
    exact hu.elim

/-! ## A character out of its place -/

/-- At a hash an inclusion goes on, or ends in text. -/
theorem inclusion_hash (hmode : x.1.line.mode = .swigBlock) (hpart : x.1.part.ofBlock = false) :
    (readFileChar W 3 x.1 '#').line.mode.inDirective = false := by
  have hstep : ∃ fs, fileStep W x.1 '#' = (fs, false) ∧
      (fs.line.mode = .swigBlock ∨ fs.line.mode = .text) := by
    rw [fileStep_block hmode, blockStep.eq_def]
    have hstart : ∃ fs, startFilename x.1 '#' = (fs, false) ∧
        (fs.line.mode = .swigBlock ∨ fs.line.mode = .text) := ⟨_, rfl, .inl hmode⟩
    cases hp : x.1.part
    case optionsBlank => exact hstart
    case filenameBlank => exact hstart
    case options level => exact ⟨_, rfl, .inl hmode⟩
    case filename close =>
      simp only
      split
      · exact ⟨_, rfl, .inr (endInclude_mode _)⟩
      · exact ⟨_, rfl, .inl hmode⟩
    case bareFilename => exact ⟨_, rfl, .inl hmode⟩
    case body | statement | statementEnd =>
      rw [hp] at hpart
      cases hpart
  obtain ⟨fs, hstep, hm⟩ := hstep
  rw [readFileChar_taken hstep]
  rcases hm with hm | hm <;> (rw [hm]; rfl)

theorem atEnd_inDirective {mode : Mode} (h : AtEnd mode) : mode.inDirective = false := by
  rcases h with rfl | rfl <;> rfl

theorem ends_backslash {r : Reading} (h : r.behindBackslash = true) : r.ends c = false := by
  cases r
  case directive part previous => simp [Reading.ends, of_decide_eq_true h]
  all_goals rfl

/-- A directive of the text that the machine does not see. -/
theorem not_right_of_missed (hr : x.2 = .lineStart) (hc : c = '#')
    (hmode : (readFileChar W 3 x.1 c).line.mode.inDirective = false) :
    ¬ DirectiveRight x (readBoth W x c) c := by
  intro h
  have hin : (readFileChar W 3 x.1 c).line.mode.inDirective = true := (h.starts.2 ⟨hr, hc⟩).2
  rw [hmode] at hin
  cases hin

theorem not_right_of_not_inPlace (h : FitsBoth x) (hp : ¬ InPlace x c) :
    ¬ DirectiveRight x (readBoth W x c) c := by
  rw [FitsBoth] at h
  rw [InPlace.eq_def] at hp
  cases hmode : x.1.line.mode
  case start =>
    simp only [hmode, Classical.not_imp, not_not] at hp
    intro hright
    have hread := readFile_start (W := W) (c := c) (n := 1) hmode
    rw [if_pos hp.2] at hread
    have hin : (readFileChar W 3 x.1 c).line.mode.inDirective = true := by
      rw [hread]
      rfl
    have hstart := (hright.starts.1 ⟨by rw [hmode]; rfl, hin⟩).1
    rw [hp.1] at hstart
    cases hstart
  case text =>
    simp only [hmode, Classical.not_imp, not_not] at hp
    refine not_right_of_missed hp.1 hp.2 ?_
    rw [readFile_text hmode, hp.2]
    rfl
  case embedded =>
    simp only [hmode, Classical.not_imp, not_not] at hp
    refine not_right_of_missed hp.1 hp.2 ?_
    have hstep : parseStep W.toWorld x.1.line '#' = (putChunk x.1.line '#' .embedded, false) := by
      simp [parseStep, hmode]
    rw [hp.2, readFile_taken (hmode.trans_ne (by decide)) hstep fun h => nomatch h]
    rfl
  case embeddedBackslash =>
    simp only [hmode, Classical.not_imp, not_not] at hp
    refine not_right_of_missed hp.1 hp.2 ?_
    have hstep : parseStep W.toWorld x.1.line '#' = (putChunk x.1.line '#' .embedded, false) := by
      simp only [parseStep, hmode]
    rw [hp.2, readFile_taken (hmode.trans_ne (by decide)) hstep fun h => nomatch h]
    rfl
  case swigBlock =>
    simp only [hmode, Classical.not_imp, not_not] at hp
    refine not_right_of_missed hp.1 hp.2 ?_
    rw [hp.2]
    refine inclusion_hash hmode ?_
    by_contra hpart
    rw [Bool.not_eq_false] at hpart
    rw [hmode, Fits, if_pos hpart, hp.1] at h
    cases h
  case value =>
    simp only [hmode, Classical.not_imp, Bool.not_eq_false] at hp
    obtain ⟨hc, hback⟩ := hp
    rw [hmode] at h
    obtain ⟨previous, h⟩ := h
    intro hright
    have hend := (readFile_value (W := W) (c := c) (n := 1) hmode).1 hc
    have hends := hright.ends.1 ⟨by rw [hmode]; rfl, atEnd_inDirective hend⟩
    rw [ends_backslash hback] at hends
    cases hends
  case valueLineComment =>
    simp only [hmode, Classical.not_imp, Bool.not_eq_false] at hp
    obtain ⟨hc, hback⟩ := hp
    have hne : x.1.line.mode ≠ .swigBlock := hmode.trans_ne (by decide)
    have hstep : parseStep W.toWorld x.1.line c =
        ({ x.1.line with mode := .directive }, true) := by
      simp only [parseStep, hmode, if_pos hc]
    have hend : AtEnd (readFileChar W 3 x.1 c).line.mode := by
      rw [readFileChar_again (fileStep_line hne hstep fun h => nomatch h)]
      exact readFile_directive rfl
    intro hright
    have hends := hright.ends.1 ⟨by rw [hmode]; rfl, atEnd_inDirective hend⟩
    rw [ends_backslash hback] at hends
    cases hends
  case skip quote escaped inValue =>
    cases inValue
    case false => simp only [hmode, not_true_eq_false] at hp
    case true =>
      simp only [hmode, Classical.not_imp, Bool.not_eq_true] at hp
      obtain ⟨hc, hback⟩ := hp
      rw [hmode] at h
      obtain ⟨hquote, previous, h⟩ := h
      have hne : x.1.line.mode ≠ .swigBlock := hmode.trans_ne (by rintro ⟨⟩)
      have hstep : ∃ line, parseStep W.toWorld x.1.line c = (line, false) ∧
          line.mode ≠ .swigBlock ∧ line.mode.inDirective = true := by
        simp only [parseStep, hmode, if_true]
        refine ⟨_, rfl, ?_⟩
        show (if _ then _ else _ : Mode) ≠ .swigBlock ∧ _
        split
        · exact ⟨(fun h => nomatch h), rfl⟩
        split
        · exact ⟨(fun h => nomatch h), rfl⟩
        · exact ⟨(fun h => nomatch h), rfl⟩
      obtain ⟨line, hstep, hblock, hin⟩ := hstep
      intro hright
      have hends : x.2.ends c = true := by
        rw [h] at hback
        rw [h, hc]
        simp [Reading.ends, DirectivePart.inBlockComment, of_decide_eq_false hback]
      have hout : (readFileChar W 3 x.1 c).line.mode.inDirective = false :=
        (hright.ends.2 hends).2
      rw [readFile_taken hne hstep hblock, hin] at hout
      cases hout
  all_goals
    simp only [hmode, not_true_eq_false] at hp

end Step

/-! ## A whole text -/

section Text

variable {symbols : σ} {s : List Char}

theorem both_append (symbols : σ) (s : List Char) (c : Char) :
    both W symbols (s ++ [c]) = readBoth W (both W symbols s) c := by
  rw [both, both, List.foldl_append]
  rfl

theorem fits_both (hu : NothingSwallowed W symbols s) :
    ∀ p t, withoutReturns s = p ++ t →
      (∀ p' c t', withoutReturns s = p' ++ c :: t' → p'.length < p.length →
        InPlace (both W symbols p') c) →
      FitsBoth (both W symbols p) := by
  intro p
  induction p using List.reverseRecOn with
  | nil => exact fun _ _ _ => .inr rfl
  | append_singleton p c ih =>
      intro t ht hp
      rw [List.append_assoc, List.singleton_append] at ht
      have hbefore : FitsBoth (both W symbols p) := by
        refine ih (c :: t) ht fun p' c' t' ht' hlt => hp p' c' t' ht' ?_
        rw [List.length_append]
        exact Nat.lt_add_right _ hlt
      have hhere := hp p c t ht (by rw [List.length_append]; exact Nat.lt_succ_self _)
      rw [both_append]
      exact fits_step hbefore (hu p c t ht) hhere

/-- In a text where nothing is swallowed the directives are right if and only if every
character is in its place. -/
theorem directivesRight_iff (W : FileWorld σ) (symbols : σ) (s : List Char) :
    DirectivesRight W symbols s ∧ NothingSwallowed W symbols s ↔
      AllInPlace W symbols s ∧ NothingSwallowed W symbols s := by
  refine and_congr_left fun hu => ⟨fun hright => ?_, fun hp p c t ht => ?_⟩
  · have hall : ∀ n p c t, p.length = n → withoutReturns s = p ++ c :: t →
        InPlace (both W symbols p) c := by
      intro n
      induction n using Nat.strongRecOn with
      | ind n ih =>
          intro p c t hn ht
          have hfits := fits_both hu p (c :: t) ht fun p' c' t' ht' hlt =>
            ih p'.length (hn ▸ hlt) p' c' t' rfl ht'
          by_contra hp
          have hstep := hright p c t ht
          rw [both_append] at hstep
          exact not_right_of_not_inPlace hfits hp hstep
    exact fun p c t ht => hall p.length p c t rfl ht
  · have hfits := fits_both hu p (c :: t) ht fun p' c' t' ht' _ => hp p' c' t' ht'
    rw [both_append]
    exact right_of_fits hfits (fits_step hfits (hu p c t ht) (hp p c t ht))

end Text

/-- A preprocessor without macros and files. -/
def fileless : FileWorld Unit where
  replace _ _ s := s
  isDefined _ _ := false
  expr _ := .ok 0
  define _ _ _ := ((), none)
  undef _ _ := ()
  includeFile _ _ := ((), [])
  includeDirective _ _ _ _ _ _ := ((), none)
  defineMacro _ _ := ()

/-- A division sign at the end of a line hides the directive on the next one. -/
theorem divisionSign_not_right :
    ¬ DirectivesRight fileless () ['a', '/', '\n', '#', 'i', 'f', ' ', '0', '\n'] := by
  intro h
  have hright := h ['a', '/', '\n'] '#' ['i', 'f', ' ', '0', '\n'] rfl
  have hstart : (both fileless () ['a', '/', '\n']).2 = .lineStart := rfl
  exact absurd (hright.starts.2 ⟨hstart, rfl⟩).2 (by decide)

end Swig4Ada.Preprocessor

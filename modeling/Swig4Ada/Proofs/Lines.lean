import Swig4Ada.Preprocessor.Lines
import Swig4Ada.Proofs.Reading
import Swig4Ada.Lib.Loop

/-!
# Where line breaks are lost

A text without words to substitute is copied as it is (`replaceWords_same`), so that the
line breaks of a chunk are kept unless it is not processed. `balance` counts the line breaks
that have been written and those that are held, with those of the value and the comments
of a directive; one step keeps it up with the input if and only if the step is `Kept`.
-/

namespace Swig4Ada.Preprocessor

open Swig4Ada.Lib

variable {σ : Type} {M : Macros σ}

/-! ## Words -/

/-- The word that has been read and not yet written. -/
def ReplaceState.pending (st : ReplaceState) : List Char :=
  match st.mode with
  | .percent | .word => st.id
  | _ => []

/-- The turns that a mode takes before the next character is taken. -/
def turnsBefore : ReplaceMode → Nat
  | .percent => 2
  | .word | .slash | .backslash => 1
  | _ => 0

theorem pending_of_mode {st : ReplaceState} (h : st.mode ≠ .percent ∧ st.mode ≠ .word) :
    st.pending = [] := by
  rw [ReplaceState.pending]
  split
  · rename_i hmode
    exact absurd hmode h.1
  · rename_i hmode
    exact absurd hmode h.2
  · rfl

theorem turns_le_one {mode : ReplaceMode} (h : mode ≠ .percent) : turnsBefore mode ≤ 1 := by
  cases mode
  case percent => exact absurd rfl h
  all_goals simp [turnsBefore]

theorem plainMode_ne (c : Char) : plainMode c ≠ .percent ∧ plainMode c ≠ .word := by
  rw [plainMode]
  repeat' split
  all_goals exact ⟨(fun h => nomatch h), fun h => nomatch h⟩

/-- A turn writes what it takes, or holds it as a part of a word, and uses up a turn. -/
def Turned (st : ReplaceState) (c : Char) (cs : List Char)
    (r : ReplaceState × List Char × Bool) : Prop :=
  r.2.1 ++ (r.1.pending ++ if r.2.2 then c :: cs else cs) = st.pending ++ c :: cs ∧
    3 * (if r.2.2 then c :: cs else cs).length + turnsBefore r.1.mode + 1 ≤
      3 * (c :: cs).length + turnsBefore st.mode

theorem turned_copy {st st' : ReplaceState} {c : Char} {cs : List Char} (hst : st.pending = [])
    (hmode : st'.mode ≠ .percent ∧ st'.mode ≠ .word) : Turned st c cs (st', [c], false) := by
  have hturns := turns_le_one hmode.1
  refine ⟨?_, ?_⟩
  · rw [pending_of_mode hmode, hst]
    rfl
  · show 3 * cs.length + turnsBefore st'.mode + 1 ≤ _
    rw [List.length_cons]
    omega

theorem turned_word {st st' : ReplaceState} {c : Char} {cs : List Char}
    (h : st'.pending = st.pending ++ [c]) : Turned st c cs (st', [], false) := by
  have hturns : turnsBefore st'.mode ≤ 2 := by
    cases st'.mode <;> simp [turnsBefore]
  refine ⟨?_, ?_⟩
  · show st'.pending ++ cs = _
    rw [h, List.append_assoc]
    rfl
  · show 3 * cs.length + turnsBefore st'.mode + 1 ≤ _
    rw [List.length_cons]
    omega

theorem turned_back {st st' : ReplaceState} {c : Char} {cs : List Char}
    (h : st'.pending = st.pending) (hturns : turnsBefore st'.mode < turnsBefore st.mode) :
    Turned st c cs (st', [], true) := by
  refine ⟨?_, ?_⟩
  · show st'.pending ++ c :: cs = _
    rw [h]
  · show 3 * (c :: cs).length + turnsBefore st'.mode + 1 ≤ _
    omega

theorem replaceStep_turned (st : ReplaceState) (c : Char) (cs : List Char) :
    Turned st c cs (replaceStep st c) := by
  rw [replaceStep.eq_def]
  cases hmode : st.mode
  case plain =>
    have hst : st.pending = [] := by rw [ReplaceState.pending, hmode]
    simp only
    split
    · exact turned_word (by rw [hst]; rfl)
    split
    · exact turned_word (by rw [hst]; rfl)
    · exact turned_copy hst (plainMode_ne c)
  case percent =>
    have hst : st.pending = st.id := by rw [ReplaceState.pending, hmode]
    simp only
    split
    · exact turned_word (by rw [hst]; rfl)
    · exact turned_back (by rw [hst]; rfl) (by rw [hmode]; exact Nat.one_lt_two)
  case word =>
    have hst : st.pending = st.id := by rw [ReplaceState.pending, hmode]
    exact turned_word (by rw [hst]; simp only [ReplaceState.pending])
  case slash =>
    have hst : st.pending = [] := by rw [ReplaceState.pending, hmode]
    simp only
    split
    · exact turned_copy hst ⟨(fun h => nomatch h), fun h => nomatch h⟩
    split
    · exact turned_copy hst ⟨(fun h => nomatch h), fun h => nomatch h⟩
    · exact turned_back (by rw [hst]; rfl) (by rw [hmode]; exact Nat.zero_lt_one)
  case backslash =>
    have hst : st.pending = [] := by rw [ReplaceState.pending, hmode]
    simp only
    split
    · exact turned_copy hst ⟨(fun h => nomatch h), fun h => nomatch h⟩
    · exact turned_back (by rw [hst]; rfl) (by rw [hmode]; exact Nat.zero_lt_one)
  case lineComment =>
    have hst : st.pending = [] := by rw [ReplaceState.pending, hmode]
    simp only
    split
    · exact turned_copy hst ⟨(fun h => nomatch h), fun h => nomatch h⟩
    · exact turned_copy hst (by rw [hmode]; exact ⟨(fun h => nomatch h), fun h => nomatch h⟩)
  case blockComment | blockCommentStar | skip =>
    have hst : st.pending = [] := by rw [ReplaceState.pending, hmode]
    refine turned_copy hst ?_
    simp only
    repeat' split
    all_goals exact ⟨(fun h => nomatch h), fun h => nomatch h⟩

theorem replaceLoop_same (symbols : σ) : ∀ (n : Nat) (st : ReplaceState) (text : List Char),
    3 * text.length + turnsBefore st.mode ≤ n →
    (replaceLoop M symbols n st text).2 = false →
    (replaceLoop M symbols n st text).1 = st.pending ++ text := by
  intro n
  induction n with
  | zero =>
      intro st text hn _
      have htext : text = [] := List.length_eq_zero_iff.1 (by omega)
      have hturns : turnsBefore st.mode = 0 := by omega
      subst htext
      rw [List.append_nil, ReplaceState.pending]
      cases hmode : st.mode
      case percent | word =>
        rw [hmode] at hturns
        cases hturns
      all_goals rfl
  | succ n ih =>
      intro st text hn hsub
      rw [replaceLoop.eq_def] at hsub ⊢
      simp only at hsub ⊢
      split at hsub
      · rename_i hends
        rw [if_pos hends]
        split at hsub
        · cases hsub
        · rename_i hword
          rw [if_neg hword]
          have hpending : st.pending = st.id ∧ 1 ≤ turnsBefore st.mode := by
            rw [ReplaceState.pending]
            cases hmode : st.mode
            case percent => exact ⟨rfl, by decide⟩
            case word => exact ⟨rfl, by decide⟩
            all_goals
              rw [hmode] at hends
              cases text <;> cases hends
          have hrest := ih _ _ (by simp only [turnsBefore]; omega) hsub
          rw [hpending.1]
          exact congrArg (st.id ++ ·) hrest
      · rename_i hends
        rw [if_neg hends]
        match text with
        | [] => 
          rw [List.append_nil, ReplaceState.pending]
          cases hmode : st.mode
          case percent | word => 
            rw [hmode] at hends
            exact absurd rfl hends
          all_goals rfl
        | c :: cs =>
          obtain ⟨hsame, hturns⟩ := replaceStep_turned st c cs
          rw [← hsame]
          have hlen : 3 * (if (replaceStep st c).2.2 then c :: cs else cs).length +
              turnsBefore (replaceStep st c).1.mode ≤ n := by omega
          exact congrArg ((replaceStep st c).2.1 ++ ·) (ih _ _ hlen hsub)
theorem replaceWords_same {symbols : σ} {s : List Char} (h : invokes M symbols s = false) :
    (replaceWords M symbols false s).1 = s :=
  replaceLoop_same symbols _ ⟨.plain, false, []⟩ s (Nat.le_add_right _ 3) h

/-! ## Line breaks -/

theorem lineCount_append (s t : List Char) : lineCount (s ++ t) = lineCount s + lineCount t :=
  List.count_append

theorem lineCount_cons (c : Char) (s : List Char) :
    lineCount (c :: s) = lineCount [c] + lineCount s := lineCount_append [c] s

theorem lineCount_of_ne {c : Char} (hc : c ≠ '\n') : lineCount [c] = 0 :=
  List.count_eq_zero_of_not_mem fun h => hc (List.mem_singleton.1 h).symm

theorem lineCount_replicate (n : Nat) : lineCount (List.replicate n '\n') = n :=
  List.count_replicate_self

theorem lineCount_withoutReturns (s : List Char) : lineCount (withoutReturns s) = lineCount s := by
  rw [lineCount, withoutReturns]
  exact List.count_filter (by decide)

/-- Of a text that is not processed the line breaks up to its first null character are
written. -/
theorem lineCount_newlines (s : List Char) :
    lineCount (newlines s) = lineCount (s.takeWhile (· ≠ '\x00')) := by
  rw [newlines, lineCount, lineCount]
  exact List.count_filter (by decide)

theorem newlines_le (s : List Char) : lineCount (newlines s) ≤ lineCount s := by
  rw [lineCount_newlines]
  exact (List.takeWhile_sublist _).count_le _

theorem newlines_kept_iff (s : List Char) : lineCount (newlines s) = lineCount s ↔ NullFree s := by
  have hsplit : lineCount (s.takeWhile (· ≠ '\x00')) + lineCount (s.dropWhile (· ≠ '\x00')) =
      lineCount s := by
    rw [← lineCount_append, List.takeWhile_append_dropWhile]
  rw [lineCount_newlines, NullFree, ← List.count_eq_zero]
  change _ ↔ lineCount (s.dropWhile (· ≠ '\x00')) = 0
  omega

/-- `addline`. -/
theorem addLine_kept_iff (ns s : List Char) (allow : Bool) :
    lineCount (addLine ns s allow) = lineCount ns + lineCount s ↔ (allow = false → NullFree s) := by
  cases allow
  case true =>
    rw [addLine, if_pos rfl, lineCount_append]
    exact ⟨fun _ h => Bool.noConfusion h, fun _ => rfl⟩
  case false =>
    rw [addLine, if_neg Bool.false_ne_true, lineCount_append, Nat.add_left_cancel_iff,
      newlines_kept_iff]
    exact ⟨fun h _ => h, fun h => h rfl⟩

/-- `add_chunk`. -/
theorem addChunk_kept_iff {st : ParseState σ}
    (h : st.cond.allow = true → invokes M st.symbols st.chunk = false) :
    lineCount (addChunk (macroWorld M).toWorld st).ns = lineCount st.ns + lineCount st.chunk ↔
      ChunkKept st st.chunk := by
  have hsame : (if st.cond.allow then (macroWorld M).toWorld.replace st.symbols false st.chunk
      else st.chunk) = st.chunk := by
    cases hallow : st.cond.allow
    · rfl
    · exact replaceWords_same (h hallow)
  show lineCount (addLine st.ns (if st.cond.allow then
    (macroWorld M).toWorld.replace st.symbols false st.chunk else st.chunk) st.cond.allow) = _ ↔ _
  rw [hsame]
  exact addLine_kept_iff _ _ _

/-! ## The balance -/

/-- The line breaks that have been written, and those that are held. -/
def balance (fs : FileState σ) : Nat :=
  lineCount fs.line.ns + lineCount fs.line.chunk +
    if fs.line.mode.inValue then lineCount fs.line.value + lineCount fs.line.comment
    else if fs.inDefineBlock then lineCount fs.line.value else 0

/-- What holds between two characters: in a directive nothing is in the chunk, and the line
breaks that have been counted are in its value; the text of a macro ends with the statement
that is being read. -/
structure Tidy (fs : FileState σ) : Prop where
  head : fs.line.mode.inHead = true → fs.line.chunk = [] ∧ fs.line.cppLines = 1
  value : fs.line.mode.inValue = true →
    fs.line.chunk = [] ∧ 1 ≤ fs.line.cppLines ∧ fs.line.cppLines ≤ lineCount fs.line.value + 1
  directive : fs.line.mode ≠ .directive
  statement : fs.line.mode = .swigBlock → fs.inDefine = true →
    ∀ read, fs.part = .statement read ∨ fs.part = .statementEnd read →
      ∃ w, fs.line.value = w ++ '%' :: read
  ending : fs.line.mode = .swigBlock →
    ∀ read, fs.part = .statementEnd read → read = fs.opener ∨ read = fs.closer
  decl : fs.line.mode = .swigName → lineCount fs.line.decl = 0

/-- In text, in a comment or literal there, or in a block of code; not in the name of a SWIG
directive. -/
def Mode.inText : Mode → Bool
  | start | text | slash | lineComment | blockComment | blockCommentStar | percent | code
  | codePercent | embedded | embeddedBackslash | outside | skip _ _ false => true
  | _ => false

theorem inText_only {mode : Mode} (h : mode.inText = true) :
    mode.inHead = false ∧ mode.inValue = false ∧ mode ≠ .directive ∧ mode ≠ .swigBlock ∧
      mode ≠ .swigName := by
  cases mode
  case skip quote escaped inValue =>
    cases inValue
    · exact ⟨rfl, rfl, nofun, nofun, nofun⟩
    · cases h
  all_goals first
    | exact absurd h (by decide)
    | exact ⟨rfl, rfl, nofun, nofun, nofun⟩

theorem inDefineBlock_false {fs : FileState σ} (h : fs.line.mode ≠ .swigBlock) :
    fs.inDefineBlock = false := by
  rw [FileState.inDefineBlock, decide_eq_false h]
  rfl

theorem tidy_of_inText {fs : FileState σ} (h : fs.line.mode.inText = true) : Tidy fs := by
  obtain ⟨hhead, hvalue, hdirective, hblock, hname⟩ := inText_only h
  exact ⟨fun hmode => (Bool.false_ne_true (hhead.symm.trans hmode)).elim,
    fun hmode => (Bool.false_ne_true (hvalue.symm.trans hmode)).elim, hdirective,
    fun hmode => absurd hmode hblock, fun hmode => absurd hmode hblock,
    fun hmode => absurd hmode hname⟩

theorem tidy_of_head {fs : FileState σ} (h : fs.line.mode = .hash ∨ fs.line.mode = .name)
    (hchunk : fs.line.chunk = [] ∧ fs.line.cppLines = 1) : Tidy fs := by
  refine ⟨fun _ => hchunk, ?_, ?_, ?_, ?_, ?_⟩
  all_goals rcases h with h | h <;> (rw [h]; intro h; cases h)

theorem tidy_of_name {fs : FileState σ} (h : fs.line.mode = .swigName)
    (hdecl : lineCount fs.line.decl = 0) : Tidy fs := by
  constructor
  all_goals rw [h]
  case decl => exact fun _ => hdecl
  all_goals intro h; cases h

theorem balance_outside {fs : FileState σ} (h : fs.line.mode.inValue = false)
    (hblock : fs.line.mode ≠ .swigBlock) :
    balance fs = lineCount fs.line.ns + lineCount fs.line.chunk := by
  rw [balance, h, inDefineBlock_false hblock]
  rfl

theorem balance_of_inText {fs : FileState σ} (h : fs.line.mode.inText = true) :
    balance fs = lineCount fs.line.ns + lineCount fs.line.chunk :=
  balance_outside (inText_only h).2.1 (inText_only h).2.2.2.1

theorem inHead_only {mode : Mode} (h : mode.inHead = true) :
    mode.inValue = false ∧ mode ≠ .swigBlock := by
  cases mode
  case hash | name => exact ⟨rfl, nofun⟩
  all_goals exact Bool.noConfusion h

theorem balance_of_inHead {fs : FileState σ} (h : fs.line.mode.inHead = true) :
    balance fs = lineCount fs.line.ns + lineCount fs.line.chunk :=
  balance_outside (inHead_only h).1 (inHead_only h).2

theorem balance_of_inValue {fs : FileState σ} (h : fs.line.mode.inValue = true) :
    balance fs = lineCount fs.line.ns + lineCount fs.line.chunk +
      (lineCount fs.line.value + lineCount fs.line.comment) := by
  rw [balance, if_pos h]

/-! ## One character -/

/-- What one step does for the balance. -/
def Counts (M : Macros σ) (fs : FileState σ) (c : Char) : Prop :=
  Tidy (readFileChar (macroWorld M) 3 fs c) ∧
    (balance (readFileChar (macroWorld M) 3 fs c) = balance fs + lineCount [c] ↔ Kept M fs c)

/-- A step without inclusions and invocations. -/
structure StepPlain (M : Macros σ) (fs : FileState σ) (c : Char) : Prop where
  chunk : HandsOver fs c → fs.line.cond.allow = true →
    invokes M fs.line.symbols fs.line.chunk = false
  includes : EndsDirective fs c → directiveName fs.line.id ≠ .includeFile
  constant : EndsDirective fs c → ∀ symbols v, constantTried M fs.line = some (symbols, v) →
    invokes M symbols v = false
  before : fs.inInclusion = false
  behind : (readFileChar (macroWorld M) 3 fs c).inInclusion = false

section Step

variable {fs : FileState σ} {c : Char}

/-- A step in text. -/
theorem counts_text {fs' : FileState σ} (hstep : readFileChar (macroWorld M) 3 fs c = fs')
    (hmode : fs.line.mode.inText = true) (hmode' : fs'.line.mode.inText = true)
    (h : lineCount fs'.line.ns + lineCount fs'.line.chunk =
      lineCount fs.line.ns + lineCount fs.line.chunk + lineCount [c] ↔ Kept M fs c) :
    Counts M fs c := by
  rw [Counts, hstep, balance_of_inText hmode, balance_of_inText hmode']
  exact ⟨tidy_of_inText hmode', h⟩

/-- A step in text that puts the character into the chunk. -/
theorem counts_put {fs' : FileState σ} (hstep : readFileChar (macroWorld M) 3 fs c = fs')
    (hmode : fs.line.mode.inText = true) (hmode' : fs'.line.mode.inText = true)
    (hns : fs'.line.ns = fs.line.ns)
    (hchunk : lineCount fs'.line.chunk = lineCount fs.line.chunk + lineCount [c])
    (hkept : Kept M fs c) : Counts M fs c := by
  refine counts_text hstep hmode hmode' ⟨fun _ => hkept, fun _ => ?_⟩
  rw [hns, hchunk]
  omega

/-- State 1 behind a character. -/
def afterText (st : ParseState σ) (c : Char) : ParseState σ :=
  { st with chunk := st.chunk ++ (if c = '%' then [] else [c]), mode := textMode c }

theorem textMode_inText (c : Char) : (textMode c).inText = true := by
  rw [textMode]
  repeat' split
  all_goals rfl

theorem textMode_ne (c : Char) : textMode c ≠ .swigBlock := by
  rw [textMode]
  repeat' split
  all_goals intro h; cases h

theorem parse_text {W : World σ} {st : ParseState σ} (hmode : st.mode = .text) :
    parseStep W st c = (afterText st c, false) := by
  simp only [parseStep, hmode, afterText, textMode, isQuote, Bool.or_eq_true, decide_eq_true_iff]
  by_cases hpercent : c = '%'
  · simp only [if_pos hpercent, List.append_nil]
  simp only [if_neg hpercent]
  split
  · rfl
  split
  · rfl
  split <;> rfl

theorem read_text {W : FileWorld σ} {n : Nat} (hmode : fs.line.mode = .text) :
    readFileChar W (n + 1) fs c = fs.withLine (afterText fs.line c) :=
  readFileChar_taken (fileStep_line (hmode.trans_ne (by decide)) (parse_text hmode)
    (textMode_ne c))

theorem afterText_chunk (st : ParseState σ) (c : Char) :
    lineCount (afterText st c).chunk = lineCount st.chunk + lineCount [c] := by
  rw [afterText, lineCount_append]
  split
  · rename_i hc
    subst hc
    rfl
  · rfl

theorem counts_textMode (hmode : fs.line.mode = .text) : Counts M fs c := by
  have hkept : Kept M fs c := by simp [Kept, HandsOver, EndsDirective, hmode]
  exact counts_put (read_text hmode) (by rw [hmode]; rfl) (textMode_inText c) rfl
    (afterText_chunk _ _) hkept

/-- A step that is taken. -/
theorem read_taken {line : ParseState σ} (hmode : fs.line.mode ≠ .swigBlock)
    (hstep : parseStep (macroWorld M).toWorld fs.line c = (line, false))
    (hline : line.mode ≠ .swigBlock) :
    readFileChar (macroWorld M) 3 fs c = fs.withLine line :=
  readFileChar_taken (fileStep_line hmode hstep hline)

/-- A step that is given back to state 1. -/
theorem read_back {line : ParseState σ} (hmode : fs.line.mode ≠ .swigBlock)
    (hstep : parseStep (macroWorld M).toWorld fs.line c = (line, true))
    (hline : line.mode = .text) :
    readFileChar (macroWorld M) 3 fs c = fs.withLine (afterText line c) := by
  rw [readFileChar_again (fileStep_line hmode hstep (hline.trans_ne (by decide))),
    read_text hline]
  rfl

/-- A step that copies the character to the chunk. -/
theorem counts_copy {line : ParseState σ} (hmode : fs.line.mode.inText = true)
    (hstep : parseStep (macroWorld M).toWorld fs.line c = (line, false))
    (hline : line.mode.inText = true) (hns : line.ns = fs.line.ns)
    (hchunk : line.chunk = fs.line.chunk ++ [c]) (hkept : Kept M fs c) : Counts M fs c := by
  refine counts_put (read_taken (inText_only hmode).2.2.2.1 hstep (inText_only hline).2.2.2.1) hmode
    hline hns ?_ hkept
  show lineCount line.chunk = _
  rw [hchunk, lineCount_append]

theorem counts_start (hmode : fs.line.mode = .start) (hplain : StepPlain M fs c) :
    Counts M fs c := by
  have hne : fs.line.mode ≠ .swigBlock := hmode.trans_ne (by decide)
  have htext : fs.line.mode.inText = true := by rw [hmode]; rfl
  by_cases hhash : c = '#'
  · have hstep : parseStep (macroWorld M).toWorld fs.line c =
        ({ addChunk (macroWorld M).toWorld fs.line with cppLines := 1, mode := .hash }, false) := by
      simp only [parseStep, hmode, if_pos hhash]
    have hover : HandsOver fs c := by
      rw [HandsOver, hmode]
      exact hhash
    have hkept : Kept M fs c ↔ ChunkKept fs.line fs.line.chunk := by
      simp [Kept, EndsDirective, hmode, hover]
    rw [Counts, read_taken hne hstep (by intro h; cases h)]
    refine ⟨tidy_of_head (Or.inl rfl) ⟨rfl, rfl⟩, ?_⟩
    have hhead : (fs.withLine { addChunk (macroWorld M).toWorld fs.line with
        cppLines := 1, mode := .hash }).line.mode.inHead = true := rfl
    have hc : lineCount [c] = 0 := lineCount_of_ne (by rw [hhash]; decide)
    rw [balance_of_inText htext, balance_of_inHead hhead, hkept,
      ← addChunk_kept_iff (hplain.chunk hover), hc]
    exact Iff.rfl
  have hkept : Kept M fs c := by simp [Kept, HandsOver, EndsDirective, hmode, hhash]
  by_cases hspace : isSpace c = true
  · have hstep : parseStep (macroWorld M).toWorld fs.line c =
        (putChunk fs.line c .start, false) := by
      simp only [parseStep, hmode, if_neg hhash, if_pos hspace]
    exact counts_copy htext hstep rfl rfl rfl hkept
  · have hstep : parseStep (macroWorld M).toWorld fs.line c =
        ({ fs.line with mode := .text }, true) := by
      simp only [parseStep, hmode, if_neg hhash, if_neg hspace]
    exact counts_put (read_back hne hstep rfl) htext (textMode_inText c) rfl
      (afterText_chunk _ _) hkept

theorem counts_slash (hmode : fs.line.mode = .slash) : Counts M fs c := by
  have htext : fs.line.mode.inText = true := by rw [hmode]; rfl
  have hkept : Kept M fs c := by simp [Kept, HandsOver, EndsDirective, hmode]
  have hstep : ∃ mode : Mode, mode.inText = true ∧
      parseStep (macroWorld M).toWorld fs.line c = (putChunk fs.line c mode, false) := by
    simp only [parseStep, hmode]
    split
    · exact ⟨_, rfl, rfl⟩
    split
    · exact ⟨_, rfl, rfl⟩
    · exact ⟨_, rfl, rfl⟩
  obtain ⟨mode, hmode', hstep⟩ := hstep
  exact counts_copy htext hstep hmode' rfl rfl hkept

theorem counts_comment (hmode : fs.line.mode = .lineComment ∨ fs.line.mode = .blockComment ∨
    fs.line.mode = .blockCommentStar ∨ fs.line.mode = .embeddedBackslash) : Counts M fs c := by
  have htext : fs.line.mode.inText = true := by
    rcases hmode with h | h | h | h <;> (rw [h]; rfl)
  have hkept : Kept M fs c := by
    rcases hmode with h | h | h | h <;> simp [Kept, HandsOver, EndsDirective, h]
  have hstep : ∃ mode : Mode, mode.inText = true ∧
      parseStep (macroWorld M).toWorld fs.line c = (putChunk fs.line c mode, false) := by
    rcases hmode with h | h | h | h
    · simp only [parseStep, h]
      exact ⟨_, by split <;> rfl, rfl⟩
    · simp only [parseStep, h]
      exact ⟨_, by split <;> rfl, rfl⟩
    · simp only [parseStep, h]
      split
      · exact ⟨_, rfl, rfl⟩
      · exact ⟨_, by split <;> rfl, rfl⟩
    · simp only [parseStep, h]
      exact ⟨_, rfl, rfl⟩
  obtain ⟨mode, hmode', hstep⟩ := hstep
  exact counts_copy htext hstep hmode' rfl rfl hkept

theorem counts_skip {quote : Char} {escaped : Bool}
    (hmode : fs.line.mode = .skip quote escaped false) : Counts M fs c := by
  have htext : fs.line.mode.inText = true := by rw [hmode]; rfl
  have hkept : Kept M fs c := by simp [Kept, HandsOver, EndsDirective, hmode]
  have hstep : ∃ mode : Mode, mode.inText = true ∧
      parseStep (macroWorld M).toWorld fs.line c = (putChunk fs.line c mode, false) := by
    simp only [parseStep, hmode, Bool.false_eq_true, if_false]
    refine ⟨_, ?_, rfl⟩
    split
    · rfl
    split <;> rfl
  obtain ⟨mode, hmode', hstep⟩ := hstep
  exact counts_copy htext hstep hmode' rfl rfl hkept

theorem counts_percent (hmode : fs.line.mode = .percent) (hplain : StepPlain M fs c) :
    Counts M fs c := by
  have hne : fs.line.mode ≠ .swigBlock := hmode.trans_ne (by decide)
  have htext : fs.line.mode.inText = true := by rw [hmode]; rfl
  -- The chunk is handed over, and another one begins.
  have hover : HandsOver fs c → ∀ (line : ParseState σ),
      parseStep (macroWorld M).toWorld fs.line c = (line, false) → line.mode.inText = true →
      line.ns = (addChunk (macroWorld M).toWorld fs.line).ns → lineCount line.chunk = 0 →
      c ≠ '\n' → Counts M fs c := by
    intro hover line hstep hline hns hchunk hc
    have hkept : Kept M fs c ↔ ChunkKept fs.line fs.line.chunk := by
      simp [Kept, EndsDirective, hmode, hover]
    refine counts_text (read_taken hne hstep (inText_only hline).2.2.2.1) htext hline ?_
    rw [hkept, ← addChunk_kept_iff (hplain.chunk hover), lineCount_of_ne hc]
    show lineCount line.ns + lineCount line.chunk = _ ↔ _
    rw [hns, hchunk]
    exact Iff.rfl
  by_cases hbrace : c = '{'
  · have hstep : parseStep (macroWorld M).toWorld fs.line c =
        (putChunk (putChunk (addChunk (macroWorld M).toWorld fs.line) '%' .code) c .code,
          false) := by
      simp only [parseStep, hmode, if_pos hbrace]
    refine hover ?_ _ hstep rfl rfl ?_ (by rw [hbrace]; decide)
    · rw [HandsOver, hmode]
      exact .inl hbrace
    · rw [hbrace]
      rfl
  by_cases hhash : c = '#'
  · have hstep : parseStep (macroWorld M).toWorld fs.line c =
        (putChunk (addChunk (macroWorld M).toWorld fs.line) c .embedded, false) := by
      simp only [parseStep, hmode, if_neg hbrace, if_pos hhash]
    refine hover ?_ _ hstep rfl rfl ?_ (by rw [hhash]; decide)
    · rw [HandsOver, hmode]
      exact .inr hhash
    · rw [hhash]
      rfl
  have hkept : Kept M fs c := by simp [Kept, HandsOver, EndsDirective, hmode, hbrace, hhash]
  by_cases hid : isIdentifier c = true
  · have hstep : parseStep (macroWorld M).toWorld fs.line c =
        ({ fs.line with decl := ['%', c], mode := .swigName }, false) := by
      simp only [parseStep, hmode, if_neg hbrace, if_neg hhash, if_pos hid]
    have hc : c ≠ '\n' := by rintro rfl; exact absurd hid (by decide)
    rw [Counts, read_taken hne hstep (by intro h; cases h)]
    refine ⟨tidy_of_name rfl ?_, fun _ => hkept, fun _ => ?_⟩
    · show lineCount ['%', c] = 0
      rw [lineCount_cons, lineCount_of_ne hc]
      rfl
    · rw [balance_of_inText htext, lineCount_of_ne hc]
      exact balance_outside rfl (by intro h; cases h)
  · have hstep : parseStep (macroWorld M).toWorld fs.line c =
        (putChunk (putChunk fs.line '%' .text) c .text, false) := by
      simp only [parseStep, hmode, if_neg hbrace, if_neg hhash, if_neg hid]
    refine counts_put (read_taken hne hstep (by intro h; cases h)) htext rfl rfl ?_ hkept
    show lineCount ((fs.line.chunk ++ ['%']) ++ [c]) = _
    rw [lineCount_append, lineCount_append]
    rfl

theorem counts_code (hmode : fs.line.mode = .code) : Counts M fs c := by
  have htext : fs.line.mode.inText = true := by rw [hmode]; rfl
  have hkept : Kept M fs c := by simp [Kept, HandsOver, EndsDirective, hmode]
  have hstep : parseStep (macroWorld M).toWorld fs.line c =
      (putChunk fs.line c (if c = '%' then .codePercent else .code), false) := by
    simp only [parseStep, hmode]
  exact counts_copy htext hstep (by show (if _ then _ else _ : Mode).inText = true; split <;> rfl)
    rfl rfl hkept

theorem nullFree_append {s : List Char} (hc : c ≠ '\n') : NullFree (s ++ [c]) ↔ NullFree s := by
  rw [NullFree, NullFree, List.dropWhile_append, not_iff_not]
  split
  · rename_i hempty
    rw [List.isEmpty_iff.1 hempty]
    have htail : '\n' ∉ [c].dropWhile (· ≠ '\x00') := fun h =>
      hc (List.mem_singleton.1 ((List.dropWhile_sublist _).subset h)).symm
    exact ⟨fun h => absurd h htail, fun h => absurd h List.not_mem_nil⟩
  · rw [List.mem_append, List.mem_singleton]
    exact or_iff_left (Ne.symm hc)

theorem counts_codePercent (hmode : fs.line.mode = .codePercent) : Counts M fs c := by
  have hne : fs.line.mode ≠ .swigBlock := hmode.trans_ne (by decide)
  have htext : fs.line.mode.inText = true := by rw [hmode]; rfl
  by_cases hc : c = '}'
  · have hstep : parseStep (macroWorld M).toWorld fs.line c =
        ({ putChunk fs.line c .code with
            ns := addLine fs.line.ns (fs.line.chunk ++ [c]) fs.line.cond.allow
            chunk := [], mode := .text }, false) := by
      simp only [parseStep, hmode, if_pos hc]
      rfl
    have hnl : c ≠ '\n' := by rw [hc]; decide
    have hkept : Kept M fs c ↔ ChunkKept fs.line (fs.line.chunk ++ [c]) := by
      simp only [Kept, HandsOver, EndsDirective, hmode, hc, true_imp_iff, and_false, false_imp_iff,
        true_and, ChunkKept]
      rw [nullFree_append (by decide)]
    refine counts_text (read_taken hne hstep (by intro h; cases h)) htext rfl ?_
    rw [hkept, ChunkKept, ← addLine_kept_iff fs.line.ns, lineCount_append, ← Nat.add_assoc]
    exact Iff.rfl
  · have hkept : Kept M fs c := by simp [Kept, HandsOver, EndsDirective, hmode, hc]
    have hstep : parseStep (macroWorld M).toWorld fs.line c = (putChunk fs.line c .code, false) := by
      simp only [parseStep, hmode, if_neg hc]
    exact counts_copy htext hstep rfl rfl rfl hkept

theorem counts_embedded (hmode : fs.line.mode = .embedded) : Counts M fs c := by
  have hne : fs.line.mode ≠ .swigBlock := hmode.trans_ne (by decide)
  have htext : fs.line.mode.inText = true := by rw [hmode]; rfl
  by_cases hc : c = '\n'
  · have hstep : parseStep (macroWorld M).toWorld fs.line c =
        ({ putChunk fs.line c .embedded with
            ns := addLine fs.line.ns (fs.line.chunk ++ [c]) fs.line.cond.allow
            chunk := [], mode := .start }, false) := by
      simp only [parseStep, hmode, if_pos hc]
      rfl
    have hkept : Kept M fs c ↔ ChunkKept fs.line (fs.line.chunk ++ [c]) := by
      simp [Kept, HandsOver, EndsDirective, hmode, hc]
    refine counts_text (read_taken hne hstep (by intro h; cases h)) htext rfl ?_
    rw [hkept, ChunkKept, ← addLine_kept_iff fs.line.ns, lineCount_append, ← Nat.add_assoc]
    exact Iff.rfl
  · have hkept : Kept M fs c := by simp [Kept, HandsOver, EndsDirective, hmode, hc]
    have hstep : ∃ mode : Mode, mode.inText = true ∧
        parseStep (macroWorld M).toWorld fs.line c = (putChunk fs.line c mode, false) := by
      simp only [parseStep, hmode, if_neg hc]
      split
      · exact ⟨.embeddedBackslash, rfl, rfl⟩
      · exact ⟨.embedded, rfl, rfl⟩
    obtain ⟨mode, hmode', hstep⟩ := hstep
    exact counts_copy htext hstep hmode' rfl rfl hkept

/-! ## SWIG directives -/

/-- In the body of a block. -/
def blockBreaks (fs : FileState σ) : Nat :=
  lineCount fs.line.chunk + if fs.inDefine then lineCount fs.line.value else 0

theorem balance_of_block {fs : FileState σ} (hmode : fs.line.mode = .swigBlock)
    (hpart : fs.part.ofBlock = true) : balance fs = lineCount fs.line.ns + blockBreaks fs := by
  have hblock : fs.inDefineBlock = fs.inDefine := by
    rw [FileState.inDefineBlock, hmode, hpart]
    rfl
  have hvalue : fs.line.mode.inValue = false := by rw [hmode]; rfl
  rw [balance, hvalue, if_neg Bool.false_ne_true, hblock, blockBreaks, Nat.add_assoc]

/-- A character of the body of a block. -/
theorem putBlock_balance {part : BlockPart} (hmode : fs.line.mode = .swigBlock)
    (hpart : fs.part.ofBlock = true) (hpart' : part.ofBlock = true) :
    balance (fs.putBlock c part) = balance fs + lineCount [c] := by
  have hmode' : (fs.putBlock c part).line.mode = .swigBlock := by
    rw [← hmode]
    simp only [FileState.putBlock]
    split <;> rfl
  rw [balance_of_block hmode hpart, balance_of_block hmode' hpart']
  by_cases hdefine : fs.inDefine = true
  · have hput : fs.putBlock c part =
        { fs with line := { fs.line with value := fs.line.value ++ [c] }, part := part } := by
      simp only [FileState.putBlock, if_pos hdefine]
    have hdefine' : (fs.putBlock c part).inDefine = true := by rw [hput]; exact hdefine
    rw [blockBreaks, blockBreaks, if_pos hdefine, if_pos hdefine', hput]
    show lineCount fs.line.ns +
      (lineCount fs.line.chunk + lineCount (fs.line.value ++ [c])) = _
    rw [lineCount_append]
    omega
  · have hput : fs.putBlock c part =
        { fs with line := { fs.line with chunk := fs.line.chunk ++ [c] }, part := part } := by
      simp only [FileState.putBlock, if_neg hdefine]
    have hdefine' : ¬ (fs.putBlock c part).inDefine = true := by rw [hput]; exact hdefine
    rw [blockBreaks, blockBreaks, if_neg hdefine, if_neg hdefine', hput]
    show lineCount fs.line.ns + (lineCount (fs.line.chunk ++ [c]) + 0) = _
    rw [lineCount_append]
    omega

theorem tidy_putBlock {part : BlockPart} (hmode : fs.line.mode = .swigBlock)
    (hstatement : fs.inDefine = true → ∀ read, part = .statement read ∨ part = .statementEnd read →
      ∃ w, fs.line.value ++ [c] = w ++ '%' :: read)
    (hending : ∀ read, part = .statementEnd read → read = fs.opener ∨ read = fs.closer) :
    Tidy (fs.putBlock c part) := by
  have hmode' : (fs.putBlock c part).line.mode = .swigBlock := by
    rw [← hmode]
    simp only [FileState.putBlock]
    split <;> rfl
  have hdecl : (fs.putBlock c part).line.decl = fs.line.decl := by
    simp only [FileState.putBlock]
    split <;> rfl
  have hdefine : (fs.putBlock c part).inDefine = fs.inDefine := by
    rw [FileState.inDefine, hdecl, FileState.inDefine]
  constructor
  · intro h
    rw [hmode'] at h
    cases h
  · intro h
    rw [hmode'] at h
    cases h
  · rw [hmode']
    intro h; cases h
  · intro _ hin read hread
    rw [hdefine] at hin
    have hput : (fs.putBlock c part).line.value = fs.line.value ++ [c] := by
      simp only [FileState.putBlock, if_pos hin]
    rw [hput]
    exact hstatement hin read hread
  · intro _ read hread
    rw [FileState.opener, FileState.closer, hdefine]
    exact hending read hread
  · intro h
    rw [hmode'] at h
    cases h

/-- The body of a block, at its next character. -/
theorem read_body {n : Nat} (hmode : fs.line.mode = .swigBlock) (hpart : fs.part = .body) :
    Tidy (readFileChar (macroWorld M) (n + 1) fs c) ∧
      balance (readFileChar (macroWorld M) (n + 1) fs c) = balance fs + lineCount [c] := by
  have hstep : fileStep (macroWorld M) fs c =
      (fs.putBlock c (if c = '%' then .statement [] else .body), false) := by
    rw [fileStep_block hmode, blockStep, hpart]
  rw [readFileChar_taken hstep]
  refine ⟨tidy_putBlock hmode ?_ ?_, putBlock_balance hmode (by rw [hpart]; rfl) (by split <;> rfl)⟩
  · intro _ read hread
    by_cases hc : c = '%'
    · rw [if_pos hc] at hread
      rcases hread with hread | hread
      · obtain rfl := BlockPart.statement.inj hread
        exact ⟨fs.line.value, by rw [hc]⟩
      · cases hread
    · rw [if_neg hc] at hread
      rcases hread with hread | hread <;> cases hread
  · intro read hread
    split at hread <;> cases hread

theorem counts_body (hmode : fs.line.mode = .swigBlock) (hpart : fs.part = .body) :
    Counts M fs c := by
  have hkept : Kept M fs c := by simp [Kept, HandsOver, EndsDirective, hmode, hpart]
  obtain ⟨htidy, hbalance⟩ := read_body (M := M) (c := c) (n := 2) hmode hpart
  exact ⟨htidy, fun _ => hkept, fun _ => hbalance⟩

theorem counts_statement {read : List Char} (hmode : fs.line.mode = .swigBlock)
    (hpart : fs.part = .statement read) (htidy : Tidy fs) : Counts M fs c := by
  have hkept : Kept M fs c := by simp [Kept, HandsOver, EndsDirective, hmode, hpart]
  have hstep : ∃ part : BlockPart, fileStep (macroWorld M) fs c = (fs.putBlock c part, false) ∧
      part.ofBlock = true ∧ (∀ r, part = .statement r ∨ part = .statementEnd r → r = read ++ [c]) ∧
      ∀ r, part = .statementEnd r → r = fs.opener ∨ r = fs.closer := by
    rw [fileStep_block hmode, blockStep.eq_def]
    simp only [hpart]
    refine ⟨_, rfl, ?_⟩
    split
    · rename_i hword
      refine ⟨rfl, ?_, ?_⟩
      · rintro r (h | h)
        · cases h
        · exact (BlockPart.statementEnd.inj h).symm
      · intro r h
        rw [← BlockPart.statementEnd.inj h]
        exact hword.symm
    split
    · refine ⟨rfl, ?_, by intro r h; cases h⟩
      rintro r (h | h)
      · exact (BlockPart.statement.inj h).symm
      · cases h
    · refine ⟨rfl, ?_, by intro r h; cases h⟩
      rintro r (h | h) <;> cases h
  obtain ⟨part, hstep, hblock, hread, hending⟩ := hstep
  rw [Counts, readFileChar_taken hstep]
  refine ⟨tidy_putBlock hmode ?_ hending, fun _ => hkept, fun _ =>
    putBlock_balance hmode (by rw [hpart]; rfl) hblock⟩
  intro hin r hr
  obtain ⟨w, hw⟩ := htidy.statement hmode hin read (.inl hpart)
  rw [hread r hr]
  exact ⟨w, by rw [hw, List.append_assoc]; rfl⟩

theorem closer_length (fs : FileState σ) (h : fs.inDefine = true) : fs.closer.length = 6 := by
  rw [FileState.closer, if_pos h]
  rfl

/-- A level of a block that goes on. -/
theorem read_level {n : Nat} (hmode : fs.line.mode = .swigBlock) (hpart : fs.part.ofBlock = true)
    {fs' : FileState σ} (hline : fs'.line = fs.line) (hpart' : fs'.part = .body) :
    Tidy (readFileChar (macroWorld M) (n + 1) fs' c) ∧
      balance (readFileChar (macroWorld M) (n + 1) fs' c) = balance fs + lineCount [c] := by
  have hmode' : fs'.line.mode = .swigBlock := by rw [hline, hmode]
  obtain ⟨htidy, hbalance⟩ := read_body (M := M) (c := c) (n := n) hmode' hpart'
  have hsame : balance fs' = balance fs := by
    rw [balance_of_block hmode hpart, balance_of_block hmode' (by rw [hpart']; rfl), blockBreaks,
      blockBreaks, FileState.inDefine, FileState.inDefine, hline]
  rw [hsame] at hbalance
  exact ⟨htidy, hbalance⟩

theorem space_textMode {c : Char} (hspace : isSpace c = true) : c ≠ '%' ∧ c ≠ '#' := by
  constructor
  · rintro rfl
    exact absurd hspace (by decide)
  · rintro rfl
    exact absurd hspace (by decide)

/-- The end of a `%define`, at the white space behind it. -/
theorem counts_enddef {read : List Char} (hmode : fs.line.mode = .swigBlock)
    (hpart : fs.part = .statementEnd read) (htidy : Tidy fs) (hspace : isSpace c = true)
    (hopener : read ≠ fs.opener) (hdefine : fs.inDefine = true) (hlevel : fs.dlevel ≤ 1) :
    Counts M fs c := by
  have hkept : Kept M fs c ↔ NullFree (fs.line.value.take (fs.line.value.length - 7)) := by
    simp [Kept, HandsOver, EndsDirective, hmode, hpart, hspace, hopener, hdefine, hlevel]
  obtain ⟨w, hw⟩ := htidy.statement hmode hdefine read (.inr hpart)
  have hcloser : read = fs.closer := (htidy.ending hmode read hpart).resolve_left hopener
  have hlength : read.length = 6 := by rw [hcloser, closer_length fs hdefine]
  have htake : fs.line.value.take (fs.line.value.length - 7) = w := by
    rw [hw, List.length_append, List.length_cons, hlength]
    exact List.take_left' (by omega)
  have hvalue : lineCount fs.line.value = lineCount w := by
    have hword : lineCount ('%' :: read) = 0 := by
      rw [hcloser, FileState.closer, if_pos hdefine]
      rfl
    rw [hw, lineCount_append, hword]
    rfl
  have hstep : fileStep (macroWorld M) fs c =
      (closeBlock (macroWorld M) { fs with part := .body, dlevel := fs.dlevel - 1 }, true) := by
    have hend : endStatement (macroWorld M) fs read =
        closeBlock (macroWorld M) { fs with part := .body, dlevel := fs.dlevel - 1 } := by
      have hdefine' : ({ fs with part := .body } : FileState σ).inDefine = true := hdefine
      have hopener' : read ≠ ({ fs with part := .body } : FileState σ).opener := hopener
      have hzero : fs.dlevel - 1 = 0 := by omega
      rw [endStatement]
      simp only [if_neg hopener', if_pos hdefine']
      have hdefine'' : ({ fs with part := .body, dlevel := fs.dlevel - 1 } :
          FileState σ).inDefine = true := hdefine
      rw [if_pos hdefine'', if_pos hzero]
    rw [fileStep_block hmode, blockStep.eq_def]
    simp only [hpart, if_pos hspace, hend]
  obtain ⟨hpercent, hhash⟩ := space_textMode hspace
  have hread : ∃ line : ParseState σ, readFileChar (macroWorld M) 3 fs c =
      { fs with line := line, part := .body, dlevel := fs.dlevel - 1 } ∧ line.mode = .start ∧
        line.ns = addLine fs.line.ns w false ∧ line.chunk = fs.line.chunk ++ [c] := by
    have hclose : ∃ line : ParseState σ, closeBlock (macroWorld M)
        { fs with part := .body, dlevel := fs.dlevel - 1 } =
          { fs with line := line, part := .body, dlevel := fs.dlevel - 1 } ∧ line.mode = .start ∧
            line.ns = addLine fs.line.ns w false ∧ line.chunk = fs.line.chunk := by
      have hdefine' : FileState.inDefine { fs with part := .body, dlevel := fs.dlevel - 1 } =
          true := hdefine
      rw [closeBlock, if_pos hdefine']
      exact ⟨_, rfl, rfl, by rw [← htake], rfl⟩
    obtain ⟨line, hclose, hstart, hns, hchunk⟩ := hclose
    have hput : parseStep (macroWorld M).toWorld line c = (putChunk line c .start, false) := by
      simp only [parseStep, hstart, if_neg hhash, if_pos hspace]
    have hput' : (putChunk line c .start).mode ≠ .swigBlock := (by intro h; cases h)
    rw [readFileChar_again hstep, hclose, readFileChar_taken (fileStep_line
      (hstart.trans_ne (by decide)) hput hput')]
    exact ⟨_, rfl, rfl, hns, by rw [← hchunk]; rfl⟩
  obtain ⟨line, hread, hstart, hns, hchunk⟩ := hread
  rw [Counts, hread, hkept, htake]
  have htext : ({ fs with line := line, part := .body, dlevel := fs.dlevel - 1 } :
      FileState σ).line.mode.inText = true := by
    show line.mode.inText = true
    rw [hstart]
    rfl
  refine ⟨tidy_of_inText htext, ?_⟩
  rw [balance_of_inText htext, balance_of_block hmode (by rw [hpart]; rfl), blockBreaks,
    if_pos hdefine, hvalue]
  have hadd := addLine_kept_iff fs.line.ns w false
  have hall : (false = false → NullFree w) ↔ NullFree w := by simp
  rw [← hall, ← hadd]
  show lineCount line.ns + lineCount line.chunk = _ ↔ _
  rw [hns, hchunk, lineCount_append]
  omega

/-- The end of a `%beginfile`. -/
theorem counts_endoffile {read : List Char} (hmode : fs.line.mode = .swigBlock)
    (hpart : fs.part = .statementEnd read) (hspace : isSpace c = true)
    (hopener : read ≠ fs.opener) (hdefine : fs.inDefine = false) (hlevel : fs.filelevel ≤ 1) :
    Counts M fs c := by
  have hkept : Kept M fs c ↔ ChunkKept fs.line fs.line.chunk := by
    simp [Kept, HandsOver, EndsDirective, hmode, hpart, hspace, hopener, hdefine, hlevel]
  have hno : ¬ fs.inDefine = true := by rw [hdefine]; exact Bool.false_ne_true
  have hstep : fileStep (macroWorld M) fs c =
      (closeBlock (macroWorld M) { fs with part := .body, filelevel := fs.filelevel - 1 },
        true) := by
    have hend : endStatement (macroWorld M) fs read =
        closeBlock (macroWorld M) { fs with part := .body, filelevel := fs.filelevel - 1 } := by
      have hdefine' : ¬ ({ fs with part := .body } : FileState σ).inDefine = true := hno
      have hopener' : read ≠ ({ fs with part := .body } : FileState σ).opener := hopener
      have hzero : fs.filelevel - 1 = 0 := by omega
      rw [endStatement]
      simp only [if_neg hopener', if_neg hdefine']
      have hdefine'' : ¬ ({ fs with part := .body, filelevel := fs.filelevel - 1 } :
          FileState σ).inDefine = true := hno
      rw [if_neg hdefine'', if_pos hzero]
    rw [fileStep_block hmode, blockStep.eq_def]
    simp only [hpart, if_pos hspace, hend]
  obtain ⟨hpercent, hhash⟩ := space_textMode hspace
  have hclose : closeBlock (macroWorld M) { fs with part := .body, filelevel := fs.filelevel - 1 } =
      ({ fs with part := .body, filelevel := fs.filelevel - 1 } : FileState σ).withLine
        { fs.line with
          ns := addLine fs.line.ns fs.line.chunk fs.line.cond.allow, chunk := [], mode := .text } := by
    rw [closeBlock]
    exact if_neg hno
  have hread : readFileChar (macroWorld M) 3 fs c =
      ({ fs with part := .body, filelevel := fs.filelevel - 1 } : FileState σ).withLine
        (afterText { fs.line with
          ns := addLine fs.line.ns fs.line.chunk fs.line.cond.allow, chunk := [], mode := .text } c) := by
    rw [readFileChar_again hstep, hclose, read_text rfl]
    rfl
  rw [Counts, hread, hkept]
  have htext := textMode_inText c
  refine ⟨tidy_of_inText htext, ?_⟩
  rw [balance_of_inText htext, balance_of_block hmode (by rw [hpart]; rfl), blockBreaks,
    if_neg hno, ChunkKept, ← addLine_kept_iff fs.line.ns]
  show lineCount (addLine fs.line.ns fs.line.chunk fs.line.cond.allow) +
    lineCount (afterText _ c).chunk = _ ↔ _
  rw [afterText_chunk]
  show _ + (lineCount [] + _) = _ ↔ _
  have hnil : lineCount [] = 0 := rfl
  rw [hnil]
  omega

theorem counts_statementEnd {read : List Char} (hmode : fs.line.mode = .swigBlock)
    (hpart : fs.part = .statementEnd read) (htidy : Tidy fs) : Counts M fs c := by
  have hof : fs.part.ofBlock = true := by rw [hpart]; rfl
  -- The block goes on.
  have hgoes : ∀ fs', fileStep (macroWorld M) fs c = (fs', true) → fs'.line = fs.line →
      fs'.part = .body → Kept M fs c → Counts M fs c := by
    intro fs' hstep hline hbody hkept
    obtain ⟨htidy', hbalance⟩ := read_level (M := M) (c := c) (n := 1) hmode hof hline hbody
    rw [Counts, readFileChar_again hstep]
    exact ⟨htidy', fun _ => hkept, fun _ => hbalance⟩
  by_cases hspace : isSpace c = true
  · have hstep : fileStep (macroWorld M) fs c = (endStatement (macroWorld M) fs read, true) := by
      rw [fileStep_block hmode, blockStep.eq_def]
      simp only [hpart, if_pos hspace]
    by_cases hopener : read = fs.opener
    · have hkept : Kept M fs c := by
        simp [Kept, HandsOver, EndsDirective, hmode, hpart, hopener]
      have hend : (endStatement (macroWorld M) fs read).line = fs.line ∧
          (endStatement (macroWorld M) fs read).part = .body := by
        have hopener' : read = ({ fs with part := .body } : FileState σ).opener := hopener
        rw [endStatement]
        simp only [if_pos hopener']
        split <;> exact ⟨rfl, rfl⟩
      exact hgoes _ hstep hend.1 hend.2 hkept
    · cases hdefine : fs.inDefine
      case true =>
        by_cases hlevel : fs.dlevel ≤ 1
        · exact counts_enddef hmode hpart htidy hspace hopener hdefine hlevel
        · have hkept : Kept M fs c := by
            simp [Kept, HandsOver, EndsDirective, hmode, hpart, hdefine, hlevel]
          have hend : endStatement (macroWorld M) fs read =
              { fs with part := .body, dlevel := fs.dlevel - 1 } := by
            have hopener' : read ≠ ({ fs with part := .body } : FileState σ).opener := hopener
            have hdefine' : ({ fs with part := .body } : FileState σ).inDefine = true := hdefine
            have hdefine'' : ({ fs with part := .body, dlevel := fs.dlevel - 1 } :
                FileState σ).inDefine = true := hdefine
            have hzero : fs.dlevel - 1 ≠ 0 := by omega
            rw [endStatement]
            simp only [if_neg hopener', if_pos hdefine']
            rw [if_pos hdefine'', if_neg hzero]
          rw [hend] at hstep
          exact hgoes _ hstep rfl rfl hkept
      case false =>
        by_cases hlevel : fs.filelevel ≤ 1
        · exact counts_endoffile hmode hpart hspace hopener hdefine hlevel
        · have hkept : Kept M fs c := by
            simp [Kept, HandsOver, EndsDirective, hmode, hpart, hdefine, hlevel]
          have hno : ¬ fs.inDefine = true := by rw [hdefine]; exact Bool.false_ne_true
          have hend : endStatement (macroWorld M) fs read =
              { fs with part := .body, filelevel := fs.filelevel - 1 } := by
            have hopener' : read ≠ ({ fs with part := .body } : FileState σ).opener := hopener
            have hdefine' : ¬ ({ fs with part := .body } : FileState σ).inDefine = true := hno
            have hdefine'' : ¬ ({ fs with part := .body, filelevel := fs.filelevel - 1 } :
                FileState σ).inDefine = true := hno
            have hzero : fs.filelevel - 1 ≠ 0 := by omega
            rw [endStatement]
            simp only [if_neg hopener', if_neg hdefine']
            rw [if_neg hdefine'', if_neg hzero]
          rw [hend] at hstep
          exact hgoes _ hstep rfl rfl hkept
  · have hkept : Kept M fs c := by
      simp [Kept, HandsOver, EndsDirective, hmode, hpart, hspace]
    have hstep : fileStep (macroWorld M) fs c = ({ fs with part := .body }, true) := by
      rw [fileStep_block hmode, blockStep.eq_def]
      simp only [hpart, if_neg hspace]
    exact hgoes _ hstep rfl rfl hkept

theorem counts_nameGoesOn (hmode : fs.line.mode = .swigName) (htidy : Tidy fs)
    (hid : isIdChar c = true) : Counts M fs c := by
  have hne : fs.line.mode ≠ .swigBlock := hmode.trans_ne (by decide)
  have hkept : Kept M fs c := by simp [Kept, HandsOver, EndsDirective, hmode, hid]
  have hc : c ≠ '\n' := by rintro rfl; exact absurd hid (by decide)
  have hstep : parseStep (macroWorld M).toWorld fs.line c =
      ({ fs.line with decl := fs.line.decl ++ [c] }, false) := by
    simp [parseStep, hmode, hid]
  rw [Counts, read_taken hne hstep hne]
  refine ⟨tidy_of_name hmode ?_, fun _ => hkept, fun _ => ?_⟩
  · show lineCount (fs.line.decl ++ [c]) = 0
    rw [lineCount_append, htidy.decl hmode, lineCount_of_ne hc]
  · rw [balance_outside (by rw [hmode]; rfl) hne, lineCount_of_ne hc]
    exact balance_outside (by rw [FileState.withLine, hmode]; rfl) hne

/-- The character behind a name is read as text. -/
theorem counts_behindName (line : ParseState σ)
    (hread : readFileChar (macroWorld M) 3 fs c = fs.withLine (afterText line c))
    (hmode : fs.line.mode = .swigName) (hns : line.ns = fs.line.ns)
    (hchunk : lineCount line.chunk = lineCount fs.line.chunk) (hkept : Kept M fs c) :
    Counts M fs c := by
  rw [Counts, hread]
  refine ⟨tidy_of_inText (textMode_inText c), fun _ => hkept, fun _ => ?_⟩
  rw [balance_outside (by rw [hmode]; rfl) (hmode.trans_ne (by decide)),
    balance_of_inText (textMode_inText c)]
  show lineCount line.ns + lineCount (afterText line c).chunk = _
  rw [afterText_chunk, hns, hchunk]
  omega

/-- The name of a directive with a block. -/
theorem counts_blockName (hmode : fs.line.mode = .swigName) (htidy : Tidy fs)
    (hplain : StepPlain M fs c) (hid : isIdChar c = false)
    (hdirective : fs.line.decl ∈ blockDirectives) : Counts M fs c := by
  have hne : fs.line.mode ≠ .swigBlock := hmode.trans_ne (by decide)
  have hfile : fileStep (macroWorld M) fs c =
      (openBlock (macroWorld M) (fs.withLine { fs.line with mode := .swigBlock }), true) := by
    simp [fileStep, parseStep, hmode, hid, swigDirective, if_pos hdirective]
  -- The chunk is handed over, and a block begins.
  have hopen : fs.inDefine = true ∨ fs.inBeginfile = true → ∀ fs' : FileState σ,
      openBlock (macroWorld M) (fs.withLine { fs.line with mode := .swigBlock }) = fs' →
      fs'.line.mode = .swigBlock → fs'.part = .body →
      fs'.line.ns = (addChunk (macroWorld M).toWorld fs.line).ns → blockBreaks fs' = 0 →
      Counts M fs c := by
    intro hblock fs' hfs' hm hpart hns hbreaks
    have hover : HandsOver fs c := by
      rw [HandsOver, hmode]
      exact ⟨hid, hblock⟩
    have hkept : Kept M fs c ↔ ChunkKept fs.line fs.line.chunk := by
      simp [Kept, EndsDirective, hmode, hover]
    obtain ⟨htidy', hbalance⟩ := read_body (M := M) (c := c) (n := 1) hm hpart
    rw [Counts, readFileChar_again hfile, hfs', hbalance, hkept,
      ← addChunk_kept_iff (hplain.chunk hover), balance_outside (by rw [hmode]; rfl) hne,
      balance_of_block hm (by rw [hpart]; rfl), hns, hbreaks]
    exact ⟨htidy', by omega⟩
  by_cases hbegin : fs.inBeginfile = true
  · have hbegin' : (fs.withLine { fs.line with mode := .swigBlock }).inBeginfile = true := hbegin
    have hdecl' : fs.line.decl = "%beginfile".toList := of_decide_eq_true hbegin
    refine hopen (.inr hbegin) _ (by rw [openBlock, if_pos hbegin']) rfl rfl rfl ?_
    rw [blockBreaks, FileState.inDefine]
    show lineCount fs.line.decl + (if decide (fs.line.decl = "%define".toList) then _ else 0) = 0
    rw [htidy.decl hmode, hdecl', decide_eq_false (by decide)]
    rfl
  have hbegin' : ¬ (fs.withLine { fs.line with mode := .swigBlock }).inBeginfile = true := hbegin
  by_cases hdefine : fs.inDefine = true
  · have hdefine' : (fs.withLine { fs.line with mode := .swigBlock }).inDefine = true := hdefine
    refine hopen (.inl hdefine) _ (by rw [openBlock, if_neg hbegin', if_pos hdefine']) rfl rfl
      rfl ?_
    rw [blockBreaks]
    show 0 + (if _ then 0 else 0) = 0
    split <;> rfl
  have hdefine' : ¬ (fs.withLine { fs.line with mode := .swigBlock }).inDefine = true := hdefine
  by_cases hallow : fs.line.cond.allow = true
  · -- An inclusion.
    exfalso
    have hallow' : (fs.withLine { fs.line with mode := .swigBlock }).line.cond.allow = true :=
      hallow
    obtain ⟨fs', hfs', hm, hpart⟩ : ∃ fs', openBlock (macroWorld M)
        (fs.withLine { fs.line with mode := .swigBlock }) = fs' ∧
          fs'.line.mode = .swigBlock ∧ fs'.part = .optionsBlank := by
      rw [openBlock, if_neg hbegin', if_neg hdefine', if_pos hallow']
      exact ⟨_, rfl, rfl, rfl⟩
    obtain ⟨hblock, hpart'⟩ :=
      readFile_blank (W := macroWorld M) (c := c) (n := 1) hm (.inl hpart)
    have hbehind := hplain.behind
    rw [readFileChar_again hfile, hfs', FileState.inInclusion, hblock, hpart'] at hbehind
    cases hbehind
  · have hallow' : ¬ (fs.withLine { fs.line with mode := .swigBlock }).line.cond.allow = true :=
      hallow
    have hopen' : openBlock (macroWorld M) (fs.withLine { fs.line with mode := .swigBlock }) =
        fs.withLine { fs.line with mode := .text } := by
      rw [openBlock, if_neg hbegin', if_neg hdefine', if_neg hallow']
      rfl
    refine counts_behindName { fs.line with mode := .text } ?_ hmode rfl rfl
      (by simp [Kept, HandsOver, EndsDirective, hmode, hbegin, hdefine])
    rw [readFileChar_again hfile, hopen', read_text rfl]
    rfl

/-- The name of a SWIG directive at its end. -/
theorem counts_swigName (hmode : fs.line.mode = .swigName) (htidy : Tidy fs)
    (hplain : StepPlain M fs c) : Counts M fs c := by
  by_cases hid : isIdChar c = true
  · exact counts_nameGoesOn hmode htidy hid
  rw [Bool.not_eq_true] at hid
  by_cases hdirective : fs.line.decl ∈ blockDirectives
  · exact counts_blockName hmode htidy hplain hid hdirective
  -- The word is text, or `%line`.
  have hkept : Kept M fs c := by
    have hblock : ¬ (fs.inDefine = true ∨ fs.inBeginfile = true) := by
      rintro (h | h)
      · exact hdirective (by rw [of_decide_eq_true h]; simp [blockDirectives])
      · exact hdirective (by rw [of_decide_eq_true h]; simp [blockDirectives])
    rw [not_or, Bool.not_eq_true, Bool.not_eq_true] at hblock
    simp [Kept, HandsOver, EndsDirective, hmode, hblock.1, hblock.2]
  obtain ⟨s, hswig, hs⟩ : ∃ s, swigDirective fs.line =
      { fs.line with chunk := fs.line.chunk ++ s, mode := .text } ∧ lineCount s = 0 := by
    rw [swigDirective, if_neg hdirective]
    split
    · exact ⟨[], by rw [List.append_nil], rfl⟩
    · exact ⟨fs.line.decl, rfl, htidy.decl hmode⟩
  have hstep : parseStep (macroWorld M).toWorld fs.line c =
      ({ fs.line with chunk := fs.line.chunk ++ s, mode := .text }, true) := by
    simp [parseStep, hmode, hid, hswig]
  exact counts_behindName _ (read_back (hmode.trans_ne (by decide)) hstep rfl) hmode rfl
    ((lineCount_append _ s).trans (by rw [hs, add_zero])) hkept

/-! ## Directives -/

/-- A step inside a directive, behind its name. -/
theorem counts_value {line : ParseState σ}
    (hread : readFileChar (macroWorld M) 3 fs c = fs.withLine line)
    (hbefore : balance fs = lineCount line.ns + lineCount line.chunk +
      (lineCount line.value + lineCount line.comment) - lineCount [c])
    (hless : lineCount [c] ≤ lineCount line.value + lineCount line.comment)
    (hmode : line.mode.inValue = true)
    (htidy : line.chunk = [] ∧ 1 ≤ line.cppLines ∧ line.cppLines ≤ lineCount line.value + 1)
    (hkept : Kept M fs c) : Counts M fs c := by
  have hmode' : (fs.withLine line).line.mode.inValue = true := hmode
  have hnot : ∀ mode : Mode, mode.inValue = false → line.mode ≠ mode := by
    intro mode hm h
    rw [h, hm] at hmode
    cases hmode
  rw [Counts, hread]
  refine ⟨⟨fun h => ?_, fun _ => htidy, hnot _ rfl, fun h => absurd h (hnot _ rfl),
    fun h => absurd h (hnot _ rfl), fun h => absurd h (hnot _ rfl)⟩, fun _ => hkept, fun _ => ?_⟩
  · rw [(inHead_only h).1] at hmode'
    cases hmode'
  · rw [hbefore, balance_of_inValue hmode']
    show lineCount line.ns + lineCount line.chunk +
      (lineCount line.value + lineCount line.comment) = _
    omega

theorem valueMode_inValue (c : Char) : (valueMode c).inValue = true := by
  rw [valueMode]
  repeat' split
  all_goals rfl

theorem readValue_line (line : ParseState σ) (hc : c ≠ '\n') :
    readValue line c =
      ({ line with value := line.value ++ (if c = '/' then [] else [c]), mode := valueMode c },
        false) := by
  simp only [readValue, valueMode, isQuote, if_neg hc, Bool.or_eq_true, decide_eq_true_iff]
  by_cases hslash : c = '/'
  · simp only [if_pos hslash, List.append_nil]
  simp only [if_neg hslash]
  split
  · rfl
  split <;> rfl

/-- The value behind a character of it. -/
def afterValue (line : ParseState σ) (c : Char) : ParseState σ :=
  { line with value := line.value ++ (if c = '/' then [] else [c]), mode := valueMode c }

theorem afterValue_value (line : ParseState σ) (hc : c ≠ '\n') :
    lineCount (afterValue line c).value = lineCount line.value := by
  show lineCount (line.value ++ _) = _
  rw [lineCount_append]
  split
  · rfl
  · rw [lineCount_of_ne hc]
    rfl

/-- The name of a directive, or its value, at a character that begins or continues the
value. -/
theorem counts_afterValue {line : ParseState σ} (hc : c ≠ '\n')
    (hread : readFileChar (macroWorld M) 3 fs c = fs.withLine (afterValue line c))
    (hbefore : balance fs = lineCount line.ns + lineCount line.chunk +
      (lineCount line.value + lineCount line.comment))
    (htidy : line.chunk = [] ∧ 1 ≤ line.cppLines ∧ line.cppLines ≤ lineCount line.value + 1)
    (hkept : Kept M fs c) : Counts M fs c := by
  have hvalue := afterValue_value line hc
  refine counts_value hread ?_ ?_ (valueMode_inValue c) ?_ hkept
  · rw [hbefore, lineCount_of_ne hc, hvalue]
    rfl
  · rw [lineCount_of_ne hc]
    exact Nat.zero_le _
  · rw [hvalue]
    exact htidy

/-- A step that reads a value, not at a line break. -/
theorem read_readValue {line : ParseState σ} {n : Nat} (hmode : fs.line.mode ≠ .swigBlock)
    (hc : c ≠ '\n') (hstep : parseStep (macroWorld M).toWorld fs.line c = readValue line c) :
    readFileChar (macroWorld M) (n + 1) fs c = fs.withLine (afterValue line c) := by
  rw [readValue_line line hc] at hstep
  exact readFileChar_taken (fileStep_line hmode hstep (valueMode_ne c))

theorem read_beforeValue {n : Nat} (hmode : fs.line.mode = .beforeValue) (hc : c ≠ '\n') :
    readFileChar (macroWorld M) (n + 1) fs c =
      if isSpace c then fs else fs.withLine (afterValue fs.line c) := by
  have hne : fs.line.mode ≠ .swigBlock := hmode.trans_ne (by decide)
  by_cases hspace : isSpace c = true
  · have hstep : parseStep (macroWorld M).toWorld fs.line c = (fs.line, false) := by
      simp only [parseStep, hmode, if_pos hspace, if_neg hc]
    rw [readFileChar_taken (fileStep_line hne hstep hne), if_pos hspace]
    rfl
  · have hstep : parseStep (macroWorld M).toWorld fs.line c =
        readValue { fs.line with mode := .value } c := by
      simp only [parseStep, hmode, if_neg hspace]
    rw [read_readValue hne hc hstep, if_neg hspace]
    rfl

/-- The name of a directive, at a character that is no line break. -/
theorem read_name {n : Nat} (hmode : fs.line.mode = .name) (hc : c ≠ '\n') :
    readFileChar (macroWorld M) (n + 2) fs c = fs.withLine
      (if isSpace c then { fs.line with value := [], comment := [], mode := .beforeValue }
        else if isIdChar c then { fs.line with id := fs.line.id ++ [c] }
        else afterValue { fs.line with value := [], comment := [] } c) := by
  have hne : fs.line.mode ≠ .swigBlock := hmode.trans_ne (by decide)
  by_cases hname : isSpace c ∨ ¬ isIdChar c
  · have hstep : parseStep (macroWorld M).toWorld fs.line c =
        ({ fs.line with value := [], comment := [], mode := .beforeValue }, !isSpace c) := by
      simp only [parseStep, hmode, if_pos hname, if_neg hc]
    by_cases hspace : isSpace c = true
    · rw [hspace] at hstep
      rw [readFileChar_taken (fileStep_line hne hstep (by intro h; cases h)), if_pos hspace]
    · have hid : ¬ isIdChar c = true := hname.resolve_left hspace
      rw [Bool.not_eq_true] at hspace
      rw [hspace] at hstep
      rw [readFileChar_again (fileStep_line hne hstep (by intro h; cases h)),
        read_beforeValue rfl hc, hspace, if_neg hid]
      rfl
  · have hstep : parseStep (macroWorld M).toWorld fs.line c =
        ({ fs.line with id := fs.line.id ++ [c] }, false) := by
      simp only [parseStep, hmode, if_neg hname]
    rw [not_or, not_not] at hname
    rw [readFileChar_taken (fileStep_line hne hstep hne), if_neg hname.1, if_pos hname.2]

/-- The name of a directive at a character that is no line break. -/
theorem counts_inName {line : ParseState σ} (hc : c ≠ '\n') (hmode : line.mode = .name)
    (hread : readFileChar (macroWorld M) 3 fs c = fs.withLine
      (if isSpace c then { line with value := [], comment := [], mode := .beforeValue }
        else if isIdChar c then { line with id := line.id ++ [c] }
        else afterValue { line with value := [], comment := [] } c))
    (hbefore : balance fs = lineCount line.ns + lineCount line.chunk)
    (htidy : line.chunk = [] ∧ line.cppLines = 1) (hkept : Kept M fs c) : Counts M fs c := by
  have hcount : 1 ≤ line.cppLines ∧ line.cppLines ≤ lineCount [] + 1 := by
    rw [htidy.2]
    exact ⟨Nat.le_refl _, Nat.le_refl _⟩
  by_cases hspace : isSpace c = true
  · rw [if_pos hspace] at hread
    refine counts_value hread ?_ ?_ rfl ⟨htidy.1, hcount⟩ hkept
    · rw [hbefore, lineCount_of_ne hc]
      rfl
    · rw [lineCount_of_ne hc]
      exact Nat.zero_le _
  rw [if_neg hspace] at hread
  by_cases hid : isIdChar c = true
  · rw [if_pos hid] at hread
    have hhead : (fs.withLine { line with id := line.id ++ [c] }).line.mode = .name := hmode
    rw [Counts, hread, hbefore, lineCount_of_ne hc]
    refine ⟨tidy_of_head (Or.inr hhead) htidy, fun _ => hkept, fun _ => ?_⟩
    exact balance_of_inHead (by rw [hhead]; rfl)
  · rw [if_neg hid] at hread
    refine counts_afterValue hc hread ?_ ⟨htidy.1, hcount⟩ hkept
    rw [hbefore]
    rfl

theorem counts_hash (hmode : fs.line.mode = .hash) (htidy : Tidy fs) : Counts M fs c := by
  have hne : fs.line.mode ≠ .swigBlock := hmode.trans_ne (by decide)
  have hkept : Kept M fs c := by simp [Kept, HandsOver, EndsDirective, hmode]
  have hhead := htidy.head (by rw [hmode]; rfl)
  have hbefore : balance fs = lineCount fs.line.ns + lineCount fs.line.chunk :=
    balance_of_inHead (by rw [hmode]; rfl)
  by_cases hc : c = '\n'
  · have hstep : parseStep (macroWorld M).toWorld fs.line c =
        (putChunk fs.line c .start, false) := by
      simp only [parseStep, hmode, if_pos hc]
    rw [Counts, read_taken hne hstep (by intro h; cases h)]
    refine ⟨tidy_of_inText rfl, fun _ => hkept, fun _ => ?_⟩
    rw [balance_of_inText rfl, hbefore]
    show lineCount fs.line.ns + lineCount (fs.line.chunk ++ [c]) = _
    rw [lineCount_append]
    omega
  by_cases hspace : isSpace c = true
  · have hstep : parseStep (macroWorld M).toWorld fs.line c = (fs.line, false) := by
      simp only [parseStep, hmode, if_neg hc, if_pos hspace]
    rw [Counts, read_taken hne hstep hne, lineCount_of_ne hc]
    exact ⟨htidy, fun _ => hkept, fun _ => rfl⟩
  · have hstep : parseStep (macroWorld M).toWorld fs.line c =
        ({ fs.line with id := [], mode := .name }, true) := by
      simp only [parseStep, hmode, if_neg hc, if_neg hspace]
    have hread := (readFileChar_again (n := 2) (fileStep_line hne hstep (by intro h; cases h))).trans
      (read_name rfl hc)
    exact counts_inName hc rfl hread hbefore hhead hkept

/-- The state in which a directive is carried out. -/
def endLine (line : ParseState σ) : ParseState σ :=
  { line with value := endValue line, comment := endComment line, mode := .directive }

theorem openGroup_same (st : ParseState σ) (condition : Bool × List Report) :
    (openGroup st condition).ns = st.ns ∧ (openGroup st condition).chunk = st.chunk ∧
      (openGroup st condition).cppLines = st.cppLines := by
  rw [openGroup]
  split
  · split <;> exact ⟨rfl, rfl, rfl⟩
  · exact ⟨rfl, rfl, rfl⟩

theorem groups_same (W : World σ) (st : ParseState σ) :
    ((elifGroup W st).ns = st.ns ∧ (elifGroup W st).chunk = st.chunk ∧
        (elifGroup W st).cppLines = st.cppLines) ∧
      ((elseGroup st).ns = st.ns ∧ (elseGroup st).chunk = st.chunk ∧
        (elseGroup st).cppLines = st.cppLines) ∧
      ((endifGroup st).ns = st.ns ∧ (endifGroup st).chunk = st.chunk ∧
        (endifGroup st).cppLines = st.cppLines) := by
  refine ⟨?_, ?_, ?_⟩
  · rw [elifGroup]
    repeat' split
    all_goals exact ⟨rfl, rfl, rfl⟩
  · unfold elseGroup
    split
    · exact ⟨rfl, rfl, rfl⟩
    · simp only
      split
      · exact ⟨rfl, rfl, rfl⟩
      · split <;> exact ⟨rfl, rfl, rfl⟩
  · unfold endifGroup
    split
    · exact ⟨rfl, rfl, rfl⟩
    · simp only
      split <;> exact ⟨rfl, rfl, rfl⟩

/-- A directive without constant changes nothing that is counted; the one with a constant
writes its line and takes one line back. -/
theorem carryOut_same (W : World σ) (st : ParseState σ)
    (hinclude : directiveName st.id ≠ .includeFile) :
    (carryOut W st).chunk = st.chunk ∧
      if directiveName st.id = .define ∧ st.cond.allow = true then
        match (W.define st.symbols st.value st.comment).2 with
        | some text => (carryOut W st).ns = st.ns ++ text ∧
            (carryOut W st).cppLines = st.cppLines - 1
        | none => (carryOut W st).ns = st.ns ∧ (carryOut W st).cppLines = st.cppLines
      else (carryOut W st).ns = st.ns ∧ (carryOut W st).cppLines = st.cppLines := by
  obtain ⟨helif, helse, hendif⟩ := groups_same W st
  unfold carryOut
  cases hname : directiveName st.id
  case define =>
    cases hallow : st.cond.allow
    case false =>
      rw [if_neg (by rintro ⟨h1, h2⟩; cases h2)]
      exact ⟨rfl, rfl, rfl⟩
    case true =>
      rw [if_pos ⟨rfl, rfl⟩]
      simp only [if_true, allowedDirective]
      cases hdefine : (W.define st.symbols st.value st.comment).2
      case none => exact ⟨rfl, rfl, rfl⟩
      case some text => exact ⟨rfl, rfl, rfl⟩
  case ifdef | ifndef | ifCond =>
    rw [if_neg (by rintro ⟨h1, h2⟩; cases h1)]
    exact ⟨(openGroup_same _ _).2.1, (openGroup_same _ _).1, (openGroup_same _ _).2.2⟩
  case elif =>
    rw [if_neg (by rintro ⟨h1, h2⟩; cases h1)]
    exact ⟨helif.2.1, helif.1, helif.2.2⟩
  case els =>
    rw [if_neg (by rintro ⟨h1, h2⟩; cases h1)]
    exact ⟨helse.2.1, helse.1, helse.2.2⟩
  case endif =>
    rw [if_neg (by rintro ⟨h1, h2⟩; cases h1)]
    exact ⟨hendif.2.1, hendif.1, hendif.2.2⟩
  case includeFile => exact absurd hname hinclude
  all_goals
    rw [if_neg (by rintro ⟨h1, h2⟩; cases h1)]
    simp only
    split <;> exact ⟨rfl, rfl, rfl⟩

/-- A macro's name has no line break. -/
theorem readMacroName_breaks {name s : List Char} {r : List Char × Option (List Char) × List Char}
    (h : readMacroName name s = some r) (hname : lineCount name = 0) : lineCount r.1 = 0 := by
  fun_induction readMacroName name s
  case case3 => cases h
  case case4 c cs hparen hid ih =>
    refine ih h ?_
    have hc : c ≠ '\n' := by rintro rfl; exact absurd hid (by decide)
    rw [lineCount_append, hname, lineCount_of_ne hc]
  case case6 ih => exact ih h hname
  all_goals
    rw [← Option.some.inj h]
    exact hname

theorem readMacro_name {s : List Char} {m : Macro} (h : readMacro false s = some m) :
    lineCount m.name = 0 := by
  simp only [readMacro, Option.bind_eq_bind, Option.bind_eq_some_iff] at h
  obtain ⟨⟨name, argstr, rest⟩, hname, h⟩ := h
  have hbreaks : lineCount name = 0 := readMacroName_breaks hname rfl
  cases argstr with
  | none =>
      simp only [Option.some.injEq] at h
      rw [← h]
      exact hbreaks
  | some argstr =>
      simp only [Option.bind_eq_some_iff, Option.some.injEq] at h
      obtain ⟨args, -, h⟩ := h
      rw [← h]
      exact hbreaks

theorem constantLine_breaks (name v comment : List Char) :
    lineCount (constantLine name v comment) =
      lineCount name + lineCount v + lineCount comment + 1 := by
  have hopen : lineCount "%constant ".toList = 0 := by decide
  have hequals : lineCount " = ".toList = 0 := by decide
  have hcomment : lineCount "; /*".toList = 0 := by decide
  have hend : lineCount ";\n".toList = 1 := by decide
  have hclose : lineCount "*/\n".toList = 1 := by decide
  rw [constantLine]
  split
  · rename_i hnone
    simp only [lineCount_append, hopen, hequals, hend, hnone]
    have hnil : lineCount [] = 0 := rfl
    omega
  · simp only [lineCount_append, hopen, hequals, hcomment, hclose]
    omega

/-- The line breaks that are written at the end of a directive. -/
def endBreaks (M : Macros σ) (line : ParseState σ) : Nat :=
  match constantTried M line with
  | some (_, v) =>
      if M.checkppId v then line.cppLines
      else lineCount v + lineCount (endComment line) + 1 + (line.cppLines - 1)
  | none => line.cppLines

/-- A `#define` writes the line of its constant, if it has one. -/
theorem defineDirective_line {line : ParseState σ} (hname : directiveName line.id = .define)
    (hallow : line.cond.allow = true)
    (hconstant : ∀ symbols v, constantTried M line = some (symbols, v) →
      invokes M symbols v = false) :
    match (defineDirective M line.symbols (chop (endValue line)) (endComment line)).2 with
    | some text => lineCount text + (line.cppLines - 1) = endBreaks M line
    | none => line.cppLines = endBreaks M line := by
  have htried : constantTried M line = _ := if_pos ⟨hname, hallow⟩
  rw [endBreaks]
  rw [htried] at hconstant ⊢
  unfold defineDirective
  cases hdefine : preprocessorDefine M line.symbols false (chop (endValue line)) with
  | none => rfl
  | some r =>
      obtain ⟨m, symbols⟩ := r
      rw [hdefine] at hconstant
      have hm : lineCount m.name = 0 := by
        simp only [preprocessorDefine, Option.bind_eq_bind, Option.bind_eq_some_iff,
          Option.some.injEq, Prod.mk.injEq] at hdefine
        obtain ⟨m', hread, -, -, rfl, -⟩ := hdefine
        exact readMacro_name hread
      cases hvalue : constantValue m with
      | none => simp only [hvalue, Option.map_none]
      | some v =>
          have hsame : (replaceWords M symbols false v).1 = v :=
            replaceWords_same (hconstant symbols v (by simp only [hvalue, Option.map_some]))
          simp only [hvalue, hsame, Option.map_some]
          cases hid : M.checkppId v
          case true => simp only [if_true]
          case false =>
            simp only [Bool.false_eq_true, if_false, constantLine_breaks, hm]
            omega

/-- The state behind a directive, before it is carried out. -/
def chopped (line : ParseState σ) : ParseState σ :=
  { line with value := chop (endValue line), comment := endComment line, mode := .start }

/-- The end of a directive: nothing else is written. -/
theorem directiveEnd_breaks {line : ParseState σ}
    (hinclude : directiveName line.id ≠ .includeFile)
    (hconstant : ∀ symbols v, constantTried M line = some (symbols, v) →
      invokes M symbols v = false) :
    (directiveEnd (macroWorld M).toWorld (endLine line)).chunk = line.chunk ∧
      lineCount (directiveEnd (macroWorld M).toWorld (endLine line)).ns =
        lineCount line.ns + endBreaks M line := by
  obtain ⟨hchunk, hcarry⟩ := carryOut_same (macroWorld M).toWorld (chopped line) hinclude
  refine ⟨hchunk, ?_⟩
  have hns : (directiveEnd (macroWorld M).toWorld (endLine line)).ns =
      (carryOut (macroWorld M).toWorld (chopped line)).ns ++
        List.replicate (carryOut (macroWorld M).toWorld (chopped line)).cppLines '\n' := rfl
  rw [hns, lineCount_append, lineCount_replicate]
  by_cases hdefine : directiveName line.id = .define ∧ line.cond.allow = true
  · have hline := defineDirective_line hdefine.1 hdefine.2 hconstant
    have hchopped : directiveName (chopped line).id = .define ∧
        (chopped line).cond.allow = true := hdefine
    rw [if_pos hchopped] at hcarry
    have hcall : ((macroWorld M).toWorld.define (chopped line).symbols (chopped line).value
        (chopped line).comment).2 =
          (defineDirective M line.symbols (chop (endValue line)) (endComment line)).2 := rfl
    rw [hcall] at hcarry
    cases htext : (defineDirective M line.symbols (chop (endValue line)) (endComment line)).2 with
    | none =>
        rw [htext] at hline hcarry
        obtain ⟨h1, h2⟩ := hcarry
        rw [h1, h2, ← hline]
        rfl
    | some text =>
        rw [htext] at hline hcarry
        obtain ⟨h1, h2⟩ := hcarry
        rw [h1, h2, ← hline, lineCount_append, Nat.add_assoc]
        rfl
  · have hchopped : ¬ (directiveName (chopped line).id = .define ∧
        (chopped line).cond.allow = true) := hdefine
    rw [if_neg hchopped] at hcarry
    have hend : endBreaks M line = line.cppLines := by
      rw [endBreaks, constantTried, if_neg hdefine]
    rw [hcarry.1, hcarry.2, hend]
    rfl

/-- The line break at the end of a directive. -/
theorem counts_end (hc : c = '\n') (hends : EndsDirective fs c)
    (hread : readFileChar (macroWorld M) 3 fs c =
      fs.withLine (directiveEnd (macroWorld M).toWorld (endLine fs.line)))
    (hbefore : balance fs = lineCount fs.line.ns + lineCount fs.line.chunk +
      (lineCount (endValue fs.line) + lineCount (endComment fs.line)))
    (htidy : fs.line.chunk = [] ∧ 1 ≤ fs.line.cppLines ∧
      fs.line.cppLines ≤ lineCount (endValue fs.line) + 1)
    (hplain : StepPlain M fs c) (hkept : Kept M fs c ↔ DirectiveKept M fs.line) :
    Counts M fs c := by
  obtain ⟨hchunk, hns⟩ :=
    directiveEnd_breaks (hplain.includes hends) (hplain.constant hends)
  have hend : AtEnd (directiveEnd (macroWorld M).toWorld (endLine fs.line)).mode := by
    rw [directiveEnd]
    exact carryOut_mode _ _
  have htext : (fs.withLine (directiveEnd (macroWorld M).toWorld
      (endLine fs.line))).line.mode.inText = true := by
    show (directiveEnd (macroWorld M).toWorld (endLine fs.line)).mode.inText = true
    rcases hend with h | h <;> (rw [h]; rfl)
  have hbreak : lineCount [c] = 1 := by rw [hc]; rfl
  rw [Counts, hread, hkept]
  refine ⟨tidy_of_inText htext, ?_⟩
  rw [balance_of_inText htext, hbefore, hbreak]
  show lineCount (directiveEnd (macroWorld M).toWorld (endLine fs.line)).ns +
    lineCount (directiveEnd (macroWorld M).toWorld (endLine fs.line)).chunk = _ ↔ _
  rw [hchunk, hns, DirectiveKept, endBreaks, literalLines]
  obtain ⟨-, hone, hcount⟩ := htidy
  cases constantTried M fs.line with
  | none =>
      simp only
      omega
  | some r =>
      simp only
      split
      · omega
      · omega

/-- A step that ends a directive. -/
theorem read_end (hmode : fs.line.mode ≠ .swigBlock)
    (hstep : parseStep (macroWorld M).toWorld fs.line c = (endLine fs.line, true)) :
    readFileChar (macroWorld M) 3 fs c =
      fs.withLine (directiveEnd (macroWorld M).toWorld (endLine fs.line)) := by
  have hend : AtEnd (directiveEnd (macroWorld M).toWorld (endLine fs.line)).mode := by
    rw [directiveEnd]
    exact carryOut_mode _ _
  have hnot : (directiveEnd (macroWorld M).toWorld (endLine fs.line)).mode ≠ .swigBlock := by
    rcases hend with h | h <;> (rw [h]; intro h; cases h)
  rw [readFileChar_again (fileStep_line hmode hstep (by intro h; cases h))]
  exact readFileChar_taken (fileStep_line (by intro h; cases h) rfl hnot)

theorem counts_name (hmode : fs.line.mode = .name) (htidy : Tidy fs) (hplain : StepPlain M fs c) :
    Counts M fs c := by
  have hne : fs.line.mode ≠ .swigBlock := hmode.trans_ne (by decide)
  have hhead := htidy.head (by rw [hmode]; rfl)
  have hbefore : balance fs = lineCount fs.line.ns + lineCount fs.line.chunk :=
    balance_of_inHead (by rw [hmode]; rfl)
  by_cases hc : c = '\n'
  · have hends : EndsDirective fs c := by
      rw [EndsDirective, hmode]
      exact ⟨hc, trivial⟩
    have hvalue : endValue fs.line = [] := by rw [endValue, hmode]
    have hcomment : endComment fs.line = [] := by rw [endComment, hmode]
    have hstep : parseStep (macroWorld M).toWorld fs.line c = (endLine fs.line, true) := by
      have hname : isSpace '\n' ∨ ¬ isIdChar '\n' := .inl isSpace_newline
      subst hc
      simp only [parseStep, hmode, if_pos hname, if_true, endLine, hvalue, hcomment]
    refine counts_end hc hends (read_end hne hstep) ?_ ?_ hplain ?_
    · rw [hbefore, hvalue, hcomment]
      rfl
    · rw [hvalue, hhead.2]
      exact ⟨hhead.1, Nat.le_refl _, Nat.le_refl _⟩
    · simp [Kept, HandsOver, hmode, hends]
  · have hkept : Kept M fs c := by simp [Kept, HandsOver, EndsDirective, hmode, hc]
    exact counts_inName hc hmode (read_name hmode hc) hbefore hhead hkept

/-- The end of a directive behind its name. -/
theorem counts_valueEnd (hvalue : fs.line.mode.inValue = true) (hc : c = '\n')
    (hends : EndsDirective fs c) (htidy : Tidy fs) (hplain : StepPlain M fs c)
    (hstep : parseStep (macroWorld M).toWorld fs.line c = (endLine fs.line, true))
    (hsame : lineCount (endValue fs.line) = lineCount fs.line.value)
    (hcomment : endComment fs.line = fs.line.comment) : Counts M fs c := by
  have hnot : ∀ mode : Mode, mode.inValue = false → fs.line.mode ≠ mode := by
    intro mode hm h
    rw [h, hm] at hvalue
    cases hvalue
  have hkept : Kept M fs c ↔ DirectiveKept M fs.line := by
    rw [Kept]
    have hover : ¬ HandsOver fs c := by
      rw [HandsOver]
      split
      · rename_i h
        exact absurd h (hnot _ rfl)
      · rename_i h
        exact absurd h (hnot _ rfl)
      · rename_i h
        exact absurd h (hnot _ rfl)
      · exact fun h => h
    constructor
    · exact fun h => h.2.1 hends
    · intro h
      refine ⟨fun hh => absurd hh hover, fun _ => h, ?_⟩
      split
      · rename_i hm
        exact absurd hm (hnot _ rfl)
      · rename_i hm
        exact absurd hm (hnot _ rfl)
      · rename_i hm
        exact absurd hm (hnot _ rfl)
      · trivial
  refine counts_end hc hends (read_end (hnot _ rfl) hstep) ?_ ?_ hplain hkept
  · rw [balance_of_inValue hvalue, hsame, hcomment]
  · rw [hsame]
    exact htidy.value hvalue

theorem counts_beforeValue (hmode : fs.line.mode = .beforeValue) (htidy : Tidy fs)
    (hplain : StepPlain M fs c) : Counts M fs c := by
  have hvalue : fs.line.mode.inValue = true := by rw [hmode]; rfl
  have hendValue : endValue fs.line = fs.line.value := by rw [endValue, hmode]
  have hendComment : endComment fs.line = fs.line.comment := by rw [endComment, hmode]
  by_cases hc : c = '\n'
  · have hends : EndsDirective fs c := by
      rw [EndsDirective, hmode]
      exact ⟨hc, trivial⟩
    have hstep : parseStep (macroWorld M).toWorld fs.line c = (endLine fs.line, true) := by
      subst hc
      simp only [parseStep, hmode, if_pos isSpace_newline, if_true, endLine, hendValue, hendComment]
    exact counts_valueEnd hvalue hc hends htidy hplain hstep (by rw [hendValue]) hendComment
  have hkept : Kept M fs c := by simp [Kept, HandsOver, EndsDirective, hmode, hc]
  have hread := read_beforeValue (M := M) (n := 2) hmode hc
  by_cases hspace : isSpace c = true
  · rw [if_pos hspace] at hread
    rw [Counts, hread, lineCount_of_ne hc]
    exact ⟨htidy, fun _ => hkept, fun _ => rfl⟩
  · rw [if_neg hspace] at hread
    exact counts_afterValue hc hread (balance_of_inValue hvalue) (htidy.value hvalue) hkept

theorem counts_inDirective (hmode : fs.line.mode = .value) (htidy : Tidy fs)
    (hplain : StepPlain M fs c) : Counts M fs c := by
  have hvalue : fs.line.mode.inValue = true := by rw [hmode]; rfl
  have hne : fs.line.mode ≠ .swigBlock := hmode.trans_ne (by decide)
  have hendValue : endValue fs.line = fs.line.value := by rw [endValue, hmode]
  have hendComment : endComment fs.line = fs.line.comment := by rw [endComment, hmode]
  have hstep : parseStep (macroWorld M).toWorld fs.line c = readValue fs.line c := by
    simp only [parseStep, hmode]
  by_cases hc : c = '\n'
  · have hends : EndsDirective fs c := by
      rw [EndsDirective, hmode]
      exact ⟨hc, trivial⟩
    have hstep' : parseStep (macroWorld M).toWorld fs.line c = (endLine fs.line, true) := by
      rw [hstep, hc, readValue_newline, endLine, hendValue, hendComment]
    exact counts_valueEnd hvalue hc hends htidy hplain hstep' (by rw [hendValue]) hendComment
  · have hkept : Kept M fs c := by simp [Kept, HandsOver, EndsDirective, hmode, hc]
    exact counts_afterValue hc (read_readValue hne hc hstep) (balance_of_inValue hvalue)
      (htidy.value hvalue) hkept

theorem counts_valueBackslash (hmode : fs.line.mode = .valueBackslash) (htidy : Tidy fs) :
    Counts M fs c := by
  have hvalue : fs.line.mode.inValue = true := by rw [hmode]; rfl
  have hne : fs.line.mode ≠ .swigBlock := hmode.trans_ne (by decide)
  have hkept : Kept M fs c := by simp [Kept, HandsOver, EndsDirective, hmode]
  obtain ⟨hchunk, hone, hcount⟩ := htidy.value hvalue
  have hbefore := balance_of_inValue hvalue
  by_cases hc : c = '\n'
  · have hstep : parseStep (macroWorld M).toWorld fs.line c =
        ({ putValue fs.line c .value with cppLines := fs.line.cppLines + 1 }, false) := by
      simp only [parseStep, hmode, if_pos hc]
    have hbreaks : lineCount (fs.line.value ++ [c]) = lineCount fs.line.value + 1 := by
      rw [lineCount_append, hc]
      rfl
    have hbreak : lineCount [c] = 1 := by rw [hc]; rfl
    refine counts_value (read_taken hne hstep (by intro h; cases h)) ?_ ?_ rfl ⟨hchunk, ?_, ?_⟩ hkept
    · rw [hbefore]
      show _ = lineCount fs.line.ns + lineCount fs.line.chunk +
        (lineCount (fs.line.value ++ [c]) + lineCount fs.line.comment) - lineCount [c]
      rw [hbreaks, hbreak]
      omega
    · show lineCount [c] ≤ lineCount (fs.line.value ++ [c]) + lineCount fs.line.comment
      rw [hbreaks, hbreak]
      omega
    · show 1 ≤ fs.line.cppLines + 1
      omega
    · show fs.line.cppLines + 1 ≤ lineCount (fs.line.value ++ [c]) + 1
      rw [hbreaks]
      omega
  · have hstep : parseStep (macroWorld M).toWorld fs.line c =
        ({ fs.line with mode := .value }, true) := by
      simp only [parseStep, hmode, if_neg hc]
    have hread : readFileChar (macroWorld M) 3 fs c = fs.withLine (afterValue fs.line c) := by
      rw [readFileChar_again (fileStep_line hne hstep (by intro h; cases h))]
      exact read_readValue (by intro h; cases h) hc rfl
    exact counts_afterValue hc hread hbefore ⟨hchunk, hone, hcount⟩ hkept

theorem counts_valueSlash (hmode : fs.line.mode = .valueSlash) (htidy : Tidy fs)
    (hplain : StepPlain M fs c) : Counts M fs c := by
  have hvalue : fs.line.mode.inValue = true := by rw [hmode]; rfl
  have hne : fs.line.mode ≠ .swigBlock := hmode.trans_ne (by decide)
  have hendValue : endValue fs.line = fs.line.value ++ ['/'] := by rw [endValue, hmode]
  have hendComment : endComment fs.line = fs.line.comment := by rw [endComment, hmode]
  have hslash : ∀ s, lineCount (s ++ ['/']) = lineCount s := by
    intro s
    rw [lineCount_append]
    rfl
  by_cases hc : c = '\n'
  · have hends : EndsDirective fs c := by
      rw [EndsDirective, hmode]
      exact ⟨hc, trivial⟩
    have hstep : parseStep (macroWorld M).toWorld fs.line c = (endLine fs.line, true) := by
      subst hc
      rw [endLine, hendValue, hendComment]
      simp [parseStep, hmode, putValue]
    exact counts_valueEnd hvalue hc hends htidy hplain hstep (by rw [hendValue, hslash]) hendComment
  have hkept : Kept M fs c := by simp [Kept, HandsOver, EndsDirective, hmode, hc]
  obtain ⟨hchunk, hone, hcount⟩ := htidy.value hvalue
  have hbreak : lineCount [c] = 0 := lineCount_of_ne hc
  -- A step that puts characters other than line breaks into the value.
  have hput : ∀ (s : List Char) (mode : Mode), mode.inValue = true → mode ≠ .swigBlock →
      lineCount s = 0 → parseStep (macroWorld M).toWorld fs.line c =
        ({ fs.line with value := fs.line.value ++ s, mode := mode }, false) → Counts M fs c := by
    intro s mode hin hblock hs hstep
    have hbreaks : lineCount (fs.line.value ++ s) = lineCount fs.line.value := by
      rw [lineCount_append, hs]
      rfl
    refine counts_value (read_taken hne hstep hblock) ?_ ?_ hin ⟨hchunk, hone, ?_⟩ hkept
    · rw [balance_of_inValue hvalue]
      show _ = lineCount fs.line.ns + lineCount fs.line.chunk +
        (lineCount (fs.line.value ++ s) + lineCount fs.line.comment) - lineCount [c]
      rw [hbreaks, hbreak]
      rfl
    · rw [hbreak]
      exact Nat.zero_le _
    · show fs.line.cppLines ≤ lineCount (fs.line.value ++ s) + 1
      rw [hbreaks]
      exact hcount
  by_cases hcslash : c = '/'
  · refine hput [] .valueLineComment rfl (by intro h; cases h) rfl ?_
    simp only [parseStep, hmode, if_pos hcslash, List.append_nil]
  by_cases hstar : c = '*'
  · refine hput [] .valueBlockComment rfl (by intro h; cases h) rfl ?_
    simp only [parseStep, hmode, if_neg hcslash, if_pos hstar, List.append_nil]
  · refine hput ['/', c] .value rfl (by intro h; cases h) ?_ ?_
    · rw [lineCount_cons, hbreak]
      rfl
    · simp [parseStep, hmode, hcslash, hstar, hc, putValue]

/-- A step that puts text with the character's line breaks into the comment. -/
theorem counts_putComment (s : List Char) (mode : Mode) (hvalue : fs.line.mode.inValue = true)
    (htidy : Tidy fs) (hin : mode.inValue = true) (hne : fs.line.mode ≠ .swigBlock)
    (hblock : mode ≠ .swigBlock) (hs : lineCount s = lineCount [c])
    (hstep : parseStep (macroWorld M).toWorld fs.line c =
      ({ fs.line with comment := fs.line.comment ++ s, mode := mode }, false))
    (hkept : Kept M fs c) : Counts M fs c := by
  have hbreaks : lineCount (fs.line.comment ++ s) = lineCount fs.line.comment + lineCount [c] := by
    rw [lineCount_append, hs]
  refine counts_value (read_taken hne hstep hblock) ?_ ?_ hin (htidy.value hvalue) hkept
  · rw [balance_of_inValue hvalue]
    show _ = lineCount fs.line.ns + lineCount fs.line.chunk +
      (lineCount fs.line.value + lineCount (fs.line.comment ++ s)) - lineCount [c]
    rw [hbreaks]
    omega
  · show lineCount [c] ≤ lineCount fs.line.value + lineCount (fs.line.comment ++ s)
    rw [hbreaks]
    omega

theorem counts_valueLineComment (hmode : fs.line.mode = .valueLineComment) (htidy : Tidy fs)
    (hplain : StepPlain M fs c) : Counts M fs c := by
  have hvalue : fs.line.mode.inValue = true := by rw [hmode]; rfl
  have hne : fs.line.mode ≠ .swigBlock := hmode.trans_ne (by decide)
  have hendValue : endValue fs.line = fs.line.value := by rw [endValue, hmode]
  have hendComment : endComment fs.line = fs.line.comment := by rw [endComment, hmode]
  by_cases hc : c = '\n'
  · have hends : EndsDirective fs c := by
      rw [EndsDirective, hmode]
      exact ⟨hc, trivial⟩
    have hstep : parseStep (macroWorld M).toWorld fs.line c = (endLine fs.line, true) := by
      simp only [parseStep, hmode, if_pos hc, endLine, hendValue, hendComment]
    exact counts_valueEnd hvalue hc hends htidy hplain hstep (by rw [hendValue]) hendComment
  · have hkept : Kept M fs c := by simp [Kept, HandsOver, EndsDirective, hmode, hc]
    refine counts_putComment [c] .valueLineComment hvalue htidy rfl hne (by decide) rfl ?_
      hkept
    simp only [parseStep, hmode, if_neg hc]
    rfl

theorem counts_valueBlockComment (hmode : fs.line.mode = .valueBlockComment ∨
    fs.line.mode = .valueBlockCommentStar) (htidy : Tidy fs) : Counts M fs c := by
  have hvalue : fs.line.mode.inValue = true := by
    rcases hmode with h | h <;> (rw [h]; rfl)
  have hne : fs.line.mode ≠ .swigBlock := by
    rcases hmode with h | h <;> (rw [h]; intro h; cases h)
  have hkept : Kept M fs c := by
    rcases hmode with h | h <;> simp [Kept, HandsOver, EndsDirective, h]
  have hstep : ∃ (s : List Char) (mode : Mode), mode.inValue = true ∧ mode ≠ .swigBlock ∧
      lineCount s = lineCount [c] ∧ parseStep (macroWorld M).toWorld fs.line c =
        ({ fs.line with comment := fs.line.comment ++ s, mode := mode }, false) := by
    rcases hmode with h | h
    · simp only [parseStep, h]
      by_cases hstar : c = '*'
      · refine ⟨[], .valueBlockCommentStar, rfl, (by intro h; cases h), ?_, ?_⟩
        · rw [hstar]
          rfl
        · rw [if_pos hstar, List.append_nil]
      · refine ⟨[c], .valueBlockComment, rfl, (by intro h; cases h), rfl, ?_⟩
        rw [if_neg hstar]
        rfl
    · simp only [parseStep, h]
      by_cases hslash : c = '/'
      · refine ⟨[], .value, rfl, (by intro h; cases h), ?_, ?_⟩
        · rw [hslash]
          rfl
        · rw [if_pos hslash, List.append_nil]
      by_cases hstar : c = '*'
      · refine ⟨[c], .valueBlockCommentStar, rfl, (by intro h; cases h), rfl, ?_⟩
        rw [if_neg hslash, if_pos hstar]
        rfl
      · refine ⟨['*', c], .valueBlockComment, rfl, (by intro h; cases h), ?_, ?_⟩
        · rw [lineCount_cons]
          exact Nat.zero_add _
        · rw [if_neg hslash, if_neg hstar]
          simp [putComment]
  obtain ⟨s, mode, hin, hblock, hs, hstep⟩ := hstep
  exact counts_putComment s mode hvalue htidy hin hne hblock hs hstep hkept

theorem counts_valueSkip {quote : Char} {escaped : Bool}
    (hmode : fs.line.mode = .skip quote escaped true) (htidy : Tidy fs) : Counts M fs c := by
  have hvalue : fs.line.mode.inValue = true := by rw [hmode]; rfl
  have hne : fs.line.mode ≠ .swigBlock := hmode.trans_ne (by rintro ⟨⟩)
  have hkept : Kept M fs c := by simp [Kept, HandsOver, EndsDirective, hmode]
  obtain ⟨hchunk, hone, hcount⟩ := htidy.value hvalue
  have hstep : ∃ mode : Mode, mode.inValue = true ∧ mode ≠ .swigBlock ∧
      parseStep (macroWorld M).toWorld fs.line c = (putValue fs.line c mode, false) := by
    simp only [parseStep, hmode, if_true]
    refine ⟨_, ?_, ?_, rfl⟩
    · split
      · rfl
      split <;> rfl
    · split
      · intro h; cases h
      split <;> (intro h; cases h)
  obtain ⟨mode, hin, hblock, hstep⟩ := hstep
  have hbreaks : lineCount (fs.line.value ++ [c]) = lineCount fs.line.value + lineCount [c] :=
    lineCount_append _ _
  refine counts_value (read_taken hne hstep hblock) ?_ ?_ hin ⟨hchunk, hone, ?_⟩ hkept
  · rw [balance_of_inValue hvalue]
    show _ = lineCount fs.line.ns + lineCount fs.line.chunk +
      (lineCount (fs.line.value ++ [c]) + lineCount fs.line.comment) - lineCount [c]
    rw [hbreaks]
    omega
  · show lineCount [c] ≤ lineCount (fs.line.value ++ [c]) + lineCount fs.line.comment
    rw [hbreaks]
    omega
  · show fs.line.cppLines ≤ lineCount (fs.line.value ++ [c]) + 1
    rw [hbreaks]
    omega

/-- One character, in every mode in which the machine can be. -/
theorem counts_step (htidy : Tidy fs) (hplain : StepPlain M fs c)
    (hbounds : fs.line.mode ≠ .outside) : Counts M fs c := by
  cases hmode : fs.line.mode
  case start => exact counts_start hmode hplain
  case text => exact counts_textMode hmode
  case slash => exact counts_slash hmode
  case lineComment => exact counts_comment (.inl hmode)
  case blockComment => exact counts_comment (.inr (.inl hmode))
  case blockCommentStar => exact counts_comment (.inr (.inr (.inl hmode)))
  case hash => exact counts_hash hmode htidy
  case name => exact counts_name hmode htidy hplain
  case beforeValue => exact counts_beforeValue hmode htidy hplain
  case value => exact counts_inDirective hmode htidy hplain
  case valueBackslash => exact counts_valueBackslash hmode htidy
  case valueSlash => exact counts_valueSlash hmode htidy hplain
  case valueLineComment => exact counts_valueLineComment hmode htidy hplain
  case valueBlockComment => exact counts_valueBlockComment (.inl hmode) htidy
  case valueBlockCommentStar => exact counts_valueBlockComment (.inr hmode) htidy
  case directive => exact absurd hmode htidy.directive
  case percent => exact counts_percent hmode hplain
  case code => exact counts_code hmode
  case codePercent => exact counts_codePercent hmode
  case embedded => exact counts_embedded hmode
  case embeddedBackslash => exact counts_comment (.inr (.inr (.inr hmode)))
  case swigName => exact counts_swigName hmode htidy hplain
  case skip quote escaped inValue =>
    cases inValue
    · exact counts_skip hmode
    · exact counts_valueSkip hmode htidy
  case swigBlock =>
    have hbefore := hplain.before
    rw [FileState.inInclusion, hmode] at hbefore
    cases hpart : fs.part
    case body => exact counts_body hmode hpart
    case statement read => exact counts_statement hmode hpart htidy
    case statementEnd read => exact counts_statementEnd hmode hpart htidy
    all_goals
      rw [hpart] at hbefore
      cases hbefore
  case outside => exact absurd hmode hbounds

end Step

/-! ## A whole text -/

theorem balance_eq_held (fs : FileState σ) :
    balance fs = lineCount fs.line.ns + lineCount fs.held := by
  rw [balance, FileState.held, lineCount_append, Nat.add_assoc]
  split
  · rw [lineCount_append]
  split <;> rfl

/-- The chunk at the end of a file. -/
theorem lastChunk_le {st : ParseState σ}
    (h : st.cond.allow = true → invokes M st.symbols st.chunk = false) :
    lineCount (addChunk (macroWorld M).toWorld st).ns ≤
      lineCount st.ns + lineCount st.chunk := by
  cases hallow : st.cond.allow
  case true =>
    have hkept : ChunkKept st st.chunk := fun hfalse => by
      rw [hallow] at hfalse
      cases hfalse
    exact Nat.le_of_eq ((addChunk_kept_iff h).2 hkept)
  case false =>
    show lineCount (addLine st.ns (if st.cond.allow then _ else st.chunk) st.cond.allow) ≤ _
    rw [hallow, if_neg Bool.false_ne_true, addLine, if_neg Bool.false_ne_true, lineCount_append]
    exact Nat.add_le_add_left (newlines_le _) _

/-- What is held at the end of a file is written, other than a directive or a macro that is
not at its end. -/
theorem keptAtEnd_iff {fs : FileState σ} {n : Nat} (hn : lineCount fs.line.ns + lineCount fs.held = n)
    (h : fs.line.cond.allow = true → invokes M fs.line.symbols fs.line.chunk = false) :
    lineCount (addChunk (macroWorld M).toWorld fs.line).ns = n ↔ KeptAtEnd fs := by
  have hle := lastChunk_le h
  have hchunk := addChunk_kept_iff h
  rw [FileState.held, lineCount_append] at hn
  cases hvalue : fs.line.mode.inValue
  case true =>
    rw [hvalue, if_pos rfl, lineCount_append] at hn
    have hblock : fs.inDefineBlock = false := by
      refine inDefineBlock_false fun hmode => ?_
      rw [hmode] at hvalue
      cases hvalue
    constructor
    · intro htotal
      refine ⟨fun _ => ⟨by omega, by omega⟩, fun hb => ?_, hchunk.1 (by omega)⟩
      rw [hblock] at hb
      cases hb
    · intro hkept
      have hzero := hkept.value hvalue
      have hsame := hchunk.2 hkept.chunk
      omega
  case false =>
    rw [hvalue, if_neg Bool.false_ne_true] at hn
    cases hblock : fs.inDefineBlock
    case true =>
      rw [hblock, if_pos rfl] at hn
      constructor
      · intro htotal
        refine ⟨fun hv => ?_, fun _ => by omega, hchunk.1 (by omega)⟩
        rw [hvalue] at hv
        cases hv
      · intro hkept
        have hzero := hkept.define hblock
        have hsame := hchunk.2 hkept.chunk
        omega
    case false =>
      rw [hblock, if_neg Bool.false_ne_true] at hn
      have hnil : lineCount [] = 0 := rfl
      constructor
      · intro htotal
        refine ⟨fun hv => ?_, fun hb => ?_, hchunk.1 (by omega)⟩
        · rw [hvalue] at hv
          cases hv
        · rw [hblock] at hb
          cases hb
      · intro hkept
        have hsame := hchunk.2 hkept.chunk
        omega

section Text

variable {symbols : σ} {s : List Char}

theorem fileRun_append (W : FileWorld σ) (fs : FileState σ) (p : List Char) (c : Char) :
    fileRun W fs (p ++ [c]) = readFileChar W 3 (fileRun W fs p) c := by
  rw [fileRun, fileRun, List.foldl_append]
  rfl

theorem stepPlain (h : Plain M symbols s) {p t : List Char} {c : Char}
    (ht : withoutReturns s = p ++ c :: t) :
    StepPlain M (fileRun (macroWorld M) (fileStart symbols) p) c where
  chunk := h.chunks p c t ht
  includes := h.includes p c t ht
  constant := h.constants p c t ht
  before := h.inclusions p _ ht
  behind := by
    rw [← fileRun_append]
    exact h.inclusions (p ++ [c]) t (by rw [ht, List.append_assoc]; rfl)

theorem tidy_start : Tidy (fileStart symbols) := tidy_of_inText rfl

/-- The steps of a text, one after the other. -/
theorem tidy_run (hplain : Plain M symbols s) (hbounds : InBounds M symbols s) :
    ∀ p t, withoutReturns s = p ++ t → Tidy (fileRun (macroWorld M) (fileStart symbols) p) := by
  intro p
  induction p using List.reverseRecOn with
  | nil => exact fun _ _ => tidy_start
  | append_singleton p c ih =>
      intro t ht
      rw [List.append_assoc, List.singleton_append] at ht
      rw [fileRun_append]
      exact (counts_step (ih _ ht) (stepPlain hplain ht) (hbounds p _ ht)).1

/-- The balance at every character, when the steps before it keep the line breaks. -/
theorem balance_run (hplain : Plain M symbols s) (hbounds : InBounds M symbols s)
    (hkept : ∀ p c t, withoutReturns s = p ++ c :: t →
      Kept M (fileRun (macroWorld M) (fileStart symbols) p) c) :
    ∀ p t, withoutReturns s = p ++ t →
      balance (fileRun (macroWorld M) (fileStart symbols) p) = lineCount p := by
  intro p
  induction p using List.reverseRecOn with
  | nil => exact fun _ _ => rfl
  | append_singleton p c ih =>
      intro t ht
      rw [List.append_assoc, List.singleton_append] at ht
      have hstep := counts_step (tidy_run hplain hbounds p _ ht) (stepPlain hplain ht)
        (hbounds p _ ht)
      rw [fileRun_append, hstep.2.2 (hkept p c t ht), ih _ ht, lineCount_append]

/-- The output has the line breaks of the input, each in its place, if and only if every step
and the end of the text keep them. -/
theorem linesRight_iff (M : Macros σ) (symbols : σ) (s : List Char) (hplain : Plain M symbols s) :
    LinesRight (macroWorld M) symbols s ∧ InBounds M symbols s ↔
      AllKept M symbols s ∧ InBounds M symbols s := by
  refine and_congr_left fun hbounds => ?_
  have hresult : (preprocessorParseFile (macroWorld M) symbols s).ns =
      (addChunk (macroWorld M).toWorld (fileText (macroWorld M) symbols s).line).ns := by
    have hend : fileEnd (macroWorld M) (fileText (macroWorld M) symbols s) =
        fileText (macroWorld M) symbols s := by
      have hinclusion := hplain.inclusions (withoutReturns s) [] (List.append_nil _).symm
      rw [fileEnd]
      split
      · rename_i hmode
        change (fileText (macroWorld M) symbols s).inInclusion = false at hinclusion
        rw [FileState.inInclusion, decide_eq_true hmode, Bool.true_and] at hinclusion
        cases hpart : (fileText (macroWorld M) symbols s).part
        case body | statement | statementEnd => rfl
        all_goals
          rw [hpart] at hinclusion
          cases hinclusion
      · rfl
    show (addChunk (macroWorld M).toWorld _).ns = _
    rw [hend]
    rfl
  have hlast : ∀ n, balance (fileText (macroWorld M) symbols s) = n →
      (lineCount (preprocessorParseFile (macroWorld M) symbols s).ns = n ↔
        KeptAtEnd (fileText (macroWorld M) symbols s)) := by
    intro n hn
    rw [balance_eq_held] at hn
    rw [hresult]
    exact keptAtEnd_iff hn hplain.rest
  constructor
  · intro h
    have hbalance : ∀ p t, withoutReturns s = p ++ t →
        balance (fileRun (macroWorld M) (fileStart symbols) p) = lineCount p := by
      intro p t ht
      rw [balance_eq_held]
      exact h.places p t ht
    refine ⟨fun p c t ht => ?_, ?_⟩
    · have hstep := counts_step (tidy_run hplain hbounds p _ ht) (stepPlain hplain ht)
        (hbounds p _ ht)
      refine hstep.2.1 ?_
      have hbehind := hbalance (p ++ [c]) t (by rw [ht, List.append_assoc]; rfl)
      rw [← fileRun_append, hbehind, hbalance p _ ht, lineCount_append]
    · refine (hlast (lineCount s) ?_).1 h.total
      rw [← lineCount_withoutReturns]
      exact hbalance _ [] (List.append_nil _).symm
  · intro h
    have hbalance := balance_run hplain hbounds h.step
    refine ⟨fun p t ht => ?_, ?_⟩
    · rw [← balance_eq_held]
      exact hbalance p t ht
    · refine (hlast (lineCount s) ?_).2 h.last
      rw [← lineCount_withoutReturns]
      exact hbalance _ [] (List.append_nil _).symm

end Text

/-- A preprocessor without macros. -/
def plainMacros : Macros Unit where
  isMacro _ _ := false
  substitute _ _ _ text := ([], text)
  setMacro _ _ := some ()
  undef _ _ := ()
  expr _ := .ok 0
  checkppId _ := true
  includeFile _ _ := ((), [])
  includeDirective _ _ _ _ _ _ := ((), none)

instance (fs : FileState σ) (c : Char) : Decidable (HandsOver fs c) := by
  unfold HandsOver
  cases fs.line.mode <;> exact inferInstance

instance (fs : FileState σ) (c : Char) : Decidable (EndsDirective fs c) := by
  unfold EndsDirective
  cases fs.line.mode <;> exact inferInstance

/-- What holds at each character of a plain text. -/
def PlainAt (M : Macros σ) (fs : FileState σ) (c : Char) : Prop :=
  fs.inInclusion = false ∧
    (EndsDirective fs c → directiveName fs.line.id ≠ .includeFile ∧
      ((constantTried M fs.line).all fun constant => !invokes M constant.1 constant.2) = true) ∧
    (HandsOver fs c → fs.line.cond.allow = true →
      invokes M fs.line.symbols fs.line.chunk = false)

instance (M : Macros σ) (fs : FileState σ) (c : Char) : Decidable (PlainAt M fs c) :=
  have : Decidable (HandsOver fs c → fs.line.cond.allow = true →
      invokes M fs.line.symbols fs.line.chunk = false) := instDecidableForall
  have : Decidable (EndsDirective fs c → directiveName fs.line.id ≠ .includeFile ∧
      ((constantTried M fs.line).all fun constant => !invokes M constant.1 constant.2) = true) :=
    instDecidableForall
  inferInstanceAs (Decidable (_ ∧ _ ∧ _))

theorem plain_of_along {s : List Char} {symbols : σ}
    (h : Along (readFileChar (macroWorld M) 3) (PlainAt M) (withoutReturns s) (fileStart symbols))
    (hend : (fileText (macroWorld M) symbols s).inInclusion = false)
    (hrest : (fileText (macroWorld M) symbols s).line.cond.allow = true →
      invokes M (fileText (macroWorld M) symbols s).line.symbols
        (fileText (macroWorld M) symbols s).line.chunk = false) :
    Plain M symbols s := by
  have hall : ∀ p c t, withoutReturns s = p ++ c :: t →
      PlainAt M (fileRun (macroWorld M) (fileStart symbols) p) c := along_iff.1 h
  refine ⟨fun p t ht => ?_, fun p c t ht hends => ((hall p c t ht).2.1 hends).1,
    fun p c t ht => (hall p c t ht).2.2, fun p c t ht hends symbols' v htried => ?_, hrest⟩
  · cases t with
    | nil =>
        rw [List.append_nil] at ht
        rw [← ht]
        exact hend
    | cons c t => exact (hall p c t ht).1
  · have hone := ((hall p c t ht).2.1 hends).2
    rw [htried] at hone
    exact (Bool.not_eq_true' _).mp hone

/-- A constant with a continued value, a block of code and a part that is skipped. -/
def plainText : List Char :=
  "#define A \\\n1\n%\x7b\nx\n%\x7d\n#if 0\ny 'z'\n#endif\na /* \n */\n".toList

theorem linesRight_iff_plainText :
    LinesRight (macroWorld plainMacros) () plainText ∧ InBounds plainMacros () plainText ↔
      AllKept plainMacros () plainText ∧ InBounds plainMacros () plainText :=
  linesRight_iff plainMacros () plainText
    (plain_of_along (by decide +kernel) (by decide +kernel) (by decide +kernel))

/-- A line break in a comment of a directive is lost. -/
theorem commentedDirective_not_right : ¬ LinesRight (macroWorld plainMacros) ()
    ['#', 'u', 'n', 'd', 'e', 'f', ' ', 'A', ' ', '/', '*', '\n', '*', '/', '\n', 'b', '\n'] := by
  intro h
  have htotal := h.total
  revert htotal
  decide

end Swig4Ada.Preprocessor

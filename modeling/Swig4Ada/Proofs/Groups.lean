import Swig4Ada.Proofs.CReading
import Swig4Ada.Proofs.Turns
import Swig4Ada.Proofs.Conditionals
import Swig4Ada.Proofs.DirectiveName
import Swig4Ada.Lib.Loop

/-!
# Conditional groups are carried out as in C

Beside the machine go the reading of its file, that of C, the name of the directive and the
open groups (`Invariant`). One character keeps them together (`invariant_next`), and what it
does to the text in hand follows from the turns of the machine (`StepRight`).
-/

namespace Swig4Ada.Preprocessor

open Swig4Ada.Lib

variable {σ : Type} {W : FileWorld σ}

/-- What is known between two characters. -/
structure Invariant (y : Survey σ) : Prop where
  fits : FitsBoth y.both
  agrees : Agrees y.reading y.inC
  sound : Sound y.state
  named : Named y.state y.directive
  tracks : Conditionals.Tracks y.groups y.cond

/-- What a character does. -/
structure StepRight (W : FileWorld σ) (y y' : Survey σ) (c : Char) : Prop where
  ends : y.inC.ends c = true → y'.mode = .start
  apart : y'.groups ≠ y.groups → y'.state.line.chunk = []
  skipped : y.cond.allow = false → OnlyBreaks y.ns y'.ns
  grows : y.ns <+: y'.ns
  hands : HoldsText y.state = true → Hands W y.state y'.state

variable {y : Survey σ} {c : Char}

theorem next_state (y : Survey σ) (c : Char) :
    (y.next W c).state = readFileChar W 3 y.state c ∧
      (y.next W c).both = readBoth W y.both c := by
  rw [Survey.next]
  dsimp only
  split <;> exact ⟨rfl, rfl⟩

theorem holdsText_outside {fs : FileState σ} (h : HoldsText fs = true) :
    fs.line.mode.inDirective = false := by
  rw [HoldsText] at h
  split at h
  · next hmode =>
      rw [hmode]
      rfl
  · cases hm : fs.line.mode with
    | skip quote escaped inValue =>
        rw [hm] at h
        cases inValue with
        | true => cases h
        | false => rfl
    | _ =>
        rw [hm] at h
        first | rfl | cases h

theorem fits_not_directive {mode : Mode} {part : BlockPart} {r : Reading}
    (h : Fits mode part r) : mode ≠ .directive := by
  rintro rfl
  exact h

/-- The groups behind a directive are those for the name that the machine has. -/
theorem groupsNext_name {W : World σ} {symbols : σ} {value : List Char} {name name' : DirectiveName}
    (h : name = name' ∨ name.isConditional = false ∧ name'.isConditional = false)
    (groups : List Group) : groupsNext name (holds W symbols value name) groups =
      groupsNext name' (holds W symbols value name') groups := by
  have hother : ∀ {name : DirectiveName} (truth : Bool), name.isConditional = false →
      groupsNext name truth groups = groups := by
    intro name truth h
    cases name with
    | ifdef | ifndef | ifCond | elif | els | endif => cases h
    | _ => rfl
  rcases h with rfl | ⟨h, h'⟩
  · rfl
  · rw [hother _ h, hother _ h']

theorem groupsNext_opens {name : DirectiveName} (h : name.opens = true) (truth : Bool)
    (groups : List Group) : (groupsNext name truth groups).length = groups.length + 1 := by
  cases name with
  | ifdef | ifndef | ifCond => rfl
  | _ => cases h

theorem StepRight.of_turn {y' : Survey σ} (h : Turn W y.state y'.state)
    (hends : y.inC.ends c = false) (hgroups : y'.groups = y.groups) : StepRight W y y' c where
  ends := fun h => by rw [hends] at h; cases h
  apart := fun h => absurd hgroups h
  skipped := h.skipped
  grows := h.grows
  hands := h.hands

theorem mode_outside (h : Invariant y) (hin : y.reading.inDirective = false) :
    y.mode.inDirective = false := (inDirective_of_fits h.fits).trans hin

/-- Outside of directives. -/
theorem turn_outside (h : Invariant y) (hfits : FitsBoth (y.next W c).both)
    (hin : y.reading.inDirective = false) : Turn W y.state (y.next W c).state := by
  have hread : (readFileChar W 3 y.state c).line.mode ≠ .directive := by
    rw [← (next_state (W := W) y c).1]
    exact fits_not_directive hfits
  rw [(next_state (W := W) y c).1]
  refine (readFile_turn c 3 y.state h.sound (fits_not_directive h.fits) hread).resolve_right ?_
  rintro ⟨hmode, -⟩
  have hout : y.state.line.mode.inDirective = false := mode_outside h hin
  rw [hout] at hmode
  cases hmode

/-- In a block the reading rests. -/
theorem next_paused (h : Invariant y) (hfits : FitsBoth (y.next W c).both)
    (hpaused : y.rests W c = true) :
    Invariant (y.next W c) ∧ StepRight W y (y.next W c) c := by
  have hnext : y.next W c = { y with state := readFileChar W 3 y.state c } := by
    have hboth : readBoth W y.both c = (readFileChar W 3 y.state c, y.reading) := by
      rw [readBoth]
      exact congrArg (Prod.mk _) (if_pos hpaused)
    rw [Survey.next, hboth]
    exact if_pos hpaused
  have hreading : (y.next W c).reading = y.reading := by rw [hnext]
  have htext : y.reading = .text := by
    have hor := hpaused
    rw [Survey.rests, Bool.or_eq_true, decide_eq_true_iff] at hor
    rcases hor with hblock | hmode
    · rw [← hreading]
      refine text_of_inBlock hfits ?_
      rw [hnext]
      exact hblock
    · have hfit := h.fits
      rw [FitsBoth, show y.both.1.line.mode = y.mode from rfl, hmode] at hfit
      exact hfit
  have hin : y.reading.inDirective = false := by
    rw [htext]
    rfl
  have hturn := turn_outside h hfits hin
  have hout : (y.next W c).mode.inDirective = false :=
    (inDirective_of_fits hfits).trans ((congrArg Reading.inDirective hreading).trans hin)
  refine ⟨⟨hfits, ?_, hturn.sound, named_outside hout _, ?_⟩, .of_turn hturn ?_ ?_⟩
  · rw [hnext]
    exact h.agrees
  · rw [Survey.cond, hturn.cond, hnext]
    exact h.tracks
  · rw [← agrees_ends h.agrees, htext]
    rfl
  · rw [hnext]

/-- The survey where the reading does not rest. -/
theorem next_read (hpaused : ¬ y.rests W c = true) :
    y.next W c =
      { state := readFileChar W 3 y.state c, reading := y.reading.next c, inC := y.inC.next c
        directive := if y.inC.place.inDirective then y.directive ++ [c] else []
        groups :=
          if y.inC.ends c then
            groupsNext (directiveName (nameInC y.directive))
              (holds W.toWorld (readFileChar W 3 y.state c).line.symbols
                (readFileChar W 3 y.state c).line.value (directiveName (nameInC y.directive)))
              y.groups
          else y.groups } := by
  have hboth : readBoth W y.both c = (readFileChar W 3 y.state c, y.reading.next c) := by
    rw [readBoth]
    exact congrArg (Prod.mk _) (if_neg hpaused)
  rw [Survey.next, hboth]
  exact if_neg hpaused

/-- Where the machine may begin a directive it is in the first column. -/
theorem start_of_hash {x : FileState σ × Reading} (h : FitsBoth x) (hread : Unswallowed x '#')
    (hplace : InPlace x '#') (hr : x.2 = .lineStart) : x.1.line.mode = .start := by
  rw [FitsBoth, hr] at h
  cases hm : x.1.line.mode with
  | start => rfl
  | text | embedded | embeddedBackslash =>
      rw [InPlace, hm] at hplace
      exact absurd rfl (hplace hr)
  | swigBlock =>
      rw [InPlace, hm] at hplace
      exact absurd rfl (hplace hr)
  | outside =>
      rw [Unswallowed, hm] at hread
      exact hread.elim
  | hash | name | beforeValue | valueSlash =>
      rw [hm] at h
      obtain ⟨previous, -, h⟩ := h
      cases h
  | value | valueLineComment | valueBlockComment | valueBlockCommentStar =>
      rw [hm] at h
      obtain ⟨previous, h⟩ := h
      cases h
  | skip quote escaped inValue =>
      rw [hm] at h
      cases inValue with
      | true =>
          obtain ⟨-, previous, h⟩ := h
          cases h
      | false => cases h.2
  | _ =>
      rw [hm] at h
      cases h

theorem ends_newline {q : CReading} (h : q.ends c = true) : c = '\n' := by
  rw [CReading.ends, Bool.and_eq_true] at h
  cases hplace : q.place with
  | directive part =>
      rw [hplace, Place.ends, Bool.and_eq_true] at h
      exact of_decide_eq_true h.2.1
  | _ =>
      rw [hplace] at h
      cases h.2

/-- No directive ends. -/
theorem next_goesOn (h : Invariant y) (hfits : FitsBoth (y.next W c).both)
    (hagrees : Agrees (y.next W c).reading (y.next W c).inC) (hread : Unswallowed y.both c)
    (hplace : InPlace y.both c) (hends : y.inC.ends c = false)
    (hpaused : ¬ y.rests W c = true) :
    Invariant (y.next W c) ∧ StepRight W y (y.next W c) c := by
  obtain ⟨hstate, hboth⟩ := next_state (W := W) y c
  have hnext := next_read (W := W) hpaused
  have hgroups : (y.next W c).groups = y.groups := by
    rw [hnext]
    exact if_neg (by rw [hends]; exact Bool.false_ne_true)
  have hin : y.inC.place.inDirective = y.reading.inDirective :=
    here_inDirective.symm.trans (inDirective_of_matches h.agrees.place).symm
  have hmode : y.state.line.mode.inDirective = y.reading.inDirective := inDirective_of_fits h.fits
  have hright : DirectiveRight y.both (y.next W c).both c := by
    rw [hboth] at hfits ⊢
    exact right_of_fits h.fits hfits
  have htracks : ∀ {z : Survey σ}, Turn W y.state z.state → z.groups = y.groups →
      Conditionals.Tracks z.groups z.cond := by
    intro z hturn hz
    rw [hz, Survey.cond, hturn.cond]
    exact h.tracks
  cases hreading : y.reading.inDirective with
  | true =>
      rw [hreading] at hin hmode
      have hmode' : (y.next W c).state.line.mode.inDirective = true := by
        by_contra hout
        have hdone := hright.ends.1 ⟨hmode, Bool.eq_false_iff.2 hout⟩
        rw [show y.both.2.ends c = y.reading.ends c from rfl, agrees_ends h.agrees, hends] at hdone
        cases hdone
      have hnot : (readFileChar W 3 y.state c).line.mode ≠ .directive := by
        rw [← hstate]
        exact fits_not_directive hfits
      have hturn : Turn W y.state (y.next W c).state := by
        rw [hstate] at hmode' ⊢
        refine (readFile_turn c 3 y.state h.sound (fits_not_directive h.fits) hnot).resolve_right ?_
        rintro ⟨-, hend⟩
        rw [atEnd_inDirective hend] at hmode'
        cases hmode'
      have hdirective : (y.next W c).directive = y.directive ++ [c] := by
        rw [hnext]
        exact if_pos hin
      refine ⟨⟨hfits, hagrees, hturn.sound, ?_, htracks hturn hgroups⟩,
        .of_turn hturn hends hgroups⟩
      rw [hdirective]
      rw [hstate] at hmode' ⊢
      exact named_next h.named hmode (fits_not_directive h.fits) hmode' hnot
  | false =>
      rw [hreading] at hin
      have hturn := turn_outside h hfits hreading
      refine ⟨⟨hfits, hagrees, hturn.sound, ?_, htracks hturn hgroups⟩,
        .of_turn hturn hends hgroups⟩
      cases hmode' : (y.next W c).state.line.mode.inDirective with
      | false => exact named_outside hmode' _
      | true =>
          obtain ⟨hline, rfl⟩ := hright.starts.1 ⟨hmode.trans hreading, hmode'⟩
          have hstart : y.state.line.mode = .start := start_of_hash h.fits hread hplace hline
          have hhash : (y.next W '#').state.line.mode = .hash := by
            rw [hstate, readFile_start hstart, if_pos rfl]
          have hdirective : (y.next W '#').directive = [] := by
            rw [hnext]
            exact if_neg (by rw [hin]; exact Bool.false_ne_true)
          rw [Named, hhash, hdirective]
          exact fun _ h => absurd h List.not_mem_nil

/-- A directive ends. -/
theorem next_ends (h : Invariant y) (hfits : FitsBoth (y.next W c).both)
    (hagrees : Agrees (y.next W c).reading (y.next W c).inC)
    (hname : directiveName (nameInC y.directive) = directiveName (firstWord y.directive) ∨
      (directiveName (nameInC y.directive)).isConditional = false ∧
        (directiveName (firstWord y.directive)).isConditional = false)
    (hroom : (y.next W c).groups.length ≤ condLines) (hends : y.inC.ends c = true)
    (hpaused : ¬ y.rests W c = true) :
    Invariant (y.next W c) ∧ StepRight W y (y.next W c) c := by
  obtain ⟨hstate, hboth⟩ := next_state (W := W) y c
  have hnext := next_read (W := W) hpaused
  have hright : DirectiveRight y.both (y.next W c).both c := by
    rw [hboth] at hfits ⊢
    exact right_of_fits h.fits hfits
  obtain ⟨hmode, hmode'⟩ : y.state.line.mode.inDirective = true ∧
      (y.next W c).state.line.mode.inDirective = false :=
    hright.ends.2 ((agrees_ends h.agrees).trans hends)
  obtain rfl := ends_newline hends
  have hgroups : (y.next W '\n').groups = groupsNext (directiveName (firstWord y.directive))
      (holds W.toWorld (readFileChar W 3 y.state '\n').line.symbols
        (readFileChar W 3 y.state '\n').line.value (directiveName (firstWord y.directive)))
      y.groups := by
    rw [hnext, ← groupsNext_name hname]
    exact if_pos hends
  have hnamed : Named (y.next W '\n').state (y.next W '\n').directive := named_outside hmode' _
  have hout : HoldsText y.state = true → Hands W y.state (y.next W '\n').state := by
    intro hholds
    rw [holdsText_outside hholds] at hmode
    cases hmode
  have hbreak := readFile_lineBreak (W := W) hmode (fits_not_directive h.fits) (by
    rw [← hstate]
    exact hmode')
  rcases hbreak with ⟨hhash, hread⟩ | ⟨hhash, line, hline, hid, hend, hread⟩
  · -- A null directive.
    have hspaces : ∀ c ∈ y.directive, isSpace c = true := by
      have hnamed := h.named
      rw [Named, hhash] at hnamed
      exact hnamed
    have hsame : (y.next W '\n').groups = y.groups := by
      rw [hgroups, firstWord_spaces hspaces]
      rfl
    have hline : (y.next W '\n').state.line = putChunk y.state.line '\n' .start := by
      rw [hstate, hread]
      rfl
    have hmode'' : (y.next W '\n').state.line.mode = .start := by rw [hline]; rfl
    have hns : (y.next W '\n').ns = y.ns := by rw [Survey.ns, hline]; rfl
    refine ⟨⟨hfits, hagrees, ⟨fun hb => ?_, fun hd => ?_⟩, hnamed, ?_⟩,
      ⟨fun _ => hmode'', fun hne => absurd hsame hne, fun _ => ?_, ?_, hout⟩⟩
    · rw [hmode''] at hb
      cases hb
    · rw [hmode''] at hd
      cases hd
    · rw [hsame, Survey.cond, hline]
      exact h.tracks
    · rw [hns]
      exact .refl _
    · rw [hns]
  · have hturn : Turn W y.state (y.state.withLine line) := by
      have hblock : y.state.line.mode ≠ .swigBlock := by
        intro hb
        rw [hb] at hmode
        cases hmode
      have hstep : LineTurn W.toWorld y.state.line (y.state.withLine line).line := by
        rw [show (y.state.withLine line).line = line from rfl, ← hline]
        exact parseStep_turn hblock (fits_not_directive h.fits)
      refine hstep.turn h.sound hblock ?_
      rw [show (y.state.withLine line).line = line from rfl, hend]
      intro h
      cases h
    have hword : firstWord y.directive = line.id := (h.named.firstWord hmode hhash).trans hid.symm
    have hcond : line.cond = y.cond := hturn.cond
    have hempty : line.chunk = [] := hturn.sound.empty (by
      rw [show (y.state.withLine line).line = line from rfl, hend]
      rfl)
    have hline' : (y.next W '\n').state.line = directiveEnd W.toWorld line := by
      rw [hstate, hread]
      rfl
    have hended : Ended W.toWorld line (directiveEnd W.toWorld line) := by
      refine directiveEnd_ended W.toWorld fun hopens => ?_
      rw [hgroups, hword, groupsNext_opens hopens] at hroom
      rw [hcond, h.tracks.follows.level]
      exact hroom
    rw [← hline'] at hended
    refine ⟨⟨hfits, hagrees, ⟨fun hb => ?_, fun hd => ?_⟩, hnamed, ?_⟩,
      ⟨fun _ => hended.mode, fun _ => hended.chunk.trans hempty, fun hallow => ?_, ?_, hout⟩⟩
    · rw [hended.mode] at hb
      cases hb
    · rw [hended.mode] at hd
      cases hd
    · rw [hgroups, hword, ← hstate, Survey.cond, hended.cond, hcond]
      exact h.tracks.next _ _
    · exact (hturn.skipped hallow).trans (hended.skipped (by rw [hcond]; exact hallow))
    · exact hturn.grows.trans hended.grows

theorem invariant_next (h : Invariant y) (hread : Unswallowed y.both c)
    (hplace : InPlace y.both c) (hinC : AsInC y c)
    (hroom : (y.next W c).groups.length ≤ condLines) :
    Invariant (y.next W c) ∧ StepRight W y (y.next W c) c := by
  have hfits : FitsBoth (y.next W c).both := by
    rw [(next_state (W := W) y c).2]
    exact fits_step h.fits hread hplace
  by_cases hpaused : y.rests W c = true
  · exact next_paused h hfits hpaused
  have hagrees : Agrees (y.next W c).reading (y.next W c).inC := by
    rw [next_read hpaused]
    exact agrees_next h.agrees hinC.hash hinC.literal hinC.splice
  cases hends : y.inC.ends c with
  | false => exact next_goesOn h hfits hagrees hread hplace hends hpaused
  | true => exact next_ends h hfits hagrees (hinC.name hends) hroom hends hpaused

/-! ## Ordinary text -/

/-- What is still to be put into the chunk: a percent sign and the name behind it. -/
def pending (st : ParseState σ) : List Char :=
  match st.mode with
  | .percent => ['%']
  | .swigName => st.decl
  | _ => []

/-- A character of ordinary text, in the machine. -/
structure Takes (st st' : ParseState σ) (c : Char) : Prop where
  inHand : st'.chunk ++ pending st' = st.chunk ++ pending st ++ [c]
  ns : st'.ns = st.ns
  lineBreak : c = '\n' → pending st' = []

theorem Takes.put {st : ParseState σ} {mode : Mode} (hst : pending st = [])
    (hmode : mode ≠ .percent ∧ mode ≠ .swigName) : Takes st (putChunk st c mode) c := by
  have hnone : pending (putChunk st c mode) = [] := by
    rw [pending, putChunk]
    split
    · next h => exact absurd h hmode.1
    · next h => exact absurd h hmode.2
    · rfl
  refine ⟨?_, rfl, fun _ => hnone⟩
  rw [hnone, hst, List.append_nil, List.append_nil]
  rfl

/-- In state 1. -/
theorem takes_text {st : ParseState σ} (hmode : st.mode = .text) :
    (parseStep W.toWorld st c).2 = false ∧ (parseStep W.toWorld st c).1.mode ≠ .swigBlock ∧
      Takes st (parseStep W.toWorld st c).1 c := by
  have hnone : pending st = [] := by rw [pending, hmode]
  simp only [parseStep, hmode]
  split
  · next hc =>
      subst hc
      refine ⟨rfl, (by intro h; cases h), ⟨?_, rfl, by intro h; cases h⟩⟩
      rw [hnone, List.append_nil]
      rfl
  repeat' split
  all_goals exact ⟨rfl, (by intro h; cases h),
    .put hnone ⟨(by intro h; cases h), by intro h; cases h⟩⟩

theorem takes_again {fs fs₁ : FileState σ} {n : Nat} (hstep : fileStep W fs c = (fs₁, true))
    (hmode : fs₁.line.mode = .text) :
    Takes fs₁.line (readFileChar W (n + 2) fs c).line c := by
  obtain ⟨hagain, hblock, htakes⟩ := takes_text (W := W) (c := c) hmode
  have hfile : fileStep W fs₁ c =
      (fs₁.withLine (parseStep W.toWorld fs₁.line c).1, false) := by
    refine fileStep_line (hmode.trans_ne (by decide)) ?_ hblock
    rw [← hagain]
  rw [readFileChar_again hstep, readFileChar_taken hfile]
  exact htakes

theorem takes_put {fs : FileState σ} {n : Nat} (mode : Mode) (hne : fs.line.mode ≠ .swigBlock)
    (hstep : parseStep W.toWorld fs.line c = (putChunk fs.line c mode, false))
    (hnone : pending fs.line = [])
    (hmode : mode ≠ .percent ∧ mode ≠ .swigName ∧ mode ≠ .swigBlock) :
    Takes fs.line (readFileChar W (n + 2) fs c).line c := by
  rw [readFileChar_taken (fileStep_line hne hstep hmode.2.2)]
  exact .put hnone ⟨hmode.1, hmode.2.1⟩

/-- In state 0. -/
theorem takes_start {fs : FileState σ} {n : Nat} (hm : fs.line.mode = .start)
    (hin' : (readFileChar W (n + 2) fs c).line.mode.inDirective = false) :
    Takes fs.line (readFileChar W (n + 2) fs c).line c := by
  have hne : fs.line.mode ≠ .swigBlock := hm.trans_ne (by decide)
  have hnone : pending fs.line = [] := by rw [pending, hm]
  by_cases hhash : c = '#'
  · have hstart : (readFileChar W (n + 2) fs c).line.mode = .hash := by
      rw [readFile_start hm, if_pos hhash]
    rw [hstart] at hin'
    cases hin'
  by_cases hspace : isSpace c = true
  · exact takes_put .start hne (by simp only [parseStep, hm, if_neg hhash, if_pos hspace]) hnone
      (by decide)
  · have hstep : parseStep W.toWorld fs.line c = ({ fs.line with mode := .text }, true) := by
      simp only [parseStep, hm, if_neg hhash, if_neg hspace]
    obtain ⟨hhand, hns, hbreak⟩ :=
      takes_again (n := n) (fileStep_line hne hstep (by intro h; cases h)) rfl
    refine ⟨?_, hns, hbreak⟩
    rw [hhand, hnone]
    rfl

/-- In state 100, where no block begins. -/
theorem takes_percent {fs : FileState σ} {n : Nat} (hm : fs.line.mode = .percent)
    (hswig' : (readFileChar W (n + 2) fs c).line.mode.ofSwig = false) :
    Takes fs.line (readFileChar W (n + 2) fs c).line c := by
  have hne : fs.line.mode ≠ .swigBlock := hm.trans_ne (by decide)
  have hone : pending fs.line = ['%'] := by rw [pending, hm]
  have hswigNot : ∀ line : ParseState σ, parseStep W.toWorld fs.line c = (line, false) →
      line.mode ≠ .swigBlock → line.mode.ofSwig = true → False := by
    intro line hstep hblock hof
    rw [readFileChar_taken (fileStep_line hne hstep hblock),
      show (fs.withLine line).line = line from rfl, hof] at hswig'
    cases hswig'
  by_cases hbrace : c = '\x7b'
  · refine (hswigNot _ (by simp only [parseStep, hm, if_pos hbrace]; rfl) ?_ rfl).elim
    intro h
    cases h
  by_cases hhash : c = '#'
  · refine (hswigNot _ (by simp only [parseStep, hm, if_neg hbrace, if_pos hhash]; rfl) ?_
      rfl).elim
    intro h
    cases h
  by_cases hid : isIdentifier c = true
  · have hstep : parseStep W.toWorld fs.line c =
        ({ fs.line with decl := ['%', c], mode := .swigName }, false) := by
      simp only [parseStep, hm, if_neg hbrace, if_neg hhash, if_pos hid]
    rw [readFileChar_taken (fileStep_line hne hstep (by intro h; cases h))]
    refine ⟨?_, rfl, ?_⟩
    · rw [hone, List.append_assoc]
      rfl
    · rintro rfl
      exact absurd hid (by decide)
  · have hstep : parseStep W.toWorld fs.line c =
        (putChunk (putChunk fs.line '%' .text) c .text, false) := by
      simp only [parseStep, hm, if_neg hbrace, if_neg hhash, if_neg hid]
    rw [readFileChar_taken (fileStep_line hne hstep (by intro h; cases h))]
    refine ⟨?_, rfl, fun _ => rfl⟩
    rw [hone]
    exact List.append_nil _

/-- In state 110, behind a name that is no directive with a block. -/
theorem takes_swigName {fs : FileState σ} {n : Nat} (hm : fs.line.mode = .swigName)
    (hname : isIdChar c = false →
      fs.line.decl ≠ "%line".toList ∧ fs.line.decl ∉ blockDirectives) :
    Takes fs.line (readFileChar W (n + 2) fs c).line c := by
  have hne : fs.line.mode ≠ .swigBlock := hm.trans_ne (by decide)
  have hdecl : pending fs.line = fs.line.decl := by rw [pending, hm]
  by_cases hid : isIdChar c = true
  · have hstep : parseStep W.toWorld fs.line c =
        ({ fs.line with decl := fs.line.decl ++ [c] }, false) := by
      simp only [parseStep, hm, hid, not_true_eq_false, if_false]
    rw [readFileChar_taken (fileStep_line hne hstep hne)]
    refine ⟨?_, rfl, ?_⟩
    · rw [hdecl, pending, show (fs.withLine { fs.line with
        decl := fs.line.decl ++ [c] }).line.mode = fs.line.mode from rfl, hm, List.append_assoc]
      rfl
    · rintro rfl
      exact absurd hid (by decide)
  · obtain ⟨hline, hblock⟩ := hname (Bool.eq_false_iff.2 hid)
    have hstep : parseStep W.toWorld fs.line c =
        ({ fs.line with chunk := fs.line.chunk ++ fs.line.decl, mode := .text }, true) := by
      simp only [parseStep, hm, if_pos hid, swigDirective, if_neg hblock, if_neg hline]
    obtain ⟨hhand, hns, hbreak⟩ :=
      takes_again (n := n) (fileStep_line hne hstep (by intro h; cases h)) rfl
    refine ⟨?_, hns, hbreak⟩
    rw [hhand, hdecl]
    exact congrArg (· ++ [c]) (List.append_nil _)

/-- Ordinary text is taken into the chunk. -/
theorem takes_ordinary {fs : FileState σ} {n : Nat} (hin : fs.line.mode.inDirective = false)
    (hswig : fs.line.mode.ofSwig = false)
    (hin' : (readFileChar W (n + 2) fs c).line.mode.inDirective = false)
    (hswig' : (readFileChar W (n + 2) fs c).line.mode.ofSwig = false)
    (hname : fs.line.mode = .swigName → isIdChar c = false →
      fs.line.decl ≠ "%line".toList ∧ fs.line.decl ∉ blockDirectives) :
    Takes fs.line (readFileChar W (n + 2) fs c).line c := by
  have hne : fs.line.mode ≠ .swigBlock := by
    intro h
    rw [h] at hswig
    cases hswig
  cases hm : fs.line.mode with
  | start => exact takes_start hm hin'
  | text =>
      obtain ⟨hagain, hblock, htakes⟩ := takes_text (W := W) (c := c) hm
      have hfile : fileStep W fs c = (fs.withLine (parseStep W.toWorld fs.line c).1, false) := by
        refine fileStep_line hne ?_ hblock
        rw [← hagain]
      rw [readFileChar_taken hfile]
      exact htakes
  | slash =>
      have hnone : pending fs.line = [] := by rw [pending, hm]
      by_cases hslash : c = '/'
      · exact takes_put .lineComment hne (by simp only [parseStep, hm, if_pos hslash]) hnone
          (by decide)
      by_cases hstar : c = '*'
      · exact takes_put .blockComment hne
          (by simp only [parseStep, hm, if_neg hslash, if_pos hstar]) hnone (by decide)
      · exact takes_put .text hne
          (by simp only [parseStep, hm, if_neg hslash, if_neg hstar]) hnone (by decide)
  | lineComment | blockComment =>
      refine takes_put _ hne (by simp only [parseStep, hm]; rfl) (by rw [pending, hm]) ?_
      split <;> decide
  | blockCommentStar =>
      have hnone : pending fs.line = [] := by rw [pending, hm]
      by_cases hslash : c = '/'
      · exact takes_put .text hne (by simp only [parseStep, hm, if_pos hslash]) hnone (by decide)
      · refine takes_put _ hne (by simp only [parseStep, hm, if_neg hslash]; rfl) hnone ?_
        split <;> decide
  | skip quote escaped inValue =>
      cases inValue with
      | true =>
          rw [hm] at hin
          cases hin
      | false =>
          refine takes_put _ hne (by simp only [parseStep, hm, Bool.false_eq_true, if_false]; rfl)
            (by rw [pending, hm]) ?_
          split
          · exact ⟨(by intro h; cases h), (by intro h; cases h), by intro h; cases h⟩
          split
          · decide
          · exact ⟨(by intro h; cases h), (by intro h; cases h), by intro h; cases h⟩
  | percent => exact takes_percent hm hswig'
  | swigName => exact takes_swigName hm (hname hm)
  | code | codePercent | embedded | embeddedBackslash | swigBlock | outside =>
      rw [hm] at hswig
      cases hswig
  | _ =>
      rw [hm] at hin
      cases hin

/-! ## A whole file -/

section File

variable {symbols : σ} {s : List Char}

theorem survey_append (symbols : σ) (p : List Char) (c : Char) :
    survey W symbols (p ++ [c]) = (survey W symbols p).next W c := by
  rw [survey, List.foldl_append]
  rfl

theorem survey_both (symbols : σ) (p : List Char) :
    (survey W symbols p).both = both W symbols p := by
  induction p using List.reverseRecOn with
  | nil => rfl
  | append_singleton p c ih => rw [survey_append, (next_state _ c).2, ih, both_append]

theorem survey_state (symbols : σ) (p : List Char) :
    (survey W symbols p).state = fileRun W (fileStart symbols) p := by
  induction p using List.reverseRecOn with
  | nil => rfl
  | append_singleton p c ih =>
      rw [survey_append, (next_state _ c).1, ih, fileRun, fileRun, List.foldl_append]
      rfl

theorem invariant_start (symbols : σ) : Invariant (survey W symbols []) where
  fits := .inr rfl
  agrees := ⟨.inl rfl, trivial, by intro h; cases h⟩
  sound := ⟨(by intro h; cases h), by intro h; cases h⟩
  named := (by intro h; cases h)
  tracks := ⟨rfl, rfl, rfl⟩

theorem survey_next (h : ReadRight W symbols s) {p t : List Char}
    (ht : withoutReturns s = p ++ c :: t) (hp : Invariant (survey W symbols p)) :
    Invariant (survey W symbols (p ++ [c])) ∧
      StepRight W (survey W symbols p) (survey W symbols (p ++ [c])) c := by
  have hread := h.read p c t ht
  have hplace := h.place p c t ht
  rw [← survey_both] at hread hplace
  have hfit := h.fit (p ++ [c]) t (by rw [ht, List.append_assoc]; rfl)
  rw [survey_append] at hfit ⊢
  exact invariant_next hp hread hplace (h.inC p c t ht) hfit

theorem invariant_survey (h : ReadRight W symbols s) : ∀ p t, withoutReturns s = p ++ t →
    Invariant (survey W symbols p) := by
  intro p
  induction p using List.reverseRecOn with
  | nil => exact fun _ _ => invariant_start symbols
  | append_singleton p c ih =>
      intro t ht
      rw [List.append_assoc] at ht
      exact (survey_next h ht (ih _ ht)).1

theorem step_survey (h : ReadRight W symbols s) {p t : List Char}
    (ht : withoutReturns s = p ++ c :: t) :
    StepRight W (survey W symbols p) (survey W symbols (p ++ [c])) c :=
  (survey_next h ht (invariant_survey h p _ ht)).2

/-- Text in hand is kept over a part of the file, or handed on in it. -/
theorem hands_survey (h : ReadRight W symbols s) {p : List Char}
    (hholds : HoldsText (survey W symbols p).state = true) : ∀ v t,
      withoutReturns s = p ++ v ++ t →
        Hands W (survey W symbols p).state (survey W symbols (p ++ v)).state := by
  intro v
  induction v using List.reverseRecOn with
  | nil =>
      intro t _
      rw [List.append_nil]
      exact .kept [] rfl (List.append_nil _).symm rfl hholds
  | append_singleton v c ih =>
      intro t ht
      have ht' : withoutReturns s = p ++ v ++ c :: t := by
        rw [ht]
        simp only [List.append_assoc, List.cons_append, List.nil_append]
      have hstep := step_survey h ht'
      rw [← List.append_assoc]
      exact (ih (c :: t) ht').next hstep.hands hstep.grows

/-- The end of the file. -/
theorem fileEnd_turn {fs : FileState σ} (h : Sound fs) : Turn W fs (fileEnd W fs) := by
  rw [fileEnd]
  split
  · next hmode =>
      have hinclude : ∀ g : FileState σ, g.line = fs.line → g.part.ofBlock = false →
          fs.part.ofBlock = false → Turn W fs (endInclude W g) := by
        intro g hline hpart hout
        have hstep : Turn W fs g := .including h hmode hout hline hpart
        refine hstep.trans (endInclude_turn ?_)
        rw [hline]
        exact h.including hmode hout
      cases hpart : fs.part with
      | optionsBlank | filenameBlank | options => exact hinclude _ rfl rfl (by rw [hpart]; rfl)
      | filename | bareFilename =>
          exact hinclude _ rfl (by rw [hpart]; rfl) (by rw [hpart]; rfl)
      | body | statement | statementEnd => exact .refl h
  · exact .refl h

theorem place_outside {y : Survey σ} (h : Invariant y) (hin : y.inC.place.inDirective = false) :
    y.state.line.mode.inDirective = false ∧ y.inC.ends c = false := by
  have hreading : y.reading.inDirective = false :=
    (inDirective_of_matches h.agrees.place).trans (here_inDirective.trans hin)
  refine ⟨mode_outside h hreading, ?_⟩
  rw [← agrees_ends h.agrees]
  exact Reading.not_ends_of_not_inDirective hreading

theorem next_groups {y : Survey σ} (h : y.inC.ends c = false) :
    (y.next W c).groups = y.groups := by
  rw [Survey.next]
  dsimp only
  split
  · rfl
  · exact if_neg (by rw [h]; exact Bool.false_ne_true)

theorem holdsText_ordinary {fs : FileState σ} (hin : fs.line.mode.inDirective = false)
    (hswig : fs.line.mode.ofSwig = false) : HoldsText fs = true := by
  rw [HoldsText, if_neg (fun h => by rw [h] at hswig; cases hswig)]
  cases hm : fs.line.mode with
  | skip quote escaped inValue =>
      rw [hm] at hin
      cases inValue with
      | true => cases hin
      | false => rfl
  | code | codePercent | embedded | embeddedBackslash | swigBlock | outside =>
      rw [hm] at hswig
      cases hswig
  | _ =>
      rw [hm] at hin
      first | rfl | cases hin

/-- Ordinary text comes into hand. -/
structure InHand (y y' : Survey σ) (u : List Char) : Prop where
  chunk : y'.state.line.chunk ++ pending y'.state.line =
    y.state.line.chunk ++ pending y.state.line ++ u
  ns : y'.ns = y.ns
  groups : y'.groups = y.groups

theorem ordinary_step (h : ReadRight W symbols s) {p t : List Char}
    (ht : withoutReturns s = p ++ c :: t)
    (hord : OrdinaryChar (survey W symbols p) (survey W symbols (p ++ [c])) c) :
    InHand (survey W symbols p) (survey W symbols (p ++ [c])) [c] ∧
      HoldsText (survey W symbols (p ++ [c])).state = true ∧
        (c = '\n' → pending (survey W symbols (p ++ [c])).state.line = []) := by
  have hp := invariant_survey h p _ ht
  have hp' := (survey_next h ht hp).1
  obtain ⟨hmode, hends⟩ := place_outside (c := c) hp hord.before.1
  obtain ⟨hmode', -⟩ := place_outside (c := c) hp' hord.behind.1
  have hstate := (next_state (W := W) (survey W symbols p) c).1
  rw [← survey_append] at hstate
  have hread := hmode'
  have hswig := hord.behind.2
  rw [Survey.mode] at hswig
  rw [hstate] at hread hswig
  have htakes := takes_ordinary hmode hord.before.2 hread hswig hord.name
  rw [← hstate] at htakes
  refine ⟨⟨htakes.inHand, htakes.ns, ?_⟩, holdsText_ordinary hmode' hord.behind.2,
    htakes.lineBreak⟩
  rw [survey_append]
  exact next_groups hends

theorem ordinary_run (h : ReadRight W symbols s) {p : List Char} : ∀ u t,
    withoutReturns s = p ++ u ++ t → OrdinaryText W symbols p u →
      InHand (survey W symbols p) (survey W symbols (p ++ u)) u := by
  intro u
  induction u using List.reverseRecOn with
  | nil =>
      intro t _ _
      rw [List.append_nil]
      exact ⟨(List.append_nil _).symm, rfl, rfl⟩
  | append_singleton u c ih =>
      intro t ht hord
      have ht' : withoutReturns s = p ++ u ++ c :: t := by
        rw [ht]
        simp only [List.append_assoc, List.cons_append, List.nil_append]
      have hbefore := ih (c :: t) ht' fun v e w hu =>
        hord v e (w ++ [c]) (by rw [hu, List.append_assoc, List.cons_append])
      have hstep := (ordinary_step h ht' (hord u c [] rfl)).1
      rw [← List.append_assoc]
      refine ⟨?_, hstep.ns.trans hbefore.ns, hstep.groups.trans hbefore.groups⟩
      rw [hstep.chunk, hbefore.chunk]
      exact List.append_assoc _ _ _

/-- The text in hand at some place of the file is handed on, at its end at the latest. -/
theorem handed_end (h : ReadRight W symbols s) {p t : List Char}
    (ht : withoutReturns s = p ++ t) (hholds : HoldsText (survey W symbols p).state = true) :
    ∃ after symbols' more, (preprocessorParseFile W symbols s).ns = (survey W symbols p).ns ++
      emit W.toWorld (survey W symbols p).cond.allow symbols'
        ((survey W symbols p).state.line.chunk ++ after) ++ more := by
  obtain ⟨fs, hfs⟩ : ∃ fs, fileEnd W (survey W symbols (withoutReturns s)).state = fs := ⟨_, rfl⟩
  have hlast := fileEnd_turn (W := W) (invariant_survey h _ [] (List.append_nil _).symm).sound
  have hhands := hands_survey h hholds t [] (by rw [List.append_nil, ht])
  rw [← ht] at hhands
  have hns : (preprocessorParseFile W symbols s).ns =
      fs.line.ns ++ emit W.toWorld fs.line.cond.allow fs.line.symbols fs.line.chunk := by
    rw [← hfs, survey_state]
    exact addChunk_ns _
  rw [hfs] at hlast
  rw [hns]
  cases hhands.next hlast.hands hlast.grows with
  | kept after hkept hchunk hcond _ =>
      refine ⟨after, fs.line.symbols, [], ?_⟩
      rw [List.append_nil, hkept, hchunk, hcond]
      rfl
  | handed after symbols' more hhanded =>
      refine ⟨after, symbols',
        more ++ emit W.toWorld fs.line.cond.allow fs.line.symbols fs.line.chunk, ?_⟩
      rw [hhanded, List.append_assoc]
      rfl

end File

/-! ## Files whose conditions can be evaluated -/

section Evaluation

instance (x : FileState σ × Reading) (c : Char) : Decidable (Unswallowed x c) := by
  unfold Unswallowed
  split
  · infer_instance
  · infer_instance
  · infer_instance
  · exact instDecidableForall
  · cases x.1.part <;> first | exact instDecidableForall | exact instDecidableTrue
  · infer_instance
  · infer_instance

instance (x : FileState σ × Reading) (c : Char) : Decidable (InPlace x c) := by
  delta InPlace
  cases x.1.line.mode with
  | skip quote escaped inValue =>
      cases inValue <;> first | exact instDecidableForall | exact instDecidableTrue
  | _ => first | exact instDecidableForall | exact instDecidableTrue

instance (place : Place) : Decidable place.Splices := by
  unfold Place.Splices
  split <;> infer_instance

instance (y : Survey σ) (c : Char) : Decidable (AsInC y c) :=
  have : Decidable (c = '#' → ∀ blank, y.inC.here = .line blank →
      (y.reading = .lineStart ↔ blank = true)) := instDecidableForall
  have : Decidable (c = '\n' → y.inC.behindBackslash = false → y.inC.place.inLiteral = false) :=
    instDecidableForall
  have : Decidable (c = '\n' → y.inC.behindBackslash = true → y.inC.place.Splices) :=
    instDecidableForall
  have : Decidable (y.inC.ends c = true →
      directiveName (nameInC y.directive) = directiveName (firstWord y.directive) ∨
        (directiveName (nameInC y.directive)).isConditional = false ∧
          (directiveName (firstWord y.directive)).isConditional = false) := instDecidableForall
  decidable_of_iff (_ ∧ _ ∧ _ ∧ _)
    ⟨fun h => ⟨h.1, h.2.1, h.2.2.1, h.2.2.2⟩, fun h => ⟨h.hash, h.literal, h.splice, h.name⟩⟩

variable {symbols : σ}

/-- The conditions at one character. -/
def RightAt (y : Survey σ) (c : Char) : Prop :=
  Unswallowed y.both c ∧ InPlace y.both c ∧ AsInC y c ∧ y.groups.length ≤ condLines

instance (y : Survey σ) (c : Char) : Decidable (RightAt y c) :=
  inferInstanceAs (Decidable (_ ∧ _ ∧ _ ∧ _))

variable {s : List Char}

theorem groupsFit_of (h : ∀ p c t, withoutReturns s = p ++ c :: t →
      (survey W symbols p).groups.length ≤ condLines)
    (hend : (survey W symbols (withoutReturns s)).groups.length ≤ condLines) :
    GroupsFit W symbols s := by
  intro p t ht
  cases t with
  | nil =>
      rw [List.append_nil] at ht
      rw [← ht]
      exact hend
  | cons c t => exact h p c t ht

theorem readRight_of_along
    (h : Along (Survey.next W) RightAt (withoutReturns s) (survey W symbols []))
    (hend : (survey W symbols (withoutReturns s)).groups.length ≤ condLines) :
    ReadRight W symbols s := by
  have hall := along_iff.1 h
  refine ⟨fun p c t ht => ?_, fun p c t ht => ?_, fun p c t ht => (hall p c t ht).2.2.1,
    groupsFit_of (fun p c t ht => (hall p c t ht).2.2.2) hend⟩
  · rw [← survey_both]
    exact (hall p c t ht).2.1
  · rw [← survey_both]
    exact (hall p c t ht).1

/-- Nothing is expanded, and conditions are true but for `0`. -/
def plainFile : FileWorld Unit where
  replace _ _ s := s
  isDefined _ _ := false
  expr s := .ok (if s = ['0'] then 0 else 1)
  define _ _ _ := ((), none)
  undef _ _ := ()
  includeFile _ _ := ((), [])
  includeDirective _ _ _ _ _ _ := ((), none)
  defineMacro _ _ := ()

/-- A file with a block, a macro of several lines and two groups, one in the other. -/
def nestedFile : List Char :=
  ("%\x7b\n#if\n%\x7d\n%define M\n#else\n%enddef\n#if 1\na\n#if 0\nx 'q'\n#else\n" ++
    "b /* c */\n#endif\n#endif\ny\n").toList

end Evaluation

end Swig4Ada.Preprocessor

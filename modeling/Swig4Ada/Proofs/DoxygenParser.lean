import Swig4Ada.Doxygen.Parser

/-!
# The ranges of Doxygen commands

What a command takes is looked up before its range is parsed: its words, the ends of its
ranges and where it leaves the iterator, each from the tokens behind it alone. That is its
extent. The parser does not compare it with the range of the command around it. Where the
extents nest, every call of `parse` ends where it was to end, and each token is gone past
once; a word that is looked for on the next line, or the end of a line that two commands
take, makes the iterator pass the end of a range, and the comparison for equality in `parse`
fails from there on.

The search for the end of a block begins behind the first token of it, and counts blocks for
`if` only.
-/

namespace Swig4Ada.Doxygen

/-! ## Calls and blocks that are right -/

/-- A call of `parse` ends where it was to end. -/
def Call.Exact (c : Call) : Prop := c.finish = c.stop ∧ c.stop <:+ c.start

/-- What ends a branch of a conditional block, where `depth` blocks are open in it. -/
def matchingEndif : Nat → List Token → Option (List Token)
  | _, [] => none
  | depth, t :: ts =>
      if t.type ≠ .command then matchingEndif depth ts
      else if t.string ∈ ifCommands then matchingEndif (depth + 1) ts
      else if t.string = "endif".toList then
        match depth with
        | 0 => some (t :: ts)
        | depth + 1 => matchingEndif depth ts
      else if depth = 0 ∧ t.string ∈ elseCommands then some (t :: ts)
      else matchingEndif depth ts

/-- The end command of a block, where `depth` blocks of its kind are open in it. -/
def matchingEnd (theCommand endCommand : List Char) : Nat → List Token → Option (List Token)
  | _, [] => none
  | depth, t :: ts =>
      if t.isCommand endCommand then
        match depth with
        | 0 => some (t :: ts)
        | depth + 1 => matchingEnd theCommand endCommand depth ts
      else if t.isCommand theCommand then matchingEnd theCommand endCommand (depth + 1) ts
      else matchingEnd theCommand endCommand depth ts

/-- The first end command. -/
def firstEnd (endCommand : List Char) : List Token → Option (List Token)
  | [] => none
  | t :: ts => if t.isCommand endCommand then some (t :: ts) else firstEnd endCommand ts

/-- The end command that belongs to a block. -/
def BlockKind.matching : BlockKind → List Token → Option (List Token)
  | .conditional => matchingEndif 0
  | .raw endCommand => firstEnd endCommand
  | .parsed theCommand endCommand => matchingEnd theCommand endCommand 0

/-- A block is closed by its own end command. -/
def Block.Closed (b : Block) : Prop := b.close.isSome ∧ b.close = b.kind.matching b.inside

/-! ## Extents -/

/-- What a command takes: where its first range begins, where its ranges end, and where the
iterator is left. -/
structure Extent where
  start : List Token
  stops : List (List Token)
  final : List Token
deriving DecidableEq, Repr

/-- Words only, or nothing. -/
def Extent.words (r : List Token) : Extent := ⟨r, [], r⟩

def rangeExtent (args : List Arg) (range : List Token → Option (List Token)) (skip : Bool)
    (r : List Token) : Extent :=
  let read := readArgs args r
  match read.1 with
  | .error _ => .words read.2
  | .ok _ =>
      match range read.2 with
      | none => ⟨read.2, [], if skip then skipEndOfLine read.2 else read.2⟩
      | some stop => ⟨read.2, [stop], if skip then skipEndOfLine stop else stop⟩

/-- The word is looked for behind the end of the line, too. -/
def wordExtent (r : List Token) : Extent :=
  .words (getNextWord (if isEndOfLine r then skipWhitespaceTokens r else r)).2

/-- The end of a block that is not empty, has an end command and no other block of its kind
before it. -/
def parsedEnd (theCommand endCommand : List Char) (r : List Token) : Option (List Token) :=
  let inside := r.takeWhile fun t => !t.isCommand endCommand
  let close := r.dropWhile fun t => !t.isCommand endCommand
  if inside = [] ∨ inside.any (Token.isCommand theCommand) ∨ close = [] then none else some close

def parsedExtent (theCommand endCommand : List Char) (r : List Token) : Option Extent :=
  (parsedEnd theCommand endCommand r).map fun close => ⟨r, [close], close.tail⟩

def sectionExtent (theCommand : List Char) (r : List Token) : Option Extent :=
  (getEndOfSection theCommand r).map fun stop => ⟨r, [stop], stop⟩

/-- A line and a paragraph. -/
def parExtent (r : List Token) : Extent :=
  ⟨r, [getOneLine r, getEndOfParagraph (getOneLine r)], getEndOfParagraph (getOneLine r)⟩

def overloadExtent (r : List Token) : Extent :=
  match someLine r with
  | some endOfLine => ⟨r, [endOfLine], endOfLine⟩
  | none => .words r

def refExtent (r : List Token) : Extent :=
  let name := getNextWord r
  let refTitle := getNextWord name.2
  .words (if name.1 ≠ [] ∧ 1 < refTitle.1.length ∧ refTitle.1.head? = some '"' then refTitle.2
    else name.2)

def verbatimExtent (theCommand : List Char) (r : List Token) : Option Extent :=
  let close := (getStringTilEndCommand (endOfVerbatim theCommand) r).2
  if close = [] then none else some (.words close.tail)

def ifExtent (needsCond : Bool) (r : List Token) : Option Extent :=
  let cond := if needsCond then getNextWord r else ([], r)
  if needsCond ∧ cond.1 = [] then some (.words cond.2)
  else
    (findEndif 1 cond.2).map fun e => ⟨cond.2, [e.1], if e.2 then e.1.tail else e.1⟩

def uniqueExtent (theCommand : List Char) (r : List Token) : Option Extent :=
  if theCommand = "arg".toList ∨ theCommand = "li".toList then sectionExtent theCommand r
  else if theCommand = "xrefitem".toList then
    some (rangeExtent [.needed ": No key followed the command. Command ignored.", .any,
      .needed ": No title followed the command. Command ignored."] paragraph false r)
  else if theCommand = "ingroup".toList then
    some (rangeExtent [.any, .optional, .optional] noRange false r)
  else if theCommand = "par".toList then some (parExtent r)
  else if theCommand = "headerfile".toList then some (rangeExtent [.any, .optional] noRange false r)
  else if theCommand = "overload".toList then some (overloadExtent r)
  else if theCommand = "weakgroup".toList then
    some (rangeExtent [.needed noWord] someLine false r)
  else if theCommand = "ref".toList then some (refExtent r)
  else if theCommand = "subpage".toList then
    some (rangeExtent [.needed ": No name followed the command. Command ignored.", .optional]
      noRange false r)
  else if theCommand ∈ verbatimNames then verbatimExtent theCommand r
  else if theCommand = "dotfile".toList ∨ theCommand = "mscfile".toList then
    some (rangeExtent [.needed ": No file followed the command. Command ignored.", .optional]
      noRange false r)
  else if theCommand = "image".toList then
    some (rangeExtent [.needed ": No format followed the command. Command ignored.",
      .needed ": No name followed the command. Command ignored.", .optional, .optional]
      noRange false r)
  else if theCommand = "addtogroup".toList then
    some (rangeExtent [.needed
      ": There should be at least one word following the command. Command ignored."]
      someLine true r)
  else if theCommand = "if".toList ∨ theCommand = "ifnot".toList ∨ theCommand = "elseif".toList then
    ifExtent true r
  else if theCommand = "else".toList then ifExtent false r
  else some (.words r)

variable (features : ParserFeatures)

def ignoreExtent (theCommand : List Char) (r : List Token) : Option Extent :=
  let endCommand := features.endCommand theCommand
  if endCommand ≠ [] then
    match features.contents theCommand with
    | none => (parsedEnd theCommand endCommand r).map fun close => .words close.tail
    | some contents =>
        if contents = "parse".toList then parsedExtent theCommand endCommand r
        else if getEndCommand endCommand r = none ∨ getEndCommand endCommand r = some [] then none
        else some (.words r)
  else
    match features.range theCommand with
    | none => some (.words r)
    | some range =>
        if range = "line".toList then some (.words (skipEndOfLine (getOneLine r)))
        else some (.words r)

/-- What a command takes, by its kind. -/
def kindExtent (kind : DoxyCommandEnum) (commandString : List Char) (r : List Token) :
    Option Extent :=
  let theCommand := stringToLower commandString
  match kind with
  | .commandWord => some (wordExtent r)
  | .commandLine => some (rangeExtent [] oneLine true r)
  | .commandParagraph => some (rangeExtent [] paragraph false r)
  | .commandEndCommand => parsedExtent theCommand ("end".toList ++ theCommand) r
  | .commandWordParagraph => some (rangeExtent [.needed noWord] paragraph false r)
  | .commandWordLine => some (rangeExtent [.needed noWord] oneLine false r)
  | .commandWordOWordWord =>
      some (rangeExtent [.needed noWord, .optional, .optional] noRange false r)
  | .commandOWord => some (rangeExtent [.any] noRange false r)
  | .commandErrorThrow => some (.words (getOneLine r))
  | .commandUnique => uniqueExtent theCommand r
  | .commandHtml => some (.words (getNextToken r).2)
  | .commandIgnore => ignoreExtent features commandString r
  | .simpleCommand | .commandHtmlEntity | .commandAlias | .none => some (.words r)

/-- What a command takes, and the end commands that are ignored behind it. -/
def commandExtent (ends : List (List Char)) (commandString : List Char) (r : List Token) :
    Option (Extent × List (List Char)) :=
  if stringToLower commandString = "plainstd::string".toList then
    (getStringTilCommand r).map fun nextPhrase => (.words nextPhrase.2, ends)
  else
    let kind := commandBelongs features.toFeatures ends commandString
    (kindExtent features kind.1 commandString r).map (·, kind.2)

/-- What a turn of `parse` takes. -/
def turnExtent (root : Bool) (ends : List (List Char)) :
    List Token → Option (Extent × List (List Char))
  | [] => none
  | t :: ts =>
      match t.type with
      | .endLine => some (.words ts, ends)
      | .command => commandExtent features ends t.string ts
      | .plainString => commandExtent features ends (plainstringCommandType root) (t :: ts)

/-- From one position to the next the extents nest: what a turn takes ends inside of the
range, and so do, between their own ends, the ranges in it. -/
inductive Fits : Bool → List (List Char) → List Token → List (List Token) → List (List Char) → Prop
  | none {root : Bool} {ends : List (List Char)} {r : List Token} : Fits root ends r [] ends
  | reached {root : Bool} {ends ends' : List (List Char)} {stop : List Token}
      {stops : List (List Token)} (hrest : Fits root ends stop stops ends') :
      Fits root ends stop (stop :: stops) ends'
  | turn {root : Bool} {ends ends₁ ends₂ ends' : List (List Char)} {r stop : List Token}
      {stops : List (List Token)} {x : Extent} (hne : r.length ≠ stop.length)
      (hextent : turnExtent features root ends r = some (x, ends₁)) (hwithin : stop <:+ x.final)
      (hinside : Fits false ends₁ x.start x.stops ends₂)
      (hrest : Fits root ends₂ x.final (stop :: stops) ends') :
      Fits root ends r (stop :: stops) ends'

variable {features : ParserFeatures} {r u : List Token} {s s' s₁ s₂ : DoxygenParser}

/-! ## Positions -/

theorem quotedWord_suffix {word : List Char} : (quotedWord word r).2 <:+ r := by
  induction r generalizing word with
  | nil => exact List.suffix_rfl
  | cons t ts ih =>
      rw [quotedWord]
      split
      · exact List.suffix_rfl
      · split
        · exact List.suffix_cons t ts
        · split
          · exact List.suffix_cons t ts
          · exact ih.trans (List.suffix_cons t ts)

theorem getNextWord_suffix : (getNextWord r).2 <:+ r := by
  induction r with
  | nil => exact List.suffix_rfl
  | cons t ts ih =>
      rw [getNextWord]
      split
      · exact List.suffix_rfl
      · split
        · exact quotedWord_suffix.trans (List.suffix_cons t ts)
        · split
          · exact ih.trans (List.suffix_cons t ts)
          · exact List.suffix_cons t ts

theorem getNextToken_suffix : (getNextToken r).2 <:+ r := by
  cases r with
  | nil => exact List.suffix_rfl
  | cons t ts =>
      rw [getNextToken]
      split
      · exact List.suffix_cons t ts
      · exact List.suffix_rfl

theorem skipEndOfLine_suffix : skipEndOfLine r <:+ r := by
  rw [skipEndOfLine]
  split
  · exact List.tail_suffix r
  · exact List.suffix_rfl

theorem readArgs_suffix (args : List Arg) : (readArgs args r).2 <:+ r := by
  induction args generalizing r with
  | nil => exact List.suffix_rfl
  | cons arg args ih =>
      have hothers := ih.trans (getNextWord_suffix (r := r))
      cases arg with
      | needed reason =>
          simp only [readArgs]
          split
          · exact getNextWord_suffix
          · exact hothers
      | optional => exact hothers
      | any => exact hothers

theorem stringTilCommand_suffix {p : List Char × List Token} (h : stringTilCommand r = some p) :
    p.2 <:+ r := by
  induction r generalizing p with
  | nil => cases h
  | cons t ts ih =>
      rw [stringTilCommand] at h
      split at h
      · obtain ⟨q, hq, rfl⟩ := Option.map_eq_some_iff.1 h
        exact (ih hq).trans (List.suffix_cons t ts)
      · obtain rfl := Option.some.inj h
        exact List.suffix_rfl

theorem getStringTilCommand_suffix {p : List Char × List Token}
    (h : getStringTilCommand r = some p) : p.2 <:+ r := by
  rw [getStringTilCommand] at h
  split at h
  · obtain rfl := Option.some.inj h
    exact List.nil_suffix
  · exact stringTilCommand_suffix h

theorem getStringTilEndCommand_eq {endCommand : List Char} :
    (getStringTilEndCommand endCommand r).2 = r.dropWhile fun t => !t.isCommand endCommand := by
  induction r with
  | nil => rfl
  | cons t ts ih =>
      rw [getStringTilEndCommand, List.dropWhile_cons]
      cases htype : t.type with
      | plainString => simpa [Token.isCommand, htype] using ih
      | endLine => simpa [Token.isCommand, htype] using ih
      | command =>
          by_cases hname : t.string = endCommand
          · simp [Token.isCommand, htype, hname]
          · have hother : ¬ endCommand = t.string := fun h => hname h.symm
            simpa [Token.isCommand, htype, hname, hother] using ih

theorem firstEnd_eq {endCommand : List Char}
    (h : r.dropWhile (fun t => !t.isCommand endCommand) ≠ []) :
    firstEnd endCommand r = some (r.dropWhile fun t => !t.isCommand endCommand) := by
  induction r with
  | nil => exact absurd rfl h
  | cons t ts ih =>
      rw [firstEnd]
      cases hend : t.isCommand endCommand with
      | true => simp [hend]
      | false =>
          rw [List.dropWhile_cons_of_pos (by simp [hend])] at h ⊢
          exact ih h

/-- The counter of the code is the number of open blocks, with its own. -/
theorem findEndif_eq {depth : Nat} :
    (findEndif (depth + 1) r).map Prod.fst = matchingEndif depth r := by
  induction r generalizing depth with
  | nil => rfl
  | cons t ts ih =>
      rw [findEndif, matchingEndif.eq_def]
      simp only
      by_cases hcommand : t.type = .command
      · rw [if_pos hcommand, if_neg (not_not.2 hcommand)]
        by_cases hif : t.string ∈ ifCommands
        · have helse : t.string ∉ elseCommands := by
            revert hif
            simp only [ifCommands, elseCommands, List.mem_cons, List.not_mem_nil, or_false]
            rintro (h | h) <;> rw [h] <;> decide
          simp only [if_pos hif]
          rw [if_neg (fun h => helse h.2), if_neg (by omega), ih]
        · simp only [if_neg hif]
          by_cases hend : t.string = "endif".toList
          · have helse : t.string ∉ elseCommands := by
              rw [hend]
              decide
            simp only [if_pos hend]
            rw [if_neg (fun h => helse h.2)]
            cases depth with
            | zero => rfl
            | succ depth =>
                rw [if_neg (by omega)]
                exact ih
          · simp only [if_neg hend]
            by_cases helse : depth = 0 ∧ t.string ∈ elseCommands
            · rw [if_pos ⟨by omega, helse.2⟩, if_pos helse]
              rfl
            · rw [if_neg (fun h => helse ⟨by omega, h.2⟩), if_neg helse, if_neg (by omega), ih]
      · rw [if_neg hcommand, if_pos hcommand, ih]

theorem findEndif_ne_nil {n : Nat} {found : List Token × Bool} (h : findEndif n r = some found) :
    found.1 ≠ [] := by
  induction r generalizing n with
  | nil => cases h
  | cons t ts ih =>
      rw [findEndif] at h
      split at h
      · dsimp only at h
        generalize (if t.string ∈ ifCommands then n + 1
          else if t.string = "endif".toList then n - 1 else n) = depth at h
        split at h
        · rw [← Option.some.inj h]
          exact List.cons_ne_nil t ts
        · split at h
          · rw [← Option.some.inj h]
            exact List.cons_ne_nil t ts
          · exact ih h
      · exact ih h

theorem getEndCommand_cons {endCommand : List Char} {t : Token} {ts : List Token}
    (h : ts.dropWhile (fun t => !t.isCommand endCommand) ≠ []) :
    getEndCommand endCommand (t :: ts) = some (ts.dropWhile fun t => !t.isCommand endCommand) := by
  induction ts generalizing t with
  | nil => exact absurd rfl h
  | cons u us ih =>
      rw [getEndCommand]
      simp only [List.head?_cons]
      cases hend : u.isCommand endCommand with
      | true => simp [hend]
      | false =>
          rw [List.dropWhile_cons_of_pos (by simp [hend])] at h ⊢
          rw [if_neg Bool.false_ne_true]
          exact ih h

theorem matchingEnd_first {theCommand endCommand : List Char}
    (hclose : r.dropWhile (fun t => !t.isCommand endCommand) ≠ [])
    (hinside : (r.takeWhile fun t => !t.isCommand endCommand).any (Token.isCommand theCommand) =
      false) :
    matchingEnd theCommand endCommand 0 r =
      some (r.dropWhile fun t => !t.isCommand endCommand) := by
  induction r with
  | nil => exact absurd rfl hclose
  | cons t ts ih =>
      rw [matchingEnd.eq_def]
      simp only
      cases hend : t.isCommand endCommand with
      | true => simp [hend]
      | false =>
          rw [List.dropWhile_cons_of_pos (by simp [hend])] at hclose ⊢
          rw [List.takeWhile_cons_of_pos (by simp [hend]), List.any_cons, Bool.or_eq_false_iff]
            at hinside
          rw [if_neg Bool.false_ne_true, hinside.1, if_neg Bool.false_ne_true]
          exact ih hclose hinside.2

/-- The end of a block that the code finds is its own. -/
theorem parsedEnd_eq {theCommand endCommand : List Char} {close : List Token}
    (h : parsedEnd theCommand endCommand r = some close) :
    getEndCommand endCommand r = some close ∧ close ≠ [] ∧ close <:+ r ∧
      matchingEnd theCommand endCommand 0 r = some close := by
  rw [parsedEnd] at h
  split at h
  · cases h
  · next hfits =>
      push Not at hfits
      obtain ⟨hinside, hnone, hclose⟩ := hfits
      obtain rfl := Option.some.inj h
      refine ⟨?_, hclose, List.dropWhile_suffix _, matchingEnd_first hclose (by simpa using hnone)⟩
      cases r with
      | nil => exact absurd rfl hclose
      | cons t ts =>
          cases hend : t.isCommand endCommand with
          | true => simp [hend] at hinside
          | false =>
              rw [List.dropWhile_cons_of_pos (by simp [hend])] at hclose ⊢
              exact getEndCommand_cons hclose

/-! ## Runs -/

/-- The record of a run is only added to. -/
structure Grows (s s' : DoxygenParser) : Prop where
  calls : s.calls <+: s'.calls
  blocks : s.blocks <+: s'.blocks

namespace Grows

theorem same (hcalls : s'.calls = s.calls) (hblocks : s'.blocks = s.blocks) : Grows s s' := by
  refine ⟨?_, ?_⟩
  · rw [hcalls]
  · rw [hblocks]

theorem trans (h : Grows s s₁) (h' : Grows s₁ s') : Grows s s' :=
  ⟨h.calls.trans h'.calls, h.blocks.trans h'.blocks⟩

theorem withBlock (b : Block) : Grows s (s.withBlock b) :=
  ⟨List.prefix_rfl, List.prefix_append _ _⟩

theorem withCall (c : Call) : Grows s (s.withCall c) :=
  ⟨List.prefix_append _ _, List.prefix_rfl⟩

end Grows

/-- From one state to another the iterator has only gone forward and past each token once,
and the calls and blocks between them are right. -/
structure Goes (s s' : DoxygenParser) : Prop where
  grows : Grows s s'
  forward : s'.rest <:+ s.rest
  consumed : s'.consumed ++ s'.rest = s.consumed ++ s.rest
  calls : ∀ c ∈ s'.calls, c ∈ s.calls ∨ c.Exact
  blocks : ∀ b ∈ s'.blocks, b ∈ s.blocks ∨ b.Closed

namespace Goes

theorem refl : Goes s s := ⟨.same rfl rfl, List.suffix_rfl, rfl, fun _ => Or.inl, fun _ => Or.inl⟩

theorem trans (h : Goes s s₁) (h' : Goes s₁ s') : Goes s s' where
  grows := h.grows.trans h'.grows
  forward := h'.forward.trans h.forward
  consumed := h'.consumed.trans h.consumed
  calls := fun c hc => (h'.calls c hc).elim (h.calls c) Or.inr
  blocks := fun b hb => (h'.blocks b hb).elim (h.blocks b) Or.inr

theorem moved (hr : r <:+ s.rest) : Goes s (s.moved r) := by
  refine ⟨.same rfl rfl, hr, ?_, fun _ => Or.inl, fun _ => Or.inl⟩
  obtain ⟨u, hu⟩ := hr
  have hpast : s.rest.take (s.rest.length - r.length) = u := by
    rw [← hu, List.length_append, Nat.add_sub_cancel, List.take_left]
  show s.consumed ++ s.rest.take (s.rest.length - r.length) ++ r = s.consumed ++ s.rest
  rw [hpast, List.append_assoc, hu]

theorem printListError (message : List Char) : Goes s (s.printListError message) :=
  ⟨.same rfl rfl, List.suffix_rfl, rfl, fun _ => Or.inl, fun _ => Or.inl⟩

theorem withBlock {b : Block} (hb : b.Closed) : Goes s (s.withBlock b) := by
  refine ⟨.withBlock b, List.suffix_rfl, rfl, fun _ => Or.inl, fun c hc => ?_⟩
  rcases List.mem_append.1 hc with hc | hc
  · exact Or.inl hc
  · exact Or.inr (List.mem_singleton.1 hc ▸ hb)

theorem withCall {c : Call} (hc : c.Exact) : Goes s (s.withCall c) := by
  refine ⟨.withCall c, List.suffix_rfl, rfl, fun d hd => ?_, fun _ => Or.inl⟩
  rcases List.mem_append.1 hd with hd | hd
  · exact Or.inl hd
  · exact Or.inr (List.mem_singleton.1 hd ▸ hc)

theorem withEnds (ends : List (List Char)) : Goes s { s with ends := ends } :=
  ⟨.same rfl rfl, List.suffix_rfl, rfl, fun _ => Or.inl, fun _ => Or.inl⟩

end Goes

/-- A step or a call that leaves a list and a state: where it begins and ends is as said. -/
def Leaves (result : DoxygenParser → Handled) (ends : List (List Char)) (r stop : List Token)
    (ends' : List (List Char)) : Prop :=
  ∀ s : DoxygenParser, s.rest = r → s.ends = ends → ∃ l s', result s = some (l, s') ∧
    s'.rest = stop ∧ s'.ends = ends' ∧ Goes s s'

/-- The ranges are parsed one behind the other, each to its end. -/
def ParsesTo (parse : List Token → DoxygenParser → Handled) :
    List (List Char) → List Token → List (List Token) → List (List Char) → Prop
  | ends, _, [], ends' => ends' = ends
  | ends, r, stop :: stops, ends' =>
      ∃ ends₁, Leaves (parse stop) ends r stop ends₁ ∧ ParsesTo parse ends₁ stop stops ends'

/-- A handler takes its extent, when the ranges in it are parsed to their ends. -/
def Takes (handler : (List Token → DoxygenParser → Handled) → DoxygenParser →
      List DoxygenEntity → Handled) (extent : List Token → Option Extent) : Prop :=
  ∀ parse s doxyList x ends', extent s.rest = some x → ParsesTo parse s.ends x.start x.stops ends' →
    ∃ l s', handler parse s doxyList = some (l, s') ∧ s'.rest = x.final ∧ s'.ends = ends' ∧
      Goes s s'

/-! ## The handlers -/

section Handlers

variable {c : List Char}

/-- A handler that reads words only, and where it leaves the iterator. -/
def Reads (handler : DoxygenParser → List DoxygenEntity → Handled)
    (final : List Token → List Token) : Prop :=
  ∀ s l, ∃ l' s', handler s l = some (l', s') ∧ s'.rest = final s.rest ∧ s'.ends = s.ends ∧
    Goes s s'

theorem Reads.takes {handler : DoxygenParser → List DoxygenEntity → Handled}
    {final : List Token → List Token} (h : Reads handler final) :
    Takes (fun _ s l => handler s l) fun r => some (.words (final r)) := by
  intro parse s l x ends' hx hruns
  obtain rfl := Option.some.inj hx
  obtain rfl : ends' = s.ends := hruns
  exact h s l

theorem takes_ite {cond : Prop} [Decidable cond]
    {h₁ h₂ : (List Token → DoxygenParser → Handled) → DoxygenParser → List DoxygenEntity → Handled}
    {e₁ e₂ : List Token → Option Extent} (hthen : Takes h₁ e₁) (helse : Takes h₂ e₂) :
    Takes (fun parse s l => if cond then h₁ parse s l else h₂ parse s l)
      fun r => if cond then e₁ r else e₂ r := by
  by_cases hcond : cond
  · simp only [if_pos hcond]
    exact hthen
  · simp only [if_neg hcond]
    exact helse

theorem stays_reads (l' : List DoxygenEntity → List DoxygenEntity) :
    Reads (fun s l => some (l' l, s)) id :=
  fun s l => ⟨l' l, s, rfl, rfl, rfl, .refl⟩

theorem addCommandWord_reads : Reads (addCommandWord c) fun r => (wordExtent r).final := by
  intro s l
  have hskip : skipWhitespaceTokens s.rest <:+ s.rest := List.dropWhile_suffix _
  obtain ⟨s₁, hs₁, hrest, hends, hgoes⟩ : ∃ s₁, (if isEndOfLine s.rest then
      s.moved (skipWhitespaceTokens s.rest) else s) = s₁ ∧
      s₁.rest = (if isEndOfLine s.rest then skipWhitespaceTokens s.rest else s.rest) ∧
      s₁.ends = s.ends ∧ Goes s s₁ := by
    refine ⟨_, rfl, ?_⟩
    split
    · exact ⟨rfl, rfl, .moved hskip⟩
    · exact ⟨rfl, rfl, .refl⟩
  simp only [addCommandWord, wordExtent, Extent.words, hs₁]
  have hword : Goes s (s₁.moved (getNextWord s₁.rest).2) := hgoes.trans (.moved getNextWord_suffix)
  rw [← hrest]
  split
  · exact ⟨_, _, rfl, rfl, hends, hword⟩
  · exact ⟨_, _, rfl, rfl, hends, hword.trans (.printListError _)⟩

theorem skip_goes (skip : Bool) (s : DoxygenParser) :
    ∃ s₁, (if skip then s.moved (skipEndOfLine s.rest) else s) = s₁ ∧
      s₁.rest = (if skip then skipEndOfLine s.rest else s.rest) ∧ s₁.ends = s.ends ∧ Goes s s₁ := by
  refine ⟨_, rfl, ?_⟩
  split
  · exact ⟨rfl, rfl, .moved skipEndOfLine_suffix⟩
  · exact ⟨rfl, rfl, .refl⟩

theorem addRange_takes (args : List Arg) (range : List Token → Option (List Token)) (skip : Bool) :
    Takes (fun parse s l => addRange parse c s l args range skip)
      fun r => some (rangeExtent args range skip r) := by
  intro parse s l x ends' hx hruns
  obtain rfl := Option.some.inj hx
  have hread : Goes s (s.moved (readArgs args s.rest).2) := .moved (readArgs_suffix args)
  rw [rangeExtent] at hruns ⊢
  simp only [addRange] at hruns ⊢
  cases hargs : (readArgs args s.rest).1 with
  | error reason =>
      rw [hargs] at hruns
      exact ⟨_, _, rfl, rfl, (show ends' = s.ends from hruns).symm, hread.trans (.printListError _)⟩
  | ok front =>
      rw [hargs] at hruns
      simp only at hruns ⊢
      cases hrange : range (readArgs args s.rest).2 with
      | none =>
          rw [hrange] at hruns
          obtain ⟨s₁, hs₁, hrest, hends, hgoes⟩ := skip_goes skip (s.moved (readArgs args s.rest).2)
          have hmoved : range (s.moved (readArgs args s.rest).2).rest = none := hrange
          rw [hmoved]
          refine ⟨_, _, rfl, ?_, ?_, hread.trans ?_⟩
          · exact (congrArg DoxygenParser.rest hs₁).trans hrest
          · rw [show ends' = s.ends from hruns]
            exact (congrArg DoxygenParser.ends hs₁).trans hends
          · rw [← hs₁] at hgoes
            exact hgoes
      | some stop =>
          rw [hrange] at hruns
          obtain ⟨ends₁, hparse, hend⟩ := hruns
          obtain ⟨l₁, s₁, hs₁, hrest, hends, hgoes⟩ := hparse (s.moved (readArgs args s.rest).2)
            rfl rfl
          obtain ⟨s₂, hs₂, hrest₂, hends₂, hgoes₂⟩ := skip_goes skip s₁
          have hmoved : range (s.moved (readArgs args s.rest).2).rest = some stop := hrange
          rw [hmoved]
          simp only [hs₁]
          refine ⟨_, _, rfl, ?_, ?_, hread.trans (hgoes.trans ?_)⟩
          · rw [hrest] at hrest₂
            exact (congrArg DoxygenParser.rest hs₂).trans hrest₂
          · rw [show ends' = ends₁ from hend, ← hends]
            exact (congrArg DoxygenParser.ends hs₂).trans hends₂
          · rw [← hs₂] at hgoes₂
            exact hgoes₂

/-- A block with one range, and the end command behind it. -/
theorem block_takes {kind : BlockKind} {close : List Token} {parse : List Token → DoxygenParser →
      Handled} {ends' : List (List Char)}
    (hmatching : kind.matching s.rest = some close)
    (hruns : ParsesTo parse s.ends s.rest [close] ends') :
    ∃ l s', parse close (s.withBlock ⟨kind, s.rest, some close⟩) = some (l, s') ∧
      s'.rest = close ∧ s'.ends = ends' ∧ Goes s s' := by
  obtain ⟨ends₁, hparse, hend⟩ := hruns
  obtain ⟨l, s', hs', hrest, hends, hgoes⟩ :=
    hparse (s.withBlock ⟨kind, s.rest, some close⟩) rfl rfl
  refine ⟨l, s', hs', hrest, hends.trans (show ends' = ends₁ from hend).symm, ?_⟩
  exact (Goes.withBlock ⟨rfl, hmatching.symm⟩).trans hgoes

theorem advance_eq (h : s.rest ≠ []) : s.advance = some (s.moved s.rest.tail) := if_neg h

theorem advance_some (h : s.advance = some s₁) : s₁ = s.moved s.rest.tail := by
  rw [DoxygenParser.advance] at h
  split at h
  · cases h
  · exact (Option.some.inj h).symm

theorem addCommandEndCommand_takes :
    Takes (fun parse => addCommandEndCommand parse c) (parsedExtent c ("end".toList ++ c)) := by
  intro parse s l x ends' hx hruns
  obtain ⟨close, hclose, rfl⟩ := Option.map_eq_some_iff.1 hx
  obtain ⟨hfound, hne, -, hmatching⟩ := parsedEnd_eq hclose
  have hblock : (BlockKind.parsed c ("end".toList ++ c)).matching s.rest = some close := hmatching
  obtain ⟨l₁, s₁, hs₁, hrest, hends, hgoes⟩ := block_takes hblock hruns
  simp only [addCommandEndCommand, hfound, Option.bind_eq_bind, Option.bind_some, if_neg hne, hs₁,
    advance_eq (hrest.trans_ne hne)]
  refine ⟨_, _, rfl, ?_, hends, hgoes.trans (.moved (List.tail_suffix s₁.rest))⟩
  rw [← hrest]
  rfl

theorem addCommandErrorThrow_reads : Reads (addCommandErrorThrow c) getOneLine := by
  refine fun s l => ⟨_, _, rfl, rfl, rfl, (Goes.printListError _).trans (.moved ?_)⟩
  exact List.dropWhile_suffix _

theorem addCommandHtml_reads : Reads (addCommandHtml c) fun r => (getNextToken r).2 :=
  fun _ _ => ⟨_, _, rfl, rfl, rfl, .moved getNextToken_suffix⟩

theorem addArg_takes : Takes (fun parse => addArg parse c) (sectionExtent c) := by
  intro parse s l x ends' hx hruns
  obtain ⟨stop, hstop, rfl⟩ := Option.map_eq_some_iff.1 hx
  obtain ⟨ends₁, hparse, hend⟩ := hruns
  obtain ⟨l₁, s₁, hs₁, hrest, hends, hgoes⟩ := hparse s rfl rfl
  simp only [addArg, hstop, Option.bind_eq_bind, Option.bind_some, hs₁]
  exact ⟨_, _, rfl, hrest, hends.trans (show ends' = ends₁ from hend).symm, hgoes⟩

theorem addPar_takes : Takes (fun parse => addPar parse c) fun r => some (parExtent r) := by
  intro parse s l x ends' hx hruns
  obtain rfl := Option.some.inj hx
  obtain ⟨ends₁, hline, ends₂, hparagraph, hend⟩ := hruns
  obtain ⟨l₁, s₁, hs₁, hrest₁, hends₁, hgoes₁⟩ := hline s rfl rfl
  obtain ⟨l₂, s₂, hs₂, hrest₂, hends₂, hgoes₂⟩ := hparagraph s₁ hrest₁ hends₁
  rw [← hrest₁] at hs₂
  simp only [addPar, Option.bind_eq_bind, hs₁, Option.bind_some, hs₂]
  exact ⟨_, _, rfl, hrest₂, hends₂.trans (show ends' = ends₂ from hend).symm, hgoes₁.trans hgoes₂⟩

theorem addOverload_takes :
    Takes (fun parse => addOverload parse c) fun r => some (overloadExtent r) := by
  intro parse s l x ends' hx hruns
  obtain rfl := Option.some.inj hx
  simp only [overloadExtent, addOverload] at hruns ⊢
  cases hline : someLine s.rest with
  | none =>
      rw [hline] at hruns
      exact ⟨_, s, rfl, rfl, (show ends' = s.ends from hruns).symm, .refl⟩
  | some stop =>
      rw [hline] at hruns
      obtain ⟨ends₁, hparse, hend⟩ := hruns
      obtain ⟨l₁, s₁, hs₁, hrest, hends, hgoes⟩ := hparse s rfl rfl
      simp only [Option.bind_eq_bind, hs₁, Option.bind_some]
      exact ⟨_, _, rfl, hrest, hends.trans (show ends' = ends₁ from hend).symm, hgoes⟩

theorem addRef_reads : Reads (addRef c) fun r => (refExtent r).final := by
  intro s l
  have hname : Goes s (s.moved (getNextWord s.rest).2) := .moved getNextWord_suffix
  simp only [addRef, refExtent, Extent.words]
  by_cases hnil : (getNextWord s.rest).1 = []
  · rw [if_pos hnil, if_neg fun h => h.1 hnil]
    exact ⟨_, _, rfl, rfl, rfl, hname.trans (.printListError _)⟩
  · rw [if_neg hnil]
    by_cases htitle : 1 < (getNextWord (getNextWord s.rest).2).1.length ∧
        (getNextWord (getNextWord s.rest).2).1.head? = some '"'
    · refine ⟨_, _, if_pos htitle, ?_, rfl, hname.trans (.moved getNextWord_suffix)⟩
      rw [if_pos ⟨hnil, htitle⟩]
      rfl
    · refine ⟨_, _, if_neg htitle, ?_, rfl, hname⟩
      rw [if_neg fun h => htitle h.2]
      rfl

theorem addVerbatim_takes : Takes (fun _ => addVerbatim c) (verbatimExtent c) := by
  intro parse s l x ends' hx hruns
  simp only [verbatimExtent] at hx
  split at hx
  · cases hx
  · next hne =>
      obtain rfl := Option.some.inj hx
      have hclose : (getStringTilEndCommand (endOfVerbatim c) s.rest).2 = _ :=
        getStringTilEndCommand_eq
      have hmatching : (BlockKind.raw (endOfVerbatim c)).matching s.rest =
          some (getStringTilEndCommand (endOfVerbatim c) s.rest).2 := by
        rw [hclose] at hne ⊢
        exact firstEnd_eq hne
      have hsuffix : (getStringTilEndCommand (endOfVerbatim c) s.rest).2 <:+ s.rest := by
        rw [hclose]
        exact List.dropWhile_suffix _
      simp only [addVerbatim, if_neg hne]
      refine ⟨_, _, rfl, rfl, (show ends' = s.ends from hruns).symm, ?_⟩
      exact (Goes.withBlock ⟨rfl, hmatching.symm⟩).trans
        (.moved ((List.tail_suffix _).trans hsuffix))

theorem addIf_takes (needsCond : Bool) :
    Takes (fun parse s l => addIf parse c s l needsCond) (ifExtent needsCond) := by
  intro parse s l x ends' hx hruns
  simp only [ifExtent] at hx
  simp only [addIf]
  obtain ⟨cond, hcond, hsuffix⟩ : ∃ cond : List Char × List Token,
      (if needsCond then getNextWord s.rest else ([], s.rest)) = cond ∧ cond.2 <:+ s.rest := by
    refine ⟨_, rfl, ?_⟩
    split
    · exact getNextWord_suffix
    · exact List.suffix_rfl
  rw [hcond] at hx ⊢
  have hread : Goes s (s.moved cond.2) := .moved hsuffix
  by_cases hnil : needsCond = true ∧ cond.1 = []
  · rw [if_pos hnil] at hx ⊢
    obtain rfl := Option.some.inj hx
    exact ⟨_, _, rfl, rfl, (show ends' = s.ends from hruns).symm, hread.trans (.printListError _)⟩
  · rw [if_neg hnil] at hx ⊢
    obtain ⟨⟨close, skipEndif⟩, hfind, rfl⟩ := Option.map_eq_some_iff.1 hx
    have hmatching : BlockKind.conditional.matching cond.2 = some close := by
      show matchingEndif 0 cond.2 = some close
      rw [← findEndif_eq, hfind]
      rfl
    obtain ⟨l₁, s₁, hs₁, hrest, hends, hgoes⟩ :=
      block_takes (s := s.moved cond.2) hmatching hruns
    have hfound : findEndif 1 (s.moved cond.2).rest = some (close, skipEndif) := hfind
    rw [hfound]
    simp only [Option.bind_eq_bind]
    have hparsed : parse close ((s.moved cond.2).withBlock
        ⟨.conditional, (s.moved cond.2).rest, some close⟩) = some (l₁, s₁) := hs₁
    rw [hparsed, Option.bind_some]
    cases skipEndif with
    | true =>
        simp only [if_pos, advance_eq (hrest.trans_ne (findEndif_ne_nil hfind)), Option.bind_some]
        refine ⟨_, _, rfl, ?_, hends, hread.trans (hgoes.trans (.moved (List.tail_suffix _)))⟩
        rw [← hrest]
        rfl
    | false => exact ⟨_, _, rfl, hrest, hends, hread.trans hgoes⟩

theorem ignoreCommand_takes :
    Takes (fun parse s l => ignoreCommand parse c s l features) (ignoreExtent features c) := by
  intro parse s l x ends' hx hruns
  simp only [ignoreExtent] at hx
  simp only [ignoreCommand]
  by_cases hend : features.endCommand c ≠ []
  · rw [if_pos hend] at hx ⊢
    cases hcontents : features.contents c with
    | none =>
        rw [hcontents] at hx
        obtain ⟨close, hclose, rfl⟩ := Option.map_eq_some_iff.1 hx
        obtain ⟨hfound, hne, hsuffix, hmatching⟩ := parsedEnd_eq hclose
        have hblock : (BlockKind.parsed c (features.endCommand c)).matching s.rest = some close :=
          hmatching
        simp only [hfound, Option.bind_eq_bind, Option.bind_some, if_neg hne]
        refine ⟨_, _, rfl, rfl, (show ends' = s.ends from hruns).symm, ?_⟩
        exact (Goes.withBlock ⟨rfl, hblock.symm⟩).trans
          (.moved ((List.tail_suffix close).trans hsuffix))
    | some contents =>
        rw [hcontents] at hx
        simp only at hx ⊢
        by_cases hparse : contents = "parse".toList
        · rw [if_pos hparse] at hx
          obtain ⟨close, hclose, rfl⟩ := Option.map_eq_some_iff.1 hx
          obtain ⟨hfound, hne, -, hmatching⟩ := parsedEnd_eq hclose
          have hblock : (BlockKind.parsed c (features.endCommand c)).matching s.rest =
              some close := hmatching
          simp only [hfound, Option.bind_eq_bind, Option.bind_some, if_neg hne, if_pos hparse]
          obtain ⟨l₁, s₁, hs₁, hrest, hends, hgoes⟩ := block_takes hblock hruns
          rw [hs₁, Option.bind_some]
          refine ⟨_, _, rfl, rfl, hends, (hgoes.trans (.moved ?_)).trans
            (.moved (List.tail_suffix close))⟩
          rw [hrest]
        · rw [if_neg hparse] at hx
          split at hx
          · cases hx
          · next hfound =>
              push Not at hfound
              obtain rfl := Option.some.inj hx
              obtain ⟨close, hclose⟩ := Option.ne_none_iff_exists'.1 hfound.1
              have hne : close ≠ [] := fun hnil => hfound.2 (hnil ▸ hclose)
              simp only [hclose, Option.bind_eq_bind, Option.bind_some, if_neg hne,
                if_neg hparse]
              exact ⟨_, _, rfl, rfl, (show ends' = s.ends from hruns).symm, .printListError _⟩
  · rw [if_neg hend] at hx ⊢
    have hline : skipEndOfLine (getOneLine s.rest) <:+ s.rest :=
      skipEndOfLine_suffix.trans (List.dropWhile_suffix _)
    cases hrange : features.range c with
    | none =>
        rw [hrange] at hx
        obtain rfl := Option.some.inj hx
        exact ⟨_, _, rfl, rfl, (show ends' = s.ends from hruns).symm, .refl⟩
    | some range =>
        rw [hrange] at hx
        simp only at hx ⊢
        by_cases hkind : range = "line".toList
        · rw [if_pos hkind] at hx ⊢
          obtain rfl := Option.some.inj hx
          exact ⟨_, _, rfl, rfl, (show ends' = s.ends from hruns).symm, .moved hline⟩
        · rw [if_neg hkind] at hx ⊢
          obtain rfl := Option.some.inj hx
          exact ⟨_, _, rfl, rfl, (show ends' = s.ends from hruns).symm, .printListError _⟩

theorem addCommandUnique_takes :
    Takes (fun parse s l => addCommandUnique parse c s l) (uniqueExtent c) := by
  unfold addCommandUnique uniqueExtent
  refine takes_ite addArg_takes (takes_ite (addRange_takes _ _ _) (takes_ite
    (addRange_takes _ _ _) (takes_ite addPar_takes (takes_ite (addRange_takes _ _ _) (takes_ite
    addOverload_takes (takes_ite (addRange_takes _ _ _) (takes_ite addRef_reads.takes (takes_ite
    (addRange_takes _ _ _) (takes_ite addVerbatim_takes ?_)))))))))
  exact takes_ite (addRange_takes _ _ _) (takes_ite (addRange_takes _ _ _) (takes_ite
    (addRange_takes _ _ _) (takes_ite (addIf_takes true) (takes_ite (addIf_takes false)
    (stays_reads id).takes))))

/-- A command takes its extent. -/
theorem addCommand_takes {parse : List Token → DoxygenParser → Handled} {l : List DoxygenEntity}
    {commandString : List Char} {x : Extent} {ends₁ ends' : List (List Char)}
    (hx : commandExtent features s.ends commandString s.rest = some (x, ends₁))
    (hruns : ParsesTo parse ends₁ x.start x.stops ends') :
    ∃ l' s', addCommand parse s l features commandString = some (l', s') ∧ s'.rest = x.final ∧
      s'.ends = ends' ∧ Goes s s' := by
  simp only [commandExtent] at hx
  simp only [addCommand]
  by_cases htext : stringToLower commandString = "plainstd::string".toList
  · rw [if_pos htext] at hx ⊢
    obtain ⟨p, hp, heq⟩ := Option.map_eq_some_iff.1 hx
    obtain ⟨rfl, rfl⟩ := Prod.mk.inj heq
    rw [hp]
    exact ⟨_, _, rfl, rfl, (show ends' = s.ends from hruns).symm,
      .moved (getStringTilCommand_suffix hp)⟩
  · rw [if_neg htext] at hx ⊢
    obtain ⟨x', hextent, heq⟩ := Option.map_eq_some_iff.1 hx
    obtain ⟨rfl, rfl⟩ := Prod.mk.inj heq
    generalize commandBelongs features.toFeatures s.ends commandString = found at hextent hruns ⊢
    obtain ⟨kind, ends₂⟩ := found
    have hends : Goes s { s with ends := ends₂ } := .withEnds ends₂
    have hhandled : ∀ {handler : (List Token → DoxygenParser → Handled) → DoxygenParser →
        List DoxygenEntity → Handled} {extent : List Token → Option Extent},
        Takes handler extent → extent s.rest = some x' →
        ∃ l' s', handler parse { s with ends := ends₂ } l = some (l', s') ∧ s'.rest = x'.final ∧
          s'.ends = ends' ∧ Goes s s' := by
      intro handler extent htakes hx'
      obtain ⟨l', s', hs', hrest, hends', hgoes⟩ :=
        htakes parse { s with ends := ends₂ } l x' ends' hx' hruns
      exact ⟨l', s', hs', hrest, hends', hends.trans hgoes⟩
    cases kind with
    | none => exact hhandled (stays_reads id).takes hextent
    | simpleCommand => exact hhandled (stays_reads fun l => l ++ [_]).takes hextent
    | commandWord => exact hhandled addCommandWord_reads.takes hextent
    | commandLine => exact hhandled (addRange_takes _ _ _) hextent
    | commandParagraph => exact hhandled (addRange_takes _ _ _) hextent
    | commandEndCommand => exact hhandled addCommandEndCommand_takes hextent
    | commandWordParagraph => exact hhandled (addRange_takes _ _ _) hextent
    | commandWordLine => exact hhandled (addRange_takes _ _ _) hextent
    | commandWordOWordWord => exact hhandled (addRange_takes _ _ _) hextent
    | commandOWord => exact hhandled (addRange_takes _ _ _) hextent
    | commandErrorThrow => exact hhandled addCommandErrorThrow_reads.takes hextent
    | commandUnique => exact hhandled addCommandUnique_takes hextent
    | commandHtml => exact hhandled addCommandHtml_reads.takes hextent
    | commandHtmlEntity => exact hhandled (stays_reads fun l => l ++ [_]).takes hextent
    | commandAlias => exact hhandled (stays_reads fun l => l ++ [_]).takes hextent
    | commandIgnore => exact hhandled ignoreCommand_takes hextent

end Handlers

/-! ## `parse` -/

section Parse

variable {root : Bool} {ends ends₁ ends₂ ends' : List (List Char)} {stop : List Token}
  {stops : List (List Token)} {x : Extent} {fuel : Nat}

/-- Each of the ends is reached, with enough fuel. -/
def Reaches (features : ParserFeatures) (root : Bool) (enough : Nat) :
    List (List Char) → List Token → List (List Token) → List (List Char) → Prop
  | ends, _, [], ends' => ends' = ends
  | ends, r, stop :: stops, ends' =>
      ∃ ends₁, (∀ fuel ≥ enough, ∀ l, Leaves (parse features fuel root l stop) ends r stop ends₁) ∧
        Reaches features root enough ends₁ stop stops ends'

theorem Reaches.mono {enough enough' : Nat} (hle : enough ≤ enough')
    (h : Reaches features root enough ends r stops ends') :
    Reaches features root enough' ends r stops ends' := by
  induction stops generalizing ends r with
  | nil => exact h
  | cons stop stops ih =>
      obtain ⟨ends₁, hparse, hrest⟩ := h
      exact ⟨ends₁, fun fuel hfuel => hparse fuel (hle.trans hfuel), ih hrest⟩

/-- The calls of a handler reach their ends, and are recorded so. -/
theorem Reaches.parsesTo (h : Reaches features false fuel ends r stops ends') :
    ParsesTo (nestedParse (parse features fuel false [])) ends r stops ends' := by
  induction stops generalizing ends r with
  | nil => exact h
  | cons stop stops ih =>
      obtain ⟨ends₁, hparse, hrest⟩ := h
      refine ⟨ends₁, fun s hr hends => ?_, ih hrest⟩
      obtain ⟨l, s', hs', hstop, hends', hgoes⟩ := hparse fuel (Nat.le_refl _) [] s hr hends
      have hexact : Call.Exact ⟨s.rest, stop, s'.rest⟩ := ⟨hstop, hstop ▸ hgoes.forward⟩
      refine ⟨l, s'.withCall ⟨s.rest, stop, s'.rest⟩, ?_, hstop, hends', hgoes.trans
        (.withCall hexact)⟩
      rw [nestedParse, hs']
      rfl

/-- What is done behind a turn. -/
def nextTurn (features : ParserFeatures) (fuel : Nat) (root : Bool) (stop : List Token)
    (l : List DoxygenEntity) (s : DoxygenParser) : Handled :=
  if stop ≠ [] ∧ s.rest = [] then
    some (l, s.printListError "Unexpected end of Doxygen comment encountered.".toList)
  else parse features fuel root l stop s

/-- A turn takes its extent. -/
theorem turn_takes (hextent : turnExtent features root s.ends s.rest = some (x, ends₁))
    (hinside : Reaches features false fuel ends₁ x.start x.stops ends₂)
    (l : List DoxygenEntity) (hlen : s.rest.length ≠ stop.length) :
    ∃ l' s', parse features (fuel + 1) root l stop s = nextTurn features fuel root stop l' s' ∧
      s'.rest = x.final ∧ s'.ends = ends₂ ∧ Goes s s' := by
  rw [parse, if_neg hlen]
  cases hrest : s.rest with
  | nil =>
      rw [hrest] at hextent
      cases hextent
  | cons t ts =>
      have hnext : Goes s (s.moved ts) := .moved (hrest ▸ List.suffix_cons t ts)
      rw [hrest, turnExtent] at hextent
      cases htype : t.type with
      | endLine =>
          simp only [htype] at hextent ⊢
          obtain ⟨rfl, rfl⟩ := Prod.mk.inj (Option.some.inj hextent)
          obtain rfl : ends₂ = s.ends := hinside
          exact ⟨_, s.moved ts, rfl, rfl, rfl, hnext⟩
      | command =>
          simp only [htype] at hextent ⊢
          obtain ⟨l', s', hs', hfinal, hends, hgoes⟩ :=
            addCommand_takes (s := s.moved ts) (l := l) hextent hinside.parsesTo
          rw [hs']
          exact ⟨l', s', rfl, hfinal, hends, hnext.trans hgoes⟩
      | plainString =>
          simp only [htype] at hextent ⊢
          rw [← hrest] at hextent
          obtain ⟨l', s', hs', hfinal, hends, hgoes⟩ :=
            addCommand_takes (s := s) (l := l) hextent hinside.parsesTo
          rw [hs']
          exact ⟨l', s', rfl, hfinal, hends, hgoes⟩

/-- Where the extents nest, each end is reached. -/
theorem Fits.reaches (h : Fits features root ends r stops ends') :
    ∃ enough, Reaches features root enough ends r stops ends' := by
  induction h with
  | none => exact ⟨0, rfl⟩
  | @reached root ends ends' stop stops _ ih =>
      obtain ⟨enough, hreaches⟩ := ih
      refine ⟨enough + 1, ends, fun fuel hfuel l s hr hends => ?_,
        hreaches.mono (Nat.le_succ enough)⟩
      obtain ⟨n, rfl⟩ : ∃ n, fuel = n + 1 := ⟨fuel - 1, by omega⟩
      exact ⟨l, s, by rw [parse, if_pos (by rw [hr])], hr, hends, .refl⟩
  | @turn root ends ends₁ ends₂ ends' r stop stops x hne hextent hwithin _ _ ihinside ihrest =>
      obtain ⟨inside, hinside⟩ := ihinside
      obtain ⟨enough, ends₃, hparse, hreaches⟩ := ihrest
      refine ⟨max inside enough + 1, ends₃, fun fuel hfuel l s hr hends => ?_,
        hreaches.mono (by omega)⟩
      obtain ⟨n, rfl⟩ : ∃ n, fuel = n + 1 := ⟨fuel - 1, by omega⟩
      subst hr hends
      obtain ⟨l₁, s₁, hturn, hfinal, hends₁, hgoes⟩ :=
        turn_takes hextent (hinside.mono (show inside ≤ n by omega)) l hne
      obtain ⟨l', s', hs', hstop, hends', hgoes'⟩ :=
        hparse n (by omega) l₁ s₁ hfinal hends₁
      refine ⟨l', s', ?_, hstop, hends', hgoes.trans hgoes'⟩
      rw [hturn, nextTurn, if_neg, hs']
      rintro ⟨hnonempty, hend⟩
      rw [hfinal] at hend
      rw [hend] at hwithin
      exact hnonempty (List.suffix_nil.1 hwithin)

/-- The parser before the first token. -/
def DoxygenParser.start (ends : List (List Char)) (toks : List Token) : DoxygenParser :=
  ⟨toks, ends, [], [], [], []⟩

end Parse

end Swig4Ada.Doxygen

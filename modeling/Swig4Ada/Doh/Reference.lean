import Swig4Ada.Doh.Replace

/-!
# What a replacement should be

The matches are found from left to right in the text as it is given, each behind the one
before it, and the replacement is put in their places. `replace_simple` looks for the
matches in a text that it changes, or goes over the text twice.
-/

namespace Swig4Ada.Doh

variable (mode : MatchMode) (token : List Char)

/-- The matches in the text from `s` on, found one behind the other. -/
def matchPositions (text : List Char) (noquote : Bool) : Nat → Nat → List Nat
  | 0, _ => []
  | fuel + 1, s =>
      match (nextMatch mode token text noquote s).1 with
      | none => []
      | some c => c :: matchPositions text noquote fuel (c + token.length)

/-- The text from `s` on with the replacement in some places. -/
def splice (tokenlen : Nat) (rep text : List Char) : Nat → List Nat → List Char
  | s, [] => text.drop s
  | s, p :: ps => (text.drop s).take (p - s) ++ rep ++ splice tokenlen rep text (p + tokenlen) ps

/-- The matches that count: the first one or all. -/
def wantedPositions (text : List Char) (noquote first : Bool) : List Nat :=
  let positions := matchPositions mode token text noquote (text.length + 1) 0
  if first then positions.take 1 else positions

/-- The text and the number of replacements. -/
def referenceReplace (text rep : List Char) (noquote first : Bool) : List Char × Nat :=
  let positions := wantedPositions mode token text noquote first
  (splice token.length rep text 0 positions, positions.length)

/-- `String_replace` gives what it should. -/
def ReplaceRight (text token rep : List Char) (flags : ReplaceFlags) : Prop :=
  stringReplace text token rep flags =
    some (referenceReplace flags.mode token text rep flags.noquote flags.first)

/-! ## Where it does -/

/-- Whether the last character of a word belongs to an identifier. -/
def endsIdentifier (word : List Char) : Bool := word.getLast?.any isIdentifierChar

/-- The replacement before an occurrence of the token changes whether it is a match. -/
def MatchMode.disturbed (text rep : List Char) (s : Nat) : Prop :=
  (mode = .identifierBegin ∨
    mode = .identifier ∧ text[s + token.length]?.any isIdentifierChar = false) ∧
  token <+: text.drop s ∧ endsIdentifier token ≠ endsIdentifier rep

/-- No replacement of the same length disturbs the occurrence behind it. -/
def Undisturbed (text rep : List Char) (noquote first : Bool) : Prop :=
  rep.length = token.length → first = false →
    ∀ p ∈ wantedPositions mode token text noquote first,
      ¬ mode.disturbed token text rep (p + token.length)

/-- The matches from `s` on, each with what its search says about the quotes: whether some
may be left. -/
def matchSteps (text : List Char) : Nat → Bool → Nat → List (Nat × Bool)
  | 0, _, _ => []
  | fuel + 1, flag, s =>
      match nextMatch mode token text flag s with
      | (none, _) => []
      | (some c, flag) => (c, flag) :: matchSteps text fuel flag (c + token.length)

/-- When the text gets longer, the pass that counts the matches finds them all, for no match
takes the last quote with it and leaves another match behind; and the pass that builds the
text looks for them as the other did, for some quotes may be left at the last match, or the
text comes out the same when the quotes are not looked for. -/
def QuotesKept (text rep : List Char) (noquote first : Bool) : Prop :=
  token.length < rep.length → noquote = true → first = false →
    ∀ step steps, matchSteps mode token text (text.length + 1) noquote 0 = step :: steps →
      (∀ q ∈ (step :: steps).dropLast, q.2 = true → (quoteFrom text (q.1 + token.length)).isSome) ∧
      (((step :: steps).getLast (List.cons_ne_nil step steps)).2 = true ∨
        let plain := (matchPositions mode token text false (text.length + 1)
          (step.1 + token.length)).take steps.length
        plain.length = steps.length ∧
          splice token.length rep text (step.1 + token.length) plain =
            splice token.length rep text (step.1 + token.length) (steps.map Prod.fst))

end Swig4Ada.Doh

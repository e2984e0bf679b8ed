import Mathlib.Data.Set.Basic
import Swig4Ada.CParse.Template

/-!
# What a partial specialisation stands for

In the types of a partial specialisation `$1`, `$2` and so on stand for its parameters. It
matches the arguments of an instantiation when they are these types with some types in place
of the parameters, a parameter having the same one wherever it stands. Of two patterns one is
at least as specialised as the other when all types that it stands for are ones that the other
stands for.
-/

namespace Swig4Ada.CParse

variable {Node : Type}

/-- A pattern with texts in place of its parameters, which are named by their digits; `inside`
says that digits are still to be gone past. -/
def fillFrom (σ : List Char → List Char) : Bool → List Char → List Char
  | _, [] => []
  | inside, c :: s =>
      if inside && c.isDigit then fillFrom σ true s
      else if c = '$' then σ (s.takeWhile Char.isDigit) ++ fillFrom σ true s
      else c :: fillFrom σ false s

def fill (σ : List Char → List Char) (pattern : List Char) : List Char :=
  fillFrom σ false pattern

/-- The types that a pattern stands for. -/
def instances (pattern : List Char) : Set (List Char) := { t | ∃ σ, fill σ pattern = t }

/-- The arguments that are compared are those of the instantiation behind their typedefs. -/
def reduced (T : TemplateTable Node) (parms : List TemplateParm) : List (List Char) :=
  parms.map fun p => T.typedefReduce p.text

/-- The arguments are the patterns with types in place of their parameters. -/
def Matches (T : TemplateTable Node) (parms : List TemplateParm) (c : Partial) : Prop :=
  ∃ σ, c.partialparms.map (fill σ) = reduced T parms

/-- In every parameter, what the first stands for the second does too. -/
def AtLeastAsSpecialised (c d : Partial) : Prop :=
  List.Forall₂ (fun p q => instances p ⊆ instances q) c.partialparms d.partialparms

/-- It matches, and it is at least as specialised in every parameter as every other one that
matches. -/
structure MostSpecialised (T : TemplateTable Node) (parms : List TemplateParm)
    (partials : List Partial) (c : Partial) : Prop where
  declared : c ∈ partials
  fits : Matches T parms c
  above : ∀ d ∈ partials, Matches T parms d → AtLeastAsSpecialised c d

/-- The pattern of the `i`-th parameter is a type, or it is elements of a type with the `i`-th
parameter behind them. -/
inductive Plain (i : Nat) : List Char → Prop
  | type {p : List Char} (h : '$' ∉ p) : Plain i p
  | parameter {before : List Char} (h : '$' ∉ before)
      (word : ∀ c ∈ before.getLast?, Doh.isIdentifierChar c = false)
      (short : before.length < 99999) : Plain i (before ++ dollar i)

/-- All patterns are plain, counted from `i`. -/
def PlainFrom : Nat → List (List Char) → Prop
  | _, [] => True
  | i, p :: ps => Plain i p ∧ PlainFrom (i + 1) ps

/-- What `does_parm_match` says for each parameter, counted from `i`. -/
def parmMatches (T : TemplateTable Node) :
    Nat → List TemplateParm → List (List Char) → List (EMatch × Int)
  | i, p :: ps, pp :: pps =>
      doesParmMatch T p.text pp (dollar i) :: parmMatches T (i + 1) ps pps
  | _, _, _ => []

/-- `does_parm_match` takes it as one that matches the arguments of the instantiation. -/
def Matching (T : TemplateTable Node) (parms : List TemplateParm) (c : Partial) : Prop :=
  c.partialparms.length = parms.length ∧
    ∀ r ∈ parmMatches T 1 parms c.partialparms, r.1.isMatch = true

/-- All its patterns are plain, or neither does it match nor is it taken to match. -/
def Readable (T : TemplateTable Node) (parms : List TemplateParm) (c : Partial) : Prop :=
  PlainFrom 1 c.partialparms ∨ ¬ Matches T parms c ∧ ¬ Matching T parms c

end Swig4Ada.CParse

import Swig4Ada.Swig.TypeObj

/-!
# Choosing a template specialisation (`Source/CParse/templ.c`)

`template_locate` looks for an explicit specialisation first. Otherwise it compares
the arguments of the instantiation with every partial specialisation of the primary
template and keeps a row of priorities for each that matches, in a matrix of
integers that is allocated but not initialised. The best priorities of each column
are then flagged in place, and the rows that are flagged throughout are chosen.

What the symbol table and the typedefs answer in the scopes of the call is the
parameter `TemplateTable`.
-/

namespace Swig4Ada.CParse

open Swig4Ada.Doh Swig4Ada.Swig

/-- An argument of a template instantiation: its attribute `type`, or `value`. -/
inductive TemplateParm
  | type (text : List Char)
  | value (text : List Char)
deriving DecidableEq, Repr

def TemplateParm.text : TemplateParm → List Char
  | .type t => t
  | .value t => t

/-- A partial specialisation: the name of the template, and the types of its `partialparms`. -/
structure Partial where
  templateprefix : List Char
  partialparms : List (List Char)
deriving DecidableEq, Repr

/-- The name under which it is in the symbol table, which the parser makes. -/
def Partial.templcsymname (c : Partial) : List Char :=
  c.templateprefix ++ ['<', '('] ++ [','].intercalate c.partialparms ++ [')', '>']

/-- The answers of the symbol table and of the type system. -/
structure TemplateTable (Node : Type) where
  /-- `Swig_symbol_clookup(name, 0)`. -/
  clookup : List Char → Option Node
  /-- `Swig_symbol_clookup_local(name, primary_scope)`. -/
  clookupLocal : List Char → Option Node
  /-- `Swig_symbol_typedef_reduce(type, tscope)`. -/
  typedefReduce : List Char → List Char
  /-- `Swig_symbol_type_qualify(type, tscope)`. -/
  typeQualify : List Char → List Char
  /-- `Swig_symbol_template_defargs`, with the primary template's parameters. -/
  templateDefargs : List TemplateParm → List TemplateParm
  /-- The attribute `nodeType` is `template`. -/
  isTemplate : Node → Bool
  /-- The attribute `template` of an instantiated node. -/
  template : Node → Option Node
  /-- The attribute `partials`. -/
  partials : Node → List Partial

/-- `EMatch`. -/
inductive EMatch
  | exactNoMatch
  | partiallySpecializedNoMatch
  | partiallySpecializedMatch
  | exactMatch
deriving DecidableEq, Repr

/-- `match >= (int)PartiallySpecializedMatch`. -/
def EMatch.isMatch : EMatch → Bool
  | .partiallySpecializedMatch | .exactMatch => true
  | .exactNoMatch | .partiallySpecializedNoMatch => false

def exactMatchPriority : Int := 99999

/-- `Replaceid`, on texts in which no quote is minded. -/
def replacedId (text token rep : List Char) : List Char × Nat :=
  (replaceId text token rep).getD (text, 0)

variable {Node : Type}

/-- `does_parm_match`, with the priority that it writes. -/
def doesParmMatch (T : TemplateTable Node) (type partialParmType base' : List Char) :
    EMatch × Int :=
  let ty := T.typedefReduce type
  let base := swigTypeBase ty
  let substituted := replacedId partialParmType base' base
  let isEqual := decide (ty = substituted.1)
  if substituted.2 = 1 then
    let tt := (replacedId partialParmType base' []).1
    if tt.isPrefixOf ty then (.partiallySpecializedMatch, tt.length)
    else (.partiallySpecializedNoMatch, -1)
  else if isEqual then (.exactMatch, exactMatchPriority)
  else (.exactNoMatch, -1)

/-- `partial_arg`: the argument without what the pattern has before its `$`. -/
def partialArg (s p : List Char) : List Char :=
  if '$' ∈ p then
    ((stringReplace s (p.takeWhile (· ≠ '$')) [] { first := true }).map Prod.fst).getD s
  else s

/-! ## The matrix -/

inductive MatrixFault
  | outOfBounds
  | uninitialized
deriving DecidableEq, Repr

/-- An allocated block of integers; `none` is one that was not written. -/
structure Matrix where
  size : Nat
  cell : Nat → Option Int

/-- `malloc`. -/
def Matrix.malloc (size : Nat) : Matrix := ⟨size, fun _ => none⟩

def Matrix.read (m : Matrix) (i : Nat) : Except MatrixFault Int :=
  if i < m.size then
    match m.cell i with
    | some v => .ok v
    | none => .error .uninitialized
  else .error .outOfBounds

def Matrix.write (m : Matrix) (i : Nat) (v : Int) : Except MatrixFault Matrix :=
  if i < m.size then .ok { m with cell := Function.update m.cell i (some v) }
  else .error .outOfBounds

/-! ## The loops -/

section Loops

variable (T : TemplateTable Node)

/-- `sprintf(tmp, "$%d", i)`. -/
def dollar (i : Nat) : List Char := '$' :: Nat.toDigits 10 i

/-- `while (p && pp)`, which writes the priorities of one candidate from the cell
`row` on. -/
def matchParms (row : Nat) :
    Nat → Matrix → List TemplateParm → List (List Char) →
      Except MatrixFault (Matrix × Bool)
  | i, m, p :: ps, pp :: pps => do
      let result := doesParmMatch T p.text pp (dollar i)
      let m ← m.write (row + i - 1) result.2
      if result.1.isMatch then matchParms row (i + 1) m ps pps else return (m, false)
  | _, m, _, _ => return (m, true)

/-- The loop over the partial specialisations, with the possible ones so far. A row
that did not match is written over by the next candidate. -/
def rankPartials (parms : List TemplateParm) :
    Matrix → List Partial → List Partial → Except MatrixFault (Matrix × List Partial)
  | m, possible, [] => return (m, possible)
  | m, possible, candidate :: rest => do
      if candidate.partialparms.length = parms.length then
        let (m, allParametersMatch) ←
          matchParms T (possible.length * parms.length) 1 m parms candidate.partialparms
        if allParametersMatch then rankPartials parms m (possible ++ [candidate]) rest
        else rankPartials parms m possible rest
      else rankPartials parms m possible rest

end Loops

/-- `determine the highest rank for this nth parameter`. -/
def maxPriority (m : Matrix) (parmsLen posslen col : Nat) : Except MatrixFault Int :=
  (List.range posslen).foldlM (fun maxpriority row => do
    let priority ← m.read (col + row * parmsLen)
    return if maxpriority < priority then priority else maxpriority) (-1)

/-- `flag all the parameters which equal the highest rank`. -/
def flagColumn (parmsLen posslen : Nat) (m : Matrix) (col : Nat) :
    Except MatrixFault Matrix := do
  let maxpriority ← maxPriority m parmsLen posslen col
  (List.range posslen).foldlM (fun m row => do
    let priority ← m.read (col + row * parmsLen)
    m.write (col + row * parmsLen) (if maxpriority ≤ priority then 1 else 0)) m

def flagMatrix (m : Matrix) (parmsLen posslen : Nat) : Except MatrixFault Matrix :=
  (List.range parmsLen).foldlM (flagColumn parmsLen posslen) m

/-- `count of highest priority parameters`. -/
def highestCount (m : Matrix) (parmsLen row : Nat) : Except MatrixFault Int :=
  (List.range parmsLen).foldlM (fun count col => do
    return count + (← m.read (row * parmsLen + col))) 0

/-- The loop over the rows, from the one given: those that are flagged throughout. -/
def chosenFrom (m : Matrix) (parmsLen : Nat) :
    Nat → List Partial → Except MatrixFault (List Partial)
  | _, [] => return []
  | row, candidate :: rest => do
      let count ← highestCount m parmsLen row
      let chosen ← chosenFrom m parmsLen (row + 1) rest
      return if count = parmsLen then candidate :: chosen else chosen

/-- The partial specialisations that are left when there are none better. -/
def choosePartials (T : TemplateTable Node) (parms : List TemplateParm)
    (partials : List Partial) : Except MatrixFault (List Partial) := do
  let (m, possible) ←
    rankPartials T parms (.malloc (partials.length * parms.length)) [] partials
  if 1 < possible.length then
    let m ← flagMatrix m parms.length possible.length
    let chosen ← chosenFrom m parms.length 0 possible
    return if chosen = [] then possible else chosen
  else return possible

/-! ## `template_locate` -/

/-- `SwigType_add_template`. -/
def addTemplate (name : List Char) (parms : List TemplateParm) : List Char :=
  name ++ ['<', '('] ++ [','].intercalate (parms.map TemplateParm.text) ++ [')', '>']

/-- The node that is chosen, with the names of the ones that a warning of ambiguity
says are ignored. -/
structure Located (Node : Type) where
  node : Node
  ignored : List (List Char)
deriving DecidableEq, Repr

/-- The search for an explicit specialisation, with and without typedef reduction. -/
def explicitSpecialization (T : TemplateTable Node) (tname : List Char) : Option Node :=
  match T.clookupLocal tname with
  | some n => some n
  | none =>
      let rname := T.typedefReduce tname
      if rname ≠ tname then T.clookupLocal rname else none

/-- The arguments with the defaults of the primary template, qualified. -/
def expandedParms (T : TemplateTable Node) (tparms : List TemplateParm) :
    List TemplateParm :=
  (T.templateDefargs tparms).map fun p =>
    match p with
    | .type t => .type (T.typeQualify t)
    | .value t => .value t

/-- The copy of the arguments that the candidates are compared with. It is extended in
place to the above, but not when it is empty. -/
def comparedParms (T : TemplateTable Node) (tparms : List TemplateParm) :
    List TemplateParm :=
  if tparms = [] then [] else expandedParms T tparms

/-- `template_locate`; `none` is the null pointer, behind an error message. -/
def templateLocate (T : TemplateTable Node) (name : List Char)
    (tparms : List TemplateParm) : Except MatrixFault (Option (Located Node)) :=
  match T.clookup name with
  | none => return none
  | some templ => do
      let tname := addTemplate name (expandedParms T tparms)
      match explicitSpecialization T tname with
      | some n =>
          if T.isTemplate n then return some ⟨n, []⟩
          else return (T.template n).map fun tn => ⟨tn, []⟩
      | none =>
          let possible ← choosePartials T (comparedParms T tparms) (T.partials templ)
          let n := possible.head?.bind fun c => T.clookupLocal c.templcsymname
          let n := n.getD templ
          if T.isTemplate n then
            return some ⟨n, possible.tail.map Partial.templcsymname⟩
          else return none

end Swig4Ada.CParse

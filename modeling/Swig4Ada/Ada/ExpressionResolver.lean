import Mathlib

/-!
# The C expression resolver (`ada_language-c_expression_resolver.adb`)

`resolved_c_integer_Expression` reads an expression from the left of a pad of
text. Operators and values are appended to a vector of elements; an opening
parenthesis starts a reading of its own, which ends at the closing one and is
appended as a value. At the end of a reading `Result_of` reduces the vector, one
pass over it for each operator.

The numbers are `GMP.discrete`'s, a package that is not part of the repository.
It is the parameter `Discrete`; `gmp` is its exact instance. The text is a list
of characters, and an exception is an `Except.error`. Logging is left out.
-/

namespace Swig4Ada.Ada

/-- Ways for a resolution to end without a value. The last one is not an
exception of the program: the reading is still going on. -/
inductive ResolverFault
  | constraintError
  | requiredSizeofNotDefined
  | outOfFuel
deriving DecidableEq, Repr

/-- The operator codes, which the source holds as texts. -/
inductive OpCode
  | not        -- "!"
  | complement -- "~"
  | plus       -- "+"
  | minus      -- "-"
  | times      -- "*"
  | divide     -- "/"
  | shiftLeft  -- "<<"
  | shiftRight -- ">>"
  | or         -- "|"
  | orElse     -- "||"
  | and        -- "&"
  | andThen    -- "&&"
  | xor        -- "^"
deriving DecidableEq, Repr

/-- What the resolver asks of `GMP.discrete`. `none` is `Constraint_Error`. -/
structure Discrete (α : Type) where
  ofInt : Int → α
  unary : OpCode → α → Option α
  binary : OpCode → α → α → Option α
  natural : α → Option Nat

/-- Exact integers, with the division of C and of Ada. A right operand of a
shift is an exponent, so it must not be negative; the range of `Natural` is the
one of a 32-bit `Integer`. -/
def gmp : Discrete Int where
  ofInt n := n
  unary code x :=
    match code with
    | .plus => some x
    | .minus => some (-x)
    | .not => some (if x = 0 then 1 else 0)
    | .complement => some (Int.lnot x)
    | _ => none
  binary code l r :=
    match code with
    | .plus => some (l + r)
    | .minus => some (l - r)
    | .times => some (l * r)
    | .or => some (Int.lor l r)
    | .andThen => some (if l ≠ 0 ∧ r ≠ 0 then 1 else 0)
    | .orElse => some (if l ≠ 0 ∨ r ≠ 0 then 1 else 0)
    | .and => some (Int.land l r)
    | .xor => some (Int.xor l r)
    | .divide => if r = 0 then none else some (l.tdiv r)
    | .shiftLeft => if r < 0 then none else some (l * 2 ^ r.toNat)
    | .shiftRight => if r < 0 then none else some (l.tdiv (2 ^ r.toNat))
    | .not | .complement => none
  natural x := if 0 ≤ x ∧ x < 2 ^ 31 then some x.toNat else none

/-- `an_Element`, of a kind other than `Unknown`. -/
inductive Element (α : Type)
  | operator (code : OpCode)
  | value (value : α) (typeQualifier : String)
deriving DecidableEq, Repr

variable {α : Type}

/-! ## The reductions -/

/-- `reduce_unary`. An operator is unary when it is first or the element before
it, `previous`, is an operator; the element after it must be a value, and is
deleted, so that the cursor goes on behind it. -/
def reduceUnary (D : Discrete α) (forOperation : OpCode) :
    Option (Element α) → List (Element α) → Option (List (Element α))
  | _, [] => some []
  | _, .value v q :: rest => do
      return .value v q :: (← reduceUnary D forOperation (some (.value v q)) rest)
  | some (.value _ _), .operator code :: rest => do
      let rest' ← reduceUnary D forOperation (some (.operator code)) rest
      return .operator code :: rest'
  | _, .operator code :: rest =>
      if code = forOperation then
        match rest with
        | .value v q :: rest' => do
            let v' ← D.unary forOperation v
            let rest'' ← reduceUnary D forOperation (some (.value v' q)) rest'
            return .value v' q :: rest''
        | _ => none
      else do
        let rest' ← reduceUnary D forOperation (some (.operator code)) rest
        return .operator code :: rest'

/-- The qualifier of a result: that of the left value for `^` and the shifts,
and of the right value for the other operations. -/
def resultQualifier (forOperation : OpCode) (left right : String) : String :=
  match forOperation with
  | .xor | .shiftLeft | .shiftRight => left
  | _ => right

/-- One reduction of `reduce`: the first operator with the code, found from the
cursor, is replaced by the value of its two neighbours, which are deleted. The
elements before the cursor are in reverse. No such operator leaves `none`
inside; a neighbour that is no value raises `Constraint_Error`. -/
def reduceFirst (D : Discrete α) (forOperation : OpCode) :
    List (Element α) → List (Element α) → Option (Option (List (Element α)))
  | _, [] => some none
  | before, .value v q :: after => reduceFirst D forOperation (.value v q :: before) after
  | before, .operator code :: after =>
      if code = forOperation then
        match before, after with
        | .value l lq :: before', .value r rq :: after' => do
            let v ← D.binary forOperation l r
            let q := resultQualifier forOperation lq rq
            return some (before'.reverse ++ .value v q :: after')
        | _, _ => none
      else reduceFirst D forOperation (.operator code :: before) after

/-- `reduce`: after each reduction the cursor starts again at the first element.
Every reduction takes two elements away, so the length bounds their number. -/
def reduce (D : Discrete α) (forOperation : OpCode) :
    Nat → List (Element α) → Option (List (Element α))
  | 0, vector => some vector
  | fuel + 1, vector => do
      match ← reduceFirst D forOperation [] vector with
      | none => return vector
      | some vector' => reduce D forOperation fuel vector'

/-- The order of the unary passes. -/
def unaryPasses : List OpCode := [.not, .plus, .minus, .complement]

/-- The order of the binary passes. -/
def binaryPasses : List OpCode :=
  [.shiftLeft, .shiftRight, .or, .and, .andThen, .orElse, .xor, .times, .divide,
    .plus, .minus]

/-- `Result_of`, with the value and the type qualifier of the one element that
must be left. -/
def resultOf (D : Discrete α) (vector : List (Element α)) : Option (α × String) := do
  let pad ← unaryPasses.foldlM (fun pad code => reduceUnary D code none pad) vector
  let pad ← binaryPasses.foldlM (fun pad code => reduce D code pad.length pad) pad
  match pad with
  | [.value v q] => some (v, q)
  | _ => none

/-! ## Texts -/

/-- The position of a pattern in a text, counted from zero. -/
def index (pattern : List Char) : List Char → Option Nat
  | [] => if pattern = [] then some 0 else none
  | c :: cs =>
      if pattern.isPrefixOf (c :: cs) then some 0
      else (index pattern cs).map (· + 1)

/-- `ada.Strings.Unbounded.find_Token` with `Inside`: the text before the first
run of the set, the run, and the text after it. -/
def findToken (set : Char → Bool) (source : List Char) :
    List Char × List Char × List Char :=
  let rest := source.dropWhile (!set ·)
  (source.takeWhile (!set ·), rest.takeWhile set, rest.dropWhile set)

def isDigit (c : Char) : Bool := '0' ≤ c ∧ c ≤ '9'

/-- The set `"0123456789xABCDEFabcdef"`. -/
def isHexLiteralChar (c : Char) : Bool :=
  isDigit c || c = 'x' || ('A' ≤ c ∧ c ≤ 'F') || ('a' ≤ c ∧ c ≤ 'f')

/-- The characters of a symbol identifier. -/
def isSymbolChar (c : Char) : Bool :=
  ('A' ≤ c ∧ c ≤ 'Z') || ('a' ≤ c ∧ c ≤ 'z') || c = '_' || isDigit c

def toUpper (c : Char) : Char := if 'a' ≤ c ∧ c ≤ 'z' then Char.ofNat (c.toNat - 32) else c

/-- The decimal loop of `ada_Utility.to_Int`. -/
def toIntDecimal : Bool → Int → List Char → Option Int
  | isNegative, result, [] => some (if isNegative then -result else result)
  | isNegative, result, c :: cs =>
      if c = '-' then toIntDecimal true result cs
      else if c = ' ' ∨ c = '(' then toIntDecimal isNegative result cs
      else if c = ')' then some (if isNegative then -result else result)
      else if isDigit c then toIntDecimal isNegative (result * 10 + (c.toNat - 48 : Nat)) cs
      else none

/-- The hexadecimal loop of `ada_Utility.to_Int`. -/
def toIntHex : Bool → Int → List Char → Option Int
  | isNegative, result, [] => some (if isNegative then -result else result)
  | isNegative, result, c :: cs =>
      if c = '-' then toIntHex true result cs
      else if c = ' ' then toIntHex isNegative result cs
      else if isDigit c then toIntHex isNegative (result * 16 + (c.toNat - 48 : Nat)) cs
      else if 'A' ≤ c ∧ c ≤ 'F' then
        toIntHex isNegative (result * 16 + (c.toNat - 65 + 10 : Nat)) cs
      else if 'a' ≤ c ∧ c ≤ 'f' then
        toIntHex isNegative (result * 16 + (c.toNat - 97 + 10 : Nat)) cs
      else if c = ')' then some (if isNegative then -result else result)
      else none

/-- `ada_Utility.to_Int`. -/
def toInt (self : List Char) : Option Int :=
  match index ['0', 'x'] self with
  | none => toIntDecimal false 0 self
  | some hexIndex => toIntHex false 0 (self.drop (hexIndex + 2))

/-! ## The readings -/

abbrev SymbolMap (α : Type) := List Char → Option α

/-- `raise Constraint_Error` on `none`. -/
def orConstraintError {β : Type} : Option β → Except ResolverFault β
  | some x => .ok x
  | none => .error .constraintError

/-- Gives the last element of the vector a type qualifier. -/
def qualifyLast (elements : List (Element α)) (qualifier : String) :
    Except ResolverFault (List (Element α)) :=
  match elements.getLast? with
  | some (.value v _) => .ok (elements.dropLast ++ [.value v qualifier])
  | _ => .error .constraintError

/-- The default of `type_Qualifier`. -/
def defaultQualifier : String := "I"

/-- A symbol's value, in the namespace or else without one. -/
def symbolValue (knownSymbols : SymbolMap α) (nameSpace theSymbol : List Char) :
    Option α :=
  (knownSymbols (nameSpace ++ theSymbol)).orElse fun _ => knownSymbols theSymbol

/-- The last part of `resolved_sizeof_Expression`: the size of a type that is
neither an array nor a pointer is the constant `sizeof_<type>`, where the first
space of the type has become an underscore. -/
def knownSizeof (D : Discrete α) (knownSymbols : SymbolMap α)
    (expressionType : List Char) : Except ResolverFault Nat := do
  let space ← orConstraintError (index [' '] expressionType)
  let newExpressionType := expressionType.set space '_'
  match knownSymbols ("sizeof_".toList ++ newExpressionType) with
  | some size => orConstraintError (D.natural size)
  | none => .error .requiredSizeofNotDefined

/-- A result of the subtype `Positive` or `Natural` of a 32-bit `Integer`. -/
def inRange (low n : Nat) : Except ResolverFault Nat :=
  if low ≤ n ∧ n < 2 ^ 31 then .ok n else .error .constraintError

/-- The text before the last `[` of a text, and the text after it. -/
def splitAtLastBracket (text : List Char) : Option (List Char × List Char) :=
  match index ['['] text.reverse with
  | none => none
  | some back =>
      some (text.take (text.length - back - 1), text.drop (text.length - back))

/-- What one turn of the reading loop finds at the front of the pad. -/
inductive Finding
  | space
  | qualifier (qualifier : String)
  | openParen
  | closeParen
  | operator (code : OpCode)
  | sizeof (slice : List Char)
  | literal (value : Int)
  | symbol (theSymbol : List Char)
deriving DecidableEq, Repr

/-- A literal made of the first run of a set of characters of the pad. -/
def findLiteral (set : Char → Bool) (pad : List Char) :
    Except ResolverFault (Finding × List Char) :=
  let token := findToken set pad
  match toInt token.2.1 with
  | none => .error .constraintError
  | some n => .ok (.literal n, token.1 ++ token.2.2)

/-- The tests of the loop in their order, on a pad `c :: cs`, with the pad that
is left when what was found is deleted. -/
def findFirst (isSingle : Bool) (c : Char) (cs : List Char) :
    Except ResolverFault (Finding × List Char) :=
  let pad := c :: cs
  if c = ' ' then .ok (.space, cs)
  else if 3 ≤ pad.length ∧ (pad.take 3).map toUpper = ['U', 'L', 'L'] then
    .ok (.qualifier "ULL", pad.drop 3)
  else if 2 ≤ pad.length ∧ (pad.take 2).map toUpper = ['U', 'L'] then
    .ok (.qualifier "UL", pad.drop 2)
  else if !isSingle ∧ toUpper c = 'L' then .ok (.qualifier "L", cs)
  else if !isSingle ∧ toUpper c = 'U' then .ok (.qualifier "U", cs)
  else if c = '(' then .ok (.openParen, cs)
  else if c = '!' then .ok (.operator .not, cs)
  else if c = '+' then .ok (.operator .plus, cs)
  else if c = '-' then .ok (.operator .minus, cs)
  else if c = '~' then .ok (.operator .complement, cs)
  else if c = '*' then .ok (.operator .times, cs)
  else if c = '/' then .ok (.operator .divide, cs)
  else if pad.take 2 = ['|', '|'] then .ok (.operator .orElse, pad.drop 2)
  else if c = '|' then .ok (.operator .or, cs)
  else if pad.take 2 = ['&', '&'] then .ok (.operator .andThen, pad.drop 2)
  else if c = '&' then .ok (.operator .and, cs)
  else if c = '^' then .ok (.operator .xor, cs)
  else if pad.take 7 = ['s', 'i', 'z', 'e', 'o', 'f', '('] then
    match index [')'] (pad.drop 7) with
    | none => .error .constraintError
    | some last =>
        .ok (.sizeof ((pad.drop 7).take last), (pad.drop 7).drop (last + 1))
  else if pad.take 2 = ['<', '<'] then .ok (.operator .shiftLeft, pad.drop 2)
  else if pad.take 2 = ['>', '>'] then .ok (.operator .shiftRight, pad.drop 2)
  else if c = ')' then .ok (.closeParen, cs)
  else if pad.take 2 = ['0', 'x'] then findLiteral isHexLiteralChar pad
  else if isDigit c then findLiteral isDigit pad
  else if pad.length = 1 ∨ pad[1]? = some ' ' then
    -- Not a digit, which an earlier test would have caught: its code is the value.
    .ok (.literal c.toNat, cs)
  else
    let token := findToken isSymbolChar pad
    .ok (.symbol token.2.1, token.1 ++ token.2.2)

mutual

/-- `resolved_sizeof_Expression` from its loop on: the type without its
references, the multiplier so far, and the type as it was given. -/
def resolvedSizeof (D : Discrete α) (knownSymbols : SymbolMap α)
    (nameSpace expressionType : List Char) :
    Nat → List Char → Nat → Except ResolverFault Nat
  | 0, _, _ => .error .outOfFuel
  | fuel + 1, theTypeText, arrayMultiplier =>
      match theTypeText.getLast? with
      | some ']' => do
          let (before, arraySizeText) ←
            orConstraintError (splitAtLastBracket theTypeText.dropLast)
          let reading ←
            resolveRecursive D knownSymbols nameSpace (arraySizeText.length = 1) fuel
              arraySizeText []
          let arraySize ← orConstraintError (D.natural reading.1.1)
          let arrayMultiplier ← inRange 1 (arrayMultiplier * arraySize)
          resolvedSizeof D knownSymbols nameSpace expressionType fuel before
            arrayMultiplier
      | some '*' => inRange 0 (8 * arrayMultiplier)
      | _ => knownSizeof D knownSymbols expressionType

/-- `resolve_c_integer_Expression_recursive`: the loop on the pad with the
elements read so far. It answers the value and type of the reading and the pad
that is left behind its end. -/
def resolveRecursive (D : Discrete α) (knownSymbols : SymbolMap α)
    (nameSpace : List Char) (isSingle : Bool) :
    Nat → List Char → List (Element α) →
      Except ResolverFault ((α × String) × List Char)
  | 0, _, _ => .error .outOfFuel
  | _ + 1, [], elements => do return (← orConstraintError (resultOf D elements), [])
  | fuel + 1, c :: cs, elements => do
      match ← findFirst isSingle c cs with
      | (.space, pad) => resolveRecursive D knownSymbols nameSpace isSingle fuel pad elements
      | (.qualifier q, pad) =>
          resolveRecursive D knownSymbols nameSpace isSingle fuel pad
            (← qualifyLast elements q)
      | (.openParen, pad) =>
          let reading ← resolveRecursive D knownSymbols nameSpace isSingle fuel pad []
          resolveRecursive D knownSymbols nameSpace isSingle fuel reading.2
            (elements ++ [.value reading.1.1 reading.1.2])
      | (.closeParen, pad) => return (← orConstraintError (resultOf D elements), pad)
      | (.operator code, pad) =>
          resolveRecursive D knownSymbols nameSpace isSingle fuel pad
            (elements ++ [.operator code])
      | (.sizeof slice, pad) =>
          let size ← resolvedSizeof D knownSymbols nameSpace slice fuel
            (slice.filter (· ≠ '&')) 1
          resolveRecursive D knownSymbols nameSpace isSingle fuel pad
            (elements ++ [.value (D.ofInt size) defaultQualifier])
      | (.literal n, pad) =>
          resolveRecursive D knownSymbols nameSpace isSingle fuel pad
            (elements ++ [.value (D.ofInt n) defaultQualifier])
      | (.symbol theSymbol, pad) =>
          let v ← orConstraintError (symbolValue knownSymbols nameSpace theSymbol)
          resolveRecursive D knownSymbols nameSpace isSingle fuel pad
            (elements ++ [.value v defaultQualifier])

end

/-- `resolved_c_integer_Expression`. A turn of the loop takes a character or
more away, so the turns do not outnumber the characters by more than one. -/
def resolvedCIntegerExpression (D : Discrete α) (knownSymbols : SymbolMap α)
    (nameSpace theExpression : List Char) : Except ResolverFault α := do
  let reading ←
    resolveRecursive D knownSymbols nameSpace (theExpression.length = 1)
      (theExpression.length + 1) theExpression []
  return reading.1.1

end Swig4Ada.Ada

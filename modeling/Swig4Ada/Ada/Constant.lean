import Swig4Ada.Ada.ExpressionResolver

/-!
# Constants (`constantWrapper` in `ada_language.adb`, `swigg-utility.adb`)

The value of a constant is evaluated, written again in the radix that the text of the
source began with, and bound to the constant's name, all in one block. Its exception
handler goes on with the text alone, whatever was raised: it drops the qualifiers of
literals and writes floats and escapes as Ada does.

The images are `GMP.discrete`'s, which is not part of the repository: the parameter
`Images`. What follows the block (the package that is freshened, `addSymbol`) is left
out, and so is the log.
-/

namespace Swig4Ada.Ada

inductive ConstantFault
  | constraintError
  | indexError
deriving DecidableEq, Repr

/-- `image`, `hex_Image` and `oct_Image` of `GMP.discrete`. -/
structure Images (α : Type) where
  image : α → List Char
  hexImage : α → List Char
  octImage : α → List Char

/-- What the wrapper asks of a `c_Type.Item`. -/
structure ConstantType where
  name : List Char
  qualifiedName : List Char
deriving DecidableEq, Repr

/-- A `c_Variable.Item`, with its value. -/
structure CVariable where
  name : List Char
  myType : ConstantType
  value : List Char
deriving DecidableEq, Repr

/-- The attributes of a node that the wrapper reads. -/
structure ConstantNode where
  symName : List Char
  type : List Char
  value : List Char
deriving DecidableEq, Repr

/-- The part of the language module that the wrapper reads and changes. -/
structure Constants (α : Type) where
  swigTypeMapOfCType : List Char → Option ConstantType
  integerSymbolValueMap : SymbolMap α
  currentClassNamespacePrefix : List Char
  newCVariables : List CVariable

/-! ## Texts -/

/-- `Slice`: the characters from `low` to `high`, counted from one. -/
def slice (text : List Char) (low high : Nat) : Except ConstantFault (List Char) :=
  if text.length + 1 < low ∨ text.length < high then .error .indexError
  else .ok ((text.drop (low - 1)).take (high + 1 - low))

/-- The loop of `replace_All`. A search that starts behind the text finds nothing. -/
def replaceAllLoop (token withToken : List Char) : Nat → List Char → List Char
  | 0, self => self
  | fuel + 1, self =>
      match index token self with
      | none => self
      | some i =>
          self.take i ++ withToken ++
            replaceAllLoop token withToken fuel (self.drop (i + token.length))

/-- `replace_All`, of tokens that are not empty. -/
def replaceAll (token withToken self : List Char) : List Char :=
  replaceAllLoop token withToken (self.length + 1) self

/-- Replaces each digit with a suffix by the digit with another suffix, in the order of
the calls. -/
def replaceAfterDigits (digits suffix withSuffix self : List Char) : List Char :=
  digits.foldl (fun self d => replaceAll (d :: suffix) (d :: withSuffix) self) self

/-- `strip_c_integer_literal_qualifiers_in`. -/
def stripCIntegerLiteralQualifiersIn (self : List Char) : List Char :=
  let digits := "1234567890".toList
  let self := ["LL", "UL", "L", "l"].foldl
    (fun self suffix => replaceAfterDigits digits suffix.toList [] self) self
  if index "0x".toList self = none then replaceAfterDigits digits "F".toList [] self
  else self

/-- `replace_integer_with_float`. -/
def replaceIntegerWithFloat (self : List Char) : List Char :=
  match index ['e'] self with
  | none => self
  | some e =>
      if (self.take e).contains '.' then self
      else
        let digits := "0123456789".toList
        replaceAfterDigits digits "E".toList ".0E".toList
          (replaceAfterDigits digits "e".toList ".0e".toList self)

/-- The escapes that have a position of their own in `interfaces.c.char`. -/
def escapePositions : List (List Char × List Char) :=
  [("\\a", "07"), ("\\b", "08"), ("\\e", "27"), ("\\f", "12"), ("\\n", "10"),
    ("\\r", "13"), ("\\t", "09"), ("\\v", "11"), ("\\\\", "92"), ("\\'", "39"),
    ("\\\"", "34"), ("\\?", "63")].map fun p => (p.1.toList, p.2.toList)

/-! ## The wrapper -/

variable {α : Type}

/-- The types whose value is not looked at. -/
def ConstantType.isNumeric (t : ConstantType) : Bool :=
  !(t.qualifiedName = "Character".toList ∨ t.qualifiedName = "char*".toList)

/-- The block that evaluates: the text of the value when it ends, and the map, or none
when an exception was raised. -/
def evaluateBlock (D : Discrete α) (I : Images α) (self : Constants α)
    (theName valueText : List Char) : List Char × Option (SymbolMap α) :=
  match resolvedCIntegerExpression D self.integerSymbolValueMap
      self.currentClassNamespacePrefix valueText with
  | .error _ => (valueText, none)
  | .ok theValue =>
      match slice valueText 1 2, slice valueText 1 1 with
      | .ok two, .ok one =>
          let valueText :=
            if two = "0x".toList then I.hexImage theValue
            else if one = "0".toList then I.octImage theValue
            else I.image theValue
          if (self.integerSymbolValueMap theName).isSome then (valueText, none)
          else
            (valueText,
              some (Function.update self.integerSymbolValueMap theName (some theValue)))
      | _, _ => (valueText, none)

/-- The part of the exception handler for a `char`. -/
def charValue (self : Constants α) (theType : ConstantType) (valueText : List Char) :
    Except ConstantFault (ConstantType × List Char) := do
  match escapePositions.lookup valueText with
  | some position =>
      return (theType, "interfaces.c.char'Val (".toList ++ position ++ ")".toList)
  | none =>
      if (← slice valueText 1 1) = "\\".toList then
        if 5 ≤ valueText.length ∧ valueText[4]? = some '\\' then
          match self.swigTypeMapOfCType "wchar_t".toList with
          | none => .error .constraintError
          | some wchar =>
              let high ← slice valueText 2 (valueText.length - 4)
              let low ← slice valueText 6 valueText.length
              return (wchar, "interfaces.c.wchar_t'Val (8#".toList ++ high ++
                "# * 256 + 8#".toList ++ low ++ "#)".toList)
        else
          let octal ← slice valueText 2 valueText.length
          return (theType, "interfaces.c.char'Val (8#".toList ++ octal ++ "#)".toList)
      else return (theType, valueText)

/-- `when others`: the type and the value that the constant is left with. -/
def exceptionHandler (self : Constants α) (theType : ConstantType) (valueText : List Char) :
    Except ConstantFault (ConstantType × List Char) :=
  let valueText := stripCIntegerLiteralQualifiersIn valueText
  if theType.name = "float".toList ∨ theType.name = "double".toList then
    .ok (theType, replaceIntegerWithFloat valueText)
  else if theType.name = "char".toList then charValue self theType valueText
  else .ok (theType, valueText)

/-- `constantWrapper`. -/
def constantWrapper (D : Discrete α) (I : Images α) (self : Constants α)
    (theNode : ConstantNode) : Except ConstantFault (Constants α) :=
  match self.swigTypeMapOfCType theNode.type with
  | none => .error .constraintError
  | some theType =>
      if theType.isNumeric then
        match evaluateBlock D I self theNode.symName theNode.value with
        | (valueText, some map) => .ok { self with
            integerSymbolValueMap := map
            newCVariables := self.newCVariables ++ [⟨theNode.symName, theType, valueText⟩] }
        | (valueText, none) => do
            let (newType, newText) ← exceptionHandler self theType valueText
            return { self with
              newCVariables := self.newCVariables ++ [⟨theNode.symName, newType, newText⟩] }
      else .ok { self with
        newCVariables := self.newCVariables ++ [⟨theNode.symName, theType, theNode.value⟩] }

end Swig4Ada.Ada

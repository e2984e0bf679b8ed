import Swig4Ada.Ada.Identifier

/-!
# Enumerations (`transformer.adb`, `ada_type-…-enumeration.adb`)

The transformer turns a C enum into an Ada enumeration: the first enumerator with
a value becomes a literal, and each later one with the same value a constant whose
value is the name of that literal. `verify` then makes identifiers of the names
once more, renames the type when a literal is called like it, and sorts the
literals by value.
-/

namespace Swig4Ada.Ada

/-- `enum_Literal`, of a C enum and of an Ada enumeration. -/
structure EnumLiteral where
  name : List Char
  value : Int
deriving DecidableEq, Repr

/-- An enumerator of a C enum: its name is a C identifier. -/
structure Enumerator extends EnumLiteral where
  identifier : IsCIdentifier name

/-- A C enum, of enumerators with any values. -/
structure CEnum where
  name : List Char
  literals : List Enumerator

/-- `ada_Variable.Item`, for a constant of the enumeration. -/
structure AdaVariable where
  name : List Char
  value : List Char
deriving DecidableEq, Repr

/-- `ada_Type.elementary.scalar.discrete.enumeration.Item`, and the variables that
the transformer adds to its package. -/
structure Enumeration where
  name : List Char
  literals : List EnumLiteral
  constants : List AdaVariable
deriving DecidableEq, Repr

/-- `the_literal_value_Map_of_literal_Name`. -/
abbrev LiteralMap := Int → Option (List Char)

/-- One turn of the transformer's loop over the literals. -/
def transformLiteral (state : Enumeration × LiteralMap) (theLiteral : EnumLiteral) :
    Enumeration × LiteralMap :=
  let theLiteralName := toAdaIdentifier theLiteral.name
  match state.2 theLiteral.value with
  | some literalName =>
      ({ state.1 with constants := state.1.constants ++ [⟨theLiteralName, literalName⟩] },
        state.2)
  | none =>
      ({ state.1 with literals := state.1.literals ++ [⟨theLiteralName, theLiteral.value⟩] },
        Function.update state.2 theLiteral.value (some theLiteralName))

/-- `transform`, for a C enum. -/
def transform (name : List Char) (literals : List EnumLiteral) : Enumeration :=
  (literals.foldl transformLiteral (⟨toAdaIdentifier name, [], []⟩, fun _ => none)).1

/-- `verify`. -/
def verify (self : Enumeration) : Enumeration :=
  let name := toAdaIdentifier self.name
  let literals := self.literals.map fun l => { l with name := toAdaIdentifier l.name }
  let clashFound := literals.any fun l => decide (lowered l.name = lowered name)
  { self with
    name := if clashFound then name ++ "_enum".toList else name
    literals := literals.insertionSort fun left right => left.value ≤ right.value }

/-- What the Ada back-end makes of a C enum. -/
def CEnum.toAda (e : CEnum) : Enumeration :=
  verify (transform e.name (e.literals.map Enumerator.toEnumLiteral))

/-- The spelling of a C name in Ada, where case does not count. -/
def spelling (name : List Char) : List Char := lowered (toAdaIdentifier name)

/-! ## What an enumeration should be -/

/-- The literals have strictly ascending values. -/
def Enumeration.Ascending (a : Enumeration) : Prop :=
  a.literals.Pairwise fun l r => l.value < r.value

/-- The names of the literals are distinct, case aside, and none is the type's. -/
def Enumeration.NamesApart (a : Enumeration) : Prop :=
  (a.literals.map fun l => lowered l.name).Nodup ∧
    ∀ l ∈ a.literals, lowered l.name ≠ lowered a.name

/-- An enumerator with its name in Ada. -/
def EnumLiteral.inAda (l : EnumLiteral) : EnumLiteral := ⟨toAdaIdentifier l.name, l.value⟩

/-- Each enumerator is there once: as a literal with its value, or as a constant
that names the literal with its value. `carried` are those of the constants. -/
def Enumeration.Carries (a : Enumeration) (literals : List EnumLiteral) : Prop :=
  ∃ carried : List EnumLiteral,
    List.Forall₂ (fun c l => l.name = c.name ∧ ⟨c.value, l.value⟩ ∈ a.literals)
      a.constants carried ∧
    (a.literals ++ carried).Perm (literals.map EnumLiteral.inAda)

/-- The enumerators that are the first with their value. -/
def firstOfValues : List EnumLiteral → List EnumLiteral
  | [] => []
  | l :: ls => l :: (firstOfValues ls).filter fun r => decide (r.value ≠ l.value)

end Swig4Ada.Ada

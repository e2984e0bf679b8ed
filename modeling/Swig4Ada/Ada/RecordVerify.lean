import Swig4Ada.Ada.Identifier
import Swig4Ada.Ada.Prune

/-!
# Verifying a record type (`ada_type-composite-a_record.adb`)

`verify` turns the base classes that are not virtual into record components, corrects the
names of the components and notes which types their bit fields need. A cursor is an index
counted from one, and zero is `No_Element`.
-/

namespace Swig4Ada.Ada

variable {T : Type}

/-- `undefined_Bitfield`. -/
def undefinedBitfield : Int := -1

/-- An `ada_Variable` of a record. -/
structure RecordVariable (T : Type) where
  name : List Char
  myType : T
  bitField : Int

/-- What `verify` uses of the types. -/
structure RecordTypes (T : Type) where
  isVirtual : T → Bool
  /-- `declaration_package.Name`. -/
  packageName : T → List Char
  qualifiedName : T → List Char

/-- The bound of the array `Components`. -/
def componentsLast : Nat := 500

/-- A record. The components are those up to `component_Count`. -/
structure RecordItem (T : Type) where
  baseClasses : List T
  components : List (RecordVariable T)
  components_fit : components.length ≤ componentsLast
  requiresInt : Bool
  requiresUnsigned : Bool
  requiresUnsignedChar : Bool
  requiresExtensionsBool : Bool

variable (types : RecordTypes T)

/-- The component for a base class. -/
def baseComponent (theBase : T) : RecordVariable T :=
  ⟨types.packageName theBase ++ "_base".toList, theBase, undefinedBitfield⟩

/-- The components are shifted and the new one is put in front of them. -/
def RecordItem.prepend (self : RecordItem T) (v : RecordVariable T) :
    Except AdaException (RecordItem T) :=
  if h : self.components.length + 1 ≤ componentsLast then
    .ok { self with components := v :: self.components, components_fit := h }
  else .error .constraintError

/-- The loop `transform_non_virtual_base_Classes_to_record_Components`, from a cursor on. It is
nothing when the fuel is used up. -/
def transformBases : Nat → Nat → RecordItem T → Option (Except AdaException (RecordItem T))
  | 0, _, _ => none
  | fuel + 1, cursor, self =>
      if cursor = 0 then some (.ok self)
      else
        match vectorElement self.baseClasses cursor with
        | .error e => some (.error e)
        | .ok theBase =>
            if ¬ types.isVirtual theBase then
              match vectorDelete self.baseClasses cursor with
              | .error e => some (.error e)
              | .ok bases =>
                  match { self with baseClasses := bases }.prepend (baseComponent types theBase) with
                  | .error e => some (.error e)
                  | .ok self => transformBases fuel bases.length self
            else transformBases fuel (cursor - 1) self

/-- `Correct component Identifier names.` -/
def RecordItem.correctNames (self : RecordItem T) : RecordItem T :=
  { self with
    components := self.components.map fun v => { v with name := toAdaIdentifier v.name }
    components_fit := by
      rw [List.length_map]
      exact self.components_fit }

/-- One turn of the loop over the bit fields. The third name sets the flag of the second. -/
def RecordItem.detect (self : RecordItem T) (v : RecordVariable T) : RecordItem T :=
  if v.bitField ≠ undefinedBitfield then
    if types.qualifiedName v.myType = "interfaces.c.Int".toList then
      { self with requiresInt := true }
    else if types.qualifiedName v.myType = "interfaces.c.Unsigned".toList then
      { self with requiresUnsigned := true }
    else if types.qualifiedName v.myType = "interfaces.c.unsigned_Char".toList then
      { self with requiresUnsigned := true }
    else if types.qualifiedName v.myType = "interfaces.c.extensions.bool".toList then
      { self with requiresExtensionsBool := true }
    else self
  else self

/-- `verify`. -/
def RecordItem.verify (fuel : Nat) (self : RecordItem T) :
    Option (Except AdaException (RecordItem T)) :=
  (transformBases types fuel self.baseClasses.length self).map fun outcome =>
    outcome.map fun self =>
      let self := self.correctNames
      self.components.foldl (RecordItem.detect types) self

end Swig4Ada.Ada

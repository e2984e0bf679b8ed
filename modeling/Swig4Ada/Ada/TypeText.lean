import Swig4Ada.Ada.Identifier

/-!
# The bounds of arrays in the text of a type (`swigg-utility.adb`, `ada_language.adb`)

The bounds of arrays are deleted by two loops that differ in where they take the bounds to
end: one looks for the first closing parenthesis, the other for the last one before the next
period. Positions are counted from zero.
-/

namespace Swig4Ada.Ada

/-- `Index (Source, Pattern, from => From, going => backward)`: the last position of a
character in the text up to a position. -/
def lastIndex (c : Char) (text : List Char) : Nat → Option Nat
  | 0 => if text[0]? = some c then some 0 else none
  | fromPos + 1 =>
      if text[fromPos + 1]? = some c then some (fromPos + 1) else lastIndex c text fromPos

/-- `delete (stripped_swig_Type, bounds_Start + 1, bounds_End)`, which does nothing when the
end, 0 where nothing was found, is not behind the start. -/
def deleteBounds (text : List Char) (boundsStart : Nat) (boundsEnd : Option Nat) : List Char :=
  match boundsEnd with
  | none => text
  | some e => if boundsStart < e then text.take (boundsStart + 1) ++ text.drop (e + 1) else text

inductive StripFault
  | constraintError
deriving DecidableEq, Repr

/-- The end of the bounds, where there is one, or an exception. -/
abbrev BoundsEnd := List Char → Nat → Except StripFault (Option Nat)

/-- The loops; `none` is a loop that has not ended. -/
def stripBoundsLoop (boundsEnd : BoundsEnd) :
    Nat → List Char → Option (Except StripFault (List Char))
  | 0, _ => none
  | fuel + 1, text =>
      match index ['a', '('] text with
      | none => some (.ok text)
      | some boundsStart =>
          match boundsEnd text boundsStart with
          | .error e => some (.error e)
          | .ok e => stripBoundsLoop boundsEnd fuel (deleteBounds text boundsStart e)

/-- Of `strip_array_Bounds`. Where there is no period, its position 0 is no place to begin a
search at. -/
def lastParenthesis : BoundsEnd := fun text boundsStart =>
  match index ['.'] (text.drop boundsStart) with
  | none => .error .constraintError
  | some period => .ok (lastIndex ')' text (boundsStart + period))

/-- Of `my_stripped`. -/
def firstParenthesis : BoundsEnd := fun text boundsStart =>
  .ok ((index [')'] (text.drop boundsStart)).map (boundsStart + ·))

def stripArrayBounds : Nat → List Char → Option (Except StripFault (List Char)) :=
  stripBoundsLoop lastParenthesis

/-- The loop of `my_stripped` over the array bounds. -/
def myStrippedBounds : Nat → List Char → Option (Except StripFault (List Char)) :=
  stripBoundsLoop firstParenthesis

end Swig4Ada.Ada

import Swig4Ada.Doh.Replace

/-!
# Names of parameters (`makeParameterName` in `ada_language.adb`)

A parameter keeps its C name, unless the name is empty or more than one parameter of the
list has it; then a suffix is put behind it, with the number of parameters that have the
name. The number of the parameter in the list is not looked at.
-/

namespace Swig4Ada.Ada

/-- A parameter of a C function; the attribute `name` may be missing. -/
structure Parm where
  name : Option (List Char)
deriving DecidableEq, Repr

/-- `Attribute (the_Parameter, "name")`. -/
def Parm.nameAttribute (p : Parm) : List Char := p.name.getD []

/-- `"arg_" & Trim (Count'Image, ada.strings.Left)`. -/
def argSuffix (count : Nat) : List Char := ['a', 'r', 'g', '_'] ++ Nat.toDigits 10 count

def makeParameterName (parameterList : List Parm) (theParameter : Parm) : List Char :=
  let theName := theParameter.nameAttribute
  let count := parameterList.countP fun parameter => theName = parameter.nameAttribute
  if theName = [] ∨ 1 < count then theName ++ argSuffix count else theName

/-- The names of all parameters. -/
def parameterNames (parameterList : List Parm) : List (List Char) :=
  parameterList.map (makeParameterName parameterList)

end Swig4Ada.Ada

import Swig4Ada.Doh.Replace

/-!
# Qualified names (`Source/Swig/misc.c`)

The functions on names like `A::B::C` look for two colons outside angle brackets, and
for `operator ` anywhere. A place in a name is its distance from the beginning. In a
name `operator ` is at the beginning or behind two characters at least, so that no
length is negative.
-/

namespace Swig4Ada.Swig

open Doh

/-! ## Scanning -/

/-- The loop `while (*c && level)` for one character. -/
def angleLevel (level : Nat) (c : Char) : Nat :=
  if c = '<' then level + 1 else if c = '>' then level - 1 else level

/-- The loop to the end of a name. `cc` is set at each `::` outside angle brackets: to the
colons themselves in some functions, and behind them in others, which is `shift`. -/
def lastColons (shift : Nat) : Nat → Nat → Nat → List Char → Nat
  | _, _, cc, [] => cc
  | level + 1, pos, cc, c :: t => lastColons shift (angleLevel (level + 1) c) (pos + 1) cc t
  | 0, pos, _, ':' :: ':' :: t => lastColons shift 0 (pos + 2) (pos + shift) t
  | 0, pos, cc, c :: t => lastColons shift (if c = '<' then 1 else 0) (pos + 1) cc t

/-- The loop to the first `::` outside angle brackets, or to the place `co`. It is nothing
when the end of the name is reached. -/
def firstColons (co : Option Nat) : Nat → Nat → List Char → Option Nat
  | _, _, [] => none
  | level + 1, pos, c :: t => firstColons co (angleLevel (level + 1) c) (pos + 1) t
  | 0, pos, ':' :: ':' :: _ => some pos
  | 0, pos, c :: t =>
      if co = some pos then some pos
      else firstColons co (if c = '<' then 1 else 0) (pos + 1) t

def operatorText : List Char := "operator ".toList

/-- `strstr(c, "::")`. -/
def hasColons (s : List Char) : Bool := (strstr [':', ':'] s).isSome

/-- `strstr(c, "operator ")`. -/
def operatorAt (s : List Char) : Option Nat := strstr operatorText s

/-! ## The functions -/

/-- `Swig_scopename_split`: the prefix and the last name. What is set when there are no
colons is set again on every path. -/
def scopenameSplit (s : List Char) : Option (List Char) × List Char :=
  match operatorAt s with
  | some co => if co = 0 then (none, s) else (some (s.take (co - 2)), s.drop co)
  | none =>
      let cc := lastColons 0 0 0 0 s
      if cc ≠ 0 then (some (s.take cc), s.drop (cc + 2)) else (none, s)

/-- `Swig_scopename_prefix`. -/
def scopenamePrefix (s : List Char) : Option (List Char) :=
  if ¬ hasColons s then none
  else
    match operatorAt s with
    | some co => if co = 0 then none else some (s.take (co - 2))
    | none =>
        let cc := lastColons 0 0 0 0 s
        if cc ≠ 0 then some (s.take cc) else none

/-- `Swig_scopename_last`. -/
def scopenameLast (s : List Char) : List Char :=
  if ¬ hasColons s then s
  else
    match operatorAt s with
    | some co => s.drop co
    | none => s.drop (lastColons 2 0 0 0 s)

/-- `Swig_scopename_first`. -/
def scopenameFirst (s : List Char) : Option (List Char) :=
  if ¬ hasColons s then none
  else
    let co := operatorAt s
    if co = some 0 then none
    else
      match firstColons co 0 0 s with
      | some c => if c ≠ 0 then some (s.take c) else none
      | none => none

/-- `Swig_scopename_suffix`. -/
def scopenameSuffix (s : List Char) : Option (List Char) :=
  if ¬ hasColons s then none
  else if operatorAt s = some 0 then none
  else
    match firstColons none 0 0 s with
    | some c => if c ≠ 0 then some (s.drop (c + 2)) else none
    | none => none

/-- The loop of `Swig_scopename_tolist`. -/
def tolistLoop : Nat → List Char → List (List Char) → Option (List (List Char))
  | 0, _, _ => none
  | fuel + 1, name, scopes =>
      match scopenameSplit name with
      | (some pre, last) => tolistLoop fuel pre (last :: scopes)
      | (none, last) => some (last :: scopes)

/-- `Swig_scopename_tolist`. A prefix is shorter than its name. -/
def scopenameTolist (s : List Char) : Option (List (List Char)) :=
  if s = [] then some [] else tolistLoop (s.length + 1) s []

/-- `Swig_scopename_check`. -/
def scopenameCheck (s : List Char) : Bool :=
  if operatorAt s = some 0 then false
  else if ¬ hasColons s then false
  else (firstColons none 0 0 s).isSome

end Swig4Ada.Swig

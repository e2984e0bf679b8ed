import Swig4Ada.Lib.Bisect

/-!
# Looking for a type (`swigrun.swg`)

A type is looked for by its mangled name, with a binary search in the table of each module,
and then by its human-readable names, which stand in one text between bars and are compared
without their spaces. A pointer into a text is what can be read from there on, with the null
character at the end of the text, and the number of characters before the end that is
compared with. What is read behind the null character or outside a table is `none`.
-/

namespace Swig4Ada.Runtime

open Swig4Ada.Lib

/-! ## Names without their spaces -/

/-- `while ((*f == ' ') && (f != l)) ++f;` -/
def skipSpaces : List Char → Int → Option (List Char × Int)
  | [], _ => none
  | c :: f, n => if c = ' ' ∧ n ≠ 0 then skipSpaces f (n - 1) else some (c :: f, n)

/-- The loop of `SWIG_TypeNameComp`: the result, and whether a character was read that is
not before `l1` or `l2`. -/
def typeNameCompLoop : Nat → List Char → Int → List Char → Int → Bool → Option (Int × Bool)
  | 0, _, _, _, _, _ => none
  | fuel + 1, f1, n1, f2, n2, outside =>
      if n1 ≠ 0 ∧ n2 ≠ 0 then
        match skipSpaces f1 n1, skipSpaces f2 n2 with
        | some (c1 :: f1, n1), some (c2 :: f2, n2) =>
            let outside := outside || decide (n1 ≤ 0) || decide (n2 ≤ 0)
            if c1 ≠ c2 then some (if c2 < c1 then 1 else -1, outside)
            else typeNameCompLoop fuel f1 (n1 - 1) f2 (n2 - 1) outside
        | _, _ => none
      else some (n1 - n2, outside)

/-- `SWIG_TypeNameComp`. -/
def typeNameComp (f1 : List Char) (n1 : Int) (f2 : List Char) (n2 : Int) : Option (Int × Bool) :=
  typeNameCompLoop (f1.length + 1) f1 n1 f2 n2 false

/-- A null-terminated text. -/
def CText : Type := { text : List Char // '\x00' ∉ text }

/-- What can be read of it. -/
def CText.buffer (s : CText) : List Char := s.1 ++ ['\x00']

/-- The loop of `SWIG_TypeCmp`, where `ne` is the rest of the names. -/
def typeCmpLoop (tb : CText) : Nat → List Char → Int → Option Int
  | 0, _, _ => none
  | fuel + 1, ne, equiv =>
      if equiv ≠ 0 ∧ ne ≠ [] then
        let name := ne.takeWhile (· ≠ '|')
        match typeNameComp (ne ++ ['\x00']) name.length tb.buffer tb.1.length with
        | none => none
        | some (equiv, _) => typeCmpLoop tb fuel (ne.drop (name.length + 1)) equiv
      else some equiv

/-- `SWIG_TypeCmp`. -/
def typeCmp (nb tb : CText) : Option Int := typeCmpLoop tb (nb.1.length + 1) nb.1 1

/-- `SWIG_TypeEquiv`. -/
def typeEquiv (nb tb : CText) : Option Bool := (typeCmp nb tb).map (· = 0)

/-! ## Types in the modules

A module is here the array `types`, whose pointers are not null, and stands in the circular
list by its place. A type is answered as its module and its index. -/

/-- `name` and `str` of a `swig_type_info`. -/
structure TypeNames where
  name : CText
  str : Option CText

/-- The circular list. The arrays are sorted by their mangled names. -/
structure ModuleRing where
  modules : List (List TypeNames)
  nonempty : modules ≠ []
  sorted : ∀ types ∈ modules, (types.map fun t => t.name.1).Pairwise (· ≤ ·)

/-- A module of the list. -/
abbrev ModuleRing.Iter (ring : ModuleRing) : Type := Fin ring.modules.length

def ModuleRing.types (ring : ModuleRing) (iter : ring.Iter) : List TypeNames :=
  ring.modules[iter.1]

/-- `iter->next`. -/
def ModuleRing.next (ring : ModuleRing) (iter : ring.Iter) : ring.Iter :=
  if h : iter.1 + 1 < ring.modules.length then ⟨iter.1 + 1, h⟩
  else ⟨0, List.length_pos_of_ne_nil ring.nonempty⟩

/-- The binary search in one module. -/
def searchNames (types : List TypeNames) (name : CText) : Option (Option Nat) :=
  if types.length = 0 then some none
  else bisectIn (types.map fun t => t.name.1) name.1 types.length 0 (types.length - 1)

/-- `do { .. iter = iter->next; } while (iter != end);` with a search in each module. -/
def searchModules (ring : ModuleRing) (search : List TypeNames → Option (Option Nat))
    (stop : ring.Iter) : Nat → ring.Iter → Option (Option (ring.Iter × Nat))
  | 0, _ => none
  | fuel + 1, iter =>
      match search (ring.types iter) with
      | none => none
      | some (some i) => some (some (iter, i))
      | some none =>
          if ring.next iter = stop then some none
          else searchModules ring search stop fuel (ring.next iter)

/-- `SWIG_MangledTypeQueryModule`. -/
def mangledTypeQuery (ring : ModuleRing) (start stop : ring.Iter) (name : CText) :
    Option (Option (ring.Iter × Nat)) :=
  searchModules ring (searchNames · name) stop ring.modules.length start

/-- `for (; i < iter->size; ++i)`, over the human-readable names from the index `i` on. -/
def searchStrs (name : CText) : Nat → List TypeNames → Option (Option Nat)
  | _, [] => some none
  | i, t :: types =>
      match t.str with
      | none => searchStrs name (i + 1) types
      | some str =>
          match typeEquiv str name with
          | none => none
          | some true => some (some i)
          | some false => searchStrs name (i + 1) types

/-- `SWIG_TypeQueryModule`. -/
def typeQuery (ring : ModuleRing) (start stop : ring.Iter) (name : CText) :
    Option (Option (ring.Iter × Nat)) :=
  match mangledTypeQuery ring start stop name with
  | none => none
  | some (some ret) => some (some ret)
  | some none => searchModules ring (searchStrs name 0) stop ring.modules.length start

/-! ## What the comparison is for -/

/-- The text after removing all spaces. -/
def spaceless (t : List Char) : List Char := t.filter (· ≠ ' ')

/-- The names between the bars. -/
def separatedNames (nb : List Char) : List (List Char) := nb.splitOn '|'

/-- The comparison reads only what is before the ends, and is zero for texts that are the
same without their spaces. -/
def NameCompRight (t1 t2 behind1 behind2 : List Char) : Prop :=
  ∃ r, typeNameComp (t1 ++ behind1) t1.length (t2 ++ behind2) t2.length = some (r, false) ∧
    (r = 0 ↔ spaceless t1 = spaceless t2)

/-- The comparison with a list of names is zero when one of them is the same. -/
def TypeCmpRight (nb tb : CText) : Prop :=
  ∃ r, typeCmp nb tb = some r ∧
    (r = 0 ↔ ∃ name ∈ separatedNames nb.1, spaceless name = spaceless tb.1)

/-- The modules from `start` up to `stop`, all of them when the two are the same. -/
def ModuleRing.visited (ring : ModuleRing) (start stop : ring.Iter) : List ring.Iter :=
  let n := ring.modules.length
  (List.range ((stop.1 + n - start.1 - 1) % n + 1)).map fun d =>
    ⟨(start.1 + d) % n, Nat.mod_lt _ (List.length_pos_of_ne_nil ring.nonempty)⟩

def HasMangledName (types : List TypeNames) (name : CText) : Prop :=
  ∃ t ∈ types, t.name.1 = name.1

/-- The query by the mangled name answers with a type of that name in the first of the
modules that has one. -/
def MangledQueryRight (ring : ModuleRing) (start stop : ring.Iter) (name : CText) : Prop :=
  ∃ answer, mangledTypeQuery ring start stop name = some answer ∧
    (answer = none ↔ ∀ iter ∈ ring.visited start stop, ¬ HasMangledName (ring.types iter) name) ∧
    ∀ iter i, answer = some (iter, i) →
      ((ring.types iter)[i]?.map fun t => t.name.1) = some name.1 ∧
        ∃ before behind, ring.visited start stop = before ++ iter :: behind ∧
          ∀ iter' ∈ before, ¬ HasMangledName (ring.types iter') name

/-- The human-readable names of the types of some modules, as texts with bars. -/
def strsOf (ring : ModuleRing) (start stop : ring.Iter) : List CText :=
  (ring.visited start stop).flatMap fun iter => (ring.types iter).filterMap TypeNames.str

/-- One of the names between the bars is the same but for spaces. -/
def HasReadableName (str name : CText) : Prop :=
  ∃ readable ∈ separatedNames str.1, spaceless readable = spaceless name.1

/-- The query then answers with null only where no type has the name. -/
def TypeQueryRight (ring : ModuleRing) (start stop : ring.Iter) (name : CText) : Prop :=
  MangledQueryRight ring start stop name ∧
    ∃ answer, typeQuery ring start stop name = some answer ∧
      (answer = none →
        (∀ iter ∈ ring.visited start stop, ¬ HasMangledName (ring.types iter) name) ∧
          ∀ str ∈ strsOf ring start stop, ¬ HasReadableName str name)

/-! ## Where it is right -/

def EndsInSpace (t : List Char) : Prop := t.getLast? = some ' '

/-- The text that is used up first does not end in a space. -/
def EndsApart (t1 t2 : List Char) : Prop :=
  (spaceless t1 <+: spaceless t2 → ¬ EndsInSpace t1) ∧
    (spaceless t2 <+: spaceless t1 → ¬ EndsInSpace t2)

/-- The names that are compared: an empty one at the end is not. -/
def comparedNames (nb : List Char) : List (List Char) :=
  if (separatedNames nb).getLast? = some [] then (separatedNames nb).dropLast
  else separatedNames nb

/-- The comparison runs behind both texts at one of the names. -/
def Lost (nb tb : List Char) : Prop :=
  ∃ before name others, separatedNames nb = before ++ name :: others ∧
    EndsInSpace name ∧ EndsInSpace tb ∧
      spaceless (['|'].intercalate (name :: others)) = spaceless tb

/-- One of the names that are compared is the same, and neither ends in a space. -/
def Found (nb tb : List Char) : Prop :=
  ∃ name ∈ comparedNames nb, spaceless name = spaceless tb ∧ ¬ EndsInSpace name ∧ ¬ EndsInSpace tb

/-- Where one of the names is the one that is looked for, this does not end in a space, and
one such name is compared that does not either. Where none is and the one that is looked for
ends in a space, no rest of the names is the same from a name on that ends in one. -/
def NamesEndApart (nb tb : List Char) : Prop :=
  ((∃ name ∈ separatedNames nb, spaceless name = spaceless tb) →
    ¬ EndsInSpace tb ∧
      ∃ name ∈ comparedNames nb, spaceless name = spaceless tb ∧ ¬ EndsInSpace name) ∧
  (EndsInSpace tb → ∀ before name others, separatedNames nb = before ++ name :: others →
    EndsInSpace name → spaceless (['|'].intercalate (name :: others)) ≠ spaceless tb)

/-- Some type has the name as its mangled name, or as a human-readable one where neither ends
in a space, or none has it, and no comparison runs behind both texts. -/
def NameReadable (ring : ModuleRing) (start stop : ring.Iter) (name : CText) : Prop :=
  (∃ iter ∈ ring.visited start stop, HasMangledName (ring.types iter) name) ∨
    (∃ str ∈ strsOf ring start stop, Found str.1 name.1) ∨
    ∀ str ∈ strsOf ring start stop, ¬ HasReadableName str name ∧ ¬ Lost str.1 name.1

end Swig4Ada.Runtime

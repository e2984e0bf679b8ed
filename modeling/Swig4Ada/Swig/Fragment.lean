import Swig4Ada.Lib.CText

/-!
# Code fragments (`fragment.c`)

A fragment is registered under a name and is written to its section when it is asked for, after
the fragments that its `fragment` keywords name. The name is held in `looking_fragments` until
the code is written; then the code in the table is replaced by `ignore`. Places in messages and
the output of `debug` are left out.
-/

namespace Swig4Ada.Swig

/-- What a fragment is asked for with: a node, or only a name. -/
structure FragmentNode where
  value : List Char
  type : Option (List Char)
deriving DecidableEq, Repr

/-- A registered code with its metadata; the section is that of the `section` keyword. -/
structure Fragment where
  code : List Char
  sectionName : Option (List Char)
  /-- The names of the keywords, with the keywords as nodes. -/
  kwargs : List (List Char × FragmentNode)
deriving DecidableEq, Repr

/-- What `fragment.c` uses of other modules: `Swig_string_mangle`,
`SwigType_typedef_resolve_all` and `Swig_cparse_replace_descriptor`. -/
structure FragmentTools where
  mangle : List Char → List Char
  resolveAll : List Char → List Char
  replaceDescriptor : List Char → List Char

structure FragmentState where
  /-- `named_files` -/
  files : List (List Char)
  fragments : Option (List (List Char × Fragment))
  looking : List (List Char)
  /-- The fragments that were printed, each with its name. -/
  written : List (List Char × Fragment)
  messages : List String
deriving DecidableEq, Repr

/-- Before anything is registered. -/
def FragmentState.start (files : List (List Char)) : FragmentState := ⟨files, none, [], [], []⟩

namespace FragmentState

variable (st : FragmentState) (name : List Char)

def table : List (List Char × Fragment) := st.fragments.getD []

/-- `Getattr(fragments, name)` -/
def getattr : Option Fragment := (st.table.find? fun e => e.1 = name).map Prod.snd

def message (text : String) : FragmentState := { st with messages := st.messages ++ [text] }

def look : FragmentState := { st with looking := name :: st.looking }

end FragmentState

/-- The code of a fragment that is not to be written (again). -/
def ignored : List Char := "ignore".toList

/-- The value that takes the place of a fragment when it is written. -/
def ignoredFragment : Fragment := ⟨ignored, none, []⟩

/-- What is printed to the section. -/
def Fragment.text (frag : Fragment) : List Char := frag.code ++ ['\n']

/-- `Setattr(fragments, name, "ignore")` for a name that is there. -/
def setIgnored (name : List Char) (table : List (List Char × Fragment)) :
    List (List Char × Fragment) :=
  table.map fun e => if e.1 = name then (name, ignoredFragment) else e

namespace FragmentState

/-- The end of the turn for a fragment: the name stays in `looking_fragments` where there is no
file for its section. -/
def print (st : FragmentState) (name : List Char) (frag : Fragment) : FragmentState :=
  match frag.sectionName with
  | none => st
  | some sec =>
      if sec ∈ st.files then
        { st with
          written := st.written ++ [(name, frag)]
          fragments := some (setIgnored name st.table)
          looking := st.looking.erase name }
      else
        st.message ("Bad section '" ++ String.ofList sec ++
          "' in %fragment declaration for code fragment '" ++ String.ofList name ++ "'\n")

def notFound (st : FragmentState) (name : List Char) : FragmentState :=
  st.message ("Fragment '" ++ String.ofList name ++ "' not found.\n")

end FragmentState

/-! ## `Swig_fragment_emit` -/

variable (tools : FragmentTools)

/-- The names that a node asks for: those between the commas, with its mangled type. -/
def FragmentNode.names (n : FragmentNode) : List (List Char) :=
  (n.value.splitOn ',').map (· ++ n.type.elim [] tools.mangle)

/-- What is asked for in place of a name that is not there, when the type is a typedef. -/
def FragmentNode.plain (n : FragmentNode) : Option FragmentNode :=
  n.type.bind fun type =>
    if type ≠ tools.resolveAll type then some ⟨n.value ++ tools.mangle type, none⟩ else none

abbrev Emitting := FragmentNode → FragmentState → Option FragmentState

/-- The loop over the keywords of a fragment. -/
def emitKwargs (emit : Emitting) :
    List (List Char × FragmentNode) → FragmentState → Option FragmentState
  | [], st => some st
  | (key, nn) :: rest, st =>
      if key = "fragment".toList then (emit nn st).bind (emitKwargs emit rest)
      else emitKwargs emit rest st

/-- One turn of the loop over the names. -/
def emitName (emit : Emitting) (n : FragmentNode) (name : List Char) (st : FragmentState) :
    Option FragmentState :=
  match st.getattr name with
  | some frag =>
      if frag.code = ignored then some st
      else (emitKwargs emit frag.kwargs (st.look name)).map fun st => st.print name frag
  | none => ((n.plain tools).elim (some st) fun m => emit m st).map fun st => st.notFound name

/-- The loop over the names; one that is being looked at ends it. -/
def emitNames (emit : Emitting) (n : FragmentNode) :
    List (List Char) → FragmentState → Option FragmentState
  | [], st => some st
  | name :: rest, st =>
      if name ∈ st.looking then some st
      else (emitName tools emit n name st).bind (emitNames emit n rest)

/-- `Swig_fragment_emit` with fuel for its depth. -/
def fragmentEmit : Nat → Emitting
  | 0, _, _ => none
  | fuel + 1, n, st =>
      if st.fragments = none then some (st.notFound n.value)
      else emitNames tools (fragmentEmit fuel) n (n.names tools) st

/-- The fragments that can still be written. -/
def FragmentState.live (st : FragmentState) : Nat :=
  st.table.countP fun e => e.2.code ≠ ignored ∧ e.1 ∉ st.looking

/-- `Swig_fragment_emit`; the depth is never more than this. -/
def swigFragmentEmit (n : FragmentNode) (st : FragmentState) : Option FragmentState :=
  fragmentEmit tools (2 * st.live + 2) n st

/-! ## `Swig_fragment_register` -/

/-- The node of a `%fragment` directive. -/
structure FragmentDirective where
  node : FragmentNode
  emitonly : Bool
  sectionName : Option (List Char)
  code : List Char
  kwargs : List (List Char × FragmentNode)
deriving DecidableEq, Repr

namespace FragmentDirective

variable (d : FragmentDirective)

def name : List Char := d.node.value ++ d.node.type.elim [] tools.mangle

/-- What is registered. -/
def fragment : Fragment := ⟨tools.replaceDescriptor d.code, d.sectionName, d.kwargs⟩

end FragmentDirective

/-- `Swig_fragment_register` -/
def swigFragmentRegister (d : FragmentDirective) (st : FragmentState) : Option FragmentState :=
  if d.emitonly = true then swigFragmentEmit tools d.node st
  else
    let st := { st with fragments := some st.table }
    if (st.getattr (d.name tools)).isSome then some st
    else some { st with fragments := some (st.table ++ [(d.name tools, d.fragment tools)]) }

inductive FragmentCall
  | register (d : FragmentDirective)
  | emit (n : FragmentNode)
deriving DecidableEq, Repr

def fragmentStep : FragmentCall → FragmentState → Option FragmentState
  | .register d, st => swigFragmentRegister tools d st
  | .emit n, st => swigFragmentEmit tools n st

end Swig4Ada.Swig

import Swig4Ada.Proofs.ReplaceWord
import Swig4Ada.Swig.TemplateDefargs

/-!
# Where the default arguments are right

Replacing the names in turn is replacing them at once when no argument brings in the
name of a later parameter. With no argument at all nothing is replaced, and when the
first argument has as many attributes as the first parameter nothing is added.
-/

namespace Swig4Ada.Swig

open Swig4Ada.Doh Swig4Ada.Lib

/-- Fewer arguments than parameters, with defaults for the parameters that are left. The
names of the parameters are identifiers. -/
structure DefargsInput where
  scopes : DefargsScopes
  parms : List Parm
  targs : List Parm
  fewer : parms.length < targs.length
  defaults : ∀ tp ∈ targs.drop parms.length, tp.value ≠ none
  identifiers : ∀ tp ∈ targs, ∀ name, tp.name = some name → IsWord name

/-- The given arguments, with one for each of the parameters that are left. -/
def DefargsInput.Right (input : DefargsInput) : Prop :=
  templateDefargs input.scopes input.parms input.targs =
    wantedFrom input.scopes input.targs input.parms (input.targs.drop input.parms.length)

/-- What the names do in one default: with arguments given, none of them brings in the name
of a later parameter that stands for something else; with none given, no name stands for
something else. -/
def DefaultKept (S : DefargsScopes) (given : Bool) (parms targs : List Parm)
    (value : List Char) : Prop :=
  if given then
    NoCapture isIdentifierChar (namedArguments S parms targs)
      (words isIdentifierChar (S.stringQualify value))
  else ∀ p ∈ namedArguments S parms targs,
    p.1 ∈ words isIdentifierChar (S.stringQualify value) → p.2 = p.1

/-- All the defaults that are added, each with the arguments before it. -/
def DefaultsKept (S : DefargsScopes) (given : Bool) (targs : List Parm) :
    List Parm → List Parm → Prop
  | _, [] => True
  | parms, tp :: rest =>
      DefaultKept S given parms targs (tp.value.getD []) ∧
        DefaultsKept S given targs
          (parms ++ [wantedDefault S parms targs (tp.value.getD [])]) rest

variable {S : DefargsScopes} {parms targs : List Parm}

theorem wantedFrom_length (rest : List Parm) :
    (wantedFrom S targs parms rest).length = parms.length + rest.length := by
  induction rest generalizing parms with
  | nil => rfl
  | cons tp rest ih =>
      rw [wantedFrom, ih, List.length_append, List.length_singleton, List.length_cons]
      omega

/-- The inner loop replaces the names in turn. -/
theorem replaceParms_eq (h : ∀ tp ∈ targs, ∀ name, tp.name = some name → IsWord name)
    (nt : List Char) : replaceParms S parms targs nt =
      replaceInTurn isIdentifierChar (namedArguments S parms targs) nt := by
  induction parms generalizing targs nt with
  | nil => rfl
  | cons p ps ih =>
      cases targs with
      | nil => rfl
      | cons ta targs =>
          have hrest := fun nt =>
            @ih targs (fun tp htp => h tp (List.mem_cons_of_mem ta htp)) nt
          rw [replaceParms, namedArguments, List.zip_cons_cons, List.filterMap_cons]
          cases hname : ta.name with
          | none => exact hrest nt
          | some name =>
              obtain ⟨n, hn⟩ := (h ta List.mem_cons_self name hname).replaceId_eq nt
                (S.argumentQualify p.text)
              dsimp only [Option.map_some]
              rw [hn, hrest]
              rfl

theorem namedArguments_names (h : ∀ tp ∈ targs, ∀ name, tp.name = some name → IsWord name) :
    Names isIdentifierChar (namedArguments S parms targs) := by
  intro p hp
  obtain ⟨q, hq, hmap⟩ := List.mem_filterMap.1 hp
  obtain ⟨name, hname, rfl⟩ := Option.map_eq_some_iff.1 hmap
  have hword := h q.2 (List.of_mem_zip hq).2 name hname
  exact ⟨hword.ne_nil, hword.chars⟩

/-- The names of one default are replaced at once. -/
theorem DefaultKept.replaced {given : Bool} {value : List Char}
    (h : ∀ tp ∈ targs, ∀ name, tp.name = some name → IsWord name)
    (hkept : DefaultKept S given parms targs value) :
    replaceParms S (if given then parms else []) targs (S.stringQualify value) =
      replaceAtOnce isIdentifierChar (namedArguments S parms targs) (S.stringQualify value) := by
  rw [DefaultKept] at hkept
  cases given with
  | true =>
      rw [if_pos rfl] at hkept
      rw [if_pos rfl, replaceParms_eq h]
      exact replaceInTurn_eq (namedArguments_names h) hkept
  | false =>
      rw [if_neg Bool.false_ne_true] at hkept
      rw [if_neg Bool.false_ne_true, replaceAtOnce_self hkept]
      rfl

/-- The loop adds what is wanted. -/
theorem DefaultsKept.added {given : Bool} {rest : List Parm}
    (h : ∀ tp ∈ targs, ∀ name, tp.name = some name → IsWord name)
    (hvalues : ∀ tp ∈ rest, tp.value ≠ none) (hkept : DefaultsKept S given targs parms rest) :
    addDefaults S given targs parms rest = wantedFrom S targs parms rest := by
  induction rest generalizing parms with
  | nil => rfl
  | cons tp rest ih =>
      obtain ⟨value, hvalue⟩ :=
        Option.ne_none_iff_exists'.1 (hvalues tp List.mem_cons_self)
      obtain ⟨hone, hrest⟩ := hkept
      rw [hvalue, Option.getD_some] at hone hrest
      rw [addDefaults, hvalue, wantedFrom, hvalue, Option.getD_some]
      dsimp only
      rw [hone.replaced h]
      exact ih (fun tp htp => hvalues tp (List.mem_cons_of_mem _ htp)) hrest

/-- The arguments are expanded right when the first parameter has more attributes than the
first argument and the names in the defaults are kept; and not when it has not more. -/
theorem defargs_right (input : DefargsInput) :
    (nodeLen input.parms < nodeLen input.targs ∧
        DefaultsKept input.scopes (input.parms ≠ []) input.targs input.parms
          (input.targs.drop input.parms.length) → input.Right) ∧
      (input.Right → nodeLen input.parms < nodeLen input.targs) := by
  constructor
  · rintro ⟨hlen, hkept⟩
    rw [DefargsInput.Right, templateDefargs, if_pos hlen]
    exact hkept.added input.identifiers input.defaults
  · intro hright
    by_contra hlen
    rw [DefargsInput.Right, templateDefargs, if_neg hlen] at hright
    have hlength := congrArg List.length hright
    rw [wantedFrom_length, List.length_drop] at hlength
    have hfewer := input.fewer
    omega

/-- Scopes in which every name stands for itself. -/
def plainScopes : DefargsScopes := ⟨id, id, id, id⟩

/-- The parameter `class T`, with or without a default. -/
def classParm (name : Char) (value : Option (List Char)) : Parm :=
  ⟨some [name], some ("class ".toList ++ [name]), value, 1⟩

theorem classParm_word {name : Char} (h : isIdentifierChar name = true)
    {value : Option (List Char)} {text : List Char} (he : (classParm name value).name = some text) :
    IsWord text := by
  obtain rfl : [name] = text := Option.some.inj he
  exact ⟨List.cons_ne_nil _ _, fun c hc => by rw [List.mem_singleton.1 hc]; exact h⟩

/-- `template<class A, class C = A>` with the argument `B`. -/
def oneArgument : DefargsInput where
  scopes := plainScopes
  parms := [newParm ['B']]
  targs := [classParm 'A' none, classParm 'C' (some ['A'])]
  fewer := by decide
  defaults := by decide
  identifiers := by
    intro tp htp name hname
    simp only [List.mem_cons, List.not_mem_nil, or_false] at htp
    rcases htp with rfl | rfl <;> exact classParm_word (by decide) hname

theorem oneArgument_right : oneArgument.Right := by
  refine (defargs_right oneArgument).1 ⟨by decide, ⟨?_, trivial⟩⟩
  rw [DefaultKept, if_pos (by decide)]
  exact ⟨fun _ q hq => (nomatch hq), trivial⟩

/-- `template<class A = B, class C = A>` with no arguments. -/
def noArguments : DefargsInput where
  scopes := plainScopes
  parms := []
  targs := [classParm 'A' (some ['B']), classParm 'C' (some ['A'])]
  fewer := by decide
  defaults := by decide
  identifiers := by
    intro tp htp name hname
    simp only [List.mem_cons, List.not_mem_nil, or_false] at htp
    rcases htp with rfl | rfl <;> exact classParm_word (by decide) hname

/-- `template<class A, class B, class C = A>` with the arguments `B` and `D`. -/
def capturedArgument : DefargsInput where
  scopes := plainScopes
  parms := [newParm ['B'], newParm ['D']]
  targs := [classParm 'A' none, classParm 'B' none, classParm 'C' (some ['A'])]
  fewer := by decide
  defaults := by decide
  identifiers := by
    intro tp htp name hname
    simp only [List.mem_cons, List.not_mem_nil, or_false] at htp
    rcases htp with rfl | rfl | rfl <;> exact classParm_word (by decide) hname

/-- `template<class, class B, class C = B>` with two arguments. -/
def unnamedParameter : DefargsInput where
  scopes := plainScopes
  parms := [newParm ['D'], newParm ['E']]
  targs := [⟨none, some "class".toList, none, 1⟩, classParm 'B' none, classParm 'C' (some ['B'])]
  fewer := by decide
  defaults := by decide
  identifiers := by
    intro tp htp name hname
    simp only [List.mem_cons, List.not_mem_nil, or_false] at htp
    rcases htp with rfl | rfl | rfl
    · cases hname
    · exact classParm_word (by decide) hname
    · exact classParm_word (by decide) hname

theorem defargs_not_right :
    ¬ noArguments.Right ∧ ¬ capturedArgument.Right ∧ ¬ unnamedParameter.Right := by
  refine ⟨?_, ?_, ?_⟩
  · rw [DefargsInput.Right]
    decide
  · rw [DefargsInput.Right]
    decide
  · rw [DefargsInput.Right]
    decide

end Swig4Ada.Swig

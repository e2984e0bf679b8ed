import Swig4Ada.Lib.Visit
import Swig4Ada.Modules.FunctionInBases

/-!
# The same function in a base

Two methods of one name are the same when the types of their parameters, their qualifiers and
reference qualifiers and the types they return are equal, typedefs resolved, or the returned
types are covariant. The comparison of the source looks only for whether the declarators begin
with a qualifier, and for returned types only at the type in front of the declarator or at the
classes below all pointers and references.
-/

namespace Swig4Ada.Modules

open Swig4Ada.Ada Swig4Ada.Lib Swig4Ada.Swig

/-! ## When functions are the same -/

section Spec

variable (T : Typedefs)

/-- The type that a function returns. -/
def FunctionDecl.returned (f : FunctionDecl) : List Char := T.resolveAll (f.result ++ f.type)

def FunctionDecl.parmTypes (f : FunctionDecl) : List (List Char) :=
  f.parms.map fun p => T.resolveAll p.type

/-- Pointers or references to a derived class and a base of it, with no more qualifiers. -/
def Covariant (a b : List Char) : Prop :=
  T.subclass (swigTypeBase b) (swigTypeBase a) = true ∧
    ∃ top kind qa qb, kind ∈ ['p', 'r', 'z'] ∧
      a = qualifierText top ++ kind :: '.' :: (qualifierText qa ++ swigTypeBase a) ∧
      b = qualifierText top ++ kind :: '.' :: (qualifierText qb ++ swigTypeBase b) ∧
      ∀ q ∈ qa.splitOn ' ', q ∈ qb.splitOn ' '

def SameQualifiers (f g : FunctionDecl) : Prop :=
  f.qualifier = g.qualifier ∧ f.refQualifier = g.refQualifier

def SameReturn (f g : FunctionDecl) : Prop :=
  f.returned T = g.returned T ∨ Covariant T (f.returned T) (g.returned T)

/-- The method `f` of a class and the method `g` of a base of it are the same function. -/
def SameFunction (f g : FunctionDecl) : Prop :=
  f.parmTypes T = g.parmTypes T ∧ SameQualifiers f g ∧ SameReturn T f g

/-- A declarator begins with a qualifier. -/
def FunctionDecl.Qualified (f : FunctionDecl) : Prop := f.refQualifier = none ∧ f.qualifier ≠ []

/-- The types in front of the declarators are equal, or the classes below the returned types
are related, or the returned types are equal. -/
def AlikeReturn (f g : FunctionDecl) : Prop :=
  g.type = f.type ∨ f.returned T = g.returned T ∨
    T.subclass (swigTypeBase (g.returned T)) (swigTypeBase (f.returned T)) = true

/-- The parameters are the same, and both declarators begin with a qualifier or none does, and
the returned types are alike, but the qualifiers or the returned types are not the same. -/
def Confused (f g : FunctionDecl) : Prop :=
  f.parmTypes T = g.parmTypes T ∧ (f.Qualified ↔ g.Qualified) ∧ AlikeReturn T f g ∧
    ¬ (SameQualifiers f g ∧ SameReturn T f g)

end Spec

/-! ## Returned types -/

variable {T : Typedefs} {f g : FunctionDecl} {t rest q : List Char}

theorem joined_balanced {items : List (List Char)} (h : ∀ i ∈ items, IsParameter i) :
    Balanced '(' ')' ([','].intercalate items) := by
  induction items with
  | nil => rfl
  | cons i items ih =>
      have hi := (h i List.mem_cons_self).unbroken.balanced (by decide)
      cases items with
      | nil => rwa [List.intercalate_singleton]
      | cons j items =>
          rw [List.intercalate_cons_cons, List.append_assoc]
          refine balanced_append hi ?_
          exact (balanced_cons (by decide) (by decide)).2
            (ih fun k hk => h k (List.mem_cons_of_mem _ hk))

theorem parms_balanced (f : FunctionDecl) : Balanced '(' ')' (functionParms f.parms) := by
  rw [functionParms_eq]
  refine joined_balanced fun i hi => ?_
  obtain ⟨p, hp, rfl⟩ := List.mem_map.1 hi
  exact f.parms_types p hp

/-- An element in parentheses is popped with its dot. -/
theorem pop_parenthesized {u r : List Char} {c : Char} (hc : c ≠ '.' ∧ c ≠ '(')
    (hu : Balanced '(' ')' u) (hrest : r.head? ≠ some '.') :
    swigTypePop (c :: '(' :: (u ++ (')' :: '.' :: r))) =
      some (c :: '(' :: (u ++ [')', '.']), r) := by
  have hsplit : c :: '(' :: (u ++ (')' :: '.' :: r)) =
      (c :: '(' :: (u ++ [')', '.'])) ++ r := by simp
  have hends : DelEnds (c :: '(' :: (u ++ (')' :: '.' :: r))) r :=
    DelEnds.other hc.1 hc.2 (DelEnds.parens hu (DelEnds.dot r))
  rw [hsplit] at hends ⊢
  exact swigTypePop_element (List.cons_ne_nil _ _) hrest hends

theorem pop_reference {c : Char} (hc : c ≠ '.' ∧ c ≠ '(') (hrest : rest.head? ≠ some '.') :
    swigTypePop (c :: '.' :: rest) = some ([c, '.'], rest) :=
  swigTypePop_element (e := [c, '.']) (List.cons_ne_nil _ _) hrest
    (DelEnds.other hc.1 hc.2 (DelEnds.dot rest))

theorem qualifier_balanced (f : FunctionDecl) : Balanced '(' ')' f.qualifier :=
  nesting_of_not_mem (fun h => (f.qualifier_plain _ h).2.1 rfl)
    (fun h => (f.qualifier_plain _ h).2.2 rfl)

/-- The declarator and the type, from the parameters on. -/
theorem function_text : swigTypeAddFunction f.result f.parms ++ t =
    'f' :: '(' :: (functionParms f.parms ++ (')' :: '.' :: (f.result ++ t))) := by
  simp [swigTypeAddFunction]

/-- The attributes `decl` and `type`, one behind the other. -/
theorem push_decl : swigTypePush f.type f.decl = f.refText ++ (qualifierText f.qualifier ++
    'f' :: '(' :: (functionParms f.parms ++ (')' :: '.' :: (f.result ++ f.type)))) := by
  have hne : f.decl ≠ [] := by
    rw [FunctionDecl.decl, swigTypeAddFunction]
    simp
  have hdot : f.decl.getLast? = some '.' := by
    have hresult : ([')', '.'] ++ f.result).getLast? = some '.' := by
      rcases f.result_dot with h | h
      · rw [h]
        rfl
      · rw [List.getLast?_append, h]
        rfl
    rw [FunctionDecl.decl, swigTypeAddFunction, List.getLast?_append, List.getLast?_append,
      List.getLast?_append, hresult]
    rfl
  rw [swigTypePush, if_neg hne, if_neg (fun h => h.2 hdot), FunctionDecl.decl, List.append_assoc,
    List.append_assoc, function_text]

theorem popFunction_plain {u : List Char} (hu : Balanced '(' ')' u)
    (hrest : rest.head? ≠ some '.') :
    swigTypePopFunction ('f' :: '(' :: (u ++ (')' :: '.' :: rest))) = some rest := by
  have hpop := pop_parenthesized (c := 'f') (by decide) hu hrest
  rw [swigTypePopFunction]
  simp [List.isPrefixOf, hpop]

theorem popFunction_qualified {u : List Char} (hu : Balanced '(' ')' u)
    (hrest : rest.head? ≠ some '.') (hq : Balanced '(' ')' q) :
    swigTypePopFunction (qualifierText q ++ 'f' :: '(' :: (u ++ (')' :: '.' :: rest))) =
      some rest := by
  rw [qualifierText]
  split
  · exact popFunction_plain hu hrest
  · have hpop := pop_parenthesized (c := 'f') (by decide) hu hrest
    have hpopq := pop_parenthesized (r := 'f' :: '(' :: (u ++ (')' :: '.' :: rest)))
      (c := 'q') (by decide) hq (by simp)
    rw [swigTypePopFunction]
    simp [List.isPrefixOf, hpop, hpopq]

theorem popFunction_reference (r : RefQualifier) {u : List Char} (hu : Balanced '(' ')' u)
    (hrest : rest.head? ≠ some '.') (hq : Balanced '(' ')' q) :
    swigTypePopFunction (r.text ++ (qualifierText q ++
      'f' :: '(' :: (u ++ (')' :: '.' :: rest)))) = some rest := by
  have hnext : (qualifierText q ++ 'f' :: '(' :: (u ++ (')' :: '.' :: rest))).head? ≠ some '.' ∧
      ¬ (['r', '.'].isPrefixOf
            (qualifierText q ++ 'f' :: '(' :: (u ++ (')' :: '.' :: rest))) = true ∨
          ['z', '.'].isPrefixOf
            (qualifierText q ++ 'f' :: '(' :: (u ++ (')' :: '.' :: rest))) = true) := by
    rw [qualifierText]
    split <;> simp [List.isPrefixOf]
  have hqualified := popFunction_qualified hu hrest hq
  generalize qualifierText q ++ 'f' :: '(' :: (u ++ (')' :: '.' :: rest)) = t at hnext hqualified
  rw [swigTypePopFunction, if_neg hnext.2] at hqualified
  have hpop : swigTypePop (r.text ++ t) = some (r.text, t) := by
    cases r with
    | lvalue => exact pop_reference (by decide) hnext.1
    | rvalue => exact pop_reference (by decide) hnext.1
  have href : ['r', '.'].isPrefixOf (r.text ++ t) = true ∨
      ['z', '.'].isPrefixOf (r.text ++ t) = true := by
    cases r with
    | lvalue => exact Or.inl rfl
    | rvalue => exact Or.inr rfl
  rw [swigTypePopFunction, if_pos href, hpop]
  exact hqualified

/-- The type without the qualifier of the function, and what is behind the function. -/
theorem functionReturnType_of {ty : List Char}
    (hty : (if swigTypeIsqualifier (swigTypePush f.type f.decl) then
        (swigTypePop (swigTypePush f.type f.decl)).map Prod.snd
      else some (swigTypePush f.type f.decl)) = some ty)
    (hpop : swigTypePopFunction ty = some (f.result ++ f.type)) (resolve : Bool) :
    functionReturnType T f.decl f.type resolve =
      some (if resolve then f.returned T else f.result ++ f.type) := by
  rw [functionReturnType]
  dsimp only
  split at hty
  · next hq =>
      rw [if_pos hq, hty, Option.bind_eq_bind, Option.bind_some, hpop]
      rfl
  · next hq =>
      rw [if_neg hq, hty, Option.bind_eq_bind, Option.bind_some, hpop]
      rfl

theorem functionReturnType_eq (resolve : Bool) :
    functionReturnType T f.decl f.type resolve =
      some (if resolve then f.returned T else f.result ++ f.type) := by
  have hu := parms_balanced f
  have hq := qualifier_balanced f
  have htext := push_decl (f := f)
  rw [FunctionDecl.refText] at htext
  cases hr : f.refQualifier with
  | some r =>
      rw [hr] at htext
      have hqualifier : swigTypeIsqualifier (swigTypePush f.type f.decl) = false := by
        rw [htext]
        cases r <;> rfl
      refine functionReturnType_of (if_neg (by simp [hqualifier])) ?_ resolve
      rw [htext]
      exact popFunction_reference r hu f.result_head hq
  | none =>
      rw [hr] at htext
      by_cases hnil : f.qualifier = []
      · rw [qualifierText, if_pos hnil] at htext
        have hqualifier : swigTypeIsqualifier (swigTypePush f.type f.decl) = false := by
          rw [htext]
          rfl
        refine functionReturnType_of (if_neg (by simp [hqualifier])) ?_ resolve
        rw [htext]
        exact popFunction_plain hu f.result_head
      · have hsplit : swigTypePush f.type f.decl = 'q' :: '(' :: (f.qualifier ++
            (')' :: '.' :: 'f' :: '(' :: (functionParms f.parms ++
              (')' :: '.' :: (f.result ++ f.type))))) := by
          rw [htext, qualifierText, if_neg hnil]
          simp
        have hqualifier : swigTypeIsqualifier (swigTypePush f.type f.decl) = true := by
          rw [hsplit]
          rfl
        have hpop := pop_parenthesized (c := 'q') (by decide) hq
          (r := 'f' :: '(' :: (functionParms f.parms ++ (')' :: '.' :: (f.result ++ f.type))))
          (by simp)
        refine functionReturnType_of ?_ (popFunction_plain hu f.result_head) resolve
        rw [if_pos hqualifier, hsplit, hpop]
        rfl

/-! ## Declarators -/

/-- A declarator without its reference qualifier. -/
def FunctionDecl.tail (f : FunctionDecl) : List Char :=
  qualifierText f.qualifier ++ swigTypeAddFunction f.result f.parms

theorem tail_head : f.tail.head? = some (if f.qualifier = [] then 'f' else 'q') := by
  rw [FunctionDecl.tail, qualifierText]
  split <;> rfl

theorem parms_read : swigTypeParmlist (swigTypeAddFunction f.result f.parms) =
    some (some (f.parms.map TypeParm.type)) :=
  (swigTypeParmlist_added f.result).1 f.parms_types

theorem tail_injective (h : f.tail = g.tail) :
    f.qualifier = g.qualifier ∧ f.parms.map TypeParm.type = g.parms.map TypeParm.type := by
  have hhead : (if f.qualifier = [] then 'f' else 'q') = if g.qualifier = [] then 'f' else 'q' := by
    rw [← Option.some_inj, ← tail_head, ← tail_head, h]
  have hparms : swigTypeAddFunction f.result f.parms = swigTypeAddFunction g.result g.parms →
      f.parms.map TypeParm.type = g.parms.map TypeParm.type := by
    intro hadd
    have hread := parms_read (f := f)
    rw [hadd, parms_read] at hread
    exact (Option.some.inj (Option.some.inj hread)).symm
  rw [FunctionDecl.tail, FunctionDecl.tail, qualifierText, qualifierText] at h
  by_cases hf : f.qualifier = []
  · by_cases hg : g.qualifier = []
    · rw [if_pos hf, if_pos hg] at h
      exact ⟨hf.trans hg.symm, hparms h⟩
    · rw [if_pos hf, if_neg hg] at hhead
      exact absurd hhead (by decide)
  · by_cases hg : g.qualifier = []
    · rw [if_neg hf, if_pos hg] at hhead
      exact absurd hhead (by decide)
    · rw [if_neg hf, if_neg hg] at h
      have hcut : ∀ k : FunctionDecl, ∀ x : List Char,
          (k.qualifier ++ ')' :: x).takeWhile (· ≠ ')') = k.qualifier := by
        intro k x
        rw [List.takeWhile_append_of_pos fun c hc => by simpa using (k.qualifier_plain c hc).2.2]
        simp
      have hrest : f.qualifier ++ ')' :: ('.' :: swigTypeAddFunction f.result f.parms) =
          g.qualifier ++ ')' :: ('.' :: swigTypeAddFunction g.result g.parms) := by
        simpa using h
      have hqualifier : f.qualifier = g.qualifier := by
        rw [← hcut f, hrest, hcut g]
      rw [hqualifier] at hrest
      have hadd := List.append_cancel_left hrest
      exact ⟨hqualifier, hparms (List.cons.inj (List.cons.inj hadd).2).2⟩

theorem decl_injective (h : f.decl = g.decl) :
    SameQualifiers f g ∧ f.parms.map TypeParm.type = g.parms.map TypeParm.type := by
  have hhead : ∀ k : FunctionDecl, k.tail.head? ≠ some 'r' ∧ k.tail.head? ≠ some 'z' := by
    intro k
    rw [tail_head]
    split <;> decide
  have htail : ∀ (k : FunctionDecl) (r : RefQualifier) (x : List Char), k.tail ≠ r.text ++ x := by
    intro k r x hx
    cases r with
    | lvalue => exact (hhead k).1 (by rw [hx]; rfl)
    | rvalue => exact (hhead k).2 (by rw [hx]; rfl)
  rw [FunctionDecl.decl, FunctionDecl.decl, FunctionDecl.refText, FunctionDecl.refText] at h
  change _ ++ f.tail = _ ++ g.tail at h
  cases hf : f.refQualifier with
  | none =>
      cases hg : g.refQualifier with
      | none =>
          rw [hf, hg] at h
          obtain ⟨hqualifier, hparms⟩ := tail_injective h
          exact ⟨⟨hqualifier, hf.trans hg.symm⟩, hparms⟩
      | some r =>
          rw [hf, hg] at h
          exact absurd h (htail f r g.tail)
  | some r =>
      cases hg : g.refQualifier with
      | none =>
          rw [hf, hg] at h
          exact absurd h.symm (htail g r f.tail)
      | some r' =>
          rw [hf, hg] at h
          have hr : r = r' := by
            cases r <;> cases r' <;> first | rfl | exact absurd (List.cons.inj h).1 (by decide)
          subst hr
          obtain ⟨hqualifier, hparms⟩ := tail_injective (List.append_cancel_left h)
          exact ⟨⟨hqualifier, hf.trans hg.symm⟩, hparms⟩

theorem isqualifier_decl : swigTypeIsqualifier f.decl = true ↔ f.Qualified := by
  have hdecl : f.decl = f.refText ++ f.tail := rfl
  rw [hdecl, FunctionDecl.refText, FunctionDecl.Qualified, FunctionDecl.tail, qualifierText]
  cases f.refQualifier with
  | none =>
      by_cases hnil : f.qualifier = []
      · rw [if_pos hnil]
        exact iff_of_false Bool.false_ne_true fun h => h.2 hnil
      · rw [if_neg hnil]
        exact iff_of_true rfl ⟨rfl, hnil⟩
  | some r =>
      refine iff_of_false ?_ fun h => nomatch h.1
      cases r <;> exact Bool.false_ne_true

theorem afterDot_qualifier {q : List Char} (hq : ∀ c ∈ q, c ≠ '.') :
    afterDot (q ++ ')' :: '.' :: t) = some t := by
  induction q with
  | nil => rfl
  | cons c q ih =>
      rw [List.cons_append, afterDot, if_neg (hq c List.mem_cons_self)]
      exact ih fun d hd => hq d (List.mem_cons_of_mem _ hd)

theorem isfunction_tail : (if ['q', '('].isPrefixOf f.tail then
    ((afterDot f.tail).map (['f', '('].isPrefixOf ·)).getD false
    else ['f', '('].isPrefixOf f.tail) = true := by
  rw [FunctionDecl.tail, qualifierText]
  by_cases hnil : f.qualifier = []
  · rw [if_pos hnil]
    rfl
  · have hdot : afterDot (['q', '('] ++ f.qualifier ++ [')', '.'] ++
        swigTypeAddFunction f.result f.parms) = some (swigTypeAddFunction f.result f.parms) := by
      have hq := afterDot_qualifier (t := swigTypeAddFunction f.result f.parms)
        fun c hc => (f.qualifier_plain c hc).1
      simpa [afterDot] using hq
    rw [if_neg hnil, hdot]
    rfl

theorem isfunction_decl : swigTypeIsfunction f.decl = true := by
  have hdecl : f.decl = f.refText ++ f.tail := rfl
  have htail := isfunction_tail (f := f)
  rw [hdecl, FunctionDecl.refText]
  cases f.refQualifier with
  | some r => cases r <;> exact htail
  | none =>
      have href : (['r', '.'].isPrefixOf f.tail || ['z', '.'].isPrefixOf f.tail) = false := by
        rw [FunctionDecl.tail, qualifierText]
        split <;> rfl
      rw [swigTypeIsfunction]
      simp only [Option.map_none, Option.getD_none, List.nil_append, href, Bool.false_eq_true,
        if_false]
      exact htail

/-! ## The comparison -/

theorem resolved_parms : T.resolveAll (swigTypeAddFunction [] f.parms) =
    T.resolveAll (swigTypeAddFunction [] g.parms) ↔ f.parmTypes T = g.parmTypes T := by
  have hread : ∀ k : FunctionDecl,
      swigTypeParmlist (T.resolveAll (swigTypeAddFunction [] k.parms)) =
        some (some (k.parmTypes T)) := by
    intro k
    rw [T.resolveAll_function k.parms k.parms_types, (swigTypeParmlist_added []).1]
    · rw [List.map_map]
      rfl
    · intro p hp
      obtain ⟨p', hp', rfl⟩ := List.mem_map.1 hp
      exact T.resolveAll_parameter _ (k.parms_types p' hp')
  constructor
  · intro h
    have hf := hread f
    rw [h, hread g] at hf
    exact (Option.some.inj (Option.some.inj hf)).symm
  · intro h
    have htext : ∀ k : FunctionDecl, T.resolveAll (swigTypeAddFunction [] k.parms) =
        ['f', '('] ++ [','].intercalate (k.parmTypes T) ++ [')', '.'] := by
      intro k
      rw [T.resolveAll_function k.parms k.parms_types, swigTypeAddFunction, functionParms_eq,
        List.map_map]
      rfl
    rw [htext, htext, h]

theorem issubtype_returned : swigTypeIssubtype T (f.returned T) (g.returned T) =
    T.subclass (swigTypeBase (g.returned T)) (swigTypeBase (f.returned T)) := by
  rw [swigTypeIssubtype, FunctionDecl.returned, FunctionDecl.returned, T.resolveAll_again,
    T.resolveAll_again]

theorem parmTypes_of_types (h : f.parms.map TypeParm.type = g.parms.map TypeParm.type) :
    f.parmTypes T = g.parmTypes T := by
  have hmap : ∀ k : FunctionDecl, k.parmTypes T = (k.parms.map TypeParm.type).map T.resolveAll := by
    intro k
    rw [List.map_map]
    rfl
  rw [hmap, hmap, h]

theorem compareReturn_eq (n base : FunctionDecl) : ∃ r, compareReturn T n base = some r ∧
    (r.1 = true ↔ AlikeReturn T n base) := by
  rw [compareReturn, AlikeReturn]
  by_cases htype : base.type = n.type
  · rw [if_pos htype]
    exact ⟨_, rfl, iff_of_true rfl (Or.inl htype)⟩
  · rw [if_neg htype, functionReturnType_eq, functionReturnType_eq]
    simp only [if_true, Option.bind_eq_bind, Option.bind_some]
    by_cases hreturn : n.returned T = base.returned T
    · rw [if_pos hreturn]
      exact ⟨_, rfl, iff_of_true rfl (Or.inr (Or.inl hreturn))⟩
    · rw [if_neg hreturn, issubtype_returned]
      refine ⟨_, rfl, ?_⟩
      rw [or_iff_right htype, or_iff_right hreturn]

theorem parmTypes_length : (f.parmTypes T).length = f.parms.length := List.length_map _

theorem compareParms_iff (n base : FunctionDecl) : compareParms T n base = true ↔
    n.parmTypes T = base.parmTypes T ∧ (n.Qualified ↔ base.Qualified) := by
  have hparms := resolved_parms (T := T) (f := base) (g := n)
  have hqualifier : swigTypeIsqualifier (T.resolveAll n.decl) = swigTypeIsqualifier base.decl ↔
      (n.Qualified ↔ base.Qualified) := by
    rw [(T.resolveAll_decl n).2, Bool.eq_iff_iff, isqualifier_decl, isqualifier_decl]
  rw [compareParms]
  by_cases hlen : n.parms.length = base.parms.length
  · rw [if_pos hlen]
    dsimp only
    by_cases hfn : T.resolveAll (swigTypeAddFunction [] base.parms) =
        T.resolveAll (swigTypeAddFunction [] n.parms)
    · rw [if_pos hfn, decide_eq_true_eq, hqualifier, and_iff_right (hparms.1 hfn).symm]
    · rw [if_neg hfn]
      exact iff_of_false Bool.false_ne_true fun h => hfn (hparms.2 h.1.symm)
  · rw [if_neg hlen]
    refine iff_of_false Bool.false_ne_true fun h => hlen ?_
    rw [← parmTypes_length (T := T), h.1, parmTypes_length]

/-- What the comparison finds. -/
theorem compareFunctions_eq (n base : FunctionDecl) : ∃ c, compareFunctions T n base = some c ∧
    ((c.declMatch && c.returntypeMatch) = true ↔ n.parmTypes T = base.parmTypes T ∧
      (n.Qualified ↔ base.Qualified) ∧ AlikeReturn T n base) := by
  obtain ⟨r, hr, hreturn⟩ := compareReturn_eq (T := T) n base
  have hdecl : base.decl = n.decl →
      n.parmTypes T = base.parmTypes T ∧ (n.Qualified ↔ base.Qualified) := by
    intro h
    obtain ⟨hqualifiers, hparms⟩ := decl_injective h
    refine ⟨(parmTypes_of_types hparms).symm, ?_⟩
    rw [FunctionDecl.Qualified, FunctionDecl.Qualified, hqualifiers.1, hqualifiers.2]
  rw [compareFunctions]
  dsimp only
  by_cases hexact : base.type = n.type ∧ decide (base.decl = n.decl) = true
  · rw [if_pos hexact]
    obtain ⟨hparms, hqualified⟩ := hdecl (of_decide_eq_true hexact.2)
    exact ⟨_, rfl, iff_of_true rfl ⟨hparms, hqualified, Or.inl hexact.1⟩⟩
  · rw [if_neg hexact, hr]
    refine ⟨_, rfl, ?_⟩
    by_cases hsame : base.decl = n.decl
    · obtain ⟨hparms, hqualified⟩ := hdecl hsame
      rw [and_iff_right hparms, and_iff_right hqualified, ← hreturn]
      simp [hsame]
    · simp only [hsame, decide_false, Bool.not_false, Bool.and_true]
      rw [Bool.and_eq_true, ← and_assoc, ← compareParms_iff, ← hreturn]
      cases r.1 <;> simp

theorem SameFunction.found (h : SameFunction T f g) : f.parmTypes T = g.parmTypes T ∧
    (f.Qualified ↔ g.Qualified) ∧ AlikeReturn T f g := by
  obtain ⟨hparms, hqualifiers, hreturn⟩ := h
  refine ⟨hparms, ?_, ?_⟩
  · rw [FunctionDecl.Qualified, FunctionDecl.Qualified, hqualifiers.1, hqualifiers.2]
  · rcases hreturn with hreturn | hreturn
    · exact Or.inr (Or.inl hreturn)
    · exact Or.inr (Or.inr hreturn.1)

/-- The comparison is right for functions that are not confused, and for these only. -/
theorem found_iff : ((f.parmTypes T = g.parmTypes T ∧ (f.Qualified ↔ g.Qualified) ∧
    AlikeReturn T f g) ↔ SameFunction T f g) ↔ ¬ Confused T f g := by
  constructor
  · rintro h ⟨hparms, hqualified, halike, hnot⟩
    exact hnot (h.1 ⟨hparms, hqualified, halike⟩).2
  · intro h
    refine ⟨fun hfound => ⟨hfound.1, ?_⟩, SameFunction.found⟩
    by_contra hnot
    exact h ⟨hfound.1, hfound.2.1, hfound.2.2, hnot⟩

/-! ## Marks -/

section Marks

variable {C : Type} {H : Classes C} {n : Method C} {b : C} {base : MemberNode} {v : Bool}
  {bases : List C} {s s' s'' : Marks C} {mark : Mark}

/-- A mark that a method of a base may be given for, if it is the same function. -/
def MarkRight (n : Method C) (base : MemberNode) : Mark → Prop
  | .override => base.isVirtual = true ∧ n.node.access = base.access
  | .hides => base.isVirtual = false ∨ n.node.access ≠ base.access

/-- Both methods are protected and the one of the base is virtual, but one of the classes only
has a director for it. -/
def OneWraps (H : Classes C) (n : Method C) (v : Bool) (b : C) (base : MemberNode) : Prop :=
  base.isVirtual = true ∧ n.node.access = .protectedAccess ∧ base.access = .protectedAccess ∧
    wraps n.node v ≠ base.director ∧ H.isInterface b = false ∧ n.nonPublicBase b = false

theorem bothHave_iff {access : Access} {m m' : MemberNode} :
    bothHave access m m' = true ↔ m.access = access ∧ m'.access = access := by
  rw [bothHave, Bool.and_eq_true, decide_eq_true_eq, decide_eq_true_eq]

/-- The mark of a method of a base that is virtual. -/
theorem markOf_virtual (hvirtual : base.isVirtual = true) (hinterface : H.isInterface b = false)
    (tw : Bool) : markOf H n tw b base =
      if bothHave .publicAccess n.node base ||
          (bothHave .protectedAccess n.node base && tw && base.director) then
        if n.nonPublicBase b then none else some .override
      else if !bothHave .privateAccess n.node base && (tw || base.director) &&
          !n.nonPublicBase b then some .hides
      else none := by
  rw [markOf, wraps, hvirtual]
  simp only [Bool.true_and, hinterface, if_true, Bool.false_eq_true, if_false]
  cases bothHave .privateAccess n.node base <;> simp

theorem not_both_of_ne {access access' : Access} (hn : n.node.access = access)
    (hne : access ≠ access') : bothHave access' n.node base = false := by
  rw [bothHave, hn, decide_eq_false hne, Bool.false_and]

/-- All marks are right but that for a method which only one class wraps. -/
theorem markOf_right_iff : (∀ mark, markOf H n (wraps n.node v) b base = some mark →
    MarkRight n base mark) ↔ ¬ OneWraps H n v b base := by
  cases hvirtual : base.isVirtual with
  | false =>
      refine iff_of_true (fun mark hmark => ?_) fun h => ?_
      · rw [markOf, hvirtual] at hmark
        simp only [Bool.false_eq_true, if_false] at hmark
        split at hmark
        · split at hmark
          · cases hmark
          · cases hmark
            exact Or.inl hvirtual
        · cases hmark
      · rw [OneWraps, hvirtual] at h
        exact Bool.false_ne_true h.1
  | true =>
      cases hinterface : H.isInterface b with
      | true =>
          refine iff_of_true (fun mark hmark => ?_) fun h => ?_
          · rw [markOf, hvirtual, hinterface] at hmark
            cases hmark
          · rw [OneWraps, hinterface] at h
            exact Bool.false_ne_true h.2.2.2.2.1.symm
      | false =>
          rw [markOf_virtual hvirtual hinterface]
          generalize htw : wraps n.node v = tw
          have hone : OneWraps H n v b base ↔ n.node.access = .protectedAccess ∧
              base.access = .protectedAccess ∧ tw ≠ base.director ∧ n.nonPublicBase b = false := by
            rw [OneWraps, htw]
            simp only [hvirtual, hinterface, true_and]
          rw [hone]
          by_cases hsame : n.node.access = base.access
          · cases haccess : base.access with
            | publicAccess =>
                rw [haccess] at hsame
                rw [bothHave_iff.2 ⟨hsame, haccess⟩]
                refine iff_of_true (fun mark hmark => ?_) fun h => nomatch hsame.symm.trans h.1
                simp only [Bool.true_or, if_true] at hmark
                split at hmark
                · cases hmark
                · cases hmark
                  exact ⟨hvirtual, hsame.trans haccess.symm⟩
            | privateAccess =>
                rw [haccess] at hsame
                rw [bothHave_iff.2 ⟨hsame, haccess⟩, not_both_of_ne hsame (by decide),
                  not_both_of_ne hsame (by decide)]
                exact iff_of_true nofun fun h => nomatch hsame.symm.trans h.1
            | protectedAccess =>
                rw [haccess] at hsame
                rw [not_both_of_ne hsame (by decide), bothHave_iff.2 ⟨hsame, haccess⟩,
                  not_both_of_ne hsame (by decide)]
                have hright : MarkRight n base .override :=
                  ⟨hvirtual, hsame.trans haccess.symm⟩
                have hwrong : ¬ MarkRight n base .hides := by
                  rintro (h | h)
                  · rw [hvirtual] at h
                    exact Bool.false_ne_true h.symm
                  · exact h (hsame.trans haccess.symm)
                cases tw <;> cases base.director <;> cases n.nonPublicBase b <;>
                  simp [hsame, hright, hwrong]
          · have hpublic : bothHave .publicAccess n.node base = false := by
              rw [← Bool.not_eq_true, bothHave_iff]
              exact fun h => hsame (h.1.trans h.2.symm)
            have hprotected : bothHave .protectedAccess n.node base = false := by
              rw [← Bool.not_eq_true, bothHave_iff]
              exact fun h => hsame (h.1.trans h.2.symm)
            rw [hpublic, hprotected]
            refine iff_of_true (fun mark hmark => ?_) fun h => hsame (h.1.trans h.2.1.symm)
            simp only [Bool.false_and, Bool.or_false, Bool.false_eq_true, if_false] at hmark
            split at hmark
            · cases hmark
              exact Or.inr hsame
            · cases hmark

/-- Both methods are public, or protected with a director for both. -/
def SameAccess (n : Method C) (v : Bool) (base : MemberNode) : Prop :=
  (n.node.access = .publicAccess ∧ base.access = .publicAccess) ∨
    (n.node.access = .protectedAccess ∧ base.access = .protectedAccess ∧
      wraps n.node v = true ∧ wraps base base.isVirtual = true)

/-- What a method is marked as for the same function of a base. -/
def MarkedAs (H : Classes C) (n : Method C) (v : Bool) (b : C) (base : MemberNode) : Mark → Prop
  | .override => base.isVirtual = true ∧ H.isInterface b = false ∧ n.nonPublicBase b = false ∧
      SameAccess n v base
  | .hides => n.nonPublicBase b = false ∧ ((base.isVirtual = false ∧ SameAccess n v base) ∨
      (base.isVirtual = true ∧ H.isInterface b = false ∧ n.node.access ≠ base.access ∧
        (wraps n.node v = true ∨ base.director = true)))

theorem sameAccess_iff : (bothHave .publicAccess n.node base ||
    (bothHave .protectedAccess n.node base && wraps n.node v && wraps base base.isVirtual)) = true ↔
      SameAccess n v base := by
  rw [Bool.or_eq_true, Bool.and_eq_true, Bool.and_eq_true, bothHave_iff, bothHave_iff, and_assoc,
    and_assoc]
  rfl

theorem markedAs_right (h : MarkedAs H n v b base mark) : MarkRight n base mark := by
  cases mark with
  | override =>
      obtain ⟨hvirtual, -, -, haccess⟩ := h
      refine ⟨hvirtual, ?_⟩
      rcases haccess with haccess | haccess
      · rw [haccess.1, haccess.2]
      · rw [haccess.1, haccess.2.1]
  | hides =>
      rcases h.2 with h | h
      · exact Or.inl h.1
      · exact Or.inr h.2.2.1

/-- The access of two methods which are not both public, and not both wrapped. -/
theorem differ_iff (hone : ¬ OneWraps H n v b base) (hvirtual : base.isVirtual = true)
    (hinterface : H.isInterface b = false) (hbase : n.nonPublicBase b = false)
    (hsame : ¬ SameAccess n v base) :
    (!bothHave .privateAccess n.node base && (wraps n.node v || base.director)) = true ↔
      n.node.access ≠ base.access ∧ (wraps n.node v = true ∨ base.director = true) := by
  have hwraps : wraps base base.isVirtual = base.director := by
    rw [wraps, hvirtual, Bool.true_and]
  rw [SameAccess, hwraps] at hsame
  have hequal : n.node.access = .protectedAccess → base.access = .protectedAccess →
      wraps n.node v = base.director := by
    intro hn hb
    by_contra hne
    exact hone ⟨hvirtual, hn, hb, hne, hinterface, hbase⟩
  rw [Bool.and_eq_true, Bool.not_eq_true', Bool.or_eq_true, ← Bool.not_eq_true, bothHave_iff]
  refine and_congr_left fun hdirector => not_congr ⟨fun h => h.1.trans h.2.symm, fun h => ?_⟩
  cases haccess : base.access with
  | publicAccess => exact absurd (Or.inl ⟨h.trans haccess, haccess⟩) hsame
  | privateAccess => exact ⟨h.trans haccess, rfl⟩
  | protectedAccess =>
      have hboth := hequal (h.trans haccess) haccess
      rw [hboth, or_self] at hdirector
      exact absurd (Or.inr ⟨h.trans haccess, haccess, hboth.trans hdirector, hdirector⟩) hsame

theorem markOf_iff (hone : ¬ OneWraps H n v b base) :
    markOf H n (wraps n.node v) b base = some mark ↔ MarkedAs H n v b base mark := by
  have hsame : _ ↔ SameAccess n v base := sameAccess_iff
  have hdiffer := differ_iff hone
  have hequal : SameAccess n v base → n.node.access = base.access := by
    rintro (h | h)
    · rw [h.1, h.2]
    · rw [h.1, h.2.1]
  rw [markOf]
  cases hbase : n.nonPublicBase b with
  | true => cases mark <;> simp [MarkedAs, hbase]
  | false =>
      cases hvirtual : base.isVirtual with
      | false =>
          rw [hvirtual] at hsame
          by_cases haccess : SameAccess n v base
          · rw [if_neg Bool.false_ne_true, if_pos (hsame.2 haccess)]
            cases mark <;> simp [MarkedAs, hbase, hvirtual, haccess]
          · rw [if_neg Bool.false_ne_true, if_neg fun h => haccess (hsame.1 h)]
            cases mark <;> simp [MarkedAs, hvirtual, haccess]
      | true =>
          cases hinterface : H.isInterface b with
          | true => cases mark <;> simp [MarkedAs, hvirtual, hinterface]
          | false =>
              rw [hvirtual] at hsame
              by_cases haccess : SameAccess n v base
              · rw [if_pos rfl, if_neg Bool.false_ne_true, if_pos (hsame.2 haccess)]
                cases mark <;> simp [MarkedAs, hbase, hvirtual, hinterface, haccess, hequal haccess]
              · have hwraps : wraps base true = base.director := Bool.true_and _
                have hhides := hdiffer hvirtual hinterface hbase haccess
                rw [if_pos rfl, if_neg Bool.false_ne_true, if_neg fun h => haccess (hsame.1 h),
                  hwraps, Bool.not_false, Bool.and_true]
                rw [Bool.and_eq_true] at hhides
                cases mark with
                | override =>
                    refine iff_of_false (fun h => ?_) fun h => haccess h.2.2.2
                    split at h
                    · split at h <;> cases h
                    · cases h
                | hides =>
                    have hmarked : MarkedAs H n v b base .hides ↔ n.node.access ≠ base.access ∧
                        (wraps n.node v = true ∨ base.director = true) := by
                      simp [MarkedAs, hbase, hvirtual, hinterface]
                    rw [hmarked, ← hhides]
                    split
                    · next hprivate =>
                        split
                        · next hdirector => exact iff_of_true rfl ⟨hprivate, hdirector⟩
                        · next hdirector => exact iff_of_false nofun fun h => hdirector h.2
                    · next hprivate => exact iff_of_false nofun fun h => hprivate h.1

/-- The comparison of the two methods is right, and so is the mark that comes of it. -/
def PairRight (T : Typedefs) (H : Classes C) (n : Method C) (b : C) (base : MemberNode)
    (g : FunctionDecl) (v : Bool) : Prop :=
  ∃ c, compareFunctions T n.function g = some c ∧
    ((c.declMatch && c.returntypeMatch) = true ↔ base.IsMethod ∧ SameFunction T n.function g) ∧
    ((c.declMatch && c.returntypeMatch) = true →
      ∀ mark, markOf H n (wraps n.node v) b base = some mark → MarkRight n base mark)

theorem pairRight_iff : PairRight T H n b base g v ↔ ¬ Confused T n.function g ∧
    ¬ (SameFunction T n.function g ∧ OneWraps H n v b base) ∧
    ¬ (SameFunction T n.function g ∧ ¬ base.IsMethod) := by
  obtain ⟨c, hc, hfound⟩ := compareFunctions_eq (T := T) n.function g
  have hright := found_iff (T := T) (f := n.function) (g := g)
  have hmark : _ ↔ ¬ OneWraps H n v b base := markOf_right_iff
  rw [← hfound] at hright
  have hsame : SameFunction T n.function g → (c.declMatch && c.returntypeMatch) = true :=
    fun h => hfound.2 h.found
  constructor
  · rintro ⟨c', hc', hmatch, hmarks⟩
    obtain rfl : c = c' := Option.some.inj (hc.symm.trans hc')
    refine ⟨hright.1 ⟨fun h => (hmatch.1 h).2, hsame⟩, fun h => ?_, fun h => ?_⟩
    · exact hmark.1 (hmarks (hsame h.1)) h.2
    · exact h.2 (hmatch.1 (hsame h.1)).1
  · rintro ⟨hnot, hwraps, hmethod⟩
    have hmatch := hright.2 hnot
    refine ⟨c, hc, ⟨fun h => ⟨?_, hmatch.1 h⟩, fun h => hsame h.2⟩, fun h => ?_⟩
    · by_contra hno
      exact hmethod ⟨hmatch.1 h, hno⟩
    · exact hmark.2 fun hone => hwraps ⟨hmatch.1 h, hone⟩

end Marks

/-! ## The search -/

section Search

variable {C : Type} {H : Classes C} {n : Method C} {bases l : List C} {b : C} {base : MemberNode}
  {s s' s'' : Marks C} {fuel : Nat} {found : Bool} {x : C × MemberNode}

/-- A class of the list, or an ancestor of one. -/
def Above (H : Classes C) (bases : List C) (b : C) : Prop :=
  ∃ b₀ ∈ bases, Relation.ReflTransGen (fun c b => b ∈ H.allbases c) b₀ b

/-- The nodes that are compared are those of the classes above. -/
theorem mem_compared (hfuel : ∀ b ∈ bases, H.rank b + 1 < fuel) (hpos : 0 < fuel) :
    (b, base) ∈ compared H fuel bases ↔
      Above H bases b ∧ base ∈ (H.children b).flatMap ClassChild.members := by
  induction fuel generalizing bases with
  | zero => omega
  | succ fuel ih =>
      have habove : ∀ b₀ ∈ bases, (b, base) ∈ compared H fuel (H.allbases b₀) ↔
          Above H (H.allbases b₀) b ∧ base ∈ (H.children b).flatMap ClassChild.members := by
        intro b₀ hb₀
        have hrank := hfuel b₀ hb₀
        refine ih (fun b' hb' => ?_) (by omega)
        have hlt := H.acyclic b₀ b' hb'
        omega
      rw [compared, List.mem_append, membersOf, List.mem_flatMap, List.mem_flatMap]
      constructor
      · rintro (⟨b₀, hb₀, hmem⟩ | ⟨b₀, hb₀, hmem⟩)
        · obtain ⟨m, hm, heq⟩ := List.mem_map.1 hmem
          cases heq
          exact ⟨⟨b, hb₀, .refl⟩, hm⟩
        · obtain ⟨⟨b₁, hb₁, hpath⟩, hm⟩ := (habove b₀ hb₀).1 hmem
          exact ⟨⟨b₀, hb₀, .head hb₁ hpath⟩, hm⟩
      · rintro ⟨⟨b₀, hb₀, hpath⟩, hm⟩
        rcases Relation.ReflTransGen.cases_head hpath with rfl | ⟨b₁, hb₁, hpath⟩
        · exact Or.inl ⟨b₀, hb₀, List.mem_map.2 ⟨base, hm, rfl⟩⟩
        · exact Or.inr ⟨b₀, hb₀, (habove b₀ hb₀).2 ⟨⟨b₁, hb₁, hpath⟩, hm⟩⟩

/-- The comparison of the search with one node. -/
def seekNode (T : Typedefs) (H : Classes C) (n : Method C) (x : C × MemberNode) (s : Marks C) :
    Option (Marks C × Bool) := seek T H n x.1 x.2 s

theorem seekMembers_eq {ms : List MemberNode} :
    seekMembers T H n b ms s = visit (seekNode T H n) (ms.map (b, ·)) s := by
  induction ms generalizing s with
  | nil => rfl
  | cons m ms ih =>
      rw [List.map_cons, visit_cons, seekMembers, seekNode]
      congr 1
      funext r
      obtain ⟨s₁, found⟩ := r
      cases found with
      | true => rfl
      | false => exact ih

theorem seekClasses_eq : seekClasses T H n l s = visit (seekNode T H n) (membersOf H l) s := by
  induction l generalizing s with
  | nil => rfl
  | cons b l ih =>
      rw [membersOf, List.flatMap_cons, visit_append, seekClasses, seekMembers_eq]
      congr 1
      funext r
      obtain ⟨s₁, found⟩ := r
      cases found with
      | true => rfl
      | false => exact ih

theorem searchAbove_eq {search : List C → Marks C → Option (Marks C × Bool)}
    {order : C → List (C × MemberNode)}
    (hsearch : ∀ b ∈ l, ∀ s, search (H.allbases b) s = visit (seekNode T H n) (order b) s) :
    searchAbove H search l s = visit (seekNode T H n) (l.flatMap order) s := by
  induction l generalizing s with
  | nil => rfl
  | cons b l ih =>
      rw [List.flatMap_cons, visit_append, searchAbove, hsearch b List.mem_cons_self]
      congr 1
      funext r
      obtain ⟨s₁, found⟩ := r
      cases found with
      | true => rfl
      | false => exact ih fun b' hb' => hsearch b' (List.mem_cons_of_mem _ hb')

/-- The search goes through the nodes of all classes above, in one order. -/
theorem search_eq_visit (hfuel : ∀ b ∈ bases, H.rank b + 1 < fuel) (hpos : 0 < fuel) :
    functionIsDefinedInBases T H n fuel bases s =
      visit (seekNode T H n) (compared H fuel bases) s := by
  induction fuel generalizing bases s with
  | zero => omega
  | succ fuel ih =>
      have habove : ∀ s, searchAbove H (functionIsDefinedInBases T H n fuel) bases s =
          visit (seekNode T H n)
            (bases.flatMap fun b => compared H fuel (H.allbases b)) s := by
        intro s
        refine searchAbove_eq fun b hb s => ?_
        have hrank := hfuel b hb
        refine ih (fun b' hb' => ?_) (by omega)
        have hlt := H.acyclic b b' hb'
        omega
      rw [compared, visit_append, functionIsDefinedInBases, seekClasses_eq]
      congr 1
      funext r
      obtain ⟨s₁, found⟩ := r
      cases found with
      | true => rfl
      | false => exact habove s₁

/-! ## What a comparison does -/

/-- The method of the base is a method of that name and the same function. Classes that are
ignored as a whole have no methods. -/
structure SameMethod (T : Typedefs) (H : Classes C) (n : Method C) (b : C) (base : MemberNode) :
    Prop where
  notIgnored : H.ignored b = false
  typed : base.typed = true
  name : base.name = n.node.name
  method : base.IsMethod
  same : ∃ g, base.decl = some (.function g) ∧ SameFunction T n.function g

/-- The search takes the node for a method of that name and the same function. -/
structure Taken (T : Typedefs) (H : Classes C) (n : Method C) (b : C) (base : MemberNode) :
    Prop where
  notIgnored : H.ignored b = false
  typed : base.typed = true
  name : base.name = n.node.name
  found : ∃ g c, base.decl = some (.function g) ∧ compareFunctions T n.function g = some c ∧
    (c.declMatch && c.returntypeMatch) = true

/-- A node that is the same method sets the marks for it, and ends the search where the access
is the same; any other node does nothing. -/
def Treats (n : Method C) (same : C → MemberNode → Prop)
    (marked : Bool → C → MemberNode → Mark → Prop) (x : C × MemberNode) (s s' : Marks C)
    (found : Bool) : Prop :=
  (same x.1 x.2 → s'.isVirtual = (s.isVirtual || x.2.isVirtual) ∧
    (marked s.isVirtual x.1 x.2 .override → s'.override = some x) ∧
    (¬ marked s.isVirtual x.1 x.2 .override → s'.override = s.override) ∧
    (marked s.isVirtual x.1 x.2 .hides → s'.hides = some x) ∧
    (¬ marked s.isVirtual x.1 x.2 .hides → s'.hides = s.hides) ∧
    (found = true ↔ SameAccess n s.isVirtual x.2)) ∧
  (¬ same x.1 x.2 → s' = s ∧ found = false)

/-- The marks of the source. -/
def SetMark (H : Classes C) (n : Method C) (v : Bool) (b : C) (base : MemberNode) (mark : Mark) :
    Prop := markOf H n (wraps n.node v) b base = some mark

/-- What a method that matches does. -/
theorem seekMatch_treats {g : FunctionDecl} (covariant : Bool) {same : C → MemberNode → Prop}
    (hsame : same b base) : ∃ s' found, seekMatch T H n b base g covariant s = some (s', found) ∧
      Treats n same (SetMark H n) (b, base) s s' found := by
  have hset : ∀ s' : Marks C, ∀ found : Bool, s'.isVirtual = (s.isVirtual || base.isVirtual) →
      s'.override = (if markOf H n (wraps n.node s.isVirtual) b base = some .override then
        some (b, base) else s.override) →
      s'.hides = (if markOf H n (wraps n.node s.isVirtual) b base = some .hides then
        some (b, base) else s.hides) →
      found = (bothHave .publicAccess n.node base || (bothHave .protectedAccess n.node base &&
        wraps n.node s.isVirtual && wraps base base.isVirtual)) →
      Treats n same (SetMark H n) (b, base) s s' found := by
    intro s' found hvirtual hoverride hhides hfound
    refine ⟨fun _ => ⟨hvirtual, fun h => ?_, fun h => ?_, fun h => ?_, fun h => ?_, ?_⟩,
      fun h => absurd hsame h⟩
    · exact hoverride.trans (if_pos h)
    · exact hoverride.trans (if_neg h)
    · exact hhides.trans (if_pos h)
    · exact hhides.trans (if_neg h)
    · rw [hfound]
      exact sameAccess_iff
  rw [seekMatch]
  dsimp only
  cases hvirtual : base.isVirtual with
  | false =>
      rw [hvirtual, Bool.or_false] at hset
      exact ⟨_, _, rfl, hset _ _ rfl rfl rfl rfl⟩
  | true =>
      rw [hvirtual, Bool.or_true] at hset
      rw [if_pos rfl]
      by_cases hcovariant : (base.covariant.isNone && covariant) = true
      · rw [if_pos hcovariant, functionReturnType_eq]
        exact ⟨_, _, rfl, hset _ _ rfl rfl rfl rfl⟩
      · rw [if_neg hcovariant, Option.bind_eq_bind, Option.bind_some]
        cases base.covariant with
        | none => exact ⟨_, _, rfl, hset _ _ rfl rfl rfl rfl⟩
        | some covariant => exact ⟨_, _, rfl, hset _ _ rfl rfl rfl rfl⟩

/-- The search compares each node with the method, and does nothing else. -/
theorem seek_treats : ∃ s' found, seekNode T H n (b, base) s = some (s', found) ∧
    Treats n (Taken T H n) (SetMark H n) (b, base) s s' found := by
  have hstay : ¬ Taken T H n b base → ∃ s' found, some (s, false) = some (s', found) ∧
      Treats n (Taken T H n) (SetMark H n) (b, base) s s' found :=
    fun h => ⟨s, false, rfl, fun htaken => absurd htaken h, fun _ => ⟨rfl, rfl⟩⟩
  rw [seekNode, seek]
  dsimp only
  split
  · next g hdecl =>
      obtain ⟨c, hc, -⟩ := compareFunctions_eq (T := T) n.function g
      split
      · next hcond =>
          rw [hc, Option.bind_eq_bind, Option.bind_some]
          split
          · next hmatch =>
              exact seekMatch_treats _
                ⟨by simpa using hcond.2.2.1, hcond.1, hcond.2.1, g, c, hdecl, hc, hmatch⟩
          · next hmatch =>
              refine hstay fun htaken => ?_
              obtain ⟨g', c', hdecl', hc', hmatch'⟩ := htaken.found
              rw [hdecl] at hdecl'
              cases hdecl'
              rw [hc] at hc'
              cases hc'
              exact hmatch hmatch'
      · next hcond =>
          refine hstay fun htaken => hcond ⟨htaken.typed, htaken.name, ?_,
            (T.resolveAll_decl _).1, isfunction_decl⟩
          rw [htaken.notIgnored]
          rfl
  · next hdecl =>
      refine hstay fun htaken => ?_
      obtain ⟨g, -, hg, -⟩ := htaken.found
      exact hdecl g hg

theorem Treats.congr {same same' : C → MemberNode → Prop}
    {marked marked' : Bool → C → MemberNode → Mark → Prop}
    (h : Treats n same marked x s s' found) (hsame : same x.1 x.2 ↔ same' x.1 x.2)
    (hmarked : same' x.1 x.2 → ∀ mark, marked s.isVirtual x.1 x.2 mark ↔
      marked' s.isVirtual x.1 x.2 mark) : Treats n same' marked' x s s' found := by
  rw [Treats, hsame] at h
  refine ⟨fun hx => ?_, h.2⟩
  have hset := h.1 hx
  rwa [hmarked hx, hmarked hx] at hset

theorem Treats.isVirtual {same : C → MemberNode → Prop}
    {marked : Bool → C → MemberNode → Mark → Prop} (h : Treats n same marked x s s' found)
    (hs : s.isVirtual = true) : s'.isVirtual = true := by
  by_cases hx : same x.1 x.2
  · rw [(h.1 hx).1, hs, Bool.true_or]
  · rw [(h.2 hx).1, hs]

/-- A function in a class above, with the name of the method. -/
structure Candidate (H : Classes C) (n : Method C) (bases : List C) (b : C) (base : MemberNode)
    (g : FunctionDecl) : Prop where
  above : Above H bases b
  member : base ∈ (H.children b).flatMap ClassChild.members
  decl : base.decl = some (.function g)
  typed : base.typed = true
  name : base.name = n.node.name
  notIgnored : H.ignored b = false

/-- The comparison with a function above is right whatever is known of the method so far. -/
def AllRight (T : Typedefs) (H : Classes C) (n : Method C) (bases : List C) (v : Bool) : Prop :=
  ∀ b base g, Candidate H n bases b base g → ∀ v', (v = true → v' = true) →
    PairRight T H n b base g v'

/-- Where the comparison is right, the search takes a node for what it is. -/
theorem taken_iff {v : Bool} (hright : ∀ g, base.decl = some (.function g) →
    base.typed = true → base.name = n.node.name → H.ignored b = false →
      PairRight T H n b base g v) : Taken T H n b base ↔ SameMethod T H n b base := by
  constructor
  · rintro ⟨hignored, htyped, hname, g, c, hdecl, hc, hmatch⟩
    obtain ⟨c', hc', hsame, -⟩ := hright g hdecl htyped hname hignored
    obtain rfl : c = c' := Option.some.inj (hc.symm.trans hc')
    exact ⟨hignored, htyped, hname, (hsame.1 hmatch).1, g, hdecl, (hsame.1 hmatch).2⟩
  · rintro ⟨hignored, htyped, hname, hmethod, g, hdecl, hfunction⟩
    obtain ⟨c, hc, hsame, -⟩ := hright g hdecl htyped hname hignored
    exact ⟨hignored, htyped, hname, g, c, hdecl, hc, hsame.2 ⟨hmethod, hfunction⟩⟩

/-- Where all comparisons are right, the search goes through the classes above, marks the
method for each node that is the same method and ends at the first with the same access. -/
theorem search_visits (hall : AllRight T H n bases s.isVirtual)
    (hfuel : ∀ b ∈ bases, H.rank b + 1 < fuel) (hpos : 0 < fuel) :
    ∃ s' found, functionIsDefinedInBases T H n fuel bases s = some (s', found) ∧
      Visits (Treats n (SameMethod T H n) (MarkedAs H n)) (compared H fuel bases) s s' found := by
  rw [search_eq_visit hfuel hpos]
  refine visits_of_steps (I := fun s' => s.isVirtual = true → s'.isVirtual = true) ?_ id
  rintro ⟨b, base⟩ hx s₁ hs₁
  obtain ⟨habove, hmember⟩ := (mem_compared hfuel hpos).1 hx
  have hright : ∀ g, base.decl = some (.function g) → base.typed = true →
      base.name = n.node.name → H.ignored b = false → PairRight T H n b base g s₁.isVirtual :=
    fun g hdecl htyped hname hignored =>
      hall b base g ⟨habove, hmember, hdecl, htyped, hname, hignored⟩ _ hs₁
  obtain ⟨s₂, found, hseek, htreats⟩ :
      ∃ s' found, seekNode T H n (b, base) s₁ = some (s', found) ∧
        Treats n (Taken T H n) (SetMark H n) (b, base) s₁ s' found := seek_treats
  refine ⟨s₂, found, hseek, htreats.congr (taken_iff hright) fun hsame mark => ?_,
    fun hs => htreats.isVirtual (hs₁ hs)⟩
  obtain ⟨g, hdecl, hfunction⟩ := hsame.same
  have hpair := pairRight_iff.1 (hright g hdecl hsame.typed hsame.name hsame.notIgnored)
  exact markOf_iff fun hone => hpair.2.1 ⟨hfunction, hone⟩

/-- Between two states only the same function of a class above became the one that is
overridden, or hidden, and with the access and the storage for that. -/
structure Marked (T : Typedefs) (H : Classes C) (n : Method C) (bases : List C)
    (s s' : Marks C) : Prop where
  override : s'.override = s.override ∨ ∃ b base, s'.override = some (b, base) ∧
    Above H bases b ∧ SameMethod T H n b base ∧ MarkRight n base .override
  hides : s'.hides = s.hides ∨ ∃ b base, s'.hides = some (b, base) ∧
    Above H bases b ∧ SameMethod T H n b base ∧ MarkRight n base .hides

namespace Marked

theorem none (s : Marks C) : Marked T H n bases s s := ⟨Or.inl rfl, Or.inl rfl⟩

theorem trans (h : Marked T H n bases s s') (h' : Marked T H n bases s' s'') :
    Marked T H n bases s s'' where
  override := by
    rcases h'.override with heq | hset
    · rw [heq]
      exact h.override
    · exact Or.inr hset
  hides := by
    rcases h'.hides with heq | hset
    · rw [heq]
      exact h.hides
    · exact Or.inr hset

end Marked

theorem Treats.marks (h : Treats n (SameMethod T H n) (MarkedAs H n) (b, base) s s' found)
    (habove : Above H bases b) : Marked T H n bases s s' := by
  by_cases hsame : SameMethod T H n b base
  · obtain ⟨-, hoverride, hnoOverride, hhides, hnoHides, -⟩ := h.1 hsame
    constructor
    · by_cases hmark : MarkedAs H n s.isVirtual b base .override
      · exact Or.inr ⟨b, base, hoverride hmark, habove, hsame, markedAs_right hmark⟩
      · exact Or.inl (hnoOverride hmark)
    · by_cases hmark : MarkedAs H n s.isVirtual b base .hides
      · exact Or.inr ⟨b, base, hhides hmark, habove, hsame, markedAs_right hmark⟩
      · exact Or.inl (hnoHides hmark)
  · obtain ⟨rfl, -⟩ := h.2 hsame
    exact Marked.none _

end Search

/-! ## Qualifiers that differ -/

theorem id_again (x : List Char) : id (id x) = id x := rfl

/-- No typedefs and no derived classes. -/
def noTypedefs : Typedefs where
  resolveAll := id
  subclass _ _ := false
  resolveAll_again := id_again
  resolveAll_parameter _ := id
  resolveAll_function parms _ := by
    have hmap : (parms.map fun p => { p with type := id p.type }) = parms := List.map_id parms
    rw [hmap]
    rfl
  resolveAll_decl _ := ⟨isfunction_decl, rfl⟩

/-- `void f()` with a qualifier. -/
def voidFunction (qualifier : List Char) (h : ∀ c ∈ qualifier, c ≠ '.' ∧ c ≠ '(' ∧ c ≠ ')') :
    FunctionDecl where
  refQualifier := none
  qualifier := qualifier
  parms := []
  result := []
  type := "void".toList
  qualifier_plain := h
  parms_types := nofun
  result_dot := Or.inl rfl
  result_head := by decide

def constFunction : FunctionDecl := voidFunction ['c', 'o', 'n', 's', 't'] (by simp)

def volatileFunction : FunctionDecl :=
  voidFunction ['v', 'o', 'l', 'a', 't', 'i', 'l', 'e'] (by simp)

def publicNode (f : FunctionDecl) : MemberNode where
  name := ['f']
  decl := some (.function f)
  typed := true
  access := .publicAccess
  storage := .none
  director := false
  covariant := none

/-- A class with the function, and no bases. -/
def oneClass (f : FunctionDecl) : Classes Unit where
  children _ := [.member (publicNode f)]
  allbases _ := []
  ignored _ := false
  isInterface _ := false
  rank _ := 0
  acyclic := nofun

/-- A class without members, and its base with the function. -/
def twoClasses (f : FunctionDecl) : Classes Bool where
  children above := if above then [.member (publicNode f)] else []
  allbases above := if above then [] else [true]
  ignored _ := false
  isInterface _ := false
  rank above := if above then 0 else 1
  acyclic := by decide

def constMethod (C : Type) : Method C where
  node := publicNode constFunction
  function := constFunction
  decl := rfl
  method := ⟨by decide, by decide⟩
  nonPublicBase _ := false
  eliminate := false
  overloaded := false

def unmarked (C : Type) : Marks C where
  isVirtual := false
  override := none
  hides := none
  covariant := none
  ignored := false

end Swig4Ada.Modules

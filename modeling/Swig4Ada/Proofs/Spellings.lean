import Swig4Ada.Proofs.TypeMaps

/-!
# The spellings of a type in the maps

`register` enters every type that it makes from a C type under a text made from the
swig type, and under one made from the C name where the two are not the same. The
texts from the C name are written out by hand, and three of them are not what the
swig type functions make of it: one ends in an ampersand, two lack a dot.
`register_Mirror` enters under the proxy name what the map of names has for the
mirrored type, and stops at the pointer to pointer, which gets no name.
-/

namespace Swig4Ada.Ada

open Swig4Ada.Lib
open Swig4Ada.Swig

variable {δ : Type}

/-- The types that are made from a C type, each in the ways it is spelled. -/
inductive Spelling where
  | array
  | pointer
  | pointerToConst
  | reference
  | referenceToConst
  | pointerArray
  | pointerPointer
  | pointerPointerToConst
  | pointerPointerArray
  | pointerPointerPointer
deriving DecidableEq, Repr

namespace Spelling

/-- The text of the swig type. -/
def swigText (t : List Char) : Spelling → List Char
  | array => ['a', '.'] ++ t
  | pointer => swigTypeAddPointer t
  | pointerToConst => swigTypeAddPointer (addConst t)
  | reference => swigTypeAddReference t
  | referenceToConst => swigTypeAddReference (addConst t)
  | pointerArray => ['a', '.'] ++ swigTypeAddPointer t
  | pointerPointer => swigTypeAddPointer (swigTypeAddPointer t)
  | pointerPointerToConst => swigTypeAddPointer (swigTypeAddPointer (addConst t))
  | pointerPointerArray => ['a', '.'] ++ swigTypeAddPointer (swigTypeAddPointer t)
  | pointerPointerPointer => swigTypeAddPointer (swigTypeAddPointer (swigTypeAddPointer t))

/-- What is put behind the C name in the name of the type. -/
def suffix : Spelling → List Char
  | array => ['[', ']']
  | pointer | pointerToConst | reference | referenceToConst => ['*']
  | pointerArray => ['*', '[', ']']
  | pointerPointer | pointerPointerToConst => ['*', '*']
  | pointerPointerArray => ['*', '*', '[', ']']
  | pointerPointerPointer => ['*', '*', '*']

/-- The key in the map of names. -/
def nameText (name : List Char) : Spelling → List Char
  | pointerToConst => "const ".toList ++ name ++ ['*']
  | reference => name ++ ['&']
  | referenceToConst => "const ".toList ++ name ++ ['&']
  | pointerPointerToConst => "const ".toList ++ name ++ ['*', '*']
  | s => name ++ s.suffix

/-- The type that `register` makes. -/
def made (r : Registration δ) : Spelling → CTypeView δ
  | array => r.arrayType
  | pointer | pointerToConst | reference | referenceToConst => r.pointerType
  | pointerArray => r.pointerArray
  | pointerPointer | pointerPointerToConst => r.pointerPointer
  | pointerPointerArray => r.pointerPointerArray
  | pointerPointerPointer => r.pointerPointerPointer

/-- The text that `register` makes from the C name. -/
def writtenText (name : List Char) : Spelling → List Char
  | array => ['a', '.'] ++ name
  | pointer => ['p', '.'] ++ name
  | pointerToConst => "p.q(const).".toList ++ name
  | reference => ['r', '.'] ++ name
  | referenceToConst => "r.q(const).".toList ++ name ++ ['&']
  | pointerArray => ['a', '.', 'p', '.'] ++ name
  | pointerPointer => ['p', '.', 'p', '.'] ++ name
  | pointerPointerToConst => "p.p.q(const).".toList ++ name
  | pointerPointerArray => ['a', '.', 'p', '.', 'p'] ++ name
  | pointerPointerPointer => ['p', '.', 'p', '.', 'p'] ++ name

/-- The texts that are not what the swig type functions make of the C name. -/
def slipped : Spelling → Bool
  | referenceToConst | pointerPointerArray | pointerPointerPointer => true
  | _ => false

/-- What `register_Mirror` enters under the proxy name in the map of swig types. -/
def mirroredSwig (createArrayType : Bool) : Spelling → Bool
  | pointerArray => createArrayType
  | pointerPointerToConst | pointerPointerArray | pointerPointerPointer => false
  | _ => true

/-- What it enters in the map of names. -/
def mirroredName : Spelling → Bool
  | array | pointer | pointerToConst | reference | referenceToConst => true
  | _ => false

/-- The spellings that are entered: an array type and the third level on request. -/
def requested (createArrayType addLevel3Indirection : Bool) : List Spelling :=
  (if createArrayType then [array] else []) ++
    [pointer, pointerToConst, reference, referenceToConst, pointerArray, pointerPointer,
      pointerPointerToConst] ++
    if addLevel3Indirection then [pointerPointerArray, pointerPointerPointer] else []

end Spelling

/-- A call of `register` that ends without an exception, for a C type whose name is not
the text of its swig type. The name has no qualifiers. -/
structure Registered (δ : Type) where
  before : TypeMaps δ
  after : TypeMaps δ
  arguments : Registration δ
  ran : register before arguments = .ok after
  apart : arguments.swigType ≠ arguments.cType.name
  plain : ['q', '('].isPrefixOf arguments.cType.name = false

/-- Each spelling of the C name is bound to what the spelling of the swig type is bound
to. -/
def Registered.SpelledAlike (run : Registered δ) : Prop :=
  ∀ s ∈ Spelling.requested run.arguments.createArrayType run.arguments.addLevel3Indirection,
    ∃ cType,
      run.after.swigTypeMapOfCType (s.swigText run.arguments.swigType) = some cType ∧
      run.after.swigTypeMapOfCType (s.swigText run.arguments.cType.name) = some cType

/-- A call of `register_Mirror` that ends without an exception. -/
structure Mirrored (δ : Type) where
  before : TypeMaps δ
  after : TypeMaps δ
  arguments : Mirror δ
  ran : registerMirror before arguments = .ok after

/-- Each spelling of the proxy is bound in both maps to the mirrored type's entry. The
argument that requests the third level is not used by the procedure. -/
def Mirrored.SpelledAlike (run : Mirrored δ) (addLevel3Indirection : Bool) : Prop :=
  ∀ s ∈ Spelling.requested run.arguments.createArrayType addLevel3Indirection, ∃ cType,
    run.after.nameMapOfCType (run.arguments.cType.name ++ s.suffix) = some cType ∧
    run.after.swigTypeMapOfCType (s.swigText run.arguments.swigType) = some cType ∧
    run.after.nameMapOfCType (s.nameText run.arguments.proxyName) = some cType

/-! ## What `register` binds -/

theorem Registered.grown (run : Registered δ) :
    Fresh run.before.find run.arguments.batch ∧
      Grown run.before.find run.arguments.batch run.after.find := by
  have hrun := @outcome_register _ run.before run.arguments
  rw [run.ran] at hrun
  exact insertAll_eq_some hrun.symm

/-- The text of the qualifier. -/
def constText : List Char := ['q', '(', 'c', 'o', 'n', 's', 't', ')', '.']

theorem addConst_plain {name : List Char} (h : ['q', '('].isPrefixOf name = false) :
    addConst name = constText ++ name := by
  rw [addConst, swigTypeAddQualifier, h]
  rfl

/-- The entries of one spelling. -/
def Spelling.row (r : Registration δ) (s : Spelling) : List (MapKey × CTypeView δ) :=
  [(.swigType (s.swigText r.swigType), s.made r),
    (.swigType (s.writtenText r.cType.name), s.made r),
    (.name (s.nameText r.cType.name), s.made r)]

theorem Registration.batch_rows (r : Registration δ) (hne : r.swigType ≠ r.cType.name) :
    r.batch = [(.swigType r.swigType, r.cType), (.swigType r.cType.name, r.cType),
      (.name r.cType.name, r.cType)] ++
        (Spelling.requested r.createArrayType r.addLevel3Indirection).flatMap
          (Spelling.row r) := by
  have henter : ∀ swigKey cKey name c, (r.enter swigKey cKey name c).flatMap
      (MapStep.entries fun _ => (none : Option (CTypeView δ))) =
        [(.swigType swigKey, c), (.swigType cKey, c), (.name name, c)] := by
    intro swigKey cKey name c
    rw [Registration.enter, if_pos hne]
    rfl
  have haddNew : ∀ c, (r.addNew c).flatMap
      (MapStep.entries fun _ => (none : Option (CTypeView δ))) = [] := by
    intro c
    rw [Registration.addNew]
    split <;> rfl
  rw [Registration.batch, Registration.steps, Registration.level1, Registration.level2,
    Registration.level3, Spelling.requested]
  cases r.createArrayType <;> cases r.addLevel3Indirection <;>
    simp only [List.flatMap_append, henter, haddNew, Bool.false_eq_true, if_false, if_true,
      List.flatMap_nil, List.append_nil, List.append_assoc] <;>
    rfl

theorem Spelling.made_name (r : Registration δ) (s : Spelling) :
    (s.made r).name = r.cType.name ++ s.suffix := by
  cases s <;> rfl

theorem Spelling.written_plain {name : List Char} (h : ['q', '('].isPrefixOf name = false)
    {s : Spelling} (hs : s.slipped = false) : s.writtenText name = s.swigText name := by
  have hconst := addConst_plain h
  cases s with
  | pointerToConst => rw [swigText, hconst]; rfl
  | pointerPointerToConst => rw [swigText, hconst]; rfl
  | referenceToConst => cases hs
  | pointerPointerArray => cases hs
  | pointerPointerPointer => cases hs
  | array => rfl
  | pointer => rfl
  | reference => rfl
  | pointerArray => rfl
  | pointerPointer => rfl

theorem Registration.mem_row (r : Registration δ) (hne : r.swigType ≠ r.cType.name)
    {s : Spelling} (hs : s ∈ Spelling.requested r.createArrayType r.addLevel3Indirection)
    {p : MapKey × CTypeView δ} (hp : p ∈ s.row r) : p ∈ r.batch := by
  rw [r.batch_rows hne]
  exact List.mem_append_right _ (List.mem_flatMap.2 ⟨s, hs, hp⟩)

/-- The pointer and the pointer to const are entered one after the other, under different
texts. -/
theorem Registered.pointer_keys (run : Registered δ) :
    run.arguments.swigType ≠ constText ++ run.arguments.cType.name ∧
      addConst run.arguments.swigType ≠ constText ++ run.arguments.cType.name := by
  obtain ⟨l, l', hl⟩ : ∃ l l', run.arguments.batch =
      l ++ (Spelling.pointer.row run.arguments ++
        (Spelling.pointerToConst.row run.arguments ++ l')) := by
    rw [run.arguments.batch_rows run.apart, Spelling.requested]
    simp only [List.flatMap_append, List.flatMap_cons, List.append_assoc]
    rw [← List.append_assoc]
    exact ⟨_, _, rfl⟩
  have hnodup := run.grown.1.1
  rw [hl, List.map_append, List.map_append, List.map_append] at hnodup
  have hpair := (List.nodup_append.1 hnodup).2.1
  have hconst := List.nodup_append.1 (List.nodup_append.1 hpair).2.1
  constructor
  · intro he
    refine (List.nodup_append.1 hpair).2.2 _ List.mem_cons_self _
      (List.mem_append_left _ (List.mem_cons_of_mem _ List.mem_cons_self)) ?_
    rw [Spelling.swigText, he]
    rfl
  · intro he
    have hkeys := List.nodup_cons.1 hconst.1
    refine hkeys.1 (List.mem_cons.2 (Or.inl ?_))
    show MapKey.swigType _ = MapKey.swigType _
    rw [Spelling.swigText, he]
    rfl

theorem Spelling.suffix_star {s : Spelling} (h : s.suffix = ['*']) :
    s = pointer ∨ s = pointerToConst ∨ s = reference ∨ s = referenceToConst := by
  cases s <;> simp [suffix] at h ⊢

theorem Spelling.suffix_starsArray {s : Spelling} (h : s.suffix = ['*', '*', '[', ']']) :
    s = pointerPointerArray := by
  cases s <;> simp [suffix] at h ⊢

theorem Spelling.suffix_stars {s : Spelling} (h : s.suffix = ['*', '*', '*']) :
    s = pointerPointerPointer := by
  cases s <;> simp [suffix] at h ⊢

section Keys

variable (run : Registered δ)

theorem Registered.referenceToConst_key {s' : Spelling} (hsuf : s'.suffix = ['*']) :
    ¬ (Spelling.referenceToConst.swigText run.arguments.cType.name =
        s'.swigText run.arguments.swigType ∨
      Spelling.referenceToConst.swigText run.arguments.cType.name =
        s'.writtenText run.arguments.cType.name) := by
  obtain ⟨hswig, hconst⟩ := run.pointer_keys
  have hkey : Spelling.referenceToConst.swigText run.arguments.cType.name =
      'r' :: '.' :: (constText ++ run.arguments.cType.name) := by
    rw [Spelling.swigText, addConst_plain run.plain]
    rfl
  rw [hkey]
  rcases Spelling.suffix_star hsuf with rfl | rfl | rfl | rfl
  · rintro (he | he) <;> exact absurd (List.cons.inj he).1 (by decide)
  · rintro (he | he) <;> exact absurd (List.cons.inj he).1 (by decide)
  · rintro (he | he)
    · exact hswig (List.cons.inj (List.cons.inj he).2).2.symm
    · have hwritten : Spelling.reference.writtenText run.arguments.cType.name =
          'r' :: '.' :: run.arguments.cType.name := rfl
      rw [hwritten] at he
      have hlong := congrArg List.length he
      simp only [constText, List.length_append, List.length_cons, List.length_nil] at hlong
      omega
  · rintro (he | he)
    · exact hconst (List.cons.inj (List.cons.inj he).2).2.symm
    · have hwritten : Spelling.referenceToConst.writtenText run.arguments.cType.name =
          'r' :: '.' :: (constText ++ run.arguments.cType.name ++ ['&']) := rfl
      rw [hwritten] at he
      have hlong := congrArg List.length he
      simp only [List.length_append, List.length_cons, List.length_nil] at hlong
      omega

theorem Registered.pointerPointerArray_key {s' : Spelling}
    (hsuf : s'.suffix = ['*', '*', '[', ']']) :
    ¬ (Spelling.pointerPointerArray.swigText run.arguments.cType.name =
        s'.swigText run.arguments.swigType ∨
      Spelling.pointerPointerArray.swigText run.arguments.cType.name =
        s'.writtenText run.arguments.cType.name) := by
  obtain rfl := Spelling.suffix_starsArray hsuf
  have htext : ∀ t, Spelling.pointerPointerArray.swigText t =
      'a' :: '.' :: 'p' :: '.' :: 'p' :: '.' :: t := fun _ => rfl
  have hwritten : Spelling.pointerPointerArray.writtenText run.arguments.cType.name =
      'a' :: '.' :: 'p' :: '.' :: 'p' :: run.arguments.cType.name := rfl
  rw [htext, htext, hwritten]
  intro h
  rcases h with he | he
  · simp only [List.cons.injEq, true_and] at he
    exact run.apart he.symm
  · have hlong := congrArg List.length he
    simp only [List.length_cons] at hlong
    omega

theorem Registered.pointerPointerPointer_key {s' : Spelling} (hsuf : s'.suffix = ['*', '*', '*']) :
    ¬ (Spelling.pointerPointerPointer.swigText run.arguments.cType.name =
        s'.swigText run.arguments.swigType ∨
      Spelling.pointerPointerPointer.swigText run.arguments.cType.name =
        s'.writtenText run.arguments.cType.name) := by
  obtain rfl := Spelling.suffix_stars hsuf
  have htext : ∀ t, Spelling.pointerPointerPointer.swigText t =
      'p' :: '.' :: 'p' :: '.' :: 'p' :: '.' :: t := fun _ => rfl
  have hwritten : Spelling.pointerPointerPointer.writtenText run.arguments.cType.name =
      'p' :: '.' :: 'p' :: '.' :: 'p' :: run.arguments.cType.name := rfl
  rw [htext, htext, hwritten]
  intro h
  rcases h with he | he
  · simp only [List.cons.injEq, true_and] at he
    exact run.apart he.symm
  · have hlong := congrArg List.length he
    simp only [List.length_cons] at hlong
    omega

end Keys

/-- A text that slipped is entered in no other way with that type. -/
theorem Registered.slipped_not_mem (run : Registered δ) {s : Spelling} (hs : s.slipped = true) :
    (MapKey.swigType (s.swigText run.arguments.cType.name), s.made run.arguments) ∉
      run.arguments.batch := by
  rw [run.arguments.batch_rows run.apart, List.mem_append, List.mem_flatMap]
  rintro (hmem | ⟨s', -, hmem⟩)
  · have hname : s.made run.arguments ≠ run.arguments.cType := by
      intro he
      have hlength := congrArg (fun c => c.name.length) he
      simp only [Spelling.made_name, List.length_append] at hlength
      revert hs hlength
      cases s <;> simp [Spelling.suffix, Spelling.slipped]
    simp only [List.mem_cons, Prod.mk.injEq, List.not_mem_nil, or_false] at hmem
    rcases hmem with ⟨-, he⟩ | ⟨-, he⟩ | ⟨-, he⟩ <;> exact hname he
  · have hsuffix : s.suffix = s'.suffix ∧ (s.swigText run.arguments.cType.name =
        s'.swigText run.arguments.swigType ∨ s.swigText run.arguments.cType.name =
          s'.writtenText run.arguments.cType.name) := by
      simp only [Spelling.row, List.mem_cons, Prod.mk.injEq, List.not_mem_nil, or_false,
        MapKey.swigType.injEq, reduceCtorEq, false_and] at hmem
      have hmade : s.made run.arguments = s'.made run.arguments := by
        rcases hmem with ⟨-, he⟩ | ⟨-, he⟩ <;> exact he
      have hname := congrArg CTypeView.name hmade
      rw [Spelling.made_name, Spelling.made_name] at hname
      exact ⟨List.append_cancel_left hname, hmem.imp And.left And.left⟩
    obtain ⟨hsuf, hkey⟩ := hsuffix
    cases s with
    | referenceToConst => exact run.referenceToConst_key hsuf.symm hkey
    | pointerPointerArray => exact run.pointerPointerArray_key hsuf.symm hkey
    | pointerPointerPointer => exact run.pointerPointerPointer_key hsuf.symm hkey
    | array => cases hs
    | pointer => cases hs
    | pointerToConst => cases hs
    | reference => cases hs
    | pointerArray => cases hs
    | pointerPointer => cases hs
    | pointerPointerToConst => cases hs

/-- The texts that slipped are bound only where they were bound before the call. -/
theorem Registered.alike_iff (run : Registered δ) : run.SpelledAlike ↔
    ∀ s ∈ Spelling.requested run.arguments.createArrayType run.arguments.addLevel3Indirection,
      s.slipped = true → run.before.swigTypeMapOfCType
        (s.swigText run.arguments.cType.name) = some (s.made run.arguments) := by
  have hgrown := run.grown.2
  have hswig : ∀ s ∈ Spelling.requested run.arguments.createArrayType
      run.arguments.addLevel3Indirection, run.after.swigTypeMapOfCType
        (s.swigText run.arguments.swigType) = some (s.made run.arguments) := by
    intro s hs
    exact (hgrown (.swigType _) _).2 (Or.inr
      (run.arguments.mem_row run.apart hs List.mem_cons_self))
  constructor
  · intro h s hs hslip
    obtain ⟨cType, hsw, hname⟩ := h s hs
    rw [hswig s hs] at hsw
    obtain rfl := Option.some.inj hsw
    exact ((hgrown (.swigType _) _).1 hname).resolve_right (run.slipped_not_mem hslip)
  · intro h s hs
    refine ⟨s.made run.arguments, hswig s hs, (hgrown (.swigType _) _).2 ?_⟩
    cases hslip : s.slipped with
    | true => exact Or.inl (h s hs hslip)
    | false =>
        refine Or.inr (run.arguments.mem_row run.apart hs ?_)
        rw [← Spelling.written_plain run.plain hslip]
        exact List.mem_cons_of_mem _ List.mem_cons_self

/-! ## What `register_Mirror` binds -/

def Mirrored.batch (run : Mirrored δ) : List (MapKey × CTypeView δ) :=
  (BaseDeclaration.mirror run.arguments).batch run.before

/-- The keys of the map of swig types, in the order of their insertion. -/
def Mirror.swigKeys (r : Mirror δ) : List (List Char) :=
  r.swigType :: ((if r.createArrayType then [['a', '.'] ++ r.swigType] else []) ++
    [swigTypeAddPointer r.swigType, swigTypeAddPointer (addConst r.swigType),
      swigTypeAddReference r.swigType, swigTypeAddReference (addConst r.swigType)] ++
    (if r.createArrayType then [['a', '.'] ++ swigTypeAddPointer r.swigType] else []) ++
    [swigTypeAddPointer (swigTypeAddPointer r.swigType)])

def Mirror.nameKeys (r : Mirror δ) : List (List Char) :=
  r.proxyName :: ((if r.createArrayType then [r.proxyName ++ ['[', ']']] else []) ++
    [r.proxyName ++ ['*'], "const ".toList ++ r.proxyName ++ ['*'], r.proxyName ++ ['&'],
      "const ".toList ++ r.proxyName ++ ['&']])

section Mirrored

variable (run : Mirrored δ)

theorem Mirrored.grown : (BaseDeclaration.mirror run.arguments).Ready run.before ∧
    Fresh run.before.find run.batch ∧ Grown run.before.find run.batch run.after.find := by
  have hrun := @outcome_run _ run.before (.mirror run.arguments)
  rw [show BaseDeclaration.run (.mirror run.arguments) run.before = .ok run.after from run.ran]
    at hrun
  have hready := ready_of_runTable hrun.symm
  rw [hready.batch run.before.find fun _ _ hv => hv] at hrun
  exact ⟨hready, insertAll_eq_some hrun.symm⟩

theorem Mirrored.mem_keys {key : MapKey} : key ∈ run.batch.map Prod.fst ↔
    (∃ text ∈ run.arguments.swigKeys, key = .swigType text) ∨
      ∃ text ∈ run.arguments.nameKeys, key = .name text := by
  rw [Mirrored.batch, run.grown.1.keys]
  cases key <;> cases hb : run.arguments.createArrayType <;>
    simp [BaseDeclaration.keys, BaseDeclaration.steps, Mirror.steps, MapStep.keys, hb,
      Mirror.swigKeys, Mirror.nameKeys]

theorem Mirrored.swig_iff {text : List Char} (h : text ∉ run.arguments.swigKeys)
    (cType : CTypeView δ) : run.after.swigTypeMapOfCType text = some cType ↔
      run.before.swigTypeMapOfCType text = some cType := by
  have hnot : MapKey.swigType text ∉ run.batch.map Prod.fst := by
    rw [run.mem_keys]
    rintro (⟨t, ht, he⟩ | ⟨t, -, he⟩)
    · exact h (MapKey.swigType.inj he ▸ ht)
    · cases he
  exact (run.grown.2.2 (.swigType text) cType).trans
    (or_iff_left fun hmem => hnot (List.mem_map_of_mem hmem))

theorem Mirrored.name_iff {text : List Char} (h : text ∉ run.arguments.nameKeys)
    (cType : CTypeView δ) : run.after.nameMapOfCType text = some cType ↔
      run.before.nameMapOfCType text = some cType := by
  have hnot : MapKey.name text ∉ run.batch.map Prod.fst := by
    rw [run.mem_keys]
    rintro (⟨t, -, he⟩ | ⟨t, ht, he⟩)
    · cases he
    · exact h (MapKey.name.inj he ▸ ht)
  exact (run.grown.2.2 (.name text) cType).trans
    (or_iff_left fun hmem => hnot (List.mem_map_of_mem hmem))

/-- A name that is looked up is bound before the call, and so no key of the call. -/
theorem Mirrored.bound_not_mem {text : List Char} (h : run.before.nameMapOfCType text ≠ none) :
    text ∉ run.arguments.nameKeys := by
  intro hmem
  obtain ⟨p, hp, hkey⟩ := List.mem_map.1 (run.mem_keys.2 (Or.inr ⟨text, hmem, rfl⟩))
  have hnone := run.grown.2.1.2 p hp
  rw [hkey] at hnone
  exact h hnone

theorem Mirrored.looked_up : (∃ cType, run.before.nameMapOfCType
      (run.arguments.cType.name ++ ['*']) = some cType) ∧
    (∃ cType, run.before.nameMapOfCType (run.arguments.cType.name ++ ['*', '*']) = some cType) ∧
    (run.arguments.createArrayType = true → ∃ cType, run.before.nameMapOfCType
      (run.arguments.cType.name ++ ['[', ']']) = some cType) := by
  have hready := run.grown.1
  have hsome : ∀ name, (∃ keys, MapStep.insertNamed name keys ∈ run.arguments.steps) →
      ∃ cType, run.before.nameMapOfCType name = some cType :=
    fun name ⟨keys, hmem⟩ => Option.ne_none_iff_exists'.1 (hready name keys hmem)
  refine ⟨hsome _ ⟨_, List.mem_append_left _ (List.mem_append_left _ (List.mem_append_right _
    List.mem_cons_self))⟩, hsome _ ⟨_, List.mem_append_right _ List.mem_cons_self⟩,
    fun harray => hsome _ ?_⟩
  rw [Mirror.steps, if_pos harray]
  exact ⟨_, List.mem_append_left _ (List.mem_append_left _ (List.mem_append_left _
    (List.mem_append_right _ List.mem_cons_self)))⟩

/-- A longer row of marks is behind no name that is entered. -/
theorem Mirror.long_not_mem (r : Mirror δ) (m : List Char) {suf : List Char}
    (hmarks : ∀ x ∈ suf, x ∈ nameMarks) (h : ¬ suf.reverse <+: ['[', ']'].reverse)
    (h' : 1 < suf.length) :
    m ++ suf ∉ r.nameKeys := by
  have hshort : ∀ l : List Char, l.length ≤ 1 → ¬ suf.reverse <+: l.reverse := by
    intro l hl hp
    have hle := hp.length_le
    rw [List.length_reverse, List.length_reverse] at hle
    omega
  have hplain : ∀ x ∈ r.proxyName.1, x ∉ nameMarks :=
    fun x hx => not_mem_nameMarks (r.proxyName.2 x hx)
  have hconst : ∀ x ∈ "const ".toList ++ r.proxyName.1, x ∉ nameMarks := by
    intro x hx
    rcases List.mem_append.1 hx with hx | hx
    · have hword : ∀ y ∈ ['c', 'o', 'n', 's', 't', ' '], y ∉ nameMarks := by simp [nameMarks]
      exact hword x hx
    · exact hplain x hx
  have hname := @append_marks_ne m _ _ [] hplain hmarks (hshort [] (Nat.zero_le 1))
  rw [List.append_nil] at hname
  intro hmem
  rw [Mirror.nameKeys, List.mem_cons, List.mem_append] at hmem
  rcases hmem with he | hmem | hmem
  · exact hname he
  · split at hmem
    · exact append_marks_ne hplain hmarks h (List.mem_singleton.1 hmem)
    · cases hmem
  · simp only [List.mem_cons, List.not_mem_nil, or_false] at hmem
    rcases hmem with he | he | he | he
    · exact append_marks_ne hplain hmarks (hshort ['*'] (Nat.le_refl 1)) he
    · exact append_marks_ne hconst hmarks (hshort ['*'] (Nat.le_refl 1)) he
    · exact append_marks_ne hplain hmarks (hshort ['&'] (Nat.le_refl 1)) he
    · exact append_marks_ne hconst hmarks (hshort ['&'] (Nat.le_refl 1)) he

theorem Spelling.requested_array {createArrayType addLevel3Indirection : Bool}
    (h : array ∈ requested createArrayType addLevel3Indirection) : createArrayType = true := by
  revert h
  cases createArrayType <;> cases addLevel3Indirection <;> simp [requested]

theorem Spelling.suffix_marks (s : Spelling) : ∀ x ∈ s.suffix, x ∈ nameMarks := by
  cases s <;> simp [suffix, nameMarks]

theorem Mirror.suffix_not_mem (r : Mirror δ) (m : List Char) {s : Spelling}
    (hs : s.mirroredName = false) : m ++ s.suffix ∉ r.nameKeys := by
  refine r.long_not_mem m s.suffix_marks ?_ ?_
  · revert hs
    cases s <;> decide
  · revert hs
    cases s <;> decide

/-- The call binds none of the names of the mirrored type. -/
theorem Mirrored.entry_iff {addLevel3Indirection : Bool} {s : Spelling}
    (hs : s ∈ Spelling.requested run.arguments.createArrayType addLevel3Indirection)
    (cType : CTypeView δ) :
    run.after.nameMapOfCType (run.arguments.cType.name ++ s.suffix) = some cType ↔
      run.before.nameMapOfCType (run.arguments.cType.name ++ s.suffix) = some cType := by
  refine run.name_iff ?_ cType
  obtain ⟨⟨star, hstar⟩, -, harray⟩ := run.looked_up
  have hpointer := @Mirrored.bound_not_mem _ run (run.arguments.cType.name ++ ['*'])
    (by rw [hstar]; exact Option.some_ne_none star)
  cases s with
  | array =>
      obtain ⟨arr, harr⟩ := harray (Spelling.requested_array hs)
      exact run.bound_not_mem (by rw [Spelling.suffix, harr]; exact Option.some_ne_none arr)
  | pointer => exact hpointer
  | pointerToConst => exact hpointer
  | reference => exact hpointer
  | referenceToConst => exact hpointer
  | pointerArray => exact run.arguments.suffix_not_mem _ rfl
  | pointerPointer => exact run.arguments.suffix_not_mem _ rfl
  | pointerPointerToConst => exact run.arguments.suffix_not_mem _ rfl
  | pointerPointerArray => exact run.arguments.suffix_not_mem _ rfl
  | pointerPointerPointer => exact run.arguments.suffix_not_mem _ rfl

theorem Mirror.name_not_mem (r : Mirror δ) {s : Spelling} (hs : s.mirroredName = false) :
    s.nameText r.proxyName ∉ r.nameKeys := by
  cases s with
  | pointerPointerToConst => exact @Mirror.suffix_not_mem _ r _ .pointerPointerToConst rfl
  | pointerArray => exact r.suffix_not_mem _ rfl
  | pointerPointer => exact r.suffix_not_mem _ rfl
  | pointerPointerArray => exact r.suffix_not_mem _ rfl
  | pointerPointerPointer => exact r.suffix_not_mem _ rfl
  | array => cases hs
  | pointer => cases hs
  | pointerToConst => cases hs
  | reference => cases hs
  | referenceToConst => cases hs

theorem addConst_qualified (t : List Char) : ∃ rest, addConst t = 'q' :: '(' :: rest := by
  rw [addConst, swigTypeAddQualifier]
  dsimp only
  split
  · exact ⟨_, rfl⟩
  · exact ⟨_, rfl⟩

/-- Adding the qualifier makes a text no shorter that does not begin with one. -/
theorem addConst_ne {t rest : List Char} (h : t = 'p' :: rest) (n : List Char) :
    t ≠ 'p' :: '.' :: (n ++ addConst t) := by
  intro he
  have hplain : ['q', '('].isPrefixOf t = false := by rw [h]; rfl
  have hlong := congrArg List.length he
  rw [addConst_plain hplain] at hlong
  simp only [constText, List.length_cons, List.length_append, List.length_nil] at hlong
  omega

theorem Mirrored.addConst_apart : addConst run.arguments.swigType ≠ run.arguments.swigType := by
  intro he
  have hnodup := run.grown.2.1.1
  have hkeys : (run.batch.map Prod.fst) =
      (BaseDeclaration.mirror run.arguments).keys := run.grown.1.keys
  rw [hkeys] at hnodup
  revert hnodup
  cases hb : run.arguments.createArrayType <;>
    simp [BaseDeclaration.keys, BaseDeclaration.steps, Mirror.steps, MapStep.keys, hb, he]

theorem Mirrored.swig_not_mem {s : Spelling}
    (hs : s.mirroredSwig run.arguments.createArrayType = false) :
    s.swigText run.arguments.swigType ∉ run.arguments.swigKeys := by
  obtain ⟨rest, hrest⟩ := addConst_qualified run.arguments.swigType
  have hne := run.addConst_apart
  have hself : ∀ front, front ≠ [] → run.arguments.swigType ≠ front ++ run.arguments.swigType :=
    fun front hf => mt List.self_eq_append_left.1 hf
  have hconst : ∀ front, front ≠ [] → addConst run.arguments.swigType ≠
      front ++ addConst run.arguments.swigType := fun front hf => mt List.self_eq_append_left.1 hf
  have h₁ := hself ['a', '.', 'p', '.'] (List.cons_ne_nil _ _)
  have h₂ := hself ['a', '.', 'p', '.', 'p', '.'] (List.cons_ne_nil _ _)
  have h₃ := hself ['p', '.'] (List.cons_ne_nil _ _)
  have h₄ := hself ['p', '.', 'p', '.'] (List.cons_ne_nil _ _)
  have h₅ := hself ['p', '.', 'p', '.', 'p', '.'] (List.cons_ne_nil _ _)
  have h₆ := hconst ['p', '.'] (List.cons_ne_nil _ _)
  simp only [List.cons_append, List.nil_append] at h₁ h₂ h₃ h₄ h₅ h₆
  have hp : run.arguments.swigType ≠ 'p' :: '.' :: addConst run.arguments.swigType :=
    fun he => addConst_ne he [] he
  have hpp : run.arguments.swigType ≠
      'p' :: '.' :: 'p' :: '.' :: addConst run.arguments.swigType :=
    fun he => addConst_ne he ['p', '.'] he
  cases s with
  | pointerArray =>
      rw [Spelling.mirroredSwig] at hs
      simp [Mirror.swigKeys, hs, Spelling.swigText, swigTypeAddPointer, swigTypeAddReference,
        Ne.symm h₁]
  | pointerPointerToConst =>
      cases hb : run.arguments.createArrayType <;>
        simp [Mirror.swigKeys, hb, Spelling.swigText, swigTypeAddPointer, swigTypeAddReference,
          Ne.symm hpp, Ne.symm hp, Ne.symm h₆, hne]
  | pointerPointerArray =>
      cases hb : run.arguments.createArrayType <;>
        simp [Mirror.swigKeys, hb, Spelling.swigText, swigTypeAddPointer, swigTypeAddReference,
          Ne.symm h₂, Ne.symm h₃, Ne.symm h₄]
  | pointerPointerPointer =>
      cases hb : run.arguments.createArrayType <;>
        simp [Mirror.swigKeys, hb, Spelling.swigText, swigTypeAddPointer, swigTypeAddReference,
          Ne.symm h₃, Ne.symm h₄, Ne.symm h₅, hrest]
  | array => cases hs
  | pointer => cases hs
  | pointerToConst => cases hs
  | reference => cases hs
  | referenceToConst => cases hs
  | pointerPointer => cases hs

/-- The keys under which the pointer type is entered. -/
def Mirror.pointerKeys (r : Mirror δ) : List MapKey :=
  [.swigType (Spelling.pointer.swigText r.swigType), .name (Spelling.pointer.nameText r.proxyName),
    .swigType (Spelling.pointerToConst.swigText r.swigType),
    .name (Spelling.pointerToConst.nameText r.proxyName),
    .swigType (Spelling.reference.swigText r.swigType),
    .name (Spelling.reference.nameText r.proxyName),
    .swigType (Spelling.referenceToConst.swigText r.swigType),
    .name (Spelling.referenceToConst.nameText r.proxyName)]

/-- What is entered is what the map of names has for the mirrored type. -/
theorem Mirrored.entered {s : Spelling} {cType : CTypeView δ}
    (hentry : run.before.nameMapOfCType (run.arguments.cType.name ++ s.suffix) = some cType)
    (harray : s = .array → run.arguments.createArrayType = true) :
    (s.mirroredSwig run.arguments.createArrayType = true →
      (.swigType (s.swigText run.arguments.swigType), cType) ∈ run.batch) ∧
    (s.mirroredName = true → (.name (s.nameText run.arguments.proxyName), cType) ∈ run.batch) := by
  have hmem : ∀ keys, MapStep.insertNamed (run.arguments.cType.name ++ s.suffix) keys ∈
      run.arguments.steps → ∀ key ∈ keys, (key, cType) ∈ run.batch := by
    intro keys hstep key hkey
    refine List.mem_flatMap.2 ⟨_, hstep, ?_⟩
    rw [MapStep.entries, hentry]
    exact List.mem_map_of_mem hkey
  have hpointer : MapStep.insertNamed (run.arguments.cType.name ++ ['*'])
      run.arguments.pointerKeys ∈ run.arguments.steps :=
    List.mem_append_left _ (List.mem_append_left _ (List.mem_append_right _ List.mem_cons_self))
  cases s with
  | array =>
      have hstep : MapStep.insertNamed (run.arguments.cType.name ++ ['[', ']'])
          [.swigType (Spelling.array.swigText run.arguments.swigType),
            .name (Spelling.array.nameText run.arguments.proxyName)] ∈ run.arguments.steps := by
        rw [Mirror.steps, if_pos (harray rfl)]
        exact List.mem_append_left _ (List.mem_append_left _ (List.mem_append_left _
          (List.mem_append_right _ List.mem_cons_self)))
      exact ⟨fun _ => hmem _ hstep _ List.mem_cons_self,
        fun _ => hmem _ hstep _ (List.mem_cons_of_mem _ List.mem_cons_self)⟩
  | pointer =>
      exact ⟨fun _ => hmem _ hpointer _ (by simp [Mirror.pointerKeys]),
        fun _ => hmem _ hpointer _ (by simp [Mirror.pointerKeys])⟩
  | pointerToConst =>
      exact ⟨fun _ => hmem _ hpointer _ (by simp [Mirror.pointerKeys]),
        fun _ => hmem _ hpointer _ (by simp [Mirror.pointerKeys])⟩
  | reference =>
      exact ⟨fun _ => hmem _ hpointer _ (by simp [Mirror.pointerKeys]),
        fun _ => hmem _ hpointer _ (by simp [Mirror.pointerKeys])⟩
  | referenceToConst =>
      exact ⟨fun _ => hmem _ hpointer _ (by simp [Mirror.pointerKeys]),
        fun _ => hmem _ hpointer _ (by simp [Mirror.pointerKeys])⟩
  | pointerArray =>
      refine ⟨fun hcreate => ?_, (by intro h; cases h)⟩
      have hstep : MapStep.insertNamed (run.arguments.cType.name ++ ['*', '[', ']'])
          [.swigType (Spelling.pointerArray.swigText run.arguments.swigType)] ∈
            run.arguments.steps := by
        have hcreate' : run.arguments.createArrayType = true := hcreate
        rw [Mirror.steps, if_pos hcreate', if_pos hcreate']
        exact List.mem_append_left _ (List.mem_append_right _ List.mem_cons_self)
      exact hmem _ hstep _ List.mem_cons_self
  | pointerPointer =>
      refine ⟨fun _ => ?_, (by intro h; cases h)⟩
      have hstep : MapStep.insertNamed (run.arguments.cType.name ++ ['*', '*'])
          [.swigType (Spelling.pointerPointer.swigText run.arguments.swigType)] ∈
            run.arguments.steps := List.mem_append_right _ List.mem_cons_self
      exact hmem _ hstep _ List.mem_cons_self
  | pointerPointerToConst => exact ⟨(by intro h; cases h), (by intro h; cases h)⟩
  | pointerPointerArray => exact ⟨(by intro h; cases h), (by intro h; cases h)⟩
  | pointerPointerPointer => exact ⟨(by intro h; cases h), (by intro h; cases h)⟩

/-- The names that are left out are bound only where they were bound before the call. -/
theorem Mirrored.alike_iff (addLevel3Indirection : Bool) :
    run.SpelledAlike addLevel3Indirection ↔
      ∀ s ∈ Spelling.requested run.arguments.createArrayType addLevel3Indirection,
        s.mirroredName = false → ∃ cType,
          run.before.nameMapOfCType (run.arguments.cType.name ++ s.suffix) = some cType ∧
          (s.mirroredSwig run.arguments.createArrayType = false →
            run.before.swigTypeMapOfCType (s.swigText run.arguments.swigType) = some cType) ∧
          run.before.nameMapOfCType (s.nameText run.arguments.proxyName) = some cType := by
  have hgrown := run.grown.2.2
  constructor
  · intro h s hs hleft
    obtain ⟨cType, hentry, hswig, hname⟩ := h s hs
    exact ⟨cType, (run.entry_iff hs cType).1 hentry,
      fun hmirrored => (run.swig_iff (run.swig_not_mem hmirrored) cType).1 hswig,
      (run.name_iff (run.arguments.name_not_mem hleft) cType).1 hname⟩
  · intro h s hs
    have harray : s = .array → run.arguments.createArrayType = true :=
      fun he => Spelling.requested_array (he ▸ hs)
    cases hleft : s.mirroredName with
    | false =>
        obtain ⟨cType, hentry, hswig, hname⟩ := h s hs hleft
        refine ⟨cType, (run.entry_iff hs cType).2 hentry, (hgrown (.swigType _) _).2 ?_,
          (hgrown (.name _) _).2 (Or.inl hname)⟩
        cases hmirrored : s.mirroredSwig run.arguments.createArrayType with
        | false => exact Or.inl (hswig hmirrored)
        | true => exact Or.inr ((run.entered hentry harray).1 hmirrored)
    | true =>
        obtain ⟨⟨star, hstar⟩, -, hbrackets⟩ := run.looked_up
        obtain ⟨cType, hentry⟩ : ∃ cType, run.before.nameMapOfCType
            (run.arguments.cType.name ++ s.suffix) = some cType := by
          cases s with
          | array => exact hbrackets (harray rfl)
          | pointer => exact ⟨star, hstar⟩
          | pointerToConst => exact ⟨star, hstar⟩
          | reference => exact ⟨star, hstar⟩
          | referenceToConst => exact ⟨star, hstar⟩
          | pointerArray => cases hleft
          | pointerPointer => cases hleft
          | pointerPointerToConst => cases hleft
          | pointerPointerArray => cases hleft
          | pointerPointerPointer => cases hleft
        have hmirrored : s.mirroredSwig run.arguments.createArrayType = true := by
          revert hleft
          cases s <;> simp [Spelling.mirroredName, Spelling.mirroredSwig]
        obtain ⟨hswig, hname⟩ := run.entered hentry harray
        exact ⟨cType, (run.entry_iff hs cType).2 hentry,
          (hgrown (.swigType _) _).2 (Or.inr (hswig hmirrored)),
          (hgrown (.name _) _).2 (Or.inr (hname hleft))⟩

end Mirrored

/-! ## The results -/

/-- The two procedures bind all spellings only where those they leave out were bound to the
same types before. -/
theorem spelledAlike_iff (run : Registered δ) (mirror : Mirrored δ)
    (addLevel3Indirection : Bool) :
    (run.SpelledAlike ↔
      ∀ s ∈ Spelling.requested run.arguments.createArrayType
          run.arguments.addLevel3Indirection,
        s.slipped = true → run.before.swigTypeMapOfCType
          (s.swigText run.arguments.cType.name) = some (s.made run.arguments)) ∧
    (mirror.SpelledAlike addLevel3Indirection ↔
      ∀ s ∈ Spelling.requested mirror.arguments.createArrayType addLevel3Indirection,
        s.mirroredName = false → ∃ cType,
          mirror.before.nameMapOfCType (mirror.arguments.cType.name ++ s.suffix) = some cType ∧
          (s.mirroredSwig mirror.arguments.createArrayType = false →
            mirror.before.swigTypeMapOfCType (s.swigText mirror.arguments.swigType) =
              some cType) ∧
          mirror.before.nameMapOfCType (s.nameText mirror.arguments.proxyName) = some cType) :=
  ⟨run.alike_iff, mirror.alike_iff addLevel3Indirection⟩

/-- The typedef `T` in a class `C`. -/
def memberTypedef : Registration Unit where
  cType := .declared () [] ['T']
  toSwigType := ['C', ':', ':', 'T']
  isCoreCType := false
  createArrayType := true
  addLevel3Indirection := false

/-- A mirror of the type `_T` under the name `T`. -/
def mirrorOfT : Mirror Unit where
  proxyName := ⟨['T'], fun c hc => by obtain rfl := List.mem_singleton.1 hc; decide⟩
  cType := .declared () [] ['_', 'T']
  swigType := ['T']
  createArrayType := true

/-- The maps with the struct `_T`. -/
def mapsWithT : TypeMaps Unit :=
  let r : Registration Unit := ⟨.declared () [] ['_', 'T'], ['_', 'T'], false, true, false⟩
  match register emptyMaps r with
  | .ok maps => maps
  | .error _ => emptyMaps

/-- The const reference to `C::T` has no entry under `T`, and the pointer to a pointer to the
mirrored type has none under the proxy name. -/
theorem spellings_missing : (∃ run : Registered Unit, run.before = emptyMaps ∧
      run.arguments = memberTypedef ∧ ¬ run.SpelledAlike) ∧
    ∃ run : Mirrored Unit, run.before = mapsWithT ∧ run.arguments = mirrorOfT ∧
      ¬ run.SpelledAlike false := by
  constructor
  · have hmissing : (register emptyMaps memberTypedef).toOption.map (fun maps =>
        maps.swigTypeMapOfCType (Spelling.referenceToConst.swigText ['T'])) = some none := by
      decide
    cases hrun : register emptyMaps memberTypedef with
    | error fault =>
        rw [hrun] at hmissing
        cases hmissing
    | ok after =>
        rw [hrun] at hmissing
        refine ⟨⟨emptyMaps, after, memberTypedef, hrun, by decide, by decide⟩, rfl, rfl,
          fun h => ?_⟩
        have hin : Spelling.referenceToConst ∈ Spelling.requested true false := by decide
        obtain ⟨cType, -, hname⟩ := h .referenceToConst hin
        have hnone : after.swigTypeMapOfCType (Spelling.referenceToConst.swigText ['T']) = none :=
          Option.some.inj hmissing
        exact absurd (hnone.symm.trans hname) nofun
  · have hmissing : (registerMirror mapsWithT mirrorOfT).toOption.map (fun maps =>
        maps.nameMapOfCType (Spelling.pointerPointer.nameText ['T'])) = some none := by
      decide
    cases hrun : registerMirror mapsWithT mirrorOfT with
    | error fault =>
        rw [hrun] at hmissing
        cases hmissing
    | ok after =>
        rw [hrun] at hmissing
        refine ⟨⟨mapsWithT, after, mirrorOfT, hrun⟩, rfl, rfl, fun h => ?_⟩
        have hin : Spelling.pointerPointer ∈ Spelling.requested true false := by decide
        obtain ⟨cType, -, -, hname⟩ := h .pointerPointer hin
        have hnone : after.nameMapOfCType (Spelling.pointerPointer.nameText ['T']) = none :=
          Option.some.inj hmissing
        exact absurd (hnone.symm.trans hname) nofun

end Swig4Ada.Ada

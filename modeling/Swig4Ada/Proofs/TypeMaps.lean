import Swig4Ada.Ada.TypeMaps

/-!
# The maps of C types over orders of declarations and demands

Registering and mirroring are batches of insertions, and so is what an unknown type
puts into the maps; the two maps together are a table that only grows. So the order in
which a name is declared and spellings of it are asked for does not matter exactly when
no two of these batches have a key in common. A pointer type that is asked for before
its struct is declared has such a key: it is inserted as an unknown type, and `register`
then finds it in the middle of its own insertions.
-/

namespace Swig4Ada.Ada

open Swig4Ada.Lib
open Swig4Ada.Swig

variable {δ : Type}

/-! ## The two maps as one table -/

/-- The keys under which a step inserts. -/
def MapStep.keys : MapStep δ → List MapKey
  | .insert key _ => [key]
  | .insertNamed _ keys => keys
  | .newType _ => []

/-- The insertions of a step, when `named` says what the map of names has. -/
def MapStep.entries (named : List Char → Option (CTypeView δ)) :
    MapStep δ → List (MapKey × CTypeView δ)
  | .insert key cType => [(key, cType)]
  | .insertNamed name keys =>
      match named name with
      | none => []
      | some cType => keys.map fun key => (key, cType)
  | .newType _ => []

/-- A step on the table. -/
def stepTable (t : Table MapKey (CTypeView δ)) :
    MapStep δ → Option (Table MapKey (CTypeView δ))
  | .insert key cType => insertAll t [(key, cType)]
  | .insertNamed name keys =>
      (t (.name name)).bind fun cType => insertAll t (keys.map fun key => (key, cType))
  | .newType _ => some t

/-- The table after an operation, if there was no exception. -/
def outcome : Except TypeFault (TypeMaps δ) → Option (Table MapKey (CTypeView δ))
  | .ok self => some self.find
  | .error _ => none

variable {self : TypeMaps δ}

theorem outcome_insert (key : MapKey) (cType : CTypeView δ) :
    outcome (self.insert key cType) = insertAll self.find [(key, cType)] := by
  unfold TypeMaps.insert
  rw [insertAll]
  cases hkey : self.find key with
  | some c => rfl
  | none =>
      have hfind : ∀ self' : TypeMaps δ,
          (∀ k, self'.find k = Function.update self.find key (some cType) k) →
            some self'.find = insertAll (Function.update self.find key (some cType)) [] :=
        fun self' h => congrArg some (funext h)
      cases key with
      | swigType text =>
          refine hfind _ fun k => ?_
          cases k with
          | swigType text' =>
              by_cases h : text' = text
              · subst h
                simp [TypeMaps.find]
              · simp [TypeMaps.find, h]
          | name text' => simp [TypeMaps.find]
      | name text =>
          refine hfind _ fun k => ?_
          cases k with
          | swigType text' => simp [TypeMaps.find]
          | name text' =>
              by_cases h : text' = text
              · subst h
                simp [TypeMaps.find]
              · simp [TypeMaps.find, h]

/-- What holds of each operation on the maps holds of a list of them. -/
theorem outcome_foldlM {α : Type} {run : TypeMaps δ → α → Except TypeFault (TypeMaps δ)}
    (runTable : Table MapKey (CTypeView δ) → α → Option (Table MapKey (CTypeView δ)))
    (h : ∀ self a, outcome (run self a) = runTable self.find a) (l : List α) :
    outcome (l.foldlM run self) = l.foldlM runTable self.find := by
  induction l generalizing self with
  | nil => rfl
  | cons a l ih =>
      rw [List.foldlM_cons, List.foldlM_cons, ← h self a]
      cases hrun : run self a with
      | error e => rfl
      | ok self' => exact ih

theorem outcome_step (s : MapStep δ) : outcome (self.step s) = stepTable self.find s := by
  cases s with
  | insert key cType => exact outcome_insert key cType
  | newType cType =>
      refine congrArg some (funext fun k => ?_)
      cases k <;> rfl
  | insertNamed name keys =>
      have hkeys : ∀ cType, outcome (keys.foldlM (fun self key => self.insert key cType) self) =
          insertAll self.find (keys.map fun key => (key, cType)) := by
        intro cType
        rw [outcome_foldlM (fun t key => insertAll t [(key, cType)])
          (fun self key => outcome_insert key cType) keys]
        generalize self.find = t
        induction keys generalizing t with
        | nil => rfl
        | cons key keys ih =>
            have hcons := insertAll_append t [(key, cType)] (keys.map fun key => (key, cType))
            rw [List.foldlM_cons, List.map_cons]
            refine Eq.trans ?_ hcons.symm
            cases insertAll t [(key, cType)] with
            | none => rfl
            | some t' => exact ih t'
      show outcome ((self.namedElement name).bind _) = (self.nameMapOfCType name).bind _
      rw [TypeMaps.namedElement]
      cases self.nameMapOfCType name with
      | none => rfl
      | some cType => exact hkeys cType

/-! ## Lists of steps as batches -/

variable {t t' : Table MapKey (CTypeView δ)} {named : List Char → Option (CTypeView δ)}

theorem keys_entries {l : List (MapStep δ)}
    (h : ∀ name keys, MapStep.insertNamed name keys ∈ l → named name ≠ none) :
    (l.flatMap (MapStep.entries named)).map Prod.fst = l.flatMap MapStep.keys := by
  induction l with
  | nil => rfl
  | cons s l ih =>
      have hs : (s.entries named).map Prod.fst = s.keys := by
        cases s with
        | insert key cType => rfl
        | newType cType => rfl
        | insertNamed name keys =>
            obtain ⟨cType, hname⟩ :=
              Option.ne_none_iff_exists'.1 (h name keys List.mem_cons_self)
            simp [MapStep.entries, MapStep.keys, hname, Function.comp_def]
      rw [List.flatMap_cons, List.flatMap_cons, List.map_append, hs,
        ih fun name keys hmem => h name keys (List.mem_cons_of_mem s hmem)]

/-- When the table has what is taken from it, the steps are one batch. -/
theorem foldlM_stepTable {l : List (MapStep δ)}
    (h : ∀ name keys, MapStep.insertNamed name keys ∈ l →
      ∃ cType, named name = some cType ∧ t (.name name) = some cType) :
    l.foldlM stepTable t = insertAll t (l.flatMap (MapStep.entries named)) := by
  induction l generalizing t with
  | nil => rfl
  | cons s l ih =>
      have hs : stepTable t s = insertAll t (s.entries named) := by
        cases s with
        | insert key cType => rfl
        | newType cType => rfl
        | insertNamed name keys =>
            obtain ⟨cType, hname, ht⟩ := h name keys List.mem_cons_self
            rw [stepTable, ht, MapStep.entries, hname]
            rfl
      rw [List.foldlM_cons, List.flatMap_cons, insertAll_append, hs]
      cases hrun : insertAll t (s.entries named) with
      | none => rfl
      | some t₁ =>
          refine ih fun name keys hmem => ?_
          obtain ⟨cType, hname, ht⟩ := h name keys (List.mem_cons_of_mem s hmem)
          exact ⟨cType, hname, ((insertAll_eq_some hrun).2 _ _).2 (Or.inl ht)⟩

/-! ## Declarations and demands as batches -/

def BaseDeclaration.steps : BaseDeclaration δ → List (MapStep δ)
  | .register r => r.steps
  | .mirror r => r.steps

/-- The keys under which the declaration inserts. -/
def BaseDeclaration.keys (base : BaseDeclaration δ) : List MapKey :=
  base.steps.flatMap MapStep.keys

/-- The map of names has the array and pointer types that the declaration takes from
it, which `register` has put there for the type that is mirrored. -/
def BaseDeclaration.Ready (base : BaseDeclaration δ) (self : TypeMaps δ) : Prop :=
  ∀ name keys, MapStep.insertNamed name keys ∈ base.steps → self.nameMapOfCType name ≠ none

/-- The keys under which an unknown type of that spelling is inserted. -/
def unknownKeys (δ : Type) (nameSpace spelling : List Char) : List MapKey :=
  ((unknownType nameSpace spelling : Registration δ).steps).flatMap MapStep.keys

theorem Registration.steps_enter (r : Registration δ) :
    ∃ l, r.steps = r.enter r.swigType r.cType.name r.cType.name r.cType ++ l := by
  refine ⟨r.addNew r.cType ++ r.level1 ++ r.level2 ++
    if r.addLevel3Indirection then r.level3 else [], ?_⟩
  simp [Registration.steps, List.append_assoc]

/-- A step that takes nothing from the maps and inserts a type with the property. -/
def Makes (P : CTypeView δ → Prop) : MapStep δ → Prop
  | .insert _ cType => P cType
  | .insertNamed _ _ => False
  | .newType _ => True

theorem Makes.entries {P : CTypeView δ → Prop} {s : MapStep δ} (h : Makes P s) :
    ∀ p ∈ s.entries named, P p.2 := by
  intro p hp
  cases s with
  | insert key cType =>
      obtain rfl := List.mem_singleton.1 hp
      exact h
  | insertNamed name keys => exact h.elim
  | newType cType => cases hp

section Makes

variable {r : Registration δ} {P : CTypeView δ → Prop}

theorem enter_makes {c : CTypeView δ} (hc : P c) (swigKey cKey name : List Char) :
    ∀ s ∈ r.enter swigKey cKey name c, Makes P s := by
  intro s hs
  rw [Registration.enter] at hs
  rcases List.mem_cons.1 hs with rfl | hs
  · exact hc
  · rcases List.mem_append.1 hs with hs | hs
    · split_ifs at hs
      · obtain rfl := List.mem_singleton.1 hs
        exact hc
      · cases hs
    · obtain rfl := List.mem_singleton.1 hs
      exact hc

theorem addNew_makes (c : CTypeView δ) : ∀ s ∈ r.addNew c, Makes P s := by
  intro s hs
  rw [Registration.addNew] at hs
  split_ifs at hs
  · cases hs
  · obtain rfl := List.mem_singleton.1 hs
    trivial

/-- What is inserted is the type itself or a type that is made from it. -/
theorem Registration.steps_makes (hself : P r.cType)
    (harray : ∀ ns name c, P (.array ns name c)) (hpointer : ∀ ns name c, P (.pointer ns name c)) :
    ∀ s ∈ r.steps, Makes P s := by
  have hif : ∀ (b : Bool) (l : List (MapStep δ)), (∀ s ∈ l, Makes P s) →
      ∀ s ∈ if b then l else [], Makes P s := by
    intro b l hl s hs
    cases b with
    | false => cases hs
    | true => exact hl s hs
  have hlevel1 : ∀ s ∈ r.level1, Makes P s := by
    simp only [Registration.level1, List.forall_mem_append]
    refine ⟨⟨⟨⟨⟨hif _ _ ?_, ?_⟩, ?_⟩, addNew_makes _⟩, ?_⟩, ?_⟩
    · rw [List.forall_mem_append]
      exact ⟨enter_makes (harray _ _ _) _ _ _, addNew_makes _⟩
    · exact enter_makes (hpointer _ _ _) _ _ _
    · exact enter_makes (hpointer _ _ _) _ _ _
    · exact enter_makes (hpointer _ _ _) _ _ _
    · exact enter_makes (hpointer _ _ _) _ _ _
  have hlevel2 : ∀ s ∈ r.level2, Makes P s := by
    simp only [Registration.level2, List.forall_mem_append]
    refine ⟨⟨⟨⟨?_, addNew_makes _⟩, ?_⟩, ?_⟩, addNew_makes _⟩
    · exact enter_makes (harray _ _ _) _ _ _
    · exact enter_makes (hpointer _ _ _) _ _ _
    · exact enter_makes (hpointer _ _ _) _ _ _
  have hlevel3 : ∀ s ∈ r.level3, Makes P s := by
    simp only [Registration.level3, List.forall_mem_append]
    refine ⟨⟨⟨?_, addNew_makes _⟩, ?_⟩, addNew_makes _⟩
    · exact enter_makes (harray _ _ _) _ _ _
    · exact enter_makes (hpointer _ _ _) _ _ _
  simp only [Registration.steps, List.forall_mem_append]
  exact ⟨⟨⟨⟨enter_makes hself _ _ _, addNew_makes _⟩, hlevel1⟩, hlevel2⟩, hif _ _ hlevel3⟩

end Makes

theorem Registration.not_insertNamed (r : Registration δ) {name : List Char}
    {keys : List MapKey} : MapStep.insertNamed name keys ∉ r.steps := fun h =>
  Registration.steps_makes (P := fun _ => True) trivial (fun _ _ _ => trivial)
    (fun _ _ _ => trivial) _ h

/-- The batch of a registration. -/
def Registration.batch (r : Registration δ) : List (MapKey × CTypeView δ) :=
  r.steps.flatMap (MapStep.entries fun _ => none)

theorem Registration.batch_enter (r : Registration δ) :
    ∃ l, r.batch = (.swigType r.swigType, r.cType) ::
      ((if r.swigType ≠ r.cType.name then [(.swigType r.cType.name, r.cType)] else []) ++ l) := by
  obtain ⟨l, hl⟩ := r.steps_enter
  refine ⟨(.name r.cType.name, r.cType) :: l.flatMap (MapStep.entries fun _ => none), ?_⟩
  rw [Registration.batch, hl, Registration.enter]
  split_ifs <;> simp [MapStep.entries]

/-- What is put into the maps when a spelling is asked for and not found. -/
def unknownTypes (δ : Type) (nameSpace : List Char) :
    OnDemand MapKey (CTypeView δ) (List Char) where
  key spelling := .swigType spelling
  own spelling := .unknown nameSpace spelling
  batch spelling := (unknownType nameSpace spelling).batch
  own_mem spelling := by
    obtain ⟨l, hl⟩ := (unknownType nameSpace spelling : Registration δ).batch_enter
    rw [hl]
    by_cases h : (unknownType nameSpace spelling : Registration δ).swigType = spelling
    · rw [h]
      exact List.mem_cons_self
    · have hne : (unknownType nameSpace spelling : Registration δ).swigType ≠
          (unknownType nameSpace spelling : Registration δ).cType.name := h
      rw [if_pos hne]
      exact List.mem_cons_of_mem _ (List.mem_append_left _ List.mem_cons_self)
  own_ne x y hne p hp := by
    obtain ⟨s, hs, hps⟩ := List.mem_flatMap.1 hp
    have hmakes := Registration.steps_makes (r := unknownType nameSpace y)
      (P := fun c => c ≠ .unknown nameSpace x) (fun h => hne (CTypeView.unknown.inj h).2.symm)
      (fun _ _ _ h => by cases h) (fun _ _ _ h => by cases h) s hs
    exact hmakes.entries p hps

/-- `register` on the table. -/
theorem outcome_register (r : Registration δ) :
    outcome (register self r) = insertAll self.find r.batch := by
  have hsteps : outcome (r.steps.foldlM TypeMaps.step self) = insertAll self.find r.batch := by
    rw [outcome_foldlM stepTable (fun _ s => outcome_step s), Registration.batch]
    exact foldlM_stepTable fun name keys hmem => absurd hmem r.not_insertNamed
  rw [register]
  cases hfound : self.swigTypeMapOfCType r.swigType with
  | none => exact hsteps
  | some c =>
      obtain ⟨l, hl⟩ := r.batch_enter
      have hkey : ¬ self.find (.swigType r.swigType) = none := by
        show ¬ self.swigTypeMapOfCType r.swigType = none
        rw [hfound]
        exact Option.some_ne_none c
      rw [hl, insertAll, if_neg hkey]
      rfl

/-- What is taken from the maps for a declaration. -/
def BaseDeclaration.batch (base : BaseDeclaration δ) (self : TypeMaps δ) :
    List (MapKey × CTypeView δ) :=
  base.steps.flatMap (MapStep.entries self.nameMapOfCType)

/-- The declaration on the table. -/
def BaseDeclaration.runTable (base : BaseDeclaration δ) (t : Table MapKey (CTypeView δ)) :
    Option (Table MapKey (CTypeView δ)) :=
  match base with
  | .register r => insertAll t r.batch
  | .mirror r => r.steps.foldlM stepTable t

theorem outcome_run (base : BaseDeclaration δ) :
    outcome (base.run self) = base.runTable self.find := by
  cases base with
  | register r => exact outcome_register r
  | mirror r => exact outcome_foldlM stepTable (fun _ s => outcome_step s) _

theorem outcome_runTypeOp (nameSpace : List Char) (base : BaseDeclaration δ)
    (op : TableOp (List Char)) : outcome (runTypeOp nameSpace base self op) =
      op.run base.runTable (unknownTypes δ nameSpace) self.find := by
  cases op with
  | declare => exact outcome_run base
  | demand spelling =>
      show outcome ((demandCTypeFor nameSpace self spelling).map Prod.fst) =
        if self.swigTypeMapOfCType spelling = none then
          insertAll self.find (unknownType nameSpace spelling).batch
        else some self.find
      rw [demandCTypeFor]
      cases self.swigTypeMapOfCType spelling with
      | some c => rfl
      | none =>
          rw [← outcome_register]
          cases register self (unknownType nameSpace spelling) <;> rfl

/-- When the maps have what is taken from them, the declaration is a batch, whatever
they gain before it. -/
theorem BaseDeclaration.Ready.batch {base : BaseDeclaration δ} (h : base.Ready self)
    (t : Table MapKey (CTypeView δ)) (ht : Within self.find t) :
    base.runTable t = insertAll t (base.batch self) := by
  cases base with
  | register r =>
      have hbatch : ∀ l : List (MapStep δ), (∀ s ∈ l, Makes (fun _ => True) s) →
          l.flatMap (MapStep.entries fun _ => none) =
            l.flatMap (MapStep.entries self.nameMapOfCType) := by
        intro l hl
        refine List.flatMap_congr fun s hs => ?_
        cases s with
        | insert key cType => rfl
        | newType cType => rfl
        | insertNamed name keys => exact (hl _ hs).elim
      exact congrArg (insertAll t) (hbatch _ (Registration.steps_makes (P := fun _ => True) trivial
        (fun _ _ _ => trivial) fun _ _ _ => trivial))
  | mirror r =>
      refine foldlM_stepTable fun name keys hmem => ?_
      obtain ⟨cType, hname⟩ := Option.ne_none_iff_exists'.1 (h name keys hmem)
      exact ⟨cType, hname, ht (.name name) cType hname⟩

theorem BaseDeclaration.Ready.keys {base : BaseDeclaration δ} (h : base.Ready self) :
    (base.batch self).map Prod.fst = base.keys :=
  keys_entries fun name keys hmem => h name keys hmem

/-! ## What a mirror takes from the maps -/

/-- No name that is looked up is among those that were inserted before. -/
def LooksBack : List MapKey → List (MapStep δ) → Prop
  | _, [] => True
  | before, s :: l =>
      (∀ name keys, s = .insertNamed name keys → MapKey.name name ∉ before) ∧
        LooksBack (before ++ s.keys) l

theorem stepTable_keys {s : MapStep δ} (h : stepTable t s = some t') {k : MapKey}
    (hk : t' k ≠ none) : t k ≠ none ∨ k ∈ s.keys := by
  have hinsert : ∀ l : List (MapKey × CTypeView δ), insertAll t l = some t' →
      t k ≠ none ∨ k ∈ l.map Prod.fst := by
    intro l hl
    obtain ⟨v, hv⟩ := Option.ne_none_iff_exists'.1 hk
    rcases ((insertAll_eq_some hl).2 k v).1 hv with ht | hmem
    · exact Or.inl (by rw [ht]; exact Option.some_ne_none v)
    · exact Or.inr (List.mem_map.2 ⟨(k, v), hmem, rfl⟩)
  cases s with
  | insert key cType => exact hinsert _ h
  | newType cType =>
      obtain rfl := Option.some.inj h
      exact Or.inl hk
  | insertNamed name keys =>
      obtain ⟨cType, -, hl⟩ := Option.bind_eq_some_iff.1 h
      simpa [MapStep.keys, Function.comp_def] using hinsert _ hl

theorem LooksBack.found {before : List MapKey} {l : List (MapStep δ)} (hback : LooksBack before l)
    {t₁ : Table MapKey (CTypeView δ)} (hrun : l.foldlM stepTable t₁ = some t')
    (hold : ∀ k, t₁ k ≠ none → t k ≠ none ∨ k ∈ before) {name : List Char} {keys : List MapKey}
    (hmem : MapStep.insertNamed name keys ∈ l) : t (.name name) ≠ none := by
  induction l generalizing t₁ before with
  | nil => cases hmem
  | cons s l ih =>
      rw [List.foldlM_cons] at hrun
      obtain ⟨t₂, hs, hrest⟩ := Option.bind_eq_some_iff.1 hrun
      rcases List.mem_cons.1 hmem with rfl | hmem
      · obtain ⟨cType, hname, -⟩ := Option.bind_eq_some_iff.1 hs
        have hin : t₁ (.name name) ≠ none := by
          rw [hname]
          exact Option.some_ne_none cType
        exact (hold _ hin).resolve_right (hback.1 name keys rfl)
      · refine ih hback.2 hrest (fun k hk => ?_) hmem
        rcases stepTable_keys hs hk with hk | hk
        · exact (hold k hk).imp_right (List.mem_append_left _)
        · exact Or.inr (List.mem_append_right _ hk)

/-- The characters that are put behind a name. -/
def nameMarks : List Char := ['*', '[', ']', '&']

theorem append_marks_ne {m q suf suf' : List Char} (hq : ∀ x ∈ q, x ∉ nameMarks)
    (hsuf : ∀ x ∈ suf, x ∈ nameMarks) (h : ¬ suf.reverse <+: suf'.reverse) :
    m ++ suf ≠ q ++ suf' := by
  intro e
  have hrev : suf.reverse ++ m.reverse = suf'.reverse ++ q.reverse := by
    simpa using congrArg List.reverse e
  rcases List.append_eq_append_iff.1 hrev with ⟨l, hl, -⟩ | ⟨l, hl, hq'⟩
  · exact h ⟨l, hl.symm⟩
  · cases l with
    | nil => exact h ⟨[], by simpa using hl⟩
    | cons x l =>
        -- The first of the marks that are left is the last character of `q`.
        have hxq : x ∈ q := List.mem_reverse.1 (hq' ▸ List.mem_cons_self)
        have hxsuf : x ∈ suf := by
          refine List.mem_reverse.1 ?_
          rw [hl]
          exact List.mem_append_right _ List.mem_cons_self
        exact hq x hxq (hsuf x hxsuf)

theorem not_mem_nameMarks {x : Char} (h : x.isAlphanum ∨ x = '_') : x ∉ nameMarks := by
  intro hmem
  simp only [nameMarks, List.mem_cons, List.not_mem_nil, or_false] at hmem
  rcases hmem with rfl | rfl | rfl | rfl <;> revert h <;> decide

theorem Mirror.looksBack (r : Mirror δ) : LooksBack [] r.steps := by
  obtain ⟨⟨p, hp⟩, c, T, createArray⟩ := r
  have hname : ∀ suf suf' : List Char, (∀ x ∈ suf, x ∈ nameMarks) →
      ¬ suf.reverse <+: suf'.reverse → c.name ++ suf ≠ p ++ suf' :=
    fun suf suf' => append_marks_ne fun x hx => not_mem_nameMarks (hp x hx)
  have hconst : ∀ suf suf' : List Char, (∀ x ∈ suf, x ∈ nameMarks) →
      ¬ suf.reverse <+: suf'.reverse →
        c.name ++ suf ≠ 'c' :: 'o' :: 'n' :: 's' :: 't' :: ' ' :: (p ++ suf') := by
    intro suf suf' hsuf hne
    refine append_marks_ne (q := 'c' :: 'o' :: 'n' :: 's' :: 't' :: ' ' :: p) (fun x hx => ?_)
      hsuf hne
    simp only [List.mem_cons] at hx
    rcases hx with rfl | rfl | rfl | rfl | rfl | rfl | hx
    all_goals first | decide | exact not_mem_nameMarks (hp x hx)
  have hplain : ∀ suf : List Char, (∀ x ∈ suf, x ∈ nameMarks) → suf ≠ [] → c.name ++ suf ≠ p := by
    intro suf hsuf hne e
    exact hname suf [] hsuf (by simpa using hne) (by simpa using e)
  have harray : ∀ x ∈ ['[', ']'], x ∈ nameMarks := by simp [nameMarks]
  have hstar : ∀ x ∈ ['*'], x ∈ nameMarks := by simp [nameMarks]
  have hstarArray : ∀ x ∈ ['*', '[', ']'], x ∈ nameMarks := by simp [nameMarks]
  have hstars : ∀ x ∈ ['*', '*'], x ∈ nameMarks := by simp [nameMarks]
  have hpointer : c.name ++ ['*', '*'] ≠ p ∧ c.name ++ ['*', '*'] ≠ p ++ ['*'] ∧
      c.name ++ ['*', '*'] ≠ 'c' :: 'o' :: 'n' :: 's' :: 't' :: ' ' :: (p ++ ['*']) ∧
      c.name ++ ['*', '*'] ≠ p ++ ['&'] ∧
      c.name ++ ['*', '*'] ≠ 'c' :: 'o' :: 'n' :: 's' :: 't' :: ' ' :: (p ++ ['&']) :=
    ⟨hplain _ hstars (by simp), hname _ _ hstars (by decide), hconst _ _ hstars (by decide),
      hname _ _ hstars (by decide), hconst _ _ hstars (by decide)⟩
  cases createArray with
  | false =>
      simp [Mirror.steps, LooksBack, MapStep.keys]
      exact ⟨hplain _ hstar (by simp), hpointer⟩
  | true =>
      simp [Mirror.steps, LooksBack, MapStep.keys]
      refine ⟨hplain _ harray (by simp), ⟨hplain _ hstar (by simp), hname _ _ hstar (by decide)⟩,
        ⟨hplain _ hstarArray (by simp), hname _ _ hstarArray (by decide),
          hname _ _ hstarArray (by decide), hconst _ _ hstarArray (by decide),
          hname _ _ hstarArray (by decide), hconst _ _ hstarArray (by decide)⟩,
        hpointer.1, hname _ _ hstars (by decide), hpointer.2⟩

/-- A declaration that ends without an exception has found what it takes. -/
theorem ready_of_runTable {base : BaseDeclaration δ} (h : base.runTable self.find = some t') :
    base.Ready self := by
  intro name keys hmem
  cases base with
  | register r => exact absurd hmem r.not_insertNamed
  | mirror r => exact r.looksBack.found (t := self.find) h (fun _ hk => Or.inl hk) hmem

/-! ## Every order -/

/-- The keys that are inserted for the declaration and for the missing spellings are
all different, and none of them is in the maps. -/
structure KeysApart (nameSpace : List Char) (maps : TypeMaps δ) (base : BaseDeclaration δ)
    (spellings : List (List Char)) : Prop where
  ready : base.Ready maps
  base_new : base.keys.Nodup ∧ ∀ key ∈ base.keys, maps.find key = none
  spelling_new : ∀ x ∈ spellings, maps.swigTypeMapOfCType x = none →
    (unknownKeys δ nameSpace x).Nodup ∧ ∀ key ∈ unknownKeys δ nameSpace x, maps.find key = none
  from_base : ∀ x ∈ spellings, maps.swigTypeMapOfCType x = none →
    ∀ key ∈ base.keys, key ∉ unknownKeys δ nameSpace x
  from_each_other : ∀ x ∈ spellings, maps.swigTypeMapOfCType x = none → ∀ y ∈ spellings,
    maps.swigTypeMapOfCType y = none → x ≠ y →
      ∀ key ∈ unknownKeys δ nameSpace x, key ∉ unknownKeys δ nameSpace y

theorem fresh_iff {l : List (MapKey × CTypeView δ)} {keys : List MapKey}
    (hkeys : l.map Prod.fst = keys) :
    Fresh t l ↔ keys.Nodup ∧ ∀ key ∈ keys, t key = none := by
  subst hkeys
  simp [Fresh]

theorem apart_iff {l l' : List (MapKey × CTypeView δ)} {keys keys' : List MapKey}
    (hkeys : l.map Prod.fst = keys) (hkeys' : l'.map Prod.fst = keys') :
    (∀ p ∈ l, ∀ q ∈ l', p.1 ≠ q.1) ↔ ∀ key ∈ keys, key ∉ keys' := by
  subst hkeys hkeys'
  constructor
  · intro h key hkey hkey'
    obtain ⟨p, hp, rfl⟩ := List.mem_map.1 hkey
    obtain ⟨q, hq, e⟩ := List.mem_map.1 hkey'
    exact h p hp q hq e.symm
  · intro h p hp q hq e
    exact h p.1 (List.mem_map_of_mem hp) (e ▸ List.mem_map_of_mem hq)

theorem unknownTypes_keys (nameSpace x : List Char) :
    ((unknownTypes δ nameSpace).batch x).map Prod.fst = unknownKeys δ nameSpace x :=
  keys_entries fun _ _ hmem => absurd hmem (Registration.not_insertNamed _)

theorem separate_iff {nameSpace : List Char} {base : BaseDeclaration δ}
    {spellings : List (List Char)} (hready : base.Ready self) :
    Separate (unknownTypes δ nameSpace) self.find (base.batch self) spellings ↔
      KeysApart nameSpace self base spellings := by
  have hbase := hready.keys
  have hunknown := unknownTypes_keys (δ := δ) nameSpace
  constructor
  · intro h
    exact {
      ready := hready
      base_new := (fresh_iff hbase).1 h.declared
      spelling_new := fun x hx hm => (fresh_iff (hunknown x)).1 (h.demanded x hx hm)
      from_base := fun x hx hm => (apart_iff hbase (hunknown x)).1 (h.fromDeclared x hx hm)
      from_each_other := fun x hx hm y hy hn hne =>
        (apart_iff (hunknown x) (hunknown y)).1 (h.fromEachOther x hx hm y hy hn hne) }
  · intro h
    exact {
      declared := (fresh_iff hbase).2 h.base_new
      demanded := fun x hx hm => (fresh_iff (hunknown x)).2 (h.spelling_new x hx hm)
      fromDeclared := fun x hx hm => (apart_iff hbase (hunknown x)).2 (h.from_base x hx hm)
      fromEachOther := fun x hx hm y hy hn hne =>
        (apart_iff (hunknown x) (hunknown y)).2 (h.from_each_other x hx hm y hy hn hne) }

theorem outcome_eq_some {e : Except TypeFault (TypeMaps δ)} (h : outcome e = some t') :
    ∃ self', e = .ok self' ∧ self'.find = t' := by
  cases e with
  | error fault => cases h
  | ok self' => exact ⟨self', rfl, Option.some.inj h⟩

/-- Orders of the operations on the maps are orders of those on the table. -/
theorem orderIndependent_iff_orderFree (nameSpace : List Char) (base : BaseDeclaration δ)
    (spellings : List (List Char)) : OrderIndependent nameSpace self base spellings ↔
      OrderFree base.runTable (unknownTypes δ nameSpace) self.find spellings := by
  have houtcome : ∀ ops : List (TableOp (List Char)),
      outcome (ops.foldlM (runTypeOp nameSpace base) self) =
        ops.foldlM (TableOp.run base.runTable (unknownTypes δ nameSpace)) self.find :=
    fun ops => outcome_foldlM _ (fun _ op => outcome_runTypeOp nameSpace base op) ops
  constructor
  · rintro ⟨maps, h⟩
    refine ⟨maps.find, fun ops hops => ?_⟩
    obtain ⟨self', hrun, hswig, hname⟩ := h ops hops
    rw [← houtcome ops, hrun]
    refine congrArg some (funext fun key => ?_)
    cases key with
    | swigType text => exact congrFun hswig text
    | name text => exact congrFun hname text
  · rintro ⟨t', h⟩
    refine ⟨⟨fun text => t' (.swigType text), fun text => t' (.name text), []⟩, fun ops hops => ?_⟩
    obtain ⟨self', hrun, hfind⟩ := outcome_eq_some ((houtcome ops).trans (h ops hops))
    exact ⟨self', hrun, funext fun text => congrFun hfind (.swigType text),
      funext fun text => congrFun hfind (.name text)⟩

/-- The order in which a name is declared and spellings are asked for makes no
difference, and raises no exception, if and only if the keys are apart. -/
theorem orderIndependent_iff (nameSpace : List Char) (self : TypeMaps δ)
    (base : BaseDeclaration δ) (spellings : List (List Char)) :
    OrderIndependent nameSpace self base spellings ↔ KeysApart nameSpace self base spellings := by
  rw [orderIndependent_iff_orderFree]
  constructor
  · intro h
    have hready : base.Ready self := by
      obtain ⟨t', hall⟩ := h
      have hrun := hall _ (List.Perm.refl _)
      rw [List.foldlM_cons] at hrun
      obtain ⟨t₁, hfirst, -⟩ := Option.bind_eq_some_iff.1 hrun
      exact ready_of_runTable hfirst
    exact (separate_iff hready).1 ((orderFree_iff hready.batch).1 h)
  · intro h
    exact (orderFree_iff h.ready.batch).2 ((separate_iff h.ready).2 h)

def emptyMaps : TypeMaps Unit := ⟨fun _ => none, fun _ => none, []⟩

/-- `struct Foo`. -/
def structFoo : Registration Unit where
  cType := .declared () [] ['F', 'o', 'o']
  toSwigType := ['F', 'o', 'o']
  isCoreCType := false
  createArrayType := true
  addLevel3Indirection := false

/-- When a pointer to a struct is asked for first, registering the struct raises an
exception. -/
theorem register_after_pointer : ¬ OrderIndependent [] emptyMaps (.register structFoo)
    [['p', '.', 'F', 'o', 'o']] := by
  rintro ⟨maps, h⟩
  obtain ⟨self', hrun, -⟩ := h [.demand ['p', '.', 'F', 'o', 'o'], .declare]
    (List.Perm.swap _ _ _)
  have herror : [TableOp.demand ['p', '.', 'F', 'o', 'o'], .declare].foldlM
      (runTypeOp [] (.register structFoo)) emptyMaps = .error .constraintError := rfl
  rw [herror] at hrun
  cases hrun

end Swig4Ada.Ada

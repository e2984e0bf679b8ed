import Swig4Ada.Ada.RequiredTypes

/-!
# The required types of a class and of a record

The function for a class gathers the components that it should leave out. The function for a
record leaves them out, but sets each type in the place of its component, so that a place is
not set where a component before it is left out.
-/

namespace Swig4Ada.Ada

/-! ## Of a class -/

namespace CObjects

variable {τ φ : Type} [DecidableEq τ] (C : CObjects τ φ)

/-- The places before `count` are set, and there is one left for each component. -/
theorem classTypesLoop_eq (self : τ) (components : List τ) {written : List (Option τ)} {rest : Nat}
    (hrest : components.length ≤ rest) :
    ∃ m, C.classTypesLoop self components (written ++ List.replicate rest none) written.length =
      (written ++ (components.filter (isSelfPointer C.heap self)).map (some ∘ C.resolvedType) ++
          List.replicate m none,
        written.length + (components.filter (isSelfPointer C.heap self)).length) := by
  induction components generalizing written rest with
  | nil => exact ⟨rest, by rw [classTypesLoop]; simp⟩
  | cons component components ih =>
      rw [List.length_cons] at hrest
      rw [classTypesLoop]
      by_cases hself : isSelfPointer C.heap self component
      · obtain ⟨rest, rfl⟩ : ∃ k, rest = k + 1 := ⟨rest - 1, by omega⟩
        have hset : (written ++ List.replicate (rest + 1) none).set written.length
            (some (C.resolvedType component)) =
            written ++ [some (C.resolvedType component)] ++ List.replicate rest none := by
          rw [List.set_append_right _ _ (Nat.le_refl _), Nat.sub_self, List.replicate_succ,
            List.set_cons_zero, List.append_assoc]
          rfl
        obtain ⟨m, hloop⟩ := @ih (written ++ [some (C.resolvedType component)]) rest (by omega)
        rw [List.length_append, List.length_singleton] at hloop
        refine ⟨m, ?_⟩
        rw [if_pos hself, hset, hloop, List.filter_cons_of_pos hself, List.map_cons,
          List.length_cons]
        refine Prod.ext ?_ ?_
        · simp only [List.append_assoc, List.nil_append, Function.comp_apply, List.cons_append]
        · simp only
          omega
      · rw [if_neg hself, List.filter_cons_of_neg hself]
        exact ih (by omega)

theorem requiredTypes_class {self : τ} {components : List τ}
    (h : C.heap self = .cClass components) :
    C.requiredTypes self =
      (components.filter (isSelfPointer C.heap self)).map (some ∘ C.resolvedType) := by
  obtain ⟨m, hloop⟩ := @classTypesLoop_eq _ _ _ C self components [] components.length
    (Nat.le_refl _)
  rw [List.nil_append, List.nil_append, List.length_nil, Nat.zero_add] at hloop
  rw [requiredTypes, h]
  dsimp only
  rw [hloop]
  dsimp only
  rw [List.take_left' (List.length_map _)]

/-- A pointer to the class is resolved to itself or to the class. -/
theorem resolvedType_selfPointer {self component : τ} {components : List τ}
    (h : C.heap self = .cClass components) (hself : isSelfPointer C.heap self component = true) :
    C.resolvedType component = component ∨ C.resolvedType component = self := by
  have hpointer : C.heap component = .typePointer self := by
    unfold isSelfPointer at hself
    split at hself
    · next accessed hheap => rw [hheap, of_decide_eq_true hself]
    · exact absurd hself (by decide)
  have hlt := C.accessedType_lt hpointer
  obtain ⟨n, hn⟩ : ∃ n, C.order component = n + 1 := ⟨C.order component - 1, by omega⟩
  rw [resolvedType, hn, resolvedFrom]
  by_cases himport : C.headerImport component
  · rw [if_pos himport, hpointer]
    refine Or.inr ?_
    show C.resolvedFrom n self = self
    cases n with
    | zero => rfl
    | succ n =>
        rw [resolvedFrom, h]
        exact ite_self _
  · rw [if_neg himport]
    exact Or.inl rfl

theorem requiredTypes_right_iff {self : τ} {components : List τ}
    (h : C.heap self = .cClass components) :
    C.requiredTypes self = otherTypes (isSelfPointer C.heap self) components ↔
      components = [] := by
  rw [C.requiredTypes_class h, otherTypes]
  constructor
  · intro heq
    -- no type is gathered by both
    have hnone : ∀ t, t ∉ components.filter fun t => !isSelfPointer C.heap self t := by
      intro t ht
      have hmem : some t ∈ (components.filter (isSelfPointer C.heap self)).map
          (some ∘ C.resolvedType) := heq ▸ List.mem_map_of_mem ht
      obtain ⟨p, hp, hpt⟩ := List.mem_map.1 hmem
      have hresolved : C.resolvedType p = t := Option.some.inj hpt
      obtain ⟨htc, hother⟩ := List.mem_filter.1 ht
      obtain ⟨-, hself⟩ := List.mem_filter.1 hp
      rcases C.resolvedType_selfPointer h hself with hp' | hp'
      · rw [← hresolved, hp', hself] at hother
        exact absurd hother (by decide)
      · rw [← hresolved, hp'] at htc
        exact C.component_ne h htc
    have hothers := List.eq_nil_iff_forall_not_mem.2 hnone
    rw [hothers, List.map_nil, List.map_eq_nil_iff] at heq
    refine List.eq_nil_iff_forall_not_mem.2 fun t ht => ?_
    by_cases hself : isSelfPointer C.heap self t
    · exact absurd (List.mem_filter.2 ⟨ht, hself⟩) (heq ▸ List.not_mem_nil)
    · exact hnone t (List.mem_filter.2 ⟨ht, by simpa using hself⟩)
  · rintro rfl
    rfl

end CObjects

/-! ## Of a record -/

namespace AdaObjects

variable {T S P : Type} [DecidableEq T] (M : AdaObjects T S P)

theorem recordTypesLoop_eq (self : T) (components : List T) {written : List (Option T)}
    {count : Nat} :
    M.recordTypesLoop self written.length components
        (written ++ List.replicate components.length none) count =
      (written ++ components.map (fun t => if M.isSelfReference self t then none else some t),
        count + (components.filter fun t => !M.isSelfReference self t).length) := by
  induction components generalizing written count with
  | nil => rw [recordTypesLoop]; simp
  | cons component components ih =>
      rw [recordTypesLoop, List.length_cons, List.replicate_succ]
      by_cases hself : M.isSelfReference self component
      · have hrest := @ih (written ++ [none]) count
        rw [List.length_append, List.length_singleton, List.append_assoc] at hrest
        rw [if_pos hself, List.map_cons, if_pos hself,
          List.filter_cons_of_neg (by rw [hself]; decide)]
        rw [List.singleton_append] at hrest
        rw [hrest, List.append_assoc]
        rfl
      · have hset : (written ++ none :: List.replicate components.length none).set written.length
            (some component) = written ++ [some component] ++ List.replicate components.length none := by
          rw [List.set_append_right _ _ (Nat.le_refl _), Nat.sub_self, List.set_cons_zero,
            List.append_assoc]
          rfl
        have hrest := @ih (written ++ [some component]) (count + 1)
        rw [List.length_append, List.length_singleton] at hrest
        rw [if_neg hself, hset, hrest, List.map_cons, if_neg hself,
          List.filter_cons_of_pos (by simpa using hself), List.length_cons, List.append_assoc]
        refine Prod.ext rfl ?_
        simp only
        omega

theorem recordRequiredTypes_eq (self : T) (components : List T) :
    M.recordRequiredTypes self components =
      (components.map fun t => if M.isSelfReference self t then none else some t).take
        (components.filter fun t => !M.isSelfReference self t).length := by
  have hloop := @recordTypesLoop_eq _ _ _ _ M self components [] 0
  rw [List.length_nil, List.nil_append, List.nil_append, Nat.zero_add] at hloop
  rw [recordRequiredTypes, hloop]

end AdaObjects

/-- The first places hold the types that are not left out when no other is before them. -/
theorem take_set_iff {α : Type} (leftOut : α → Bool) (components : List α) :
    (components.map fun t => if leftOut t then none else some t).take
        (components.filter fun t => !leftOut t).length = otherTypes leftOut components ↔
      LeftOutLast leftOut components := by
  unfold otherTypes LeftOutLast
  induction components with
  | nil => exact ⟨fun _ => List.Pairwise.nil, fun _ => rfl⟩
  | cons t components ih =>
      rw [List.pairwise_cons, List.map_cons]
      by_cases ht : leftOut t = true
      · rw [if_pos ht, List.filter_cons_of_neg (by rw [ht]; decide)]
        constructor
        · intro heq
          cases hothers : components.filter fun t => !leftOut t with
          | nil =>
              have hall : ∀ t' ∈ components, leftOut t' = true := by
                intro t' ht'
                by_contra hnot
                have hmem : t' ∈ components.filter fun t => !leftOut t :=
                  List.mem_filter.2 ⟨ht', by simpa using hnot⟩
                rw [hothers] at hmem
                exact absurd hmem List.not_mem_nil
              exact ⟨fun t' ht' _ => hall t' ht',
                List.pairwise_of_forall_mem_list fun _ _ t' ht' _ => hall t' ht'⟩
          | cons t' others =>
              rw [hothers, List.length_cons, List.take_succ_cons, List.map_cons] at heq
              exact nomatch (List.cons.inj heq).1
        · rintro ⟨hall, -⟩
          have hothers : (components.filter fun t => !leftOut t) = [] := by
            refine List.filter_eq_nil_iff.2 fun t' ht' => ?_
            rw [hall t' ht' ht]
            decide
          rw [hothers]
          rfl
      · rw [if_neg ht, List.filter_cons_of_pos (by simpa using ht), List.length_cons,
          List.take_succ_cons, List.map_cons, List.cons.injEq, ih]
        exact ⟨fun h => ⟨fun _ _ h' => absurd h' ht, h.2⟩, fun h => ⟨rfl, h.2⟩⟩

/-! ## The results -/

section Required

variable {τ φ T S P : Type} [DecidableEq τ] [DecidableEq T]

/-- What the two functions gather is what they should where there is no component at all, and
where the components that are left out come last. -/
theorem required_iff (C : CObjects τ φ) (M : AdaObjects T S P) {cClass : τ}
    {cComponents : List τ} (h : C.heap cClass = .cClass cComponents) (aRecord : T)
    (components : List T) :
    (C.requiredTypes cClass = otherTypes (isSelfPointer C.heap cClass) cComponents ↔
        cComponents = []) ∧
      (M.recordRequiredTypes aRecord components =
          otherTypes (M.isSelfReference aRecord) components ↔
        LeftOutLast (M.isSelfReference aRecord) components) := by
  rw [M.recordRequiredTypes_eq, take_set_iff]
  exact ⟨C.requiredTypes_right_iff h, Iff.rfl⟩

end Required

/-- `struct list { struct list *next; int item; };` in C. -/
def listClass : CObjects (Fin 3) Empty where
  heap t := if t = 0 then .cClass [1, 2] else if t = 1 then .typePointer 0 else .standardCType
  headerImport _ := false
  function f := nomatch f
  order t := t
  elementType_lt {t made} h := by revert h; fin_cases t <;> fin_cases made <;> decide
  accessedType_lt {t made} h := by revert h; fin_cases t <;> fin_cases made <;> decide
  baseType_lt {t made} h := by revert h; fin_cases t <;> fin_cases made <;> decide
  pointeeType_lt {t made} h := by revert h; fin_cases t <;> fin_cases made <;> decide
  component_ne {t components} h := by
    revert h
    fin_cases t
    · intro h
      obtain rfl : [1, 2] = components := CType.cClass.inj h
      decide
    · exact nofun
    · exact nofun

theorem neZero_four : NeZero 4 := ⟨by decide⟩

attribute [local instance] neZero_four in
/-- The same in Ada: the record, the pointer to it, the subtype of the pointer, the integer. -/
def listRecord : AdaObjects (Fin 4) Empty Empty where
  type t :=
    if t = 0 then .aRecord [2, 3] else if t = 1 then .interfacesCPointer 0 none
    else if t = 2 then .aSubtype 1 else .scalar
  declarationPackage _ := none
  subprogram s := nomatch s
  package p := nomatch p
  order t := t
  baseType_lt {t base} h := by revert h; fin_cases t <;> fin_cases base <;> decide

theorem required_iff_list :
    (listClass.requiredTypes 0 = otherTypes (isSelfPointer listClass.heap 0) [1, 2] ↔
        ([1, 2] : List (Fin 3)) = []) ∧
      (listRecord.recordRequiredTypes 0 [2, 3] =
          otherTypes (listRecord.isSelfReference 0) [2, 3] ↔
        LeftOutLast (listRecord.isSelfReference 0) [2, 3]) :=
  required_iff listClass listRecord rfl 0 [2, 3]

/-- The class gathers the pointer to itself, and the record a place that is not set. -/
theorem self_pointer_required :
    listClass.requiredTypes 0 = [some 1] ∧
      otherTypes (isSelfPointer listClass.heap 0) [1, 2] = [some 2] ∧
      listRecord.recordRequiredTypes 0 [2, 3] = [none] ∧
      otherTypes (listRecord.isSelfReference 0) [2, 3] = [some 3] := by
  decide

end Swig4Ada.Ada

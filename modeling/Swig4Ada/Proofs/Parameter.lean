import Swig4Ada.Ada.Parameter

/-!
# When the names of parameters are distinct

The name of a parameter is made from its C name alone, so parameters with one C name get
one name. The only other clash is that of a parameter without a name with one that is
called what the first is given.
-/

namespace Swig4Ada.Ada

/-- The C names of the parameters. -/
def cNames (parameterList : List Parm) : List (List Char) :=
  parameterList.map Parm.nameAttribute

/-- What a C name becomes in a list of C names. -/
def nameIn (names : List (List Char)) (name : List Char) : List Char :=
  if name = [] ∨ 1 < names.count name then name ++ argSuffix (names.count name) else name

theorem makeParameterName_eq (parameterList : List Parm) (p : Parm) :
    makeParameterName parameterList p = nameIn (cNames parameterList) p.nameAttribute := by
  have hcount : (parameterList.countP fun parameter =>
      decide (p.nameAttribute = parameter.nameAttribute)) =
      (cNames parameterList).count p.nameAttribute := by
    rw [cNames, List.count, List.countP_map]
    congr 1
    funext parameter
    rw [Function.comp_apply, Bool.eq_iff_iff, beq_iff_eq, decide_eq_true_iff]
    exact eq_comm
  rw [makeParameterName, hcount]
  rfl

theorem parameterNames_eq (parameterList : List Parm) :
    parameterNames parameterList = (cNames parameterList).map (nameIn (cNames parameterList)) := by
  rw [parameterNames, cNames, List.map_map]
  exact List.map_congr_left fun p _ => makeParameterName_eq parameterList p

theorem nameIn_unnamed {names : List (List Char)} (hnodup : names.Nodup) (h : [] ∈ names) :
    nameIn names [] = argSuffix 1 := by
  rw [nameIn, if_pos (Or.inl rfl), List.count_eq_one_of_mem hnodup h]
  rfl

theorem nameIn_named {names : List (List Char)} (hnodup : names.Nodup) {name : List Char}
    (hname : name ≠ []) (h : name ∈ names) : nameIn names name = name := by
  have hcount := List.count_eq_one_of_mem hnodup h
  rw [nameIn, if_neg]
  rintro (hnil | hmore)
  · exact hname hnil
  · omega

/-- No two parameters have one name, and where one has none, no other is called `arg_1`. -/
def NamesApart (parameterList : List Parm) : Prop :=
  (cNames parameterList).Nodup ∧
    ¬ ([] ∈ cNames parameterList ∧ argSuffix 1 ∈ cNames parameterList)

theorem parameterNames_nodup_iff (parameterList : List Parm) :
    (parameterNames parameterList).Nodup ↔ NamesApart parameterList := by
  rw [parameterNames_eq, NamesApart]
  generalize cNames parameterList = names
  constructor
  · intro h
    have hnodup : names.Nodup := h.of_map
    refine ⟨hnodup, ?_⟩
    rintro ⟨hunnamed, hnamed⟩
    have hne : argSuffix 1 ≠ [] := List.cons_ne_nil _ _
    have hclash : nameIn names [] = nameIn names (argSuffix 1) := by
      rw [nameIn_unnamed hnodup hunnamed, nameIn_named hnodup hne hnamed]
    exact hne (List.inj_on_of_nodup_map h hunnamed hnamed hclash).symm
  · rintro ⟨hnodup, hapart⟩
    refine List.Nodup.map_on ?_ hnodup
    intro x hx y hy hxy
    by_cases hx0 : x = []
    · subst hx0
      by_cases hy0 : y = []
      · exact hy0.symm
      · rw [nameIn_unnamed hnodup hx, nameIn_named hnodup hy0 hy] at hxy
        exact absurd ⟨hx, hxy ▸ hy⟩ hapart
    · by_cases hy0 : y = []
      · subst hy0
        rw [nameIn_unnamed hnodup hy, nameIn_named hnodup hx0 hx] at hxy
        exact absurd ⟨hy, hxy ▸ hx⟩ hapart
      · rwa [nameIn_named hnodup hx0 hx, nameIn_named hnodup hy0 hy] at hxy

/-- The parameters of `void f (int, int)`. -/
theorem repeatedName_clashes :
    ¬ ∀ parameterList : List Parm, (parameterNames parameterList).Nodup := by
  intro h
  have hclash := h [⟨none⟩, ⟨none⟩]
  rw [parameterNames_eq] at hclash
  exact List.not_nodup_cons_of_mem (List.mem_singleton.2 rfl) hclash

end Swig4Ada.Ada

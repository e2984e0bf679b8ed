import Swig4Ada.Ada.Enumeration

/-!
# The Ada enumeration of a C enum

The transformer's loop keeps one fact: the literals are the first enumerators
with their values, the map names them by value, and the constants carry the rest.
Since the conversion of a C identifier is idempotent, `verify` changes no name a
constant refers to; the sort then only permutes. The values are therefore always
in order and no enumerator is lost. What can go wrong is the names: nothing
compares two literals, and the new name of a type is not compared with anything.
-/

namespace Swig4Ada.Ada

/-! ## The first enumerators with their values -/

theorem firstOfValues_append (ls : List EnumLiteral) (l : EnumLiteral) :
    firstOfValues (ls ++ [l]) =
      firstOfValues ls ++ if ∃ r ∈ ls, r.value = l.value then [] else [l] := by
  induction ls with
  | nil => simp [firstOfValues]
  | cons r ls ih =>
      rw [List.cons_append, firstOfValues, ih, firstOfValues, List.filter_append]
      by_cases hr : r.value = l.value
      · simp [hr]
      · by_cases hls : ∃ s ∈ ls, s.value = l.value
        · simp [hr, hls]
        · simp only [hls, if_false, List.cons_append, List.mem_cons, exists_eq_or_imp, hr,
            false_or]
          simp [Ne.symm hr]

theorem mem_of_mem_firstOfValues {ls : List EnumLiteral} {l : EnumLiteral}
    (h : l ∈ firstOfValues ls) : l ∈ ls := by
  induction ls with
  | nil => cases h
  | cons r ls ih =>
      rw [firstOfValues, List.mem_cons, List.mem_filter] at h
      rcases h with rfl | ⟨h, -⟩
      · exact List.mem_cons_self
      · exact List.mem_cons_of_mem r (ih h)

theorem exists_value_firstOfValues {ls : List EnumLiteral} {v : Int} :
    (∃ l ∈ firstOfValues ls, l.value = v) ↔ ∃ l ∈ ls, l.value = v := by
  induction ls with
  | nil => simp [firstOfValues]
  | cons r ls ih =>
      rw [firstOfValues]
      simp only [List.mem_cons, exists_eq_or_imp, List.mem_filter, decide_eq_true_eq, ← ih]
      by_cases hr : r.value = v
      · simp [hr]
      · constructor
        · rintro (h | ⟨l, ⟨hl, -⟩, hv⟩)
          · exact absurd h hr
          · exact Or.inr ⟨l, hl, hv⟩
        · rintro (h | ⟨l, hl, hv⟩)
          · exact absurd h hr
          · refine Or.inr ⟨l, ⟨hl, ?_⟩, hv⟩
            rw [hv]
            exact fun e => hr e.symm

theorem firstOfValues_distinct (ls : List EnumLiteral) :
    (firstOfValues ls).Pairwise fun l r => l.value ≠ r.value := by
  induction ls with
  | nil => exact List.Pairwise.nil
  | cons l ls ih =>
      rw [firstOfValues]
      refine List.pairwise_cons.2 ⟨fun r hr => ?_, ih.filter _⟩
      have hne := (List.mem_filter.1 hr).2
      rw [decide_eq_true_eq] at hne
      exact hne.symm

/-! ## The loop of the transformer -/

section Names

-- The proofs are about any names: how one is converted does not matter to them.
attribute [local irreducible] toAdaIdentifier

/-- The state of the loop when the literals of `seen` are behind it. -/
structure Transformed (seen : List EnumLiteral) (state : Enumeration × LiteralMap) : Prop where
  literals : state.1.literals = (firstOfValues seen).map EnumLiteral.inAda
  named : ∀ v n, state.2 v = some n ↔ ⟨n, v⟩ ∈ state.1.literals
  carries : state.1.Carries seen

theorem Transformed.step {seen : List EnumLiteral} {state : Enumeration × LiteralMap}
    (h : Transformed seen state) (l : EnumLiteral) :
    Transformed (seen ++ [l]) (transformLiteral state l) := by
  obtain ⟨hlit, hnamed, carried, hcarried, hperm⟩ := h
  have hknown : (∃ n, state.2 l.value = some n) ↔ ∃ r ∈ seen, r.value = l.value := by
    rw [← exists_value_firstOfValues]
    simp only [hnamed, hlit, List.mem_map]
    constructor
    · rintro ⟨n, r, hr, he⟩
      exact ⟨r, hr, by simpa [EnumLiteral.inAda] using congrArg EnumLiteral.value he⟩
    · rintro ⟨r, hr, hv⟩
      exact ⟨toAdaIdentifier r.name, r, hr, by rw [EnumLiteral.inAda, hv]⟩
  cases hv : state.2 l.value with
  | some n =>
      have hseen : ∃ r ∈ seen, r.value = l.value := hknown.1 ⟨n, hv⟩
      simp only [transformLiteral, hv]
      refine ⟨?_, hnamed, carried ++ [l.inAda], ?_, ?_⟩
      · rw [firstOfValues_append, if_pos hseen, List.append_nil]
        exact hlit
      · exact List.rel_append hcarried
          (List.Forall₂.cons ⟨rfl, (hnamed _ _).1 hv⟩ List.Forall₂.nil)
      · rw [← List.append_assoc, List.map_append]
        exact hperm.append_right _
  | none =>
      have hseen : ¬ ∃ r ∈ seen, r.value = l.value := by
        rw [← hknown, hv]
        rintro ⟨n, hn⟩
        cases hn
      simp only [transformLiteral, hv]
      refine ⟨?_, fun v n => ?_, carried, ?_, ?_⟩
      · rw [firstOfValues_append, if_neg hseen, List.map_append, ← hlit]
        rfl
      · show Function.update state.2 l.value (some (toAdaIdentifier l.name)) v = some n ↔ _
        rw [List.mem_append, List.mem_singleton]
        by_cases hvl : v = l.value
        · have hout : (⟨n, v⟩ : EnumLiteral) ∉ state.1.literals := by
            rw [← hnamed, hvl, hv]
            exact fun e => nomatch e
          rw [hvl, Function.update_self, Option.some.injEq]
          rw [hvl] at hout
          constructor
          · rintro rfl
            exact Or.inr rfl
          · rintro (hin | he)
            · exact absurd hin hout
            · exact (congrArg (fun x : EnumLiteral => x.name) he).symm
        · rw [Function.update_of_ne hvl, hnamed]
          refine ⟨Or.inl, fun hin => hin.resolve_right fun he => hvl ?_⟩
          exact congrArg (fun x : EnumLiteral => x.value) he
      · exact hcarried.imp fun c r hr => ⟨hr.1, List.mem_append_left _ hr.2⟩
      · have hswap : (state.1.literals ++ [l.inAda] ++ carried).Perm
            (state.1.literals ++ carried ++ [l.inAda]) := by
          rw [List.append_assoc, List.append_assoc]
          exact List.Perm.append_left _ List.perm_append_comm
        rw [List.map_append]
        exact hswap.trans (hperm.append_right _)

theorem transform_transformed (name : List Char) (literals : List EnumLiteral) :
    ∃ map, Transformed literals (transform name literals, map) := by
  suffices Transformed literals
      (literals.foldl transformLiteral (⟨toAdaIdentifier name, [], []⟩, fun _ => none)) from
    ⟨_, this⟩
  induction literals using List.reverseRecOn with
  | nil =>
      refine ⟨rfl, by simp, [], List.Forall₂.nil, List.Perm.nil⟩
  | append_singleton seen l ih =>
      rw [List.foldl_append]
      exact ih.step l

theorem transform_name (name : List Char) (literals : List EnumLiteral) :
    (transform name literals).name = toAdaIdentifier name := by
  rw [transform]
  induction literals using List.reverseRecOn with
  | nil => rfl
  | append_singleton seen l ih =>
      rw [List.foldl_append, List.foldl_cons, List.foldl_nil, transformLiteral]
      split <;> exact ih

/-! ## Verified enumerations -/

/-- The names of the literals as `verify` converts them. -/
def renamed (literals : List EnumLiteral) : List EnumLiteral :=
  literals.map fun l => { l with name := toAdaIdentifier l.name }

theorem verify_literals (a : Enumeration) : (verify a).literals =
    (renamed a.literals).insertionSort fun left right => left.value ≤ right.value :=
  rfl

theorem verify_name (a : Enumeration) : (verify a).name =
    if (renamed a.literals).any fun l => decide (lowered l.name = lowered (toAdaIdentifier a.name))
    then toAdaIdentifier a.name ++ "_enum".toList else toAdaIdentifier a.name :=
  rfl

theorem verify_constants (a : Enumeration) : (verify a).constants = a.constants :=
  rfl

namespace CEnum

variable (e : CEnum)

/-- The enumerators as the transformer reads them. -/
def enumerators : List EnumLiteral := e.literals.map Enumerator.toEnumLiteral

/-- The name of the type before a clash is corrected. -/
def adaName : List Char := toAdaIdentifier (toAdaIdentifier e.name)

theorem enumerators_identifier {l : EnumLiteral} (h : l ∈ e.enumerators) :
    IsCIdentifier l.name := by
  obtain ⟨r, -, rfl⟩ := List.mem_map.1 h
  exact r.identifier

theorem toAda_spec :
    e.toAda.literals.Perm ((firstOfValues e.enumerators).map EnumLiteral.inAda) ∧
    e.toAda.literals.Pairwise (fun l r => l.value ≤ r.value) ∧
    e.toAda.Carries e.enumerators ∧
    e.toAda.name =
      if (firstOfValues e.enumerators).any fun l => decide (spelling l.name = lowered e.adaName)
      then e.adaName ++ "_enum".toList else e.adaName := by
  obtain ⟨map, hlit, -, carried, hcarried, hperm⟩ := transform_transformed e.name e.enumerators
  have hname := transform_name e.name e.enumerators
  have htoAda : e.toAda = verify (transform e.name e.enumerators) := rfl
  -- The names of the literals are Ada identifiers already.
  have hsame : renamed ((firstOfValues e.enumerators).map EnumLiteral.inAda) =
      (firstOfValues e.enumerators).map EnumLiteral.inAda := by
    rw [renamed, List.map_map]
    refine List.map_congr_left fun l hl => ?_
    have hid := e.enumerators_identifier (mem_of_mem_firstOfValues hl)
    have hfixed := toAdaIdentifier_idem hid
    simp only [Function.comp, EnumLiteral.inAda, hfixed]
  have hsort := List.perm_insertionSort (fun left right : EnumLiteral => left.value ≤ right.value)
    ((firstOfValues e.enumerators).map EnumLiteral.inAda)
  have hliterals : e.toAda.literals =
      ((firstOfValues e.enumerators).map EnumLiteral.inAda).insertionSort
        fun left right => left.value ≤ right.value := by
    rw [htoAda, verify_literals]
    simp only at hlit
    rw [hlit, hsame]
  have hconstants : e.toAda.constants = (transform e.name e.enumerators).constants := by
    rw [htoAda, verify_constants]
  refine ⟨hliterals ▸ hsort, ?_, ⟨carried, ?_, ?_⟩, ?_⟩
  · rw [hliterals]
    exact List.pairwise_insertionSort
      (fun left right : EnumLiteral => left.value ≤ right.value) _
  · rw [hconstants]
    refine hcarried.imp fun c l hl => ⟨hl.1, ?_⟩
    rw [hliterals, hsort.mem_iff, ← hlit]
    exact hl.2
  · rw [hliterals]
    refine (hsort.append_right carried).trans ?_
    rw [← hlit]
    exact hperm
  · rw [htoAda, verify_name]
    simp only at hlit
    rw [hlit, hsame, hname, List.any_map]
    simp only [Function.comp_def, EnumLiteral.inAda, spelling, adaName]
    rfl

/-- The literals' spellings are distinct, and a type that is called like one of
them is called like none after `_enum` is added to it. -/
def SpellingsApart : Prop :=
  ((firstOfValues e.enumerators).map fun l => spelling l.name).Nodup ∧
    ((∃ l ∈ firstOfValues e.enumerators, spelling l.name = lowered e.adaName) →
      ∀ l ∈ firstOfValues e.enumerators,
        spelling l.name ≠ lowered (e.adaName ++ "_enum".toList))

theorem toAda_ascending : e.toAda.Ascending := by
  obtain ⟨hperm, hsorted, -⟩ := e.toAda_spec
  have hdistinct : e.toAda.literals.Pairwise fun l r => l.value ≠ r.value := by
    refine (hperm.pairwise_iff fun h => Ne.symm h).2 ?_
    exact List.pairwise_map.2 (firstOfValues_distinct e.enumerators)
  exact (hsorted.and hdistinct).imp fun h => lt_of_le_of_ne h.1 h.2

theorem toAda_namesApart_iff : e.toAda.NamesApart ↔ e.SpellingsApart := by
  obtain ⟨hperm, -, -, hname⟩ := e.toAda_spec
  have hnodup : (e.toAda.literals.map fun l => lowered l.name).Nodup ↔
      ((firstOfValues e.enumerators).map fun l => spelling l.name).Nodup := by
    rw [(hperm.map _).nodup_iff, List.map_map]
    simp only [Function.comp_def, EnumLiteral.inAda, spelling]
  have hmem : ∀ P : List Char → Prop, (∀ l ∈ e.toAda.literals, P (lowered l.name)) ↔
      ∀ l ∈ firstOfValues e.enumerators, P (spelling l.name) := by
    intro P
    simp only [hperm.mem_iff, List.mem_map, forall_exists_index, and_imp,
      forall_apply_eq_imp_iff₂, EnumLiteral.inAda, spelling]
  rw [Enumeration.NamesApart, SpellingsApart, hnodup, hmem fun n => n ≠ lowered e.toAda.name]
  refine and_congr_right fun _ => ?_
  by_cases hclash : ∃ l ∈ firstOfValues e.enumerators, spelling l.name = lowered e.adaName
  · have hany : ((firstOfValues e.enumerators).any fun l =>
        decide (spelling l.name = lowered e.adaName)) = true := by
      simpa using hclash
    rw [hname, if_pos hany]
    exact ⟨fun h _ => h, fun h => h hclash⟩
  · have hany : ¬ ((firstOfValues e.enumerators).any fun l =>
        decide (spelling l.name = lowered e.adaName)) = true := by
      simpa using hclash
    rw [hname, if_neg hany]
    exact ⟨fun _ h => absurd h hclash, fun _ l hl he => hclash ⟨l, hl, he⟩⟩

/-- The enumeration is right exactly when the spellings of its literals are apart. -/
theorem toAda_faithful_iff :
    (e.toAda.Ascending ∧ e.toAda.NamesApart ∧ e.toAda.Carries e.enumerators) ↔
      e.SpellingsApart := by
  rw [toAda_namesApart_iff]
  obtain ⟨-, -, hcarries, -⟩ := e.toAda_spec
  exact ⟨fun h => h.2.1, fun h => ⟨e.toAda_ascending, h, hcarries⟩⟩

end CEnum

end Names

namespace CEnum

/-- `enum Colour { Red, RED };`. -/
def redTwice : CEnum where
  name := "Colour".toList
  literals := [⟨⟨"Red".toList, 0⟩, by decide, by simp; decide⟩,
    ⟨⟨"RED".toList, 1⟩, by decide, by simp; decide⟩]

theorem redTwice_names : ¬ (redTwice.toAda.Ascending ∧ redTwice.toAda.NamesApart ∧
    redTwice.toAda.Carries redTwice.enumerators) := by
  rintro ⟨-, ⟨hnodup, -⟩, -⟩
  revert hnodup
  decide

end CEnum

end Swig4Ada.Ada

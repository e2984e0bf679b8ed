import Swig4Ada.Ada.RecordVerify
import Swig4Ada.Proofs.IdentifierTwice
import Swig4Ada.Proofs.Prune

/-!
# The components that `verify` makes of the base classes

The base classes behind the cursor are virtual. A base class that is not is taken out, and the
cursor goes back to the last one; so each of them is found from the last to the first, and
they stand in front of the components in their order.
-/

namespace Swig4Ada.Ada

variable {T : Type} {types : RecordTypes T} {self : RecordItem T}

/-- The components of the base classes that are not virtual. -/
def baseComponents (types : RecordTypes T) (bases : List T) : List (RecordVariable T) :=
  (bases.filter fun b => !types.isVirtual b).map (baseComponent types)

section Loop

theorem baseComponents_append (front back : List T) :
    baseComponents types (front ++ back) =
      baseComponents types front ++ baseComponents types back := by
  rw [baseComponents, List.filter_append, List.map_append]
  rfl

theorem baseComponents_virtual {bases : List T} (h : ∀ b ∈ bases, types.isVirtual b = true) :
    baseComponents types bases = [] := by
  rw [baseComponents, List.filter_eq_nil_iff.2 fun b hb => by simp [h b hb]]
  rfl

/-- One turn of the loop. -/
theorem transformBases_turn {front back : List T} {b : T}
    (hbases : self.baseClasses = front ++ b :: back) (fuel : Nat) :
    transformBases types (fuel + 1) (front ++ [b]).length self =
      if ¬ types.isVirtual b then
        match { self with baseClasses := front ++ back }.prepend (baseComponent types b) with
        | .error e => some (.error e)
        | .ok self => transformBases types fuel (front ++ back).length self
      else transformBases types fuel front.length self := by
  rw [transformBases, List.length_append, List.length_singleton,
    if_neg (Nat.succ_ne_zero _), hbases, vectorElement_at, Nat.add_sub_cancel]
  dsimp only
  rw [vectorDelete_at]
  rfl

/-- What the loop comes to, with the base classes up to the cursor and those behind it. -/
theorem transformBases_spec (front back : List T) (hbases : self.baseClasses = front ++ back)
    (hback : ∀ b ∈ back, types.isVirtual b = true) :
    ∃ n, ∀ fuel, n ≤ fuel → transformBases types fuel front.length self =
      if h : (baseComponents types front ++ self.components).length ≤ componentsLast then
        some (.ok { self with
          baseClasses := front.filter types.isVirtual ++ back
          components := baseComponents types front ++ self.components
          components_fit := h })
      else some (.error .constraintError) := by
  obtain ⟨k, hk⟩ : ∃ k, (baseComponents types front).length = k := ⟨_, rfl⟩
  induction k using Nat.strong_induction_on generalizing self front back with
  | _ k ih =>
      induction front using List.reverseRecOn generalizing back with
      | nil =>
          refine ⟨1, fun fuel hfuel => ?_⟩
          obtain ⟨fuel, rfl⟩ : ∃ f, fuel = f + 1 := ⟨fuel - 1, by omega⟩
          have hfit : (baseComponents types [] ++ self.components).length ≤ componentsLast :=
            self.components_fit
          rw [transformBases, List.length_nil, if_pos rfl, dif_pos hfit]
          cases self
          cases hbases
          rfl
      | append_singleton front b ihf =>
          rw [List.append_assoc] at hbases
          have hbases : self.baseClasses = front ++ b :: back := hbases
          cases hvirtual : types.isVirtual b with
          | true =>
              have hsame : baseComponents types (front ++ [b]) = baseComponents types front := by
                have hnone : baseComponents types [b] = [] :=
                  baseComponents_virtual fun x hx => List.mem_singleton.1 hx ▸ hvirtual
                rw [baseComponents_append, hnone, List.append_nil]
              have hfilter : (front ++ [b]).filter types.isVirtual ++ back =
                  front.filter types.isVirtual ++ b :: back := by
                rw [List.filter_append, List.filter_singleton, hvirtual, List.append_assoc]
                rfl
              obtain ⟨n, hn⟩ := ihf (b :: back) hbases
                (fun x hx => (List.mem_cons.1 hx).elim (fun he => he ▸ hvirtual) (hback x))
                (hsame ▸ hk)
              refine ⟨n + 1, fun fuel hfuel => ?_⟩
              obtain ⟨fuel, rfl⟩ : ∃ f, fuel = f + 1 := ⟨fuel - 1, by omega⟩
              rw [transformBases_turn hbases, hvirtual, if_neg (not_not.2 rfl), hn fuel (by omega)]
              simp only [hsame, hfilter]
          | false =>
              have hmore : baseComponents types (front ++ [b]) =
                  baseComponents types front ++ [baseComponent types b] := by
                rw [baseComponents_append, baseComponents, baseComponents,
                  List.filter_singleton, hvirtual]
                rfl
              have hkeep : baseComponents types (front ++ back) = baseComponents types front := by
                rw [baseComponents_append, baseComponents_virtual hback, List.append_nil]
              have hfilter : (front ++ [b]).filter types.isVirtual ++ back =
                  (front ++ back).filter types.isVirtual ++ [] := by
                rw [List.filter_append, List.filter_singleton, hvirtual, List.filter_append,
                  List.filter_eq_self.2 hback, List.append_nil]
                show front.filter types.isVirtual ++ [] ++ back = _
                rw [List.append_nil]
              rw [hmore, List.length_append, List.length_singleton] at hk
              by_cases hroom : self.components.length + 1 ≤ componentsLast
              · obtain ⟨n, hn⟩ := @ih (k - 1) (by omega)
                  { self with
                    baseClasses := front ++ back
                    components := baseComponent types b :: self.components
                    components_fit := hroom } (front ++ back) [] (List.append_nil _).symm
                  (by intro x hx; cases hx) (by rw [hkeep]; omega)
                refine ⟨n + 1, fun fuel hfuel => ?_⟩
                obtain ⟨fuel, rfl⟩ : ∃ f, fuel = f + 1 := ⟨fuel - 1, by omega⟩
                rw [transformBases_turn hbases, hvirtual, if_pos Bool.false_ne_true, RecordItem.prepend, dif_pos hroom]
                dsimp only
                rw [hn fuel (by omega)]
                simp only [hmore, hkeep, hfilter, List.append_assoc, List.singleton_append]
              · refine ⟨1, fun fuel hfuel => ?_⟩
                obtain ⟨fuel, rfl⟩ : ∃ f, fuel = f + 1 := ⟨fuel - 1, by omega⟩
                have hlong : ¬ (baseComponents types (front ++ [b]) ++ self.components).length ≤
                    componentsLast := by
                  rw [hmore, List.length_append, List.length_append, List.length_singleton]
                  omega
                rw [transformBases_turn hbases, hvirtual, if_pos Bool.false_ne_true, RecordItem.prepend, dif_neg hroom,
                  dif_neg hlong]

end Loop

/-! ## Names and flags -/

/-- The name corrected. -/
def RecordVariable.corrected (v : RecordVariable T) : RecordVariable T :=
  { v with name := toAdaIdentifier v.name }

theorem detect_eq (v : RecordVariable T) :
    ∃ int unsigned bool, ∀ self : RecordItem T, self.detect types v =
      { self with
        requiresInt := self.requiresInt || int
        requiresUnsigned := self.requiresUnsigned || unsigned
        requiresExtensionsBool := self.requiresExtensionsBool || bool } := by
  have hor : ∀ b : Bool, (b || false) = b := Bool.or_false
  by_cases hfield : v.bitField ≠ undefinedBitfield
  · by_cases hint : types.qualifiedName v.myType = "interfaces.c.Int".toList
    · refine ⟨true, false, false, fun self => ?_⟩
      rw [RecordItem.detect, if_pos hfield, if_pos hint, hor, hor, Bool.or_true]
    by_cases hunsigned : types.qualifiedName v.myType = "interfaces.c.Unsigned".toList
    · refine ⟨false, true, false, fun self => ?_⟩
      rw [RecordItem.detect, if_pos hfield, if_neg hint, if_pos hunsigned, hor, hor, Bool.or_true]
    by_cases hchar : types.qualifiedName v.myType = "interfaces.c.unsigned_Char".toList
    · refine ⟨false, true, false, fun self => ?_⟩
      rw [RecordItem.detect, if_pos hfield, if_neg hint, if_neg hunsigned, if_pos hchar, hor, hor,
        Bool.or_true]
    by_cases hbool : types.qualifiedName v.myType = "interfaces.c.extensions.bool".toList
    · refine ⟨false, false, true, fun self => ?_⟩
      rw [RecordItem.detect, if_pos hfield, if_neg hint, if_neg hunsigned, if_neg hchar,
        if_pos hbool, hor, hor, Bool.or_true]
    · refine ⟨false, false, false, fun self => ?_⟩
      rw [RecordItem.detect, if_pos hfield, if_neg hint, if_neg hunsigned, if_neg hchar,
        if_neg hbool, hor, hor, hor]
  · refine ⟨false, false, false, fun self => ?_⟩
    rw [RecordItem.detect, if_neg hfield, hor, hor, hor]

theorem foldl_detect (components : List (RecordVariable T)) :
    ∃ int unsigned bool, ∀ self : RecordItem T,
      components.foldl (RecordItem.detect types) self =
        { self with
          requiresInt := self.requiresInt || int
          requiresUnsigned := self.requiresUnsigned || unsigned
          requiresExtensionsBool := self.requiresExtensionsBool || bool } := by
  induction components with
  | nil => exact ⟨false, false, false, fun self => by simp⟩
  | cons v components ih =>
      obtain ⟨i, u, b, hfirst⟩ := @detect_eq T types v
      obtain ⟨i', u', b', hrest⟩ := ih
      refine ⟨i || i', u || u', b || b', fun self => ?_⟩
      rw [List.foldl_cons, hfirst, hrest]
      simp only [Bool.or_assoc]

theorem corrected_bitField (components : List (RecordVariable T)) (self : RecordItem T) :
    (components.map RecordVariable.corrected).foldl (RecordItem.detect types) self =
      components.foldl (RecordItem.detect types) self := by
  rw [List.foldl_map]
  rfl

/-! ## Both calls -/

/-- What one call comes to. -/
theorem verify_spec (self : RecordItem T) :
    ∃ n, ∀ fuel, n ≤ fuel → self.verify types fuel =
      if h : (baseComponents types self.baseClasses ++ self.components).length ≤ componentsLast then
        some (.ok ((baseComponents types self.baseClasses ++ self.components).foldl
          (RecordItem.detect types)
          { self with
            baseClasses := self.baseClasses.filter types.isVirtual
            components := (baseComponents types self.baseClasses ++ self.components).map
              RecordVariable.corrected
            components_fit := by rw [List.length_map]; exact h }))
      else some (.error .constraintError) := by
  obtain ⟨n, hn⟩ := @transformBases_spec T types self self.baseClasses []
    (List.append_nil _).symm (fun b hb => nomatch hb)
  refine ⟨n, fun fuel hfuel => ?_⟩
  rw [RecordItem.verify, hn fuel hfuel]
  by_cases h : (baseComponents types self.baseClasses ++ self.components).length ≤ componentsLast
  · rw [dif_pos h, dif_pos h]
    simp only [List.append_nil]
    refine congrArg (fun x => some (Except.ok x)) ?_
    exact @corrected_bitField T types _ _
  · rw [dif_neg h, dif_neg h]
    rfl

/-- The first call leaves the virtual bases and makes components of the others, in front of
those there were; the second changes nothing. -/
def VerifiedRight (types : RecordTypes T) (self : RecordItem T) : Prop :=
  ∃ after : RecordItem T, (∃ n, ∀ fuel, n ≤ fuel → self.verify types fuel = some (.ok after)) ∧
    after.baseClasses = self.baseClasses.filter types.isVirtual ∧
    after.components = (baseComponents types self.baseClasses ++ self.components).map
      RecordVariable.corrected ∧
    ∃ n, ∀ fuel, n ≤ fuel → after.verify types fuel = some (.ok after)

theorem corrected_self_iff (v : RecordVariable T) :
    v.corrected.corrected = v.corrected ↔ ¬ SuffixBare v.name := by
  rw [← toAdaIdentifier_twice]
  simp only [RecordVariable.corrected, RecordVariable.mk.injEq, and_true]

theorem corrected_twice_iff (components : List (RecordVariable T)) :
    (components.map RecordVariable.corrected).map RecordVariable.corrected =
        components.map RecordVariable.corrected ↔
      ∀ v ∈ components, ¬ SuffixBare v.name := by
  rw [List.map_map, List.map_inj_left]
  exact forall₂_congr fun v _ => corrected_self_iff v

/-- What a call comes to when all the bases are virtual. -/
theorem verify_virtual (self : RecordItem T)
    (h : ∀ b ∈ self.baseClasses, types.isVirtual b = true) :
    ∃ n, ∀ fuel, n ≤ fuel → self.verify types fuel =
      some (.ok (self.components.foldl (RecordItem.detect types)
        { self with
          components := self.components.map RecordVariable.corrected
          components_fit := by rw [List.length_map]; exact self.components_fit })) := by
  obtain ⟨n, hn⟩ := @verify_spec T types self
  refine ⟨n, fun fuel hfuel => ?_⟩
  have hfit : (baseComponents types self.baseClasses ++ self.components).length ≤
      componentsLast := by
    rw [baseComponents_virtual h]
    exact self.components_fit
  rw [hn fuel hfuel, dif_pos hfit]
  simp only [baseComponents_virtual h, List.filter_eq_self.2 h, List.nil_append]

theorem verify_self {self : RecordItem T} (h : ∀ b ∈ self.baseClasses, types.isVirtual b = true)
    (hnames : self.components.map RecordVariable.corrected = self.components)
    (hflags : self.components.foldl (RecordItem.detect types) self = self) :
    ∃ n, ∀ fuel, n ≤ fuel → self.verify types fuel = some (.ok self) := by
  obtain ⟨n, hn⟩ := verify_virtual self h
  refine ⟨n, fun fuel hfuel => ?_⟩
  rw [hn fuel hfuel]
  simp only [hnames, hflags]

/-- Both calls are right exactly where the components fit and no name has a suffix that stands
alone or behind an underscore. -/
theorem verify_right_iff (types : RecordTypes T) (self : RecordItem T) :
    VerifiedRight types self ↔
      (baseComponents types self.baseClasses ++ self.components).length ≤ componentsLast ∧
      ∀ v ∈ baseComponents types self.baseClasses ++ self.components, ¬ SuffixBare v.name := by
  obtain ⟨all, hall⟩ : ∃ l, baseComponents types self.baseClasses ++ self.components = l :=
    ⟨_, rfl⟩
  obtain ⟨n, hn⟩ := @verify_spec T types self
  simp only [VerifiedRight, hall] at hn ⊢
  constructor
  · rintro ⟨after, ⟨m, hm⟩, hbases, hcomponents, k, hk⟩
    refine ⟨?_, ?_⟩
    · by_contra hlong
      have herror := hn (max n m) (Nat.le_max_left _ _)
      rw [dif_neg hlong, hm _ (Nat.le_max_right _ _)] at herror
      cases herror
    · obtain ⟨j, hj⟩ := @verify_virtual T types after (by
        rw [hbases]
        exact fun b hb => (List.mem_filter.1 hb).2)
      obtain ⟨int, unsigned, bool, hflags⟩ := @foldl_detect T types after.components
      have hsame := (hk (max k j) (Nat.le_max_left _ _)).symm.trans
        (hj (max k j) (Nat.le_max_right _ _))
      rw [hflags] at hsame
      have hnames : after.components = after.components.map RecordVariable.corrected :=
        congrArg RecordItem.components (Except.ok.inj (Option.some.inj hsame))
      rw [hcomponents] at hnames
      exact (corrected_twice_iff all).1 hnames.symm
  · rintro ⟨hfit, hnames⟩
    obtain ⟨int, unsigned, bool, hflags⟩ := @foldl_detect T types all
    have htwice := (corrected_twice_iff all).2 hnames
    simp only [dif_pos hfit, hflags] at hn
    refine ⟨_, ⟨n, hn⟩, rfl, rfl, ?_⟩
    refine verify_self (fun b hb => (List.mem_filter.1 hb).2) htwice ?_
    rw [corrected_bitField, hflags]
    simp only [Bool.or_assoc, Bool.or_self]

/-- One base class that is not virtual. -/
def plainBase : RecordTypes Unit :=
  { isVirtual := fun _ => false
    packageName := fun _ => ['B', 'a', 's', 'e']
    qualifiedName := fun _ => ['B', 'a', 's', 'e'] }

/-- As many components as the array holds, and a base class. -/
def fullRecord : RecordItem Unit :=
  { baseClasses := [()]
    components := List.replicate componentsLast ⟨['x'], (), undefinedBitfield⟩
    components_fit := by rw [List.length_replicate]
    requiresInt := false
    requiresUnsigned := false
    requiresUnsignedChar := false
    requiresExtensionsBool := false }

theorem fullRecord_raises : ¬ VerifiedRight plainBase fullRecord := by
  rintro ⟨after, ⟨m, hm⟩, -⟩
  obtain ⟨n, hn⟩ := @verify_spec Unit plainBase fullRecord
  have hlong : ¬ (baseComponents plainBase fullRecord.baseClasses ++
      fullRecord.components).length ≤ componentsLast := by
    rw [List.length_append]
    have hfull : fullRecord.components.length = componentsLast := List.length_replicate
    have hone : (baseComponents plainBase fullRecord.baseClasses).length = 1 := rfl
    omega
  have herror := hn (max m n) (Nat.le_max_right _ _)
  rw [dif_neg hlong, hm _ (Nat.le_max_left _ _)] at herror
  cases herror

end Swig4Ada.Ada

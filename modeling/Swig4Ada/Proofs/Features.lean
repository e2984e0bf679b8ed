import Swig4Ada.Swig.Features

/-!
# The most specific entry for a feature

For one name the hashes are merged from the least specific to the most specific, and the last
that has a feature is the most specific that has it. For a template the merges are done again
for its completed name, from the least specific on, and then the last need not be.
-/

namespace Swig4Ada.Swig

open Doh

variable {V : Type}

/-! ## Levels -/

/-- How specific an entry is. -/
inductive FeatureLevel
  | global
  | plain
  | classGeneric
  | wildcard
  | templateClass
  | exact

def FeatureLevel.rank : FeatureLevel → Nat
  | .global => 0
  | .plain => 1
  | .classGeneric => 2
  | .wildcard => 3
  | .templateClass => 4
  | .exact => 5

/-- The most specific of some values; of those on one level, the last. -/
def mostSpecific : List (FeatureLevel × V) → Option (FeatureLevel × V)
  | [] => none
  | e :: es =>
      match mostSpecific es with
      | none => some e
      | some e' => if e'.1.rank < e.1.rank then some e else some e'

/-- The more specific of two values. -/
def better (a b : Option (FeatureLevel × V)) : Option (FeatureLevel × V) :=
  match b with
  | none => a
  | some e' =>
      match a with
      | none => some e'
      | some e => if e'.1.rank < e.1.rank then some e else some e'

theorem better_none (a : Option (FeatureLevel × V)) : better a none = a := rfl

theorem none_better (b : Option (FeatureLevel × V)) : better none b = b := by
  cases b <;> rfl

theorem better_assoc (a b c : Option (FeatureLevel × V)) :
    better (better a b) c = better a (better b c) := by
  cases c with
  | none => rfl
  | some z =>
      cases b with
      | none => rw [better_none, none_better]
      | some y =>
          cases a with
          | none => rw [none_better, none_better]
          | some x =>
              by_cases hxy : y.1.rank < x.1.rank
              · by_cases hyz : z.1.rank < y.1.rank
                · have hxz : z.1.rank < x.1.rank := by omega
                  simp only [better, if_pos hxy, if_pos hyz, if_pos hxz]
                · simp only [better, if_pos hxy, if_neg hyz]
              · by_cases hyz : z.1.rank < y.1.rank
                · simp only [better, if_neg hxy, if_pos hyz]
                · have hxz : ¬ z.1.rank < x.1.rank := by omega
                  simp only [better, if_neg hxy, if_neg hyz, if_neg hxz]

theorem mostSpecific_cons (e : FeatureLevel × V) (es : List (FeatureLevel × V)) :
    mostSpecific (e :: es) = better (some e) (mostSpecific es) := by
  rw [mostSpecific]
  cases mostSpecific es <;> rfl

theorem mostSpecific_append (a b : List (FeatureLevel × V)) :
    mostSpecific (a ++ b) = better (mostSpecific a) (mostSpecific b) := by
  induction a with
  | nil => exact (none_better _).symm
  | cons e es ih => rw [List.cons_append, mostSpecific_cons, ih, mostSpecific_cons, better_assoc]

theorem mostSpecific_eq_none {l : List (FeatureLevel × V)} : mostSpecific l = none ↔ l = [] := by
  cases l with
  | nil => exact ⟨fun _ => rfl, fun _ => rfl⟩
  | cons e es =>
      rw [mostSpecific_cons]
      refine ⟨fun h => ?_, fun h => nomatch h⟩
      cases hes : mostSpecific es with
      | none =>
          rw [hes] at h
          cases h
      | some e' =>
          rw [hes] at h
          simp only [better] at h
          split at h <;> cases h

/-- From the least specific to the most specific. -/
def Ascending {α : Type} (l : List (FeatureLevel × α)) : Prop :=
  l.Pairwise fun a b => a.1.rank ≤ b.1.rank

theorem mostSpecific_ascending {l : List (FeatureLevel × V)} (h : Ascending l) :
    mostSpecific l = l.getLast? := by
  induction l with
  | nil => rfl
  | cons e es ih =>
      obtain ⟨hfirst, hrest⟩ := List.pairwise_cons.1 h
      rw [mostSpecific_cons, ih hrest]
      cases es with
      | nil => rfl
      | cons e' es =>
          rw [List.getLast?_cons_cons]
          obtain ⟨last, hlast⟩ : ∃ x, (e' :: es).getLast? = some x :=
            ⟨_, List.getLast?_eq_some_getLast (List.cons_ne_nil _ _)⟩
          have hle := hfirst last (List.mem_of_getLast? hlast)
          rw [hlast]
          simp only [better]
          rw [if_neg (by omega)]

/-! ## The entries for one name -/

/-- The names that are looked up for a name, with how specific they are. -/
def placesOf (enclosing : Option (List Char)) (name : List Char) :
    List (FeatureLevel × List Char) :=
  (istemplateTemplatePrefix name).toList.map (FeatureLevel.plain, ·) ++ [(.plain, name)] ++
    match enclosing with
    | none => [(.exact, [':', ':'] ++ name)]
    | some [] => [(.wildcard, ['*', ':', ':'] ++ name)]
    | some (c :: cs) =>
        [(.classGeneric, (c :: cs) ++ [':', ':']), (.wildcard, ['*', ':', ':'] ++ name)] ++
          (istemplateTemplatePrefix (c :: cs)).toList.map
            (fun tPrefix => (FeatureLevel.templateClass, tPrefix ++ [':', ':'] ++ name)) ++
          [(.exact, (c :: cs) ++ [':', ':'] ++ name)]

/-- The hashes at one place: for no declarator, and for the declarator. -/
def entriesAt (features : FeatureTable V) (decl : Option (List Char))
    (place : FeatureLevel × List Char) : List (FeatureLevel × HashTable V) :=
  match features.lookup place.2 with
  | none => []
  | some n => ((getObject n none).toList ++ (getObject n decl).toList).map (place.1, ·)

def entriesOf (features : FeatureTable V) (enclosing : Option (List Char)) (name : List Char)
    (decl : Option (List Char)) : List (FeatureLevel × HashTable V) :=
  entriesAt features none (.global, []) ++
    (placesOf enclosing name).flatMap (entriesAt features decl)

/-- What the entries have for a feature. -/
def having (f : List Char) (entries : List (FeatureLevel × HashTable V)) :
    List (FeatureLevel × V) :=
  entries.filterMap fun e => (e.2.lookup f).map (e.1, ·)

theorem having_append (f : List Char) (a b : List (FeatureLevel × HashTable V)) :
    having f (a ++ b) = having f a ++ having f b := List.filterMap_append

theorem placesOf_ascending (enclosing : Option (List Char)) (name : List Char) :
    Ascending (placesOf enclosing name) := by
  unfold Ascending placesOf
  rcases enclosing with - | - | ⟨c, cs⟩
  · cases istemplateTemplatePrefix name <;> simp [FeatureLevel.rank]
  · cases istemplateTemplatePrefix name <;> simp [FeatureLevel.rank]
  · dsimp only
    cases istemplateTemplatePrefix name <;> cases istemplateTemplatePrefix (c :: cs) <;>
      simp [FeatureLevel.rank]

theorem level_entriesAt {features : FeatureTable V} {decl : Option (List Char)}
    {place : FeatureLevel × List Char} {e : FeatureLevel × HashTable V}
    (h : e ∈ entriesAt features decl place) : e.1 = place.1 := by
  rw [entriesAt] at h
  cases hn : features.lookup place.2 with
  | none =>
      rw [hn] at h
      cases h
  | some n =>
      rw [hn] at h
      obtain ⟨_, -, rfl⟩ := List.mem_map.1 h
      rfl

theorem entriesAt_ascending (features : FeatureTable V) (decl : Option (List Char))
    (place : FeatureLevel × List Char) : Ascending (entriesAt features decl place) :=
  List.pairwise_of_forall_mem_list fun a ha b hb => by
    rw [level_entriesAt ha, level_entriesAt hb]

theorem entriesOf_ascending (features : FeatureTable V) (enclosing : Option (List Char))
    (name : List Char) (decl : Option (List Char)) :
    Ascending (entriesOf features enclosing name decl) := by
  refine List.pairwise_append.2 ⟨entriesAt_ascending _ _ _, ?_, fun a ha b _ => ?_⟩
  · refine List.pairwise_flatMap.2 ⟨fun place _ => entriesAt_ascending _ _ _, ?_⟩
    refine (placesOf_ascending enclosing name).imp fun hle a ha b hb => ?_
    rw [level_entriesAt ha, level_entriesAt hb]
    exact hle
  · rw [level_entriesAt ha]
    exact Nat.zero_le _

theorem having_ascending {entries : List (FeatureLevel × HashTable V)} (h : Ascending entries)
    (f : List Char) : Ascending (having f entries) := by
  refine List.Pairwise.filterMap _ (fun a b hle x hx y hy => ?_) h
  obtain ⟨_, -, rfl⟩ := Option.map_eq_some_iff.1 hx
  obtain ⟨_, -, rfl⟩ := Option.map_eq_some_iff.1 hy
  exact hle

/-! ## What the lookups for one name do -/

/-- The hashes merged into a node, one after the other. -/
def mergeEntries (entries : List (FeatureLevel × HashTable V)) (h : HashTable V) : HashTable V :=
  entries.foldl (fun h e => e.2 ∪ h) h

theorem mergeEntries_append (a b : List (FeatureLevel × HashTable V)) (h : HashTable V) :
    mergeEntries (a ++ b) h = mergeEntries b (mergeEntries a h) := List.foldl_append

theorem mergeFeatures_eq (order : HashOrder V) (level : FeatureLevel)
    (features : Option (HashTable V)) (h : HashTable V) :
    mergeFeatures order features h = mergeEntries (features.toList.map (level, ·)) h := by
  cases features with
  | none => rfl
  | some features =>
      refine Finmap.ext_lookup fun k => ?_
      show (setAll (order.keys features) features h).lookup k = (features ∪ h).lookup k
      rw [lookup_setAll fun _ => order.mem]
      cases hk : features.lookup k with
      | some v => rw [Finmap.lookup_union_left (Finmap.mem_iff.2 ⟨v, hk⟩), hk, Option.some_or]
      | none => rw [Finmap.lookup_union_right (Finmap.lookup_eq_none.1 hk), Option.none_or]

theorem featuresGet_eq (order : HashOrder V) (features : FeatureTable V) (level : FeatureLevel)
    (tname : List Char) (decl : Option (List Char)) (h : HashTable V) :
    featuresGet order features tname decl h =
      mergeEntries (entriesAt features decl (level, tname)) h := by
  rw [featuresGet, entriesAt]
  cases features.lookup tname with
  | none => rfl
  | some n =>
      dsimp only
      rw [mergeFeatures_eq order level, mergeFeatures_eq order level, List.map_append,
        mergeEntries_append]

theorem featuresGetName_eq (order : HashOrder V) (features : FeatureTable V)
    (enclosing : Option (List Char)) (name : List Char) (decl : Option (List Char))
    (h : HashTable V) : featuresGetName order features enclosing name decl h =
      mergeEntries ((placesOf enclosing name).flatMap (entriesAt features decl)) h := by
  have hoptional : ∀ (o : Option (List Char)) (level : FeatureLevel)
      (key : List Char → List Char) (h : HashTable V),
      (o.elim h fun t => featuresGet order features (key t) decl h) = mergeEntries ((o.toList.map fun t => (level, key t)).flatMap
          (entriesAt features decl)) h := by
    intro o level key h
    cases o with
    | none => rfl
    | some t =>
        rw [Option.elim_some]
        rw [featuresGet_eq order features level]
        simp
  have hone : ∀ (level : FeatureLevel) (key : List Char) (h : HashTable V),
      featuresGet order features key decl h =
        mergeEntries ([(level, key)].flatMap (entriesAt features decl)) h := by
    intro level key h
    rw [featuresGet_eq order features level]
    simp
  unfold featuresGetName placesOf
  rw [List.flatMap_append, List.flatMap_append, mergeEntries_append, mergeEntries_append]
  rw [← hoptional (istemplateTemplatePrefix name) .plain fun t => t, ← hone .plain name]
  rcases enclosing with - | - | ⟨c, cs⟩
  · cases istemplateTemplatePrefix name <;> exact hone .exact _ _
  · cases istemplateTemplatePrefix name <;> exact hone .wildcard _ _
  · dsimp only
    rw [if_pos (List.cons_ne_nil c cs), if_pos (List.cons_ne_nil c cs)]
    rw [List.flatMap_append, List.flatMap_append, mergeEntries_append, mergeEntries_append,
      ← hone .exact, ← hoptional (istemplateTemplatePrefix (c :: cs)) .templateClass
        fun tPrefix => tPrefix ++ [':', ':'] ++ name]
    rw [List.flatMap_cons, mergeEntries_append, ← hone .wildcard,
      ← featuresGet_eq order features .classGeneric]
    cases istemplateTemplatePrefix name <;> cases istemplateTemplatePrefix (c :: cs) <;> rfl

/-! ## The completed names -/

/-- The entries for a declaration, for its name and for each name that this is completed to. -/
def declarationEntries (deftype : List Char → List Char) (features : FeatureTable V)
    (enclosing nodeType : Option (List Char)) : Nat → Option (List Char) → Option (List Char) →
    Option (List (List (FeatureLevel × HashTable V)))
  | 0, _, _ => none
  | _ + 1, none, _ => some [entriesAt features none (.global, [])]
  | fuel + 1, some name, decl =>
      match lookedUp nodeType name decl with
      | none => none
      | some (name, decl) =>
          if swigTypeIstemplate name ∧ deftype name ≠ name then
            (declarationEntries deftype features enclosing nodeType fuel
              (some (deftype name)) decl).map (entriesOf features enclosing name decl :: ·)
          else some [entriesOf features enclosing name decl]

theorem entriesOf_merge (order : HashOrder V) (features : FeatureTable V)
    (enclosing : Option (List Char)) (name : List Char) (decl : Option (List Char))
    (h : HashTable V) :
    featuresGetName order features enclosing name decl (featuresGet order features [] none h) =
      mergeEntries (entriesOf features enclosing name decl) h := by
  rw [entriesOf, mergeEntries_append, ← featuresGetName_eq order, ← featuresGet_eq order]

theorem swigFeaturesGet_eq (order : HashOrder V) (deftype : List Char → List Char)
    (features : FeatureTable V) (enclosing : Option (List Char)) (fuel : Nat)
    (name decl : Option (List Char)) (node : FeatureNode V) :
    swigFeaturesGet order deftype features enclosing fuel name decl node =
      (declarationEntries deftype features enclosing node.nodeType fuel name decl).map fun runs =>
        { node with features := mergeEntries runs.flatten node.features } := by
  induction fuel generalizing name decl node with
  | zero => rfl
  | succ fuel ih =>
      cases name with
      | none =>
          rw [swigFeaturesGet, declarationEntries, featuresGet_eq order features .global]
          simp
      | some name =>
          rw [swigFeaturesGet, declarationEntries]
          cases lookedUp node.nodeType name decl with
          | none => rfl
          | some found =>
              obtain ⟨name, decl⟩ := found
              dsimp only
              rw [entriesOf_merge]
              by_cases htemplate : swigTypeIstemplate name = true
              · by_cases hdname : deftype name = name
                · rw [if_pos htemplate, if_neg (not_not.2 hdname), if_neg fun h => h.2 hdname]
                  simp
                · rw [if_pos htemplate, if_pos hdname, if_pos ⟨htemplate, hdname⟩, ih]
                  rw [Option.map_map]
                  refine congrArg (Option.map · _) (funext fun runs => ?_)
                  simp [mergeEntries_append]
              · rw [if_neg htemplate, if_neg fun h => htemplate h.1]
                simp

theorem lookup_mergeEntries (entries : List (FeatureLevel × HashTable V)) (h : HashTable V)
    (f : List Char) : (mergeEntries entries h).lookup f =
      ((having f entries).getLast?.map Prod.snd).or (h.lookup f) := by
  induction entries using List.reverseRecOn with
  | nil => rfl
  | append_singleton entries e ih =>
      rw [mergeEntries_append, having_append]
      show (e.2 ∪ mergeEntries entries h).lookup f = _
      cases he : e.2.lookup f with
      | some v =>
          have hone : having f [e] = [(e.1, v)] := by simp [having, he]
          rw [Finmap.lookup_union_left (Finmap.mem_iff.2 ⟨v, he⟩), he, hone, List.getLast?_concat]
          rfl
      | none =>
          have hone : having f [e] = [] := by simp [having, he]
          rw [Finmap.lookup_union_right (Finmap.lookup_eq_none.1 he), ih, hone, List.append_nil]

/-! ## The last and the most specific -/

/-- What is found for a feature under each of the names. -/
def tops (f : List Char) (runs : List (List (FeatureLevel × HashTable V))) :
    List (FeatureLevel × V) := runs.filterMap fun run => (having f run).getLast?

/-- The last value is of a level as specific as the others, or is the most specific one too. -/
def LastNotLower (values : List (FeatureLevel × V)) : Prop :=
  ∀ front last, values = front ++ [last] → ∀ best, mostSpecific front = some best →
    last.1.rank < best.1.rank → best.2 = last.2

theorem having_flatten (f : List Char) (runs : List (List (FeatureLevel × HashTable V)))
    (h : ∀ run ∈ runs, Ascending run) :
    mostSpecific (having f runs.flatten) = mostSpecific (tops f runs) ∧
      (having f runs.flatten).getLast? = (tops f runs).getLast? := by
  induction runs with
  | nil => exact ⟨rfl, rfl⟩
  | cons run runs ih =>
      obtain ⟨hmost, hlast⟩ := ih fun r hr => h r (List.mem_cons_of_mem _ hr)
      have hrun := mostSpecific_ascending (having_ascending (h run List.mem_cons_self) f)
      have htops : tops f (run :: runs) = (having f run).getLast?.toList ++ tops f runs := by
        rw [tops, List.filterMap_cons]
        cases (having f run).getLast? <;> rfl
      rw [List.flatten_cons, having_append, htops, mostSpecific_append, mostSpecific_append, hmost,
        hrun, List.getLast?_append, List.getLast?_append, hlast]
      cases (having f run).getLast? <;> exact ⟨rfl, rfl⟩

theorem last_is_most_iff (values : List (FeatureLevel × V)) :
    values.getLast?.map Prod.snd = (mostSpecific values).map Prod.snd ↔ LastNotLower values := by
  induction values using List.reverseRecOn with
  | nil => exact iff_of_true rfl fun front last h => absurd h.symm (by simp)
  | append_singleton front last _ =>
      rw [List.getLast?_concat, mostSpecific_append]
      have hback : ∀ front' last', front ++ [last] = front' ++ [last'] →
          front' = front ∧ last' = last := fun front' last' h =>
        (List.append_inj' h rfl).imp Eq.symm fun he => (List.cons.inj he).1.symm
      have hone : mostSpecific [last] = some last := rfl
      rw [hone]
      cases hfront : mostSpecific front with
      | none =>
          refine iff_of_true rfl fun front' last' h best hbest => ?_
          rw [(hback front' last' h).1, hfront] at hbest
          cases hbest
      | some best =>
          simp only [better, Option.map_some]
          by_cases hlower : last.1.rank < best.1.rank
          · rw [if_pos hlower, Option.map_some, Option.some_inj]
            constructor
            · intro he front' last' h best' hbest' _
              obtain ⟨rfl, rfl⟩ := hback front' last' h
              rw [hfront] at hbest'
              rw [← Option.some.inj hbest', he]
            · intro h
              exact (h front last rfl best hfront hlower).symm
          · rw [if_neg hlower, Option.map_some]
            refine iff_of_true rfl fun front' last' h best' hbest' hlow => ?_
            obtain ⟨rfl, rfl⟩ := hback front' last' h
            rw [hfront] at hbest'
            rw [← Option.some.inj hbest'] at hlow
            exact absurd hlow hlower

theorem declarationEntries_ascending {deftype : List Char → List Char}
    {features : FeatureTable V} {enclosing nodeType : Option (List Char)} {fuel : Nat}
    {name decl : Option (List Char)} {runs : List (List (FeatureLevel × HashTable V))}
    (h : declarationEntries deftype features enclosing nodeType fuel name decl = some runs) :
    ∀ run ∈ runs, Ascending run := by
  induction fuel generalizing name decl runs with
  | zero => cases h
  | succ fuel ih =>
      intro run hrun
      cases name with
      | none =>
          rw [declarationEntries] at h
          cases h
          rw [List.mem_singleton.1 hrun]
          exact entriesAt_ascending _ _ _
      | some name =>
          rw [declarationEntries] at h
          cases hfound : lookedUp nodeType name decl with
          | none =>
              rw [hfound] at h
              cases h
          | some found =>
              rw [hfound] at h
              dsimp only at h
              split at h
              · obtain ⟨rest, hrest, rfl⟩ := Option.map_eq_some_iff.1 h
                rcases List.mem_cons.1 hrun with rfl | hin
                · exact entriesOf_ascending _ _ _ _
                · exact ih hrest run hin
              · cases h
                rw [List.mem_singleton.1 hrun]
                exact entriesOf_ascending _ _ _ _

theorem declarationEntries_more {deftype : List Char → List Char} {features : FeatureTable V}
    {enclosing nodeType : Option (List Char)} {fuel more : Nat} {name decl : Option (List Char)}
    {runs : List (List (FeatureLevel × HashTable V))} (hmore : fuel ≤ more)
    (h : declarationEntries deftype features enclosing nodeType fuel name decl = some runs) :
    declarationEntries deftype features enclosing nodeType more name decl = some runs := by
  induction fuel generalizing more name decl runs with
  | zero => cases h
  | succ fuel ih =>
      obtain ⟨more, rfl⟩ : ∃ m, more = m + 1 := ⟨more - 1, by omega⟩
      cases name with
      | none => exact h
      | some name =>
          rw [declarationEntries] at h ⊢
          cases hfound : lookedUp nodeType name decl with
          | none =>
              rw [hfound] at h
              cases h
          | some found =>
              rw [hfound] at h
              dsimp only at h ⊢
              by_cases hc : swigTypeIstemplate found.1 = true ∧ deftype found.1 ≠ found.1
              · rw [if_pos hc] at h ⊢
                obtain ⟨rest, hrest, rfl⟩ := Option.map_eq_some_iff.1 h
                rw [ih (by omega) hrest]
                rfl
              · rw [if_neg hc] at h ⊢
                exact h

/-! ## The law -/

/-- The names that a name is completed to come to an end, and in every order of the loops the
node gets for each feature the value of the most specific entry that has it. -/
def AttachesMostSpecific (deftype : List Char → List Char) (features : FeatureTable V)
    (enclosing name decl : Option (List Char)) (node : FeatureNode V) : Prop :=
  ∃ runs, (∃ n, ∀ fuel, n ≤ fuel →
      declarationEntries deftype features enclosing node.nodeType fuel name decl = some runs) ∧
    ∀ order, ∃ after, (∃ n, ∀ fuel, n ≤ fuel →
        swigFeaturesGet order deftype features enclosing fuel name decl node = some after) ∧
      after.nodeType = node.nodeType ∧
      ∀ f, after.features.lookup f =
        ((mostSpecific (having f runs.flatten)).map Prod.snd).or (node.features.lookup f)

/-- The law, where a feature is not found last at a lower level with another value. -/
theorem attachesMostSpecific_iff (deftype : List Char → List Char) (features : FeatureTable V)
    (enclosing name decl : Option (List Char)) (node : FeatureNode V) :
    AttachesMostSpecific deftype features enclosing name decl node ↔
      ∃ runs, (∃ n, ∀ fuel, n ≤ fuel → declarationEntries deftype features enclosing
          node.nodeType fuel name decl = some runs) ∧
        ∀ f, LastNotLower (tops f runs) := by
  have hmerged : ∀ {runs : List (List (FeatureLevel × HashTable V))},
      (∀ run ∈ runs, Ascending run) → ∀ f, ((mergeEntries runs.flatten node.features).lookup f =
        ((mostSpecific (having f runs.flatten)).map Prod.snd).or (node.features.lookup f) ↔
          LastNotLower (tops f runs)) := by
    intro runs hruns f
    obtain ⟨hmost, hlast⟩ := having_flatten f runs hruns
    rw [lookup_mergeEntries, hmost, hlast, ← last_is_most_iff]
    cases hl : tops f runs with
    | nil => exact iff_of_true rfl rfl
    | cons e es =>
        obtain ⟨last, hsome⟩ : ∃ x, (e :: es).getLast? = some x :=
          ⟨_, List.getLast?_eq_some_getLast (List.cons_ne_nil _ _)⟩
        cases hm : mostSpecific (e :: es) with
        | none => exact absurd (mostSpecific_eq_none.1 hm) (List.cons_ne_nil _ _)
        | some best =>
            rw [hsome]
            simp only [Option.map_some, Option.some_or]
  constructor
  · rintro ⟨runs, ⟨n, hn⟩, hall⟩
    refine ⟨runs, ⟨n, hn⟩, fun f => ?_⟩
    obtain ⟨after, ⟨m, hm⟩, -, hvalues⟩ := hall listedKeys
    have hrun := hn (max n m) (Nat.le_max_left _ _)
    have hafter := hm (max n m) (Nat.le_max_right _ _)
    rw [swigFeaturesGet_eq, hrun] at hafter
    have hvalue := hvalues f
    rw [← Option.some.inj hafter] at hvalue
    exact (hmerged (declarationEntries_ascending hrun) f).1 hvalue
  · rintro ⟨runs, ⟨n, hn⟩, hlast⟩
    refine ⟨runs, ⟨n, hn⟩, fun order => ?_⟩
    refine ⟨{ node with features := mergeEntries runs.flatten node.features },
      ⟨n, fun fuel hfuel => ?_⟩, rfl, fun f => ?_⟩
    · rw [swigFeaturesGet_eq, hn fuel hfuel]
      rfl
    · exact (hmerged (declarationEntries_ascending (hn n (Nat.le_refl n))) f).2 (hlast f)

/-- `F<(int)>` is completed to `F<(int,char)>`. -/
def charCompleted (name : List Char) : List Char :=
  if name = "F<(int)>".toList then "F<(int,char)>".toList else name

/-- A feature for everything, and another value of it for `F<(int)>`. -/
def globalAndPlain : FeatureTable Bool :=
  (Finmap.singleton [] (Finmap.singleton "start".toList (Finmap.singleton ['f'] true))).insert
    "F<(int)>".toList (Finmap.singleton "start".toList (Finmap.singleton ['f'] false))

theorem completed_global : ¬ AttachesMostSpecific charCompleted globalAndPlain none
    (some "F<(int)>".toList) none ⟨none, ∅⟩ := by
  rintro ⟨runs, ⟨n, hn⟩, hall⟩
  have hvalues : (declarationEntries charCompleted globalAndPlain none none 2
      (some "F<(int)>".toList) none).map (fun runs =>
        ((having ['f'] runs.flatten).getLast?.map Prod.snd,
          (mostSpecific (having ['f'] runs.flatten)).map Prod.snd)) =
      some (some true, some false) := by decide
  obtain ⟨runs', hruns', hpair⟩ := Option.map_eq_some_iff.1 hvalues
  obtain rfl : runs' = runs := Option.some.inj
    ((declarationEntries_more (Nat.le_max_right n 2) hruns').symm.trans
      (hn (max n 2) (Nat.le_max_left _ _)))
  obtain ⟨after, ⟨m, hm⟩, -, hafter⟩ := hall listedKeys
  have hresult := hm (max n m) (Nat.le_max_right _ _)
  rw [swigFeaturesGet_eq, hn (max n m) (Nat.le_max_left _ _)] at hresult
  have hvalue := hafter ['f']
  rw [← Option.some.inj hresult, lookup_mergeEntries, (Prod.mk.inj hpair).1,
    (Prod.mk.inj hpair).2] at hvalue
  exact absurd hvalue (by simp)

end Swig4Ada.Swig

import Swig4Ada.Runtime.ClientData

/-!
# Which types get the client data

A type that is given client data is not visited again, since it has some then. So the calls
come to an end, and what they mark is what is reached along types that had none. With a null
pointer nothing is marked, and a cast from a type to itself is followed for ever.
-/

namespace Swig4Ada.Runtime

variable {T D : Type}

section Graph

variable (cast : T → List (TypeCast T)) (s : TypeData T D)

/-- There is an entry without a converter. -/
def Linked (a b : T) : Prop := ∃ iter ∈ cast a, iter.converter = false ∧ iter.type = b

/-- The type is reached along entries without a converter and types without client data. -/
def Open (ti t : T) : Prop :=
  Relation.ReflTransGen (fun a b => Linked cast a b ∧ s.clientdata b = none) ti t

/-- From one state to a later one: what had client data keeps them, the types that get `d` are
of the set, and the types that they are linked to have client data too. -/
structure Spreads (d : D) (reached : T → Prop) (s s' : TypeData T D) : Prop where
  owndata : s'.owndata = s.owndata
  kept : ∀ t, s.clientdata t ≠ none → s'.clientdata t = s.clientdata t
  given : ∀ t, s.clientdata t = none → s'.clientdata t ≠ none →
    s'.clientdata t = some d ∧ reached t
  closed : ∀ t, s.clientdata t = none → s'.clientdata t ≠ none →
    ∀ u, Linked cast t u → s'.clientdata u ≠ none

end Graph

section Spreads

variable {cast : T → List (TypeCast T)} {d : D} {reached : T → Prop} {s s₁ s₂ : TypeData T D}

theorem Spreads.refl : Spreads cast d reached s s :=
  ⟨rfl, fun _ _ => rfl, fun _ h h' => absurd h h', fun _ h h' => absurd h h'⟩

theorem Spreads.trans (h : Spreads cast d reached s s₁) (h' : Spreads cast d reached s₁ s₂) :
    Spreads cast d reached s s₂ where
  owndata := h'.owndata.trans h.owndata
  kept t ht := by
    have hone := h.kept t ht
    rw [h'.kept t (by rwa [hone]), hone]
  given t ht ht₂ := by
    by_cases ht₁ : s₁.clientdata t = none
    · exact h'.given t ht₁ ht₂
    · rw [h'.kept t ht₁]
      exact h.given t ht ht₁
  closed t ht ht₂ u hu := by
    by_cases ht₁ : s₁.clientdata t = none
    · exact h'.closed t ht₁ ht₂ u hu
    · have hu₁ := h.closed t ht ht₁ u hu
      rw [h'.kept u hu₁]
      exact hu₁

theorem Spreads.mono {reached' : T → Prop} (h : Spreads cast d reached s s₁)
    (hsub : ∀ t, reached t → reached' t) : Spreads cast d reached' s s₁ :=
  ⟨h.owndata, h.kept, fun t ht ht₁ => ⟨(h.given t ht ht₁).1, hsub t (h.given t ht ht₁).2⟩, h.closed⟩

theorem Spreads.nonempty (h : Spreads cast d reached s s₁) {t : T} (ht : s.clientdata t ≠ none) :
    s₁.clientdata t ≠ none := by
  rw [h.kept t ht]
  exact ht

/-- What is open later was open before. -/
theorem open_mono (h : ∀ t, s.clientdata t ≠ none → s₁.clientdata t ≠ none) {a b : T}
    (hab : Open cast s₁ a b) : Open cast s a b := by
  refine Relation.ReflTransGen.mono (fun x y hxy => ⟨hxy.1, ?_⟩) _ _ hab
  by_contra hy
  exact h y hy hxy.2

/-- A closed set that has the start in it has everything that is open from there. -/
theorem Spreads.of_open (h : Spreads cast d reached s s₁) {ti : T} (hti : s.clientdata ti = none)
    (hmarked : s₁.clientdata ti ≠ none) {t : T} (ht : Open cast s ti t) :
    s.clientdata t = none ∧ s₁.clientdata t = some d := by
  have hboth : s.clientdata t = none ∧ s₁.clientdata t ≠ none := by
    induction ht with
    | refl => exact ⟨hti, hmarked⟩
    | tail _ hstep ih => exact ⟨hstep.2, h.closed _ ih.1 ih.2 _ hstep.1⟩
  exact ⟨hboth.1, (h.given t hboth.1 hboth.2).1⟩

end Spreads

/-! ## The calls -/

section Calls

variable [Fintype T] [DecidableEq T] {cast : T → List (TypeCast T)} {d : D} {s s₁ : TypeData T D}

/-- The types without client data. -/
def unmarked (s : TypeData T D) : Nat :=
  (Finset.univ.filter fun t => (s.clientdata t).isNone = true).card

theorem unmarked_lt {reached : T → Prop} {ti : T} (hti : s.clientdata ti = none)
    (h : Spreads cast d reached (s.setClientdata ti (some d)) s₁) : unmarked s₁ < unmarked s := by
  have hmarked : (s.setClientdata ti (some d)).clientdata ti ≠ none := by
    show Function.update s.clientdata ti (some d) ti ≠ none
    rw [Function.update_self]
    exact Option.some_ne_none d
  refine Finset.card_lt_card (Finset.ssubset_iff_subset_ne.2 ⟨fun t ht => ?_, fun he => ?_⟩)
  · rw [Finset.mem_filter, Option.isNone_iff_eq_none] at ht ⊢
    refine ⟨ht.1, ?_⟩
    by_contra hne
    refine absurd ht.2 (h.nonempty ?_)
    by_cases hti : t = ti
    · rw [hti]
      exact hmarked
    · show Function.update s.clientdata ti (some d) t ≠ none
      rw [Function.update_of_ne hti]
      exact hne
  · have hmem : ti ∈ Finset.univ.filter fun t => (s.clientdata t).isNone = true := by
      rw [Finset.mem_filter, Option.isNone_iff_eq_none]
      exact ⟨Finset.mem_univ ti, hti⟩
    rw [← he, Finset.mem_filter, Option.isNone_iff_eq_none] at hmem
    exact h.nonempty hmarked hmem.2

omit [Fintype T] in
theorem setClientdata_nonempty {ti t : T} (h : s.clientdata t ≠ none ∨ t = ti) :
    (s.setClientdata ti (some d)).clientdata t ≠ none := by
  show Function.update s.clientdata ti (some d) t ≠ none
  by_cases ht : t = ti
  · rw [ht, Function.update_self]
    exact Option.some_ne_none d
  · rw [Function.update_of_ne ht]
    exact h.resolve_right ht

omit [Fintype T] [DecidableEq T] in
/-- The loop over the entries, when the calls in it do what they should. -/
theorem loop_spreads {call : T → TypeData T D → Option (TypeData T D)} {reached : T → Prop}
    {iters : List (TypeCast T)} {sk : TypeData T D}
    (hcall : ∀ iter ∈ iters, iter.converter = false → ∀ sk, Spreads cast d reached s sk →
      sk.clientdata iter.type = none → ∃ s', call iter.type sk = some s' ∧
        Spreads cast d reached sk s' ∧ s'.clientdata iter.type = some d)
    (hsk : Spreads cast d reached s sk) :
    ∃ s', (iters.foldlM (fun s iter => if iter.converter then some s
        else if (s.clientdata iter.type).isNone then call iter.type s else some s) sk) = some s' ∧
      Spreads cast d reached s s' ∧
      ∀ iter ∈ iters, iter.converter = false → s'.clientdata iter.type ≠ none := by
  induction iters using List.reverseRecOn with
  | nil => exact ⟨sk, rfl, hsk, fun _ h => absurd h List.not_mem_nil⟩
  | append_singleton iters iter ih =>
      obtain ⟨s₁, hloop, hs₁, hmarked⟩ :=
        ih fun i hi => hcall i (List.mem_append_left [iter] hi)
      have hlast : iter ∈ iters ++ [iter] := List.mem_append_right iters List.mem_cons_self
      have hturn : ∃ s', (if iter.converter then some s₁
          else if (s₁.clientdata iter.type).isNone then call iter.type s₁ else some s₁) = some s' ∧
          Spreads cast d reached s₁ s' ∧ (iter.converter = false → s'.clientdata iter.type ≠ none) := by
        cases hconverter : iter.converter with
        | true => exact ⟨s₁, rfl, Spreads.refl, fun h => absurd h.symm Bool.false_ne_true⟩
        | false =>
            cases hdata : s₁.clientdata iter.type with
            | none =>
                obtain ⟨s', hdone, hspreads, hgiven⟩ := hcall iter hlast hconverter s₁ hs₁ hdata
                refine ⟨s', hdone, hspreads, fun _ => ?_⟩
                rw [hgiven]
                exact Option.some_ne_none d
            | some x =>
                refine ⟨s₁, rfl, Spreads.refl, fun _ => ?_⟩
                rw [hdata]
                exact Option.some_ne_none x
      obtain ⟨s', hdone, hspreads, hgiven⟩ := hturn
      refine ⟨s', ?_, hs₁.trans hspreads, fun i hi hno => ?_⟩
      · rw [List.foldlM_append, hloop]
        exact (Option.bind_some _ _).trans (by rw [List.foldlM_cons, hdone]; rfl)
      · rcases List.mem_append.1 hi with hi | hi
        · exact hspreads.nonempty (hmarked i hi hno)
        · obtain rfl := List.mem_singleton.1 hi
          exact hgiven hno

/-- A call on a type without client data ends, and gives them to what is open from there. -/
theorem swigTypeClientData_spreads {fuel : Nat} {ti : T} (hti : s.clientdata ti = none)
    (hfuel : unmarked s ≤ fuel) :
    ∃ s', swigTypeClientData cast (some d) fuel ti s = some s' ∧
      Spreads cast d (Open cast s ti) s s' ∧ s'.clientdata ti = some d := by
  obtain ⟨n, hn⟩ : ∃ n, unmarked s = n := ⟨_, rfl⟩
  induction n using Nat.strong_induction_on generalizing s ti fuel with
  | _ n ih =>
      have hpos : unmarked (s.setClientdata ti (some d)) < unmarked s :=
        unmarked_lt hti (@Spreads.refl _ _ cast d (fun _ => True) _)
      obtain ⟨fuel, rfl⟩ : ∃ f, fuel = f + 1 := ⟨fuel - 1, by omega⟩
      have hcall : ∀ iter ∈ cast ti, iter.converter = false → ∀ sk,
          Spreads cast d (Open cast s ti) (s.setClientdata ti (some d)) sk →
          sk.clientdata iter.type = none →
          ∃ s', swigTypeClientData cast (some d) fuel iter.type sk = some s' ∧
            Spreads cast d (Open cast s ti) sk s' ∧ s'.clientdata iter.type = some d := by
        intro iter hiter hconverter sk hsk hopen
        have hless := unmarked_lt hti hsk
        obtain ⟨s', hdone, hspreads, hgiven⟩ := ih (unmarked sk) (by omega) hopen
          (show unmarked sk ≤ fuel by omega) rfl
        have hmarks : ∀ t, s.clientdata t ≠ none → sk.clientdata t ≠ none := fun t ht =>
          hsk.nonempty (setClientdata_nonempty (Or.inl ht))
        have hfirst : Open cast s ti iter.type := by
          refine Relation.ReflTransGen.single ⟨⟨iter, hiter, hconverter, rfl⟩, ?_⟩
          by_contra hne
          exact hmarks _ hne hopen
        exact ⟨s', hdone, hspreads.mono fun t ht => hfirst.trans (open_mono hmarks ht), hgiven⟩
      obtain ⟨s', hloop, hspreads, hmarked⟩ := loop_spreads hcall Spreads.refl
      have hself : s'.clientdata ti = some d := by
        rw [hspreads.kept ti (setClientdata_nonempty (Or.inr rfl))]
        exact Function.update_self ..
      refine ⟨s', hloop, ⟨hspreads.owndata, fun t ht => ?_, fun t ht ht' => ?_, fun t ht ht' u hu => ?_⟩,
        hself⟩
      · rw [hspreads.kept t (setClientdata_nonempty (Or.inl ht))]
        exact Function.update_of_ne (fun he => ht (by rw [he]; exact hti)) _ _
      · by_cases he : t = ti
        · subst he
          exact ⟨hself, Relation.ReflTransGen.refl⟩
        · exact hspreads.given t ((Function.update_of_ne he _ _).trans ht) ht'
      · by_cases he : t = ti
        · subst he
          obtain ⟨iter, hiter, hconverter, rfl⟩ := hu
          exact hmarked iter hiter hconverter
        · exact hspreads.closed t ((Function.update_of_ne he _ _).trans ht) ht' u hu

omit [Fintype T] in
/-- The client data that the first type had do not matter. -/
theorem open_start {ti t : T} :
    Open cast (s.setClientdata ti none) ti t ↔ Open cast s ti t := by
  constructor
  · intro h
    induction h with
    | refl => exact Relation.ReflTransGen.refl
    | @tail a b _ hstep ih =>
        by_cases hb : b = ti
        · rw [hb]
          exact Relation.ReflTransGen.refl
        · exact ih.tail ⟨hstep.1, (Function.update_of_ne hb _ _).symm.trans hstep.2⟩
  · refine open_mono fun t ht hnone => ht ?_
    show Function.update s.clientdata ti none t = none
    by_cases he : t = ti
    · rw [he, Function.update_self]
    · rw [Function.update_of_ne he]
      exact hnone

omit [Fintype T] in
theorem setClientdata_twice {ti : T} {first second : Option D} :
    (s.setClientdata ti first).setClientdata ti second = s.setClientdata ti second := by
  unfold TypeData.setClientdata
  rw [Function.update_idem]

omit [Fintype T] in
theorem swigTypeClientData_start {clientdata first : Option D} {fuel : Nat} {ti : T} :
    swigTypeClientData cast clientdata fuel ti (s.setClientdata ti first) =
      swigTypeClientData cast clientdata fuel ti s := by
  cases fuel with
  | zero => rfl
  | succ fuel => rw [swigTypeClientData, swigTypeClientData, setClientdata_twice]

omit [Fintype T] in
/-- With a null pointer the entry from a type to itself is followed again and again. -/
theorem swigTypeClientData_null (hself : ∀ t, Linked cast t t) (fuel : Nat) (ti : T)
    (s : TypeData T D) : swigTypeClientData cast none fuel ti s = none := by
  induction fuel generalizing ti s with
  | zero => rfl
  | succ fuel ih =>
      -- As no call comes back, the state in front of an entry is the first one.
      have hsame : ∀ (l : List (TypeCast T)) (sk : TypeData T D),
          l.foldlM (fun s iter => if iter.converter then some s
            else if (s.clientdata iter.type).isNone then
              swigTypeClientData cast none fuel iter.type s else some s) sk = none ∨
          l.foldlM (fun s iter => if iter.converter then some s
            else if (s.clientdata iter.type).isNone then
              swigTypeClientData cast none fuel iter.type s else some s) sk = some sk := by
        intro l
        induction l with
        | nil => exact fun sk => Or.inr rfl
        | cons iter l ihl =>
            intro sk
            rw [List.foldlM_cons, ih]
            cases iter.converter with
            | true => exact ihl sk
            | false =>
                cases (sk.clientdata iter.type).isNone with
                | true => exact Or.inl rfl
                | false => exact ihl sk
      obtain ⟨iter, hiter, hconverter, htype⟩ := hself ti
      obtain ⟨before, after, hcast⟩ := List.append_of_mem hiter
      rw [swigTypeClientData, hcast, List.foldlM_append]
      rcases hsame before (s.setClientdata ti none) with hnone | hstay
      · rw [hnone]
        rfl
      · have hdata : ((s.setClientdata ti none).clientdata iter.type).isNone = true := by
          rw [htype, Option.isNone_iff_eq_none]
          exact Function.update_self ..
        rw [hstay, Option.bind_eq_bind, Option.bind_some, List.foldlM_cons, ih, hconverter,
          if_neg Bool.false_ne_true, if_pos hdata]
        rfl

/-- With a pointer that is not null the calls come to an end, and the data have gone to all the
types that are open from the first one. -/
theorem swigTypeClientData_done (d : D) (ti : T) (s : TypeData T D) :
    ∃ s' n, (∀ fuel, n ≤ fuel → swigTypeClientData cast (some d) fuel ti s = some s') ∧
      s'.owndata = s.owndata ∧ s'.clientdata ti = some d ∧
      (∀ t, Open cast s ti t → s'.clientdata t = some d) ∧
      ∀ t, ¬ Open cast s ti t → s'.clientdata t = s.clientdata t := by
  have hti : (s.setClientdata ti none).clientdata ti = none := Function.update_self ..
  classical
  refine ⟨⟨fun t => if Open cast s ti t then some d else s.clientdata t, s.owndata⟩,
    unmarked (s.setClientdata ti none), fun fuel hfuel => ?_, rfl,
    if_pos Relation.ReflTransGen.refl, fun t ht => if_pos ht, fun t ht => if_neg ht⟩
  obtain ⟨s', hdone, hspreads, hgiven⟩ := @swigTypeClientData_spreads T D _ _ cast d _ _ _ hti hfuel
  rw [swigTypeClientData_start] at hdone
  rw [hdone]
  refine congrArg some (TypeData.ext (funext fun t => ?_) hspreads.owndata)
  by_cases ht : Open cast s ti t
  · have hmarked : s'.clientdata ti ≠ none := by
      rw [hgiven]
      exact Option.some_ne_none d
    exact (hspreads.of_open hti hmarked (open_start.2 ht)).2.trans (if_pos ht).symm
  · have hne : t ≠ ti := by
      rintro rfl
      exact ht Relation.ReflTransGen.refl
    have hstart : (s.setClientdata ti none).clientdata t = s.clientdata t :=
      Function.update_of_ne hne _ _
    refine Eq.trans ?_ (if_neg ht).symm
    rw [← hstart]
    by_cases hdata : (s.setClientdata ti none).clientdata t = none
    · by_contra hchanged
      rw [hdata] at hchanged
      exact ht (open_start.1 (hspreads.given t hdata hchanged).2)
    · exact hspreads.kept t hdata

/-- `SWIG_TypeNewClientData` gives out the data likewise, and only its own type owns them. -/
theorem swigTypeNewClientData_done (d : D) (ti : T) (s : TypeData T D) :
    ∃ s' n, (∀ fuel, n ≤ fuel → swigTypeNewClientData cast (some d) fuel ti s = some s') ∧
      s'.owndata ti = true ∧ (∀ t, t ≠ ti → s'.owndata t = s.owndata t) ∧
      (∀ t, Open cast s ti t → s'.clientdata t = some d) ∧
      ∀ t, ¬ Open cast s ti t → s'.clientdata t = s.clientdata t := by
  obtain ⟨s', n, hdone, hown, -, hopen, hkept⟩ :=
    @swigTypeClientData_done T D _ _ cast d ti s
  refine ⟨{ s' with owndata := Function.update s'.owndata ti true }, n, fun fuel hfuel => ?_,
    Function.update_self .., fun t ht => ?_, hopen, hkept⟩
  · rw [swigTypeNewClientData, hdone fuel hfuel]
    rfl
  · rw [← hown]
    exact Function.update_of_ne ht _ _

/-- Where every type has an entry without converter to itself, the call ends and does what it
should if and only if the pointer is not null. -/
theorem swigTypeClientData_right_iff (hself : ∀ t, Linked cast t t) (clientdata : Option D)
    (ti : T) (s : TypeData T D) :
    (∃ s' n, (∀ fuel, n ≤ fuel → swigTypeClientData cast clientdata fuel ti s = some s') ∧
      s'.owndata = s.owndata ∧ s'.clientdata ti = clientdata ∧
      (∀ t, Open cast s ti t → s'.clientdata t = clientdata) ∧
      ∀ t, ¬ Open cast s ti t → s'.clientdata t = s.clientdata t) ↔ clientdata ≠ none := by
  constructor
  · rintro ⟨s', n, hdone, -⟩ rfl
    have hnone := swigTypeClientData_null hself n ti s
    rw [hdone n (le_refl n)] at hnone
    cases hnone
  · intro hne
    obtain ⟨d, rfl⟩ := Option.ne_none_iff_exists'.1 hne
    exact swigTypeClientData_done d ti s

end Calls

/-- The graph of one type with its entry to itself. -/
def oneType : Unit → List (TypeCast Unit) := fun _ => [⟨(), false⟩]

theorem oneType_self (t : Unit) : Linked oneType t t := ⟨⟨(), false⟩, List.mem_cons_self, rfl, rfl⟩

def noData : TypeData Unit Nat := ⟨fun _ => none, fun _ => false⟩

/-- No depth of calls is enough for the null pointer. -/
theorem oneType_null : ¬ ∃ s' n, ∀ fuel, n ≤ fuel →
    swigTypeClientData oneType none fuel () noData = some s' := by
  rintro ⟨s', n, hdone⟩
  have hnone := swigTypeClientData_null oneType_self n () noData
  rw [hdone n (le_refl n)] at hnone
  cases hnone

/-- Three types in a circle, from the last of which a converter leads to a fourth. -/
inductive Circled
  | first | second | third | apart
deriving DecidableEq

instance : Fintype Circled :=
  ⟨{.first, .second, .third, .apart}, fun t => by cases t <;> decide⟩

def circle : Circled → List (TypeCast Circled)
  | .first => [⟨.first, false⟩, ⟨.second, false⟩]
  | .second => [⟨.second, false⟩, ⟨.third, false⟩]
  | .third => [⟨.third, false⟩, ⟨.first, false⟩, ⟨.apart, true⟩]
  | .apart => [⟨.apart, false⟩]

theorem circle_self (t : Circled) : Linked circle t t := by
  refine ⟨⟨t, false⟩, ?_, rfl, rfl⟩
  cases t <;> exact List.mem_cons_self

/-- The last of the three has data already, the second is reached. -/
def thirdData : TypeData Circled Nat where
  clientdata
    | .third => some 5
    | _ => none
  owndata _ := false

theorem circle_given : (∀ t, Linked circle t t) ∧ Open circle thirdData .first .second ∧
    ((∃ s' n,
        (∀ fuel, n ≤ fuel →
          swigTypeClientData circle (some 7) fuel .first thirdData = some s') ∧
        s'.owndata = thirdData.owndata ∧ s'.clientdata .first = some 7 ∧
        (∀ t, Open circle thirdData .first t → s'.clientdata t = some 7) ∧
        ∀ t, ¬ Open circle thirdData .first t → s'.clientdata t = thirdData.clientdata t) ↔
      some 7 ≠ none) :=
  ⟨circle_self,
    .single ⟨⟨⟨.second, false⟩, List.mem_cons_of_mem _ List.mem_cons_self, rfl, rfl⟩, rfl⟩,
    swigTypeClientData_right_iff circle_self (some 7) .first thirdData⟩

end Swig4Ada.Runtime

import Swig4Ada.Swig.Symbol

/-!
# Overload chains over sequences of additions and removals

Adding a symbol keeps both tables of its scope in order: the chain of its name grows
at the end, and so does the way from its entry in the C table. Removing one relinks
its neighbours in the chain and counts anew, but two things are left undone. When the
first of three or more symbols goes, the others keep naming it as the first one. And
its own `csym:nextSibling` is deleted without the entry before it being linked to the
one behind, so that the way from the table ends at the removed symbol.

The C table needs an invariant of its own, as symbols that were removed, or refused
because of a conflict, stay on its ways: every way ends, what it meets has the name
of the entry up to default arguments, and a type name that it meets stands first.
-/

namespace Swig4Ada.Swig

open Swig4Ada.Lib

variable {N : Type} [DecidableEq N] {D : Declarations N} {s : Symbols N} {n : N}

/-! ## The C table -/

namespace Declarations

/-- The name under which `Swig_symbol_cadd` enters a node first. -/
def entryName (D : Declarations N) (name : List Char) : List Char :=
  if swigTypeIstemplate name then D.deftype name else name

omit [DecidableEq N] in
theorem entryName_idem (name : List Char) : D.entryName (D.entryName name) = D.entryName name := by
  by_cases h : swigTypeIstemplate name
  · have hname : D.entryName name = D.deftype name := if_pos h
    rw [hname]
    by_cases h' : swigTypeIstemplate (D.deftype name)
    · exact (if_pos h').trans (D.settled name)
    · exact if_neg h'
  · have hname : D.entryName name = name := if_neg h
    rw [hname, hname]

end Declarations

structure Entries (D : Declarations N) (ccurrent : List Char → Option N)
    (cnextSibling : N → Option N) : Prop where
  terminates : ∀ n, Terminates cnextSibling n
  sameName : ∀ name n, OnEntry ccurrent cnextSibling name n →
    D.entryName (D.node n).name = D.entryName name
  typenameFirst : ∀ name n, D.entryName name = name → OnEntry ccurrent cnextSibling name n →
    (D.node n).typename → ∃ first, ccurrent name = some first ∧ (D.node first).typename
  overloadable : ∀ name n, OnEntry ccurrent cnextSibling name n → (D.node n).Overloadable

section Walk

variable {cnextSibling : N → Option N} {a append e : N}

theorem lastEntry_met (h : Reaches cnextSibling a append) :
    ∃ steps, ∀ fuel ≥ steps, lastEntry cnextSibling append fuel a = some none := by
  induction h using Relation.ReflTransGen.head_induction_on with
  | refl =>
      refine ⟨1, fun fuel hfuel => ?_⟩
      obtain ⟨fuel, rfl⟩ : ∃ k, fuel = k + 1 := ⟨fuel - 1, by omega⟩
      exact if_pos rfl
  | @head a c hstep _ ih =>
      obtain ⟨steps, ih⟩ := ih
      refine ⟨steps + 1, fun fuel hfuel => ?_⟩
      obtain ⟨fuel, rfl⟩ : ∃ k, fuel = k + 1 := ⟨fuel - 1, by omega⟩
      rw [lastEntry, hstep]
      by_cases ha : a = append
      · exact if_pos ha
      · exact (if_neg ha).trans (ih fuel (by omega))

theorem lastEntry_end (h : Reaches cnextSibling a e) (he : cnextSibling e = none)
    (hnot : ¬ Reaches cnextSibling a append) :
    ∃ steps, ∀ fuel ≥ steps, lastEntry cnextSibling append fuel a = some (some e) := by
  induction h using Relation.ReflTransGen.head_induction_on with
  | refl =>
      refine ⟨1, fun fuel hfuel => ?_⟩
      obtain ⟨fuel, rfl⟩ : ∃ k, fuel = k + 1 := ⟨fuel - 1, by omega⟩
      have hne : e ≠ append := fun h => hnot (h ▸ Relation.ReflTransGen.refl)
      rw [lastEntry, he]
      exact if_neg hne
  | @head a c hstep _ ih =>
      obtain ⟨steps, ih⟩ := ih fun h => hnot (Relation.ReflTransGen.head hstep h)
      refine ⟨steps + 1, fun fuel hfuel => ?_⟩
      obtain ⟨fuel, rfl⟩ : ∃ k, fuel = k + 1 := ⟨fuel - 1, by omega⟩
      have hne : a ≠ append := fun h => hnot (h ▸ Relation.ReflTransGen.refl)
      rw [lastEntry, hstep]
      exact (if_neg hne).trans (ih fuel (by omega))

end Walk

/-- What one entry does to the C table: the node is on the way of the name, and so
is all that was on it. -/
structure Entered (D : Declarations N) (s s' : Symbols N) (name : List Char) (n : N) : Prop where
  rest : s' = { s with ccurrent := s'.ccurrent, cnextSibling := s'.cnextSibling }
  entries : Entries D s'.ccurrent s'.cnextSibling
  onEntry : OnEntry s'.ccurrent s'.cnextSibling name n
  keeps : ∀ y m, OnEntry s.ccurrent s.cnextSibling y m → OnEntry s'.ccurrent s'.cnextSibling y m
  own : ¬ (D.node n).typename → s'.cnextSibling n = s.cnextSibling n

variable {name : List Char} {cn : N}

/-- A node goes to the end of the way, or it is on it already. -/
theorem appendEntry_entered (h : Entries D s.ccurrent s.cnextSibling)
    (hn : (D.node n).Overloadable) (hfirst : s.ccurrent name = some cn)
    (hname : D.entryName (D.node n).name = D.entryName name)
    (hfree : OnEntry s.ccurrent s.cnextSibling name n ∨ s.cnextSibling n = none)
    (htypename : (D.node n).typename → D.entryName name = name ∧ (D.node cn).typename) :
    ∃ s', (∃ steps, ∀ fuel ≥ steps, appendEntry fuel s cn n = some s') ∧
      Entered D s s' name n := by
  by_cases hmet : Reaches s.cnextSibling cn n
  · obtain ⟨steps, hsteps⟩ := lastEntry_met hmet
    refine ⟨s, ⟨steps, fun fuel hfuel => ?_⟩, rfl, h, ⟨cn, hfirst, hmet⟩, fun _ _ hm => hm,
      fun _ => rfl⟩
    rw [appendEntry, hsteps fuel hfuel]
  have hnext : s.cnextSibling n = none := by
    rcases hfree with ⟨first, hf, hr⟩ | hnext
    · obtain rfl : cn = first := Option.some.inj (hfirst.symm.trans hf)
      exact absurd hr hmet
    · exact hnext
  obtain ⟨e, hce, he⟩ := h.terminates cn
  have hne : ¬ Reaches s.cnextSibling n e := by
    intro hr
    obtain rfl := hr.of_next_none hnext
    exact hmet hce
  have hreach : ∀ a m, Reaches (Function.update s.cnextSibling e (some n)) a m ↔
      Reaches s.cnextSibling a m ∨ Reaches s.cnextSibling a e ∧ m = n := by
    intro a m
    rw [Reaches.link_iff he hne]
    refine or_congr Iff.rfl (and_congr Iff.rfl ⟨fun hr => hr.of_next_none hnext, ?_⟩)
    rintro rfl
    exact Relation.ReflTransGen.refl
  -- A way that ends where this one does is the way of a name with the same default type.
  have hend : D.entryName (D.node e).name = D.entryName name :=
    h.sameName name e ⟨cn, hfirst, hce⟩
  obtain ⟨steps, hsteps⟩ := lastEntry_end hce he hmet
  refine ⟨s.setCnextSibling e (some n), ⟨steps, fun fuel hfuel => ?_⟩, rfl, ?_, ?_, ?_, ?_⟩
  · rw [appendEntry, hsteps fuel hfuel]
  · refine ⟨fun a => Terminates.link he hne (h.terminates n) (h.terminates a), ?_, ?_, ?_⟩
    · rintro y m ⟨first, hy, hr⟩
      rcases (hreach first m).1 hr with hr | ⟨hre, rfl⟩
      · exact h.sameName y m ⟨first, hy, hr⟩
      · exact hname.trans (hend.symm.trans (h.sameName y e ⟨first, hy, hre⟩))
    · rintro y m hsettled ⟨first, hy, hr⟩ hm
      rcases (hreach first m).1 hr with hr | ⟨hre, rfl⟩
      · exact h.typenameFirst y m hsettled ⟨first, hy, hr⟩ hm
      · obtain ⟨hx, hcn⟩ := htypename hm
        have hyx : D.entryName y = D.entryName name :=
          (h.sameName y e ⟨first, hy, hre⟩).symm.trans hend
        rw [hsettled, hx] at hyx
        exact ⟨cn, hyx ▸ hfirst, hcn⟩
    · rintro y m ⟨first, hy, hr⟩
      rcases (hreach first m).1 hr with hr | ⟨-, rfl⟩
      · exact h.overloadable y m ⟨first, hy, hr⟩
      · exact hn
  · exact ⟨cn, hfirst, (hreach cn n).2 (Or.inr ⟨hce, rfl⟩)⟩
  · rintro y m ⟨first, hy, hr⟩
    exact ⟨first, hy, (hreach first m).2 (Or.inl hr)⟩
  · intro _
    have hen : n ≠ e := by
      rintro rfl
      exact hmet hce
    exact Function.update_of_ne hen _ _

omit [DecidableEq N] in
/-- The first node of a name. -/
theorem setCcurrent_entered (h : Entries D s.ccurrent s.cnextSibling)
    (hn : (D.node n).Overloadable) (hfirst : s.ccurrent name = none)
    (hname : D.entryName (D.node n).name = D.entryName name) (hnext : s.cnextSibling n = none) :
    Entered D s (s.setCcurrent name n) name n := by
  have honly : ∀ y m, OnEntry (s.setCcurrent name n).ccurrent s.cnextSibling y m ↔
      (y = name ∧ m = n) ∨ OnEntry s.ccurrent s.cnextSibling y m := by
    intro y m
    by_cases hy : y = name
    · subst hy
      constructor
      · rintro ⟨first, hf, hr⟩
        obtain rfl : n = first := by simpa [Symbols.setCcurrent] using hf
        exact Or.inl ⟨rfl, hr.of_next_none hnext⟩
      · rintro (⟨-, rfl⟩ | ⟨first, hf, -⟩)
        · exact ⟨m, by simp [Symbols.setCcurrent], Relation.ReflTransGen.refl⟩
        · rw [hfirst] at hf
          cases hf
    · simp [OnEntry, Symbols.setCcurrent, hy]
  refine ⟨rfl, ⟨h.terminates, ?_, ?_, ?_⟩, (honly name n).2 (Or.inl ⟨rfl, rfl⟩),
    fun y m hm => (honly y m).2 (Or.inr hm), fun _ => rfl⟩
  · intro y m hm
    rcases (honly y m).1 hm with ⟨rfl, rfl⟩ | hm
    · exact hname
    · exact h.sameName y m hm
  · intro y m hsettled hm htype
    rcases (honly y m).1 hm with ⟨rfl, rfl⟩ | hm
    · exact ⟨m, by simp [Symbols.setCcurrent], htype⟩
    · obtain ⟨first, hf, ht⟩ := h.typenameFirst y m hsettled hm htype
      refine ⟨first, ?_, ht⟩
      have hne : y ≠ name := by
        rintro rfl
        rw [hfirst] at hf
        cases hf
      simpa [Symbols.setCcurrent, hne] using hf
  · intro y m hm
    rcases (honly y m).1 hm with ⟨-, rfl⟩ | hm
    · exact hn
    · exact h.overloadable y m hm

/-- A type name goes before nodes that are none. -/
theorem typename_entered (h : Entries D s.ccurrent s.cnextSibling)
    (hn : (D.node n).Overloadable) (hfirst : s.ccurrent name = some cn)
    (hname : D.entryName (D.node n).name = D.entryName name)
    (hfree : OnEntry s.ccurrent s.cnextSibling name n ∨ s.cnextSibling n = none)
    (hsettled : D.entryName name = name) (htype : (D.node n).typename)
    (hplain : ¬ (D.node cn).typename) :
    ∃ s', (∃ steps, ∀ fuel ≥ steps, appendEntry fuel (s.setCcurrent name n) n cn = some s') ∧
      Entered D s s' name n := by
  have hmet : ¬ OnEntry s.ccurrent s.cnextSibling name n := by
    intro hon
    obtain ⟨first, hf, ht⟩ := h.typenameFirst name n hsettled hon htype
    obtain rfl : cn = first := Option.some.inj (hfirst.symm.trans hf)
    exact hplain ht
  have hnext : s.cnextSibling n = none := hfree.resolve_left hmet
  have hcn : ¬ Reaches s.cnextSibling cn n := fun hr => hmet ⟨cn, hfirst, hr⟩
  have hnotmet : ¬ Reaches s.cnextSibling n cn := by
    intro hr
    obtain rfl := hr.of_next_none hnext
    exact hcn Relation.ReflTransGen.refl
  obtain ⟨steps, hsteps⟩ := lastEntry_end (Relation.ReflTransGen.refl (a := n)) hnext hnotmet
  have hon : ∀ y m, OnEntry (Function.update s.ccurrent name (some n))
        (Function.update s.cnextSibling n (some cn)) y m ↔
      (y = name ∧ m = n) ∨ OnEntry s.ccurrent s.cnextSibling y m ∨
        OnEntry s.ccurrent s.cnextSibling y n ∧ OnEntry s.ccurrent s.cnextSibling name m := by
    intro y m
    have hfrom : OnEntry s.ccurrent s.cnextSibling name m ↔ Reaches s.cnextSibling cn m := by
      refine ⟨?_, fun hr => ⟨cn, hfirst, hr⟩⟩
      rintro ⟨first, hf, hr⟩
      obtain rfl : cn = first := Option.some.inj (hfirst.symm.trans hf)
      exact hr
    by_cases hy : y = name
    · subst hy
      have hlink : OnEntry (Function.update s.ccurrent y (some n))
          (Function.update s.cnextSibling n (some cn)) y m ↔
          Reaches (Function.update s.cnextSibling n (some cn)) n m := by
        simp [OnEntry]
      rw [hlink, Reaches.link_iff hnext hcn, hfrom]
      constructor
      · rintro (hr | ⟨-, hr⟩)
        · exact Or.inl ⟨rfl, hr.of_next_none hnext⟩
        · exact Or.inr (Or.inl hr)
      · rintro (⟨-, rfl⟩ | hr | ⟨hr, -⟩)
        · exact Or.inl Relation.ReflTransGen.refl
        · exact Or.inr ⟨Relation.ReflTransGen.refl, hr⟩
        · exact absurd hr hmet
    · have hlink : OnEntry (Function.update s.ccurrent name (some n))
          (Function.update s.cnextSibling n (some cn)) y m ↔
          OnEntry s.ccurrent (Function.update s.cnextSibling n (some cn)) y m := by
        simp [OnEntry, hy]
      rw [hlink, hfrom]
      constructor
      · rintro ⟨first, hf, hr⟩
        rcases (Reaches.link_iff hnext hcn).1 hr with hr | ⟨hr, hm⟩
        · exact Or.inr (Or.inl ⟨first, hf, hr⟩)
        · exact Or.inr (Or.inr ⟨⟨first, hf, hr⟩, hm⟩)
      · rintro (⟨rfl, -⟩ | ⟨first, hf, hr⟩ | ⟨⟨first, hf, hr⟩, hm⟩)
        · exact absurd rfl hy
        · exact ⟨first, hf, (Reaches.link_iff hnext hcn).2 (Or.inl hr)⟩
        · exact ⟨first, hf, (Reaches.link_iff hnext hcn).2 (Or.inr ⟨hr, hm⟩)⟩
  refine ⟨(s.setCcurrent name n).setCnextSibling n (some cn), ⟨steps, fun fuel hfuel => ?_⟩,
    rfl, ⟨fun a => ?_, ?_, ?_, ?_⟩, (hon name n).2 (Or.inl ⟨rfl, rfl⟩),
    fun y m hm => (hon y m).2 (Or.inr (Or.inl hm)), fun hno => absurd htype hno⟩
  · have hrun : lastEntry (s.setCcurrent name n).cnextSibling cn fuel n = some (some n) :=
      hsteps fuel hfuel
    rw [appendEntry, hrun]
  · exact Terminates.link hnext hcn (h.terminates cn) (h.terminates a)
  · intro y m hm
    rcases (hon y m).1 hm with ⟨rfl, rfl⟩ | hm | ⟨hyn, hm⟩
    · exact hname
    · exact h.sameName y m hm
    · exact (h.sameName name m hm).trans (hname.symm.trans (h.sameName y n hyn))
  · intro y m hy hm ht
    by_cases hyname : y = name
    · exact ⟨n, by simp [hyname, Symbols.setCnextSibling, Symbols.setCcurrent], htype⟩
    · have hold : ∃ first, s.ccurrent y = some first ∧ (D.node first).typename := by
        rcases (hon y m).1 hm with ⟨rfl, -⟩ | hm | ⟨hyn, -⟩
        · exact absurd rfl hyname
        · exact h.typenameFirst y m hy hm ht
        · exact h.typenameFirst y n hy hyn htype
      obtain ⟨first, hf, hfirst'⟩ := hold
      refine ⟨first, ?_, hfirst'⟩
      simpa [Symbols.setCnextSibling, Symbols.setCcurrent, hyname] using hf
  · intro y m hm
    rcases (hon y m).1 hm with ⟨-, rfl⟩ | hm | ⟨-, hm⟩
    · exact hn
    · exact h.overloadable y m hm
    · exact h.overloadable name m hm

theorem enterCsymbol_entered (h : Entries D s.ccurrent s.cnextSibling)
    (hn : (D.node n).Overloadable) (hname : D.entryName (D.node n).name = D.entryName name)
    (hfree : OnEntry s.ccurrent s.cnextSibling name n ∨ s.cnextSibling n = none)
    (htypename : (D.node n).typename → D.entryName name = name) :
    ∃ s', (∃ steps, ∀ fuel ≥ steps, enterCsymbol D fuel s name n = some s') ∧
      Entered D s s' name n := by
  cases hfirst : s.ccurrent name with
  | none =>
      have hnext : s.cnextSibling n = none := by
        rcases hfree with ⟨first, hf, -⟩ | hnext
        · rw [hfirst] at hf
          cases hf
        · exact hnext
      refine ⟨s.setCcurrent name n, ⟨0, fun fuel _ => ?_⟩,
        setCcurrent_entered h hn hfirst hname hnext⟩
      rw [enterCsymbol, hfirst]
  | some cn =>
      have hcn : (D.node cn).Overloadable :=
        h.overloadable name cn ⟨cn, hfirst, Relation.ReflTransGen.refl⟩
      have hweak : ∀ d : Declaration, d.Overloadable → ¬ d.weak = true := fun d hd => by
        simp [hd.strong]
      by_cases hcnType : (D.node cn).typename
      · obtain ⟨s', ⟨steps, hsteps⟩, hs'⟩ := appendEntry_entered h hn hfirst hname hfree
          fun ht => ⟨htypename ht, hcnType⟩
        refine ⟨s', ⟨steps, fun fuel hfuel => ?_⟩, hs'⟩
        simp only [enterCsymbol, hfirst, if_pos hcnType]
        exact hsteps fuel hfuel
      · by_cases htype : (D.node n).typename
        · obtain ⟨s', ⟨steps, hsteps⟩, hs'⟩ := typename_entered h hn hfirst hname hfree
            (htypename htype) htype hcnType
          refine ⟨s', ⟨steps, fun fuel hfuel => ?_⟩, hs'⟩
          simp only [enterCsymbol, hfirst, if_neg hcnType, if_neg (hweak _ hcn),
            if_neg (hweak _ hn), if_pos htype]
          exact hsteps fuel hfuel
        · obtain ⟨s', ⟨steps, hsteps⟩, hs'⟩ := appendEntry_entered h hn hfirst hname hfree
            fun ht => absurd ht htype
          refine ⟨s', ⟨steps, fun fuel hfuel => ?_⟩, hs'⟩
          simp only [enterCsymbol, hfirst, if_neg hcnType, if_neg (hweak _ hcn),
            if_neg (hweak _ hn), if_neg htype, if_neg hcn.no_templateparm]
          exact hsteps fuel hfuel

/-- A symbol that is not on the way of its name brings no link of an earlier one
with it, and a type name has no other default type. -/
structure AddFits (D : Declarations N) (s : Symbols N) (n : N) : Prop where
  unlinked : ∀ name, name = (D.node n).name ∨ name = D.entryName (D.node n).name →
    OnEntry s.ccurrent s.cnextSibling name n ∨ s.cnextSibling n = none
  typename : (D.node n).typename → D.entryName (D.node n).name = (D.node n).name

theorem symbolCadd_entered (h : Entries D s.ccurrent s.cnextSibling)
    (hn : (D.node n).Overloadable) (hfits : AddFits D s n) :
    ∃ s', (∃ steps, ∀ fuel ≥ steps, symbolCadd D fuel s (D.node n).name n = some s') ∧
      Entered D s s' (D.node n).name n := by
  generalize hx : (D.node n).name = x at *
  by_cases htemplate : swigTypeIstemplate x ∧ D.deftype x ≠ x
  · have hentry : D.entryName x = D.deftype x := if_pos htemplate.1
    have hplain : ¬ (D.node n).typename := fun ht =>
      htemplate.2 (hentry.symm.trans (hx ▸ hfits.typename ht))
    have hd : D.entryName (D.node n).name = D.entryName (D.deftype x) := by
      rw [hx, ← hentry, D.entryName_idem]
    have hfree := hfits.unlinked
    rw [hx] at hfree
    obtain ⟨s₁, ⟨steps₁, h₁⟩, he₁⟩ := enterCsymbol_entered h hn hd
      (hfree (D.deftype x) (Or.inr hentry.symm)) fun ht => absurd ht hplain
    have hfree₁ : OnEntry s₁.ccurrent s₁.cnextSibling x n ∨ s₁.cnextSibling n = none := by
      rw [he₁.own hplain]
      exact (hfree x (Or.inl rfl)).imp_left (he₁.keeps x n)
    obtain ⟨s₂, ⟨steps₂, h₂⟩, he₂⟩ := enterCsymbol_entered he₁.entries hn (congrArg _ hx) hfree₁
      fun ht => absurd ht hplain
    refine ⟨s₂, ⟨steps₁ + steps₂ + 2, fun fuel hfuel => ?_⟩, ?_, he₂.entries, he₂.onEntry,
      fun y m hm => he₂.keeps y m (he₁.keeps y m hm),
      fun hp => (he₂.own hp).trans (he₁.own hp)⟩
    · obtain ⟨fuel, rfl⟩ : ∃ k, fuel = k + 2 := ⟨fuel - 2, by omega⟩
      -- The default type of the name is entered without another one.
      have hinner : symbolCadd D (fuel + 1) s (D.deftype x) n = some s₁ := by
        have hsettled : ¬ (swigTypeIstemplate (D.deftype x) ∧
            D.deftype (D.deftype x) ≠ D.deftype x) := fun hne => hne.2 (D.settled x)
        rw [symbolCadd]
        simp only [if_neg hsettled, Option.bind_eq_bind, Option.bind_some]
        exact h₁ (fuel + 1) (by omega)
      rw [symbolCadd]
      simp only [if_pos htemplate, hinner, Option.bind_eq_bind, Option.bind_some]
      exact h₂ (fuel + 2) (by omega)
    · exact he₂.rest.trans (by rw [he₁.rest])
  · have htypename : (D.node n).typename → D.entryName x = x := fun ht => hx ▸ hfits.typename ht
    obtain ⟨s₁, ⟨steps, h₁⟩, he⟩ := enterCsymbol_entered h hn (congrArg _ hx)
      (hfits.unlinked x (Or.inl hx.symm)) htypename
    refine ⟨s₁, ⟨steps + 1, fun fuel hfuel => ?_⟩, he⟩
    obtain ⟨fuel, rfl⟩ : ∃ k, fuel = k + 1 := ⟨fuel - 1, by omega⟩
    rw [symbolCadd]
    simp only [if_neg htemplate, Option.bind_eq_bind, Option.bind_some]
    exact h₁ (fuel + 1) (by omega)

/-! ## The list of a name -/

omit [DecidableEq N] in
theorem walkOverloads_chain {before : Option N} {c : N} {l : List N} (byUsing : Bool)
    (h : Chained s.nextSibling s.previousSibling before (c :: l) none) (pn : Nat) :
    (∃ cn ∈ c :: l, ∀ fuel ≥ l.length + 1,
        walkOverloads D s byUsing n fuel pn c = some (.inl cn)) ∨
      ∃ z, (c :: l).getLast? = some z ∧ ∀ fuel ≥ l.length + 1,
        walkOverloads D s byUsing n fuel pn c = some (.inr (z, pn + (c :: l).length)) := by
  induction l generalizing c pn before with
  | nil =>
      have hc : s.nextSibling c = none := by simpa using h.2.1
      by_cases hconflict : !byUsing && (D.node n).conflicts (D.node c)
      · refine Or.inl ⟨c, List.mem_cons_self, fun fuel hfuel => ?_⟩
        obtain ⟨fuel, rfl⟩ : ∃ k, fuel = k + 1 := ⟨fuel - 1, by omega⟩
        exact if_pos hconflict
      · refine Or.inr ⟨c, rfl, fun fuel hfuel => ?_⟩
        obtain ⟨fuel, rfl⟩ : ∃ k, fuel = k + 1 := ⟨fuel - 1, by omega⟩
        rw [walkOverloads, hc]
        exact if_neg hconflict
  | cons d l ih =>
      have hc : s.nextSibling c = some d := by simpa using h.2.1
      by_cases hconflict : !byUsing && (D.node n).conflicts (D.node c)
      · refine Or.inl ⟨c, List.mem_cons_self, fun fuel hfuel => ?_⟩
        obtain ⟨fuel, rfl⟩ : ∃ k, fuel = k + 1 := ⟨fuel - 1, by omega⟩
        exact if_pos hconflict
      · have hstep : ∀ fuel, walkOverloads D s byUsing n (fuel + 1) pn c =
            walkOverloads D s byUsing n fuel (pn + 1) d := by
          intro fuel
          rw [walkOverloads, hc]
          exact if_neg hconflict
        have hlen : (d :: l).length = l.length + 1 := rfl
        rcases ih h.2.2 (pn + 1) with ⟨cn, hmem, hrun⟩ | ⟨z, hz, hrun⟩
        · refine Or.inl ⟨cn, List.mem_cons_of_mem c hmem, fun fuel hfuel => ?_⟩
          obtain ⟨fuel, rfl⟩ : ∃ k, fuel = k + 1 := ⟨fuel - 1, by omega⟩
          exact (hstep fuel).trans (hrun fuel (by omega))
        · refine Or.inr ⟨z, by simpa using hz, fun fuel hfuel => ?_⟩
          obtain ⟨fuel, rfl⟩ : ∃ k, fuel = k + 1 := ⟨fuel - 1, by omega⟩
          rw [hstep, hrun fuel (by omega)]
          simp only [List.length_cons]
          rw [show pn + 1 + (l.length + 1) = pn + (l.length + 1 + 1) by omega]

omit [DecidableEq N] in
/-- The head of the list is found from each of its nodes. -/
theorem firstSymbol_chain {l₁ l₂ : List N} {a : N}
    (h : Chain s.nextSibling s.previousSibling (l₁ ++ a :: l₂)) :
    ∃ head, (l₁ ++ a :: l₂).head? = some head ∧
      ∀ fuel ≥ l₁.length + 1, firstSymbol s fuel a = some head := by
  induction l₁ using List.reverseRecOn generalizing a l₂ with
  | nil =>
      refine ⟨a, rfl, fun fuel hfuel => ?_⟩
      obtain ⟨fuel, rfl⟩ : ∃ k, fuel = k + 1 := ⟨fuel - 1, by omega⟩
      have ha : s.previousSibling a = none := h.1
      rw [firstSymbol, ha]
  | append_singleton l₁ b ih =>
      have hlist : l₁ ++ [b] ++ a :: l₂ = l₁ ++ b :: (a :: l₂) := by simp
      have ha : s.previousSibling a = some b := by
        obtain ⟨-, hmid⟩ := Chained.append_iff.1 h
        simpa using hmid.1
      rw [hlist] at h ⊢
      obtain ⟨head, hhead, hrun⟩ := ih h
      refine ⟨head, hhead, fun fuel hfuel => ?_⟩
      obtain ⟨fuel, rfl⟩ : ∃ k, fuel = k + 1 := ⟨fuel - 1, by omega⟩
      rw [firstSymbol, ha]
      exact hrun fuel (by simp at hfuel; omega)

/-- Counting the list anew writes its places into its nodes and nothing else. -/
theorem renumber_chain {before : Option N} {l : List N}
    (h : Chained s.nextSibling s.previousSibling before l none) (hnodup : l.Nodup)
    (hnamed : ∀ a ∈ l, s.symOvername a ≠ none) (pn : Nat) :
    ∃ o, (∀ fuel ≥ l.length + 1, renumber fuel pn s l.head? = some { s with symOvername := o }) ∧
      (∀ i a, l[i]? = some a → o a = some (overname (pn + i))) ∧
      ∀ a, a ∉ l → o a = s.symOvername a := by
  induction l generalizing s before pn with
  | nil =>
      refine ⟨s.symOvername, fun fuel hfuel => ?_, by simp, fun _ _ => rfl⟩
      obtain ⟨fuel, rfl⟩ : ∃ k, fuel = k + 1 := ⟨fuel - 1, by omega⟩
      rfl
  | cons c l ih =>
      obtain ⟨hcl, hnodup⟩ := List.nodup_cons.1 hnodup
      have hc : s.nextSibling c = l.head? := by simpa using h.2.1
      obtain ⟨o, hrun, hplaces, hothers⟩ := ih (s := s.setOvername c pn) h.2.2 hnodup
        (fun a ha => by
          have hne : a ≠ c := ne_of_mem_of_not_mem ha hcl
          simpa [Symbols.setOvername, hne] using hnamed a (List.mem_cons_of_mem c ha)) (pn + 1)
      refine ⟨o, fun fuel hfuel => ?_, fun i a hia => ?_, fun a ha => ?_⟩
      · obtain ⟨fuel, rfl⟩ : ∃ k, fuel = k + 1 := ⟨fuel - 1, by omega⟩
        rw [List.head?_cons, renumber, if_neg (hnamed c List.mem_cons_self), hc]
        exact hrun fuel (by simp at hfuel; omega)
      · cases i with
        | zero =>
            obtain rfl : c = a := by simpa using hia
            rw [hothers c hcl]
            simp [Symbols.setOvername]
        | succ i =>
            have hmem : l[i]? = some a := by simpa using hia
            rw [hplaces i a hmem, show pn + 1 + i = pn + (i + 1) by omega]
      · rw [List.mem_cons, not_or] at ha
        rw [hothers a ha.2]
        simp [Symbols.setOvername, ha.1]

/-! ## One operation -/

/-- The two tables are in order, and so is what the operations read of the nodes. -/
structure ScopeInv (D : Declarations N) (r : ScopeRun N) : Prop extends WellOverloaded D r where
  outside : ∀ n, r.added n = none → r.symbols.nextSibling n = none ∧
    r.symbols.previousSibling n = none ∧ r.symbols.symOvername n = none
  named : ∀ n symname, r.added n = some symname →
    r.symbols.symtab n = true ∧ r.symbols.symName n = some symname
  overloadable : ∀ n, r.added n ≠ none → (D.node n).Overloadable
  table : Entries D r.symbols.ccurrent r.symbols.cnextSibling

omit [DecidableEq N] in
theorem scopeInv_start : ScopeInv D (ScopeRun.start : ScopeRun N) where
  chains symname := ⟨[], trivial, rfl, by simp [ScopeRun.start], by simp, by simp⟩
  entries n hn := absurd rfl hn
  outside n _ := ⟨rfl, rfl, rfl⟩
  named n symname hn := by cases hn
  overloadable n hn := absurd rfl hn
  table := by
    have hnone : ∀ name n, ¬ OnEntry (N := N) (fun _ => none) (fun _ => none) name n := by
      rintro name n ⟨first, hf, -⟩
      cases hf
    refine ⟨fun n => ⟨n, Relation.ReflTransGen.refl, rfl⟩, ?_, ?_, ?_⟩
    · exact fun name n hn => absurd hn (hnone name n)
    · exact fun name n _ hn => absurd hn (hnone name n)
    · exact fun name n hn => absurd hn (hnone name n)

variable {r : ScopeRun N} {symname : List Char} {c : N}

omit [DecidableEq N] in
/-- Entering a symbol in the C table leaves the other table alone. -/
theorem ScopeInv.entered (h : ScopeInv D r) {s : Symbols N}
    (hs : Entered D r.symbols s name n) : ScopeInv D ⟨s, r.added⟩ := by
  obtain ⟨hrest, hentries, -, hkeeps, -⟩ := hs
  rw [hrest] at hentries hkeeps ⊢
  exact {
    chains := h.chains
    entries := fun m hm => hkeeps _ m (h.entries m hm)
    outside := h.outside
    named := h.named
    overloadable := h.overloadable
    table := hentries }

/-- Between overloadable symbols there is a conflict, or the rules of overloading
decide. -/
theorem addConflict_overloadable (s : Symbols N) (symname : List Char)
    (hn : (D.node n).Overloadable) (hc : (D.node c).Overloadable) :
    (∀ fuel, addConflict D fuel s symname c n = some (s, c)) ∨
      ∀ fuel, addConflict D fuel s symname c n = addOverload D fuel s symname c n := by
  have hnamespace : ¬ ((D.node n).nodeType = (D.node c).nodeType ∧
      (D.node n).nodeType = .namespaceNode) := fun h => hn.no_namespace h.2
  have hinstance : ¬ ((D.node c).nodeType = .templateNode ∧
      (D.node c).templatetype = some .classNode ∧ (D.node n).nodeType = .classNode ∧
      (D.node n).template ∧ s.nextSibling c = none) := fun h => by
    simpa [hn.no_instance h.2.2.1] using h.2.2.2.1
  have htypedef : ¬ ((D.node n).allowsTypedef ∨ (D.node c).allowsTypedef) := by
    simp [hn.no_typedef, hc.no_typedef]
  simp only [addConflict, if_neg hnamespace, if_neg hinstance, if_neg htypedef]
  split_ifs
  · exact Or.inl fun _ => rfl
  · exact Or.inl fun _ => rfl
  · exact Or.inl fun _ => rfl
  · exact Or.inr fun _ => rfl

/-- What the lists of symbols are when the list of one name becomes `l'`. -/
structure Relisted (r r' : ScopeRun N) (symname : List Char) (l' : List N) : Prop where
  chain : Chain r'.symbols.nextSibling r'.symbols.previousSibling l'
  head : r'.symbols.current symname = l'.head?
  mem : ∀ m, m ∈ l' ↔ r'.added m = some symname
  places : ∀ i m, l'[i]? = some m → r'.symbols.symOvername m = some (overname i)
  first : 2 ≤ l'.length → ∀ m ∈ l', r'.symbols.overloaded m = l'.head?
  current : ∀ y, y ≠ symname → r'.symbols.current y = r.symbols.current y
  added : ∀ m y, y ≠ symname → (r'.added m = some y ↔ r.added m = some y)
  same : ∀ m y, y ≠ symname → r.added m = some y →
    r'.symbols.nextSibling m = r.symbols.nextSibling m ∧
      r'.symbols.previousSibling m = r.symbols.previousSibling m ∧
      r'.symbols.symOvername m = r.symbols.symOvername m ∧
      r'.symbols.overloaded m = r.symbols.overloaded m

omit [DecidableEq N] in
theorem ScopeInv.chains_of_relisted (h : ScopeInv D r) {r' : ScopeRun N} (symname : List Char)
    (l' : List N) (hr : Relisted r r' symname l') (y : List Char) :
    ∃ l, Chain r'.symbols.nextSibling r'.symbols.previousSibling l ∧
      r'.symbols.current y = l.head? ∧ (∀ m, m ∈ l ↔ r'.added m = some y) ∧
      (∀ i m, l[i]? = some m → r'.symbols.symOvername m = some (overname i)) ∧
      (2 ≤ l.length → ∀ m ∈ l, r'.symbols.overloaded m = l.head?) := by
  by_cases hy : y = symname
  · subst hy
    exact ⟨l', hr.chain, hr.head, hr.mem, hr.places, hr.first⟩
  · obtain ⟨l, hchain, hhead, hmem, hplaces, hfirst⟩ := h.chains y
    have hsame := fun m (hm : m ∈ l) => hr.same m y hy ((hmem m).1 hm)
    refine ⟨l, hchain.congr (fun m hm => (hsame m hm).1) fun m hm => (hsame m hm).2.1,
      (hr.current y hy).trans hhead, fun m => (hmem m).trans (hr.added m y hy).symm,
      fun i m hi => ?_, fun hlen m hm => ?_⟩
    · rw [(hsame m (List.mem_of_getElem? hi)).2.2.1]
      exact hplaces i m hi
    · rw [(hsame m hm).2.2.2]
      exact hfirst hlen m hm

/-- A symbol is put into the list of a name. -/
theorem ScopeInv.placed (h : ScopeInv D r) {s' : Symbols N} (l' : List N)
    (hoverloadable : (D.node n).Overloadable)
    (hentry : OnEntry r.symbols.ccurrent r.symbols.cnextSibling (D.node n).name n)
    (hr : Relisted r ⟨s', Function.update r.added n (some symname)⟩ symname l')
    (hccurrent : s'.ccurrent = r.symbols.ccurrent)
    (hcnext : s'.cnextSibling = r.symbols.cnextSibling)
    (hsymtab : s'.symtab = Function.update r.symbols.symtab n true)
    (hsymName : s'.symName = Function.update r.symbols.symName n (some symname))
    (houtside : ∀ m, m ≠ n → r.added m = none → s'.nextSibling m = none ∧
      s'.previousSibling m = none ∧ s'.symOvername m = none) :
    ScopeInv D ⟨s', Function.update r.added n (some symname)⟩ := by
  refine ⟨⟨h.chains_of_relisted symname l' hr, fun m hm => ?_⟩, fun m hm => ?_, fun m y hm => ?_,
    fun m hm => ?_, ?_⟩
  · show OnEntry s'.ccurrent s'.cnextSibling (D.node m).name m
    rw [hccurrent, hcnext]
    by_cases hmn : m = n
    · rw [hmn]
      exact hentry
    · exact h.entries m (by simpa [hmn] using hm)
  · have hmn : m ≠ n := by
      rintro rfl
      simp at hm
    exact houtside m hmn (by simpa [hmn] using hm)
  · show s'.symtab m = true ∧ s'.symName m = some y
    rw [hsymtab, hsymName]
    by_cases hmn : m = n
    · rw [hmn] at hm ⊢
      simpa using hm
    · simpa [hmn] using h.named m y (by simpa [hmn] using hm)
  · by_cases hmn : m = n
    · rw [hmn]
      exact hoverloadable
    · exact h.overloadable m (by simpa [hmn] using hm)
  · show Entries D s'.ccurrent s'.cnextSibling
    rw [hccurrent, hcnext]
    exact h.table

theorem ScopeInv.putFirst (h : ScopeInv D r) (hn : r.added n = none)
    (hoverloadable : (D.node n).Overloadable)
    (hentry : OnEntry r.symbols.ccurrent r.symbols.cnextSibling (D.node n).name n)
    (hempty : r.symbols.current symname = none) :
    ScopeInv D ⟨r.symbols.putFirst symname n, Function.update r.added n (some symname)⟩ := by
  obtain ⟨hnext, hprev, -⟩ := h.outside n hn
  have hnone : ∀ m, r.added m ≠ some symname := by
    intro m hm
    obtain ⟨l, -, hhead, hmem, -⟩ := h.chains symname
    obtain rfl : l = [] := List.head?_eq_none_iff.1 (hhead.symm.trans hempty)
    exact absurd ((hmem m).2 hm) List.not_mem_nil
  have hovername : ∀ m, m ≠ n →
      (r.symbols.putFirst symname n).symOvername m = r.symbols.symOvername m :=
    fun m hmn => Function.update_of_ne hmn _ _
  refine h.placed [n] hoverloadable hentry ?_ rfl rfl rfl rfl fun m hmn hm => ?_
  · refine ⟨⟨hprev, hnext, trivial⟩, Function.update_self _ _ _, fun m => ?_,
      fun i m hi => ?_, fun hlen => by simp at hlen, fun y hy => Function.update_of_ne hy _ _,
      fun m y hy => ?_, fun m y _ hm => ⟨rfl, rfl, hovername m ?_, rfl⟩⟩
    · by_cases hmn : m = n
      · simp [hmn]
      · simp [hmn, hnone m]
    · cases i with
      | zero =>
          obtain rfl : n = m := by simpa using hi
          exact Function.update_self _ _ _
      | succ i => simp at hi
    · by_cases hmn : m = n
      · subst hmn
        simp [hn, Ne.symm hy]
      · simp [hmn]
    · rintro rfl
      rw [hn] at hm
      cases hm
  · show r.symbols.nextSibling m = none ∧ r.symbols.previousSibling m = none ∧ _ = none
    rw [hovername m hmn]
    exact h.outside m hm

theorem ScopeInv.putBehind (h : ScopeInv D r) (hn : r.added n = none)
    (hoverloadable : (D.node n).Overloadable)
    (hentry : OnEntry r.symbols.ccurrent r.symbols.cnextSibling (D.node n).name n)
    {l : List N} {cl : N} (hchain : Chain r.symbols.nextSibling r.symbols.previousSibling l)
    (hhead : r.symbols.current symname = l.head?) (hmem : ∀ m, m ∈ l ↔ r.added m = some symname)
    (hplaces : ∀ i m, l[i]? = some m → r.symbols.symOvername m = some (overname i))
    (hfirst : 2 ≤ l.length → ∀ m ∈ l, r.symbols.overloaded m = l.head?)
    (hc : l.head? = some c) (hcl : l.getLast? = some cl) :
    ScopeInv D ⟨r.symbols.putBehind symname n l.length cl c,
      Function.update r.added n (some symname)⟩ := by
  obtain ⟨hnext, hprev, -⟩ := h.outside n hn
  have hclmem : cl ∈ l := List.mem_of_getLast? hcl
  have hnl : n ∉ l := by
    intro hmem'
    rw [(hmem n).1 hmem'] at hn
    cases hn
  have hovername : ∀ m, m ≠ n →
      (r.symbols.putBehind symname n l.length cl c).symOvername m = r.symbols.symOvername m :=
    fun m hmn => Function.update_of_ne hmn _ _
  have hnextOf : ∀ m, m ≠ cl →
      (r.symbols.putBehind symname n l.length cl c).nextSibling m = r.symbols.nextSibling m :=
    fun m hm => Function.update_of_ne hm _ _
  have hprevOf : ∀ m, m ≠ n →
      (r.symbols.putBehind symname n l.length cl c).previousSibling m =
        r.symbols.previousSibling m := fun m hmn => Function.update_of_ne hmn _ _
  have hoverloaded : ∀ m, m ≠ n → m ≠ cl →
      (r.symbols.putBehind symname n l.length cl c).overloaded m = r.symbols.overloaded m := by
    intro m hmn hmcl
    exact (Function.update_of_ne hmn _ _).trans (Function.update_of_ne hmcl _ _)
  -- A node that is not of this name is neither the new one nor the last one.
  have hother : ∀ m, m ∉ l → m ≠ cl := fun m hm e => hm (e ▸ hclmem)
  refine h.placed (l ++ [n]) hoverloadable hentry ?_ rfl rfl rfl rfl fun m hmn hm => ?_
  · refine ⟨?_, ?_, fun m => ?_, fun i m hi => ?_, fun _ m hm => ?_, fun y hy => rfl,
      fun m y hy => ?_, fun m y hy hm => ?_⟩
    · have hone : Chain r.symbols.nextSibling r.symbols.previousSibling [n] :=
        ⟨hprev, by simpa using hnext, trivial⟩
      refine hchain.join hone hcl rfl fun a ha hmem' => ?_
      obtain rfl : a = n := by simpa using hmem'
      exact hnl ha
    · show r.symbols.current symname = (l ++ [n]).head?
      rw [hhead, List.head?_append, hc]
      rfl
    · rw [List.mem_append, hmem m]
      by_cases hmn : m = n
      · simp [hmn]
      · simp [hmn]
    · rw [List.getElem?_append] at hi
      by_cases hlt : i < l.length
      · rw [if_pos hlt] at hi
        rw [hovername m (ne_of_mem_of_not_mem (List.mem_of_getElem? hi) hnl)]
        exact hplaces i m hi
      · rw [if_neg hlt] at hi
        have hi0 : i = l.length := by
          obtain ⟨hlen, -⟩ := List.getElem?_eq_some_iff.1 hi
          simp at hlen
          omega
        subst hi0
        obtain rfl : n = m := by simpa using hi
        exact Function.update_self _ _ _
    · rw [List.head?_append, hc]
      by_cases hmn : m = n
      · rw [hmn]
        exact Function.update_self _ _ _
      · by_cases hmcl : m = cl
        · rw [hmcl]
          have hne : cl ≠ n := hmcl ▸ hmn
          exact (Function.update_of_ne hne _ _).trans (Function.update_self _ _ _)
        · have hml : m ∈ l := by simpa [hmn] using hm
          -- Beside the last one there is another, so that the list named its first before.
          have hlen : 2 ≤ l.length := by
            by_contra hlt
            obtain ⟨a, rfl⟩ := List.length_eq_one_iff.1 (show l.length = 1 by
              have hpos := List.length_pos_of_mem hml
              omega)
            obtain rfl : m = a := by simpa using hml
            obtain rfl : m = cl := by simpa using hcl
            exact hmcl rfl
          rw [hoverloaded m hmn hmcl, hfirst hlen m hml, hc]
          rfl
    · by_cases hmn : m = n
      · subst hmn
        simp [hn, Ne.symm hy]
      · simp [hmn]
    · have hmn : m ≠ n := by
        rintro rfl
        rw [hn] at hm
        cases hm
      have hml : m ∉ l := by
        intro hm'
        have heq := ((hmem m).1 hm').symm.trans hm
        exact hy (Option.some.inj heq).symm
      exact ⟨hnextOf m (hother m hml), hprevOf m hmn, hovername m hmn,
        hoverloaded m hmn (hother m hml)⟩
  · have hml : m ∉ l := by
      intro hm'
      rw [(hmem m).1 hm'] at hm
      cases hm
    show _ = none ∧ _ = none ∧ _ = none
    rw [hnextOf m (hother m hml), hprevOf m hmn, hovername m hmn]
    exact h.outside m hm

/-- The symbol goes behind the last one of its name, or one of them is in conflict
with it. -/
theorem ScopeInv.addOverload_inv (h : ScopeInv D r) (hn : r.added n = none)
    (hoverloadable : (D.node n).Overloadable)
    (hentry : OnEntry r.symbols.ccurrent r.symbols.cnextSibling (D.node n).name n)
    (hc : r.symbols.current symname = some c) :
    ∃ s' m, (∃ steps, ∀ fuel ≥ steps,
        addOverload D fuel r.symbols symname c n = some (s', m)) ∧
      ScopeInv D ⟨s', if m = n then Function.update r.added n (some symname) else r.added⟩ := by
  obtain ⟨-, -, hovername⟩ := h.outside n hn
  obtain ⟨l, hchain, hhead, hmem, hplaces, hfirst⟩ := h.chains symname
  obtain ⟨l, rfl⟩ : ∃ l₁, l = c :: l₁ := List.head?_eq_some_iff.1 (hhead.symm.trans hc)
  rcases walkOverloads_chain (D := D) (n := n) ((D.node n).isUsing || (D.node c).isUsing) hchain 0
    with ⟨cn, hcn, hrun⟩ | ⟨cl, hcl, hrun⟩
  · have hne : cn ≠ n := by
      rintro rfl
      rw [(hmem cn).1 hcn] at hn
      cases hn
    refine ⟨r.symbols, cn, ⟨l.length + 1, fun fuel hfuel => ?_⟩, ?_⟩
    · rw [addOverload, hrun fuel hfuel]
    · rw [if_neg hne]
      exact h
  · refine ⟨r.symbols.putBehind symname n (c :: l).length cl c, n,
      ⟨l.length + 1, fun fuel hfuel => ?_⟩, ?_⟩
    · simp only [addOverload, hrun fuel hfuel, ne_eq, hovername, not_true_eq_false, if_false,
        Nat.zero_add]
    · rw [if_pos rfl]
      exact h.putBehind hn hoverloadable hentry hchain hhead hmem hplaces hfirst rfl hcl

theorem ScopeInv.add (symname : List Char) (h : ScopeInv D r) (hn : r.added n = none)
    (hoverloadable : (D.node n).Overloadable) (hfits : AddFits D r.symbols n) :
    ∃ r', (SymbolOp.add symname n).Ends D r r' ∧ ScopeInv D r' := by
  obtain ⟨s, ⟨steps, hcadd⟩, hentered⟩ := symbolCadd_entered h.table hoverloadable hfits
  have hs : ScopeInv D ⟨s, r.added⟩ := h.entered hentered
  have hstart : ∀ fuel ≥ steps, symbolAdd D fuel r.symbols (some symname) n =
      ((s.current symname).filter fun c => !(D.node c).weak).elim
        (some (s.putFirst symname n, n)) fun c => addConflict D fuel s symname c n := by
    intro fuel hfuel
    rw [symbolAdd, if_pos hoverloadable.named, hcadd fuel hfuel]
    simp only [Option.bind_eq_bind, Option.bind_some, hoverloadable.considered]
    cases (s.current symname).filter fun c => !(D.node c).weak with
    | none => rfl
    | some c => rfl
  cases hc : s.current symname with
  | none =>
      refine ⟨_, ⟨steps, fun fuel hfuel => ?_⟩,
        hs.putFirst hn hoverloadable hentered.onEntry hc⟩
      rw [SymbolOp.run, hstart fuel hfuel, hc]
      exact congrArg (fun a => some (ScopeRun.mk (s.putFirst symname n) a)) (if_pos rfl)
  | some c =>
      -- The symbols in the table are not weak.
      have hcadded : r.added c = some symname := by
        obtain ⟨l, -, hhead, hmem, -⟩ := hs.chains symname
        exact (hmem c).1 (List.mem_of_head? (hhead.symm.trans hc))
      have hcover : (D.node c).Overloadable := h.overloadable c (by simp [hcadded])
      have hconflict : ∀ fuel ≥ steps, symbolAdd D fuel r.symbols (some symname) n =
          addConflict D fuel s symname c n := by
        intro fuel hfuel
        have hfilter : (some c).filter (fun c => !(D.node c).weak) = some c := by
          simp [Option.filter, hcover.strong]
        rw [hstart fuel hfuel, hc, hfilter, Option.elim_some]
      rcases addConflict_overloadable s symname hoverloadable hcover with
        hno | hover
      · refine ⟨⟨s, r.added⟩, ⟨steps, fun fuel hfuel => ?_⟩, hs⟩
        have hne : c ≠ n := by
          rintro rfl
          rw [hcadded] at hn
          cases hn
        rw [SymbolOp.run, hconflict fuel hfuel, hno fuel]
        simp [hne]
      · obtain ⟨s', m, ⟨steps', hrun⟩, hinv⟩ :=
          hs.addOverload_inv hn hoverloadable hentered.onEntry hc
        refine ⟨_, ⟨steps + steps', fun fuel hfuel => ?_⟩, hinv⟩
        rw [SymbolOp.run, hconflict fuel (by omega), hover fuel, hrun fuel (by omega)]
        rfl

/-- A symbol behind which the way from the C table meets no other that is still in
the scope, and which is not the first of three or more of its name. -/
structure RemoveFits (r : ScopeRun N) (n : N) : Prop where
  lastEntry : ∀ m, r.added m ≠ none → Reaches r.symbols.cnextSibling n m → m = n
  notFirst : r.symbols.previousSibling n = none →
    ∀ m, r.symbols.nextSibling n = some m → r.symbols.nextSibling m = none

/-- The parts of the scope that unlinking a symbol does not touch. -/
theorem unlinkBefore_frame : unlinkBefore s n =
    { s with
      current := (unlinkBefore s n).current
      nextSibling := (unlinkBefore s n).nextSibling } := by
  rw [unlinkBefore]
  cases s.previousSibling n with
  | some p => rfl
  | none => cases s.symtab n <;> cases s.symName n <;> rfl

theorem unlinkSymbol_frame : unlinkSymbol s n =
    { s with
      current := (unlinkBefore s n).current
      nextSibling := (unlinkBefore s n).nextSibling
      previousSibling := (unlinkSymbol s n).previousSibling } := by
  rw [unlinkSymbol, unlinkBefore_frame]
  cases s.nextSibling n <;> rfl

theorem unlinkSymbol_nextSibling {a : N} (ha : a ≠ n) :
    ((unlinkSymbol s n).detach n).nextSibling a =
      if s.previousSibling n = some a then s.nextSibling n else s.nextSibling a := by
  have hdetach : ((unlinkSymbol s n).detach n).nextSibling a =
      (unlinkBefore s n).nextSibling a := by
    rw [unlinkSymbol_frame]
    exact Function.update_of_ne ha _ _
  rw [hdetach, unlinkBefore]
  cases hp : s.previousSibling n with
  | none => cases s.symtab n <;> cases s.symName n <;> rfl
  | some p =>
      by_cases hpa : p = a
      · subst hpa
        simp [Symbols.setNextSibling]
      · simp [Symbols.setNextSibling, hpa, Ne.symm hpa]

theorem unlinkSymbol_previousSibling {a : N} (ha : a ≠ n) :
    ((unlinkSymbol s n).detach n).previousSibling a =
      if s.nextSibling n = some a then s.previousSibling n else s.previousSibling a := by
  have hdetach : ((unlinkSymbol s n).detach n).previousSibling a =
      (unlinkSymbol s n).previousSibling a := Function.update_of_ne ha _ _
  rw [hdetach, unlinkSymbol, unlinkBefore_frame]
  cases hx : s.nextSibling n with
  | none => rfl
  | some x =>
      by_cases hxa : x = a
      · subst hxa
        simp [Symbols.setPreviousSibling]
      · simp [Symbols.setPreviousSibling, hxa, Ne.symm hxa]

/-- The links of the other symbols of its name after the removal. -/
theorem unlinkSymbol_chain {l₁ l₂ : List N}
    (hchain : Chain s.nextSibling s.previousSibling (l₁ ++ n :: l₂)) :
    Chain ((unlinkSymbol s n).detach n).nextSibling ((unlinkSymbol s n).detach n).previousSibling
      (l₁ ++ l₂) := by
  have hmid := (Chained.append_iff.1 hchain).2
  have hprev : s.previousSibling n = l₁.getLast? := by simpa using hmid.1
  have hnext : s.nextSibling n = l₂.head? := by simpa using hmid.2.1
  have hnot : ∀ a ∈ l₁ ++ l₂, a ≠ n := by
    rintro a ha rfl
    have hnodup := List.nodup_middle.1 hchain.nodup
    exact (List.nodup_cons.1 hnodup).1 ha
  refine hchain.unlink (fun a ha => ?_) (fun a ha hne => ?_) (fun a ha => ?_) fun a ha hne => ?_
  · have hmem : a ∈ l₁ ++ l₂ := List.mem_append_left _ (List.mem_of_getLast? ha)
    rw [unlinkSymbol_nextSibling (hnot a hmem), hprev, if_pos ha, hnext]
  · rw [unlinkSymbol_nextSibling (hnot a ha), hprev, if_neg hne]
  · have hmem : a ∈ l₁ ++ l₂ := List.mem_append_right _ (List.mem_of_head? ha)
    rw [unlinkSymbol_previousSibling (hnot a hmem), hnext, if_pos ha, hprev]
  · rw [unlinkSymbol_previousSibling (hnot a ha), hnext, if_neg hne]

/-- The entry of the table after the removal. -/
theorem unlinkSymbol_current {l₁ l₂ : List N} (hprev : s.previousSibling n = l₁.getLast?)
    (hnext : s.nextSibling n = l₂.head?) (hsymtab : s.symtab n = true)
    (hsymName : s.symName n = some symname) (hhead : s.current symname = (l₁ ++ n :: l₂).head?) :
    (unlinkSymbol s n).current symname = (l₁ ++ l₂).head? ∧
      ∀ y, y ≠ symname → (unlinkSymbol s n).current y = s.current y := by
  rw [unlinkSymbol_frame]
  show (unlinkBefore s n).current symname = _ ∧ ∀ y, y ≠ symname →
    (unlinkBefore s n).current y = _
  rw [unlinkBefore, hprev, hsymtab, hsymName]
  cases l₁ with
  | nil =>
      refine ⟨?_, fun y hy => Function.update_of_ne hy _ _⟩
      exact (Function.update_self _ _ _).trans hnext
  | cons a l₁ =>
      obtain ⟨z, hz⟩ : ∃ z, (a :: l₁).getLast? = some z :=
        ⟨_, List.getLast?_eq_getLast_of_ne_nil (List.cons_ne_nil a l₁)⟩
      rw [hz]
      exact ⟨hhead, fun y _ => rfl⟩

/-- The links of a scope from which a symbol was taken. -/
theorem removed_entry (hlast : ∀ m, r.added m ≠ none → Reaches r.symbols.cnextSibling n m → m = n)
    {m : N} (hm : r.added m ≠ none)
    (hentry : OnEntry r.symbols.ccurrent r.symbols.cnextSibling name m) :
    OnEntry r.symbols.ccurrent (Function.update r.symbols.cnextSibling n none) name m := by
  obtain ⟨first, hf, hr⟩ := hentry
  exact ⟨first, hf, hr.cut (hlast m hm)⟩

theorem Entries.cut {ccurrent : List Char → Option N} {cnextSibling : N → Option N}
    (h : Entries D ccurrent cnextSibling) :
    Entries D ccurrent (Function.update cnextSibling n none) := by
  have hold : ∀ y m, OnEntry ccurrent (Function.update cnextSibling n none) y m →
      OnEntry ccurrent cnextSibling y m := by
    rintro y m ⟨first, hf, hr⟩
    exact ⟨first, hf, hr.of_cut⟩
  exact {
    terminates := fun a => (h.terminates a).cut
    sameName := fun y m hm => h.sameName y m (hold y m hm)
    typenameFirst := fun y m hy hm => h.typenameFirst y m hy (hold y m hm)
    overloadable := fun y m hm => h.overloadable y m (hold y m hm) }

/-- A symbol is taken out of the list of its name, and the list is counted anew. -/
theorem ScopeInv.taken (h : ScopeInv D r) (hfits : RemoveFits r n) {l₁ l₂ : List N}
    (hchain : Chain r.symbols.nextSibling r.symbols.previousSibling (l₁ ++ n :: l₂))
    (hhead : r.symbols.current symname = (l₁ ++ n :: l₂).head?)
    (hmem : ∀ m, m ∈ l₁ ++ n :: l₂ ↔ r.added m = some symname)
    (hfirst : 2 ≤ (l₁ ++ n :: l₂).length → ∀ m ∈ l₁ ++ n :: l₂,
      r.symbols.overloaded m = (l₁ ++ n :: l₂).head?)
    {o : N → Option (List Char)}
    (hplaces : ∀ i m, (l₁ ++ l₂)[i]? = some m → o m = some (overname i))
    (hothers : ∀ m, m ∉ l₁ ++ l₂ →
      o m = ((unlinkSymbol r.symbols n).detach n).symOvername m) :
    ScopeInv D ⟨{ (unlinkSymbol r.symbols n).detach n with symOvername := o },
      Function.update r.added n none⟩ := by
  have hadded : r.added n = some symname := (hmem n).1 (by simp)
  have hmid := (Chained.append_iff.1 hchain).2
  have hprev : r.symbols.previousSibling n = l₁.getLast? := by simpa using hmid.1
  have hnext : r.symbols.nextSibling n = l₂.head? := by simpa using hmid.2.1
  have hnot : n ∉ l₁ ++ l₂ := (List.nodup_cons.1 (List.nodup_middle.1 hchain.nodup)).1
  have hmem' : ∀ m, m ≠ n → (m ∈ l₁ ++ l₂ ↔ r.added m = some symname) := by
    intro m hm
    rw [← hmem m]
    simp [hm]
  obtain ⟨hcurrent, hcurrents⟩ := unlinkSymbol_current hprev hnext (h.named n symname hadded).1
    (h.named n symname hadded).2 hhead
  -- A node that is not of this name keeps its links, its number and its first symbol.
  have hkeep : ∀ m, m ≠ n → r.added m ≠ some symname →
      ((unlinkSymbol r.symbols n).detach n).nextSibling m = r.symbols.nextSibling m ∧
        ((unlinkSymbol r.symbols n).detach n).previousSibling m = r.symbols.previousSibling m ∧
        o m = r.symbols.symOvername m := by
    intro m hm hother
    have hout : m ∉ l₁ ++ l₂ := fun hin => hother ((hmem' m hm).1 hin)
    refine ⟨?_, ?_, ?_⟩
    · rw [unlinkSymbol_nextSibling hm, hprev, if_neg]
      exact fun hl => hout (List.mem_append_left _ (List.mem_of_getLast? hl))
    · rw [unlinkSymbol_previousSibling hm, hnext, if_neg]
      exact fun hl => hout (List.mem_append_right _ (List.mem_of_head? hl))
    · rw [hothers m hout, unlinkSymbol_frame]
      exact Function.update_of_ne hm _ _
  have hoverloaded : ∀ m, m ≠ n →
      ((unlinkSymbol r.symbols n).detach n).overloaded m = r.symbols.overloaded m := by
    intro m hm
    rw [unlinkSymbol_frame]
    exact Function.update_of_ne hm _ _
  have hcnext : ((unlinkSymbol r.symbols n).detach n).cnextSibling =
      Function.update r.symbols.cnextSibling n none := by
    rw [unlinkSymbol_frame]
    rfl
  have hccurrent : ((unlinkSymbol r.symbols n).detach n).ccurrent = r.symbols.ccurrent := by
    rw [unlinkSymbol_frame]
    rfl
  refine ⟨⟨h.chains_of_relisted symname (l₁ ++ l₂) ?_, fun m hm => ?_⟩,
    fun m hm => ?_, fun m y hm => ?_, fun m hm => ?_, ?_⟩
  · refine ⟨unlinkSymbol_chain hchain, hcurrent, fun m => ?_, hplaces, fun hlen m hm => ?_,
      hcurrents, fun m y hy => ?_, fun m y hy hm => ?_⟩
    · by_cases hm : m = n
      · subst hm
        simpa using hnot
      · rw [hmem' m hm]
        simp [hm]
    · have hmn : m ≠ n := ne_of_mem_of_not_mem hm hnot
      have hold := hfirst (by simp at hlen ⊢; omega) m ((hmem m).2 ((hmem' m hmn).1 hm))
      refine ((hoverloaded m hmn).trans hold).trans ?_
      cases l₁ with
      | cons a l₁ => rfl
      | nil =>
          -- The first symbol goes, and at least two are left.
          obtain ⟨x, y, l₂, rfl⟩ : ∃ x y l, l₂ = x :: y :: l := by
            match l₂, hlen with
            | x :: y :: l, _ => exact ⟨x, y, l, rfl⟩
          have hxy : r.symbols.nextSibling x = some y := by simpa using hmid.2.2.2.1
          have hnone := hfits.notFirst hprev x hnext
          rw [hxy] at hnone
          cases hnone
    · by_cases hm : m = n
      · subst hm
        simp [hadded, Ne.symm hy]
      · simp [hm]
    · have hmn : m ≠ n := by
        rintro rfl
        rw [hadded] at hm
        exact hy (Option.some.inj hm).symm
      have hother : r.added m ≠ some symname := by
        rw [hm]
        simpa using hy
      obtain ⟨h₁, h₂, h₃⟩ := hkeep m hmn hother
      exact ⟨h₁, h₂, h₃, hoverloaded m hmn⟩
  · show OnEntry ((unlinkSymbol r.symbols n).detach n).ccurrent
      ((unlinkSymbol r.symbols n).detach n).cnextSibling (D.node m).name m
    have hmn : m ≠ n := by
      rintro rfl
      simp at hm
    have hm' : r.added m ≠ none := by simpa [hmn] using hm
    rw [hccurrent, hcnext]
    exact removed_entry hfits.lastEntry hm' (h.entries m hm')
  · by_cases hmn : m = n
    · subst hmn
      refine ⟨Function.update_self _ _ _, Function.update_self _ _ _, ?_⟩
      exact (hothers m hnot).trans (Function.update_self _ _ _)
    · have hm' : r.added m = none := by simpa [hmn] using hm
      obtain ⟨h₁, h₂, h₃⟩ := hkeep m hmn (by simp [hm'])
      obtain ⟨g₁, g₂, g₃⟩ := h.outside m hm'
      exact ⟨h₁.trans g₁, h₂.trans g₂, h₃.trans g₃⟩
  · have hmn : m ≠ n := by
      rintro rfl
      simp at hm
    obtain ⟨h₁, h₂⟩ := h.named m y (by simpa [hmn] using hm)
    show ((unlinkSymbol r.symbols n).detach n).symtab m = true ∧
      ((unlinkSymbol r.symbols n).detach n).symName m = some y
    rw [unlinkSymbol_frame]
    exact ⟨(Function.update_of_ne hmn _ _).trans h₁, h₂⟩
  · have hmn : m ≠ n := by
      rintro rfl
      simp at hm
    exact h.overloadable m (by simpa [hmn] using hm)
  · show Entries D ((unlinkSymbol r.symbols n).detach n).ccurrent
      ((unlinkSymbol r.symbols n).detach n).cnextSibling
    rw [hccurrent, hcnext]
    exact h.table.cut

theorem ScopeInv.remove (h : ScopeInv D r) (hn : r.added n ≠ none) (hfits : RemoveFits r n) :
    ∃ r', (SymbolOp.remove n).Ends D r r' ∧ ScopeInv D r' := by
  obtain ⟨symname, hadded⟩ := Option.ne_none_iff_exists'.1 hn
  obtain ⟨l, hchain, hhead, hmem, hplaces, hfirst⟩ := h.chains symname
  obtain ⟨l₁, l₂, rfl⟩ := List.append_of_mem ((hmem n).2 hadded)
  have hmid := (Chained.append_iff.1 hchain).2
  have hprev : r.symbols.previousSibling n = l₁.getLast? := by simpa using hmid.1
  have hnext : r.symbols.nextSibling n = l₂.head? := by simpa using hmid.2.1
  have hnodup := List.nodup_cons.1 (List.nodup_middle.1 hchain.nodup)
  have hovername : ∀ m, m ≠ n → ((unlinkSymbol r.symbols n).detach n).symOvername m =
      r.symbols.symOvername m := by
    intro m hm
    rw [unlinkSymbol_frame]
    exact Function.update_of_ne hm _ _
  cases l₂ with
  | nil =>
      refine ⟨_, ⟨0, fun fuel _ => ?_⟩, h.taken hfits hchain hhead hmem hfirst
        (o := ((unlinkSymbol r.symbols n).detach n).symOvername) (fun i m hi => ?_)
        fun _ _ => rfl⟩
      · rw [SymbolOp.run, symbolRemove, hnext]
        rfl
      · rw [hovername m (ne_of_mem_of_not_mem (List.mem_of_getElem? hi) hnodup.1)]
        rw [List.append_nil] at hi
        refine hplaces i m ?_
        rw [List.getElem?_append_left (List.getElem?_eq_some_iff.1 hi).1]
        exact hi
  | cons x l₂ =>
      have hrest := unlinkSymbol_chain hchain
      have hstart : ∃ head steps, (l₁ ++ x :: l₂).head? = some head ∧ ∀ fuel ≥ steps,
          firstSymbol ((unlinkSymbol r.symbols n).detach n) fuel
            ((r.symbols.previousSibling n).getD x) = some head := by
        rw [hprev]
        cases l₁ using List.reverseRecOn with
        | nil =>
            obtain ⟨head, hfound, hrun⟩ := firstSymbol_chain hrest
            exact ⟨head, _, hfound, hrun⟩
        | append_singleton l₁ p =>
            have hlist : l₁ ++ [p] ++ x :: l₂ = l₁ ++ p :: (x :: l₂) := by simp
            rw [hlist] at hrest ⊢
            obtain ⟨head, hfound, hrun⟩ := firstSymbol_chain hrest
            refine ⟨head, l₁.length + 1, hfound, fun fuel hfuel => ?_⟩
            rw [List.getLast?_append_of_ne_nil _ (List.cons_ne_nil p [])]
            exact hrun fuel hfuel
      obtain ⟨head, steps, hfound, hwalk⟩ := hstart
      have hnumbered : ∀ a ∈ l₁ ++ x :: l₂,
          ((unlinkSymbol r.symbols n).detach n).symOvername a ≠ none := by
        intro a ha
        rw [hovername a (ne_of_mem_of_not_mem ha hnodup.1)]
        have hold : a ∈ l₁ ++ n :: x :: l₂ := by
          simp at ha ⊢
          tauto
        obtain ⟨i, hi⟩ := List.getElem?_of_mem hold
        rw [hplaces i a hi]
        exact Option.some_ne_none _
      obtain ⟨o, hrun, hplaces', hothers⟩ := renumber_chain hrest hnodup.2 hnumbered 0
      rw [hfound] at hrun
      refine ⟨_, ⟨steps + ((l₁ ++ x :: l₂).length + 1), fun fuel hfuel => ?_⟩,
        h.taken hfits hchain hhead hmem hfirst (fun i m hi => ?_) hothers⟩
      · rw [SymbolOp.run, symbolRemove, hnext]
        simp only [List.head?_cons, hwalk fuel (by omega), Option.bind_eq_bind,
          Option.bind_some, hrun fuel (by omega)]
        rfl
      · rw [hplaces' i m hi, Nat.zero_add]

/-! ## Whole sequences -/

/-- The condition under which an operation keeps both tables in order. -/
def SymbolFits (D : Declarations N) (r : ScopeRun N) : SymbolOp N → Prop
  | .add _ n => AddFits D r.symbols n
  | .remove n => RemoveFits r n

/-- Whatever is added and removed in a new scope, its tables stay in order as long as
every operation meets its condition. -/
theorem symbolOps_stayOverloaded (D : Declarations N) (ops : List (SymbolOp N)) :
    StaysOverloaded D (SymbolFits D) ScopeRun.start ops := by
  suffices ∀ r : ScopeRun N, ScopeInv D r → StaysOverloaded D (SymbolFits D) r ops from
    this ScopeRun.start scopeInv_start
  induction ops with
  | nil => exact fun r _ => trivial
  | cons op ops ih =>
      intro r h hallowed hfits
      cases op with
      | add symname n =>
          obtain ⟨r', hends, hinv⟩ := h.add symname hallowed.1 hallowed.2 hfits
          exact ⟨r', hends, hinv.toWellOverloaded, ih r' hinv⟩
      | remove n =>
          obtain ⟨r', hends, hinv⟩ := h.remove hallowed hfits
          exact ⟨r', hends, hinv.toWellOverloaded, ih r' hinv⟩

/-- The declarations `f(int)`, `f(bool)` and, for every further node, `f(char)`. -/
def threeOverloads : Declarations Nat where
  node n := {
    name := ['f']
    nodeType := .cdeclNode
    templatetype := none
    template := false
    allowsTypedef := false
    storage := none
    decl := some (if n = 0 then ['f', '(', 'i', 'n', 't', ')', '.']
      else if n = 1 then ['f', '(', 'b', 'o', 'o', 'l', ')', '.']
      else ['f', '(', 'c', 'h', 'a', 'r', ')', '.'])
    ignore := false
    weak := false
    typename := false }
  deftype := id
  settled _ := rfl

theorem threeOverloads_overloadable (n : Nat) : (threeOverloads.node n).Overloadable where
  named := List.cons_ne_nil _ _
  considered := rfl
  strong := rfl
  no_typedef := rfl
  no_namespace h := by cases h
  no_templateparm h := by cases h
  no_instance _ := rfl

/-- When the first of three overloaded functions is removed, the second, which is the
first one now, still names it as the first. -/
theorem symbolRemove_first_of_three :
    ¬ StaysOverloaded threeOverloads (fun _ _ => True) ScopeRun.start
      [.add ['f'] 0, .add ['f'] 1, .add ['f'] 2, .remove 0] := by
  intro h
  obtain ⟨r₁, ⟨n₁, h₁⟩, -, h⟩ := h ⟨rfl, threeOverloads_overloadable 0⟩ trivial
  obtain rfl := Option.some.inj (h₁ (n₁ + 4) (by omega))
  obtain ⟨r₂, ⟨n₂, h₂⟩, -, h⟩ := h ⟨rfl, threeOverloads_overloadable 1⟩ trivial
  obtain rfl := Option.some.inj (h₂ (n₂ + 4) (by omega))
  obtain ⟨r₃, ⟨n₃, h₃⟩, -, h⟩ := h ⟨rfl, threeOverloads_overloadable 2⟩ trivial
  obtain rfl := Option.some.inj (h₃ (n₃ + 4) (by omega))
  obtain ⟨r₄, ⟨n₄, h₄⟩, hwell, -⟩ := h (Option.some_ne_none ['f']) trivial
  obtain rfl := Option.some.inj (h₄ (n₄ + 4) (by omega))
  obtain ⟨l, -, hhead, hmem, -, hfirst⟩ := hwell.chains ['f']
  have hhead' : some 1 = l.head? := hhead
  have hone : 1 ∈ l := (hmem 1).2 rfl
  have htwo : 2 ∈ l := (hmem 2).2 rfl
  have hlen : 2 ≤ l.length := by
    by_contra hlt
    obtain ⟨a, rfl⟩ := List.length_eq_one_iff.1 (show l.length = 1 by
      have hpos := List.length_pos_of_mem hone
      omega)
    obtain rfl : 1 = a := by simpa using hone
    simp at htwo
  have hstill : some 0 = l.head? := hfirst hlen 1 hone
  rw [← hhead'] at hstill
  cases hstill

end Swig4Ada.Swig

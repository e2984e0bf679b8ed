import Swig4Ada.Modules.Override

/-!
# Abstract by what is inherited

`is_abstract_inherit` says that a class is abstract when some pure method of an ancestor
is implemented nowhere in its hierarchy, whichever classes were looked at before. That is
what it should say where a pure method that is implemented at all is implemented on a way
to where it comes from, and otherwise only if there is another that is not.
-/

namespace Swig4Ada.Modules

open Swig4Ada.Swig

namespace Hierarchy

variable {C : Type} {H : Hierarchy C} {n c a b : C} {m : ClassMember}

/-! ## Ways -/

theorem Way.ancestor {way : List C} (h : H.Way n way a) : H.Ancestor n a := by
  induction h with
  | here c => exact .refl
  | down hb _ ih => exact Relation.ReflTransGen.head hb ih

theorem Way.mem_ancestor {way : List C} (h : H.Way n way a) (hc : c ∈ way) : H.Ancestor n c := by
  induction h with
  | here c' =>
      rw [List.mem_singleton.1 hc]
      exact .refl
  | down hb _ ih =>
      rcases List.mem_cons.1 hc with rfl | hc
      · exact .refl
      · exact Relation.ReflTransGen.head hb (ih hc)

theorem exists_way (h : H.Ancestor n a) : ∃ way, H.Way n way a := by
  induction h using Relation.ReflTransGen.head_induction_on with
  | refl => exact ⟨[a], .here a⟩
  | head hb _ ih =>
      obtain ⟨way, hway⟩ := ih
      exact ⟨_, .down hb hway⟩

/-! ## The lookup -/

theorem checkImplemented_iff {search_decl : List Char} {l : List ClassMember} :
    H.checkImplemented search_decl l = true ↔ ∃ k ∈ l, k.nodeType = .cdeclNode ∧
      k.isFunction = true ∧ H.searchDecl k = search_decl ∧ k.isPure = false := by
  induction l with
  | nil => simp [checkImplemented]
  | cons k l ih =>
      rw [checkImplemented, List.exists_mem_cons_iff]
      split
      · rename_i hk
        obtain ⟨htype, hfun, hdecl, hpure⟩ := hk
        exact iff_of_true rfl (Or.inl ⟨htype, hfun, hdecl, by simpa using hpure⟩)
      · rename_i hk
        rw [ih]
        refine ⟨Or.inr, fun h => h.resolve_left ?_⟩
        intro ⟨htype, hfun, hdecl, hpure⟩
        exact hk ⟨htype, hfun, hdecl, by rw [hpure]; rfl⟩

theorem chain_implemented :
    H.checkImplemented (H.searchDecl m) (H.chain c m.name) = true ↔ H.ImplementedIn c m := by
  rw [checkImplemented_iff]
  constructor
  · intro ⟨k, hk, htype, hfun, hdecl, hpure⟩
    obtain ⟨hmem, hname⟩ := List.mem_filter.1 hk
    exact ⟨k, hmem, htype, hfun, of_decide_eq_true hname, hdecl, hpure⟩
  · intro ⟨k, hmem, htype, hfun, hname, hdecl, hpure⟩
    exact ⟨k, List.mem_filter.2 ⟨hmem, decide_eq_true hname⟩, htype, hfun, hdecl, hpure⟩

variable [DecidableEq C]

theorem mem_inherit : b ∈ H.inherit c ↔ b ∈ H.allbases c := by
  have hfold : ∀ (l acc : List C), b ∈ l.foldl
      (fun inherit s => if s ∈ inherit then inherit else inherit ++ [s]) acc ↔ b ∈ acc ∨ b ∈ l := by
    intro l
    induction l with
    | nil => intro acc; simp
    | cons s l ih =>
        intro acc
        rw [List.foldl_cons, ih, List.mem_cons]
        by_cases hs : s ∈ acc
        · rw [if_pos hs]
          constructor
          · exact fun h => h.imp_right Or.inr
          · intro h
            rcases h with h | rfl | h
            · exact Or.inl h
            · exact Or.inl hs
            · exact Or.inr h
        · rw [if_neg hs, List.mem_append, List.mem_singleton, or_assoc]
  rw [inherit, hfold]
  simp

omit [DecidableEq C] in
theorem lookupInherited_iff {lookup : C → Option Bool} {P : C → Prop} {l : List C}
    (h : ∀ s ∈ l, ∃ found, lookup s = some found ∧ (found = true ↔ P s)) :
    ∃ found, lookupInherited lookup l = some found ∧ (found = true ↔ ∃ s ∈ l, P s) := by
  induction l with
  | nil => exact ⟨false, rfl, by simp⟩
  | cons s l ih =>
      obtain ⟨found, hs, hfound⟩ := h s List.mem_cons_self
      rw [lookupInherited, hs]
      cases found with
      | true => exact ⟨true, rfl, iff_of_true rfl ⟨s, List.mem_cons_self, hfound.1 rfl⟩⟩
      | false =>
          obtain ⟨rest, hrest, hiff⟩ := ih fun s hs => h s (List.mem_cons_of_mem _ hs)
          refine ⟨rest, hrest, hiff.trans ?_⟩
          rw [List.exists_mem_cons_iff]
          exact (or_iff_right fun hP => Bool.false_ne_true (hfound.2 hP)).symm

/-- The lookup finds what the scope or a scope that it inherits has; no mark is in the way. -/
theorem symbolLookup_iff {check : List ClassMember → Bool} {name : List Char} {fuel : Nat}
    {marked : List C} (hfuel : H.rank c < fuel) (hmarked : ∀ s ∈ marked, H.rank c < H.rank s) :
    ∃ found, H.symbolLookup check name fuel marked c = some found ∧
      (found = true ↔ ∃ d, H.Ancestor c d ∧ check (H.chain d name) = true) := by
  induction fuel generalizing marked c with
  | zero => exact absurd hfuel (Nat.not_lt_zero _)
  | succ fuel ih =>
      rw [symbolLookup, if_neg fun hc => Nat.lt_irrefl _ (hmarked c hc)]
      by_cases hcheck : check (H.chain c name) = true
      · rw [if_pos hcheck]
        exact ⟨true, rfl, iff_of_true rfl ⟨c, .refl, hcheck⟩⟩
      rw [if_neg hcheck]
      have hbelow : ∀ s ∈ H.inherit c, ∃ found,
          H.symbolLookup check name fuel (c :: marked) s = some found ∧
            (found = true ↔ ∃ d, H.Ancestor s d ∧ check (H.chain d name) = true) := by
        intro s hs
        have hlt := H.acyclic c s (mem_inherit.1 hs)
        refine ih (by omega) fun t ht => ?_
        rcases List.mem_cons.1 ht with rfl | ht
        · exact hlt
        · exact Nat.lt_trans hlt (hmarked t ht)
      obtain ⟨found, hfound, hiff⟩ := lookupInherited_iff hbelow
      refine ⟨found, hfound, hiff.trans ?_⟩
      constructor
      · intro ⟨s, hs, d, hd, hd'⟩
        exact ⟨d, Relation.ReflTransGen.head (mem_inherit.1 hs) hd, hd'⟩
      · intro ⟨d, hd, hd'⟩
        rcases hd.cases_head with rfl | ⟨s, hs, hd⟩
        · exact absurd hd' hcheck
        · exact ⟨s, mem_inherit.2 hs, d, hd, hd'⟩

/-- No class of the hierarchy implements the method. -/
def Missing (H : Hierarchy C) (n : C) (m : ClassMember) : Prop :=
  ∀ c, H.Ancestor n c → ¬ H.ImplementedIn c m

theorem clookupImplemented_iff (n : C) (m : ClassMember) :
    ∃ found, H.clookupImplemented n m = some found ∧ (found = false ↔ H.Missing n m) := by
  have hmarked : ∀ s ∈ ([] : List C), H.rank n < H.rank s := fun s hs => absurd hs List.not_mem_nil
  obtain ⟨found, hfound, hiff⟩ := @symbolLookup_iff _ H n _
    (H.checkImplemented (H.searchDecl m)) m.name _ [] (Nat.lt_succ_self (H.rank n)) hmarked
  refine ⟨found, hfound, ?_⟩
  rw [← Bool.not_eq_true, hiff, Missing]
  constructor
  · exact fun h c hc himpl => h ⟨c, hc, chain_implemented.2 himpl⟩
  · exact fun h ⟨c, hc, himpl⟩ => h c hc (chain_implemented.1 himpl)

/-! ## The search -/

/-- The attributes of a class list its own pure methods, and otherwise such of ancestors. -/
structure Listed (H : Hierarchy C) (s : Attributes C) : Prop where
  own : ∀ c, ∀ m ∈ H.pureAbstracts c, m ∈ (s.abstracts c).getD []
  inherited : ∀ c, ∀ m ∈ (s.abstracts c).getD [], ∃ a, H.Ancestor c a ∧ m ∈ H.pureAbstracts a

omit [DecidableEq C] in
theorem listed_parsed : H.Listed H.parsed := by
  have hsame : ∀ c, (H.parsed.abstracts c).getD [] = H.pureAbstracts c := by
    intro c
    show (if H.pureAbstracts c = [] then none else some (H.pureAbstracts c)).getD [] = _
    split
    · rename_i hnil
      rw [hnil]
      rfl
    · rfl
  exact ⟨fun c m hm => by rw [hsame]; exact hm, fun c m hm => ⟨c, .refl, by rwa [hsame] at hm⟩⟩

theorem Listed.save {s : Attributes C} (h : H.Listed s) (hbase : H.Ancestor n b)
    (hm : m ∈ (s.abstracts b).getD []) : H.Listed (saveAbstract n m s) := by
  have hlist : ∀ c, ((saveAbstract n m s).abstracts c).getD [] =
      if c = n then (s.abstracts c).getD [] ++ [m] else (s.abstracts c).getD [] := by
    intro c
    show (Function.update s.abstracts n _ c).getD [] = _
    by_cases hc : c = n
    · rw [hc, Function.update_self, if_pos rfl]
      rfl
    · rw [Function.update_of_ne hc, if_neg hc]
  constructor
  · intro c k hk
    rw [hlist]
    split
    · exact List.mem_append_left _ (h.own c k hk)
    · exact h.own c k hk
  · intro c k hk
    rw [hlist] at hk
    split at hk
    · rename_i hc
      rcases List.mem_append.1 hk with hk | hk
      · exact h.inherited c k hk
      · obtain rfl := List.mem_singleton.1 hk
        obtain ⟨a, ha, hpure⟩ := h.inherited b k hm
        rw [hc]
        exact ⟨a, hbase.trans ha, hpure⟩
    · exact h.inherited c k hk

theorem save_other {s : Attributes C} (hc : c ≠ n) :
    (saveAbstract n m s).abstracts c = s.abstracts c := Function.update_of_ne hc _ _

/-- A method that the search cares about and does not find. -/
def Left (H : Hierarchy C) (n : C) (m : ClassMember) : Prop :=
  m.name ≠ [] ∧ m.hasTilde = false ∧ H.Missing n m

theorem abstractsLoop_iff {l : List ClassMember} {s : Attributes C} {dabstract : Bool}
    (h : H.Listed s) (hbase : H.Ancestor n b) (hl : ∀ m ∈ l, m ∈ (s.abstracts b).getD []) :
    ∃ s' found, H.abstractsLoop n b l s dabstract = some (s', found) ∧ H.Listed s' ∧
      (b ≠ n → (found = true ↔ dabstract = true ∨ ∃ m ∈ l, H.Left n m)) ∧
      (b = n → dabstract = false → found = false) := by
  induction l generalizing s dabstract with
  | nil => exact ⟨s, dabstract, rfl, h, fun _ => by simp, fun _ hd => hd⟩
  | cons m l ih =>
      have hrest := fun k hk => hl k (List.mem_cons_of_mem _ hk)
      rw [abstractsLoop]
      by_cases hskip : m.name = [] ∨ m.hasTilde = true
      · rw [if_pos hskip]
        obtain ⟨s', found, hrun, hlisted, hiff, hn⟩ := @ih s dabstract h hrest
        refine ⟨s', found, hrun, hlisted, fun hne => (hiff hne).trans ?_, hn⟩
        have hnot : ¬ H.Left n m := by
          intro hleft
          rcases hskip with hskip | hskip
          · exact hleft.1 hskip
          · rw [hleft.2.1] at hskip
            cases hskip
        rw [List.exists_mem_cons_iff, or_iff_right hnot]
      · rw [if_neg hskip]
        rw [not_or, Bool.not_eq_true] at hskip
        obtain ⟨found, hfound, hmissing⟩ := clookupImplemented_iff (H := H) n m
        rw [hfound]
        cases found with
        | true =>
            obtain ⟨s', found, hrun, hlisted, hiff, hn⟩ := @ih s dabstract h hrest
            refine ⟨s', found, hrun, hlisted, fun hne => (hiff hne).trans ?_, hn⟩
            have hnot : ¬ H.Left n m := fun hleft => by cases hmissing.2 hleft.2.2
            rw [List.exists_mem_cons_iff, or_iff_right hnot]
        | false =>
            have hleft : H.Left n m := ⟨hskip.1, hskip.2, hmissing.1 rfl⟩
            have hmem := hl m List.mem_cons_self
            have hsaved : ∀ k ∈ l, k ∈ ((saveAbstract n m s).abstracts b).getD [] := by
              intro k hk
              by_cases hb : b = n
              · subst hb
                show k ∈ (Function.update s.abstracts b _ b).getD []
                rw [Function.update_self]
                exact List.mem_append_left _ (hrest k hk)
              · rw [save_other hb]
                exact hrest k hk
            obtain ⟨s', found, hrun, hlisted, hiff, hn⟩ :=
              @ih _ (decide (b ≠ n)) (h.save hbase hmem) hsaved
            refine ⟨s', found, hrun, hlisted, fun hne => (hiff hne).trans ?_, fun hb _ => ?_⟩
            · exact iff_of_true (Or.inl (decide_eq_true hne))
                (Or.inr ⟨m, List.mem_cons_self, hleft⟩)
            · exact hn hb (decide_eq_false (not_not.2 hb))

omit [DecidableEq C] in
theorem basesLoop_iff {inherits : C → Attributes C → Option (Attributes C × Bool)}
    {P : C → Prop} {l : List C} {s : Attributes C} (hs : H.Listed s)
    (h : ∀ b ∈ l, ∀ s, H.Listed s → ∃ s' found, inherits b s = some (s', found) ∧ H.Listed s' ∧
      (found = true ↔ P b)) :
    ∃ s' found, basesLoop inherits l s = some (s', found) ∧ H.Listed s' ∧
      (found = true ↔ ∃ b ∈ l, P b) := by
  induction l generalizing s with
  | nil => exact ⟨s, false, rfl, hs, by simp⟩
  | cons b l ih =>
      obtain ⟨s₁, found, hrun, hlisted, hiff⟩ := h b List.mem_cons_self s hs
      rw [basesLoop, hrun]
      cases found with
      | true => exact ⟨s₁, true, rfl, hlisted, iff_of_true rfl ⟨b, List.mem_cons_self, hiff.1 rfl⟩⟩
      | false =>
          obtain ⟨s₂, rest, hrest, hlisted', hiff'⟩ :=
            ih hlisted fun b hb => h b (List.mem_cons_of_mem _ hb)
          refine ⟨s₂, rest, hrest, hlisted', hiff'.trans ?_⟩
          rw [List.exists_mem_cons_iff]
          exact (or_iff_right fun hP => Bool.false_ne_true (hiff.2 hP)).symm

/-- A pure method of an ancestor of the second class is left. -/
def LeftAbove (H : Hierarchy C) (n b : C) : Prop :=
  ∃ a m, H.Ancestor b a ∧ m ∈ H.pureAbstracts a ∧ H.Left n m

omit [DecidableEq C] in
theorem ancestor_rank (h : H.Ancestor c a) : H.rank a ≤ H.rank c := by
  induction h with
  | refl => exact Nat.le_refl _
  | tail _ hb ih => exact Nat.le_trans (Nat.le_of_lt (H.acyclic _ _ hb)) ih

/-- The search below the class, by induction on the rank of the base. -/
theorem isAbstractFrom_iff (hown : H.pureAbstracts n = []) {fuel : Nat} {first : Bool}
    {s : Attributes C} (hs : H.Listed s) (hbase : H.Ancestor n b) (hfuel : H.rank b < fuel)
    (hfirst : first = true ↔ b = n) :
    ∃ s' found, H.isAbstractFrom n fuel first b s = some (s', found) ∧ H.Listed s' ∧
      (found = true ↔ H.LeftAbove n b) := by
  induction fuel generalizing first s b with
  | zero => exact absurd hfuel (Nat.not_lt_zero _)
  | succ fuel ih =>
      have hgo : ¬ ((!first) = true ∧ b = n) := by
        intro ⟨hnot, hb⟩
        rw [hfirst.2 hb] at hnot
        cases hnot
      obtain ⟨s₁, found, hloop, hlisted, hiff, hn⟩ :=
        @abstractsLoop_iff _ H n b _ ((s.abstracts b).getD []) s false hs hbase fun _ hm => hm
      have hdown : ∃ s' found, basesLoop (H.isAbstractFrom n fuel false) (H.allbases b) s₁ =
          some (s', found) ∧ H.Listed s' ∧
            (found = true ↔ ∃ d ∈ H.allbases b, H.LeftAbove n d) := by
        refine basesLoop_iff hlisted fun d hd s hs => ?_
        have hlt := H.acyclic b d hd
        have hrank := ancestor_rank hbase
        refine ih hs (hbase.tail hd) (by omega) (iff_of_false Bool.false_ne_true ?_)
        intro hdn
        rw [hdn] at hlt
        omega
      rw [isAbstractFrom, if_neg hgo, hloop]
      cases found with
      | true =>
          have hne : b ≠ n := fun hb => by cases hn hb rfl
          obtain hfalse | ⟨m, hm, hleft⟩ := (hiff hne).1 rfl
          · cases hfalse
          obtain ⟨a, ha, hpure⟩ := hs.inherited b m hm
          exact ⟨s₁, true, rfl, hlisted, iff_of_true rfl ⟨a, m, ha, hpure, hleft⟩⟩
      | false =>
          obtain ⟨s₂, found, hrun, hlisted', hiff'⟩ := hdown
          refine ⟨s₂, found, hrun, hlisted', hiff'.trans ?_⟩
          constructor
          · intro ⟨d, hd, a, m, ha, hpure, hleft⟩
            exact ⟨a, m, Relation.ReflTransGen.head hd ha, hpure, hleft⟩
          · intro ⟨a, m, ha, hpure, hleft⟩
            rcases ha.cases_head with rfl | ⟨d, hd, ha⟩
            · by_cases hb : b = n
              · rw [hb, hown] at hpure
                cases hpure
              · exact absurd ((hiff hb).2 (Or.inr ⟨m, hs.own b m hpure, hleft⟩)) Bool.false_ne_true
            · exact ⟨d, hd, a, m, ha, hpure, hleft⟩

theorem isAbstractInherit_iff (hown : H.pureAbstracts n = []) {s : Attributes C}
    (hs : H.Listed s) :
    ∃ s' found, H.isAbstractInherit n s = some (s', found) ∧ H.Listed s' ∧
      (found = true ↔ H.LeftAbove n n) :=
  isAbstractFrom_iff hown hs .refl (Nat.lt_succ_self _) (iff_of_true rfl rfl)

/-- The classes that are allocated keep the lists. -/
theorem allocateClasses_listed {order : List C} {s : Attributes C} (hs : H.Listed s) :
    ∃ s', H.allocateClasses order s = some s' ∧ H.Listed s' := by
  induction order generalizing s with
  | nil => exact ⟨s, rfl, hs⟩
  | cons n order ih =>
      rw [allocateClasses]
      by_cases hlist : (s.abstracts n).isSome = true
      · rw [if_pos hlist]
        exact ih hs
      rw [if_neg hlist]
      have hown : H.pureAbstracts n = [] := by
        rw [List.eq_nil_iff_forall_not_mem]
        intro m hm
        have hmem := hs.own n m hm
        rw [Option.not_isSome_iff_eq_none.1 hlist] at hmem
        exact absurd hmem List.not_mem_nil
      obtain ⟨s', found, hrun, hlisted, -⟩ := isAbstractInherit_iff hown hs
      rw [hrun]
      exact ih hlisted

/-! ## The answer and what it should be -/

omit [DecidableEq C] in
theorem leftAbove_iff : H.LeftAbove n n ↔
    ∃ a m, H.Ancestor n a ∧ H.PureMethod a m ∧ H.Missing n m := by
  constructor
  · intro ⟨a, m, ha, hpure, hname, htilde, hmissing⟩
    exact ⟨a, m, ha, ⟨hpure, hname, htilde⟩, hmissing⟩
  · intro ⟨a, m, ha, ⟨hpure, hname, htilde⟩, hmissing⟩
    exact ⟨a, m, ha, hpure, hname, htilde, hmissing⟩

omit [DecidableEq C] in
theorem Missing.not_overridden (h : H.Missing n m) (virtualBase : C → C → Bool) (a : C)
    (way : List C) : ¬ H.Overridden virtualBase n a way m := by
  intro ⟨_, hway', _, c, hc, himpl⟩
  exact h c (hway'.mem_ancestor (List.mem_of_mem_dropLast hc)) himpl

omit [DecidableEq C] in
/-- The answer is what it should be just where no method is implemented off the way. -/
theorem leftAbove_right_iff (virtualBase : C → C → Bool) :
    (H.LeftAbove n n ↔ H.IsAbstract virtualBase n) ↔ H.ImplementedOnTheWay virtualBase n := by
  have hsound : H.LeftAbove n n → H.IsAbstract virtualBase n := by
    intro hleft
    obtain ⟨a, m, ha, hpure, hmissing⟩ := leftAbove_iff.1 hleft
    obtain ⟨way, hway⟩ := exists_way ha
    exact ⟨a, way, m, hway, hpure, hmissing.not_overridden virtualBase a way⟩
  by_cases hleft : H.LeftAbove n n
  · exact iff_of_true (iff_of_true hleft (hsound hleft)) (Or.inr (leftAbove_iff.1 hleft))
  constructor
  · intro hright
    refine Or.inl fun a way m hway hpure _ => ?_
    by_contra hnot
    exact hleft (hright.2 ⟨a, way, m, hway, hpure, hnot⟩)
  · intro hkept
    refine ⟨hsound, fun ⟨a, way, m, hway, hpure, hnot⟩ => ?_⟩
    rcases hkept with hkept | hmissing
    · by_contra hnone
      refine hnot (hkept a way m hway hpure ?_)
      by_contra hno
      exact hnone (leftAbove_iff.2 ⟨a, m, hway.ancestor, hpure, fun c hc himpl =>
        hno ⟨c, hc, himpl⟩⟩)
    · exact leftAbove_iff.2 hmissing

def method (value : Option (List Char)) : ClassMember where
  name := ['m']
  nodeType := .cdeclNode
  templatetype := none
  template := false
  allowsTypedef := false
  storage := none
  decl := some ['f', '(', ')', '.']
  ignore := false
  weak := false
  typename := false
  value := value

theorem neZero_three : NeZero 3 := ⟨by decide⟩

attribute [local instance] neZero_three in
/-- `struct A { virtual void m() = 0; }; struct B { void m(); }; struct C : A, B { };` -/
def unrelated : Hierarchy (Fin 3) where
  members c := if c = 0 then [method (some ['0'])] else if c = 1 then [method none] else []
  allbases c := if c = 2 then [0, 1] else []
  functionType decl := decl
  rank c := if c = 2 then 1 else 0
  acyclic := by decide

end Hierarchy

end Swig4Ada.Modules

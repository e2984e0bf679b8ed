import Swig4Ada.Ada.DependsOn

/-!
# The answers of `depends_on`

Each of the three questions is a depth-first search without a record of what was
visited, among the components of a type, among its visits, and among the visits of a
package. When it ends, and whether the answer is right, is therefore what `answers_iff`
and `right_iff` say of these searches.
-/

namespace Swig4Ada.Ada

open Swig4Ada.Lib

variable {T S P : Type} [DecidableEq T] [DecidableEq P] {M : AdaObjects T S P}

/-! ## The questions are searches -/

omit [DecidableEq P] in
theorem dependsOnType_eq (t : T) : ∀ (fuel : Nat) (self : T),
    dependsOnType M t fuel self = (M.typeSearch t).run fuel self := by
  intro fuel
  induction fuel with
  | zero =>
      intro self
      rfl
  | succ fuel ih =>
      intro self
      have htest : ∀ a, (if a = t then some true else dependsOnType M t fuel a) =
          (M.typeSearch t).test fuel a := by
        intro a
        rw [Search.test, ih]
        simp [AdaObjects.typeSearch]
      rw [Search.run_succ, if_neg (by simp [AdaObjects.typeSearch]), Search.among, dependsOnType]
      simp only [htest]
      show _ = firstTrue _ (M.components self)
      unfold AdaObjects.components
      cases hself : M.type self with
      | aRecord components => exact firstTrue_filter _ _
      | aSubtype baseType => exact (firstTrue_singleton _).symm
      | anArray elementType => exact (firstTrue_singleton _).symm
      | accessToType accessedType => exact (firstTrue_singleton _).symm
      | interfacesCPointer accessedType associatedArrayType => rfl
      | accessToSubprogram s =>
          simp only [AdaSubprogram.dependsOn, parametersDependOn]
          rw [firstTrue_append]
          cases (M.subprogram s).isFunction with
          | true =>
              rw [if_pos rfl, if_pos rfl]
              generalize hone : firstTrue _ [_] = answer
              rw [firstTrue_singleton] at hone
              subst hone
              rfl
          | false =>
              rw [if_neg (by simp), if_neg (by simp)]
              rfl
      | scalar => rfl

theorem dependsOnPackage_eq (p : P) : ∀ (fuel : Nat) (self : T) (depth : Nat) (own : Bool),
    dependsOnPackage M p fuel self depth = (M.packageSearch p).run fuel ⟨self, depth, own⟩ := by
  intro fuel
  induction fuel with
  | zero =>
      intro self depth own
      rfl
  | succ fuel ih =>
      intro self depth own
      have htest : ∀ a depth, (if M.declarationPackage a = some p then some true
          else dependsOnPackage M p fuel a depth) =
          (M.packageSearch p).test fuel ⟨a, depth, true⟩ := by
        intro a depth
        rw [Search.test, ih a depth true]
        simp [AdaObjects.packageSearch]
      rw [Search.run_succ, Search.among, dependsOnPackage]
      simp only [htest]
      show _ = if (M.isRecord self && decide (10 < depth)) = true then _
        else firstTrue _ (M.visits ⟨self, depth, own⟩)
      unfold AdaObjects.visits AdaObjects.isRecord
      simp only
      cases hself : M.type self with
      | aRecord components =>
          dsimp only
          by_cases hd : 10 < depth
          · rw [if_pos hd, if_pos (by simpa using hd)]
          · rw [if_neg hd, if_neg (by simpa using hd), firstTrue_map]
            exact firstTrue_filter _ _
      | aSubtype baseType =>
          rw [if_neg (by simp)]
          exact (firstTrue_singleton _).symm
      | anArray elementType =>
          rw [if_neg (by simp)]
          exact (firstTrue_singleton _).symm
      | accessToType accessedType =>
          rw [if_neg (by simp)]
          exact (firstTrue_singleton _).symm
      | interfacesCPointer accessedType associatedArrayType =>
          rw [if_neg (by simp)]
          exact (firstTrue_singleton _).symm
      | accessToSubprogram s =>
          rw [if_neg (by simp)]
          simp only [AdaSubprogram.dependsOn, parametersDependOn]
          rw [firstTrue_append, firstTrue_map]
          cases (M.subprogram s).isFunction with
          | true =>
              rw [if_pos rfl, if_pos rfl]
              generalize hone : firstTrue _ [_] = answer
              rw [firstTrue_singleton] at hone
              subst hone
              rfl
          | false =>
              rw [if_neg (by simp), if_neg (by simp)]
              rfl
      | scalar =>
          rw [if_neg (by simp)]
          rfl

theorem packageDependsOn_eq (p q : P) (fuel depth : Nat) :
    packageDependsOn M p fuel q depth =
      (M.packageSearch p).among fuel (M.packageVisits q depth) := by
  have htest : ∀ a depth, (if M.declarationPackage a = some p then some true
      else dependsOnPackage M p fuel a depth) =
      (M.packageSearch p).test fuel ⟨a, depth, true⟩ := by
    intro a depth
    rw [Search.test, dependsOnPackage_eq p fuel a depth true]
    simp [AdaObjects.packageSearch]
  have hask : ∀ a depth, dependsOnPackage M p fuel a depth =
      (M.packageSearch p).test fuel ⟨a, depth, false⟩ := by
    intro a depth
    rw [Search.test, dependsOnPackage_eq p fuel a depth false]
    simp [AdaObjects.packageSearch]
  have hsub : packageSubprogramDependsOn M p fuel depth = fun s =>
      firstTrue ((M.packageSearch p).test fuel)
        (((M.subprogram s).parameters.map fun t => ⟨M.resolvedType t, depth + 2, true⟩) ++
          [⟨(M.subprogram s).returnType, depth + 1, false⟩]) := by
    funext s
    simp only [packageSubprogramDependsOn, parametersDependOn, htest]
    rw [firstTrue_append, firstTrue_map, hask]
    generalize hone : firstTrue _ [_] = answer
    rw [firstTrue_singleton] at hone
    subst hone
    rfl
  rw [Search.among, AdaObjects.packageVisits, firstTrue_append, firstTrue_flatMap,
    firstTrue_map, packageDependsOn, hsub]
  have hcontents : (fun t => dependsOnPackage M p fuel t (depth + 1)) =
      fun t => (M.packageSearch p).test fuel ⟨t, depth + 1, false⟩ :=
    funext fun t => hask t (depth + 1)
  exact hcontents ▸ rfl

/-! ## What is visited -/

omit [DecidableEq P] in
/-- A subtype is no record. -/
theorem resolvedFrom_reach : ∀ (n : Nat) (t : T),
    Relation.ReflTransGen (fun a b => b ∈ M.components a ∧ M.isRecord a = false) t
      (M.resolvedFrom n t) := by
  intro n
  induction n with
  | zero =>
      intro t
      exact .refl
  | succ n ih =>
      intro t
      rw [AdaObjects.resolvedFrom]
      split
      · rename_i baseType hbase
        refine Relation.ReflTransGen.head ?_ (ih baseType)
        simp [AdaObjects.components, AdaObjects.isRecord, hbase]
      · exact .refl

omit [DecidableEq P] in
/-- A visit goes to a component, or to what a component resolves to, and deeper. -/
theorem visit_step {v v' : Visit T} (h : v' ∈ M.visits v) :
    v.depth < v'.depth ∧ ∃ c ∈ M.components v.type,
      Relation.ReflTransGen (fun a b => b ∈ M.components a ∧ M.isRecord a = false) c v'.type := by
  unfold AdaObjects.visits at h
  unfold AdaObjects.components
  cases hv : M.type v.type with
  | aRecord components =>
      simp only [hv, List.mem_map] at h
      obtain ⟨t, ht, rfl⟩ := h
      exact ⟨Nat.lt_succ_self _, t, ht, .refl⟩
  | accessToSubprogram s =>
      simp only [hv, List.mem_append, List.mem_map] at h
      rcases h with h | ⟨t, ht, rfl⟩
      · by_cases hf : (M.subprogram s).isFunction = true
        · rw [if_pos hf, List.mem_singleton] at h
          subst h
          exact ⟨by simp, _, by simp [hf], .refl⟩
        · rw [if_neg hf] at h
          cases h
      · exact ⟨by simp, t, List.mem_append_right _ ht, resolvedFrom_reach _ t⟩
  | scalar =>
      simp only [hv] at h
      cases h
  | _ =>
      simp only [hv, List.mem_singleton] at h
      subst h
      exact ⟨Nat.lt_succ_self _, _, by simp, .refl⟩

omit [DecidableEq P] in
theorem visit_reach {v v' : Visit T} (h : v' ∈ M.visits v) :
    M.Reachable v.type v'.type := by
  obtain ⟨-, c, hc, hwalk⟩ := visit_step h
  exact Relation.TransGen.head' hc (hwalk.lift id fun _ _ hstep => hstep.1)

omit [DecidableEq P] in
theorem visits_reach {v v' : Visit T}
    (h : Relation.ReflTransGen (fun a b => b ∈ M.visits a) v v') :
    Relation.ReflTransGen (fun a b => b ∈ M.components a) v.type v'.type := by
  induction h with
  | refl => exact .refl
  | tail _ hstep ih => exact ih.trans (visit_reach hstep).to_reflTransGen

theorem reaches_of_below {self : T} {p : P} {depth : Nat} {v : Visit T}
    (hv : (M.packageSearch p).Below [⟨self, depth, false⟩] v)
    (hhit : (M.packageSearch p).hit v = true) : M.ReachesPackage self p := by
  obtain ⟨w, hw, hwalk⟩ := hv
  obtain rfl := List.mem_singleton.1 hw
  have hpackage : v.own = true ∧ M.declarationPackage v.type = some p := by
    simpa [AdaObjects.packageSearch] using hhit
  rcases hwalk.cases_head with rfl | ⟨w, hw, hwalk⟩
  · exact absurd hpackage.1 (by simp)
  · exact ⟨v.type, Relation.TransGen.trans_left (visit_reach hw) (visits_reach hwalk),
      hpackage.2⟩

theorem uses_of_below {p q : P} {depth : Nat} {v : Visit T}
    (hv : (M.packageSearch p).Below (M.packageVisits q depth) v)
    (hhit : (M.packageSearch p).hit v = true) : M.UsesPackage q p := by
  obtain ⟨w, hw, hwalk⟩ := hv
  have hpackage : v.own = true ∧ M.declarationPackage v.type = some p := by
    simpa [AdaObjects.packageSearch] using hhit
  -- Each visit of the package goes to a type that it names, or to its resolved type.
  obtain ⟨t, ht, hreach⟩ : ∃ t ∈ M.declaredWith q,
      Relation.ReflTransGen (fun a b => b ∈ M.components a) t w.type := by
    unfold AdaObjects.packageVisits at hw
    unfold AdaObjects.declaredWith
    rw [List.mem_append, List.mem_flatMap, List.mem_map] at hw
    rcases hw with ⟨s, hs, hw⟩ | ⟨t, ht, rfl⟩
    · rw [List.mem_append, List.mem_map, List.mem_singleton] at hw
      rcases hw with ⟨t, ht, rfl⟩ | rfl
      · exact ⟨t, List.mem_append_left _ (List.mem_flatMap.2 ⟨s, hs, List.mem_append_left _ ht⟩),
          (resolvedFrom_reach _ t).lift id fun _ _ hstep => hstep.1⟩
      · exact ⟨_, List.mem_append_left _ (List.mem_flatMap.2 ⟨s, hs, by simp⟩), .refl⟩
    · exact ⟨t, List.mem_append_right _ ht, .refl⟩
  have hall := hreach.trans (visits_reach hwalk)
  rcases Relation.reflTransGen_iff_eq_or_transGen.1 hall with heq | htrans
  · exact ⟨t, ht, .inl (heq ▸ hpackage.2)⟩
  · exact ⟨t, ht, .inr ⟨v.type, htrans, hpackage.2⟩⟩

/-- A search for a package ends when the types that are no records are made of types that
were there before them, however the records are linked. -/
theorem visits_bounded (h : WellFounded fun b a => b ∈ M.components a ∧ M.isRecord a = false)
    (p : P) (v : Visit T) : (M.packageSearch p).Bounded v := by
  have hall : ∀ (k : Nat) (t : T) (depth : Nat) (own : Bool), 11 ≤ depth + k →
      (M.packageSearch p).Bounded ⟨t, depth, own⟩ := by
    intro k
    induction k using Nat.strong_induction_on with
    | _ k ihk =>
        intro t
        induction t using h.transGen.induction with
        | _ t ih =>
            intro depth own hk
            by_cases ht : M.isRecord t = true
            · by_cases hd : 10 < depth
              · exact .stop (by simpa [AdaObjects.packageSearch, ht] using hd)
              · refine .down fun v' hv' => ?_
                have hdeeper := (visit_step hv').1
                exact ihk (k - 1) (by omega) _ _ _ (by simp only at hdeeper; omega)
            · refine .down fun v' hv' => ?_
              obtain ⟨hdeeper, c, hc, hwalk⟩ := visit_step hv'
              refine ih _ ?_ _ _ (by simp only at hdeeper; omega)
              have hback := Relation.reflTransGen_swap.2 hwalk
              exact Relation.TransGen.tail' hback ⟨hc, by simpa using ht⟩
  exact hall 11 v.type v.depth v.own (by omega)

/-! ## When the answers are right -/

/-- The types of which a type is made and those below them are without endless paths, or
the type that is looked for is met before them. -/
def MetInTime (M : AdaObjects T S P) (self t : T) : Prop :=
  (∀ a ∈ M.components self, (M.typeSearch t).Bounded a) ∨
    (M.typeSearch t).MetAmong (M.components self)

omit [DecidableEq P] in
theorem typeRight_iff (self t : T) : TypeRight M self t ↔ MetInTime M self t := by
  have hends : ∀ b, EndsWith (fun fuel => dependsOnType M t fuel self) b ↔
      (M.typeSearch t).Answers (M.components self) b := by
    intro b
    simp only [EndsWith, Search.Answers, dependsOnType_eq]
    have hrun : ∀ fuel, (M.typeSearch t).run (fuel + 1) self =
        (M.typeSearch t).among fuel (M.components self) := fun fuel => rfl
    constructor
    · rintro ⟨n, hn⟩
      refine ⟨n, fun fuel hf => ?_⟩
      rw [← hrun]
      exact hn _ (by omega)
    · rintro ⟨n, hn⟩
      refine ⟨n + 1, fun fuel hf => ?_⟩
      obtain ⟨fuel, rfl⟩ : ∃ k, fuel = k + 1 := ⟨fuel - 1, by omega⟩
      rw [hrun]
      exact hn _ (by omega)
  have hreach : M.Reachable self t ↔ ∃ z, (M.typeSearch t).Below (M.components self) z ∧
      (M.typeSearch t).hit z = true := by
    constructor
    · intro h
      obtain ⟨a, ha, hwalk⟩ := Relation.TransGen.head'_iff.1 h
      exact ⟨t, ⟨a, ha, hwalk⟩, by simp [AdaObjects.typeSearch]⟩
    · rintro ⟨z, ⟨a, ha, hwalk⟩, hz⟩
      obtain rfl : z = t := by simpa [AdaObjects.typeSearch] using hz
      exact Relation.TransGen.head' ha hwalk
  have hright : TypeRight M self t ↔ (M.typeSearch t).Right (M.components self) := by
    simp only [TypeRight, Search.Right, hends, hreach]
  rw [hright, Search.right_iff, MetInTime, and_iff_left]
  rintro ⟨z, -, hz⟩
  simp [AdaObjects.typeSearch] at hz

/-- A search over visits that finds only what the claim is about is right when it ends
and what it meets is what there is. -/
theorem visitsWell_iff {p : P} {l : List (Visit T)} {reaches : Prop}
    (hfound : (∃ v, (M.packageSearch p).Below l v ∧ (M.packageSearch p).hit v = true) → reaches) :
    (∃ b, (M.packageSearch p).Answers l b ∧ (b = true ↔ reaches)) ↔
      M.VisitsWell p l reaches := by
  constructor
  · rintro ⟨b, hb, hright⟩
    rw [Search.answers_iff, hright] at hb
    refine ⟨hb.1, ?_, hb.2.1⟩
    rintro ⟨v, hv, hstop⟩
    exact hb.2.2 ⟨v, hv, .inr hstop⟩
  · rintro ⟨hends, hcut, hmet⟩
    classical
    refine ⟨decide reaches, Search.answers_iff.2 ⟨hends, ?_⟩, by simp⟩
    rw [decide_eq_true_iff]
    refine ⟨hmet, ?_⟩
    rintro ⟨v, hv, hhit | hstop⟩
    · exact hfound ⟨v, hv, hhit⟩
    · exact hcut ⟨v, hv, hstop⟩

theorem endsWith_package {self : T} {p : P} {depth : Nat} {b : Bool} :
    EndsWith (fun fuel => dependsOnPackage M p fuel self depth) b ↔
      (M.packageSearch p).Answers [⟨self, depth, false⟩] b := by
  have hrun : ∀ fuel, dependsOnPackage M p fuel self depth =
      (M.packageSearch p).among fuel [⟨self, depth, false⟩] := by
    intro fuel
    rw [dependsOnPackage_eq p fuel self depth false, Search.among, firstTrue_singleton,
      Search.test]
    simp [AdaObjects.packageSearch]
  simp only [EndsWith, hrun, Search.Answers]

theorem packageRight_iff (self : T) (p : P) (depth : Nat) :
    PackageRight M self p depth ↔
      M.VisitsWell p [⟨self, depth, false⟩] (M.ReachesPackage self p) := by
  rw [← visitsWell_iff fun ⟨_, hv, hhit⟩ => reaches_of_below hv hhit]
  simp only [PackageRight, endsWith_package]

theorem packagesRight_iff (q p : P) (depth : Nat) :
    PackagesRight M q p depth ↔
      M.VisitsWell p (M.packageVisits q depth) (M.UsesPackage q p) := by
  rw [← visitsWell_iff fun ⟨_, hv, hhit⟩ => uses_of_below hv hhit]
  simp only [PackagesRight, EndsWith, packageDependsOn_eq, Search.Answers]

/-- The question about a type ends with the right answer if and only if the type is met
before an endless path; that about a package if and only if moreover the cut-off and what
the search goes past make no difference. -/
theorem dependsOn_right_iff (M : AdaObjects T S P) (self t : T) (p q : P) (depth : Nat) :
    (TypeRight M self t ↔ MetInTime M self t) ∧
      (PackageRight M self p depth ↔
        M.VisitsWell p [⟨self, depth, false⟩] (M.ReachesPackage self p)) ∧
      (PackagesRight M q p depth ↔
        M.VisitsWell p (M.packageVisits q depth) (M.UsesPackage q p)) :=
  ⟨typeRight_iff self t, packageRight_iff self p depth, packagesRight_iff q p depth⟩

/-! ## The causes of wrong answers -/

section Causes

variable {self : T} {p : P} {depth : Nat}

/-- Without an answer at all: there is an endless path and nothing is met before it. -/
theorem package_ends_iff :
    (∃ b, EndsWith (fun fuel => dependsOnPackage M p fuel self depth) b) ↔
      (M.packageSearch p).Bounded ⟨self, depth, false⟩ ∨
        (M.packageSearch p).MetAmong [⟨self, depth, false⟩] := by
  simp only [endsWith_package, Search.answers_iff, List.forall_mem_singleton]
  constructor
  · rintro ⟨b, hends, -⟩
    exact hends
  · intro hends
    classical
    exact ⟨decide ((M.packageSearch p).SeenAmong [⟨self, depth, false⟩]), hends, by simp⟩

/-- Wrongly yes: a record is cut off, and no reachable type is declared in the package. -/
theorem package_true_of_cutoff {v : Visit T}
    (hv : (M.packageSearch p).Below [⟨self, depth, false⟩] v)
    (hstop : (M.packageSearch p).stop v = true) {b : Bool}
    (hends : EndsWith (fun fuel => dependsOnPackage M p fuel self depth) b) : b = true :=
  (Search.answers_iff.1 (endsWith_package.1 hends)).2.2 ⟨v, hv, .inr hstop⟩

/-- Wrongly no: no record is cut off, and no type of the package is compared. -/
theorem package_false_of_uncompared
    (hnone : ∀ v, (M.packageSearch p).Below [⟨self, depth, false⟩] v →
      (M.packageSearch p).hit v = false ∧ (M.packageSearch p).stop v = false) {b : Bool}
    (hends : EndsWith (fun fuel => dependsOnPackage M p fuel self depth) b) : b = false := by
  rw [← Bool.not_eq_true, (Search.answers_iff.1 (endsWith_package.1 hends)).2]
  rintro ⟨v, hv, hhit | hstop⟩
  · rw [(hnone v hv).1] at hhit
    cases hhit
  · rw [(hnone v hv).2] at hstop
    cases hstop

end Causes

/-! ## Types without circles -/

/-- The types between which and their components nothing is passed over: no parameters that are
resolved, and no array types of pointers. -/
def Direct (M : AdaObjects T S P) : Prop :=
  ∀ t, match M.type t with
    | .interfacesCPointer _ (some _) | .accessToSubprogram _ => False
    | _ => True

section Acyclic

variable {height : T → Nat}

omit [DecidableEq P] in
theorem visits_of_direct (h : Direct M) (v : Visit T) :
    M.visits v = (M.components v.type).map (⟨·, v.depth + 1, true⟩) := by
  have hv := h v.type
  unfold AdaObjects.visits AdaObjects.components
  cases htype : M.type v.type with
  | interfacesCPointer accessedType associatedArrayType =>
      cases associatedArrayType with
      | none => rfl
      | some _ =>
          rw [htype] at hv
          exact hv.elim
  | accessToSubprogram s =>
      rw [htype] at hv
      exact hv.elim
  | _ => rfl

omit [DecidableEq P] in
/-- A type below another is visited, and as deep as the types between lie. -/
theorem visited_of_reachable (h : Direct M) {self t : T} (hreach : M.Reachable self t)
    (depth : Nat) (own : Bool) : ∃ d, Relation.ReflTransGen (fun a b => b ∈ M.visits a)
      ⟨self, depth, own⟩ ⟨t, d, true⟩ := by
  induction hreach with
  | single hstep =>
      refine ⟨depth + 1, .single ?_⟩
      rw [visits_of_direct h]
      exact List.mem_map_of_mem hstep
  | tail _ hstep ih =>
      obtain ⟨d, hwalk⟩ := ih
      refine ⟨d + 1, hwalk.tail ?_⟩
      rw [visits_of_direct h]
      exact List.mem_map_of_mem hstep

omit [DecidableEq P] in
theorem depth_of_below (h : Direct M) (hheight : ∀ a, ∀ b ∈ M.components a, height b < height a)
    {v v' : Visit T} (hwalk : Relation.ReflTransGen (fun a b => b ∈ M.visits a) v v') :
    v'.depth + height v'.type ≤ v.depth + height v.type := by
  induction hwalk with
  | refl => exact le_refl _
  | @tail w w' _ hstep ih =>
      rw [visits_of_direct h, List.mem_map] at hstep
      obtain ⟨t, ht, rfl⟩ := hstep
      have hlower := hheight w.type t ht
      show w.depth + 1 + height t ≤ _
      omega

/-- Where nothing is passed over and no circle is made, the answers are right as far as types lie
at most ten below the first one. -/
theorem packageRight_of_height (h : Direct M)
    (hheight : ∀ a, ∀ b ∈ M.components a, height b < height a) {self : T} {depth : Nat}
    (hself : depth + height self ≤ 10) (p : P) : PackageRight M self p depth := by
  have hwf : WellFounded fun b a => b ∈ M.components a ∧ M.isRecord a = false :=
    Subrelation.wf (fun hstep => hheight _ _ hstep.1) (measure height).wf
  refine (packageRight_iff self p depth).2 ⟨.inl fun v _ => visits_bounded hwf p v, ?_, ?_⟩
  · rintro ⟨v, ⟨w, hw, hwalk⟩, hstop⟩
    obtain rfl := List.mem_singleton.1 hw
    have hdepth := depth_of_below h hheight hwalk
    have hdeep : M.isRecord v.type = true ∧ 10 < v.depth := by
      simpa [AdaObjects.packageSearch] using hstop
    simp only at hdepth
    omega
  · rintro ⟨t, hreach, ht⟩
    obtain ⟨d, hwalk⟩ := visited_of_reachable h hreach depth false
    exact ⟨⟨t, d, true⟩, ⟨_, List.mem_singleton_self _, hwalk⟩,
      .inl (by simp [AdaObjects.packageSearch, ht])⟩

omit [DecidableEq P] in
/-- The question about a type needs no more than that there are no circles. -/
theorem typeRight_of_height (hheight : ∀ a, ∀ b ∈ M.components a, height b < height a)
    (self t : T) : TypeRight M self t := by
  have hall : ∀ a, (M.typeSearch t).Bounded a := by
    intro a
    induction a using (measure height).wf.induction with
    | _ a ih => exact .down fun b hb => ih b (hheight a b hb)
  exact (typeRight_iff self t).2 (.inl fun a _ => hall a)

end Acyclic

/-- Two records, each with a pointer to the other, and a type that neither has. -/
def linkedRecords : AdaObjects (Fin 5) Empty Bool where
  type := fun t =>
    match t with
    | 0 => .aRecord [2]
    | 1 => .aRecord [3]
    | 2 => .accessToType 1
    | 3 => .accessToType 0
    | 4 => .scalar
  declarationPackage _ := some false
  subprogram s := s.elim
  package _ := ⟨[], [], []⟩
  order _ := 0
  baseType_lt := by decide

/-- On linked records the question about a type they do not have does not end, and that
about a package where nothing is declared is answered with yes. -/
theorem linkedRecords_not_right :
    ¬ TypeRight linkedRecords 0 4 ∧ ¬ PackageRight linkedRecords 0 true 0 := by
  constructor
  · have hloop : ∀ fuel, dependsOnType linkedRecords 4 fuel 0 = none ∧
        dependsOnType linkedRecords 4 fuel 1 = none ∧
        dependsOnType linkedRecords 4 fuel 2 = none ∧
        dependsOnType linkedRecords 4 fuel 3 = none := by
      intro fuel
      induction fuel with
      | zero => exact ⟨rfl, rfl, rfl, rfl⟩
      | succ fuel ih =>
          obtain ⟨h0, h1, h2, h3⟩ := ih
          simp [dependsOnType, linkedRecords, firstTrue, AdaObjects.isSelfReference] at h0 h1 h2 h3 ⊢
          simp [h0, h1, h2, h3]
    rintro ⟨b, ⟨n, hn⟩, -⟩
    have hend : dependsOnType linkedRecords 4 n 0 = some b := hn n le_rfl
    rw [(hloop n).1] at hend
    cases hend
  · rintro ⟨b, ⟨n, hn⟩, hb⟩
    have hyes : dependsOnPackage linkedRecords true (n + 30) 0 0 = some true := rfl
    have hbt : b = true := by
      have hend : dependsOnPackage linkedRecords true (n + 30) 0 0 = some b := hn _ (by omega)
      rw [hyes] at hend
      exact (Option.some.inj hend).symm
    obtain ⟨t, -, ht⟩ := hb.1 hbt
    cases ht

end Swig4Ada.Ada

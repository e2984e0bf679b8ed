import Swig4Ada.Ada.Context

/-!
# What a context clause depends on

Both loops of `to_Source` only ask the maps what they hold, and what they hold is said
by the set of uses alone (`mem_packageOrder`). So the packages with a normal and those
with a limited `with` are always the same. The first are sorted; the second are written
in the order of the map, because the sort in front of them is of the first list again.
-/

namespace Swig4Ada.Ada

variable {T S P : Type} [DecidableEq T] [DecidableEq P] {M : ContextObjects T S P}

/-! ## The required types -/

section Types

omit [DecidableEq P]

theorem addAccess_lookup (c : AdaContext T P) (u : T × Bool) (t : T) :
    (c.addAccess M u).aRequiredTypes.lookup t =
      if t = u.1 ∧ M.qualifiedName (M.declarationPackage u.1) ≠ standardName then
        some ((c.aRequiredTypes.lookup t).getD true && u.2)
      else c.aRequiredTypes.lookup t := by
  unfold AdaContext.addAccess
  by_cases hnamed : M.qualifiedName (M.declarationPackage u.1) = standardName
  · rw [if_pos hnamed, if_neg fun h => h.2 hnamed]
  rw [if_neg hnamed]
  by_cases ht : t = u.1
  · subst ht
    rw [if_pos ⟨rfl, hnamed⟩]
    cases hu : c.aRequiredTypes.lookup u.1 with
    | none => simp
    | some isAccessed =>
        simp only
        by_cases hacc : (isAccessed && !u.2) = true
        · rw [if_pos hacc, AList.lookup_insert]
          simp only [Bool.and_eq_true, Bool.not_eq_true'] at hacc
          simp [hacc.2]
        · rw [if_neg hacc, hu]
          cases isAccessed <;> simp_all
  · rw [if_neg fun h => ht h.1]
    cases c.aRequiredTypes.lookup u.1 with
    | none => exact AList.lookup_insert_ne ht
    | some isAccessed =>
        simp only
        split
        · exact AList.lookup_insert_ne ht
        · rfl

theorem added_append (uses : List (T × Bool)) (u : T × Bool) :
    AdaContext.added M (uses ++ [u]) = (AdaContext.added M uses).addAccess M u := by
  simp only [AdaContext.added, List.foldl_append, List.foldl_cons, List.foldl_nil]

theorem added_requirements (uses : List (T × Bool)) :
    (AdaContext.added M uses).packageRequirements = ∅ := by
  induction uses using List.reverseRecOn with
  | nil => rfl
  | append_singleton uses u ih =>
      rw [added_append, AdaContext.addAccess]
      split
      · exact ih
      · split
        · split <;> exact ih
        · exact ih

/-- What the map of required types holds: a type is accessed when all its uses are. -/
theorem added_lookup (uses : List (T × Bool)) (t : T) :
    (AdaContext.added M uses).aRequiredTypes.lookup t =
      if M.qualifiedName (M.declarationPackage t) ≠ standardName ∧ ∃ u ∈ uses, u.1 = t then
        some (uses.all fun u => decide (u.1 ≠ t) || u.2)
      else none := by
  induction uses using List.reverseRecOn with
  | nil =>
      rw [if_neg (by simp)]
      exact AList.lookup_empty t
  | append_singleton uses u ih =>
      rw [added_append, addAccess_lookup, ih, List.all_append]
      by_cases ht : t = u.1
      · subst ht
        by_cases hnamed : M.qualifiedName (M.declarationPackage u.1) = standardName
        · rw [if_neg fun h => h.2 hnamed, if_neg fun h => h.1 hnamed, if_neg fun h => h.1 hnamed]
        · have hlast : ∃ v ∈ uses ++ [u], v.1 = u.1 := ⟨u, by simp, rfl⟩
          have hpos : M.qualifiedName (M.declarationPackage u.1) ≠ standardName ∧
              ∃ v ∈ uses ++ [u], v.1 = u.1 := ⟨hnamed, hlast⟩
          rw [if_pos ⟨rfl, hnamed⟩, if_pos hpos]
          by_cases hany : ∃ v ∈ uses, v.1 = u.1
          · rw [if_pos ⟨hnamed, hany⟩]
            simp
          · rw [if_neg fun h => hany h.2]
            have hall : (uses.all fun v => decide (v.1 ≠ u.1) || v.2) = true := by
              rw [List.all_eq_true]
              intro v hv
              have hne : v.1 ≠ u.1 := fun h => hany ⟨v, hv, h⟩
              simp [hne]
            rw [hall]
            simp
      · rw [if_neg fun h => ht h.1]
        have hany : (∃ v ∈ uses ++ [u], v.1 = t) ↔ ∃ v ∈ uses, v.1 = t := by
          simp [Ne.symm ht]
        simp only [hany]
        simp [Ne.symm ht]

end Types

omit [DecidableEq P] in
/-- A required type in the map, with its flag. -/
theorem mem_requiredTypes {uses : List (T × Bool)} {t : T} {accessed : Bool} :
    (⟨t, accessed⟩ : Σ _ : T, Bool) ∈ (AdaContext.added M uses).aRequiredTypes.entries ↔
      M.qualifiedName (M.declarationPackage t) ≠ standardName ∧ (∃ u ∈ uses, u.1 = t) ∧
        (accessed = false ↔ ∃ u ∈ uses, u.1 = t ∧ u.2 = false) := by
  rw [← AList.mem_lookup_iff, added_lookup, Option.mem_def]
  by_cases h : M.qualifiedName (M.declarationPackage t) ≠ standardName ∧ ∃ u ∈ uses, u.1 = t
  · rw [if_pos h, Option.some.injEq]
    have hall : (uses.all fun u => decide (u.1 ≠ t) || u.2) = false ↔
        ∃ u ∈ uses, u.1 = t ∧ u.2 = false := by
      simp [List.all_eq_false]
    rw [← hall, and_iff_right h.1, and_iff_right h.2]
    cases accessed <;> cases (uses.all fun u => decide (u.1 ≠ t) || u.2) <;> simp
  · rw [if_neg h]
    constructor
    · intro hn
      cases hn
    · exact fun hmem => absurd ⟨hmem.1, hmem.2.1⟩ h

omit [DecidableEq P] in
/-- `add` of some types makes as many uses, each with what it finds of its type. -/
theorem addTypes_toContext (ts : List T) :
    (toContext : AdaContext T P).addTypes M ts =
      AdaContext.added M (ts.map fun t => (t, M.isAccess t)) := by
  rw [AdaContext.addTypes, AdaContext.added, List.foldl_map]
  rfl

omit [DecidableEq P] in
/-- Then all the types that are not of `standard` are required, the accesses as accessed. -/
theorem mem_addTypes {ts : List T} {t : T} {accessed : Bool} :
    (⟨t, accessed⟩ : Σ _ : T, Bool) ∈
        ((toContext : AdaContext T P).addTypes M ts).aRequiredTypes.entries ↔
      M.qualifiedName (M.declarationPackage t) ≠ standardName ∧ t ∈ ts ∧
        accessed = M.isAccess t := by
  rw [addTypes_toContext, mem_requiredTypes]
  refine and_congr_right fun _ => ?_
  simp only [List.mem_map, exists_exists_and_eq_and]
  constructor
  · rintro ⟨⟨u, hu, rfl⟩, hflag⟩
    refine ⟨hu, ?_⟩
    cases accessed with
    | false =>
        obtain ⟨v, -, rfl, hfalse⟩ := hflag.1 rfl
        exact hfalse.symm
    | true =>
        refine (Bool.eq_true_of_not_eq_false fun hfalse => ?_).symm
        exact nomatch hflag.2 ⟨u, hu, rfl, hfalse⟩
  · rintro ⟨ht, rfl⟩
    refine ⟨⟨t, ht, rfl⟩, fun hfalse => ⟨t, ht, rfl, hfalse⟩, ?_⟩
    rintro ⟨u, -, rfl, hfalse⟩
    exact hfalse

/-! ## The packages -/

/-- A use of a package for which a normal `with` is required. -/
def NormalUse (M : ContextObjects T S P) (own : P) (uses : List (T × Bool)) (p : P) : Prop :=
  ∃ u ∈ uses, M.declarationPackage u.1 = p ∧ (u.2 = false ∨ M.dependsOn p own = false)

omit [DecidableEq T] in
/-- What the map of packages holds after some required types. -/
theorem packageRequirements_lookup (own p : P) :
    ∀ (types : List (Σ _ : T, Bool)) (m : AList fun _ : P => Bool),
      (packageRequirements M own m types).lookup p =
        if p ≠ own ∧ ∃ e ∈ types, M.declarationPackage e.1 = p then
          some ((m.lookup p).getD false ||
            types.any fun e => decide (M.declarationPackage e.1 = p) &&
              (!e.2 || !M.dependsOn p own))
        else m.lookup p := by
  intro types
  induction types with
  | nil =>
      intro m
      rw [if_neg (by simp)]
      rfl
  | cons e types ih =>
      intro m
      rw [packageRequirements, List.foldl_cons]
      have hrest := ih (requirePackage M own m e)
      rw [packageRequirements] at hrest
      rw [hrest]
      by_cases hown : p = own
      · rw [if_neg fun h => h.1 hown, if_neg fun h => h.1 hown]
        subst hown
        rw [requirePackage]
        simp only
        split
        · rfl
        · rename_i hne
          exact AList.lookup_insert_ne (Ne.symm hne)
      have hhere : (requirePackage M own m e).lookup p =
          if M.declarationPackage e.1 = p then
            some ((m.lookup p).getD false || (!e.2 || !M.dependsOn p own))
          else m.lookup p := by
        rw [requirePackage]
        simp only
        by_cases he : M.declarationPackage e.1 = p
        · subst he
          rw [if_neg hown, if_pos rfl, AList.lookup_insert]
        · rw [if_neg he]
          split
          · rfl
          · exact AList.lookup_insert_ne (Ne.symm he)
      have hall : (p ≠ own ∧ ∃ f ∈ e :: types, M.declarationPackage f.1 = p) ↔
          (M.declarationPackage e.1 = p ∨ ∃ f ∈ types, M.declarationPackage f.1 = p) := by
        simp [hown]
      have hrest : (p ≠ own ∧ ∃ f ∈ types, M.declarationPackage f.1 = p) ↔
          ∃ f ∈ types, M.declarationPackage f.1 = p := by
        simp [hown]
      rw [hhere, List.any_cons]
      simp only [hall, hrest]
      by_cases he : M.declarationPackage e.1 = p
      · by_cases hany : ∃ f ∈ types, M.declarationPackage f.1 = p
        · simp [he, hany, Bool.or_assoc]
        · have hnone : (types.any fun e => decide (M.declarationPackage e.1 = p) &&
              (!e.2 || !M.dependsOn p own)) = false := by
            rw [List.any_eq_false]
            intro f hf
            have hne : M.declarationPackage f.1 ≠ p := fun h => hany ⟨f, hf, h⟩
            simp [hne]
          rw [hnone]
          simp [he, hany]
      · have hdrop : (M.declarationPackage e.1 = p ∨
            ∃ f ∈ types, M.declarationPackage f.1 = p) ↔
              ∃ f ∈ types, M.declarationPackage f.1 = p := or_iff_right he
        rw [if_neg he, decide_eq_false he, Bool.false_and, Bool.false_or]
        exact if_congr hdrop.symm rfl rfl

/-- What the second loop goes over: the packages of the uses, each with whether a normal
`with` is required. -/
theorem mem_packageOrder {own : P} {uses l : List (T × Bool)} {packages : List (Σ _ : P, Bool)}
    (hl : ∀ u, u ∈ l ↔ u ∈ uses) (h : PackageOrder M own (AdaContext.added M l) packages)
    {p : P} {normal : Bool} :
    (⟨p, normal⟩ : Σ _ : P, Bool) ∈ packages ↔
      p ≠ own ∧ M.qualifiedName p ≠ standardName ∧
        (∃ u ∈ uses, M.declarationPackage u.1 = p) ∧
        (normal = true ↔ NormalUse M own uses p) := by
  obtain ⟨types, htypes, hpackages⟩ := h
  have hmem : ∀ {t a}, (⟨t, a⟩ : Σ _ : T, Bool) ∈ types ↔
      M.qualifiedName (M.declarationPackage t) ≠ standardName ∧ (∃ u ∈ uses, u.1 = t) ∧
        (a = false ↔ ∃ u ∈ uses, u.1 = t ∧ u.2 = false) := by
    intro t a
    rw [htypes.mem_iff, mem_requiredTypes]
    simp only [hl]
  have hany : (∃ e ∈ types, M.declarationPackage e.1 = p) ↔
      M.qualifiedName p ≠ standardName ∧ ∃ u ∈ uses, M.declarationPackage u.1 = p := by
    constructor
    · rintro ⟨⟨t, a⟩, he, rfl⟩
      obtain ⟨hnamed, ⟨u, hu, rfl⟩, -⟩ := hmem.1 he
      exact ⟨hnamed, u, hu, rfl⟩
    · rintro ⟨hnamed, u, hu, rfl⟩
      classical
      exact ⟨⟨u.1, !decide (∃ v ∈ uses, v.1 = u.1 ∧ v.2 = false)⟩,
        hmem.2 ⟨hnamed, ⟨u, hu, rfl⟩, by simp⟩, rfl⟩
  have hnormal : M.qualifiedName p ≠ standardName →
      ((types.any fun e => decide (M.declarationPackage e.1 = p) &&
        (!e.2 || !M.dependsOn p own)) = true ↔ NormalUse M own uses p) := by
    intro hnamed
    rw [List.any_eq_true]
    constructor
    · rintro ⟨⟨t, a⟩, he, htest⟩
      simp only [Bool.and_eq_true, decide_eq_true_iff, Bool.or_eq_true, Bool.not_eq_true'] at htest
      obtain ⟨rfl, htest⟩ := htest
      obtain ⟨-, ⟨u, hu, rfl⟩, ha⟩ := hmem.1 he
      rcases htest with htest | htest
      · obtain ⟨v, hv, hvt, hvf⟩ := ha.1 htest
        exact ⟨v, hv, by rw [hvt], .inl hvf⟩
      · exact ⟨u, hu, rfl, .inr htest⟩
    · rintro ⟨u, hu, rfl, htest⟩
      classical
      refine ⟨⟨u.1, !decide (∃ v ∈ uses, v.1 = u.1 ∧ v.2 = false)⟩,
        hmem.2 ⟨hnamed, ⟨u, hu, rfl⟩, by simp⟩, ?_⟩
      simp only [decide_true, Bool.true_and, Bool.or_eq_true, Bool.not_not, decide_eq_true_iff,
        Bool.not_eq_true']
      exact htest.imp (fun hf => ⟨u, hu, rfl, hf⟩) id
  rw [hpackages.mem_iff, ← AList.mem_lookup_iff, packageRequirements_lookup, added_requirements,
    AList.lookup_empty, Option.mem_def]
  by_cases hp : p ≠ own ∧ ∃ e ∈ types, M.declarationPackage e.1 = p
  · rw [if_pos hp, Option.some.injEq, and_iff_right hp.1]
    obtain ⟨hnamed, huses⟩ := hany.1 hp.2
    rw [and_iff_right hnamed, and_iff_right huses, ← hnormal hnamed]
    simp only [Option.getD_none, Bool.false_or]
    rw [Bool.eq_iff_iff]
    exact comm
  · rw [if_neg hp]
    constructor
    · intro hn
      cases hn
    · rintro ⟨hne, hnamed, huses, -⟩
      exact absurd ⟨hne, hany.2 ⟨hnamed, huses⟩⟩ hp

/-! ## The two lists -/

section Lists

variable {own p : P} {uses l : List (T × Bool)} {packages : List (Σ _ : P, Bool)}

omit [DecidableEq T] in
theorem required_ne_own (h : Required M own uses p) : p ≠ own := by
  have hext := h.2.1
  simp only [ContextObjects.external, Bool.and_eq_true, decide_eq_true_iff] at hext
  exact hext.1

theorem mem_normalWiths (hl : ∀ u, u ∈ l ↔ u ∈ uses)
    (h : PackageOrder M own (AdaContext.added M l) packages) :
    p ∈ normalWiths M own packages ↔
      Required M own uses p ∧ (NormalUse M own uses p ∨ M.isCore p = true) := by
  rw [normalWiths, List.mem_map]
  constructor
  · rintro ⟨⟨q, normal⟩, he, rfl⟩
    rw [List.mem_filter, mem_packageOrder hl h] at he
    obtain ⟨⟨hown, hnamed, huses, hnormal⟩, htest⟩ := he
    simp only [Bool.and_eq_true, Bool.or_eq_true] at htest
    exact ⟨⟨hnamed, htest.1, huses⟩, htest.2.imp hnormal.1 id⟩
  · rintro ⟨hreq, hwhy⟩
    classical
    refine ⟨⟨p, decide (NormalUse M own uses p)⟩, ?_, rfl⟩
    rw [List.mem_filter, mem_packageOrder hl h]
    refine ⟨⟨required_ne_own hreq, hreq.1, hreq.2.2, by simp⟩, ?_⟩
    simp only [Bool.and_eq_true, Bool.or_eq_true, decide_eq_true_iff]
    exact ⟨hreq.2.1, hwhy⟩

omit [DecidableEq T] in
theorem limitedRequired_iff : LimitedRequired M own uses p ↔
    Required M own uses p ∧ ¬ (NormalUse M own uses p ∨ M.isCore p = true) := by
  constructor
  · rintro ⟨hreq, hdep, hcore, hall⟩
    refine ⟨hreq, ?_⟩
    rintro (⟨u, hu, hup, hf | hf⟩ | hc)
    · rw [hall u hu hup] at hf
      cases hf
    · rw [hdep] at hf
      cases hf
    · rw [hcore] at hc
      cases hc
  · rintro ⟨hreq, hnot⟩
    rw [not_or] at hnot
    obtain ⟨v, hv, hvp⟩ := hreq.2.2
    refine ⟨hreq, ?_, by simpa using hnot.2, fun u hu hup => ?_⟩
    · by_contra hdep
      exact hnot.1 ⟨v, hv, hvp, .inr (by simpa using hdep)⟩
    · by_contra hacc
      exact hnot.1 ⟨u, hu, hup, .inl (by simpa using hacc)⟩

theorem mem_limitedWiths (hl : ∀ u, u ∈ l ↔ u ∈ uses)
    (h : PackageOrder M own (AdaContext.added M l) packages) :
    p ∈ limitedWiths M own packages ↔ LimitedRequired M own uses p := by
  rw [limitedRequired_iff, limitedWiths, List.mem_map]
  constructor
  · rintro ⟨⟨q, normal⟩, he, rfl⟩
    rw [List.mem_filter, mem_packageOrder hl h] at he
    obtain ⟨⟨hown, hnamed, huses, hnormal⟩, htest⟩ := he
    simp only [Bool.and_eq_true, Bool.not_eq_true', Bool.or_eq_false_iff] at htest
    refine ⟨⟨hnamed, htest.1, huses⟩, ?_⟩
    rintro (hn | hn)
    · rw [← hnormal, htest.2.1] at hn
      cases hn
    · rw [htest.2.2] at hn
      cases hn
  · rintro ⟨hreq, hnot⟩
    rw [not_or] at hnot
    refine ⟨⟨p, false⟩, ?_, rfl⟩
    rw [List.mem_filter, mem_packageOrder hl h]
    refine ⟨⟨required_ne_own hreq, hreq.1, hreq.2.2, by simp [hnot.1]⟩, ?_⟩
    simpa [hreq.2.1] using hnot.2

omit [DecidableEq T] in
theorem packageOrder_nodup {c : AdaContext T P} (h : PackageOrder M own c packages) :
    (packages.map Sigma.fst).Nodup := by
  obtain ⟨types, -, hpackages⟩ := h
  exact (hpackages.map Sigma.fst).nodup_iff.2
    (packageRequirements M own c.packageRequirements types).keys_nodup

omit [DecidableEq T] in
theorem withs_nodup {c : AdaContext T P} (h : PackageOrder M own c packages) :
    (normalWiths M own packages).Nodup ∧ (limitedWiths M own packages).Nodup :=
  ⟨(packageOrder_nodup h).sublist (List.filter_sublist.map _),
    (packageOrder_nodup h).sublist (List.filter_sublist.map _)⟩

end Lists

/-! ## The text -/

omit [DecidableEq T] [DecidableEq P] in
/-- The sorted names of a list do not depend on its order. -/
theorem sortPackages_names {l l' : List P} (h : l.Perm l') :
    (sortPackages M l).map M.qualifiedName = (sortPackages M l').map M.qualifiedName := by
  have hsorted : ∀ l : List P,
      ((sortPackages M l).map M.qualifiedName).Pairwise fun a b => a ≤ b := by
    intro l
    rw [List.pairwise_map]
    have hpair : (sortPackages M l).Pairwise fun p q =>
        decide (M.qualifiedName p ≤ M.qualifiedName q) = true := by
      refine List.pairwise_mergeSort (fun a b c hab hbc => ?_) (fun a b => ?_) l
      · rw [decide_eq_true_iff] at hab hbc ⊢
        exact le_trans hab hbc
      · rw [Bool.or_eq_true, decide_eq_true_iff, decide_eq_true_iff]
        exact le_total _ _
    exact hpair.imp fun hab => of_decide_eq_true hab
  have hperm : ((sortPackages M l).map M.qualifiedName).Perm
      ((sortPackages M l').map M.qualifiedName) :=
    (((List.mergeSort_perm _ _).trans h).trans (List.mergeSort_perm _ _).symm).map _
  exact hperm.eq_of_pairwise' (hsorted l) (hsorted l')

omit [DecidableEq T] [DecidableEq P] in
theorem normal_text (l : List P) : (sortPackages M l).flatMap (withClause M) =
    ((sortPackages M l).map M.qualifiedName).flatMap fun name =>
      "with ".toList ++ name ++ [';', '\n'] := by
  rw [List.flatMap_map]
  rfl

omit [DecidableEq T] [DecidableEq P] in
theorem qualifiedName_line : ∀ (n : Nat) (p : P), '\n' ∉ M.qualifiedFrom n p := by
  intro n
  induction n with
  | zero => exact fun p => M.name_line p
  | succ n ih =>
      intro p
      have hp := M.name_line p
      rw [ContextObjects.qualifiedFrom]
      split
      · exact hp
      split
      · exact hp
      rename_i q _
      split
      · split
        · rw [List.mem_append, not_or]
          exact ⟨by decide, hp⟩
        · exact hp
      · rw [List.mem_append, List.mem_cons, not_or, not_or]
        exact ⟨ih q, by decide, hp⟩

theorem line_inj {a b u v : List Char} (ha : '\n' ∉ a) (hb : '\n' ∉ b)
    (h : a ++ '\n' :: u = b ++ '\n' :: v) : a = b := by
  induction a generalizing b with
  | nil =>
      match b with
      | [] => rfl
      | c :: b =>
          obtain rfl := (List.cons.inj h).1
          exact absurd List.mem_cons_self hb
  | cons c a ih =>
      match b with
      | [] =>
          obtain rfl := (List.cons.inj h).1
          exact absurd List.mem_cons_self ha
      | d :: b =>
          obtain ⟨rfl, htail⟩ := List.cons.inj h
          rw [ih (fun hm => ha (List.mem_cons_of_mem _ hm))
            (fun hm => hb (List.mem_cons_of_mem _ hm)) htail]

theorem clause_append (w a u : List Char) :
    w ++ a ++ [';', '\n'] ++ u = w ++ ((a ++ [';']) ++ '\n' :: u) := by
  simp only [List.append_assoc, List.cons_append, List.nil_append]

omit [DecidableEq T] [DecidableEq P] in
/-- The first of two texts of limited clauses tells the first package. -/
theorem limited_inj {p q : P} {u v : List Char}
    (h : limitedWithClause M p ++ u = limitedWithClause M q ++ v) :
    M.qualifiedName p = M.qualifiedName q := by
  have hline : ∀ p : P, '\n' ∉ M.qualifiedName p ++ [';'] := by
    intro p
    rw [List.mem_append, not_or]
    exact ⟨qualifiedName_line _ p, by decide⟩
  have hclause : ∀ (p : P) (u : List Char), limitedWithClause M p ++ u =
      "limited with ".toList ++ ((M.qualifiedName p ++ [';']) ++ '\n' :: u) :=
    fun _ _ => clause_append _ _ _
  rw [hclause, hclause] at h
  have hsplit : (M.qualifiedName p ++ [';']) ++ '\n' :: u =
      (M.qualifiedName q ++ [';']) ++ '\n' :: v := List.append_cancel_left h
  exact List.append_cancel_right (line_inj (hline p) (hline q) hsplit)

/-! ## The context clause -/

theorem eq_of_count_map {α β : Type} [DecidableEq α] [BEq β] [LawfulBEq β] {f : α → β} {l : List α}
    {x y : α} (hx : x ∈ l) (hy : y ∈ l) (hf : f x = f y) (hcount : (l.map f).count (f x) = 1) :
    x = y := by
  by_contra hne
  have hperm := List.perm_cons_erase hx
  rw [(hperm.map f).count_eq, List.map_cons, List.count_cons_self] at hcount
  have hmem : f x ∈ (l.erase x).map f :=
    List.mem_map.2 ⟨y, (List.mem_erase_of_ne (Ne.symm hne)).2 hy, hf.symm⟩
  have hpos := List.count_pos_iff.2 hmem
  omega

theorem count_map_eq_one {α β : Type} [BEq β] [LawfulBEq β] {f : α → β} {l : List α} {x : α}
    (hx : x ∈ l) (hl : l.Nodup) (hf : ∀ a ∈ l, ∀ b ∈ l, f a = f b → a = b) :
    (l.map f).count (f x) = 1 :=
  List.count_eq_one_of_mem (List.Nodup.map_on hf hl) (List.mem_map_of_mem hx)

theorem eq_of_perm_of_one {α : Type} {l l' : List α} (h : l.Perm l') (hl : l.Nodup)
    (hone : ∀ a ∈ l, ∀ b ∈ l, a = b) : l = l' := by
  match l with
  | [] => exact h.nil_eq
  | [a] => exact (List.singleton_perm.1 h).symm ▸ rfl
  | a :: b :: l =>
      have hab := hone a List.mem_cons_self b (List.mem_cons_of_mem _ List.mem_cons_self)
      subst hab
      exact absurd List.mem_cons_self (List.nodup_cons.1 hl).1

section Clause

variable {own p : P} {uses l : List (T × Bool)} {packages : List (Σ _ : P, Bool)}

theorem mem_withs (hl : ∀ u, u ∈ l ↔ u ∈ uses)
    (h : PackageOrder M own (AdaContext.added M l) packages) (hp : Required M own uses p) :
    p ∈ normalWiths M own packages ++ limitedWiths M own packages := by
  rw [List.mem_append, mem_normalWiths hl h, mem_limitedWiths hl h, limitedRequired_iff]
  by_cases hwhy : NormalUse M own uses p ∨ M.isCore p = true
  · exact .inl ⟨hp, hwhy⟩
  · exact .inr ⟨hp, hwhy⟩

omit [DecidableEq T] in
/-- There is some order in which the packages are gone over. -/
theorem exists_order (own : P) (c : AdaContext T P) : ∃ packages, PackageOrder M own c packages :=
  ⟨_, _, List.Perm.refl _, List.Perm.refl _⟩

theorem names_of_right (h : ContextRight M own uses) {p q : P} (hp : Required M own uses p)
    (hq : Required M own uses q) (hname : M.qualifiedName p = M.qualifiedName q) : p = q := by
  obtain ⟨packages, hpackages⟩ := exists_order (M := M) own (AdaContext.added M uses)
  exact eq_of_count_map (mem_withs (fun _ => Iff.rfl) hpackages hp)
    (mem_withs (fun _ => Iff.rfl) hpackages hq) hname
    (h.once uses packages (fun _ => Iff.rfl) hpackages p hp)

/-- Two limited packages can come in either order. -/
theorem limited_of_right (h : ContextRight M own uses) {p q : P}
    (hp : LimitedRequired M own uses p) (hq : LimitedRequired M own uses q) : p = q := by
  by_contra hne
  obtain ⟨packages, types, htypes, hpackages⟩ :=
    exists_order (M := M) own (AdaContext.added M uses)
  have horder : PackageOrder M own (AdaContext.added M uses) packages := ⟨types, htypes, hpackages⟩
  have hentry : ∀ p, LimitedRequired M own uses p → (⟨p, false⟩ : Σ _ : P, Bool) ∈ packages := by
    intro p hp
    rw [limitedRequired_iff, not_or] at hp
    rw [mem_packageOrder (fun _ => Iff.rfl) horder]
    exact ⟨required_ne_own hp.1, hp.1.1, hp.1.2.2, by simp [hp.2.1]⟩
  have hperm := List.perm_cons_erase (hentry p hp)
  have hq' : (⟨q, false⟩ : Σ _ : P, Bool) ∈ packages.erase ⟨p, false⟩ :=
    (List.mem_erase_of_ne (by simpa using Ne.symm hne)).2 (hentry q hq)
  have hperm' := hperm.trans ((List.perm_cons_erase hq').cons _)
  generalize (packages.erase ⟨p, false⟩).erase ⟨q, false⟩ = others at hperm'
  have hone : PackageOrder M own (AdaContext.added M uses)
      (⟨p, false⟩ :: ⟨q, false⟩ :: others) := ⟨types, htypes, hperm'.symm.trans hpackages⟩
  have htwo : PackageOrder M own (AdaContext.added M uses)
      (⟨q, false⟩ :: ⟨p, false⟩ :: others) :=
    ⟨types, htypes, ((List.Perm.swap _ _ _).trans hperm'.symm).trans hpackages⟩
  have htext := h.text uses uses _ _ (fun _ => Iff.rfl) (fun _ => Iff.rfl) hone htwo
  have hkeep : ∀ p, LimitedRequired M own uses p →
      M.external own p = true ∧ M.isCore p = false := fun p hp => ⟨hp.1.2.1, hp.2.2.1⟩
  simp only [contextText, normalWiths, limitedWiths, List.filter_cons, hkeep p hp, hkeep q hq,
    Bool.false_or, Bool.and_false, Bool.not_false, Bool.and_self, Bool.false_eq_true, if_false,
    if_true, List.map_cons, List.flatMap_cons, List.append_cancel_left_eq] at htext
  exact hne (names_of_right h hp.1 hq.1 (limited_inj htext))

/-- The context clause is the same in every run, and as it should be, if and only if the
packages have different names and no more than one of them has a limited `with`. -/
theorem contextRight_iff (M : ContextObjects T S P) (own : P) (uses : List (T × Bool)) :
    ContextRight M own uses ↔ OneLimited M own uses := by
  constructor
  · intro h
    exact ⟨fun p q hp hq => names_of_right h hp hq, fun p q hp hq => limited_of_right h hp hq⟩
  · intro h
    refine ⟨?_, ?_, ?_⟩
    · intro l l' packages packages' hl hl' horder horder'
      have hnormal : (normalWiths M own packages).Perm (normalWiths M own packages') :=
        (List.perm_ext_iff_of_nodup (withs_nodup horder).1 (withs_nodup horder').1).2 fun p => by
          rw [mem_normalWiths hl horder, mem_normalWiths hl' horder']
      have hlimited : (limitedWiths M own packages).Perm (limitedWiths M own packages') :=
        (List.perm_ext_iff_of_nodup (withs_nodup horder).2 (withs_nodup horder').2).2 fun p => by
          rw [mem_limitedWiths hl horder, mem_limitedWiths hl' horder']
      have hsame : limitedWiths M own packages = limitedWiths M own packages' := by
        refine eq_of_perm_of_one hlimited (withs_nodup horder).2 fun p hp q hq => ?_
        rw [mem_limitedWiths hl horder] at hp hq
        exact h.limited p q hp hq
      rw [contextText, contextText, normal_text, normal_text, sortPackages_names hnormal, hsame]
    · intro l packages hl horder p hp
      have hrequired : ∀ q ∈ normalWiths M own packages ++ limitedWiths M own packages,
          Required M own uses q := by
        intro q hq
        rw [List.mem_append, mem_normalWiths hl horder, mem_limitedWiths hl horder] at hq
        exact hq.elim And.left And.left
      have hdisjoint : (normalWiths M own packages ++ limitedWiths M own packages).Nodup := by
        rw [List.nodup_append]
        refine ⟨(withs_nodup horder).1, (withs_nodup horder).2, fun a ha b hb hab => ?_⟩
        subst hab
        rw [mem_normalWiths hl horder] at ha
        rw [mem_limitedWiths hl horder, limitedRequired_iff] at hb
        exact hb.2 ha.2
      refine count_map_eq_one (mem_withs hl horder hp) hdisjoint fun a ha b hb hab => ?_
      exact h.names a b (hrequired a ha) (hrequired b hb) hab
    · intro l packages hl horder p hp hnonaccess
      obtain ⟨u, hu, hup, hf⟩ := hnonaccess
      exact (mem_normalWiths hl horder).2 ⟨hp, .inl ⟨u, hu, hup, .inl hf⟩⟩

end Clause

/-- Two packages with a record and a pointer to it, which both depend on the package
that uses the pointers. -/
def mutualPackages : ContextObjects (Fin 4) Empty (Fin 4) where
  type := fun t =>
    match t with
    | 0 | 1 => .aRecord []
    | 2 => .accessToType 0
    | 3 => .accessToType 1
  declarationPackage := fun t =>
    match t with
    | 0 | 2 => 2
    | 1 | 3 => 3
  name := fun p =>
    match p with
    | 0 => ['s', 't', 'a', 'n', 'd', 'a', 'r', 'd']
    | 1 => ['m', 'a', 'i', 'n']
    | 2 => ['a', 'l', 'p', 'h', 'a']
    | 3 => ['b', 'e', 't', 'a']
  parent := fun p => if p = 0 then none else some 0
  isCore _ := false
  dependsOn p q := decide (p = 2 ∨ p = 3) && decide (q = 1)
  depth p := if p = 0 then 0 else 1
  parent_lt := by decide
  name_line := by decide

theorem mutualPackages_not_right :
    ¬ ContextRight mutualPackages 1
      [(2, mutualPackages.isAccess 2), (3, mutualPackages.isAccess 3)] := by
  intro h
  have hlimited : ∀ p, p = 2 ∨ p = 3 → LimitedRequired mutualPackages 1
      [(2, mutualPackages.isAccess 2), (3, mutualPackages.isAccess 3)] p := by
    rintro p (rfl | rfl)
    · exact ⟨⟨by decide, by decide, _, List.mem_cons_self, rfl⟩, rfl, rfl, by decide⟩
    · exact ⟨⟨by decide, by decide, _, List.mem_cons_of_mem _ List.mem_cons_self, rfl⟩, rfl, rfl,
        by decide⟩
  exact absurd (limited_of_right h (hlimited 2 (.inl rfl)) (hlimited 3 (.inr rfl))) (by decide)

end Swig4Ada.Ada

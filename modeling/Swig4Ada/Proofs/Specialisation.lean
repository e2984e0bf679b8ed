import Swig4Ada.Proofs.PartialArg
import Swig4Ada.Proofs.Template

/-!
# The most specialised one is found

For a plain pattern the priority of `does_parm_match` is the length of what stands before the
parameter, or more than that for a type: a longer text stands for fewer types. So where the
specialisations that match are plain, the rows of the matrix are flagged throughout exactly for
those that are most specialised. Two of these have the same patterns, and so they are declared
under one name.
-/

namespace Swig4Ada.CParse

open Swig4Ada.Doh

variable {Node : Type} {T : TemplateTable Node} {parms : List TemplateParm}
  {partials : List Partial} {c d : Partial} {i : Nat} {p q s before type : List Char}
  {σ τ : List Char → List Char}

/-! ## Instances -/

theorem fillFrom_literal (h : '$' ∉ s) : fillFrom σ false s = s := by
  induction s with
  | nil => rfl
  | cons c s ih =>
      rw [List.mem_cons, not_or] at h
      rw [fillFrom, Bool.false_and, if_neg Bool.false_ne_true, if_neg (Ne.symm h.1), ih h.2]

theorem fillFrom_digits (h : ∀ c ∈ s, c.isDigit = true) : fillFrom σ true s = [] := by
  induction s with
  | nil => rfl
  | cons c s ih =>
      rw [fillFrom, Bool.true_and, if_pos (h c List.mem_cons_self)]
      exact ih fun x hx => h x (List.mem_cons_of_mem c hx)

theorem fill_parameter (h : '$' ∉ before) :
    fill σ (before ++ dollar i) = before ++ σ (Nat.toDigits 10 i) := by
  have hdigits : ∀ c ∈ Nat.toDigits 10 i, c.isDigit = true := fun c hc =>
    Nat.isDigit_of_mem_toDigits (by decide) (by decide) hc
  induction before with
  | nil =>
      show σ ((Nat.toDigits 10 i).takeWhile Char.isDigit) ++ fillFrom σ true (Nat.toDigits 10 i) = _
      rw [fillFrom_digits hdigits, List.takeWhile_eq_self_iff.2 hdigits, List.append_nil]
      rfl
  | cons c s ih =>
      rw [List.mem_cons, not_or] at h
      show fillFrom σ false (c :: (s ++ dollar i)) = _
      rw [fillFrom, Bool.false_and, if_neg Bool.false_ne_true, if_neg (Ne.symm h.1)]
      exact congrArg (c :: ·) (ih h.2)

theorem instances_type (h : '$' ∉ p) : instances p = {p} := by
  ext t
  constructor
  · rintro ⟨σ, rfl⟩
    exact fillFrom_literal h
  · intro ht
    exact ⟨id, (fillFrom_literal h).trans ht.symm⟩

theorem instances_parameter (h : '$' ∉ before) :
    instances (before ++ dollar i) = { t | before <+: t } := by
  ext t
  constructor
  · rintro ⟨σ, rfl⟩
    show before <+: fill σ _
    rw [fill_parameter h]
    exact List.prefix_append _ _
  · rintro ⟨r, rfl⟩
    exact ⟨fun _ => r, fill_parameter h⟩

/-! ## One parameter -/

theorem replacedId_literal (h : '$' ∉ p) (type : List Char) :
    replacedId p (dollar i) type = (p, 0) := by
  have hne : dollar i ≠ [] := List.cons_ne_nil '$' _
  have hnone : matchFrom .identifier (dollar i) p 0 = none := by
    rw [Option.eq_none_iff_forall_ne_some]
    intro k hk
    obtain ⟨-, hbegin, -⟩ := matchFrom_sound hne hk
    exact h (List.mem_of_mem_drop (hbegin.subset List.mem_cons_self))
  rw [replacedId, replaceId, stringReplace]
  show (replaceSimple .identifier (dollar i) type p false (-1)).getD (p, 0) = _
  rw [replaceSimple, if_neg hne]
  dsimp only
  rw [hnone]
  rfl

theorem replacedId_parameter (h : '$' ∉ before)
    (word : ∀ c ∈ before.getLast?, isIdentifierChar c = false) (type : List Char) :
    replacedId (before ++ dollar i) (dollar i) type = (before ++ type, 1) := by
  have hpattern := @replacedId_pattern ⟨before, i, [], h, List.not_mem_nil⟩ type
  simp only [Pattern.text, Pattern.put, List.append_nil] at hpattern
  have hbefore : identifierBefore (before ++ dollar i) before.length = false := by
    rcases List.eq_nil_or_concat before with rfl | ⟨front, last, rfl⟩
    · rfl
    · have hword := word last (by rw [List.concat_eq_append, List.getLast?_append]; rfl)
      rw [identifierBefore, List.concat_eq_append, List.length_append, List.length_singleton,
        Nat.add_sub_cancel, List.append_assoc, List.getElem?_append_right (Nat.le_refl _),
        Nat.sub_self]
      show (_ && isIdentifierChar last) = false
      rw [hword, Bool.and_false]
  rw [hpattern, if_neg]
  rw [MatchMode.rejects, hbefore, ← List.length_append, List.getElem?_eq_none (Nat.le_refl _)]
  exact Bool.false_ne_true

theorem doesParmMatch_type (h : '$' ∉ p) :
    doesParmMatch T type p (dollar i) =
      if T.typedefReduce type = p then (.exactMatch, exactMatchPriority)
      else (.exactNoMatch, -1) := by
  simp only [doesParmMatch, replacedId_literal h, Nat.zero_ne_one, if_false, decide_eq_true_eq]

theorem doesParmMatch_parameter (h : '$' ∉ before)
    (word : ∀ c ∈ before.getLast?, isIdentifierChar c = false) :
    doesParmMatch T type (before ++ dollar i) (dollar i) =
      if before <+: T.typedefReduce type then (.partiallySpecializedMatch, (before.length : Int))
      else (.partiallySpecializedNoMatch, -1) := by
  simp only [doesParmMatch, replacedId_parameter h word, if_true, List.append_nil,
    List.isPrefixOf_iff_prefix]

namespace Plain

theorem isMatch_iff (h : Plain i p) :
    (doesParmMatch T type p (dollar i)).1.isMatch = true ↔ T.typedefReduce type ∈ instances p := by
  cases h with
  | type h =>
      rw [doesParmMatch_type h, instances_type h, Set.mem_singleton_iff]
      split
      next heq => exact iff_of_true rfl heq
      next hne => exact iff_of_false Bool.false_ne_true hne
  | parameter h word short =>
      rw [doesParmMatch_parameter h word, instances_parameter h]
      split
      next hbegin => exact iff_of_true rfl hbegin
      next hno => exact iff_of_false Bool.false_ne_true hno

/-- The priority of a pattern that matches. -/
theorem priority (h : Plain i p) (hp : T.typedefReduce type ∈ instances p) :
    '$' ∉ p ∧ p = T.typedefReduce type ∧ (doesParmMatch T type p (dollar i)).2 = 99999 ∨
      ∃ before, p = before ++ dollar i ∧ '$' ∉ before ∧ before <+: T.typedefReduce type ∧
        before.length < 99999 ∧ (doesParmMatch T type p (dollar i)).2 = before.length := by
  cases h with
  | type h =>
      rw [instances_type h, Set.mem_singleton_iff] at hp
      refine Or.inl ⟨h, hp.symm, ?_⟩
      rw [doesParmMatch_type h, if_pos hp]
      rfl
  | parameter h word short =>
      rw [instances_parameter h] at hp
      refine Or.inr ⟨_, rfl, h, hp, short, ?_⟩
      rw [doesParmMatch_parameter h word]
      exact congrArg Prod.snd (if_pos hp)

theorem priority_le_iff (hp : Plain i p) (hq : Plain i q)
    (hpt : T.typedefReduce type ∈ instances p) (hqt : T.typedefReduce type ∈ instances q) :
    (doesParmMatch T type q (dollar i)).2 ≤ (doesParmMatch T type p (dollar i)).2 ↔
      instances p ⊆ instances q := by
  rcases hp.priority hpt with ⟨hno, hp', hpriority⟩ | ⟨a, rfl, hno, ha, hshort, hpriority⟩
  · have hsub : instances p ⊆ instances q := by
      rw [instances_type hno, hp', Set.singleton_subset_iff]
      exact hqt
    refine iff_of_true ?_ hsub
    rcases hq.priority hqt with ⟨-, -, hq'⟩ | ⟨b, -, -, -, hshort, hq'⟩
    · omega
    · omega
  · rcases hq.priority hqt with ⟨hno', hq', hpriority'⟩ | ⟨b, rfl, hno', hb, hshort', hpriority'⟩
    · refine iff_of_false (by omega) fun hsub => ?_
      rw [instances_parameter hno, instances_type hno'] at hsub
      have hlonger : a ++ (T.typedefReduce type ++ ['x']) = q := hsub (List.prefix_append a _)
      have hlen := congrArg List.length (hlonger.trans hq')
      simp only [List.length_append, List.length_singleton] at hlen
      omega
    · rw [hpriority, hpriority', instances_parameter hno, instances_parameter hno', Int.ofNat_le]
      constructor
      · intro hle t ht
        exact (List.prefix_of_prefix_length_le hb ha hle).trans ht
      · intro hsub
        exact List.IsPrefix.length_le (hsub (List.prefix_rfl (l := a)))

/-- Two patterns that stand for the same types are the same. -/
theorem eq_of_instances (hp : Plain i p) (hq : Plain i q)
    (hpt : T.typedefReduce type ∈ instances p) (hqt : T.typedefReduce type ∈ instances q)
    (h : instances p ⊆ instances q) (h' : instances q ⊆ instances p) : p = q := by
  have hle := (hp.priority_le_iff hq hpt hqt).2 h
  have hge := (hq.priority_le_iff hp hqt hpt).2 h'
  rcases hp.priority hpt with ⟨-, hp', hpriority⟩ | ⟨a, rfl, -, ha, hshort, hpriority⟩
  · rcases hq.priority hqt with ⟨-, hq', -⟩ | ⟨b, -, -, -, hshort, hq'⟩
    · exact hp'.trans hq'.symm
    · omega
  · rcases hq.priority hqt with ⟨-, -, hpriority'⟩ | ⟨b, rfl, -, hb, -, hpriority'⟩
    · omega
    · have hab : a.length = b.length := by omega
      rw [List.prefix_of_prefix_length_le ha hb hab.le |>.eq_of_length hab]

theorem fill_congr (h : Plain i p) (hσ : σ (Nat.toDigits 10 i) = τ (Nat.toDigits 10 i)) :
    fill σ p = fill τ p := by
  cases h with
  | type h => exact (fillFrom_literal h).trans (fillFrom_literal h).symm
  | parameter h => rw [fill_parameter h, fill_parameter h, hσ]

end Plain

/-! ## All parameters -/

theorem map_fill_congr {pps : List (List Char)} (h : PlainFrom i pps)
    (hσ : ∀ j, i ≤ j → σ (Nat.toDigits 10 j) = τ (Nat.toDigits 10 j)) :
    pps.map (fill σ) = pps.map (fill τ) := by
  induction pps generalizing i with
  | nil => rfl
  | cons p pps ih =>
      rw [List.map_cons, List.map_cons, h.1.fill_congr (hσ i (Nat.le_refl i)),
        ih h.2 fun j hj => hσ j (Nat.le_of_succ_le hj)]

/-- Plain patterns have parameters of their own, so that they match each by itself. -/
theorem exists_fill_iff {pps tys : List (List Char)} (h : PlainFrom i pps) :
    (∃ σ, pps.map (fill σ) = tys) ↔ List.Forall₂ (fun p t => t ∈ instances p) pps tys := by
  induction pps generalizing i tys with
  | nil =>
      rw [List.forall₂_nil_left_iff]
      exact ⟨fun ⟨_, ht⟩ => ht.symm, fun ht => ⟨id, ht.symm⟩⟩
  | cons p pps ih =>
      constructor
      · rintro ⟨σ, rfl⟩
        exact .cons ⟨σ, rfl⟩ ((ih h.2).1 ⟨σ, rfl⟩)
      · intro hall
        cases hall with
        | cons hp hrest =>
            obtain ⟨σ, hσ⟩ := hp
            obtain ⟨τ, hτ⟩ := (ih h.2).2 hrest
            refine ⟨Function.update τ (Nat.toDigits 10 i) (σ (Nat.toDigits 10 i)), ?_⟩
            rw [List.map_cons, ← hσ, ← hτ]
            refine congrArg₂ List.cons (h.1.fill_congr (Function.update_self ..)) ?_
            refine map_fill_congr h.2 fun j hj => Function.update_of_ne (fun heq => ?_) _ _
            have hback := congrArg (Nat.ofDigitChars 10 · 0) heq
            simp only [Nat.ofDigitChars_ten_toDigits] at hback
            omega

theorem parmMatches_iff {pps : List (List Char)} {ps : List TemplateParm} (h : PlainFrom i pps) :
    (pps.length = ps.length ∧ ∀ r ∈ parmMatches T i ps pps, r.1.isMatch = true) ↔
      List.Forall₂ (fun p t => t ∈ instances p) pps (reduced T ps) := by
  induction pps generalizing i ps with
  | nil =>
      rw [List.forall₂_nil_left_iff, reduced, List.map_eq_nil_iff]
      constructor
      · exact fun hlen => List.eq_nil_of_length_eq_zero hlen.1.symm
      · rintro rfl
        exact ⟨rfl, fun r hr => absurd hr List.not_mem_nil⟩
  | cons p pps ih =>
      cases ps with
      | nil => exact iff_of_false (fun hlen => absurd hlen.1 (Nat.succ_ne_zero _)) (by rintro ⟨⟩)
      | cons parm ps =>
          rw [parmMatches, List.forall_mem_cons, h.1.isMatch_iff]
          have hrest := @ih (i + 1) ps h.2
          constructor
          · rintro ⟨hlen, hp, hall⟩
            exact .cons hp (hrest.1 ⟨Nat.succ.inj hlen, hall⟩)
          · intro hall
            cases hall with
            | cons hp hall =>
                obtain ⟨hlen, hmatch⟩ := hrest.2 hall
                exact ⟨congrArg Nat.succ hlen, hp, hmatch⟩

theorem matching_iff (h : PlainFrom 1 c.partialparms) : Matching T parms c ↔ Matches T parms c :=
  (parmMatches_iff h).trans (exists_fill_iff h).symm

theorem priorities_le_iff {pps qqs : List (List Char)} {ps : List TemplateParm}
    (hp : PlainFrom i pps) (hq : PlainFrom i qqs)
    (hpt : List.Forall₂ (fun p t => t ∈ instances p) pps (reduced T ps))
    (hqt : List.Forall₂ (fun p t => t ∈ instances p) qqs (reduced T ps)) :
    (∀ col < ps.length, ((parmMatches T i ps qqs)[col]?.map Prod.snd).getD 0 ≤
        ((parmMatches T i ps pps)[col]?.map Prod.snd).getD 0) ↔
      List.Forall₂ (fun p q => instances p ⊆ instances q) pps qqs := by
  induction ps generalizing i pps qqs with
  | nil =>
      obtain rfl := List.forall₂_nil_right_iff.1 hpt
      obtain rfl := List.forall₂_nil_right_iff.1 hqt
      exact iff_of_true (fun col hcol => absurd hcol (Nat.not_lt_zero col)) .nil
  | cons parm ps ih =>
      cases hpt with
      | cons hpt hpts =>
          cases hqt with
          | cons hqt hqts =>
              rw [List.forall₂_cons, ← ih hp.2 hq.2 hpts hqts,
                ← hp.1.priority_le_iff hq.1 hpt hqt]
              constructor
              · intro hall
                exact ⟨hall 0 (Nat.succ_pos _), fun col hcol =>
                  hall (col + 1) (Nat.succ_lt_succ hcol)⟩
              · rintro ⟨hfirst, hall⟩ col hcol
                cases col with
                | zero => exact hfirst
                | succ col => exact hall col (Nat.lt_of_succ_lt_succ hcol)

theorem patterns_eq {pps qqs : List (List Char)} (hp : PlainFrom i pps) (hq : PlainFrom i qqs)
    {ps : List TemplateParm}
    (hpt : List.Forall₂ (fun p t => t ∈ instances p) pps (reduced T ps))
    (hqt : List.Forall₂ (fun p t => t ∈ instances p) qqs (reduced T ps))
    (h : List.Forall₂ (fun p q => instances p ⊆ instances q) pps qqs)
    (h' : List.Forall₂ (fun p q => instances p ⊆ instances q) qqs pps) : pps = qqs := by
  induction ps generalizing i pps qqs with
  | nil =>
      rw [List.forall₂_nil_right_iff.1 hpt, List.forall₂_nil_right_iff.1 hqt]
  | cons parm ps ih =>
      cases hpt with
      | cons hpt hpts =>
          cases hqt with
          | cons hqt hqts =>
              rw [List.forall₂_cons] at h h'
              rw [hp.1.eq_of_instances hq.1 hpt hqt h.1 h'.1, ih hp.2 hq.2 hpts hqts h.2 h'.2]

/-! ## The template found -/

theorem plain_of_matches (hread : ∀ c ∈ partials, Readable T parms c) (hc : c ∈ partials)
    (h : Matches T parms c) : PlainFrom 1 c.partialparms := by
  rcases hread c hc with hplain | hrefused
  · exact hplain
  · exact absurd h hrefused.1

theorem matching_iff_matches (hread : ∀ c ∈ partials, Readable T parms c) (hc : c ∈ partials) :
    Matching T parms c ↔ Matches T parms c := by
  rcases hread c hc with hplain | hrefused
  · exact matching_iff hplain
  · exact iff_of_false hrefused.2 hrefused.1

theorem best_iff (hread : ∀ c ∈ partials, Readable T parms c) :
    Best T parms partials c ↔ MostSpecialised T parms partials c := by
  have habove : c ∈ partials → Matches T parms c → ∀ d ∈ partials, Matches T parms d →
      ((∀ col < parms.length, priority T parms d col ≤ priority T parms c col) ↔
        AtLeastAsSpecialised c d) := by
    intro hc hmatch d hd hmatch'
    have hplain := plain_of_matches hread hc hmatch
    have hplain' := plain_of_matches hread hd hmatch'
    exact priorities_le_iff hplain hplain' ((exists_fill_iff hplain).1 hmatch)
      ((exists_fill_iff hplain').1 hmatch')
  constructor
  · rintro ⟨hc, hmatching, hall⟩
    have hmatch := (matching_iff_matches hread hc).1 hmatching
    refine ⟨hc, hmatch, fun d hd hmatch' => (habove hc hmatch d hd hmatch').1 fun col => ?_⟩
    refine hall d (List.mem_filter.2 ⟨hd, ?_⟩) col
    exact decide_eq_true ((matching_iff_matches hread hd).2 hmatch')
  · intro h
    refine ⟨h.declared, (matching_iff_matches hread h.declared).2 h.fits, fun d hd col => ?_⟩
    obtain ⟨hd, hmatching⟩ := List.mem_filter.1 hd
    have hmatch' := (matching_iff_matches hread hd).1 (of_decide_eq_true hmatching)
    exact (habove h.declared h.fits d hd hmatch').2 (h.above d hd hmatch') col

/-- Two that are most specialised have the same patterns. -/
theorem MostSpecialised.partialparms_eq (hread : ∀ c ∈ partials, Readable T parms c)
    (hc : MostSpecialised T parms partials c) (hd : MostSpecialised T parms partials d) :
    c.partialparms = d.partialparms := by
  have hplain := plain_of_matches hread hc.declared hc.fits
  have hplain' := plain_of_matches hread hd.declared hd.fits
  exact patterns_eq hplain hplain' ((exists_fill_iff hplain).1 hc.fits)
    ((exists_fill_iff hplain').1 hd.fits) (hc.above d hd.declared hd.fits)
    (hd.above c hc.declared hc.fits)

/-- The specialisation for a function that returns the type of its parameter, and the one for a
function from integers to integers. -/
def anyEndo : Partial := ⟨"Pair".toList, ["p.f($1).$1".toList, "$2".toList]⟩

def intEndo : Partial := ⟨"Pair".toList, ["p.f(int).int".toList, "$2".toList]⟩

/-- The one for pointers. -/
def anyPointer : Partial := ⟨"Pair".toList, ["p.$1".toList, "$2".toList]⟩

/-- The template `Pair` is 0, and the specialisations are 1, 2 and 3. -/
def pairTable (partials : List Partial) : TemplateTable Nat where
  clookup := fun _ => some 0
  clookupLocal := fun name =>
    if name = anyEndo.templcsymname then some 1
    else if name = intEndo.templcsymname then some 2
    else if name = anyPointer.templcsymname then some 3 else none
  typedefReduce := id
  typeQualify := id
  templateDefargs := id
  isTemplate := fun _ => true
  template := fun _ => none
  partials := fun _ => partials

def pairArgs : List TemplateParm := [.type "p.f(int).int".toList, .type "int".toList]

theorem fill_anyEndo (σ : List Char → List Char) :
    fill σ "p.f($1).$1".toList = "p.f(".toList ++ (σ ['1'] ++ (").".toList ++ σ ['1'])) := by
  show "p.f(".toList ++ (σ ['1'] ++ (").".toList ++ (σ ['1'] ++ []))) = _
  rw [List.append_nil]

theorem second_plain : Plain 2 "$2".toList := by
  have hplain : Plain 2 ([] ++ dollar 2) := .parameter List.not_mem_nil
    (fun c hc => by cases hc) (Nat.succ_pos 99998)
  exact hplain

theorem intEndo_plain : PlainFrom 1 intEndo.partialparms :=
  ⟨.type (by decide), second_plain, trivial⟩

theorem anyPointer_plain : PlainFrom 1 anyPointer.partialparms := by
  have hplain : Plain 1 (['p', '.'] ++ dollar 1) := .parameter (by decide)
    (fun c hc => by rw [← Option.some.inj hc]; rfl) (by simp)
  exact ⟨hplain, second_plain, trivial⟩

theorem intEndo_matches {partials : List Partial} :
    Matches (pairTable partials) pairArgs intEndo :=
  (matching_iff intEndo_plain).1 (show Matching (pairTable []) pairArgs intEndo by decide)

end Swig4Ada.CParse

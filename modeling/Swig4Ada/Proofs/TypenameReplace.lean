import Swig4Ada.Proofs.TypeTree
import Swig4Ada.Swig.TypenameReplace

/-!
# What replacing a name in a type does

The text of a tree is read by the functions on types the way that the tree is built, so that
the code writes the tree again, with the name replaced where it looks for it. It looks for it
in paths and in the dimensions of arrays, but not in the classes of member pointers, in the
names of templates and in expressions.
-/

namespace Swig4Ada.Swig

open Lib Doh Ada

/-! ## Names without arguments -/

theorem issimple_nameText {l : List Char} (h : NameText l) (rest : List Char) :
    issimpleLoop 0 (l ++ rest) = issimpleLoop 0 rest := by
  induction l with
  | nil => rfl
  | cons x l ih =>
      have hx := h x List.mem_cons_self
      rw [List.cons_append, issimpleLoop, if_neg fun heq => hx (by rw [heq]; simp),
        if_neg fun heq => hx (by rw [heq]; simp), ih fun c hc => h c (List.mem_cons_of_mem _ hc)]

theorem strstr_none_of_not_mem {c : Char} {token l : List Char} (hc : c ∈ token) (h : c ∉ l) :
    strstr token l = none := by
  refine strstr_eq_none.2 fun i hp => h ?_
  exact List.mem_of_mem_drop (hp.subset hc)

theorem istemplate_nameText {l : List Char} (h : NameText l) : swigTypeIstemplate l = false := by
  unfold swigTypeIstemplate
  rw [strstr_none_of_not_mem List.mem_cons_self (h.not_mem (by simp))]

def ScopePart.component (p : ScopePart) : ScopeComponent where
  name := p.text
  args := none
  name_ne := p.nonempty
  plain c hc := by
    have h := p.text_chars c hc
    refine ⟨?_, ?_, ?_⟩
    · rintro rfl
      exact h (by simp)
    · rintro rfl
      exact h (by simp)
    · rintro rfl
      exact h (by simp)
  balanced := nofun

theorem moreText_concat (init : List ScopePart) (z : ScopePart) :
    moreText (init ++ [z]) = moreText init ++ ':' :: ':' :: z.text := by
  rw [moreText, List.flatMap_append, List.flatMap_singleton]
  rfl

theorem pathText_concat (leading : Bool) (first : ScopePart) (init : List ScopePart)
    (z : ScopePart) : pathText leading first (init ++ [z]) =
      pathText leading first init ++ ':' :: ':' :: z.text := by
  rw [pathText, moreText_concat, ← List.append_assoc]
  rfl

/-- A path is a qualified name without arguments. -/
theorem joined_parts (first z : ScopePart) (init : List ScopePart) :
    joined ((first :: init).map ScopePart.component) (.component z.component) =
      first.text ++ moreText (init ++ [z]) := by
  induction init generalizing first with
  | nil =>
      rw [List.map_singleton, joined_cons]
      show first.text ++ ':' :: ':' :: z.text = first.text ++ moreText [z]
      rw [moreText, List.flatMap_singleton]
  | cons p init ih =>
      rw [List.map_cons, joined_cons, ih p]
      rfl

theorem parts_operatorLast (scopes : List ScopePart) (z : ScopePart) :
    OperatorLast (scopes.map ScopePart.component) (.component z.component) := by
  refine ⟨fun c hc => ?_, Or.inl z.notOperator⟩
  obtain ⟨p, _, rfl⟩ := List.mem_map.1 hc
  exact p.notOperator

theorem operatorAt_colons (l : List Char) :
    operatorAt (':' :: ':' :: l) = (operatorAt l).map (· + 2) := by
  have hone : ∀ m : List Char, operatorAt (':' :: m) = (operatorAt m).map (· + 1) :=
    fun m => operatorAt_append_cons [] m
  rw [hone, hone, Option.map_map]
  rfl

theorem operatorAt_parts (first : ScopePart) (more : List ScopePart) :
    operatorAt (first.text ++ moreText more) = none := by
  induction more generalizing first with
  | nil =>
      rw [moreText, List.flatMap_nil, List.append_nil]
      exact first.notOperator
  | cons p more ih =>
      have hsplit : first.text ++ moreText (p :: more) =
          first.text ++ ':' :: (':' :: (p.text ++ moreText more)) := rfl
      have hcolon : operatorAt (':' :: (p.text ++ moreText more)) = none := by
        rw [← List.nil_append (':' :: _), operatorAt_append_cons, ih p]
        rfl
      rw [hsplit, operatorAt_append_cons, first.notOperator, hcolon]
      rfl

theorem operatorAt_path (leading : Bool) (first : ScopePart) (more : List ScopePart) :
    operatorAt (pathText leading first more) = none := by
  have hparts := operatorAt_parts first more
  cases leading with
  | false => exact hparts
  | true =>
      show operatorAt (':' :: ':' :: (first.text ++ moreText more)) = none
      rw [operatorAt_colons, hparts]
      rfl

theorem lastColons_parts_nil {pos cc : Nat} (first : ScopePart) :
    lastColons 0 0 pos cc (first.text ++ moreText []) = cc := by
  rw [moreText, List.flatMap_nil]
  exact (@lastColons_component 0 pos cc [] first.component).trans (lastColons.eq_1 _ _ _ _)

theorem lastColons_parts_concat {pos cc : Nat} (first z : ScopePart) (init : List ScopePart) :
    lastColons 0 0 pos cc (first.text ++ moreText (init ++ [z])) =
      pos + (first.text ++ moreText init).length := by
  have hscan := @lastColons_scopes 0 pos cc ((first :: init).map ScopePart.component)
    (.component z.component)
  have hlast : operatorAt (LastName.component z.component).text = none := z.notOperator
  rw [joined_parts, lastColons_last hlast, List.map_cons, if_neg (List.cons_ne_nil _ _),
    ← List.map_cons] at hscan
  have hscopes : scopesText ((first :: init).map ScopePart.component) =
      (first.text ++ moreText init) ++ [':', ':'] := by
    have hjoined := joined_parts first z init
    rw [moreText_concat, ← List.append_assoc, joined] at hjoined
    refine @List.append_cancel_right _ _ z.text _ ?_
    rw [List.append_assoc]
    exact hjoined
  rw [hscopes, List.length_append] at hscan
  rw [hscan]
  simp only [List.length_cons, List.length_nil]
  omega

theorem split_path_nil (leading : Bool) (first : ScopePart) :
    scopenameSplit (pathText leading first []) = (none, pathText leading first []) := by
  unfold scopenameSplit
  rw [operatorAt_path]
  dsimp only
  have hscan : lastColons 0 0 0 0 (pathText leading first []) = 0 := by
    cases leading with
    | false => exact lastColons_parts_nil first
    | true =>
        show lastColons 0 0 0 0 (':' :: ':' :: (first.text ++ moreText [])) = 0
        rw [lastColons.eq_3, lastColons_parts_nil]
  rw [hscan]
  rfl

theorem split_path_concat (leading : Bool) (first z : ScopePart) (init : List ScopePart) :
    scopenameSplit (pathText leading first (init ++ [z])) =
      (some (pathText leading first init), z.text) := by
  unfold scopenameSplit
  rw [operatorAt_path]
  dsimp only
  have hscan : lastColons 0 0 0 0 (pathText leading first (init ++ [z])) =
      (pathText leading first init).length := by
    cases leading with
    | false => exact (lastColons_parts_concat first z init).trans (Nat.zero_add _)
    | true =>
        show lastColons 0 0 0 0 (':' :: ':' :: (first.text ++ moreText (init ++ [z]))) =
          (':' :: ':' :: (first.text ++ moreText init)).length
        rw [lastColons.eq_3, lastColons_parts_concat, List.length_cons, List.length_cons]
        omega
  have hpos := List.length_pos_of_ne_nil (pathText_ne_nil leading first init)
  rw [hscan, if_pos (by omega), pathText_concat, List.take_left, ← List.drop_drop, List.drop_left]
  rfl

theorem check_path (leading : Bool) (first : ScopePart) (more : List ScopePart) :
    scopenameCheck (pathText leading first more) = true ↔ leading = true ∨ more ≠ [] := by
  cases leading with
  | true =>
      refine ⟨fun _ => Or.inl rfl, fun _ => ?_⟩
      unfold scopenameCheck
      rw [operatorAt_path, if_neg (Option.some_ne_none 0).symm]
      show (if ¬ hasColons (':' :: ':' :: (first.text ++ moreText more)) then false
        else (firstColons none 0 0 (':' :: ':' :: (first.text ++ moreText more))).isSome) = true
      rw [firstColons.eq_3]
      rfl
  | false =>
      rcases List.eq_nil_or_concat more with rfl | ⟨init, z, rfl⟩
      · have hcheck := scopenameCheck_joined (parts_operatorLast [] first)
        have htext : pathText false first [] =
            joined ([].map ScopePart.component) (.component first.component) := by
          show [] ++ first.text ++ moreText [] = first.text
          rw [moreText, List.flatMap_nil, List.append_nil]
          rfl
        rw [htext, hcheck]
        exact ⟨fun h => absurd rfl h, fun h => absurd rfl (h.resolve_left Bool.false_ne_true)⟩
      · rw [List.concat_eq_append]
        have hcheck := scopenameCheck_joined (parts_operatorLast (first :: init) z)
        rw [joined_parts] at hcheck
        exact (hcheck.trans (iff_of_true (List.cons_ne_nil _ _) (Or.inr (by simp))))

/-! ## What the code writes -/

/-- The places where the code looks for the name. In dimensions it finds it in literals too, and
with `a` as the name in the letter of an array. -/
def codeWriting (pat rep : List Char) : Writing :=
  ⟨pat, rep, true, false, false, true, true, true, false⟩

theorem codeWriting_templateName (pat rep : List Char) (leading : Bool) (first : ScopePart)
    (more : List ScopePart) :
    (codeWriting pat rep).templateName leading first more = pathText leading first more :=
  if_neg fun h => Bool.false_ne_true h.1

theorem strstr_self {pat : List Char} : strstr pat pat = some 0 := by
  cases pat with
  | nil => rfl
  | cons x pat =>
      rw [strstr, if_pos]
      exact List.isPrefixOf_iff_prefix.2 (List.prefix_refl _)

theorem replaceAny_self {pat : List Char} (hpat : pat ≠ []) (rep : List Char) :
    replaceAny pat pat rep = some rep := by
  have hright : SimpleRight .simple pat rep pat false false := by
    rcases Nat.lt_or_ge pat.length rep.length with hlt | hle
    · exact (simpleRight_longer hpat hlt).2 fun _ hquote => absurd hquote Bool.false_ne_true
    · refine simpleRight_inPlace hpat hle fun _ _ p _ hdisturbed => ?_
      rcases hdisturbed.1 with hmode | hmode
      · cases hmode
      · cases hmode.1
  have hfirst : matchFrom .simple pat pat 0 = some 0 := by
    rw [matchFrom, matchLoop, List.drop_zero, strstr_self]
    rfl
  have hnone : matchFrom .simple pat pat (0 + pat.length) = none := by
    rw [matchFrom, matchLoop, Nat.zero_add, List.drop_length, strstr, if_neg hpat]
  have hpositions : wantedPositions .simple pat pat false false = [0] := by
    show matchPositions .simple pat pat false (pat.length + 1) 0 = [0]
    rw [matchPositions, nextMatch_false, hfirst]
    dsimp only
    obtain ⟨n, hn⟩ : ∃ n, pat.length = n + 1 :=
      ⟨pat.length - 1, by have := List.length_pos_of_ne_nil hpat; omega⟩
    rw [show matchPositions .simple pat pat false pat.length (0 + pat.length) =
      matchPositions .simple pat pat false (n + 1) (0 + pat.length) by rw [hn], matchPositions,
      nextMatch_false, hnone]
  have hspliced : referenceReplace .simple pat pat rep false false = (rep, 1) := by
    rw [referenceReplace, hpositions]
    show (splice pat.length rep pat 0 [0], 1) = (rep, 1)
    rw [splice, splice, Nat.zero_add, List.drop_length, Nat.sub_zero, List.take_zero]
    simp
  unfold replaceAny stringReplace
  show (replaceSimple .simple pat rep pat false (-1)).map Prod.fst = some rep
  have hwhole : replaceSimple .simple pat rep pat false (if false = true then 1 else -1) = _ := hright
  rw [hspliced] at hwhole
  exact congrArg (Option.map Prod.fst) hwhole

section Code

variable {pat rep : List Char} {fuel : Nat}

theorem word_not_mem (h : IsWord pat) {c : Char} (hc : isIdentifierChar c = false) : c ∉ pat := by
  intro hmem
  rw [h.chars c hmem] at hc
  cases hc

theorem strstr_eq_none_iff {token l : List Char} : strstr token l = none ↔ ¬ token <:+: l := by
  rw [strstr_eq_none]
  constructor
  · rintro h ⟨u, v, rfl⟩
    refine h u.length ?_
    rw [List.append_assoc, List.drop_left]
    exact List.prefix_append token v
  · exact fun h i hp => h (hp.isInfix.trans (List.drop_suffix i l).isInfix)

/-- A type of one element. -/
theorem typenameReplace_single {e r : List Char} (hpat : pat ≠ []) (hne : e ≠ [])
    (he : Unbroken '.' '(' ')' e)
    (h : pat <:+: e → replaceElement pat rep (typenameReplace pat rep fuel) e = some r)
    (habsent : ¬ pat <:+: e → r = e) (hequal : e = pat → r = rep) :
    typenameReplace pat rep (fuel + 1) e = some r := by
  rw [typenameReplace]
  by_cases hfound : strstr pat e = none
  · rw [if_pos hfound, habsent (strstr_eq_none_iff.1 hfound)]
  · rw [if_neg hfound]
    have hoccurs : pat <:+: e := not_not.1 fun h => hfound (strstr_eq_none_iff.2 h)
    by_cases hsame : e = pat
    · rw [if_pos hsame, hequal hsame, hsame]
      exact replaceAny_self hpat rep
    · rw [if_neg hsame, split_last hne he (le_refl _), List.mapM_cons, h hoccurs]
      show some [r].flatten = some r
      rw [List.flatten_singleton]

/-! ## Paths -/

variable {leading : Bool} {first : ScopePart} {more : List ScopePart}

theorem path_absent (h : ¬ pat <:+: pathText leading first more) :
    (codeWriting pat rep).path leading first more = pathText leading first more := by
  refine if_neg fun hname => ?_
  obtain ⟨-, rfl, hfirst⟩ := hname
  refine h ?_
  rw [← show first.text = pat from hfirst]
  exact (List.prefix_append first.text (moreText more)).isInfix

theorem path_eq_pat (hpat : IsWord pat) (h : pathText leading first more = pat) :
    leading = false ∧ more = [] ∧ first.text = pat := by
  have hcolon : ':' ∉ pathText leading first more := h ▸ word_not_mem hpat (by decide)
  cases leading with
  | true => exact absurd List.mem_cons_self hcolon
  | false =>
      cases more with
      | nil =>
          refine ⟨rfl, rfl, ?_⟩
          rw [← h]
          show first.text = [] ++ first.text ++ []
          rw [List.append_nil]
          rfl
      | cons p more =>
          exact absurd (List.mem_append_right _ List.mem_cons_self) hcolon

theorem path_equal (hpat : IsWord pat) (h : pathText leading first more = pat) :
    (codeWriting pat rep).path leading first more = rep := by
  obtain ⟨rfl, rfl, hfirst⟩ := path_eq_pat hpat h
  rw [Writing.path, if_pos ⟨rfl, rfl, hfirst⟩]
  exact List.append_nil rep

/-- The name is replaced only in front of a path: it is no other part. -/
theorem replaceElement_path (hpat : IsWord pat)
    (hq : (leading = true → first.text ≠ pat) ∧ ∀ p ∈ more, p.text ≠ pat)
    (hfuel : (pathText leading first more).length ≤ fuel) :
    replaceElement pat rep (typenameReplace pat rep fuel) (pathText leading first more) =
      some ((codeWriting pat rep).path leading first more) := by
  obtain ⟨n, hn⟩ : ∃ n, (pathText leading first more).length = n := ⟨_, rfl⟩
  induction n using Nat.strong_induction_on generalizing leading first more fuel with
  | _ n ih =>
      -- a shorter path is replaced as a type of its own
      have hshorter : ∀ (l : Bool) (f : ScopePart) (m : List ScopePart),
          ((l = true → f.text ≠ pat) ∧ ∀ p ∈ m, p.text ≠ pat) →
          (pathText l f m).length < n → typenameReplace pat rep fuel (pathText l f m) =
            some ((codeWriting pat rep).path l f m) := by
        intro l f m hqm hlt
        obtain ⟨fuel, rfl⟩ : ∃ k, fuel = k + 1 := ⟨fuel - 1, by omega⟩
        exact typenameReplace_single hpat.ne_nil (pathText_ne_nil l f m)
          ((pathText_nameText l f m).unbroken (by simp))
          (fun _ => ih _ hlt hqm (by omega) rfl) path_absent (path_equal hpat)
      have hsimple : swigTypeIssimple (pathText leading first more) = true := by
        have hloop := issimple_nameText (pathText_nameText leading first more) []
        rw [List.append_nil] at hloop
        exact hloop
      unfold replaceElement
      rw [if_pos hsimple]
      by_cases hsame : pathText leading first more = pat
      · rw [if_pos hsame, path_equal hpat hsame, hsame]
        exact replaceAny_self hpat.ne_nil rep
      rw [if_neg hsame, istemplate_nameText (pathText_nameText leading first more),
        if_neg Bool.false_ne_true]
      rcases List.eq_nil_or_concat more with rfl | ⟨init, z, rfl⟩
      · cases leading with
        | false =>
            have hcheck : ¬ scopenameCheck (pathText false first []) = true := by
              rw [check_path]
              exact fun h => (h.resolve_left Bool.false_ne_true) rfl
            have hname : ¬ (codeWriting pat rep).IsName false first := by
              rintro ⟨-, hfirst⟩
              refine hsame ?_
              rw [← show first.text = pat from hfirst]
              exact List.append_nil _
            rw [if_neg hcheck, Writing.path, if_neg fun h => hname h.2]
        | true =>
            have hlen : (pathText false first []).length < n := by
              rw [← hn]
              exact Nat.lt_succ_of_lt (Nat.lt_succ_self _)
            have hrest := hshorter false first [] ⟨fun h => absurd h Bool.false_ne_true, nofun⟩ hlen
            have hname : (codeWriting pat rep).path false first [] = pathText false first [] :=
              if_neg fun h => hq.1 rfl h.2.2
            rw [hname] at hrest
            rw [if_pos ((check_path true first []).2 (Or.inl rfl)), replaceScoped, split_path_nil]
            show (typenameReplace pat rep fuel (pathText false first [])).bind
              (fun rest => some ([':', ':'] ++ rest)) = _
            rw [hrest, Writing.path, if_neg fun h => Bool.false_ne_true h.2.1.symm]
            rfl
      · rw [List.concat_eq_append] at *
        have hz : z.text ≠ pat := hq.2 z (by simp)
        have hlen : (pathText leading first init).length < n ∧ z.text.length < n := by
          rw [← hn, pathText_concat, List.length_append, List.length_cons, List.length_cons]
          omega
        have hscope := hshorter leading first init
          ⟨hq.1, fun p hp => hq.2 p (List.mem_append_left _ hp)⟩ hlen.1
        have hztext : pathText false z [] = z.text := List.append_nil _
        have hrest := hshorter false z [] ⟨fun h => absurd h Bool.false_ne_true, nofun⟩
          (by rw [hztext]; exact hlen.2)
        have hname : (codeWriting pat rep).path false z [] = pathText false z [] :=
          if_neg fun h => hz h.2.2
        rw [hname, hztext] at hrest
        have hcolons : [':', ':'].isPrefixOf z.text = false := by
          by_contra hprefix
          rw [Bool.not_eq_false, List.isPrefixOf_iff_prefix] at hprefix
          exact z.no_colon (List.IsPrefix.subset hprefix List.mem_cons_self)
        rw [if_pos ((check_path leading first (init ++ [z])).2 (Or.inr (by simp))), replaceScoped,
          split_path_concat]
        dsimp only
        rw [hcolons, if_neg Bool.false_ne_true]
        show ((typenameReplace pat rep fuel (pathText leading first init)).bind fun scope =>
          (typenameReplace pat rep fuel z.text).bind fun rest =>
            some (scope ++ [':', ':'] ++ rest)) = _
        rw [hscope, hrest]
        show some ((codeWriting pat rep).path leading first init ++ [':', ':'] ++ z.text) = _
        rw [Writing.path, Writing.path]
        split
        · rw [moreText_concat, List.append_assoc, List.append_assoc]
          rfl
        · rw [pathText_concat, List.append_assoc]
          rfl

/-! ## Templates -/

theorem NameText.isPlain {l : List Char} (h : NameText l) : ∀ x ∈ l, Swig.isPlain x = true := by
  intro x hx
  have hne : ∀ c ∈ ['.', ',', '(', ')', '<', '>'], x ≠ c := by
    rintro c hc rfl
    exact h x hx hc
  simp [Swig.isPlain, hne '.' (by simp), hne '<' (by simp), hne '>' (by simp), hne '(' (by simp),
    hne ')' (by simp)]

theorem issimple_nesting {l t : List Char} {n k : Nat} (h : nesting '<' '>' n l = some k)
    (ht : t ≠ []) : issimpleLoop (n + 1) (l ++ t) = issimpleLoop (k + 1) t := by
  induction l generalizing n with
  | nil =>
      rw [nesting_nil] at h
      cases h
      rfl
  | cons x l ih =>
      obtain ⟨n', hlevel, hrest⟩ := angleLevel_nesting h
      rw [List.cons_append, issimpleLoop, if_neg fun hend =>
        List.append_ne_nil_of_right_ne_nil l ht hend.1, hlevel, ih hrest]

section Template

variable {name inside behind : List Char} {k : Nat}

/-- The arguments of a template are gone past when they close no angle bracket. -/
theorem issimple_template (hname : NameText name) (hinside : nesting '<' '>' 0 inside = some k) :
    issimpleLoop 0 (name ++ '<' :: '(' :: (inside ++ ')' :: '>' :: behind)) =
      issimpleLoop k behind := by
  have hparens : nesting '<' '>' 0 ('(' :: (inside ++ [')'])) = some k :=
    nesting_parens.trans hinside
  have hwhole : '(' :: (inside ++ ')' :: '>' :: behind) =
      ('(' :: (inside ++ [')'])) ++ '>' :: behind := by simp
  rw [issimple_nameText hname, issimpleLoop, if_pos rfl, hwhole,
    issimple_nesting hparens (List.cons_ne_nil _ _), issimpleLoop,
    if_neg fun h => absurd h.2 (by decide)]
  rfl

theorem istemplate_template (hname : NameText name) :
    swigTypeIstemplate (name ++ '<' :: '(' :: (inside ++ ')' :: '>' :: behind)) = true := by
  have hdrop : (name ++ '<' :: '(' :: (inside ++ ')' :: '>' :: behind)).drop (name.length + 2) =
      inside ++ ')' :: '>' :: behind := by
    rw [← List.drop_drop, List.drop_left]
    rfl
  unfold swigTypeIstemplate
  rw [strstr_template hname.isPlain]
  dsimp only
  rw [hdrop]
  cases hfind : strstr [')', '>'] (inside ++ ')' :: '>' :: behind) with
  | some k => rfl
  | none =>
      have hno := strstr_eq_none.1 hfind inside.length
      rw [List.drop_left] at hno
      exact absurd (List.prefix_append [')', '>'] behind) hno

theorem templatesuffix_template (hname : NameText name)
    (hinside : nesting '<' '>' 0 inside = some k) :
    swigTypeTemplatesuffix (name ++ '<' :: '(' :: (inside ++ ')' :: '>' :: behind)) =
      (closeAngles k behind).2 := by
  have hparens : nesting '<' '>' 0 ('(' :: (inside ++ [')'])) = some k :=
    nesting_parens.trans hinside
  have hwhole : '(' :: (inside ++ ')' :: '>' :: behind) =
      ('(' :: (inside ++ [')'])) ++ '>' :: behind := by simp
  rw [(template_parts hname.isPlain _).2.2, hwhole, closeAngles_of_nesting hparens,
    closeAngles_close]

theorem parmlist_template {items : List (List Char)} (hname : NameText name)
    (hitems : ∀ i ∈ items, IsParameter i) :
    swigTypeParmlist (name ++ '<' :: '(' :: (commaText items ++ ')' :: '>' :: behind)) =
      some (some items) := by
  have hwhole : name ++ '<' :: '(' :: (commaText items ++ ')' :: '>' :: behind) =
      (name ++ ['<']) ++ '(' :: (commaText items ++ ')' :: '>' :: behind) := by simp
  rw [hwhole, swigTypeParmlist_open, commaText, parmlistLoop_joined hitems]
  intro x hx
  rcases List.mem_append.1 hx with hx | hx
  · obtain ⟨hdot, -, -, hopen, -⟩ : x ≠ '.' ∧ x ≠ '<' ∧ x ≠ '>' ∧ x ≠ '(' ∧ x ≠ ')' := by
      simpa [Swig.isPlain] using hname.isPlain x hx
    exact ⟨hopen, hdot⟩
  · obtain rfl := List.mem_singleton.1 hx
    exact ⟨by decide, by decide⟩

/-- The branch for templates, when the arguments and what is behind them are replaced. -/
theorem replaceTemplate_eq {recur : List Char → Option (List Char)} {items items' : List (List Char)}
    {behind' : List Char} (hname : NameText name)
    (hinside : nesting '<' '>' 0 (commaText items) = some k)
    (hsuffix : (closeAngles k behind).2 = behind) (hitems : ∀ i ∈ items, IsParameter i)
    (hargs : items.mapM recur = some items') (hbehind : recur behind = some behind') :
    replaceTemplate recur (name ++ '<' :: '(' :: (commaText items ++ ')' :: '>' :: behind)) =
      some (name ++ '<' :: '(' :: (commaText items' ++ ')' :: '>' :: behind')) := by
  unfold replaceTemplate
  rw [parmlist_template hname hitems, templatesuffix_template hname hinside, hsuffix,
    (template_parts hname.isPlain _).1]
  show (items.mapM recur).bind _ = _
  rw [hargs]
  show (recur behind).bind _ = _
  rw [hbehind]
  simp

end Template

theorem NameTree.template_text (leading : Bool) (first : ScopePart) (more : List ScopePart)
    (args : TypeTrees) : (NameTree.template first more args).text leading =
      pathText leading first more ++ '<' :: '(' :: (args.text ++ ')' :: '>' :: []) := by
  show (Writing.plain [] []).templateName leading first more ++ _ = _
  rw [Writing.plain_templateName]
  rfl

theorem NameTree.nested_text (leading : Bool) (first : ScopePart) (more : List ScopePart)
    (args : TypeTrees) (suffix : NameTree) : (NameTree.nested first more args suffix).text leading =
      pathText leading first more ++
        '<' :: '(' :: (args.text ++ ')' :: '>' :: suffix.text true) := by
  show (Writing.plain [] []).templateName leading first more ++ _ = _
  rw [Writing.plain_templateName]
  rfl

theorem NameTree.issimple_text (leading : Bool) :
    ∀ n : NameTree, n.Scanned → swigTypeIssimple (n.text leading) = true
  | .path first more, _ => by
      have hloop := issimple_nameText ((Writing.plain_sound [] []).path leading first more).2 []
      rw [List.append_nil] at hloop
      exact hloop
  | .template first more args, h => by
      obtain ⟨k, hk⟩ := Option.ne_none_iff_exists'.1 h
      rw [NameTree.template_text, swigTypeIssimple,
        issimple_template (pathText_nameText leading first more) hk]
      cases k with
      | zero => rfl
      | succ k => rfl
  | .nested first more args suffix, h => by
      rw [NameTree.nested_text, swigTypeIssimple,
        issimple_template (pathText_nameText leading first more) h.1]
      exact suffix.issimple_text true h.2

/-! ## Texts without the name -/

theorem not_infix_part {token u v l : List Char} (h : ¬ token <:+: u ++ l ++ v) :
    ¬ token <:+: l := fun hl => h (hl.trans (List.infix_append u l v))

theorem words_absent (hpat : IsWord pat) {text : List Char} (h : ¬ pat <:+: text) :
    replaceWord isIdentifierChar pat rep text = text := by
  refine replaceWord_self fun hmem => absurd ?_ h
  obtain ⟨u, v, htext, -, -⟩ := (mem_words_iff hpat.ne_nil hpat.chars).1 hmem
  rw [htext, ← List.append_assoc]
  exact List.infix_append u pat v

theorem TypeTree.array_text (dim : Dimension) (t : TypeTree) :
    (TypeTree.array dim t).text = 'a' :: '(' :: (dim.text ++ ')' :: '.' :: t.text) := by
  show (Writing.plain [] []).letter ++
    '(' :: ((Writing.plain [] []).words false false dim.text ++ _) = _
  rw [Writing.plain_letter, Writing.words_plain]
  rfl

theorem TypeTree.expr_text (e : ExprText) : (TypeTree.expr e).text = e.text :=
  Writing.words_plain _ _ e.text

theorem TypeTree.other_text (e : OtherExpr) : (TypeTree.other e).text = e.text :=
  Writing.words_plain _ _ e.text

/-- The name does not occur in other expressions. -/
theorem TypeTree.not_other {t : TypeTree} (h : pat <:+: t.text) (ha : t.AnglesNest pat) :
    ¬ t.IsOther := by
  intro hother
  cases t with
  | other e =>
      rw [TypeTree.other_text] at h
      exact ha h
  | nil | varargs | expr | base | fixed | array | member | function => exact hother

mutual
theorem TypeTree.write_absent (hpat : IsWord pat) : ∀ t : TypeTree, ¬ pat <:+: t.text →
    t.write (codeWriting pat rep) = t.text
  | .nil, _ => rfl
  | .varargs, _ => rfl
  | .expr e, _ => (Writing.words_plain _ _ e.text).trans (Writing.words_plain _ _ e.text).symm
  | .other e, _ => (Writing.words_plain _ _ e.text).trans (Writing.words_plain _ _ e.text).symm
  | .base leading name, h => name.write_absent hpat leading h
  | .fixed e t, h => by
      have htext : (TypeTree.fixed e t).text = (e.text ++ ['.']) ++ t.text ++ [] := by
        rw [List.append_nil, List.append_assoc]
        rfl
      rw [htext] at h
      exact congrArg (e.text ++ '.' :: ·) (t.write_absent hpat (not_infix_part h))
  | .array dim t, h => by
      rw [TypeTree.array_text] at h ⊢
      have hletter : (codeWriting pat rep).letter = ['a'] := by
        refine if_neg fun ha => h ?_
        rw [show pat = ['a'] from ha.2]
        exact (List.prefix_append ['a'] _).isInfix
      have hdim : ¬ pat <:+: dim.text := by
        refine @not_infix_part _ ['a', '('] (')' :: '.' :: t.text) _ ?_
        exact h
      have ht : ¬ pat <:+: t.text := by
        refine @not_infix_part _ ('a' :: '(' :: (dim.text ++ [')', '.'])) [] _ ?_
        simpa using h
      have hwords : (codeWriting pat rep).words true true dim.text = dim.text :=
        ((codeWriting pat rep).words_all dim.text).trans (words_absent hpat hdim)
      show (codeWriting pat rep).letter ++
        '(' :: ((codeWriting pat rep).words true true dim.text ++ ')' :: '.' :: _) = _
      rw [hletter, hwords, t.write_absent hpat ht]
      rfl
  | .member leading name t, h => by
      have ht : ¬ pat <:+: t.text := by
        refine @not_infix_part _ ('m' :: '(' :: (name.text leading ++ [')', '.'])) [] _ ?_
        rw [List.append_nil, List.cons_append, List.cons_append, List.append_assoc]
        exact h
      show 'm' :: '(' :: (name.write (.plain pat rep) leading ++ ')' :: '.' :: _) = _
      rw [name.write_plain pat rep leading, t.write_absent hpat ht]
      rfl
  | .function parms t, h => by
      have hparms : ¬ pat <:+: parms.text := by
        refine @not_infix_part _ ['f', '('] (')' :: '.' :: t.text) _ ?_
        exact h
      have ht : ¬ pat <:+: t.text := by
        refine @not_infix_part _ ('f' :: '(' :: (parms.text ++ [')', '.'])) [] _ ?_
        rw [List.append_nil, List.cons_append, List.cons_append, List.append_assoc]
        exact h
      show 'f' :: '(' :: (parms.write _ ++ ')' :: '.' :: _) = _
      rw [parms.write_absent hpat hparms, t.write_absent hpat ht]
      rfl

theorem NameTree.write_absent (hpat : IsWord pat) (leading : Bool) : ∀ n : NameTree,
    ¬ pat <:+: n.text leading → n.write (codeWriting pat rep) leading = n.text leading
  | .path first more, h => by
      show (codeWriting pat rep).path leading first more =
        (Writing.plain [] []).path leading first more
      rw [Writing.plain_path]
      refine path_absent ?_
      rw [← Writing.plain_path [] []]
      exact h
  | .template first more args, h => by
      rw [NameTree.template_text] at h ⊢
      have hargs : ¬ pat <:+: args.text := by
        refine @not_infix_part _ (pathText leading first more ++ ['<', '(']) [')', '>'] _ ?_
        simpa using h
      show (codeWriting pat rep).templateName leading first more ++
        '<' :: '(' :: (args.write _ ++ [')', '>']) = _
      rw [args.write_absent hpat hargs, codeWriting_templateName]
  | .nested first more args suffix, h => by
      rw [NameTree.nested_text] at h ⊢
      have hargs : ¬ pat <:+: args.text := by
        refine @not_infix_part _ (pathText leading first more ++ ['<', '('])
          (')' :: '>' :: suffix.text true) _ ?_
        simpa using h
      have hsuffix : ¬ pat <:+: suffix.text true := by
        refine @not_infix_part _
          (pathText leading first more ++ '<' :: '(' :: (args.text ++ [')', '>'])) [] _ ?_
        simpa using h
      show (codeWriting pat rep).templateName leading first more ++
        '<' :: '(' :: (args.write _ ++ ')' :: '>' :: suffix.write _ true) = _
      rw [args.write_absent hpat hargs, suffix.write_absent hpat true hsuffix,
        codeWriting_templateName]

theorem TypeTrees.write_absent (hpat : IsWord pat) : ∀ ts : TypeTrees, ¬ pat <:+: ts.text →
    ts.write (codeWriting pat rep) = ts.text
  | .nil, _ => rfl
  | .cons t .nil, h => t.write_absent hpat h
  | .cons t (.cons u us), h => by
      have ht : ¬ pat <:+: t.text := @not_infix_part _ [] (',' :: (TypeTrees.cons u us).text) _ h
      have hrest : ¬ pat <:+: (TypeTrees.cons u us).text := by
        refine @not_infix_part _ (t.text ++ [',']) [] _ ?_
        rw [List.append_nil, List.append_assoc]
        exact h
      show t.write _ ++ ',' :: (TypeTrees.cons u us).write _ = _
      rw [t.write_absent hpat ht, TypeTrees.write_absent hpat (.cons u us) hrest]
      rfl
end

/-! ## Texts that are the name -/

theorem NameTree.write_equal (hpat : IsWord pat) {leading : Bool} {n : NameTree}
    (h : n.text leading = pat) : n.write (codeWriting pat rep) leading = rep := by
  have hno : '<' ∉ n.text leading := h ▸ word_not_mem hpat (by decide)
  cases n with
  | path first more =>
      refine path_equal hpat ?_
      rw [← Writing.plain_path [] []]
      exact h
  | template first more args =>
      rw [NameTree.template_text] at hno
      exact absurd (List.mem_append_right _ List.mem_cons_self) hno
  | nested first more args suffix =>
      rw [NameTree.nested_text] at hno
      exact absurd (List.mem_append_right _ List.mem_cons_self) hno

theorem TypeTree.write_equal (hpat : IsWord pat) {t : TypeTree} (h : t.text = pat) :
    t.write (codeWriting pat rep) = rep := by
  have hno : ∀ c, isIdentifierChar c = false → c ∉ t.text := fun c hc => h ▸ word_not_mem hpat hc
  cases t with
  | nil => exact absurd h.symm hpat.ne_nil
  | varargs => exact absurd (List.mem_cons_of_mem 'v' List.mem_cons_self) (hno '(' (by decide))
  | expr e =>
      obtain ⟨c, hc, hword⟩ := e.notName
      rw [TypeTree.expr_text] at hno
      exact absurd hc (hno c hword)
  | other e =>
      obtain ⟨c, hc, hword⟩ := e.notName
      rw [TypeTree.other_text] at hno
      exact absurd hc (hno c hword)
  | base leading name => exact NameTree.write_equal hpat h
  | fixed e t =>
      exact absurd (List.mem_append_right e.text List.mem_cons_self) (hno '.' (by decide))
  | array dim t =>
      rw [TypeTree.array_text] at hno
      exact absurd (List.mem_cons_of_mem 'a' List.mem_cons_self) (hno '(' (by decide))
  | member leading name t =>
      exact absurd (List.mem_cons_of_mem 'm' List.mem_cons_self) (hno '(' (by decide))
  | function parms t =>
      exact absurd (List.mem_cons_of_mem 'f' List.mem_cons_self) (hno '(' (by decide))

/-! ## Elements -/

theorem issimple_dot (nest : Nat) (l : List Char) : issimpleLoop nest (l ++ ['.']) = false := by
  induction l generalizing nest with
  | nil =>
      cases nest with
      | zero => rfl
      | succ nest => exact if_pos ⟨rfl, rfl⟩
  | cons x l ih =>
      cases nest with
      | zero =>
          rw [List.cons_append, issimpleLoop]
          split
          · exact ih 1
          · split
            · rfl
            · exact ih 0
      | succ nest =>
          rw [List.cons_append, issimpleLoop, if_neg fun h => by simp at h]
          exact ih _

theorem not_simple_dot (l : List Char) : ¬ swigTypeIssimple (l ++ ['.']) = true := by
  rw [swigTypeIssimple, issimple_dot]
  exact Bool.false_ne_true

theorem not_simple_element (x : Char) (inside : List Char) :
    ¬ swigTypeIssimple (x :: '(' :: (inside ++ [')', '.'])) = true := by
  have hdot := not_simple_dot (x :: '(' :: (inside ++ [')']))
  rw [List.cons_append, List.cons_append, List.append_assoc] at hdot
  exact hdot

variable {recur : List Char → Option (List Char)}

theorem replaceElement_fixed (e : FixedElement) :
    replaceElement pat rep recur (e.text ++ ['.']) = some (e.text ++ ['.']) := by
  have hno : swigTypeIsfunction (e.text ++ ['.']) = false ∧
      swigTypeIsarray (e.text ++ ['.']) = false := by
    cases e with
    | pointer => exact ⟨rfl, rfl⟩
    | reference => exact ⟨rfl, rfl⟩
    | rvalueReference => exact ⟨rfl, rfl⟩
    | qualifier q h =>
        have hdot : '.' ∉ q := by
          intro hmem
          rcases h '.' hmem with hword | hspace
          · cases hword
          · exact absurd hspace (by decide)
        have hend : afterDot ('q' :: '(' :: (q ++ [')', '.'])) = some [] := by
          rw [afterDot, if_neg (by decide), afterDot, if_neg (by decide)]
          clear h
          induction q with
          | nil => rfl
          | cons x q ih =>
              rw [List.cons_append, afterDot, if_neg fun hx => hdot (by rw [hx]; simp),
                ih fun hmem => hdot (List.mem_cons_of_mem _ hmem)]
        refine ⟨?_, rfl⟩
        show swigTypeIsfunction ('q' :: '(' :: ((q ++ [')']) ++ ['.'])) = false
        rw [List.append_assoc]
        unfold swigTypeIsfunction
        show ((afterDot ('q' :: '(' :: (q ++ [')', '.']))).map _).getD false = false
        rw [hend]
        rfl
  unfold replaceElement
  rw [if_neg (not_simple_dot e.text), hno.1, hno.2, if_neg Bool.false_ne_true,
    if_neg Bool.false_ne_true]

theorem replaceElement_member (inside : List Char) :
    replaceElement pat rep recur ('m' :: '(' :: (inside ++ [')', '.'])) =
      some ('m' :: '(' :: (inside ++ [')', '.'])) := by
  unfold replaceElement
  exact if_neg (not_simple_element 'm' inside)

theorem replaceElement_array (hpat : IsWord pat) (dim : List Char) :
    replaceElement pat rep recur ('a' :: '(' :: (dim ++ [')', '.'])) =
      some ((codeWriting pat rep).letter ++
        '(' :: (replaceWord isIdentifierChar pat rep dim ++ [')', '.'])) := by
  have hother : ∀ c, isIdentifierChar c = false →
      (if [c] = pat then rep else [c]) = [c] := by
    intro c hc
    refine if_neg fun h => word_not_mem hpat hc ?_
    rw [← h]
    exact List.mem_cons_self
  obtain ⟨n, hn⟩ := hpat.replaceId_eq ('a' :: '(' :: (dim ++ [')', '.'])) rep
  have hletter : substitute isIdentifierChar (fun w => if w = pat then rep else w) ['a'] =
      (codeWriting pat rep).letter := by
    rw [substitute, words_single, List.flatMap_singleton]
    by_cases ha : pat = ['a']
    · rw [if_pos ha.symm, Writing.letter, if_pos ⟨rfl, ha⟩]
      rfl
    · rw [if_neg fun h => ha h.symm, Writing.letter, if_neg fun h => ha h.2]
  have hclose : substitute isIdentifierChar (fun w => if w = pat then rep else w) ['.'] = ['.'] := by
    rw [substitute, words_single, List.flatMap_singleton]
    exact hother '.' (by decide)
  have hword : replaceWord isIdentifierChar pat rep (['a'] ++ '(' :: (dim ++ ')' :: ['.'])) =
      (codeWriting pat rep).letter ++
        '(' :: (replaceWord isIdentifierChar pat rep dim ++ [')', '.']) := by
    rw [replaceWord, substitute_next (by decide), substitute_next (by decide), hletter, hclose,
      hother '(' (by decide), hother ')' (by decide)]
    rfl
  unfold replaceElement
  rw [if_neg (not_simple_element 'a' dim)]
  show (replaceId ('a' :: '(' :: (dim ++ [')', '.'])) pat rep).map Prod.fst = _
  rw [hn]
  exact congrArg some hword

theorem replaceElement_function {items items' : List (List Char)}
    (hitems : ∀ i ∈ items, IsParameter i) (hparms : items.mapM recur = some items') :
    replaceElement pat rep recur ('f' :: '(' :: (commaText items ++ [')', '.'])) =
      some ('f' :: '(' :: (commaText items' ++ [')', '.'])) := by
  have hlist : swigTypeParmlist (['f'] ++ '(' :: (commaText items ++ ')' :: ['.'])) =
      some (some items) := by
    rw [swigTypeParmlist_open, commaText, parmlistLoop_joined hitems]
    intro x hx
    obtain rfl := List.mem_singleton.1 hx
    exact ⟨by decide, by decide⟩
  unfold replaceElement
  rw [if_neg (not_simple_element 'f' _),
    if_pos (show swigTypeIsfunction ('f' :: '(' :: (commaText items ++ [')', '.'])) = true from rfl)]
  show (swigTypeParmlist (['f'] ++ '(' :: (commaText items ++ ')' :: ['.']))).bind _ = _
  rw [hlist]
  show (items.mapM recur).bind _ = _
  rw [hparms]
  show some (['f', '('] ++ commaText items' ++ [')', '.']) = _
  rw [List.append_assoc]
  rfl

theorem replaceElement_template (hpat : IsWord pat) {name inside behind : List Char}
    (hname : NameText name)
    (hsimple : swigTypeIssimple (name ++ '<' :: '(' :: (inside ++ ')' :: '>' :: behind)) = true) :
    replaceElement pat rep recur (name ++ '<' :: '(' :: (inside ++ ')' :: '>' :: behind)) =
      replaceTemplate recur (name ++ '<' :: '(' :: (inside ++ ')' :: '>' :: behind)) := by
  have hsame : name ++ '<' :: '(' :: (inside ++ ')' :: '>' :: behind) ≠ pat := by
    intro h
    refine word_not_mem hpat (c := '<') (by decide) ?_
    rw [← h]
    exact List.mem_append_right name List.mem_cons_self
  unfold replaceElement
  rw [if_pos hsimple, if_neg hsame, if_pos (istemplate_template hname)]

theorem replaceElement_expr (hpat : IsWord pat) (e : ExprText) :
    replaceElement pat rep recur e.text = some e.text := by
  have hno : ∀ c ∈ ['.', ':', '<', '>'], c ∉ e.text := fun c hc h => e.chars c h hc
  have hsimple : swigTypeIssimple e.text = true := by
    have hloop : ∀ l : List Char, '.' ∉ l → '<' ∉ l → issimpleLoop 0 l = true := by
      intro l
      induction l with
      | nil => exact fun _ _ => rfl
      | cons x l ih =>
          intro hdot hangle
          rw [issimpleLoop, if_neg fun h => hangle (by rw [h]; simp),
            if_neg fun h => hdot (by rw [h]; simp)]
          exact ih (fun h => hdot (List.mem_cons_of_mem _ h))
            fun h => hangle (List.mem_cons_of_mem _ h)
    exact hloop _ (hno '.' (by simp)) (hno '<' (by simp))
  have hname : e.text ≠ pat := by
    obtain ⟨c, hc, hword⟩ := e.notName
    exact fun h => word_not_mem hpat hword (h ▸ hc)
  have htemplate : swigTypeIstemplate e.text = false := by
    unfold swigTypeIstemplate
    rw [strstr_none_of_not_mem List.mem_cons_self (hno '<' (by simp))]
  have hscope : scopenameCheck e.text = false := by
    have hcolons : hasColons e.text = false := by
      rw [hasColons, strstr_none_of_not_mem List.mem_cons_self (hno ':' (by simp))]
      rfl
    rw [scopenameCheck, hcolons]
    split
    · rfl
    · exact if_pos Bool.false_ne_true
  unfold replaceElement
  rw [if_pos hsimple, if_neg hname, htemplate, if_neg Bool.false_ne_true, hscope,
    if_neg Bool.false_ne_true]

/-! ## Types -/

/-- A type when its elements are replaced, which is when the name occurs in it. -/
theorem TypeTree.typenameReplace_text (hpat : IsWord pat) {t : TypeTree} (hwf : t.Wf)
    (hother : pat <:+: t.text → ¬ t.IsOther)
    (h : pat <:+: t.text →
      (t.elements (.plain [] [])).mapM (replaceElement pat rep (typenameReplace pat rep fuel)) =
        some (t.elements (codeWriting pat rep))) :
    typenameReplace pat rep (fuel + 1) t.text = some (t.write (codeWriting pat rep)) := by
  rw [typenameReplace]
  by_cases hfound : strstr pat t.text = none
  · rw [if_pos hfound, t.write_absent hpat (strstr_eq_none_iff.1 hfound)]
  · rw [if_neg hfound]
    by_cases hsame : t.text = pat
    · rw [if_pos hsame, TypeTree.write_equal hpat hsame, hsame]
      exact replaceAny_self hpat.ne_nil rep
    · have hoccurs : pat <:+: t.text := not_not.1 fun h => hfound (strstr_eq_none_iff.2 h)
      have hsplit : swigTypeSplit t.text.length t.text = t.elements (.plain [] []) :=
        t.split_write (Writing.plain_sound [] []) hwf (hother hoccurs) (le_refl _)
      rw [if_neg hsame, hsplit, h hoccurs, Option.map_some, t.elements_flatten]

mutual
theorem TypeTree.replace_elements (hpat : IsWord pat) : ∀ (t : TypeTree) {fuel : Nat},
    t.Wf → ¬ t.IsOther → t.Unqualified pat → t.AnglesNest pat → t.text.length ≤ fuel →
    (t.elements (.plain [] [])).mapM (replaceElement pat rep (typenameReplace pat rep fuel)) =
      some (t.elements (codeWriting pat rep))
  | .nil, _, _, _, _, _, _ => rfl
  | .varargs, _, _, _, _, _, _ => rfl
  | .other _, _, _, hother, _, _, _ => absurd trivial hother
  | .expr e, _, _, _, _, _, _ => by
      show [(Writing.plain [] []).words false false e.text].mapM _ =
        some [(codeWriting pat rep).words false false e.text]
      rw [Writing.words_plain, Writing.words_plain, List.mapM_cons, replaceElement_expr hpat e]
      rfl
  | .base leading name, _, hwf, _, hq, ha, hfuel => by
      show [name.text leading].mapM _ = some [name.write _ leading]
      rw [List.mapM_cons, name.replace_text hpat leading hwf hq ha.1 ha.2 hfuel]
      rfl
  | .fixed e t, fuel, hwf, _, hq, ha, hfuel => by
      have hlen : t.text.length ≤ fuel := by
        have hwhole : (e.text ++ '.' :: t.text).length ≤ fuel := hfuel
        rw [List.length_append, List.length_cons] at hwhole
        omega
      show ((e.text ++ ['.']) :: t.elements _).mapM _ = some ((e.text ++ ['.']) :: t.elements _)
      rw [List.mapM_cons, replaceElement_fixed, t.replace_elements hpat hwf.2 hwf.1 hq ha hlen]
      rfl
  | .array dim t, fuel, hwf, _, hq, ha, hfuel => by
      have hlen : t.text.length ≤ fuel := by
        rw [TypeTree.array_text] at hfuel
        simp only [List.length_cons, List.length_append] at hfuel
        omega
      have hplain : (TypeTree.array dim t).elements (.plain [] []) =
          ('a' :: '(' :: (dim.text ++ [')', '.'])) :: t.elements (.plain [] []) := by
        rw [TypeTree.elements, Writing.plain_letter]
        show (['a'] ++ '(' :: ((Writing.plain [] []).words false false dim.text ++ _)) :: _ = _
        rw [Writing.words_plain]
        rfl
      have hcode : (TypeTree.array dim t).elements (codeWriting pat rep) =
          ((codeWriting pat rep).letter ++ '(' ::
            (replaceWord isIdentifierChar pat rep dim.text ++ [')', '.'])) ::
              t.elements (codeWriting pat rep) := by
        show ((codeWriting pat rep).letter ++
          '(' :: ((codeWriting pat rep).words true true dim.text ++ _)) :: _ = _
        rw [Writing.words_all]
        rfl
      rw [hplain, hcode, List.mapM_cons, replaceElement_array hpat,
        t.replace_elements hpat hwf.2 hwf.1 hq ha hlen]
      rfl
  | .member leading name t, fuel, hwf, _, hq, ha, hfuel => by
      have hlen : t.text.length ≤ fuel := by
        have hwhole : ('m' :: '(' :: (name.text leading ++ ')' :: '.' :: t.text)).length ≤ fuel :=
          hfuel
        simp only [List.length_cons, List.length_append] at hwhole
        omega
      show (('m' :: '(' :: (name.text leading ++ [')', '.'])) :: t.elements _).mapM _ =
        some (('m' :: '(' :: (name.write (.plain pat rep) leading ++ [')', '.'])) :: t.elements _)
      rw [List.mapM_cons, replaceElement_member,
        t.replace_elements hpat hwf.2.2 hwf.2.1 hq.2 ha hlen, name.write_plain]
      rfl
  | .function parms t, fuel, hwf, _, hq, ha, hfuel => by
      have hlen : parms.text.length + t.text.length + 4 ≤ fuel := by
        have hwhole : ('f' :: '(' :: (parms.text ++ ')' :: '.' :: t.text)).length ≤ fuel := hfuel
        simp only [List.length_cons, List.length_append] at hwhole
        omega
      obtain ⟨f, rfl⟩ : ∃ f, fuel = f + 1 := ⟨fuel - 1, by omega⟩
      have hparms := parms.replace_texts hpat hwf.1 hq.1 ha.1 (show parms.text.length ≤ f by omega)
      have helement := @replaceElement_function pat rep _ _ _
        (parms.isParameter (Writing.plain_sound [] []) hwf.1) hparms
      rw [commaText, commaText, parms.intercalate_texts, parms.intercalate_texts] at helement
      show (('f' :: '(' :: (parms.write (.plain [] []) ++ [')', '.'])) :: t.elements _).mapM _ =
        some (('f' :: '(' :: (parms.write _ ++ [')', '.'])) :: t.elements _)
      rw [List.mapM_cons, helement,
        t.replace_elements hpat hwf.2.2 hwf.2.1 hq.2 ha.2 (show t.text.length ≤ f + 1 by omega)]
      rfl

theorem NameTree.replace_text (hpat : IsWord pat) (leading : Bool) : ∀ (n : NameTree) {fuel : Nat},
    n.Wf → n.Unqualified pat leading → n.Scanned → n.AnglesNest pat → (n.text leading).length ≤ fuel →
    replaceElement pat rep (typenameReplace pat rep fuel) (n.text leading) =
      some (n.write (codeWriting pat rep) leading)
  | .path first more, fuel, _, hq, _, _, hfuel => by
      have htext : (NameTree.path first more).text leading = pathText leading first more :=
        Writing.plain_path [] [] leading first more
      rw [htext] at hfuel ⊢
      exact replaceElement_path hpat hq hfuel
  | .template first more args, fuel, hwf, hq, hscan, ha, hfuel => by
      have hsimple := (NameTree.template first more args).issimple_text leading hscan
      obtain ⟨k, hk⟩ := Option.ne_none_iff_exists'.1 hscan
      rw [NameTree.template_text] at hfuel hsimple ⊢
      simp only [List.length_append, List.length_cons] at hfuel
      obtain ⟨f, rfl⟩ : ∃ f, fuel = f + 1 := ⟨fuel - 1, by omega⟩
      have hname := pathText_nameText leading first more
      have hargs := args.replace_texts hpat hwf hq.2.2 ha (show args.text.length ≤ f by omega)
      have hbehind : typenameReplace pat rep (f + 1) [] = some [] :=
        if_pos (strstr_eq_none_iff.2 fun h => hpat.ne_nil (List.infix_nil.1 h))
      have hinside : nesting '<' '>' 0 (commaText (args.texts (.plain [] []))) = some k := by
        rw [commaText, args.intercalate_texts]
        exact hk
      have hsuffix : (closeAngles k []).2 = [] := by
        cases k with
        | zero => rfl
        | succ k => rfl
      have hwhole := replaceTemplate_eq hname hinside hsuffix
        (args.isParameter (Writing.plain_sound [] []) hwf) hargs hbehind
      rw [commaText, commaText, args.intercalate_texts, args.intercalate_texts] at hwhole
      rw [replaceElement_template hpat hname hsimple]
      refine hwhole.trans (congrArg some ?_)
      rw [NameTree.write, codeWriting_templateName]
  | .nested first more args suffix, fuel, hwf, hq, hscan, ha, hfuel => by
      have hsimple := (NameTree.nested first more args suffix).issimple_text leading hscan
      rw [NameTree.nested_text] at hfuel hsimple ⊢
      simp only [List.length_append, List.length_cons] at hfuel
      obtain ⟨f, rfl⟩ : ∃ f, fuel = f + 1 := ⟨fuel - 1, by omega⟩
      have hname := pathText_nameText leading first more
      have hargs := args.replace_texts hpat hwf.1 hq.2.2.1 ha.1
        (show args.text.length ≤ f by omega)
      have hsound := Writing.plain_sound [] []
      have hbehind : typenameReplace pat rep (f + 1) (suffix.text true) = _ :=
        typenameReplace_single hpat.ne_nil (suffix.write_ne_nil hsound true)
          (suffix.unbroken hsound true '.' (by simp))
          (fun hoccurs => suffix.replace_text hpat true hwf.2 hq.2.2.2 hscan.2 (ha.2 hoccurs)
            (by omega))
          (suffix.write_absent hpat true) (NameTree.write_equal hpat)
      have hinside : nesting '<' '>' 0 (commaText (args.texts (.plain [] []))) = some 0 := by
        rw [commaText, args.intercalate_texts]
        exact hscan.1
      have hsuffix : (closeAngles 0 (suffix.text true)).2 = suffix.text true := by
        rw [closeAngles]
      have hwhole := replaceTemplate_eq hname hinside hsuffix (args.isParameter hsound hwf.1) hargs
        hbehind
      rw [commaText, commaText, args.intercalate_texts, args.intercalate_texts] at hwhole
      rw [replaceElement_template hpat hname hsimple]
      refine hwhole.trans (congrArg some ?_)
      rw [NameTree.write, codeWriting_templateName]

theorem TypeTrees.replace_texts (hpat : IsWord pat) : ∀ (ts : TypeTrees) {fuel : Nat},
    ts.Wf → ts.Unqualified pat → ts.AnglesNest pat → ts.text.length ≤ fuel →
    (ts.texts (.plain [] [])).mapM (typenameReplace pat rep (fuel + 1)) =
      some (ts.texts (codeWriting pat rep))
  | .nil, _, _, _, _, _ => rfl
  | .cons t ts, fuel, hwf, hq, ha, hfuel => by
      have hlen : t.text.length ≤ fuel ∧ ts.text.length ≤ fuel := by
        cases ts with
        | nil => exact ⟨hfuel, Nat.zero_le _⟩
        | cons u us =>
            have hwhole : (t.text ++ ',' :: (TypeTrees.cons u us).text).length ≤ fuel := hfuel
            rw [List.length_append, List.length_cons] at hwhole
            omega
      have hone : typenameReplace pat rep (fuel + 1) t.text = _ := TypeTree.typenameReplace_text
        hpat hwf.2.1 (fun hoccurs => TypeTree.not_other hoccurs (ha.1 hoccurs))
          fun hoccurs => t.replace_elements hpat hwf.2.1
            (TypeTree.not_other hoccurs (ha.1 hoccurs)) hq.1 (ha.1 hoccurs) hlen.1
      show (t.text :: ts.texts _).mapM _ = some (t.write _ :: ts.texts _)
      rw [List.mapM_cons, hone, ts.replace_texts hpat hwf.2.2 hq.2 ha.2 hlen.2]
      rfl
end

/-- What the code writes. -/
theorem swigTypeTypenameReplace_text (hpat : IsWord pat) {t : TypeTree} (hwf : t.Wf)
    (hq : t.Unqualified pat) (ha : pat <:+: t.text → t.AnglesNest pat) :
    swigTypeTypenameReplace pat rep t.text = some (t.write (codeWriting pat rep)) :=
  t.typenameReplace_text hpat hwf (fun hoccurs => TypeTree.not_other hoccurs (ha hoccurs))
    fun hoccurs => t.replace_elements hpat hwf (TypeTree.not_other hoccurs (ha hoccurs)) hq
      (ha hoccurs) (le_refl _)

end Code

end Swig4Ada.Swig

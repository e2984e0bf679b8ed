import Swig4Ada.Lib.Brackets
import Swig4Ada.Proofs.Replace
import Swig4Ada.Swig.ScopeName

/-!
# The parts of a qualified name

A qualified name is made of components with two colons between them. The functions on
such names agree with each other just when no colons come first and `operator ` is found
nowhere but at the beginning of the last component.
-/

namespace Swig4Ada.Swig

open Lib Doh

/-! ## Names -/

/-- An identifier, or a template instance. -/
structure ScopeComponent where
  name : List Char
  args : Option (List Char)
  name_ne : name ≠ []
  plain : ∀ c ∈ name, c ≠ ':' ∧ c ≠ '<' ∧ c ≠ '>'
  balanced : ∀ a, args = some a → Lib.Balanced '<' '>' a

def ScopeComponent.text (c : ScopeComponent) : List Char :=
  match c.args with
  | none => c.name
  | some a => c.name ++ '<' :: (a ++ ['>'])

/-- An operator is named by a symbol, or behind a blank by any text. -/
inductive LastName
  | component (c : ScopeComponent)
  | operator (symbol : List Char) (h : symbol.head? = some ' ' ∨ ':' ∉ symbol)

def LastName.text : LastName → List Char
  | .component c => c.text
  | .operator symbol _ => "operator".toList ++ symbol

structure QualifiedName where
  /-- The name begins with two colons. -/
  leading : Bool
  scopes : List ScopeComponent
  last : LastName

/-- The scopes, each with the two colons behind it. -/
def scopesText (scopes : List ScopeComponent) : List Char :=
  scopes.flatMap fun c => c.text ++ [':', ':']

def joined (scopes : List ScopeComponent) (last : LastName) : List Char :=
  scopesText scopes ++ last.text

def QualifiedName.text (n : QualifiedName) : List Char :=
  if n.leading then ':' :: ':' :: joined n.scopes n.last else joined n.scopes n.last

def QualifiedName.components (n : QualifiedName) : List (List Char) :=
  n.scopes.map ScopeComponent.text ++ [n.last.text]

/-- The functions give the parts of the name. -/
structure QualifiedName.Agree (n : QualifiedName) : Prop where
  check : scopenameCheck n.text = true ↔ n.leading = true ∨ n.scopes ≠ []
  rebuilt : ∀ p, scopenamePrefix n.text = some p →
    p ++ [':', ':'] ++ scopenameLast n.text = n.text ∧
      ∃ first suffix, scopenameFirst n.text = some first ∧
        scopenameSuffix n.text = some suffix ∧ first ++ [':', ':'] ++ suffix = n.text
  split : scopenameSplit n.text = (scopenamePrefix n.text, scopenameLast n.text)
  tolist : scopenameTolist n.text = some n.components

/-- `operator ` is found at most where the last component begins. -/
def OperatorLast (scopes : List ScopeComponent) (last : LastName) : Prop :=
  (∀ c ∈ scopes, operatorAt c.text = none) ∧
    (operatorAt last.text = none ∨ operatorAt last.text = some 0)

theorem scopesText_cons (c : ScopeComponent) (scopes : List ScopeComponent) :
    scopesText (c :: scopes) = c.text ++ ':' :: ':' :: scopesText scopes := by
  rw [scopesText, List.flatMap_cons, List.append_assoc]
  rfl

theorem joined_cons (c : ScopeComponent) (scopes : List ScopeComponent) (last : LastName) :
    joined (c :: scopes) last = c.text ++ ':' :: ':' :: joined scopes last := by
  rw [joined, scopesText_cons, List.append_assoc]
  rfl

theorem scopesText_concat (init : List ScopeComponent) (c : ScopeComponent) :
    scopesText (init ++ [c]) = joined init (.component c) ++ [':', ':'] := by
  rw [scopesText, List.flatMap_append, List.flatMap_singleton, ← List.append_assoc]
  rfl

theorem joined_concat (init : List ScopeComponent) (c : ScopeComponent) (last : LastName) :
    joined (init ++ [c]) last = joined init (.component c) ++ [':', ':'] ++ last.text := by
  rw [joined, scopesText_concat]

/-! ## Searching -/

section Search

variable {token a b : List Char} {c : Char}

/-- A token ends before a character that it does not have. -/
theorem prefix_append_cons (hc : c ∉ token) : token <+: a ++ c :: b ↔ token <+: a := by
  constructor
  · intro h
    induction token generalizing a with
    | nil => exact List.nil_prefix
    | cons x token ih =>
        cases a with
        | nil =>
            obtain rfl : x = c := (List.cons_prefix_cons.1 h).1
            exact absurd List.mem_cons_self hc
        | cons y a =>
            obtain ⟨rfl, hrest⟩ := List.cons_prefix_cons.1 h
            exact List.cons_prefix_cons.2
              ⟨rfl, ih (fun hmem => hc (List.mem_cons_of_mem _ hmem)) hrest⟩
  · exact fun h => h.trans (List.prefix_append a _)

/-- A token is found before such a character, or else behind it. -/
theorem strstr_append_cons (htoken : token ≠ []) (hc : c ∉ token) :
    strstr token (a ++ c :: b) =
      (strstr token a).or ((strstr token b).map (· + (a.length + 1))) := by
  have hprefix : ∀ l : List Char, token.isPrefixOf (l ++ c :: b) = token.isPrefixOf l := by
    intro l
    rw [Bool.eq_iff_iff, List.isPrefixOf_iff_prefix, List.isPrefixOf_iff_prefix,
      prefix_append_cons hc]
  induction a with
  | nil =>
      have hno := hprefix []
      rw [List.nil_append] at hno
      rw [List.nil_append, strstr.eq_2, hno, strstr.eq_1, if_neg htoken]
      have hnil : token.isPrefixOf ([] : List Char) = false := by
        cases token with
        | nil => exact absurd rfl htoken
        | cons x token => rfl
      rw [hnil]
      rfl
  | cons x a ih =>
      have hno := hprefix (x :: a)
      rw [List.cons_append] at hno
      rw [List.cons_append, strstr, hno, strstr]
      by_cases hfound : token.isPrefixOf (x :: a) = true
      · rw [if_pos hfound, if_pos hfound]
        rfl
      · rw [if_neg hfound, if_neg hfound, ih, Option.map_or, Option.map_map]
        rfl

end Search

theorem operatorAt_append_cons (a b : List Char) :
    operatorAt (a ++ ':' :: b) = (operatorAt a).or ((operatorAt b).map (· + (a.length + 1))) :=
  strstr_append_cons (by decide) (by decide)

theorem operatorAt_joined_cons (c : ScopeComponent) (scopes : List ScopeComponent)
    (last : LastName) :
    operatorAt (joined (c :: scopes) last) = (operatorAt c.text).or
      ((operatorAt (joined scopes last)).map (· + (c.text.length + 2))) := by
  have hcolon : operatorAt (':' :: joined scopes last) =
      (operatorAt (joined scopes last)).map (· + 1) := operatorAt_append_cons [] _
  rw [joined_cons, operatorAt_append_cons, hcolon, Option.map_map]
  congr 1
  cases operatorAt (joined scopes last) with
  | none => rfl
  | some k =>
      simp only [Option.map_some, Function.comp_apply]
      congr 1
      omega

theorem operatorAt_joined {scopes : List ScopeComponent} {last : LastName}
    (h : ∀ c ∈ scopes, operatorAt c.text = none) :
    operatorAt (joined scopes last) =
      (operatorAt last.text).map (· + (scopesText scopes).length) := by
  induction scopes with
  | nil =>
      show operatorAt last.text = _
      cases operatorAt last.text with
      | none => rfl
      | some k => rfl
  | cons c scopes ih =>
      rw [operatorAt_joined_cons, h c List.mem_cons_self,
        ih fun d hd => h d (List.mem_cons_of_mem _ hd), Option.none_or, Option.map_map,
        scopesText_cons]
      congr 1
      funext k
      simp only [Function.comp_apply, List.length_append, List.length_cons]
      omega

/-- `operator ` is nowhere else, when it is not found anywhere else. -/
theorem operatorLast_iff {scopes : List ScopeComponent} {last : LastName} :
    OperatorLast scopes last ↔
      ∀ k, operatorAt (joined scopes last) = some k → k = (scopesText scopes).length := by
  constructor
  · rintro ⟨hscopes, hlast⟩ k hk
    rw [operatorAt_joined hscopes] at hk
    rcases hlast with hlast | hlast
    · rw [hlast] at hk
      exact nomatch hk
    · rw [hlast] at hk
      obtain rfl := Option.some.inj hk
      exact Nat.zero_add _
  · intro h
    induction scopes with
    | nil =>
        refine ⟨fun c hc => absurd hc List.not_mem_nil, ?_⟩
        cases hat : operatorAt last.text with
        | none => exact Or.inl rfl
        | some k => exact Or.inr (congrArg some (h k hat))
    | cons c scopes ih =>
        rw [operatorAt_joined_cons, scopesText_cons] at h
        have hc : operatorAt c.text = none := by
          cases hat : operatorAt c.text with
          | none => rfl
          | some k =>
              have hlen := (strstr_sound hat).2
              have heq := h k (by rw [hat]; rfl)
              rw [List.length_append] at heq
              simp only [List.length_cons] at heq
              omega
        rw [hc, Option.none_or] at h
        obtain ⟨hscopes, hlast⟩ := ih fun k hk => by
          have heq := h (k + (c.text.length + 2)) (by rw [hk]; rfl)
          rw [List.length_append, List.length_cons, List.length_cons] at heq
          omega
        exact ⟨List.forall_mem_cons.2 ⟨hc, hscopes⟩, hlast⟩

/-! ## Scanning a component -/

section Scan

variable {shift level k pos cc : Nat} {co : Option Nat} {l t : List Char} {x : Char}

theorem lastColons_plain (hx : x ≠ ':') : lastColons shift 0 pos cc (x :: t) =
    lastColons shift (if x = '<' then 1 else 0) (pos + 1) cc t := by
  rw [lastColons.eq_4]
  exact fun u hu _ => hx hu

theorem firstColons_plain (hx : x ≠ ':') (hco : co ≠ some pos) : firstColons co 0 pos (x :: t) =
    firstColons co (if x = '<' then 1 else 0) (pos + 1) t := by
  rw [firstColons.eq_4, if_neg hco]
  exact fun u hu _ => hx hu

/-- In angle brackets the level is the number of those that are open. -/
theorem angleLevel_nesting (h : nesting '<' '>' level (x :: l) = some k) :
    ∃ level', angleLevel (level + 1) x = level' + 1 ∧ nesting '<' '>' level' l = some k := by
  unfold angleLevel
  by_cases hopen : x = '<'
  · subst hopen
    rw [nesting_other (by decide), if_pos rfl] at h
    exact ⟨level + 1, if_pos rfl, h⟩
  · rw [if_neg hopen]
    by_cases hclose : x = '>'
    · subst hclose
      cases level with
      | zero => exact nomatch h
      | succ level => exact ⟨level, if_pos rfl, h⟩
    · rw [nesting_other hclose, if_neg hopen] at h
      exact ⟨level, if_neg hclose, h⟩

theorem lastColons_nested (h : nesting '<' '>' level l = some k) :
    lastColons shift (level + 1) pos cc (l ++ t) =
      lastColons shift (k + 1) (pos + l.length) cc t := by
  induction l generalizing level pos with
  | nil =>
      rw [nesting_nil] at h
      cases h
      rfl
  | cons x l ih =>
      obtain ⟨level', hlevel, hrest⟩ := angleLevel_nesting h
      rw [List.cons_append, lastColons.eq_2, hlevel, ih hrest, List.length_cons]
      congr 1
      omega

theorem firstColons_nested (h : nesting '<' '>' level l = some k) :
    firstColons co (level + 1) pos (l ++ t) = firstColons co (k + 1) (pos + l.length) t := by
  induction l generalizing level pos with
  | nil =>
      rw [nesting_nil] at h
      cases h
      rfl
  | cons x l ih =>
      obtain ⟨level', hlevel, hrest⟩ := angleLevel_nesting h
      rw [List.cons_append, firstColons.eq_2, hlevel, ih hrest, List.length_cons]
      congr 1
      omega

theorem lastColons_name (h : ∀ c ∈ l, c ≠ ':' ∧ c ≠ '<' ∧ c ≠ '>') :
    lastColons shift 0 pos cc (l ++ t) = lastColons shift 0 (pos + l.length) cc t := by
  induction l generalizing pos with
  | nil => rfl
  | cons x l ih =>
      obtain ⟨hcolon, hopen, -⟩ := h x List.mem_cons_self
      rw [List.cons_append, lastColons_plain hcolon, if_neg hopen,
        ih fun c hc => h c (List.mem_cons_of_mem _ hc), List.length_cons]
      congr 1
      omega

theorem firstColons_name (h : ∀ c ∈ l, c ≠ ':' ∧ c ≠ '<' ∧ c ≠ '>')
    (hco : ∀ k, co = some k → pos + l.length ≤ k) :
    firstColons co 0 pos (l ++ t) = firstColons co 0 (pos + l.length) t := by
  induction l generalizing pos with
  | nil => rfl
  | cons x l ih =>
      obtain ⟨hcolon, hopen, -⟩ := h x List.mem_cons_self
      rw [List.length_cons] at hco
      have hpos : co ≠ some pos := fun heq => by have := hco pos heq; omega
      rw [List.cons_append, firstColons_plain hcolon hpos, if_neg hopen,
        ih (fun c hc => h c (List.mem_cons_of_mem _ hc)) fun k hk => by have := hco k hk; omega,
        List.length_cons]
      congr 1
      omega

/-- Behind a component no bracket is open. -/
theorem lastColons_component (c : ScopeComponent) :
    lastColons shift 0 pos cc (c.text ++ t) =
      lastColons shift 0 (pos + c.text.length) cc t := by
  unfold ScopeComponent.text
  cases hargs : c.args with
  | none => exact lastColons_name c.plain
  | some a =>
      dsimp only
      rw [List.append_assoc, lastColons_name c.plain, List.cons_append,
        lastColons_plain (by decide), if_pos rfl, List.append_assoc,
        lastColons_nested (c.balanced a hargs), List.singleton_append, lastColons.eq_2]
      show lastColons shift 0 _ cc t = _
      congr 1
      simp only [List.length_append, List.length_cons, List.length_nil]
      omega

theorem firstColons_component (c : ScopeComponent)
    (hco : ∀ k, co = some k → pos + c.text.length ≤ k) :
    firstColons co 0 pos (c.text ++ t) = firstColons co 0 (pos + c.text.length) t := by
  unfold ScopeComponent.text at hco ⊢
  cases hargs : c.args with
  | none =>
      rw [hargs] at hco
      exact firstColons_name c.plain hco
  | some a =>
      rw [hargs] at hco
      dsimp only at hco ⊢
      simp only [List.length_append, List.length_cons, List.length_nil] at hco
      have hpos : co ≠ some (pos + c.name.length) := fun heq => by have := hco _ heq; omega
      rw [List.append_assoc,
        firstColons_name c.plain fun k hk => by have := hco k hk; omega, List.cons_append,
        firstColons_plain (by decide) hpos, if_pos rfl, List.append_assoc,
        firstColons_nested (c.balanced a hargs), List.singleton_append, firstColons.eq_2]
      show firstColons co 0 _ t = _
      congr 1
      simp only [List.length_append, List.length_cons, List.length_nil]
      omega

/-- Text without a colon leaves the place as it is, whatever brackets are in it. -/
theorem lastColons_noColon (h : ':' ∉ l) : lastColons shift level pos cc l = cc := by
  induction l generalizing level pos with
  | nil => exact lastColons.eq_1 shift level pos cc
  | cons x l ih =>
      have hrest : ':' ∉ l := fun hmem => h (List.mem_cons_of_mem _ hmem)
      cases level with
      | succ level => rw [lastColons.eq_2, ih hrest]
      | zero =>
          rw [lastColons_plain fun heq => h (heq ▸ List.mem_cons_self), ih hrest]

theorem firstColons_noColon (h : ':' ∉ l) : firstColons none level pos l = none := by
  induction l generalizing level pos with
  | nil => exact firstColons.eq_1 none level pos
  | cons x l ih =>
      have hrest : ':' ∉ l := fun hmem => h (List.mem_cons_of_mem _ hmem)
      cases level with
      | succ level => rw [firstColons.eq_2, ih hrest]
      | zero =>
          rw [firstColons_plain (fun heq => h (heq ▸ List.mem_cons_self)) (Option.some_ne_none _).symm,
            ih hrest]

/-- The place is never set back. -/
theorem lastColons_ge (h : cc ≤ pos + shift) : cc ≤ lastColons shift level pos cc l := by
  fun_induction lastColons shift level pos cc l with
  | case1 => exact le_refl _
  | case2 level pos cc c t ih => exact ih (by omega)
  | case3 pos cc t ih => exact h.trans (ih (by omega))
  | case4 pos cc c t _ ih => exact ih (by omega)

end Scan

/-! ## Scanning a name -/

section Joined

variable {shift pos cc : Nat} {init scopes : List ScopeComponent} {c : ScopeComponent}
  {last : LastName}

theorem component_length_pos (c : ScopeComponent) : 0 < c.text.length := by
  have hpos := List.length_pos_of_ne_nil c.name_ne
  unfold ScopeComponent.text
  cases c.args with
  | none => exact hpos
  | some a =>
      dsimp only
      rw [List.length_append]
      omega

theorem lastColons_last (h : operatorAt last.text = none) :
    lastColons shift 0 pos cc last.text = cc := by
  cases last with
  | component c =>
      have hscan := @lastColons_component shift pos cc [] c
      rw [List.append_nil, lastColons.eq_1] at hscan
      exact hscan
  | operator symbol hsymbol =>
      rcases hsymbol with hblank | hcolon
      · obtain ⟨rest, rfl⟩ : ∃ rest, symbol = ' ' :: rest := List.head?_eq_some_iff.1 hblank
        exact absurd (List.prefix_append operatorText rest) (strstr_eq_none.1 h 0)
      · refine lastColons_noColon fun hmem => ?_
        rcases List.mem_append.1 hmem with hmem | hmem
        · exact absurd hmem (by decide)
        · exact hcolon hmem

theorem firstColons_last (h : operatorAt last.text ≠ some 0) :
    firstColons none 0 pos last.text = none := by
  cases last with
  | component c =>
      have hscan := @firstColons_component pos none [] c (fun k hk => (nomatch hk))
      rw [List.append_nil, firstColons.eq_1] at hscan
      exact hscan
  | operator symbol hsymbol =>
      rcases hsymbol with hblank | hcolon
      · obtain ⟨rest, rfl⟩ : ∃ rest, symbol = ' ' :: rest := List.head?_eq_some_iff.1 hblank
        exact absurd rfl h
      · refine firstColons_noColon fun hmem => ?_
        rcases List.mem_append.1 hmem with hmem | hmem
        · exact absurd hmem (by decide)
        · exact hcolon hmem

theorem lastColons_scopes : lastColons shift 0 pos cc (joined scopes last) =
    lastColons shift 0 (pos + (scopesText scopes).length)
      (if scopes = [] then cc else pos + (scopesText scopes).length - 2 + shift) last.text := by
  induction scopes generalizing pos cc with
  | nil => rfl
  | cons c scopes ih =>
      rw [joined_cons, lastColons_component, lastColons.eq_3, ih, if_neg (List.cons_ne_nil c scopes),
        scopesText_cons, List.length_append, List.length_cons, List.length_cons]
      by_cases hscopes : scopes = []
      · subst hscopes
        rw [if_pos rfl]
        congr 1
      · rw [if_neg hscopes]
        congr 1
        · omega
        · omega

/-- The place of the last colons, when the last component does not move it. -/
theorem lastColons_joined_concat (h : operatorAt last.text = none) :
    lastColons shift 0 0 0 (joined (init ++ [c]) last) =
      (joined init (.component c)).length + shift := by
  rw [lastColons_scopes, lastColons_last h, if_neg (by simp), scopesText_concat,
    List.length_append]
  show 0 + (_ + 2) - 2 + shift = _
  omega

theorem hasColons_joined_concat : hasColons (joined (init ++ [c]) last) = true := by
  unfold hasColons
  cases hfind : strstr [':', ':'] (joined (init ++ [c]) last) with
  | some k => rfl
  | none =>
      have hno := strstr_eq_none.1 hfind (joined init (.component c)).length
      rw [joined_concat, List.append_assoc, List.drop_left] at hno
      exact absurd (List.prefix_append _ _) hno

/-- `operator ` is at the beginning of the last component, or nowhere. -/
theorem operatorAt_joined_concat (h : OperatorLast (init ++ [c]) last) :
    (operatorAt last.text = none ∧ operatorAt (joined (init ++ [c]) last) = none) ∨
      operatorAt (joined (init ++ [c]) last) =
        some ((joined init (.component c)).length + 2) := by
  rw [operatorAt_joined h.1, scopesText_concat, List.length_append]
  rcases h.2 with hlast | hlast
  · exact Or.inl ⟨hlast, by rw [hlast]; rfl⟩
  · right
    rw [hlast, Option.map_some, Nat.zero_add]
    rfl

/-! ## What the functions return -/

theorem scopenameSplit_concat (h : OperatorLast (init ++ [c]) last) :
    scopenameSplit (joined (init ++ [c]) last) =
      (some (joined init (.component c)), last.text) := by
  unfold scopenameSplit
  have hpos : 0 < (joined init (.component c)).length := by
    rw [joined, List.length_append]
    have := component_length_pos c
    exact Nat.add_pos_right _ this
  have htake : (joined (init ++ [c]) last).take (joined init (.component c)).length =
      joined init (.component c) := by
    rw [joined_concat, List.append_assoc, List.take_left]
  have hdrop : (joined (init ++ [c]) last).drop ((joined init (.component c)).length + 2) =
      last.text := by
    rw [joined_concat]
    exact List.drop_left' (by rw [List.length_append]; rfl)
  rcases operatorAt_joined_concat h with ⟨hlast, hat⟩ | hat
  · rw [hat]
    dsimp only
    rw [lastColons_joined_concat hlast, Nat.add_zero, if_pos (by omega), htake, hdrop]
  · rw [hat]
    dsimp only
    rw [if_neg (by omega), Nat.add_sub_cancel, htake, hdrop]

theorem scopenameSplit_nil (h : OperatorLast [] last) :
    scopenameSplit (joined [] last) = (none, last.text) := by
  show scopenameSplit last.text = _
  unfold scopenameSplit
  rcases h.2 with hlast | hlast
  · rw [hlast]
    dsimp only
    rw [lastColons_last hlast]
    rfl
  · rw [hlast]
    rfl

theorem scopenamePrefix_eq (t : List Char) :
    scopenamePrefix t = if hasColons t then (scopenameSplit t).1 else none := by
  unfold scopenamePrefix scopenameSplit
  by_cases hcolons : hasColons t = true
  · rw [if_neg (not_not_intro hcolons), if_pos hcolons]
    cases operatorAt t with
    | some co =>
        dsimp only
        split
        · rfl
        · rfl
    | none =>
        dsimp only
        split
        · rfl
        · rfl
  · rw [if_pos hcolons, if_neg hcolons]

theorem scopenamePrefix_concat (h : OperatorLast (init ++ [c]) last) :
    scopenamePrefix (joined (init ++ [c]) last) = some (joined init (.component c)) := by
  rw [scopenamePrefix_eq, if_pos hasColons_joined_concat, scopenameSplit_concat h]

theorem scopenamePrefix_nil (h : OperatorLast [] last) :
    scopenamePrefix (joined [] last) = none := by
  rw [scopenamePrefix_eq, scopenameSplit_nil h]
  exact ite_self none

theorem scopenameLast_concat (h : OperatorLast (init ++ [c]) last) :
    scopenameLast (joined (init ++ [c]) last) = last.text := by
  have hdrop : (joined (init ++ [c]) last).drop ((joined init (.component c)).length + 2) =
      last.text := by
    rw [joined_concat]
    exact List.drop_left' (by rw [List.length_append]; rfl)
  unfold scopenameLast
  rw [if_neg (not_not_intro hasColons_joined_concat)]
  rcases operatorAt_joined_concat h with ⟨hlast, hat⟩ | hat
  · rw [hat]
    dsimp only
    rw [lastColons_joined_concat hlast, hdrop]
  · rw [hat]
    exact hdrop

theorem scopenameLast_nil (h : OperatorLast [] last) :
    scopenameLast (joined [] last) = last.text := by
  show scopenameLast last.text = _
  unfold scopenameLast
  split
  · rfl
  rcases h.2 with hlast | hlast
  · rw [hlast]
    dsimp only
    rw [lastColons_last hlast]
    rfl
  · rw [hlast]
    rfl

/-- The first colons end the first component, and `operator ` is not found before them. -/
theorem firstColons_joined_cons {co : Option Nat} (hco : ∀ k, co = some k → c.text.length ≤ k) :
    firstColons co 0 0 (joined (c :: scopes) last) = some c.text.length := by
  rw [joined_cons, firstColons_component c fun k hk => by have := hco k hk; omega,
    firstColons.eq_3, Nat.zero_add]

theorem hasColons_joined_cons : hasColons (joined (c :: scopes) last) = true := by
  obtain ⟨init, d, hconcat⟩ := (List.eq_nil_or_concat (c :: scopes)).resolve_left (List.cons_ne_nil _ _)
  rw [hconcat, List.concat_eq_append]
  exact hasColons_joined_concat

theorem operatorAt_joined_cons_ge {k : Nat} (h : OperatorLast (c :: scopes) last)
    (hk : operatorAt (joined (c :: scopes) last) = some k) : c.text.length + 2 ≤ k := by
  have hlen := operatorLast_iff.1 h k hk
  rw [scopesText_cons, List.length_append, List.length_cons, List.length_cons] at hlen
  omega

theorem operatorAt_joined_cons_ne (h : OperatorLast (c :: scopes) last) :
    operatorAt (joined (c :: scopes) last) ≠ some 0 := by
  intro hk
  have := operatorAt_joined_cons_ge h hk
  omega

theorem scopenameFirst_cons (h : OperatorLast (c :: scopes) last) :
    scopenameFirst (joined (c :: scopes) last) = some c.text := by
  have hpos := component_length_pos c
  unfold scopenameFirst
  rw [if_neg (not_not_intro hasColons_joined_cons)]
  dsimp only
  rw [if_neg (operatorAt_joined_cons_ne h), firstColons_joined_cons fun k hk => by
    have := operatorAt_joined_cons_ge h hk
    omega]
  dsimp only
  rw [if_pos (by omega), joined_cons, List.take_left]

theorem scopenameSuffix_cons (h : OperatorLast (c :: scopes) last) :
    scopenameSuffix (joined (c :: scopes) last) = some (joined scopes last) := by
  have hpos := component_length_pos c
  have hno : ∀ k, (none : Option Nat) = some k → c.text.length ≤ k := fun k hk => (nomatch hk)
  unfold scopenameSuffix
  rw [if_neg (not_not_intro hasColons_joined_cons), if_neg (operatorAt_joined_cons_ne h),
    firstColons_joined_cons hno]
  dsimp only
  rw [if_pos (by omega), joined_cons, ← List.drop_drop, List.drop_left]
  rfl

theorem scopenameCheck_joined (h : OperatorLast scopes last) :
    scopenameCheck (joined scopes last) = true ↔ scopes ≠ [] := by
  unfold scopenameCheck
  cases scopes with
  | nil =>
      have hfalse : ¬ (if operatorAt last.text = some 0 then false
          else if ¬ hasColons last.text then false
          else (firstColons none 0 0 last.text).isSome) = true := by
        by_cases hzero : operatorAt last.text = some 0
        · rw [if_pos hzero]
          exact Bool.false_ne_true
        · rw [if_neg hzero, firstColons_last hzero]
          split
          · exact Bool.false_ne_true
          · exact Bool.false_ne_true
      exact ⟨fun htrue => absurd htrue hfalse, fun hne => absurd rfl hne⟩
  | cons c scopes =>
      have hno : ∀ k, (none : Option Nat) = some k → c.text.length ≤ k := fun k hk => (nomatch hk)
      rw [if_neg (operatorAt_joined_cons_ne h), if_neg (not_not_intro hasColons_joined_cons),
        firstColons_joined_cons hno]
      exact ⟨fun _ => List.cons_ne_nil c scopes, fun _ => rfl⟩

/-- One turn for each component, from the last to the first. -/
theorem tolistLoop_joined {fuel : Nat} {acc : List (List Char)} (h : OperatorLast scopes last)
    (hfuel : scopes.length < fuel) :
    tolistLoop fuel (joined scopes last) acc =
      some (scopes.map ScopeComponent.text ++ last.text :: acc) := by
  induction scopes using List.reverseRecOn generalizing last fuel acc with
  | nil =>
      obtain ⟨fuel, rfl⟩ : ∃ f, fuel = f + 1 := ⟨fuel - 1, by omega⟩
      rw [tolistLoop, scopenameSplit_nil h]
      rfl
  | append_singleton init c ih =>
      rw [List.length_append, List.length_singleton] at hfuel
      obtain ⟨fuel, rfl⟩ : ∃ f, fuel = f + 1 := ⟨fuel - 1, by omega⟩
      have hinit : OperatorLast init (.component c) :=
        ⟨fun d hd => h.1 d (List.mem_append.2 (Or.inl hd)),
          Or.inl (h.1 c (List.mem_append.2 (Or.inr (List.mem_singleton.2 rfl))))⟩
      rw [tolistLoop, scopenameSplit_concat h]
      dsimp only
      rw [ih hinit (by omega), List.map_append, List.append_assoc]
      rfl

theorem scopesText_length : scopes.length ≤ (scopesText scopes).length := by
  induction scopes with
  | nil => exact le_refl _
  | cons c scopes ih =>
      rw [scopesText_cons, List.length_cons, List.length_append, List.length_cons,
        List.length_cons]
      omega

theorem last_ne_nil (last : LastName) : last.text ≠ [] := by
  cases last with
  | component c => exact List.ne_nil_of_length_pos (component_length_pos c)
  | operator symbol h => exact List.cons_ne_nil _ _

theorem joined_ne_nil : joined scopes last ≠ [] :=
  List.append_ne_nil_of_right_ne_nil _ (last_ne_nil last)

theorem scopenameTolist_joined (h : OperatorLast scopes last) :
    scopenameTolist (joined scopes last) =
      some (scopes.map ScopeComponent.text ++ [last.text]) := by
  have hlen : scopes.length < (joined scopes last).length + 1 := by
    rw [joined, List.length_append]
    have := @scopesText_length scopes
    omega
  unfold scopenameTolist
  rw [if_neg joined_ne_nil, tolistLoop_joined h hlen]

/-! ## Where the functions agree -/

theorem agree_of_operatorLast (h : OperatorLast scopes last) :
    (⟨false, scopes, last⟩ : QualifiedName).Agree where
  check := by
    rw [show (⟨false, scopes, last⟩ : QualifiedName).text = joined scopes last from rfl,
      scopenameCheck_joined h]
    exact ⟨Or.inr, fun hor => hor.resolve_left Bool.false_ne_true⟩
  rebuilt := by
    intro p hp
    show p ++ [':', ':'] ++ scopenameLast (joined scopes last) = joined scopes last ∧ _
    have hp : scopenamePrefix (joined scopes last) = some p := hp
    refine ⟨?_, ?_⟩
    · rcases List.eq_nil_or_concat scopes with rfl | ⟨init, c, rfl⟩
      · rw [scopenamePrefix_nil h] at hp
        exact nomatch hp
      · rw [List.concat_eq_append] at h hp ⊢
        rw [scopenamePrefix_concat h] at hp
        cases hp
        rw [scopenameLast_concat h, joined_concat]
    · cases scopes with
      | nil =>
          rw [scopenamePrefix_nil h] at hp
          exact nomatch hp
      | cons c scopes =>
          refine ⟨c.text, joined scopes last, scopenameFirst_cons h, scopenameSuffix_cons h, ?_⟩
          show c.text ++ [':', ':'] ++ joined scopes last = joined (c :: scopes) last
          rw [joined_cons, List.append_assoc]
          rfl
  split := by
    show scopenameSplit (joined scopes last) =
      (scopenamePrefix (joined scopes last), scopenameLast (joined scopes last))
    rcases List.eq_nil_or_concat scopes with rfl | ⟨init, c, rfl⟩
    · rw [scopenameSplit_nil h, scopenamePrefix_nil h, scopenameLast_nil h]
    · rw [List.concat_eq_append] at h ⊢
      rw [scopenameSplit_concat h, scopenamePrefix_concat h, scopenameLast_concat h]
  tolist := scopenameTolist_joined h

/-- What is split off last is the last of the list. -/
theorem tolistLoop_last {fuel : Nat} {name : List Char} {acc r : List (List Char)}
    (h : tolistLoop fuel name acc = some r) :
    ∃ before, r = before ++ (scopenameSplit name).2 :: acc := by
  induction fuel generalizing name acc with
  | zero => exact nomatch h
  | succ fuel ih =>
      rw [tolistLoop] at h
      cases hsplit : scopenameSplit name with
      | mk pre word =>
          rw [hsplit] at h
          cases pre with
          | none => exact ⟨[], (Option.some.inj h).symm⟩
          | some pre =>
              obtain ⟨before, rfl⟩ := ih h
              exact ⟨before ++ [(scopenameSplit pre).2], by rw [List.append_assoc]; rfl⟩

theorem scopenameSplit_operator {t : List Char} {k : Nat} (h : operatorAt t = some k) :
    (scopenameSplit t).2 = t.drop k := by
  unfold scopenameSplit
  rw [h]
  dsimp only
  by_cases hk : k = 0
  · rw [if_pos hk, hk]
    rfl
  · rw [if_neg hk]

theorem operatorLast_of_agree (h : (⟨false, scopes, last⟩ : QualifiedName).Agree) :
    OperatorLast scopes last := by
  refine operatorLast_iff.2 fun k hk => ?_
  have htolist : scopenameTolist (joined scopes last) =
      some (scopes.map ScopeComponent.text ++ [last.text]) := h.tolist
  unfold scopenameTolist at htolist
  rw [if_neg joined_ne_nil] at htolist
  obtain ⟨before, heq⟩ := tolistLoop_last htolist
  obtain ⟨-, hlast⟩ := List.append_inj' heq rfl
  have hdrop : (joined scopes last).drop k = last.text := by
    rw [← scopenameSplit_operator hk]
    exact (List.cons.inj hlast).1.symm
  have hlen := congrArg List.length hdrop
  have hle := (strstr_sound hk).2
  rw [List.length_drop] at hlen
  rw [joined, List.length_append] at hlen hle
  have hpos := List.length_pos_of_ne_nil (last_ne_nil last)
  omega

/-- A name without a prefix is its own last name. -/
theorem scopenameSplit_whole {t : List Char} (h : (scopenameSplit t).1 = none) :
    (scopenameSplit t).2 = t ∧ (operatorAt t = none ∨ operatorAt t = some 0) := by
  unfold scopenameSplit at h ⊢
  cases hat : operatorAt t with
  | some k =>
      rw [hat] at h
      dsimp only at h ⊢
      by_cases hk : k = 0
      · rw [if_pos hk, hk]
        exact ⟨rfl, Or.inr rfl⟩
      · rw [if_neg hk] at h
        exact nomatch h
  | none =>
      rw [hat] at h
      dsimp only at h ⊢
      by_cases hcc : lastColons 0 0 0 0 t ≠ 0
      · rw [if_pos hcc] at h
        exact nomatch h
      · rw [if_neg hcc]
        exact ⟨rfl, Or.inl rfl⟩

theorem not_agree_of_leading : ¬ (⟨true, scopes, last⟩ : QualifiedName).Agree := by
  intro h
  generalize htext : (⟨true, scopes, last⟩ : QualifiedName).text = t at *
  obtain ⟨rest, rfl⟩ : ∃ rest, t = ':' :: ':' :: rest := ⟨_, htext.symm⟩
  have hcolons : hasColons (':' :: ':' :: rest) = true := rfl
  have hzero : operatorAt (':' :: ':' :: rest) ≠ some 0 := by
    intro hat
    exact absurd (List.cons_prefix_cons.1 (strstr_sound hat).1).1 (by decide)
  have hfirst : scopenameFirst (':' :: ':' :: rest) = none := by
    unfold scopenameFirst
    rw [if_neg (not_not_intro hcolons)]
    dsimp only
    rw [if_neg hzero, firstColons.eq_3]
    rfl
  have hrebuilt := h.rebuilt
  have hsplit := h.split
  rw [htext] at hrebuilt hsplit
  have hprefix : scopenamePrefix (':' :: ':' :: rest) = none := by
    cases hp : scopenamePrefix (':' :: ':' :: rest) with
    | none => rfl
    | some p =>
        obtain ⟨first, suffix, hsome, -⟩ := (hrebuilt p hp).2
        rw [hfirst] at hsome
        exact nomatch hsome
  -- there is no prefix, so the name is not split, but its last name is behind the colons
  obtain ⟨hwhole, hat⟩ := scopenameSplit_whole (by rw [hsplit]; exact hprefix)
  have hlast : scopenameLast (':' :: ':' :: rest) =
      (':' :: ':' :: rest).drop (lastColons 2 0 0 0 (':' :: ':' :: rest)) := by
    unfold scopenameLast
    rw [if_neg (not_not_intro hcolons), hat.resolve_right hzero]
  rw [hsplit, hlast] at hwhole
  have hge : 2 ≤ lastColons 2 0 0 0 (':' :: ':' :: rest) := by
    rw [lastColons.eq_3]
    exact lastColons_ge (by omega)
  have hlen := congrArg List.length hwhole
  rw [List.length_drop] at hlen
  simp only [List.length_cons] at hlen
  omega

end Joined

/-- The functions on qualified names agree on a name just when no colons come first and
`operator ` is found at most where the last component begins. -/
theorem scopename_agree_iff (n : QualifiedName) :
    n.Agree ↔ n.leading = false ∧ OperatorLast n.scopes n.last := by
  obtain ⟨leading, scopes, last⟩ := n
  cases leading with
  | true => exact ⟨fun h => absurd h not_agree_of_leading, fun h => (nomatch h.1)⟩
  | false =>
      exact ⟨fun h => ⟨rfl, operatorLast_of_agree h⟩, fun h => agree_of_operatorLast h.2⟩

/-- `::A` is not split, and its last name is `A`; `A<operator new>` is split inside its
arguments. -/
theorem scopename_disagree :
    (∃ n : QualifiedName, n.text = "::A".toList ∧
      scopenameSplit n.text = (none, "::A".toList) ∧ scopenameLast n.text = "A".toList ∧
      ¬ n.Agree) ∧
    ∃ n : QualifiedName, n.leading = false ∧ n.text = "A<operator new>".toList ∧
      scopenameSplit n.text = (some [], "operator new>".toList) ∧ ¬ n.Agree := by
  refine ⟨⟨⟨true, [], .component ⟨['A'], none, by simp, by simp, (by intro a h; cases h)⟩⟩, rfl, by decide,
    by decide, fun h => ?_⟩, ⟨⟨false, [], .component ⟨['A'], some "operator new".toList,
    by simp, by simp, fun a ha => ?_⟩⟩, rfl, rfl, by rfl, fun h => ?_⟩⟩
  · exact absurd h.split (by decide)
  · cases ha
    decide
  · have htolist : scopenameTolist "A<operator new>".toList = some [[], "operator new>".toList] :=
      by decide
    have hone := htolist.symm.trans h.tolist
    exact absurd (congrArg (Option.map List.length) hone) (by decide)

end Swig4Ada.Swig

import Swig4Ada.Proofs.Reading
import Swig4Ada.Preprocessor.Groups

/-!
# The variables of the conditionals

Where text is allowed, `start_level` is `level`; in a group that is skipped it stays at the
level of the group which is, and no directive inside changes anything but `level`. While a
group is at its own level and no text is allowed, `mask` says that no branch has been taken.
So the variables follow the open groups (`Tracks`), whatever directive is carried out.
-/

namespace Swig4Ada.Preprocessor

variable {σ : Type} {W : FileWorld σ}

/-! ## The variables of the conditionals -/

namespace Conditionals

def opened (c : Conditionals) (truth : Bool) : Conditionals :=
  if c.allow then
    { allow := truth, level := c.level + 1, startLevel := c.level + 1, mask := true }
  else { c with level := c.level + 1 }

def elifTaken (c : Conditionals) (truth : Bool) : Conditionals :=
  if c.allow then { c with allow := false, mask := false }
  else if c.level = c.startLevel then { c with allow := truth && c.mask }
  else c

def closed (c : Conditionals) : Conditionals :=
  if c.level - 1 < c.startLevel then
    { c with allow := true, level := c.level - 1, startLevel := c.startLevel - 1 }
  else { c with level := c.level - 1 }

/-- Between the directives of a part. -/
def Inside (c : Conditionals) : Prop :=
  c.startLevel ≤ c.level ∧ (c.allow = true → c.startLevel = c.level)

/-- What a part leaves as it has been. Where text is allowed `mask` is not read
before it is set. -/
def Same (c c' : Conditionals) : Prop :=
  c'.allow = c.allow ∧ c'.level = c.level ∧ c'.startLevel = c.startLevel ∧
    (c.allow = false → c'.mask = c.mask)

/-- At the level of a group, which has been opened in `c₀`; `done` says that a
branch has been taken. -/
def InGroup (c₀ : Conditionals) (done : Bool) (c : Conditionals) : Prop :=
  c.level = c₀.level + 1 ∧
    if c₀.allow then
      c.startLevel = c.level ∧ (c.allow = true → done = true) ∧
        (c.allow = false → c.mask = !done)
    else c.allow = false ∧ c.startLevel = c₀.startLevel ∧ c.mask = c₀.mask

variable {c c₀ c₁ : Conditionals} {done truth : Bool}

theorem InGroup.inside (h : InGroup c₀ done c) (hin : Inside c₀) : Inside c := by
  obtain ⟨hlevel, h⟩ := h
  obtain ⟨hle, _⟩ := hin
  cases hallow : c₀.allow with
  | true =>
      rw [hallow, if_pos rfl] at h
      exact ⟨Nat.le_of_eq h.1, fun _ => h.1⟩
  | false =>
      rw [hallow, if_neg (by simp)] at h
      refine ⟨by omega, fun halive => ?_⟩
      rw [h.1] at halive
      cases halive

theorem InGroup.same (h : InGroup c₀ done c) (hsame : Same c c₁) : InGroup c₀ done c₁ := by
  obtain ⟨hlevel, h⟩ := h
  obtain ⟨hallow', hlevel', hstart', hmask'⟩ := hsame
  refine ⟨hlevel'.trans hlevel, ?_⟩
  cases hallow : c₀.allow with
  | true =>
      rw [hallow, if_pos rfl] at h
      obtain ⟨hstart, hdone, hmask⟩ := h
      rw [if_pos rfl]
      refine ⟨by omega, fun halive => hdone (by rw [← hallow', halive]), fun hdead => ?_⟩
      rw [hallow'] at hdead
      rw [hmask' hdead, hmask hdead]
  | false =>
      rw [hallow, if_neg (by simp)] at h
      rw [if_neg (by simp)]
      obtain ⟨hdead, hstart, hmask⟩ := h
      exact ⟨hallow'.trans hdead, hstart'.trans hstart, (hmask' hdead).trans hmask⟩

/-- The first branch. -/
theorem opened_inGroup (truth : Bool) :
    InGroup c₀ (c₀.allow && truth) (c₀.opened truth) ∧
      (c₀.opened truth).allow = (c₀.allow && truth) := by
  cases hallow : c₀.allow with
  | true => cases truth <;> simp [InGroup, opened, hallow]
  | false => simp [InGroup, opened, hallow]

/-- Another branch. -/
theorem elifTaken_inGroup (h : InGroup c₀ done c) (hin : Inside c₀) (truth : Bool) :
    InGroup c₀ (done || (c₀.allow && !done && truth)) (c.elifTaken truth) ∧
      (c.elifTaken truth).allow = (c₀.allow && !done && truth) := by
  obtain ⟨hlevel, h⟩ := h
  obtain ⟨hle, _⟩ := hin
  cases hallow : c₀.allow with
  | true =>
      rw [hallow, if_pos rfl] at h
      obtain ⟨hstart, hdone, hmask⟩ := h
      cases halive : c.allow with
      | true =>
          have := hdone halive
          simp [InGroup, elifTaken, hallow, halive, this, hlevel, hstart]
      | false =>
          have := hmask halive
          cases done <;> cases truth <;>
            simp_all [InGroup, elifTaken]
  | false =>
      rw [hallow, if_neg (by simp)] at h
      obtain ⟨hdead, hstart, hmask⟩ := h
      have hne : c.level ≠ c.startLevel := by omega
      have hkeep : c.elifTaken truth = c := by
        rw [elifTaken, hdead, if_neg (by simp), if_neg hne]
      rw [hkeep]
      simp [InGroup, hallow, hlevel, hdead, hstart, hmask]

/-- The end of a group. -/
theorem closed_same (h : InGroup c₀ done c) (hin : Inside c₀) : Same c₀ c.closed := by
  obtain ⟨hlevel, h⟩ := h
  obtain ⟨hle, hlive⟩ := hin
  cases hallow : c₀.allow with
  | true =>
      rw [hallow, if_pos rfl] at h
      have hlt : c.level - 1 < c.startLevel := by omega
      rw [closed, if_pos hlt]
      have := hlive hallow
      exact ⟨hallow.symm, by show c.level - 1 = _; omega,
        by show c.startLevel - 1 = _; omega, by rw [hallow]; intro h; cases h⟩
  | false =>
      rw [hallow, if_neg (by simp)] at h
      obtain ⟨hdead, hstart, hmask⟩ := h
      have hge : ¬ c.level - 1 < c.startLevel := by omega
      rw [closed, if_neg hge]
      exact ⟨hdead.trans hallow.symm, by show c.level - 1 = _; omega, hstart, fun _ => hmask⟩

/-- The variables behind a directive whose condition has a truth value. -/
def next (name : DirectiveName) (truth : Bool) (c : Conditionals) : Conditionals :=
  match name with
  | .ifdef | .ifndef | .ifCond => c.opened truth
  | .elif => if c.level = 0 then c else c.elifTaken truth
  | .els => if c.level = 0 then c else c.elifTaken true
  | .endif => if c.level = 0 then c else c.closed
  | _ => c

/-- The variables are those of the open groups. -/
def Tracks : List Group → Conditionals → Prop
  | [], c => c.allow = true ∧ c.level = 0 ∧ c.startLevel = 0
  | g :: groups, c =>
      ∃ c₀, Tracks groups c₀ ∧ InGroup c₀ g.taken c ∧ c.allow = (c₀.allow && g.active)

variable {groups : List Group} {name : DirectiveName}

theorem Tracks.inside : ∀ {groups : List Group} {c : Conditionals}, Tracks groups c → Inside c
  | [], _, h => ⟨by rw [h.2.1, h.2.2], fun _ => by rw [h.2.1, h.2.2]⟩
  | _ :: _, _, h => by
      obtain ⟨c₀, hbelow, hgroup, -⟩ := h
      exact hgroup.inside hbelow.inside

theorem Tracks.same (h : Tracks groups c) (hsame : Same c c₁) : Tracks groups c₁ := by
  cases groups with
  | nil => exact ⟨hsame.1.trans h.1, hsame.2.1.trans h.2.1, hsame.2.2.1.trans h.2.2⟩
  | cons g groups =>
      obtain ⟨c₀, hbelow, hgroup, hallow⟩ := h
      exact ⟨c₀, hbelow, hgroup.same hsame, hsame.1.trans hallow⟩

theorem Tracks.follows : ∀ {groups : List Group} {c : Conditionals}, Tracks groups c →
    FollowsGroups groups c
  | [], _, h => ⟨h.1, h.2.1, fun _ => h.2.2⟩
  | g :: groups, c, h => by
      obtain ⟨c₀, hbelow, hgroup, hallow⟩ := h
      have hfollows := hbelow.follows
      refine ⟨?_, ?_, by intro h; cases h⟩
      · rw [hallow, hfollows.allow, passes, passes, List.all_cons, Bool.and_comm]
      · rw [hgroup.1, hfollows.level, List.length_cons]

/-- In a group that is not allowed it does not matter which branches have been taken. -/
theorem InGroup.dead {done' : Bool} (h : InGroup c₀ done c) (hallow : c₀.allow = false) :
    InGroup c₀ done' c := by
  refine ⟨h.1, ?_⟩
  have hvars := h.2
  rw [if_neg (by rw [hallow]; exact Bool.false_ne_true)] at hvars ⊢
  exact hvars

theorem tracks_opened (h : Tracks groups c) (truth : Bool) :
    Tracks (⟨truth, truth⟩ :: groups) (c.opened truth) := by
  obtain ⟨hgroup, hallow⟩ : InGroup c (c.allow && truth) (c.opened truth) ∧ _ :=
    opened_inGroup truth
  refine ⟨c, h, ?_, hallow⟩
  cases hlive : c.allow with
  | true =>
      rw [hlive] at hgroup
      exact hgroup
  | false => exact hgroup.dead hlive

theorem tracks_branch {g : Group} (h : Tracks (g :: groups) c) (truth : Bool) :
    Tracks (g.branch truth :: groups) (c.elifTaken truth) := by
  obtain ⟨c₀, hbelow, hgroup, -⟩ := h
  obtain ⟨hgroup', hallow⟩ := elifTaken_inGroup hgroup hbelow.inside truth
  refine ⟨c₀, hbelow, ?_, hallow.trans (Bool.and_assoc _ _ _)⟩
  cases hlive : c₀.allow with
  | true =>
      rw [hlive] at hgroup'
      have htaken : (g.taken || (true && !g.taken && truth)) = (g.taken || truth) := by
        cases g.taken <;> rfl
      rw [htaken] at hgroup'
      exact hgroup'
  | false => exact hgroup'.dead hlive

/-- A directive does with the variables what it does with the groups. -/
theorem Tracks.next (h : Tracks groups c) (name : DirectiveName) (truth : Bool) :
    Tracks (groupsNext name truth groups) (c.next name truth) := by
  have hlevel := h.follows.level
  cases name with
  | ifdef | ifndef | ifCond => exact tracks_opened h truth
  | elif | els =>
      cases groups with
      | nil =>
          have hnone : c.level = 0 := hlevel
          rw [Conditionals.next, if_pos hnone]
          exact h
      | cons g groups =>
          rw [Conditionals.next, if_neg (by rw [hlevel]; exact Nat.succ_ne_zero _)]
          exact tracks_branch h _
  | endif =>
      cases groups with
      | nil =>
          have hnone : c.level = 0 := hlevel
          rw [Conditionals.next, if_pos hnone]
          exact h
      | cons g groups =>
          rw [Conditionals.next, if_neg (by rw [hlevel]; exact Nat.succ_ne_zero _)]
          obtain ⟨c₀, hbelow, hgroup, -⟩ := h
          exact hbelow.same (closed_same hgroup hbelow.inside)
  | _ => exact h

end Conditionals

/-! ## The end of a directive -/

/-- A conditional changes the variables and may give messages. -/
structure OnlyConditionals (c' : Conditionals) (st st' : ParseState σ) : Prop where
  cond : st'.cond = c'
  mode : st'.mode = st.mode
  chunk : st'.chunk = st.chunk
  cppLines : st'.cppLines = st.cppLines
  symbols : st'.symbols = st.symbols
  ns : st'.ns = st.ns
  value : st'.value = st.value

variable {st : ParseState σ}

theorem openGroup_only (condition : Bool × List Report) (hroom : st.cond.level < condLines) :
    OnlyConditionals (st.cond.opened condition.1) st (openGroup st condition) := by
  rw [openGroup, if_pos hroom, Conditionals.opened]
  by_cases hallow : st.cond.allow = true
  · rw [if_pos hallow, if_pos hallow]
    constructor <;> rfl
  · rw [if_neg hallow, if_neg hallow]
    constructor <;> rfl

theorem evaluate_truth (W : World σ) (symbols : σ) (value : List Char) (missing : String) :
    (evaluate W symbols value missing).1 = (evaluate W symbols value "").1 := by
  simp only [evaluate]
  by_cases hlen : (W.replace symbols true value).length > 0
  · rw [if_pos hlen, if_pos hlen]
  · rw [if_neg hlen, if_neg hlen]

theorem evaluateName_truth (W : World σ) (symbols : σ) (value : List Char) (defined : Bool)
    (missing : String) : (evaluateName W symbols value defined missing).1 =
      (value ≠ [] && W.isDefined symbols value == defined) := by
  rw [evaluateName]
  cases value <;> simp

theorem elifGroup_only (W : World σ) : OnlyConditionals
    (st.cond.next .elif (evaluate W st.symbols st.value "").1) st (elifGroup W st) := by
  rw [elifGroup, Conditionals.next]
  by_cases hlevel : st.cond.level = 0
  · rw [if_pos hlevel, if_pos hlevel]
    constructor <;> rfl
  rw [if_neg hlevel, if_neg hlevel, Conditionals.elifTaken]
  by_cases hallow : st.cond.allow = true
  · rw [if_pos hallow, if_pos hallow]
    constructor <;> rfl
  rw [if_neg hallow, if_neg hallow]
  by_cases hstart : st.cond.level = st.cond.startLevel
  · rw [if_pos hstart, if_pos hstart]
    refine ⟨?_, rfl, rfl, rfl, rfl, rfl, rfl⟩
    rw [← evaluate_truth W st.symbols st.value "Missing expression for #elif.\n"]
  · rw [if_neg hstart, if_neg hstart]
    constructor <;> rfl

theorem elseGroup_only : OnlyConditionals (st.cond.next .els true) st (elseGroup st) := by
  rw [elseGroup, Conditionals.next]
  by_cases hlevel : st.cond.level = 0
  · rw [if_pos (Nat.le_of_eq hlevel), if_pos hlevel]
    constructor <;> rfl
  have hnot : ¬ st.cond.level ≤ 0 := fun h => hlevel (Nat.le_zero.1 h)
  rw [if_neg hnot, if_neg hlevel, Conditionals.elifTaken]
  by_cases hallow : st.cond.allow = true
  · rw [if_pos hallow, if_pos hallow]
    constructor <;> rfl
  rw [if_neg hallow, if_neg hallow]
  by_cases hstart : st.cond.level = st.cond.startLevel
  · rw [if_pos hstart, if_pos hstart]
    constructor <;> rfl
  · rw [if_neg hstart, if_neg hstart]
    constructor <;> rfl

theorem endifGroup_only : OnlyConditionals (st.cond.next .endif true) st (endifGroup st) := by
  rw [endifGroup, Conditionals.next]
  by_cases hlevel : st.cond.level = 0
  · rw [if_pos hlevel, if_pos hlevel]
    constructor <;> rfl
  rw [if_neg hlevel, if_neg hlevel, Conditionals.closed]
  by_cases hstart : st.cond.level - 1 < st.cond.startLevel
  · rw [if_pos hstart, if_pos hstart]
    constructor <;> rfl
  · rw [if_neg hstart, if_neg hstart]
    constructor <;> rfl

/-- A directive that opens a group. -/
def DirectiveName.opens : DirectiveName → Bool
  | ifdef | ifndef | ifCond => true
  | _ => false

/-- A conditional is carried out. -/
theorem carryOut_conditional (W : World σ)
    (hconditional : (directiveName st.id).isConditional = true)
    (hroom : (directiveName st.id).opens = true → st.cond.level < condLines) :
    OnlyConditionals (st.cond.next (directiveName st.id)
      (holds W st.symbols st.value (directiveName st.id))) st (carryOut W st) := by
  rw [carryOut]
  cases hname : directiveName st.id with
  | ifdef =>
      rw [hname] at hroom
      have hopen := openGroup_only (evaluateName W st.symbols st.value true
        "Missing identifier for #ifdef.\n") (hroom rfl)
      rw [evaluateName_truth, beq_true] at hopen
      exact hopen
  | ifndef =>
      rw [hname] at hroom
      have hopen := openGroup_only (evaluateName W st.symbols st.value false
        "Missing identifier for #ifndef.\n") (hroom rfl)
      rw [evaluateName_truth, beq_false] at hopen
      exact hopen
  | ifCond =>
      rw [hname] at hroom
      have hopen := openGroup_only (evaluate W st.symbols st.value
        "Missing expression for #if.\n") (hroom rfl)
      rw [evaluate_truth] at hopen
      exact hopen
  | elif => exact elifGroup_only W
  | els => exact elseGroup_only
  | endif => exact endifGroup_only
  | _ =>
      rw [hname] at hconditional
      cases hconditional

theorem carryOut_other (W : World σ)
    (hother : (directiveName st.id).isConditional = false) : carryOut W st =
      if st.cond.allow then allowedDirective W st (directiveName st.id) else st := by
  rw [carryOut]
  cases hname : directiveName st.id with
  | ifdef | ifndef | ifCond | elif | els | endif =>
      rw [hname] at hother
      cases hother
  | _ => rfl

theorem allowedDirective_keeps (W : World σ) (name : DirectiveName) :
    (allowedDirective W st name).cond = st.cond ∧ (allowedDirective W st name).mode = st.mode ∧
      (allowedDirective W st name).chunk = st.chunk ∧
        st.ns <+: (allowedDirective W st name).ns := by
  cases name with
  | define =>
      rcases hdefine : W.define st.symbols st.value st.comment with ⟨symbols, constant⟩
      cases constant with
      | none =>
          simp only [allowedDirective, hdefine]
          exact ⟨trivial, trivial, trivial, List.prefix_refl _⟩
      | some line =>
          simp only [allowedDirective, hdefine]
          exact ⟨trivial, trivial, trivial, List.prefix_append _ _⟩
  | includeFile => exact ⟨rfl, rfl, rfl, List.prefix_append _ _⟩
  | _ => exact ⟨rfl, rfl, rfl, List.prefix_refl _⟩

/-- What the end of a directive does. -/
structure Ended (W : World σ) (st st' : ParseState σ) : Prop where
  cond : st'.cond = st.cond.next (directiveName st.id)
    (holds W st'.symbols st'.value (directiveName st.id))
  mode : st'.mode = .start
  chunk : st'.chunk = st.chunk
  grows : st.ns <+: st'.ns
  skipped : st.cond.allow = false → OnlyBreaks st.ns st'.ns

theorem next_other {name : DirectiveName} (h : name.isConditional = false) (truth : Bool)
    (c : Conditionals) : c.next name truth = c := by
  cases name with
  | ifdef | ifndef | ifCond | elif | els | endif => cases h
  | _ => rfl

theorem directiveEnd_ended (W : World σ)
    (hroom : (directiveName st.id).opens = true → st.cond.level < condLines) :
    Ended W st (directiveEnd W st) := by
  have hbreaks : ∀ (ns : List Char) (n : Nat), OnlyBreaks ns (ns ++ List.replicate n '\n') :=
    fun ns n => ⟨_, fun c hc => List.eq_of_mem_replicate hc, rfl⟩
  rw [directiveEnd]
  generalize hbegin : { st with value := chop st.value, mode := .start } = begin
  have hfields : begin.id = st.id ∧ begin.cond = st.cond ∧ begin.chunk = st.chunk ∧
      begin.ns = st.ns ∧ begin.mode = .start := by
    subst hbegin
    exact ⟨rfl, rfl, rfl, rfl, rfl⟩
  obtain ⟨hid, hcond, hchunk, hns, hmode⟩ := hfields
  rw [← hid, ← hcond] at hroom
  cases hconditional : (directiveName st.id).isConditional with
  | true =>
      rw [← hid] at hconditional
      have honly := carryOut_conditional W hconditional hroom
      refine ⟨?_, honly.mode.trans hmode, honly.chunk.trans hchunk, ?_, fun _ => ?_⟩
      · show (carryOut W begin).cond = st.cond.next (directiveName st.id)
          (holds W (carryOut W begin).symbols (carryOut W begin).value (directiveName st.id))
        rw [honly.cond, honly.symbols, honly.value, hid, hcond]
      · rw [honly.ns, hns]
        exact List.prefix_append _ _
      · rw [honly.ns, hns]
        exact hbreaks _ _
  | false =>
      have hother := hconditional
      rw [← hid] at hother
      rw [carryOut_other W hother, hcond]
      cases hallow : st.cond.allow with
      | true =>
          obtain ⟨hcond', hmode', hchunk', hns'⟩ :=
            @allowedDirective_keeps σ begin W (directiveName begin.id)
          rw [if_pos rfl]
          refine ⟨?_, hmode'.trans hmode, hchunk'.trans hchunk, ?_, fun hdead => ?_⟩
          · rw [next_other hconditional]
            exact hcond'.trans hcond
          · rw [hns] at hns'
            exact hns'.trans (List.prefix_append _ _)
          · rw [hallow] at hdead
            cases hdead
      | false =>
          rw [if_neg Bool.false_ne_true]
          refine ⟨?_, hmode, hchunk, ?_, fun _ => ?_⟩
          · rw [next_other hconditional]
            exact hcond
          · rw [hns]
            exact List.prefix_append _ _
          · rw [hns]
            exact hbreaks _ _

end Swig4Ada.Preprocessor

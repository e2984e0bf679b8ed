import Swig4Ada.Preprocessor.Indices
import Swig4Ada.Proofs.ExprHistory

/-!
# The indices stay in the arrays (`Preprocessor/Indices.lean`)

The level of the conditionals is followed along the directives of a text. The evaluation
stack is followed along the tokens: `Laid` says which cells hold what is open, and a turn
keeps that.
-/

namespace Swig4Ada.Preprocessor

def InArray (size : Nat) (indices : List Int) : Prop := ∀ i ∈ indices, 0 ≤ i ∧ i < size

theorem inArray_append {size : Nat} {is js : List Int} :
    InArray size (is ++ js) ↔ InArray size is ∧ InArray size js := List.forall_mem_append

theorem inArray_cons {size : Nat} {i : Int} {is : List Int} :
    InArray size (i :: is) ↔ (0 ≤ i ∧ i < size) ∧ InArray size is := List.forall_mem_cons

theorem inArray_nil {size : Nat} : InArray size [] := nofun

/-! ## The lines of conditionals -/

section Conditionals

variable {σ : Type} {W : FileWorld σ} {fs : FileState σ} {c : Char}

theorem parseStep_cond (W : World σ) {st : ParseState σ} (h : st.mode ≠ .directive)
    (hout : st.mode ≠ .outside) :
    (parseStep W st c).1.cond = st.cond ∧ (parseStep W st c).1.mode ≠ .outside := by
  rw [parseStep]
  cases hmode : st.mode
  case directive => exact absurd hmode h
  case outside => exact absurd hmode hout
  all_goals
    dsimp only [putChunk, putValue, putComment, readValue, swigDirective, addChunk]
    repeat' split
    all_goals first
      | exact ⟨rfl, hout⟩
      | exact ⟨rfl, nofun⟩

theorem endInclude_cond (fs : FileState σ) :
    (endInclude W fs).line.cond = fs.line.cond ∧ (endInclude W fs).line.mode ≠ .outside := by
  rw [endInclude]
  split
  · exact ⟨rfl, nofun⟩
  · exact ⟨rfl, nofun⟩

theorem closeBlock_cond (fs : FileState σ) :
    (closeBlock W fs).line.cond = fs.line.cond ∧ (closeBlock W fs).line.mode ≠ .outside := by
  rw [closeBlock]
  split
  · exact ⟨rfl, nofun⟩
  · exact ⟨rfl, nofun⟩

theorem endStatement_cond (fs : FileState σ) (read : List Char)
    (hout : fs.line.mode ≠ .outside) :
    (endStatement W fs read).line.cond = fs.line.cond ∧
      (endStatement W fs read).line.mode ≠ .outside := by
  rw [endStatement]
  simp only
  repeat' split
  all_goals first
    | exact closeBlock_cond _
    | exact ⟨rfl, hout⟩

theorem putBlock_cond (fs : FileState σ) (part : BlockPart) :
    (fs.putBlock c part).line.cond = fs.line.cond ∧
      (fs.putBlock c part).line.mode = fs.line.mode := by
  rw [FileState.putBlock]
  split
  · exact ⟨rfl, rfl⟩
  · exact ⟨rfl, rfl⟩

theorem startFilename_line (fs : FileState σ) : (startFilename fs c).1.line = fs.line := by
  rw [startFilename]
  simp only
  repeat' split
  all_goals rfl

theorem blockStep_cond (hout : fs.line.mode ≠ .outside) :
    (blockStep W fs c).1.line.cond = fs.line.cond ∧
      (blockStep W fs c).1.line.mode ≠ .outside := by
  rw [blockStep]
  cases hpart : fs.part with
  | optionsBlank =>
      simp only
      split
      · exact ⟨rfl, hout⟩
      split
      · exact ⟨rfl, hout⟩
      · rw [startFilename_line]
        exact ⟨rfl, hout⟩
  | options level =>
      simp only
      split
      · exact ⟨rfl, hout⟩
      split
      · exact ⟨rfl, hout⟩
      · exact ⟨rfl, hout⟩
  | filenameBlank =>
      simp only
      split
      · exact ⟨rfl, hout⟩
      · rw [startFilename_line]
        exact ⟨rfl, hout⟩
  | filename close =>
      simp only
      split
      · exact endInclude_cond fs
      · exact ⟨rfl, hout⟩
  | bareFilename =>
      simp only
      split
      · exact endInclude_cond fs
      · exact ⟨rfl, hout⟩
  | body =>
      have hput := putBlock_cond (c := c) fs (if c = '%' then .statement [] else .body)
      exact ⟨hput.1, fun h => hout (hput.2.symm.trans h)⟩
  | statement read =>
      have hput := fun part => putBlock_cond (c := c) fs part
      exact ⟨(hput _).1, fun h => hout ((hput _).2.symm.trans h)⟩
  | statementEnd read =>
      simp only
      split
      · exact endStatement_cond fs read hout
      · exact ⟨rfl, hout⟩

theorem openBlock_cond (fs : FileState σ) (hout : fs.line.mode ≠ .outside) :
    (openBlock W fs).line.cond = fs.line.cond ∧ (openBlock W fs).line.mode ≠ .outside := by
  rw [openBlock]
  simp only [addChunk]
  split
  · exact ⟨rfl, hout⟩
  split
  · exact ⟨rfl, hout⟩
  split
  · exact ⟨rfl, hout⟩
  · exact ⟨rfl, nofun⟩

/-- Only the end of a directive changes what is open. -/
theorem fileStep_cond (h : fs.line.mode ≠ .directive) (hout : fs.line.mode ≠ .outside) :
    (fileStep W fs c).1.line.cond = fs.line.cond ∧
      (fileStep W fs c).1.line.mode ≠ .outside := by
  rw [fileStep]
  split
  · exact blockStep_cond hout
  · obtain ⟨hcond, hmode⟩ := parseStep_cond (c := c) W.toWorld h hout
    simp only
    split
    · obtain ⟨hcond', hmode'⟩ :=
        openBlock_cond (W := W) (fs.withLine (parseStep W.toWorld fs.line c).1) hmode
      exact ⟨hcond'.trans hcond, hmode'⟩
    · exact ⟨hcond, hmode⟩

/-! ### The end of a directive -/

theorem openGroup_level (st : ParseState σ) (condition : Bool × List Report)
    (hroom : st.cond.level < condLines) :
    (openGroup st condition).cond.level = st.cond.level + 1 ∧
      (openGroup st condition).mode = st.mode := by
  rw [openGroup, if_pos hroom]
  simp only
  split
  · exact ⟨rfl, rfl⟩
  · exact ⟨rfl, rfl⟩

theorem elifGroup_level (W : World σ) (st : ParseState σ) :
    (elifGroup W st).cond.level = st.cond.level ∧ (elifGroup W st).mode = st.mode := by
  rw [elifGroup]
  repeat' split
  all_goals exact ⟨rfl, rfl⟩

theorem elseGroup_level (st : ParseState σ) :
    (elseGroup st).cond.level = st.cond.level ∧ (elseGroup st).mode = st.mode := by
  rw [elseGroup]
  simp only
  repeat' split
  all_goals exact ⟨rfl, rfl⟩

theorem endifGroup_level (st : ParseState σ) :
    (endifGroup st).cond.level = st.cond.level - 1 ∧ (endifGroup st).mode = st.mode := by
  rw [endifGroup]
  simp only
  split
  · refine ⟨?_, rfl⟩
    show st.cond.level = st.cond.level - 1
    omega
  split
  · exact ⟨rfl, rfl⟩
  · exact ⟨rfl, rfl⟩

theorem allowedDirective_level (W : World σ) (st : ParseState σ) (name : DirectiveName) :
    (allowedDirective W st name).cond = st.cond ∧
      (allowedDirective W st name).mode = st.mode := by
  cases name
  case define =>
    simp only [allowedDirective]
    split
    · exact ⟨rfl, rfl⟩
    · exact ⟨rfl, rfl⟩
  all_goals exact ⟨rfl, rfl⟩

theorem carryOut_level (W : World σ) (st : ParseState σ)
    (hroom : openBehind st.cond.level (directiveName st.id) ≤ condLines) :
    (carryOut W st).cond.level = openBehind st.cond.level (directiveName st.id) ∧
      (carryOut W st).mode = st.mode := by
  rw [carryOut]
  cases hname : directiveName st.id <;> rw [hname] at hroom
  case ifdef | ifndef | ifCond => exact openGroup_level st _ hroom
  case elif => exact elifGroup_level W st
  case els => exact elseGroup_level st
  case endif => exact endifGroup_level st
  all_goals
    simp only
    split
    · obtain ⟨hcond, hmode⟩ := allowedDirective_level W st (directiveName st.id)
      rw [hname] at hcond hmode
      exact ⟨congrArg Conditionals.level hcond, hmode⟩
    · exact ⟨rfl, rfl⟩

/-- A directive uses a cell behind the array if it opens a conditional too many. -/
theorem directiveIndices_iff (st : ParseState σ) (hlevel : st.cond.level ≤ condLines) :
    InArray condLines (directiveIndices st) ↔
      openBehind st.cond.level (directiveName st.id) ≤ condLines := by
  rw [directiveIndices]
  cases directiveName st.id
  case ifdef | ifndef | ifCond =>
    simp only [inArray_cons, openBehind]
    refine ⟨fun h => ?_, fun h => ⟨?_, inArray_nil⟩⟩
    · omega
    · omega
  case els | elif =>
    refine ⟨fun _ => hlevel, fun _ => ?_⟩
    simp only
    split
    · exact inArray_nil
    · rw [inArray_cons]
      refine ⟨?_, inArray_nil⟩
      omega
  case endif =>
    refine ⟨fun _ => ?_, fun _ => inArray_nil⟩
    show st.cond.level - 1 ≤ condLines
    omega
  all_goals exact ⟨fun _ => hlevel, fun _ => inArray_nil⟩

theorem directiveEnd_level (W : World σ) (st : ParseState σ)
    (hroom : openBehind st.cond.level (directiveName st.id) ≤ condLines) :
    (directiveEnd W st).cond.level = openBehind st.cond.level (directiveName st.id) ∧
      (directiveEnd W st).mode = .start :=
  carryOut_level W { st with value := chop st.value, mode := .start } hroom

/-! ### The text -/

theorem fileStep_directive (h : fs.line.mode = .directive)
    (hroom : openBehind fs.line.cond.level (directiveName fs.line.id) ≤ condLines) :
    fileStep W fs c = (fs.withLine (directiveEnd W.toWorld fs.line), false) := by
  have hstep : parseStep W.toWorld fs.line c = (directiveEnd W.toWorld fs.line, false) := by
    simp only [parseStep, h]
  have hmode := (directiveEnd_level W.toWorld fs.line hroom).2
  rw [fileStep, if_neg (by rw [h]; exact nofun), hstep]
  exact if_neg (by rw [hmode]; exact nofun)

theorem fileStep_directive_again (h : fs.line.mode = .directive) :
    (fileStep W fs c).2 = false := by
  have hstep : parseStep W.toWorld fs.line c = (directiveEnd W.toWorld fs.line, false) := by
    simp only [parseStep, h]
  rw [fileStep, if_neg (by rw [h]; exact nofun), hstep]
  simp only
  split
  · rfl
  · rfl

/-- While a character is read the cells are in the array as long as there is room for what
is opened, and then the level counts what is open. -/
theorem charIndices_cases {n : Nat} (hlevel : fs.line.cond.level ≤ condLines)
    (hout : fs.line.mode ≠ .outside) :
    (¬ InArray condLines (charIndices W n fs c) ∧
        condLines < (charDirectives W n fs c).foldl openBehind fs.line.cond.level) ∨
      InArray condLines (charIndices W n fs c) ∧
        (∀ p t, charDirectives W n fs c = p ++ t →
          p.foldl openBehind fs.line.cond.level ≤ condLines) ∧
        (readFileChar W n fs c).line.cond.level =
          (charDirectives W n fs c).foldl openBehind fs.line.cond.level ∧
        (readFileChar W n fs c).line.mode ≠ .outside := by
  induction n generalizing fs with
  | zero =>
      refine Or.inr ⟨inArray_nil, fun p t h => ?_, rfl, hout⟩
      obtain ⟨rfl, -⟩ := List.append_eq_nil_iff.1 h.symm
      exact hlevel
  | succ n ih =>
      rw [charIndices, charDirectives, readFileChar]
      by_cases hmode : fs.line.mode = .directive
      · rw [if_pos hmode, if_pos hmode]
        rcases hstep : fileStep W fs c with ⟨fs', again⟩
        obtain rfl : again = false := by
          have := fileStep_directive_again (W := W) (c := c) hmode
          rwa [hstep] at this
        simp only [Bool.false_eq_true, if_false, List.append_nil]
        rw [directiveIndices_iff fs.line hlevel]
        by_cases hroom : openBehind fs.line.cond.level (directiveName fs.line.id) ≤ condLines
        · obtain ⟨hlevel', hmode'⟩ := directiveEnd_level W.toWorld fs.line hroom
          rw [fileStep_directive hmode hroom] at hstep
          obtain rfl : fs.withLine _ = fs' := congrArg Prod.fst hstep
          refine Or.inr ⟨hroom, fun p t h => ?_, hlevel', ?_⟩
          · rcases List.append_eq_singleton_iff.1 h.symm with ⟨rfl, -⟩ | ⟨rfl, -⟩
            · exact hlevel
            · exact hroom
          · show (directiveEnd W.toWorld fs.line).mode ≠ .outside
            rw [hmode']
            exact nofun
        · exact Or.inl ⟨hroom, Nat.lt_of_not_le hroom⟩
      · rw [if_neg hmode, if_neg hmode, List.nil_append, List.nil_append]
        obtain ⟨hcond, hmode'⟩ := fileStep_cond (W := W) (c := c) hmode hout
        rcases hstep : fileStep W fs c with ⟨fs', again⟩
        rw [hstep] at hcond hmode'
        cases again with
        | false =>
            simp only [Bool.false_eq_true, if_false]
            refine Or.inr ⟨inArray_nil, fun p t h => ?_, congrArg Conditionals.level hcond, hmode'⟩
            obtain ⟨rfl, -⟩ := List.append_eq_nil_iff.1 h.symm
            exact hlevel
        | true =>
            simp only [if_true]
            have hrest := ih (by rw [hcond]; exact hlevel) hmode'
            rwa [hcond] at hrest

theorem openIndices_inArray {level : Nat} (h : level ≤ condLines) :
    InArray condLines (openIndices level) := by
  induction level with
  | zero => exact inArray_nil
  | succ level ih =>
      rw [openIndices, inArray_cons]
      refine ⟨?_, ih (by omega)⟩
      omega

theorem textIndices_iff (hlevel : fs.line.cond.level ≤ condLines)
    (hout : fs.line.mode ≠ .outside) (s : List Char) :
    InArray condLines (textIndices W fs s) ↔
      ∀ p t, textDirectives W fs s = p ++ t →
        p.foldl openBehind fs.line.cond.level ≤ condLines := by
  induction s generalizing fs with
  | nil =>
      refine ⟨fun _ p t h => ?_, fun _ => openIndices_inArray hlevel⟩
      obtain ⟨rfl, -⟩ := List.append_eq_nil_iff.1 h.symm
      exact hlevel
  | cons c s ih =>
      rw [textIndices, textDirectives, inArray_append]
      rcases charIndices_cases (W := W) (c := c) (n := 3) hlevel hout with
        ⟨hbad, hfull⟩ | ⟨hgood, hroom, hlevel', hmode'⟩
      · refine ⟨fun h => absurd h.1 hbad, fun h => ?_⟩
        have := h _ _ rfl
        omega
      · have hlast := hroom _ [] (List.append_nil _).symm
        have hrest := ih (hlevel'.trans_le hlast) hmode'
        rw [hrest, hlevel']
        refine ⟨fun h p t hp => ?_, fun h => ⟨hgood, fun p t hp => ?_⟩⟩
        · rcases List.append_eq_append_iff.1 hp with ⟨p', rfl, hp'⟩ | ⟨t', hd, ht'⟩
          · rw [List.foldl_append]
            exact h.2 p' t hp'
          · exact hroom p t' hd
        · rw [← List.foldl_append]
          exact h _ t (by rw [hp, List.append_assoc])

theorem condIndices_iff (W : FileWorld σ) (symbols : σ) (s : List Char) :
    InArray condLines (condIndices W symbols s) ↔ CondLinesSuffice W symbols s :=
  textIndices_iff (Nat.zero_le _) (show Mode.start ≠ .outside from nofun) _

end Conditionals

/-! ## The evaluation stack -/

section Stack

variable {α σ : Type} {A : Arithmetic α} {S : StringField σ} {st st' : State α σ}

/-- The cells below `k` hold what is open. -/
def Laid (stack : Stack α σ) : List Mark → Nat → Prop
  | [], k => k = 0
  | mark :: marks, k =>
      ∃ j, k = j + mark.cells ∧ Laid stack marks j ∧
        match mark with
        | .group => (stack j).op = .group
        | .op o => (stack (k - 1)).op = .op ∧ (stack (k - 1)).token = o

theorem Mark.cells_pos (mark : Mark) : 0 < mark.cells := by
  cases mark with
  | group => exact Nat.one_pos
  | op o =>
      rw [Mark.cells]
      split
      · omega
      · omega

theorem Mark.cells_unary {o : ExprOp} (h : isUnaryOp o = true) : (Mark.op o).cells = 1 := if_pos h

theorem Mark.cells_binary {o : ExprOp} (h : ¬ isUnaryOp o = true) : (Mark.op o).cells = 2 :=
  if_neg h

theorem Laid.congr {stack stack' : Stack α σ} {marks : List Mark} {k : Nat}
    (h : Laid stack marks k) (hsame : ∀ i < k, stack' i = stack i) : Laid stack' marks k := by
  induction marks generalizing k with
  | nil => exact h
  | cons mark marks ih =>
      obtain ⟨j, rfl, hrest, hmark⟩ := h
      have hpos := mark.cells_pos
      refine ⟨j, rfl, ih hrest fun i hi => hsame i (by omega), ?_⟩
      cases mark with
      | group =>
          show (stack' j).op = .group
          rw [hsame j (by omega)]
          exact hmark
      | op o =>
          show (stack' _).op = .op ∧ (stack' _).token = o
          rw [hsame _ (by omega)]
          exact hmark

theorem Laid.sum {stack : Stack α σ} {marks : List Mark} {k : Nat} (h : Laid stack marks k) :
    k = (marks.map Mark.cells).sum := by
  induction marks generalizing k with
  | nil => exact h
  | cons mark marks ih =>
      obtain ⟨j, rfl, hrest, -⟩ := h
      rw [List.map_cons, List.sum_cons, ← ih hrest, Nat.add_comm]

/-- The array holds what is open, and the top is what comes next. -/
structure Shaped (shape : Shape) (st : State α σ) : Prop where
  laid : Laid st.stack shape.marks st.sp
  top : (st.stack st.sp).op = if shape.value then .value else .top

theorem Shaped.cells {shape : Shape} (h : Shaped shape st) : st.sp = shape.cells := h.laid.sum

/-! ### Reductions -/

/-- What a reduction leaves. -/
structure Reduced (st st' : State α σ) (o : ExprOp) : Prop where
  sp : st.sp = st'.sp + (Mark.op o).cells
  top : (st'.stack st'.sp).op = .value
  below : ∀ i < st'.sp, st'.stack i = st.stack i

theorem reduced_reduced {k : Nat} {v : α} {o : ExprOp} (hk : st.sp = k + (Mark.op o).cells) :
    Reduced st (reduced S st k v) o := by
  refine ⟨hk, by simp only [reduced, State.modify_stack, if_pos], fun i hi => ?_⟩
  have hne : i ≠ k := Nat.ne_of_lt hi
  simp only [reduced, State.modify_stack, if_neg hne]

theorem bind_eq_ok {β γ : Type} {x : Run α σ β} {f : β → Run α σ γ} {r : γ}
    (h : x >>= f = .ok r) : ∃ a, x = .ok a ∧ f a = .ok r := by
  cases x with
  | error e => exact nomatch h
  | ok a => exact ⟨a, rfl, h⟩

theorem reduceUnaryNumber_reduced {o : ExprOp} (hsp : st.sp = st.sp - 1 + (Mark.op o).cells)
    (h : reduceUnaryNumber A S st o = .ok st') : Reduced st st' o := by
  rw [reduceUnaryNumber] at h
  cases hv : A.unary o (st.cell st.sp).value with
  | none =>
      rw [hv] at h
      cases h
  | some v =>
      rw [hv] at h
      obtain rfl := Except.ok.inj h
      exact reduced_reduced hsp

theorem reduceNumbers_reduced {o : ExprOp} (hsp : st.sp = st.sp - 2 + (Mark.op o).cells)
    (h : reduceNumbers A S st o = .ok st') : Reduced st st' o := by
  unfold reduceNumbers at h
  simp only at h
  split at h
  · exact nomatch h
  split at h
  · exact nomatch h
  split at h
  · obtain rfl := Except.ok.inj h
    exact reduced_reduced hsp
  · exact nomatch h

theorem reduceStrings_reduced {o : ExprOp} (hsp : st.sp = st.sp - 2 + (Mark.op o).cells)
    (h : reduceStrings A S st o = .ok st') : Reduced st st' o := by
  unfold reduceStrings at h
  simp only at h
  split at h
  · obtain ⟨same, -, hsame⟩ := bind_eq_ok h
    obtain rfl := Except.ok.inj hsame
    have hpos := (Mark.op o).cells_pos
    obtain ⟨hsp', htop, hbelow⟩ :
        Reduced (st.modify st.sp fun c => { c with svalue := S.deleted c.svalue })
          (reduced S (st.modify st.sp fun c => { c with svalue := S.deleted c.svalue }) (st.sp - 2)
            (A.ofLong (if same = (o = .equalTo) then 1 else 0))) o := reduced_reduced hsp
    refine ⟨hsp', htop, fun i hi => (hbelow i hi).trans ?_⟩
    have hi : i < st.sp - 2 := hi
    rw [State.modify_stack, if_neg (by omega)]
  · exact nomatch h

/-- A reduction takes the operator and its left operand away. -/
theorem reduceOp_reduced (hpos : 0 < st.sp) (h : reduceOp A S st = .ok st') :
    Reduced st st' (st.stack (st.sp - 1)).token := by
  unfold reduceOp at h
  simp only at h
  by_cases hval : (st.cell st.sp).op ≠ .value
  · rw [if_pos hval] at h
    exact nomatch h
  rw [if_neg hval] at h
  obtain ⟨rightIsString, -, h⟩ := bind_eq_ok h
  split at h
  next hun =>
    split at h
    · exact nomatch h
    · refine reduceUnaryNumber_reduced ?_ h
      have hcells : (Mark.op (st.stack (st.sp - 1)).token).cells = 1 := Mark.cells_unary hun
      omega
  next hbin =>
    split at h
    · exact nomatch h
    next hone =>
      have hsp : st.sp = st.sp - 2 + (Mark.op (st.stack (st.sp - 1)).token).cells := by
        have hcells := Mark.cells_binary hbin
        change (Mark.op (st.stack (st.sp - 1)).token).cells = 2 at hcells
        omega
      obtain ⟨leftIsString, -, h⟩ := bind_eq_ok h
      split at h
      · exact nomatch h
      split at h
      · exact reduceStrings_reduced hsp h
      · exact reduceNumbers_reduced hsp h

theorem Shaped.reduce {shape : Shape} {o : ExprOp} {marks : List Mark} (h : Shaped shape st)
    (hmarks : shape.marks = .op o :: marks) (hreduce : reduceOp A S st = .ok st') :
    Shaped ⟨marks, true⟩ st' := by
  have hlaid := h.laid
  rw [hmarks] at hlaid
  obtain ⟨j, hj, hrest, -, htoken⟩ := hlaid
  have hpos := (Mark.op o).cells_pos
  obtain ⟨hsp, htop, hbelow⟩ := reduceOp_reduced (by omega) hreduce
  rw [htoken] at hsp
  obtain rfl : st'.sp = j := by omega
  exact ⟨hrest.congr hbelow, htop⟩

theorem Shaped.top_group {shape : Shape} {marks : List Mark} (h : Shaped shape st)
    (hmarks : shape.marks = .group :: marks) :
    0 < st.sp ∧ (st.stack (st.sp - 1)).op = .group ∧ Laid st.stack marks (st.sp - 1) := by
  have hlaid := h.laid
  rw [hmarks] at hlaid
  obtain ⟨j, hj, hrest, hgroup⟩ := hlaid
  have hone : Mark.group.cells = 1 := rfl
  obtain rfl : st.sp - 1 = j := by omega
  exact ⟨by omega, hgroup, hrest⟩

theorem Shaped.top_op {shape : Shape} {o : ExprOp} {marks : List Mark} (h : Shaped shape st)
    (hmarks : shape.marks = .op o :: marks) :
    0 < st.sp ∧ (st.stack (st.sp - 1)).op = .op ∧ (st.stack (st.sp - 1)).token = o := by
  have hlaid := h.laid
  rw [hmarks] at hlaid
  obtain ⟨j, hj, -, hop, htoken⟩ := hlaid
  have hpos := (Mark.op o).cells_pos
  exact ⟨by omega, hop, htoken⟩

theorem Shaped.top_nil {shape : Shape} (h : Shaped shape st) (hmarks : shape.marks = []) :
    st.sp = 0 := by
  have hlaid := h.laid
  rw [hmarks] at hlaid
  exact hlaid

/-- The loops reduce down to the last open parenthesis. -/
theorem Shaped.reduceAll {fuel : Nat} {marks : List Mark} (h : Shaped ⟨marks, true⟩ st)
    (hfuel : st.sp ≤ fuel) (hreduce : reduceAll A S fuel st = .ok st') :
    Shaped ⟨marks.dropWhile (· ≠ .group), true⟩ st' := by
  induction fuel generalizing st marks with
  | zero =>
      obtain rfl := Except.ok.inj hreduce
      cases marks with
      | nil => exact h
      | cons mark marks =>
          have hpos := mark.cells_pos
          obtain ⟨j, hj, -⟩ := h.laid
          omega
  | succ fuel ih =>
      rw [Preprocessor.reduceAll] at hreduce
      cases marks with
      | nil =>
          rw [if_neg (by rw [h.top_nil rfl]; exact fun hno => absurd hno.1 (Nat.lt_irrefl 0))]
            at hreduce
          obtain rfl := Except.ok.inj hreduce
          exact h
      | cons mark marks =>
          cases mark with
          | group =>
              have hgroup : (st.cell (st.sp - 1)).op = .group := (h.top_group rfl).2.1
              rw [if_neg (by rw [hgroup]; rintro ⟨-, hno⟩; cases hno)] at hreduce
              obtain rfl := Except.ok.inj hreduce
              exact h
          | op o =>
              obtain ⟨hpos, hop, -⟩ := h.top_op rfl
              rw [if_pos ⟨hpos, hop⟩] at hreduce
              obtain ⟨st₁, hone, hrest⟩ := bind_eq_ok hreduce
              have hreduced := reduceOp_reduced hpos hone
              have hless := (Mark.op (st.stack (st.sp - 1)).token).cells_pos
              have hsp := hreduced.sp
              have hnext : Shaped ⟨marks, true⟩ st₁ := h.reduce rfl hone
              rw [List.dropWhile_cons_of_pos (by simp)]
              exact ih hnext (by omega) hrest

theorem reduceIndices_inArray (hpos : 0 < st.sp) (hsp : st.sp < stackSize) :
    InArray stackSize (reduceIndices st) := by
  have hsize : stackSize = 256 := rfl
  rw [reduceIndices, inArray_append, inArray_cons, inArray_cons]
  refine ⟨⟨by omega, by omega, inArray_nil⟩, ?_⟩
  split
  next hbinary =>
    obtain ⟨-, -, hone⟩ := hbinary
    rw [inArray_cons]
    exact ⟨by omega, inArray_nil⟩
  next => exact inArray_nil

theorem reduceAllIndices_inArray {fuel : Nat} (hsp : st.sp < stackSize) :
    InArray stackSize (reduceAllIndices A S fuel st) := by
  induction fuel generalizing st with
  | zero => exact inArray_nil
  | succ fuel ih =>
      rw [reduceAllIndices]
      split
      next hpos =>
        rw [inArray_cons]
        refine ⟨by omega, ?_⟩
        split
        · rw [inArray_append]
          refine ⟨reduceIndices_inArray hpos hsp, ?_⟩
          cases hreduce : reduceOp A S st with
          | error e => exact inArray_nil
          | ok st₁ =>
              have hreduced := (reduceOp_reduced hpos hreduce).sp
              exact ih (by omega)
        · exact inArray_nil
      next => exact inArray_nil

theorem reduceAll_sp {fuel : Nat} (h : reduceAll A S fuel st = .ok st') : st'.sp ≤ st.sp := by
  induction fuel generalizing st with
  | zero =>
      obtain rfl := Except.ok.inj h
      exact le_refl _
  | succ fuel ih =>
      rw [reduceAll] at h
      split at h
      next hpos =>
        obtain ⟨st₁, hone, hrest⟩ := bind_eq_ok h
        have hreduced := (reduceOp_reduced hpos.1 hone).sp
        have := ih hrest
        omega
      next =>
        obtain rfl := Except.ok.inj h
        exact le_refl _

/-! ### Turns -/

theorem Shaped.push {shape : Shape} {mark : Mark} (h : Shaped shape st)
    (hsp : st'.sp = st.sp + mark.cells) (hbelow : ∀ i < st.sp, st'.stack i = st.stack i)
    (hmark : match mark with
      | .group => (st'.stack st.sp).op = .group
      | .op o => (st'.stack (st'.sp - 1)).op = .op ∧ (st'.stack (st'.sp - 1)).token = o)
    (htop : (st'.stack st'.sp).op = .top) : Shaped ⟨mark :: shape.marks, false⟩ st' := by
  refine ⟨⟨st.sp, hsp, h.laid.congr hbelow, ?_⟩, htop⟩
  cases mark with
  | group => exact hmark
  | op o => exact hmark

theorem Shaped.settle {shape : Shape} (h : Shaped shape st) (hsp : st'.sp = st.sp)
    (hbelow : ∀ i < st.sp, st'.stack i = st.stack i) (htop : (st'.stack st.sp).op = .value) :
    Shaped ⟨shape.marks, true⟩ st' := by
  refine ⟨?_, ?_⟩
  · rw [hsp]
    exact h.laid.congr hbelow
  · rw [hsp]
    exact htop

theorem cells_cons (mark : Mark) (marks : List Mark) (value value' : Bool) :
    Shape.cells ⟨mark :: marks, value⟩ = mark.cells + Shape.cells ⟨marks, value'⟩ := by
  rw [Shape.cells, Shape.cells, List.map_cons, List.sum_cons]

theorem Shaped.setTop {shape : Shape} (h : Shaped shape st) (f : Cell α σ → Cell α σ)
    (hf : ∀ c, (f c).op = .value) : Shaped ⟨shape.marks, true⟩ (st.modify st.sp f) := by
  refine h.settle rfl (fun i hi => ?_) ?_
  · rw [State.modify_stack, if_neg (by omega)]
  · rw [State.modify_stack, if_pos rfl]
    exact hf _

theorem pushUnary_shaped {shape : Shape} {u : ExprOp} (hu : isUnaryOp u = true)
    (h : Shaped shape st) (hpush : pushUnary S st u = .ok st') :
    Shaped ⟨.op u :: shape.marks, false⟩ st' ∧ st'.sp < stackSize := by
  rw [pushUnary_eq] at hpush
  simp only at hpush
  split at hpush
  next hroom =>
    obtain rfl := Except.ok.inj hpush
    refine ⟨h.push (by rw [Mark.cells_unary hu]; rfl) (fun i hi => ?_) ⟨?_, ?_⟩ ?_, hroom⟩
    · simp only [State.modify_stack, State.modify_sp]
      rw [if_neg (by omega), if_neg (by omega)]
    · simp [State.modify_stack]
    · simp [State.modify_stack]
    · simp [State.modify_stack]
  next => exact nomatch hpush

theorem openParen_shaped {shape : Shape} (h : Shaped shape st)
    (hpush : readOperand A S st .lparen = .ok st') :
    Shaped ⟨.group :: shape.marks, false⟩ st' ∧ st'.sp < stackSize := by
  rw [openParen_eq] at hpush
  simp only at hpush
  split at hpush
  next hroom =>
    obtain rfl := Except.ok.inj hpush
    refine ⟨h.push rfl (fun i hi => ?_) ?_ ?_, hroom⟩
    · simp only [State.modify_stack, State.modify_sp]
      rw [if_neg (by omega), if_neg (by omega)]
    · simp [State.modify_stack]
    · simp [State.modify_stack]
  next => exact nomatch hpush

theorem pushBinary_shaped {shape : Shape} {o : ExprOp} (ho : ¬ isUnaryOp o = true)
    (h : Shaped shape st) (hpush : pushBinary A st o = .ok st') :
    Shaped ⟨.op o :: shape.marks, false⟩ st' ∧ st'.sp < stackSize := by
  rw [pushBinary_eq] at hpush
  simp only at hpush
  split at hpush
  next hroom =>
    split at hpush
    next hroom' =>
      obtain rfl := Except.ok.inj hpush
      refine ⟨h.push (by rw [Mark.cells_binary ho]) (fun i hi => ?_) ⟨?_, ?_⟩ ?_, hroom'⟩
      · simp only [State.modify_stack]
        rw [if_neg (by omega), if_neg (by omega)]
      · simp [State.modify_stack]
      · simp [State.modify_stack]
      · simp [State.modify_stack]
    next => exact nomatch hpush
  next => exact nomatch hpush

theorem readOperand_shaped {marks : List Mark} {token : Token} (h : Shaped ⟨marks, false⟩ st)
    (hsp : st.sp < stackSize) (hread : readOperand A S st token = .ok st') :
    Shaped (Shape.next ⟨marks, false⟩ token) st' ∧ st'.sp < stackSize := by
  cases token with
  | number kind text =>
      cases kind
      case int | uint | long | ulong =>
        obtain rfl := Except.ok.inj hread
        exact ⟨h.setTop _ fun _ => rfl, hsp⟩
      all_goals exact nomatch hread
  | string text | id =>
      obtain rfl := Except.ok.inj hread
      exact ⟨h.setTop _ fun _ => rfl, hsp⟩
  | lparen => exact openParen_shaped h hread
  | op o =>
      cases o
      case plus =>
        obtain rfl := Except.ok.inj hread
        exact ⟨h, hsp⟩
      case minus | lnot | not => exact pushUnary_shaped rfl h hread
      all_goals exact nomatch hread
  | _ => exact nomatch hread

theorem operandIndices_iff {marks : List Mark} {token : Token} (h : Shaped ⟨marks, false⟩ st)
    (hsp : st.sp < stackSize) :
    InArray stackSize (operandIndices st token) ↔
      (Shape.next ⟨marks, false⟩ token).cells < stackSize := by
  have hcells := h.cells
  have hopen : ∀ mark : Mark, mark.cells = 1 → (InArray stackSize [(st.sp : Int), (st.sp : Int) + 1] ↔
      Shape.cells ⟨mark :: marks, false⟩ < stackSize) := by
    intro mark hmark
    rw [cells_cons mark marks false false, hmark, ← hcells, inArray_cons, inArray_cons]
    refine ⟨fun hin => ?_, fun hless => ⟨?_, ?_, inArray_nil⟩⟩
    · omega
    · omega
    · omega
  have hstay : InArray stackSize [(st.sp : Int)] ↔ Shape.cells ⟨marks, false⟩ < stackSize := by
    rw [← hcells, inArray_cons]
    refine ⟨fun _ => hsp, fun _ => ⟨?_, inArray_nil⟩⟩
    omega
  cases token with
  | lparen => exact hopen .group rfl
  | op o =>
      cases o
      case minus => exact hopen (.op .uminus) rfl
      case lnot => exact hopen (.op .lnot) rfl
      case not => exact hopen (.op .not) rfl
      all_goals exact hstay
  | _ => exact hstay

/-- The state in which a binary operator is pushed. -/
theorem readOperator_binary {o : ExprOp} (ho : ¬ isUnaryOp o = true) :
    readOperator A S st (.op o) =
      if st.sp = 0 ∨ (st.cell (st.sp - 1)).op = .group then pushBinary A st o
      else if (st.cell (st.sp - 1)).op ≠ .op then st.fail "Syntax error: expected operator"
      else if prec (st.cell (st.sp - 1)).token ≤ prec o then
        reduceOp A S st >>= fun st => pushBinary A st o
      else pushBinary A st o := if_neg ho

theorem readOperator_shaped {marks : List Mark} {o : ExprOp} (h : Shaped ⟨marks, true⟩ st)
    (hread : readOperator A S st (.op o) = .ok st') :
    Shaped (Shape.next ⟨marks, true⟩ (.op o)) st' ∧ st'.sp < stackSize := by
  by_cases ho : isUnaryOp o = true
  · rw [readOperator, if_pos ho] at hread
    cases hread
  have hnext : Shape.next ⟨marks, true⟩ (.op o) =
      ⟨.op o :: Shape.afterOperand marks o, false⟩ := if_neg ho
  rw [hnext]
  rw [readOperator_binary ho] at hread
  cases marks with
  | nil =>
      rw [if_pos (Or.inl (h.top_nil rfl))] at hread
      exact pushBinary_shaped ho h hread
  | cons mark marks =>
      cases mark with
      | group =>
          have hgroup : (st.cell (st.sp - 1)).op = .group := (h.top_group rfl).2.1
          rw [if_pos (Or.inr hgroup)] at hread
          exact pushBinary_shaped ho h hread
      | op o' =>
          obtain ⟨hpos, hop, htoken⟩ := h.top_op rfl
          have hop' : (st.cell (st.sp - 1)).op = .op := hop
          have htoken' : (st.cell (st.sp - 1)).token = o' := htoken
          rw [if_neg (by rw [hop']; rintro (hzero | hgroup); omega; cases hgroup),
            if_neg (not_not.2 hop'), htoken'] at hread
          by_cases hprec : prec o' ≤ prec o
          · rw [if_pos hprec] at hread
            obtain ⟨st₁, hone, hpush⟩ := bind_eq_ok hread
            have hnext : Shaped ⟨marks, true⟩ st₁ := h.reduce rfl hone
            rw [show Shape.afterOperand (.op o' :: marks) o = marks from if_pos hprec]
            exact pushBinary_shaped ho hnext hpush
          · rw [if_neg hprec] at hread
            rw [show Shape.afterOperand (.op o' :: marks) o = .op o' :: marks from if_neg hprec]
            exact pushBinary_shaped ho h hread

theorem pushed_iff {o : ExprOp} {shape : Shape} (ho : ¬ isUnaryOp o = true) (h : Shaped shape st) :
    InArray stackSize [(st.sp : Int) + 1, (st.sp : Int) + 2] ↔
      Shape.cells ⟨.op o :: shape.marks, false⟩ < stackSize := by
  rw [cells_cons _ shape.marks false shape.value, Mark.cells_binary ho,
    show Shape.cells ⟨shape.marks, shape.value⟩ = st.sp from h.cells.symm, inArray_cons,
    inArray_cons]
  refine ⟨fun hin => ?_, fun hless => ⟨?_, ?_, inArray_nil⟩⟩
  · omega
  · omega
  · omega

theorem operatorIndices_iff {marks : List Mark} {o : ExprOp} (h : Shaped ⟨marks, true⟩ st)
    (hsp : st.sp < stackSize) :
    InArray stackSize (operatorIndices A S st o) ↔
      (ReducesFor A S st (.op o) → (Shape.next ⟨marks, true⟩ (.op o)).cells < stackSize) := by
  have hcells := h.cells
  rw [operatorIndices]
  simp only
  by_cases ho : isUnaryOp o = true
  · rw [if_pos ho, show Shape.next ⟨marks, true⟩ (.op o) = ⟨marks, true⟩ from if_pos ho, ← hcells]
    exact ⟨fun _ _ => hsp, fun _ => inArray_nil⟩
  have hnext : Shape.next ⟨marks, true⟩ (.op o) =
      ⟨.op o :: Shape.afterOperand marks o, false⟩ := if_neg ho
  rw [if_neg ho, hnext]
  have hone : 0 < st.sp → 0 ≤ (st.sp : Int) - 1 ∧ (st.sp : Int) - 1 < (stackSize : Nat) := by
    intro hpos
    omega
  cases marks with
  | nil =>
      have hzero := h.top_nil rfl
      have hfor : ReducesFor A S st (.op o) := by
        intro _ _ hvalue hop
        rw [hzero] at hvalue hop
        exact nomatch hvalue.symm.trans hop
      rw [if_pos hzero]
      exact ⟨fun hin _ => (pushed_iff ho h).1 hin, fun hless => (pushed_iff ho h).2 (hless hfor)⟩
  | cons mark marks =>
      cases mark with
      | group =>
          obtain ⟨hpos, hgroup, -⟩ := h.top_group rfl
          have hgroup' : (st.cell (st.sp - 1)).op = .group := hgroup
          have hfor : ReducesFor A S st (.op o) := by
            intro _ _ _ hop
            exact nomatch hgroup'.symm.trans hop
          rw [if_neg (by omega), if_pos hgroup', inArray_cons]
          exact ⟨fun hin _ => (pushed_iff ho h).1 hin.2,
            fun hless => ⟨hone hpos, (pushed_iff ho h).2 (hless hfor)⟩⟩
      | op o' =>
          obtain ⟨hpos, hop, htoken⟩ := h.top_op rfl
          have hop' : (st.cell (st.sp - 1)).op = .op := hop
          have htoken' : (st.cell (st.sp - 1)).token = o' := htoken
          rw [if_neg (by omega), if_neg (by rw [hop']; exact nofun), if_neg (not_not.2 hop'), htoken',
            inArray_cons]
          by_cases hprec : prec o' ≤ prec o
          · have hafter : Shape.afterOperand (.op o' :: marks) o = marks := if_pos hprec
            rw [if_pos hprec, inArray_append, hafter]
            cases hreduce : reduceOp A S st with
            | error e =>
                refine ⟨fun _ hfor => ?_,
                  fun _ => ⟨hone hpos, reduceIndices_inArray hpos hsp, inArray_nil⟩⟩
                obtain ⟨st₁, hok⟩ := hfor o rfl h.top hop' (by rw [htoken']; exact hprec)
                exact nomatch hreduce.symm.trans hok
            | ok st₁ =>
                have hnext : Shaped ⟨marks, true⟩ st₁ := h.reduce rfl hreduce
                refine ⟨fun hin _ => (pushed_iff ho hnext).1 hin.2.2, fun hless =>
                  ⟨hone hpos, reduceIndices_inArray hpos hsp, (pushed_iff ho hnext).2 (hless ?_)⟩⟩
                exact fun _ _ _ _ _ => ⟨st₁, hreduce⟩
          · have hafter : Shape.afterOperand (.op o' :: marks) o = .op o' :: marks := if_neg hprec
            have hfor : ReducesFor A S st (.op o) := by
              intro o₁ ho₁ _ _ hprec'
              obtain rfl := Token.op.inj ho₁
              rw [htoken'] at hprec'
              exact absurd hprec' hprec
            rw [if_neg hprec, hafter]
            exact ⟨fun hin _ => (pushed_iff ho h).1 hin.2,
              fun hless => ⟨hone hpos, (pushed_iff ho h).2 (hless hfor)⟩⟩

/-! ### Closing a parenthesis -/

theorem closeParen_shaped {marks : List Mark} (h : Shaped ⟨marks, true⟩ st)
    (hsp : st.sp < stackSize) (hread : readOperator A S st .rparen = .ok st') :
    Shaped (Shape.next ⟨marks, true⟩ .rparen) st' ∧ st'.sp < stackSize := by
  rw [readOperator] at hread
  by_cases hzero : st.sp = 0
  · rw [if_pos hzero] at hread
    cases hread
  rw [if_neg hzero] at hread
  obtain ⟨st₁, hall, hclose⟩ := bind_eq_ok hread
  have hle := reduceAll_sp hall
  have hshaped := h.reduceAll (le_refl _) hall
  have hnext : Shape.next ⟨marks, true⟩ .rparen =
      ⟨(marks.dropWhile (· ≠ .group)).tail, true⟩ := rfl
  rw [hnext]
  cases hmarks : marks.dropWhile (· ≠ .group) with
  | nil =>
      rw [hmarks] at hshaped
      rw [if_pos (Or.inl (hshaped.top_nil rfl))] at hclose
      cases hclose
  | cons mark rest =>
      have hhead := List.head?_dropWhile_not (· ≠ Mark.group) marks
      rw [hmarks] at hshaped hhead
      obtain rfl : mark = .group := by simpa using hhead
      obtain ⟨hpos, hgroup, hlaid⟩ := hshaped.top_group rfl
      have hgroup' : (st₁.cell (st₁.sp - 1)).op = .group := hgroup
      rw [if_neg (by rw [hgroup']; rintro (h | h); omega; exact absurd rfl h)] at hclose
      obtain rfl := Except.ok.inj hclose
      refine ⟨⟨hlaid.congr fun i hi => ?_, ?_⟩, ?_⟩
      · have hi : i < st₁.sp - 1 := hi
        simp only [State.modify_stack]
        rw [if_neg (by omega)]
      · simp only [State.modify_stack, if_true]
      · show st₁.sp - 1 < stackSize
        omega

theorem rparenIndices_inArray (hsp : st.sp < stackSize) :
    InArray stackSize (rparenIndices A S st) := by
  rw [rparenIndices]
  split
  · exact inArray_nil
  rw [inArray_append]
  refine ⟨reduceAllIndices_inArray hsp, ?_⟩
  cases hall : reduceAll A S st.sp st with
  | error e => exact inArray_nil
  | ok st₁ =>
      have hle := reduceAll_sp hall
      simp only
      split
      · exact inArray_nil
      · rw [inArray_cons, inArray_cons]
        refine ⟨?_, ?_, inArray_nil⟩
        · omega
        · omega

theorem endIndices_inArray (hsp : st.sp < stackSize) :
    InArray stackSize (endIndices A S st) := by
  rw [endIndices, inArray_cons]
  refine ⟨by omega, ?_⟩
  split
  · rw [inArray_append]
    refine ⟨reduceAllIndices_inArray hsp, ?_⟩
    cases hall : reduceAll A S st.sp st with
    | error e => exact inArray_nil
    | ok st₁ =>
        have hle := reduceAll_sp hall
        simp only
        split
        · rw [inArray_cons]
          refine ⟨?_, inArray_nil⟩
          omega
        · rw [inArray_cons]
          refine ⟨?_, inArray_nil⟩
          omega
  · exact inArray_nil

/-! ### The run -/

theorem exprStep_shaped {shape : Shape} {token : Token} (h : Shaped shape st)
    (hsp : st.sp < stackSize) (hstep : exprStep A S st token = .ok st') :
    Shaped (shape.next token) st' ∧ st'.sp < stackSize := by
  obtain ⟨marks, value⟩ := shape
  have htop := h.top
  cases value with
  | false =>
      have htop' : (st.cell st.sp).op = .top := htop
      rw [exprStep, htop'] at hstep
      exact readOperand_shaped h hsp hstep
  | true =>
      have htop' : (st.cell st.sp).op = .value := htop
      rw [exprStep, htop'] at hstep
      cases token with
      | op o => exact readOperator_shaped h hstep
      | rparen => exact closeParen_shaped h hsp hstep
      | _ => cases hstep

theorem turnIndices_iff {shape : Shape} {token : Token} (h : Shaped shape st)
    (hsp : st.sp < stackSize) :
    InArray stackSize (turnIndices A S st token) ↔
      (ReducesFor A S st token → (shape.next token).cells < stackSize) := by
  obtain ⟨marks, value⟩ := shape
  have htop := h.top
  have hcells := h.cells
  have hin : 0 ≤ (st.sp : Int) ∧ (st.sp : Int) < (stackSize : Nat) := by omega
  unfold turnIndices
  rw [inArray_cons]
  cases value with
  | false =>
      have htop' : (st.cell st.sp).op = .top := htop
      have hfor : ReducesFor A S st token := by
        intro _ _ hvalue
        exact nomatch htop'.symm.trans hvalue
      rw [htop']
      show _ ∧ InArray stackSize (operandIndices st token) ↔ _
      rw [operandIndices_iff h hsp]
      exact ⟨fun hless _ => hless.2, fun hless => ⟨hin, hless hfor⟩⟩
  | true =>
      have htop' : (st.cell st.sp).op = .value := htop
      have hstay : Shape.cells ⟨marks, true⟩ < stackSize := by
        rw [← hcells]
        exact hsp
      rw [htop']
      cases token with
      | op o =>
          show _ ∧ InArray stackSize (operatorIndices A S st o) ↔ _
          rw [operatorIndices_iff h hsp]
          exact ⟨And.right, fun hless => ⟨hin, hless⟩⟩
      | rparen =>
          have hle : (Shape.next ⟨marks, true⟩ .rparen).cells ≤ Shape.cells ⟨marks, true⟩ :=
            (((List.tail_sublist _).trans (List.dropWhile_sublist _)).map Mark.cells).sum_le_sum
              fun _ _ => Nat.zero_le _
          exact ⟨fun _ _ => lt_of_le_of_lt hle hstay,
            fun _ => ⟨hin, rparenIndices_inArray hsp⟩⟩
      | _ => exact ⟨fun _ _ => hstay, fun _ => ⟨hin, inArray_nil⟩⟩

/-- The run from a state, where the shape says what is open in it. -/
theorem runIndices_iff {shape : Shape} (h : Shaped shape st) (hsp : st.sp < stackSize)
    (tokens : List Token) :
    InArray stackSize (runIndices A S st tokens) ↔
      ∀ p token t, tokens = p ++ token :: t →
        ∀ st', p.foldlM (exprStep A S) st = .ok st' → ReducesFor A S st' token →
          ((p ++ [token]).foldl Shape.next shape).cells < stackSize := by
  induction tokens generalizing st shape with
  | nil =>
      refine ⟨fun _ p token t hp => ?_, fun _ => endIndices_inArray hsp⟩
      exact absurd hp.symm (List.append_ne_nil_of_right_ne_nil p (List.cons_ne_nil token t))
  | cons token tokens ih =>
      rw [runIndices, inArray_append, turnIndices_iff h hsp]
      constructor
      · rintro ⟨hturn, hrest⟩ p token' t hp st' hrun hfor
        cases p with
        | nil =>
            obtain ⟨rfl, rfl⟩ := List.cons.inj hp
            obtain rfl := Except.ok.inj hrun
            exact hturn hfor
        | cons first p =>
            obtain ⟨rfl, rfl⟩ := List.cons.inj hp
            rw [List.foldlM_cons] at hrun
            obtain ⟨st₁, hone, hrun⟩ := bind_eq_ok hrun
            rw [hone] at hrest
            obtain ⟨hshaped, hsp'⟩ := exprStep_shaped h hsp hone
            exact (ih hshaped hsp').1 hrest p token' t rfl st' hrun hfor
      · intro hall
        refine ⟨fun hfor => hall [] token tokens rfl st rfl hfor, ?_⟩
        cases hone : exprStep A S st token with
        | error e => exact inArray_nil
        | ok st₁ =>
            obtain ⟨hshaped, hsp'⟩ := exprStep_shaped h hsp hone
            refine (ih hshaped hsp').2 fun p token' t hp st' hrun hfor => ?_
            refine hall (token :: p) token' t (by rw [hp, List.cons_append]) st' ?_ hfor
            rw [List.foldlM_cons, hone]
            exact hrun

theorem exprIndices_iff (A : Arithmetic α) (S : StringField σ) (tokens : List Token)
    (stack : Stack α σ) :
    InArray stackSize (exprIndices A S tokens stack) ↔ StackSuffices A S tokens stack := by
  have hstart : Shaped ⟨[], false⟩ (exprStart A stack) := by
    refine ⟨rfl, ?_⟩
    simp [exprStart]
  have hroom : (exprStart A stack).sp < stackSize := by
    show 0 < stackSize
    decide
  rw [exprIndices, inArray_cons, runIndices_iff hstart hroom]
  refine ⟨And.right, fun h => ⟨?_, h⟩⟩
  decide

end Stack

/-! ## Both arrays -/

/-- The arrays are not left, whatever the text and its expressions, exactly where they are
long enough. -/
theorem indices_inArray_iff {α σ τ : Type} (W : FileWorld τ) (symbols : τ) (s : List Char)
    (A : Arithmetic α) (S : StringField σ) (tokens : List Token) (stack : Stack α σ) :
    (InArray condLines (condIndices W symbols s) ↔ CondLinesSuffice W symbols s) ∧
      (InArray stackSize (exprIndices A S tokens stack) ↔ StackSuffices A S tokens stack) :=
  ⟨condIndices_iff W symbols s, exprIndices_iff A S tokens stack⟩

theorem next_lparens (marks : List Mark) (k : Nat) :
    (List.replicate k Token.lparen).foldl Shape.next ⟨marks, false⟩ =
      ⟨List.replicate k .group ++ marks, false⟩ := by
  induction k generalizing marks with
  | zero => rfl
  | succ k ih =>
      rw [List.replicate_succ, List.foldl_cons, List.replicate_succ', List.append_assoc]
      exact ih (.group :: marks)

theorem cellsOpen_lparens (k : Nat) : cellsOpen (List.replicate k .lparen) = k := by
  rw [cellsOpen, next_lparens, Shape.cells, List.append_nil, List.map_replicate, List.sum_replicate]
  exact Nat.mul_one k

/-- 256 parentheses are one too many. -/
theorem parentheses_leave_array :
    ¬ InArray stackSize
      (exprIndices longArithmetic pointers (List.replicate 256 .lparen) programStart) := by
  rw [exprIndices_iff]
  intro hfits
  have hstart : Opened 0 (exprStart longArithmetic programStart) := by
    refine ⟨rfl, rfl, Or.inl rfl, fun i => ?_⟩
    simp only [exprStart, State.modify_stack]
    split
    · rfl
    · rfl
  obtain ⟨st, hrun, -⟩ := opened_replicate 255 hstart (by decide)
  have hall : (List.replicate 256 Token.lparen).filter (!isSkipped ·) =
      List.replicate 255 .lparen ++ .lparen :: [] := by
    rw [← List.replicate_succ', List.filter_replicate]
    rfl
  have hless := hfits _ _ _ hall st hrun (by intro o h; cases h)
  rw [← List.replicate_succ', cellsOpen_lparens] at hless
  exact absurd hless (by decide)

end Swig4Ada.Preprocessor

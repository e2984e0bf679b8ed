import Swig4Ada.Preprocessor.IfExpression

/-!
# The cells of the evaluator as frames

Between two parentheses the cells of the evaluator's array are the frames of a
shift/reduce machine with a single reduction, two cells for a binary operator
and its left operand and one for a unary operator. `exprStep_tokens` follows the
machine through the tokens of a tree on an array that holds no string.
-/

namespace Swig4Ada.Preprocessor

open Swig4Ada.Lib

variable {α : Type}

/-- The operators of an arithmetic, as `reduce_op` applies them. -/
def Arithmetic.interp (A : Arithmetic α) : Interp ExprOp α where
  un u x := A.unary u x
  bin o l r :=
    if (o = .slash ∨ o = .percent) ∧ A.isZero r then none else A.binary o l r

/-- What a literal is read as. -/
def literalValue (A : Arithmetic α) (n : IntLiteral) : Option α :=
  match n.kind with
  | .int | .uint | .long | .ulong => some (A.ofLong (strtol n.text))
  | _ => none

/-- The frames and the value after the tokens of a tree. -/
def readFrames (A : Arithmetic α) :
    IfTree → List (OpTree.Frame ExprOp α) → Option (List (OpTree.Frame ExprOp α) × α)
  | .leaf n, fs => do return (fs, ← literalValue A n)
  | .paren t, fs => do
      let (gs, v) ← readFrames A t []
      return (fs, ← OpTree.collapse A.interp gs v)
  | .un u t, fs => readFrames A t (.un u :: fs)
  | .bin o l r, fs => do
      let (gs, v) ← readFrames A l fs
      readFrames A r (← OpTree.shift A.interp prec o gs v)

/-- The value that the evaluator gives to a tree. -/
def exprRead (A : Arithmetic α) (t : IfTree) : Option α := do
  let (fs, v) ← readFrames A t []
  OpTree.collapse A.interp fs v

/-! ## The relation -/

/-- The cells from `k` on are those of the frames. -/
def Holds (stack : PStack α) (k : Nat) :
    List (OpTree.Frame ExprOp α) → Prop
  | [] => True
  | .un u :: fs =>
      (stack (k + OpTree.height fs)).op = .op ∧ (stack (k + OpTree.height fs)).token = u ∧
        isUnaryOp u = true ∧ Holds stack k fs
  | .bin v o :: fs =>
      (stack (k + OpTree.height fs)).op = .value ∧
        (stack (k + OpTree.height fs)).value = v ∧
        (stack (k + OpTree.height fs + 1)).op = .op ∧
        (stack (k + OpTree.height fs + 1)).token = o ∧
        isUnaryOp o = false ∧ Holds stack k fs

theorem Holds.congr {stack stack' : PStack α} {k : Nat}
    {fs : List (OpTree.Frame ExprOp α)} (h : Holds stack k fs)
    (hsame : ∀ i, k ≤ i → i < k + OpTree.height fs → stack' i = stack i) :
    Holds stack' k fs := by
  induction fs with
  | nil => trivial
  | cons f fs ih =>
      cases f with
      | un u =>
          obtain ⟨h1, h2, h3, h4⟩ := h
          have hcell := hsame (k + OpTree.height fs) (by omega)
            (by simp only [OpTree.height]; omega)
          refine ⟨by rw [hcell, h1], by rw [hcell, h2], h3, ih h4 fun i hk hi => ?_⟩
          exact hsame i hk (by simp only [OpTree.height]; omega)
      | bin v o =>
          obtain ⟨h1, h2, h3, h4, h5, h6⟩ := h
          have hleft := hsame (k + OpTree.height fs) (by omega)
            (by simp only [OpTree.height]; omega)
          have hop := hsame (k + OpTree.height fs + 1) (by omega)
            (by simp only [OpTree.height]; omega)
          refine ⟨by rw [hleft, h1], by rw [hleft, h2], by rw [hop, h3], by rw [hop, h4], h5,
            ih h6 fun i hk hi => ?_⟩
          exact hsame i hk (by simp only [OpTree.height]; omega)

/-- The state is at the level that begins at cell `k`, behind its frames. -/
structure AtLevel (k : Nat) (fs : List (OpTree.Frame ExprOp α))
    (st : PState α) : Prop where
  sp : st.sp = k + OpTree.height fs
  holds : Holds st.stack k fs
  base : k = 0 ∨ (st.stack (k - 1)).op = .group
  noStrings : ∀ i, (st.stack i).svalue = none

/-- An operand is expected. -/
structure Expecting (k : Nat) (fs : List (OpTree.Frame ExprOp α))
    (st : PState α) : Prop extends AtLevel k fs st where
  top : (st.stack st.sp).op = .top

/-- The value of an operand is on top. -/
structure Holding (k : Nat) (fs : List (OpTree.Frame ExprOp α)) (v : α)
    (st : PState α) : Prop extends AtLevel k fs st where
  top : (st.stack st.sp).op = .value
  value : (st.stack st.sp).value = v

/-- The cells below the level are left alone. -/
def SameBelow (k : Nat) (st st' : PState α) : Prop :=
  ∀ i, i < k → st'.stack i = st.stack i

/-- A part of an evaluation succeeds, with a state as stated, exactly when a
value is defined. -/
def Follows {β : Type} (run : PRun α (PState α))
    (result : Option β) (P : β → PState α → Prop) : Prop :=
  match result with
  | some x => ∃ st', run = .ok st' ∧ P x st'
  | none => ∃ fault, run = .error fault

/-- A level is not touched by changes of the cells behind its frames. -/
theorem AtLevel.of_same {k : Nat} {fs : List (OpTree.Frame ExprOp α)}
    {st st' : PState α} (h : AtLevel k fs st)
    (hsp : st'.sp = k + OpTree.height fs)
    (hsame : ∀ i, i < k + OpTree.height fs → st'.stack i = st.stack i)
    (hnull : ∀ i, (st'.stack i).svalue = none) : AtLevel k fs st' := by
  refine ⟨hsp, h.holds.congr fun i _ hi => hsame i hi, ?_, hnull⟩
  by_cases hk : k = 0
  · exact Or.inl hk
  · rw [hsame (k - 1) (by omega)]
    exact h.base

theorem isString_none : pointers.isString none = .ok false := rfl

/-! ## The steps -/

variable {A : Arithmetic α} {k : Nat} {fs : List (OpTree.Frame ExprOp α)}
  {st : PState α}

theorem readOperand_literal (h : Expecting k fs st) (n : IntLiteral) :
    Follows (readOperand A pointers st n.token) (literalValue A n)
      fun v st' => Holding k fs v st' ∧ SameBelow k st st' := by
  have hnumber : ∀ x, ∃ st', (.ok (st.modify st.sp fun c =>
      { c with value := x, svalue := none, op := .value }) : PRun α (PState α)) = .ok st' ∧
        Holding k fs x st' ∧ SameBelow k st st' := by
    intro x
    have hsp := h.sp
    refine ⟨_, rfl, ⟨h.toAtLevel.of_same h.sp (fun i hi => ?_) (fun i => ?_), ?_, ?_⟩,
      fun i hi => ?_⟩
    · rw [State.modify_stack, if_neg (by omega)]
    · rw [State.modify_stack]
      split
      · rfl
      · exact h.noStrings i
    · simp
    · simp
    · rw [State.modify_stack, if_neg (by omega)]
  have hread : readOperand A pointers st n.token = readNumber A pointers st n.kind n.text := rfl
  rw [hread, literalValue]
  cases n.kind with
  | int => exact hnumber _
  | uint => exact hnumber _
  | long => exact hnumber _
  | ulong => exact hnumber _
  | longLong => exact ⟨_, rfl⟩
  | ulongLong => exact ⟨_, rfl⟩
  | float => exact ⟨_, rfl⟩
  | double => exact ⟨_, rfl⟩

/-- What a unary operator does to the array. -/
theorem pushUnary_ok (u : ExprOp) (hroom : st.sp + 1 < stackSize) :
    ∃ st', pushUnary pointers st u = .ok st' ∧ st'.sp = st.sp + 1 ∧
      st'.stack st.sp = { st.stack st.sp with op := .op, token := u } ∧
      st'.stack (st.sp + 1) = { st.stack (st.sp + 1) with op := .top, svalue := none } ∧
      ∀ i, i ≠ st.sp → i ≠ st.sp + 1 → st'.stack i = st.stack i := by
  refine ⟨_, by simp [pushUnary, State.push, hroom, bind, Except.bind]; rfl, rfl, ?_, ?_, ?_⟩
  · simp
  · simp; rfl
  · intro i h0 h1
    simp [h0, h1]

theorem pushUnary_frame (h : Expecting k fs st) {u : ExprOp} (hu : isUnaryOp u = true)
    (hroom : k + OpTree.height (.un u :: fs) < stackSize) :
    ∃ st', pushUnary pointers st u = .ok st' ∧ Expecting k (.un u :: fs) st' ∧
      SameBelow k st st' := by
  have hsp := h.sp
  simp only [OpTree.height] at hroom
  obtain ⟨st', heq, hsp', hop, htop, hsame⟩ := pushUnary_ok u (by omega : st.sp + 1 < stackSize)
  have hbelow : ∀ i, i < k + OpTree.height fs → st'.stack i = st.stack i :=
    fun i hi => hsame i (by omega) (by omega)
  refine ⟨st', heq, ⟨⟨?_, ⟨?_, ?_, hu, h.holds.congr fun i _ hi => hbelow i hi⟩, ?_, ?_⟩, ?_⟩,
    fun i hi => hbelow i (by omega)⟩
  · rw [hsp', hsp, OpTree.height]
    omega
  · rw [← hsp, hop]
  · rw [← hsp, hop]
  · by_cases hk : k = 0
    · exact Or.inl hk
    · rw [hbelow (k - 1) (by omega)]
      exact h.base
  · intro i
    by_cases h0 : i = st.sp
    · rw [h0, hop]
      exact h.noStrings _
    · by_cases h1 : i = st.sp + 1
      · rw [h1, htop]
      · rw [hsame i h0 h1]
        exact h.noStrings i
  · rw [hsp', htop]

/-- What a binary operator does to the array. -/
theorem pushBinary_ok (o : ExprOp) (hroom : st.sp + 2 < stackSize) :
    ∃ st', pushBinary A st o = .ok st' ∧ st'.sp = st.sp + 2 ∧
      st'.stack (st.sp + 1) = { st.stack (st.sp + 1) with op := .op, token := o } ∧
      st'.stack (st.sp + 2) =
        { st.stack (st.sp + 2) with op := .top, value := A.ofLong 0 } ∧
      ∀ i, i ≠ st.sp + 1 → i ≠ st.sp + 2 → st'.stack i = st.stack i := by
  have h1 : st.sp + 1 < stackSize := by omega
  have h2 : st.sp + 1 + 1 < stackSize := by omega
  refine ⟨_, by simp [pushBinary, State.push, h1, h2, bind, Except.bind]; rfl, rfl, ?_, ?_, ?_⟩
  · simp
  · simp
  · intro i h0 h1
    simp [h0, h1]

theorem pushBinary_frame {v : α} (h : Holding k fs v st) {o : ExprOp}
    (ho : isUnaryOp o = false) (hroom : k + OpTree.height (.bin v o :: fs) < stackSize) :
    ∃ st', pushBinary A st o = .ok st' ∧ Expecting k (.bin v o :: fs) st' ∧
      SameBelow k st st' := by
  have hsp := h.sp
  simp only [OpTree.height] at hroom
  obtain ⟨st', heq, hsp', hop, htop, hsame⟩ := pushBinary_ok (A := A) o (by omega : st.sp + 2 < stackSize)
  have hbelow : ∀ i, i ≤ k + OpTree.height fs → st'.stack i = st.stack i :=
    fun i hi => hsame i (by omega) (by omega)
  refine ⟨st', heq, ⟨⟨?_, ⟨?_, ?_, ?_, ?_, ho,
    h.holds.congr fun i _ hi => hbelow i (by omega)⟩, ?_, ?_⟩, ?_⟩,
    fun i hi => hbelow i (by omega)⟩
  · rw [hsp', hsp, OpTree.height]
    omega
  · rw [hbelow _ (Nat.le_refl _), ← hsp, h.top]
  · rw [hbelow _ (Nat.le_refl _), ← hsp, h.value]
  · rw [← hsp, hop]
  · rw [← hsp, hop]
  · by_cases hk : k = 0
    · exact Or.inl hk
    · rw [hbelow (k - 1) (by omega)]
      exact h.base
  · intro i
    by_cases h0 : i = st.sp + 1
    · rw [h0, hop]
      exact h.noStrings _
    · by_cases h1 : i = st.sp + 2
      · rw [h1, htop]
        exact h.noStrings _
      · rw [hsame i h0 h1]
        exact h.noStrings i
  · rw [hsp', htop]

/-- The result of a reduction is the value on the frames that are left. -/
theorem reduced_frame {k' : Nat} (h : AtLevel k fs { st with sp := k' }) (w : α) :
    Holding k fs w (reduced pointers st k' w) ∧ SameBelow k st (reduced pointers st k' w) := by
  have hsp : k' = k + OpTree.height fs := h.sp
  refine ⟨⟨h.of_same hsp (fun i hi => ?_) (fun i => ?_), ?_, ?_⟩, fun i hi => ?_⟩
  · simp only [reduced, State.modify_stack]
    rw [if_neg (by omega)]
  · simp only [reduced, State.modify_stack]
    split
    · rfl
    · exact h.noStrings i
  · simp [reduced]
  · simp [reduced]
  · simp only [reduced, State.modify_stack]
    rw [if_neg (by omega)]

/-- A reduction applies the top frame. -/
theorem reduceOp_frame {f : OpTree.Frame ExprOp α} {v : α} (h : Holding k (f :: fs) v st) :
    Follows (reduceOp A pointers st) (f.apply A.interp v)
      fun w st' => Holding k fs w st' ∧ SameBelow k st st' := by
  have hsp := h.sp
  have htop := h.top
  have hvalue := h.value
  cases f with
  | un u =>
      obtain ⟨h1, h2, h3, h4⟩ := h.holds
      simp only [OpTree.height] at hsp
      have hop : (st.stack (st.sp - 1)).token = u := by
        rw [show st.sp - 1 = k + OpTree.height fs by omega, h2]
      have hlevel : AtLevel k fs { st with sp := st.sp - 1 } :=
        ⟨by simp only; omega, h4, h.base, h.noStrings⟩
      have hreduce : reduceOp A pointers st = reduceUnaryNumber A pointers st u := by
        simp [reduceOp, State.cell, hop, htop, h3, h.noStrings, isString_none, State.lift,
          bind, Except.bind]
      rw [hreduce, reduceUnaryNumber, State.cell, hvalue]
      simp only [OpTree.Frame.apply, Arithmetic.interp]
      cases A.unary u v with
      | none => exact ⟨_, rfl⟩
      | some w => exact ⟨_, rfl, reduced_frame hlevel w⟩
  | bin l o =>
      obtain ⟨h1, h2, h3, h4, h5, h6⟩ := h.holds
      simp only [OpTree.height] at hsp
      have hop : (st.stack (st.sp - 1)).token = o := by
        rw [show st.sp - 1 = k + OpTree.height fs + 1 by omega, h4]
      have hleft : (st.stack (st.sp - 2)).value = l := by
        rw [show st.sp - 2 = k + OpTree.height fs by omega, h2]
      have hlevel : AtLevel k fs { st with sp := st.sp - 2 } :=
        ⟨by simp only; omega, h6, h.base, h.noStrings⟩
      have hne : st.sp ≠ 1 := by omega
      have hreduce : reduceOp A pointers st = reduceNumbers A pointers st o := by
        simp [reduceOp, State.cell, hop, htop, h5, h.noStrings, isString_none, State.lift,
          bind, Except.bind, hne]
      rw [hreduce, reduceNumbers]
      simp only [State.cell, hleft, hvalue, OpTree.Frame.apply, Arithmetic.interp]
      by_cases hs : o = .slash ∧ A.isZero v = true
      · rw [if_pos hs, if_pos ⟨Or.inl hs.1, hs.2⟩]
        exact ⟨_, rfl⟩
      · by_cases hp : o = .percent ∧ A.isZero v = true
        · rw [if_neg hs, if_pos hp, if_pos ⟨Or.inr hp.1, hp.2⟩]
          exact ⟨_, rfl⟩
        · rw [if_neg hs, if_neg hp, if_neg (fun hz => hz.1.elim (fun h => hs ⟨h, hz.2⟩)
            fun h => hp ⟨h, hz.2⟩)]
          cases A.binary o l v with
          | none => exact ⟨_, rfl⟩
          | some w => exact ⟨_, rfl, reduced_frame hlevel w⟩

theorem SameBelow.trans {st₁ st₂ st₃ : PState α} (h : SameBelow k st₁ st₂)
    (h' : SameBelow k st₂ st₃) : SameBelow k st₁ st₃ :=
  fun i hi => (h' i hi).trans (h i hi)

/-- The cell below the top belongs to the top frame. -/
theorem AtLevel.below {f : OpTree.Frame ExprOp α} (h : AtLevel k (f :: fs) st) :
    0 < st.sp ∧ (st.stack (st.sp - 1)).op = .op ∧ (st.stack (st.sp - 1)).token = f.op := by
  have hsp := h.sp
  cases f with
  | un u =>
      obtain ⟨h1, h2, _, _⟩ := h.holds
      simp only [OpTree.height] at hsp
      rw [show st.sp - 1 = k + OpTree.height fs by omega]
      exact ⟨by omega, h1, h2⟩
  | bin l o =>
      obtain ⟨_, _, h3, h4, _, _⟩ := h.holds
      simp only [OpTree.height] at hsp
      rw [show st.sp - 1 = k + OpTree.height fs + 1 by omega]
      exact ⟨by omega, h3, h4⟩

/-- Behind no frame is the begin of the level. -/
theorem AtLevel.begin (h : AtLevel k [] st) :
    st.sp = 0 ∨ (st.stack (st.sp - 1)).op = .group := by
  have hsp := h.sp
  simp only [OpTree.height, Nat.add_zero] at hsp
  rw [hsp]
  exact h.base

theorem length_le_height (fs : List (OpTree.Frame ExprOp α)) :
    fs.length ≤ OpTree.height fs := by
  induction fs with
  | nil => exact Nat.le_refl _
  | cons f fs ih =>
      cases f <;> simp only [List.length_cons, OpTree.height] <;> omega

/-- At the end of a level all its frames are reduced. -/
theorem reduceAll_frames (fs : List (OpTree.Frame ExprOp α)) :
    ∀ {st : PState α} {v : α} {fuel : Nat}, Holding k fs v st → fs.length ≤ fuel →
      Follows (reduceAll A pointers fuel st) (OpTree.collapse A.interp fs v)
        fun w st' => Holding k [] w st' ∧ SameBelow k st st' := by
  induction fs with
  | nil =>
      intro st v fuel h _
      have hstop : ¬ (0 < st.sp ∧ (st.cell (st.sp - 1)).op = .op) := by
        rintro ⟨hpos, hop⟩
        rcases h.toAtLevel.begin with h0 | hg
        · omega
        · rw [State.cell, hg] at hop
          cases hop
      have hdone : reduceAll A pointers fuel st = .ok st := by
        cases fuel with
        | zero => rfl
        | succ fuel => rw [reduceAll, if_neg hstop]
      exact ⟨st, hdone, h, fun _ _ => rfl⟩
  | cons f fs ih =>
      intro st v fuel h hf
      cases fuel with
      | zero => simp at hf
      | succ fuel =>
          obtain ⟨hpos, hop, _⟩ := h.toAtLevel.below
          have hstep := reduceOp_frame (A := A) h
          rw [reduceAll, if_pos ⟨hpos, hop⟩, OpTree.collapse]
          cases happly : f.apply A.interp v with
          | none =>
              rw [happly] at hstep
              obtain ⟨fault, hfault⟩ := hstep
              exact ⟨fault, by rw [hfault]; rfl⟩
          | some w =>
              rw [happly] at hstep
              obtain ⟨st₁, hst₁, h₁, hsame₁⟩ := hstep
              have hrest := @ih st₁ w fuel h₁ (by simpa using hf)
              rw [hst₁]
              simp only [bind, Except.bind, Option.bind_some]
              cases hc : OpTree.collapse A.interp fs w with
              | none => rwa [hc] at hrest
              | some x =>
                  rw [hc] at hrest
                  obtain ⟨st₂, hst₂, h₂, hsame₂⟩ := hrest
                  exact ⟨st₂, hst₂, h₂, hsame₁.trans hsame₂⟩

/-- A binary operator in its place shifts, after at most one reduction. -/
theorem readOperator_frames {v : α} (h : Holding k fs v st) {o : ExprOp}
    (ho : isUnaryOp o = false)
    (hroom : ∀ fs', OpTree.shift A.interp prec o fs v = some fs' →
      k + OpTree.height fs' < stackSize) :
    Follows (readOperator A pointers st (.op o)) (OpTree.shift A.interp prec o fs v)
      fun fs' st' => Expecting k fs' st' ∧ SameBelow k st st' := by
  cases fs with
  | nil =>
      obtain ⟨st', heq, h', hsame⟩ := pushBinary_frame (A := A) h ho (hroom _ rfl)
      have hbegin : st.sp = 0 ∨ (st.cell (st.sp - 1)).op = .group := h.toAtLevel.begin
      refine ⟨st', ?_, h', hsame⟩
      simp only [readOperator, ho, Bool.false_eq_true, if_false]
      rw [if_pos hbegin, heq]
  | cons f fs =>
      obtain ⟨hpos, hop, htok⟩ := h.toAtLevel.below
      have hread : readOperator A pointers st (.op o) =
          if prec f.op ≤ prec o then do pushBinary A (← reduceOp A pointers st) o
          else pushBinary A st o := by
        simp [readOperator, ho, State.cell, hop, htok, Nat.ne_of_gt hpos]
      rw [hread]
      rw [OpTree.shift] at hroom ⊢
      by_cases hp : prec f.op ≤ prec o
      · rw [if_pos hp] at hroom
        rw [if_pos hp, if_pos hp]
        have hstep := reduceOp_frame (A := A) h
        cases happly : f.apply A.interp v with
        | none =>
            rw [happly] at hstep
            obtain ⟨fault, hfault⟩ := hstep
            exact ⟨fault, by rw [hfault]; rfl⟩
        | some w =>
            rw [happly] at hstep hroom
            obtain ⟨st₁, hst₁, h₁, hsame₁⟩ := hstep
            obtain ⟨st₂, hst₂, h₂, hsame₂⟩ := pushBinary_frame (A := A) h₁ ho (hroom _ rfl)
            exact ⟨st₂, by rw [hst₁]; exact hst₂, h₂, hsame₁.trans hsame₂⟩
      · rw [if_neg hp] at hroom
        rw [if_neg hp, if_neg hp]
        obtain ⟨st', heq, h', hsame⟩ := pushBinary_frame (A := A) h ho (hroom _ rfl)
        exact ⟨st', heq, h', hsame⟩

/-! ## Parentheses -/

/-- A parenthesis begins a level of its own. -/
theorem readOperand_lparen (h : Expecting k fs st) (hroom : st.sp + 1 < stackSize) :
    ∃ st', readOperand A pointers st .lparen = .ok st' ∧ Expecting (st.sp + 1) [] st' ∧
      SameBelow st.sp st st' := by
  refine ⟨_, by simp [readOperand, State.push, hroom, bind, Except.bind]; rfl,
    ⟨⟨rfl, trivial, Or.inr ?_, fun i => ?_⟩, ?_⟩, fun i hi => ?_⟩
  · simp
  · simp only [State.modify_stack]
    split
    · rfl
    · split
      · exact h.noStrings _
      · exact h.noStrings i
  · simp
  · have h0 : i ≠ st.sp := by omega
    have h1 : i ≠ st.sp + 1 := by omega
    simp [h0, h1]

/-- The end of a level is its value in the level around it. -/
theorem readOperator_rparen {st₂ : PState α} {gs : List (OpTree.Frame ExprOp α)} {v : α}
    (h : AtLevel k fs st) (h₂ : Holding (st.sp + 1) gs v st₂)
    (hsame : SameBelow st.sp st st₂) :
    Follows (readOperator A pointers st₂ .rparen) (OpTree.collapse A.interp gs v)
      fun w st' => Holding k fs w st' ∧ SameBelow k st st' := by
  have hsp := h.sp
  have hsp₂ := h₂.sp
  have hpos : st₂.sp ≠ 0 := by omega
  have hlen : gs.length ≤ st₂.sp := Nat.le_trans (length_le_height gs) (by omega)
  have hreduce := reduceAll_frames (A := A) gs h₂ hlen
  simp only [readOperator, if_neg hpos]
  cases hc : OpTree.collapse A.interp gs v with
  | none =>
      rw [hc] at hreduce
      obtain ⟨fault, hfault⟩ := hreduce
      exact ⟨fault, by rw [hfault]; rfl⟩
  | some w =>
      rw [hc] at hreduce
      obtain ⟨st₃, hst₃, h₃, hsame₃⟩ := hreduce
      have hsp₃ : st₃.sp = st.sp + 1 := h₃.sp
      have hgroup : (st₃.stack st.sp).op = .group := by
        rcases h₃.base with h0 | hg
        · omega
        · simpa using hg
      have hvalue := h₃.value
      rw [hsp₃] at hvalue
      have hbelow : ∀ i, i < st.sp → st₃.stack i = st.stack i := fun i hi =>
        (hsame₃ i (by omega)).trans (hsame i hi)
      have hclose : ¬ (st₃.sp = 0 ∨ (st₃.cell (st₃.sp - 1)).op ≠ .group) := by
        rw [hsp₃, State.cell, Nat.add_sub_cancel, hgroup]
        simp
      refine ⟨_, by rw [hst₃]; simp only [bind, Except.bind, if_neg hclose]; rfl, ?_, ?_⟩
      · refine ⟨h.of_same (by simp only [hsp₃]; omega) (fun i hi => ?_) (fun i => ?_), ?_, ?_⟩
        · simp only [State.modify_stack, hsp₃]
          rw [if_neg (by omega), hbelow i (by omega)]
        · simp only [State.modify_stack]
          split
          · exact h₃.noStrings _
          · exact h₃.noStrings i
        · simp [hsp₃]
        · simp [hsp₃, State.cell, hvalue]
      · intro i hi
        simp only [State.modify_stack, hsp₃]
        rw [if_neg (by omega), hbelow i (by omega)]

/-! ## Trees -/

theorem readFrames_eq_feed (t : IfTree) :
    ∀ {fs : List (OpTree.Frame ExprOp α)}, readFrames A t fs =
      OpTree.feed A.interp prec (OpTree.atomRead (literalValue A) (exprRead A)) t fs := by
  induction t with
  | leaf n => exact rfl
  | paren t _ =>
      intro fs
      rw [readFrames, OpTree.feed, OpTree.atomRead, exprRead]
      cases readFrames A t [] <;> rfl
  | un u t ih => exact ih
  | bin o l r ihl ihr =>
      intro fs
      rw [readFrames, OpTree.feed, ihl]
      simp only [ihr]

theorem exprRead_eq (t : IfTree) :
    exprRead A t = OpTree.levelValue A.interp prec
      (OpTree.atomRead (literalValue A) (exprRead A)) t := by
  rw [exprRead, readFrames_eq_feed, OpTree.levelValue]

theorem exprStep_expecting (h : Expecting k fs st) (token : Token) :
    exprStep A pointers st token = readOperand A pointers st token := by
  simp only [exprStep, State.cell, h.top]

theorem exprStep_holding {v : α} (h : Holding k fs v st) (token : Token) :
    exprStep A pointers st token = readOperator A pointers st token := by
  simp only [exprStep, State.cell, h.top]

theorem readOperand_unary {u : ExprOp} (hu : isUnaryOp u = true) :
    readOperand A pointers st (unaryToken u) = pushUnary pointers st u := by
  cases u <;> first | rfl | cases hu

theorem Follows.bind {β γ : Type} {run : PRun α (PState α)} {next : PState α → PRun α (PState α)}
    {result : Option β} {f : β → Option γ} {P : β → PState α → Prop}
    {Q : γ → PState α → Prop} (h : Follows run result P)
    (hnext : ∀ x st', result = some x → P x st' → Follows (next st') (f x) Q) :
    Follows (do next (← run)) (result.bind f) Q := by
  cases result with
  | none =>
      obtain ⟨fault, hfault⟩ := h
      exact ⟨fault, by rw [hfault]; rfl⟩
  | some x =>
      obtain ⟨st', hst', hP⟩ := h
      rw [hst']
      exact hnext x st' rfl hP

theorem Follows.imp {β : Type} {run : PRun α (PState α)} {result : Option β}
    {P Q : β → PState α → Prop} (h : Follows run result P)
    (himp : ∀ x st', P x st' → Q x st') : Follows run result Q := by
  cases result with
  | none => exact h
  | some x =>
      obtain ⟨st', hst', hP⟩ := h
      exact ⟨st', hst', himp x st' hP⟩

/-- The machine reads the tokens of a tree as the tree is read by frames. -/
theorem exprStep_tokens (t : IfTree) :
    ∀ {k : Nat} {fs : List (OpTree.Frame ExprOp α)} {st : PState α},
      WellPlaced t → Expecting k fs st →
      k + OpTree.need prec (dropPlus t) (OpTree.shapes fs) < stackSize →
      Follows ((tokensOf t).foldlM (exprStep A pointers) st) (readFrames A (dropPlus t) fs)
        fun x st' => Holding k x.1 x.2 st' ∧ SameBelow k st st' := by
  induction t with
  | leaf n =>
      intro k fs st _ h _
      have hread := readOperand_literal (A := A) h n
      simp only [tokensOf, List.foldlM_cons, List.foldlM_nil, bind_pure, dropPlus, readFrames]
      rw [exprStep_expecting h]
      cases hn : literalValue A n with
      | none => rwa [hn] at hread
      | some v => rwa [hn] at hread
  | paren t ih =>
      intro k fs st hw h hroom
      have hsp := h.sp
      simp only [dropPlus, OpTree.need, OpTree.height_shapes] at hroom
      obtain ⟨st₁, hst₁, h₁, hsame₁⟩ := readOperand_lparen (A := A) h (by omega)
      have hinner := ih hw h₁ (by rw [hsp]; simpa [OpTree.shapes, Nat.add_assoc] using hroom)
      simp only [tokensOf, List.foldlM_cons, List.foldlM_append, List.foldlM_nil, bind_pure]
      rw [exprStep_expecting h, hst₁]
      refine Follows.bind (f := fun x => do return (fs, ← OpTree.collapse A.interp x.1 x.2))
        hinner fun x st₂ _ h₂ => ?_
      rw [exprStep_holding h₂.1]
      have hclose := readOperator_rparen (A := A) h.toAtLevel h₂.1 fun i hi =>
        (h₂.2 i (by omega)).trans (hsame₁ i hi)
      cases hc : OpTree.collapse A.interp x.1 x.2 with
      | none => rwa [hc] at hclose
      | some w => rwa [hc] at hclose
  | un u t ih =>
      intro k fs st hw h hroom
      by_cases hu : u = .plus
      · subst hu
        simp only [dropPlus, if_true] at hroom
        have hread : readOperand A pointers st (unaryToken .plus) = .ok st := rfl
        simp only [tokensOf, List.foldlM_cons, dropPlus, if_true]
        rw [exprStep_expecting h, hread]
        exact ih hw.2 h hroom
      · have hun := hw.1.resolve_left hu
        simp only [dropPlus, if_neg hu, OpTree.need] at hroom
        have hheight := OpTree.height_le_need prec (dropPlus t) (.un u :: OpTree.shapes fs)
        simp only [OpTree.height, OpTree.height_shapes] at hheight
        obtain ⟨st₁, hst₁, h₁, hsame₁⟩ := pushUnary_frame h hun
          (by simp only [OpTree.height]; omega)
        simp only [tokensOf, List.foldlM_cons, dropPlus, if_neg hu, readFrames]
        rw [exprStep_expecting h, readOperand_unary hun, hst₁]
        exact (ih hw.2 h₁ hroom).imp fun x st' hx => ⟨hx.1, hsame₁.trans hx.2⟩
  | bin o l r ihl ihr =>
      intro k fs st hw h hroom
      simp only [dropPlus, OpTree.need] at hroom
      have hleft := ihl hw.2.1 h (by omega)
      simp only [tokensOf, List.foldlM_cons, List.foldlM_append, dropPlus, readFrames]
      refine Follows.bind
        (f := fun x => do readFrames A (dropPlus r) (← OpTree.shift A.interp prec o x.1 x.2))
        hleft fun x st₁ hx h₁ => ?_
      rw [readFrames_eq_feed] at hx
      have hafter : ∀ fs', OpTree.shift A.interp prec o x.1 x.2 = some fs' →
          OpTree.afterLeft prec o (dropPlus l) (OpTree.shapes fs) = OpTree.shapes fs' :=
        fun fs' hs => OpTree.afterLeft_shapes hx hs
      have hshift := readOperator_frames (A := A) h₁.1 hw.1 fun fs' hs => by
        have hheight := OpTree.height_le_need prec (dropPlus r) (OpTree.shapes fs')
        rw [hafter fs' hs] at hroom
        rw [OpTree.height_shapes] at hheight
        omega
      rw [exprStep_holding h₁.1]
      refine Follows.bind hshift fun fs' st₂ hs h₂ => ?_
      have hright := ihr hw.2.2 h₂.1 (by rw [hafter fs' hs] at hroom; omega)
      exact hright.imp fun y st' hy => ⟨hy.1, (h₁.2.trans h₂.2).trans hy.2⟩

/-- An array that holds no string. -/
def CleanStack (α : Type) := { stack : PStack α // ∀ i, (stack i).svalue = none }

/-- The evaluator gives an expression the value it is read as. -/
theorem preprocessorExpr_eq_ok (e : IfExpression) (A : Arithmetic α) (stack : CleanStack α)
    (v : α) :
    (preprocessorExpr A pointers e.tokens stack.1).1 = .ok v ↔
      exprRead A (dropPlus e.tree) = some v := by
  have hstart : Expecting 0 [] (exprStart A stack.1) := by
    refine ⟨⟨rfl, trivial, Or.inl rfl, fun i => ?_⟩, by simp [exprStart]⟩
    simp only [exprStart, State.modify_stack]
    split
    · exact stack.2 0
    · exact stack.2 i
  have htokens := exprStep_tokens (A := A) e.tree e.wellPlaced hstart
    (by simpa [OpTree.shapes] using e.room)
  rw [preprocessorExpr, e.spelled, exprRead]
  cases hread : readFrames A (dropPlus e.tree) [] with
  | none =>
      rw [hread] at htokens
      obtain ⟨fault, hfault⟩ := htokens
      simp [hfault, bind, Except.bind]
  | some x =>
      rw [hread] at htokens
      obtain ⟨st, hst, h, _⟩ := htokens
      have hlen : x.1.length ≤ st.sp :=
        Nat.le_trans (length_le_height _) (by rw [h.sp]; omega)
      have hreduce := reduceAll_frames (A := A) x.1 h hlen
      have hend : exprEnd A pointers st = (do
          let st' ← reduceAll A pointers st.sp st
          if st'.sp = 0 then return ((st'.cell 0).value, st'.stack)
          else if (st'.cell (st'.sp - 1)).op = .group then st'.fail "Missing ')'"
          else st'.fail "Syntax error") := by
        simp only [exprEnd, State.cell, h.top]
      simp only [hst, bind, Except.bind, hend, Option.bind_some]
      cases hc : OpTree.collapse A.interp x.1 x.2 with
      | none =>
          rw [hc] at hreduce
          obtain ⟨fault, hfault⟩ := hreduce
          simp [hfault]
      | some w =>
          rw [hc] at hreduce
          obtain ⟨st', hst', h', _⟩ := hreduce
          have hsp' : st'.sp = 0 := h'.sp
          have hvalue := h'.value
          rw [hsp'] at hvalue
          simp [hst', hsp', State.cell, hvalue, pure, Except.pure]

end Swig4Ada.Preprocessor

import Swig4Ada.Preprocessor.Expr

/-!
# The reductions of the `#if` evaluator

`exprReductions` lists the states in which `Preprocessor_expr` calls `reduce_op`. That these
are all of them and no others is seen with another function in the place of `reduce_op`, one
that stops in the states with some property: the evaluation stops with it just when a state
of the list has the property.
-/

namespace Swig4Ada.Preprocessor

/-! ## The reductions of an evaluation -/

section Reductions

variable {α σ : Type} (A : Arithmetic α) (S : StringField σ)

/-- The states that `reduce_op` is called in by the loop of reductions. -/
def allReductions : Nat → State α σ → List (State α σ)
  | 0, _ => []
  | fuel + 1, st =>
      if 0 < st.sp ∧ (st.cell (st.sp - 1)).op = .op then
        st :: (match reduceOp A S st with
          | .ok st' => allReductions fuel st'
          | .error _ => [])
      else []

/-- The states that `reduce_op` is called in for a token behind a value. -/
def operatorReductions (st : State α σ) (token : Token) : List (State α σ) :=
  match token with
  | .op o =>
      if isUnaryOp o ∨ st.sp = 0 ∨ (st.cell (st.sp - 1)).op ≠ .op then []
      else if prec (st.cell (st.sp - 1)).token ≤ prec o then [st]
      else []
  | .rparen => allReductions A S st.sp st
  | _ => []

def stepReductions (st : State α σ) (token : Token) : List (State α σ) :=
  if (st.cell st.sp).op = .value then operatorReductions A S st token else []

/-- The states that `reduce_op` is called in for the tokens that are left. -/
def runReductions : List Token → State α σ → List (State α σ)
  | [], st => if (st.cell st.sp).op = .value then allReductions A S st.sp st else []
  | token :: tokens, st =>
      stepReductions A S st token ++ (match exprStep A S st token with
        | .ok st' => runReductions tokens st'
        | .error _ => [])

end Reductions

/-- All the states that `Preprocessor_expr` calls `reduce_op` in, for an expression. -/
def exprReductions (tokens : List Token) (stack : PStack Int) : List (PState Int) :=
  runReductions longArithmetic pointers (tokens.filter (!isSkipped ·))
    (exprStart longArithmetic stack)

/-! ## The calls of `reduce_op` -/

section Stopped

variable {α σ β : Type} (A : Arithmetic α) (S : StringField σ)
  (reduce : State α σ → Run α σ (State α σ))

/-- `reduceAll`, with another function in the place of `reduce_op`. -/
def reduceAllWith : Nat → State α σ → Run α σ (State α σ)
  | 0, st => .ok st
  | fuel + 1, st =>
      if 0 < st.sp ∧ (st.cell (st.sp - 1)).op = .op then do
        reduceAllWith fuel (← reduce st)
      else .ok st

def readOperatorWith (st : State α σ) (token : Token) : Run α σ (State α σ) :=
  match token with
  | .op o =>
      if isUnaryOp o then st.fail "Syntax error: expected operator"
      else if st.sp = 0 ∨ (st.cell (st.sp - 1)).op = .group then pushBinary A st o
      else if (st.cell (st.sp - 1)).op ≠ .op then st.fail "Syntax error: expected operator"
      else if prec (st.cell (st.sp - 1)).token ≤ prec o then do
        pushBinary A (← reduce st) o
      else pushBinary A st o
  | .rparen =>
      if st.sp = 0 then st.fail "Extra ')'"
      else do
        let st ← reduceAllWith reduce st.sp st
        if st.sp = 0 ∨ (st.cell (st.sp - 1)).op ≠ .group then st.fail "Extra ')'"
        else
          let value := (st.cell st.sp).value
          return { st.modify (st.sp - 1) fun c => { c with op := .value, value := value } with
            sp := st.sp - 1 }
  | _ => st.fail "Syntax error: expected operator"

def exprStepWith (st : State α σ) (token : Token) : Run α σ (State α σ) :=
  match (st.cell st.sp).op with
  | .top => readOperand A S st token
  | .value => readOperatorWith A reduce st token
  | .op | .group => st.undefined

def exprEndWith (st : State α σ) : Run α σ (α × Stack α σ) :=
  match (st.cell st.sp).op with
  | .top => st.fail "Expected an expression"
  | .value => do
      let st ← reduceAllWith reduce st.sp st
      if st.sp = 0 then return ((st.cell 0).value, st.stack)
      else if (st.cell (st.sp - 1)).op = .group then st.fail "Missing ')'"
      else st.fail "Syntax error"
  | .op | .group => st.undefined

/-- The loop of `Preprocessor_expr` from a state on, with another function in the place of
`reduce_op`. -/
def runWith (tokens : List Token) (st : State α σ) : Run α σ (α × Stack α σ) := do
  exprEndWith reduce (← tokens.foldlM (exprStepWith A S reduce) st)

theorem reduceAllWith_reduceOp (fuel : Nat) (st : State α σ) :
    reduceAllWith (reduceOp A S) fuel st = reduceAll A S fuel st := by
  induction fuel generalizing st with
  | zero => rfl
  | succ fuel ih =>
      rw [reduceAllWith, reduceAll]
      split
      · cases reduceOp A S st with
        | error e => rfl
        | ok st₁ => exact ih st₁
      · rfl

theorem exprStepWith_reduceOp (st : State α σ) (token : Token) :
    exprStepWith A S (reduceOp A S) st token = exprStep A S st token := by
  unfold exprStepWith exprStep readOperatorWith readOperator
  cases (st.cell st.sp).op with
  | value => cases token <;> simp only [reduceAllWith_reduceOp]
  | _ => rfl

theorem exprEndWith_reduceOp (st : State α σ) :
    exprEndWith (reduceOp A S) st = exprEnd A S st := by
  unfold exprEndWith exprEnd
  cases (st.cell st.sp).op with
  | value => simp only [reduceAllWith_reduceOp]
  | _ => rfl

/-- With `reduce_op` itself it is the loop of `Preprocessor_expr`. -/
theorem runWith_reduceOp (tokens : List Token) (st : State α σ) :
    runWith A S (reduceOp A S) tokens st =
      (do exprEnd A S (← tokens.foldlM (exprStep A S) st)) := by
  have hstep : exprStepWith A S (reduceOp A S) = exprStep A S :=
    funext fun st => funext fun token => exprStepWith_reduceOp A S st token
  have hend : exprEndWith (reduceOp A S) = exprEnd A S := funext (exprEndWith_reduceOp A S)
  rw [runWith, hstep, hend]

variable (P : State α σ → Prop) [DecidablePred P] (e : Fault × Stack α σ)

/-- `reduce_op`, stopped with `e` in the states with a property. -/
def stopAt (st : State α σ) : Run α σ (State α σ) :=
  if P st then .error e else reduceOp A S st

variable {A S P e}

theorem reduceAll_stopAt (fuel : Nat) (st : State α σ) :
    reduceAllWith (stopAt A S P e) fuel st =
      if ∃ r ∈ allReductions A S fuel st, P r then .error e else reduceAll A S fuel st := by
  induction fuel generalizing st with
  | zero => rw [if_neg (by rintro ⟨r, hr, -⟩; exact absurd hr List.not_mem_nil)]; rfl
  | succ fuel ih =>
      rw [reduceAllWith, allReductions, reduceAll]
      by_cases hop : 0 < st.sp ∧ (st.cell (st.sp - 1)).op = .op
      · rw [if_pos hop, if_pos hop, if_pos hop, stopAt]
        by_cases hp : P st
        · rw [if_pos hp, if_pos ⟨st, List.mem_cons_self, hp⟩]
          rfl
        · rw [if_neg hp]
          cases reduceOp A S st with
          | error e' =>
              rw [if_neg (by simpa using hp)]
              rfl
          | ok st₁ =>
              refine (ih st₁).trans (if_congr ?_ rfl rfl)
              simp [hp]
      · rw [if_neg hop, if_neg hop, if_neg hop, if_neg (by simp)]

theorem readOperator_stopAt (st : State α σ) (token : Token) :
    readOperatorWith A (stopAt A S P e) st token =
      if ∃ r ∈ operatorReductions A S st token, P r then .error e
      else readOperator A S st token := by
  cases token with
  | op o =>
      unfold readOperatorWith readOperator operatorReductions
      simp only
      by_cases hu : isUnaryOp o = true
      · rw [if_pos hu, if_pos hu, if_pos (Or.inl hu), if_neg (by simp)]
      rw [if_neg hu, if_neg hu]
      by_cases hg : st.sp = 0 ∨ (st.cell (st.sp - 1)).op = .group
      · have hnone : isUnaryOp o = true ∨ st.sp = 0 ∨ (st.cell (st.sp - 1)).op ≠ .op := by
          rcases hg with hzero | hg
          · exact Or.inr (Or.inl hzero)
          · exact Or.inr (Or.inr (by rw [hg]; decide))
        rw [if_pos hg, if_pos hg, if_pos hnone, if_neg (by simp)]
      rw [if_neg hg, if_neg hg]
      by_cases hop : (st.cell (st.sp - 1)).op ≠ .op
      · rw [if_pos hop, if_pos hop, if_pos (Or.inr (Or.inr hop)), if_neg (by simp)]
      have hnot : ¬ (isUnaryOp o = true ∨ st.sp = 0 ∨ (st.cell (st.sp - 1)).op ≠ .op) := by
        rintro (h | h | h)
        · exact hu h
        · exact hg (Or.inl h)
        · exact hop h
      rw [if_neg hop, if_neg hop, if_neg hnot]
      by_cases hprec : prec (st.cell (st.sp - 1)).token ≤ prec o
      · rw [if_pos hprec, if_pos hprec, if_pos hprec, stopAt]
        by_cases hp : P st
        · rw [if_pos hp, if_pos ⟨st, List.mem_singleton_self st, hp⟩]
          rfl
        · rw [if_neg hp, if_neg (by simpa using hp)]
      · rw [if_neg hprec, if_neg hprec, if_neg hprec, if_neg (by simp)]
  | rparen =>
      unfold readOperatorWith readOperator operatorReductions
      simp only
      by_cases hzero : st.sp = 0
      · rw [if_pos hzero, if_pos hzero, hzero, if_neg]
        rintro ⟨r, hr, -⟩
        exact absurd hr List.not_mem_nil
      rw [if_neg hzero, if_neg hzero, reduceAll_stopAt]
      split
      · rfl
      · rfl
  | _ => exact (if_neg (by simp [operatorReductions])).symm

theorem exprStep_stopAt (st : State α σ) (token : Token) :
    exprStepWith A S (stopAt A S P e) st token =
      if ∃ r ∈ stepReductions A S st token, P r then .error e else exprStep A S st token := by
  unfold exprStepWith exprStep stepReductions
  cases hop : (st.cell st.sp).op with
  | value =>
      rw [if_pos rfl]
      exact readOperator_stopAt st token
  | _ => exact (if_neg (by simp)).symm

theorem exprEnd_stopAt (st : State α σ) :
    exprEndWith (stopAt A S P e) st =
      if ∃ r ∈ runReductions A S [] st, P r then .error e else exprEnd A S st := by
  unfold exprEndWith exprEnd
  rw [runReductions]
  cases hop : (st.cell st.sp).op with
  | value =>
      rw [if_pos rfl]
      simp only
      rw [reduceAll_stopAt]
      split
      · rfl
      · rfl
  | _ => exact (if_neg (by simp)).symm

/-- A loop with `reduce_op` stopped in the states with a property ends there just when one
of the listed states has it, and else as before: they are the states of the calls. -/
theorem run_stopAt (tokens : List Token) (st : State α σ) :
    runWith A S (stopAt A S P e) tokens st =
      if ∃ r ∈ runReductions A S tokens st, P r then .error e
      else (do exprEnd A S (← tokens.foldlM (exprStep A S) st)) := by
  induction tokens generalizing st with
  | nil => exact exprEnd_stopAt st
  | cons token tokens ih =>
      have hrun : runWith A S (stopAt A S P e) (token :: tokens) st =
          (exprStepWith A S (stopAt A S P e) st token >>=
            runWith A S (stopAt A S P e) tokens) := by
        unfold runWith
        rw [List.foldlM_cons, bind_assoc]
      rw [hrun, exprStep_stopAt, runReductions, List.foldlM_cons, bind_assoc]
      by_cases hstep : ∃ r ∈ stepReductions A S st token, P r
      · obtain ⟨r, hr, hp⟩ := hstep
        rw [if_pos ⟨r, hr, hp⟩, if_pos ⟨r, List.mem_append_left _ hr, hp⟩]
        rfl
      · rw [if_neg hstep]
        cases exprStep A S st token with
        | error e' =>
            rw [if_neg]
            · rfl
            · rw [List.append_nil]
              exact hstep
        | ok st₁ =>
            refine (ih st₁).trans (if_congr ?_ rfl rfl)
            constructor
            · rintro ⟨r, hr, hp⟩
              exact ⟨r, List.mem_append_right _ hr, hp⟩
            · rintro ⟨r, hr, hp⟩
              rcases List.mem_append.1 hr with hr | hr
              · exact absurd ⟨r, hr, hp⟩ hstep
              · exact ⟨r, hr, hp⟩

end Stopped

/-- What `Preprocessor_expr` returns, and the array that it leaves. -/
def endOf {α σ : Type} : Run α σ (α × Stack α σ) → Except Fault α × Stack α σ
  | .ok (v, stack') => (.ok v, stack')
  | .error (fault, stack') => (.error fault, stack')

theorem preprocessorExpr_eq {α σ : Type} (A : Arithmetic α) (S : StringField σ)
    (tokens : List Token) (stack : Stack α σ) :
    preprocessorExpr A S tokens stack =
      endOf (runWith A S (reduceOp A S) (tokens.filter (!isSkipped ·)) (exprStart A stack)) := by
  rw [runWith_reduceOp, preprocessorExpr]
  split
  · next heq => rw [heq, endOf]
  · next heq => rw [heq, endOf]

/-- Stopped in the states with a property, an evaluation stops just when one of its reductions
has it. -/
theorem exprReductions_calls (tokens : List Token) (stack : PStack Int)
    (P : PState Int → Prop) [DecidablePred P] (fault : Fault) (stack' : PStack Int) :
    endOf (runWith longArithmetic pointers (stopAt longArithmetic pointers P (fault, stack'))
        (tokens.filter (!isSkipped ·)) (exprStart longArithmetic stack)) =
      if ∃ st ∈ exprReductions tokens stack, P st then (.error fault, stack')
      else preprocessorExpr longArithmetic pointers tokens stack := by
  rw [run_stopAt, exprReductions, preprocessorExpr_eq, runWith_reduceOp]
  split
  · rfl
  · rfl

end Swig4Ada.Preprocessor

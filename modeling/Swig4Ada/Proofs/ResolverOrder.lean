import Swig4Ada.Lib.Rows
import Swig4Ada.Proofs.ResolverReading

/-!
# The order in which the resolver applies operators

`resultOf` is a sequence of passes, so what it makes of a row of elements is the
value of a tree grouped by the order of those passes. This module identifies
`reduceUnary` and `reduce` with the passes of the library, and concludes that
the value of an expression, over any arithmetic, is the one of C exactly when
the order of the passes groups it as C does.
-/

namespace Swig4Ada.Ada

open Swig4Ada.Lib

variable {α : Type}

/-- The operators on values with their type qualifiers. -/
def tagged (D : Discrete α) : Interp OpCode (α × String) where
  un u x := do return (← D.unary u x.1, x.2)
  bin o l r := do return (← D.binary o l.1 r.1, resultQualifier o l.2 r.2)

/-- The elements of an operand. -/
def operandElements (x : OpTree.Operand OpCode (α × String)) : List (Element α) :=
  x.1.map .operator ++ [.value x.2.1 x.2.2]

/-- The elements of a row. -/
def rowElements (x : OpTree.Operand OpCode (α × String)) :
    List (OpCode × OpTree.Operand OpCode (α × String)) → List (Element α)
  | [] => operandElements x
  | (o, y) :: row => operandElements x ++ .operator o :: rowElements y row

/-- What an atom of a row is read as. -/
def atomReading (D : Discrete α) : OpTree OpCode Literal → Option (α × String)
  | .leaf n => some (D.ofInt n.value, defaultQualifier)
  | .paren t => readingOf D t
  | _ => none

theorem rowElements_un (u : OpCode) (x : OpTree.Operand OpCode (α × String))
    (row : List (OpCode × OpTree.Operand OpCode (α × String))) :
    rowElements (u :: x.1, x.2) row = .operator u :: rowElements x row := by
  cases row <;> rfl

theorem rowElements_append (x y : OpTree.Operand OpCode (α × String)) (o : OpCode)
    (row row' : List (OpCode × OpTree.Operand OpCode (α × String))) :
    rowElements x (row ++ (o, y) :: row') =
      rowElements x row ++ .operator o :: rowElements y row' := by
  induction row generalizing x with
  | nil => rfl
  | cons z row ih =>
      obtain ⟨p, z⟩ := z
      rw [List.cons_append, rowElements, rowElements, ih]
      simp

theorem vectorOf_eq (D : Discrete α) (t : OpTree OpCode Literal) :
    vectorOf D t =
      (OpTree.chainValues (atomReading D) t).map fun row => rowElements row.1 row.2 := by
  induction t with
  | leaf n => rfl
  | paren t _ =>
      rw [vectorOf, OpTree.chainValues, OpTree.chain]
      simp only [atomReading, readingOf]
      cases h : vectorOf D t with
      | none => rfl
      | some v =>
          simp only [Option.bind_eq_bind, Option.bind_some]
          cases resultOf D v <;> rfl
  | un u t ih =>
      rw [vectorOf, OpTree.chainValues_un, ih]
      cases OpTree.chainValues (atomReading D) t with
      | none => rfl
      | some row => exact congrArg some (rowElements_un u row.1 row.2).symm
  | bin o l r ihl ihr =>
      rw [vectorOf, OpTree.chainValues_bin, ihl, ihr]
      cases OpTree.chainValues (atomReading D) l with
      | none => rfl
      | some left =>
          cases OpTree.chainValues (atomReading D) r with
          | none => rfl
          | some right => exact congrArg some (rowElements_append _ _ _ _ _).symm

/-! ## The unary passes -/

/-- An operator that does not follow a value is in a unary place. -/
theorem reduceUnary_place {D : Discrete α} {p code : OpCode}
    {previous : Option (Element α)} {rest : List (Element α)}
    (hprev : ∀ w q, previous ≠ some (.value w q)) :
    reduceUnary D p previous (.operator code :: rest) =
      if code = p then
        match rest with
        | .value v q :: rest' => do
            let v' ← D.unary p v
            return .value v' q :: (← reduceUnary D p (some (.value v' q)) rest')
        | _ => none
      else do return .operator code :: (← reduceUnary D p (some (.operator code)) rest) := by
  cases previous with
  | none => exact reduceUnary.eq_def D p none _
  | some e =>
      cases e with
      | operator o => exact reduceUnary.eq_def D p (some (.operator o)) _
      | value w q => exact absurd rfl (hprev w q)

theorem reduceUnary_operand {D : Discrete α} {p : OpCode} {rest : List (Element α)}
    {result : Option (List (Element α))}
    (hrest : ∀ v q, reduceUnary D p (some (.value v q)) rest = result) (us : List OpCode)
    (v : α × String) :
    ∀ (previous : Option (Element α)), (∀ w q, previous ≠ some (.value w q)) →
      reduceUnary D p previous (operandElements (us, v) ++ rest) = do
        let x ← OpTree.unaryPass ((tagged D).un p) p us v
        return operandElements x ++ (← result) := by
  induction us with
  | nil =>
      intro previous _
      simp only [operandElements, List.map_nil, List.nil_append, List.cons_append]
      rw [reduceUnary, hrest]
      cases result <;> rfl
  | cons u us ih =>
      intro previous hprev
      have hcons : operandElements (u :: us, v) = .operator u :: operandElements (us, v) := rfl
      rw [hcons, List.cons_append, reduceUnary_place hprev, OpTree.unaryPass]
      by_cases hu : u = p
      · rw [if_pos hu, if_pos hu]
        cases us with
        | nil =>
            simp only [operandElements, List.map_nil, List.nil_append, List.cons_append,
              hrest, tagged]
            cases D.unary p v.1 <;> cases result <;> rfl
        | cons w ws => rfl
      · rw [if_neg hu, if_neg hu, ih (some (.operator u)) (by simp)]
        cases OpTree.unaryPass ((tagged D).un p) p us v <;> cases result <;> rfl

/-- A pass of `reduceUnary` is a unary pass over every operand of the row. -/
theorem reduceUnary_row {D : Discrete α} {p : OpCode}
    (row : List (OpCode × OpTree.Operand OpCode (α × String))) :
    ∀ (x : OpTree.Operand OpCode (α × String)) (previous : Option (Element α)),
      (∀ w q, previous ≠ some (.value w q)) →
      reduceUnary D p previous (rowElements x row) = do
        let x' ← OpTree.unaryPass ((tagged D).un p) p x.1 x.2
        let row' ← OpTree.traverseRow
          (fun y => OpTree.unaryPass ((tagged D).un p) p y.1 y.2) row
        return rowElements x' row' := by
  induction row with
  | nil =>
      intro x previous hprev
      have hend : ∀ v q, reduceUnary D p (some (.value v q)) [] = some [] := fun _ _ => rfl
      have := reduceUnary_operand hend x.1 x.2 previous hprev
      rw [List.append_nil] at this
      rw [rowElements]
      refine this.trans ?_
      cases OpTree.unaryPass ((tagged D).un p) p x.1 x.2 <;>
        simp [OpTree.traverseRow, rowElements]
  | cons y row ih =>
      intro x previous hprev
      obtain ⟨o, y⟩ := y
      rw [rowElements]
      have hrest : ∀ v q, reduceUnary D p (some (.value v q)) (.operator o :: rowElements y row) =
          do return .operator o :: (← reduceUnary D p (some (.operator o)) (rowElements y row)) :=
        fun _ _ => by rw [reduceUnary]
      refine (reduceUnary_operand hrest x.1 x.2 previous hprev).trans ?_
      rw [ih y _ (by simp), OpTree.traverseRow]
      cases OpTree.unaryPass ((tagged D).un p) p x.1 x.2 with
      | none => rfl
      | some x' =>
          cases OpTree.unaryPass ((tagged D).un p) p y.1 y.2 with
          | none => rfl
          | some y' =>
              cases OpTree.traverseRow
                (fun y => OpTree.unaryPass ((tagged D).un p) p y.1 y.2) row <;> rfl

theorem reduceUnary_passes {D : Discrete α} (ps : List OpCode) :
    ∀ (x : OpTree.Operand OpCode (α × String))
      (row : List (OpCode × OpTree.Operand OpCode (α × String))),
      ps.foldlM (fun pad code => reduceUnary D code none pad) (rowElements x row) = do
        let x' ← OpTree.unaryPasses (tagged D).un ps x
        let row' ← OpTree.traverseRow (OpTree.unaryPasses (tagged D).un ps) row
        return rowElements x' row' := by
  induction ps with
  | nil =>
      intro x row
      have : OpTree.traverseRow (OpTree.unaryPasses (tagged D).un []) row = some row := by
        induction row with
        | nil => rfl
        | cons y row ih =>
            rw [OpTree.traverseRow, ih]
            rfl
      simp only [this]
      rfl
  | cons p ps ih =>
      intro x row
      have hpasses : ∀ y, OpTree.unaryPasses (tagged D).un (p :: ps) y =
          (OpTree.unaryPass ((tagged D).un p) p y.1 y.2).bind
            (OpTree.unaryPasses (tagged D).un ps) := fun _ => rfl
      have hrow : OpTree.traverseRow (OpTree.unaryPasses (tagged D).un (p :: ps)) row =
          (OpTree.traverseRow
            (fun y => OpTree.unaryPass ((tagged D).un p) p y.1 y.2) row).bind
            (OpTree.traverseRow (OpTree.unaryPasses (tagged D).un ps)) :=
        (OpTree.traverseRow_bind _ _ row).symm
      rw [List.foldlM_cons, reduceUnary_row _ _ _ (by simp), hrow, hpasses x]
      cases OpTree.unaryPass ((tagged D).un p) p x.1 x.2 with
      | none => rfl
      | some x' =>
          cases OpTree.traverseRow
              (fun y => OpTree.unaryPass ((tagged D).un p) p y.1 y.2) row with
          | none => cases h : OpTree.unaryPasses (tagged D).un ps x' <;> simp [h]
          | some row' => exact ih x' row'

/-! ## The binary passes -/

/-- The elements of a row without unary operators. -/
def valueElements (v : α × String) : List (OpCode × (α × String)) → List (Element α)
  | [] => [.value v.1 v.2]
  | (o, w) :: row => .value v.1 v.2 :: .operator o :: valueElements w row

theorem rowElements_values (v : α × String) (row : List (OpCode × (α × String))) :
    rowElements ([], v) (row.map fun y => (y.1, ([], y.2))) = valueElements v row := by
  induction row generalizing v with
  | nil => rfl
  | cons y row ih =>
      rw [List.map_cons, rowElements, ih]
      rfl

theorem valueElements_cons (v : α × String) (row : List (OpCode × (α × String))) :
    ∃ rest, valueElements v row = .value v.1 v.2 :: rest ∧
      ∀ w : α × String, valueElements w row = .value w.1 w.2 :: rest := by
  cases row with
  | nil => exact ⟨[], rfl, fun _ => rfl⟩
  | cons y row => exact ⟨_, rfl, fun _ => rfl⟩

theorem reduceFirst_operator {D : Discrete α} {p code : OpCode} {l r : α} {lq rq : String}
    {before after : List (Element α)} :
    reduceFirst D p (.value l lq :: before) (.operator code :: .value r rq :: after) =
      if code = p then do
        return some (before.reverse ++
          .value (← D.binary p l r) (resultQualifier p lq rq) :: after)
      else reduceFirst D p (.operator code :: .value l lq :: before)
        (.value r rq :: after) := by
  rw [reduceFirst.eq_def]

theorem reduceFirst_values {D : Discrete α} {p : OpCode}
    (row : List (OpCode × (α × String))) :
    ∀ (before : List (Element α)) (v : α × String),
      reduceFirst D p before (valueElements v row) =
        (OpTree.passOnce ((tagged D).bin p) p v row).map fun found =>
          found.map fun x => before.reverse ++ valueElements x.1 x.2 := by
  induction row with
  | nil => intro before v; rfl
  | cons y row ih =>
      intro before v
      obtain ⟨o, w⟩ := y
      obtain ⟨rest, hw, hrest⟩ := valueElements_cons w row
      rw [valueElements, reduceFirst, hw, reduceFirst_operator, OpTree.passOnce]
      by_cases ho : o = p
      · rw [if_pos ho, if_pos ho]
        simp only [tagged]
        cases D.binary p v.1 w.1 with
        | none => rfl
        | some r => simp [hrest]
      · rw [if_neg ho, if_neg ho, ← hw, ih]
        cases OpTree.passOnce ((tagged D).bin p) p w row with
        | none => rfl
        | some found => cases found <;> simp [valueElements]

/-- `reduce` is a binary pass. -/
theorem reduce_values {D : Discrete α} {p : OpCode} (fuel : Nat) :
    ∀ (v : α × String) (row : List (OpCode × (α × String))), row.length ≤ fuel →
      reduce D p fuel (valueElements v row) =
        (OpTree.pass ((tagged D).bin p) p v row).map fun x => valueElements x.1 x.2 := by
  induction fuel with
  | zero =>
      intro v row hf
      obtain rfl : row = [] := List.length_eq_zero_iff.1 (by omega)
      rfl
  | succ fuel ih =>
      intro v row hf
      rw [reduce, reduceFirst_values, OpTree.pass_eq_passOnce]
      cases hfound : OpTree.passOnce ((tagged D).bin p) p v row with
      | none => rfl
      | some found =>
          cases found with
          | none => rfl
          | some x =>
              have hlen := OpTree.passOnce_length hfound
              exact ih x.1 x.2 (by omega)

theorem valueElements_length (v : α × String) (row : List (OpCode × (α × String))) :
    row.length ≤ (valueElements v row).length := by
  induction row generalizing v with
  | nil => simp
  | cons y row ih =>
      have := ih y.2
      simp only [valueElements, List.length_cons]
      omega

theorem reduce_passes {D : Discrete α} (ps : List OpCode) :
    ∀ (v : α × String) (row : List (OpCode × (α × String))),
      ps.foldlM (fun pad code => reduce D code pad.length pad) (valueElements v row) =
        (OpTree.passes (tagged D).bin ps v row).map fun x => valueElements x.1 x.2 := by
  induction ps with
  | nil => intro v row; rfl
  | cons p ps ih =>
      intro v row
      rw [List.foldlM_cons, reduce_values _ _ _ (valueElements_length v row), OpTree.passes]
      cases OpTree.pass ((tagged D).bin p) p v row with
      | none => rfl
      | some x => exact ih x.1 x.2

/-! ## A row's result -/

/-- The position of an operator's pass. -/
def unaryRank (o : OpCode) : Nat := unaryPasses.idxOf o

def binaryRank (o : OpCode) : Nat := binaryPasses.idxOf o

theorem resultOf_row {D : Discrete α} {x : OpTree.Operand OpCode (α × String)}
    {row : List (OpCode × OpTree.Operand OpCode (α × String))}
    (hx : ∀ u ∈ x.1, u ∈ unaryPasses) (hrow : ∀ y ∈ row, ∀ u ∈ y.2.1, u ∈ unaryPasses) :
    resultOf D (rowElements x row) =
      (OpTree.rowValue (tagged D) unaryRank binaryPasses (x, row)).bind fun
        | (v, []) => some v
        | _ => none := by
  have hoperand : ∀ y : OpTree.Operand OpCode (α × String), (∀ u ∈ y.1, u ∈ unaryPasses) →
      OpTree.unaryPasses (tagged D).un unaryPasses y =
        (OpTree.operandValue (tagged D) unaryRank y).map fun v => ([], v) := by
    intro y hy
    refine (OpTree.unaryPasses_eq unaryRank _ y.1 y.2 (by decide) hy).trans ?_
    rw [OpTree.operandValue]
    split
    · cases y.1.foldrM (tagged D).un y.2 <;> rfl
    · rfl
  have htail : OpTree.traverseRow (OpTree.unaryPasses (tagged D).un unaryPasses) row =
      (OpTree.traverseRow (OpTree.operandValue (tagged D) unaryRank) row).map fun vs =>
        vs.map fun y => (y.1, ([], y.2)) := by
    clear hx
    induction row with
    | nil => rfl
    | cons y row ih =>
        obtain ⟨o, y⟩ := y
        rw [OpTree.traverseRow, OpTree.traverseRow, hoperand y (hrow _ List.mem_cons_self),
          ih fun z hz => hrow z (List.mem_cons_of_mem _ hz)]
        cases OpTree.operandValue (tagged D) unaryRank y with
        | none => rfl
        | some v =>
            cases OpTree.traverseRow (OpTree.operandValue (tagged D) unaryRank) row <;> rfl
  rw [resultOf, reduceUnary_passes, hoperand x hx, htail, OpTree.rowValue]
  cases OpTree.operandValue (tagged D) unaryRank x with
  | none => rfl
  | some v =>
      cases OpTree.traverseRow (OpTree.operandValue (tagged D) unaryRank) row with
      | none => rfl
      | some vs =>
          simp only [Option.map_some, Option.bind_eq_bind, Option.bind_some, Option.pure_def,
            rowElements_values, reduce_passes]
          cases OpTree.passes (tagged D).bin binaryPasses v vs with
          | none => rfl
          | some y =>
              obtain ⟨w, ws⟩ := y
              cases ws <;> rfl

theorem wellPlaced_chain {t : OpTree OpCode Literal} (hw : WellPlaced t) :
    (∀ u ∈ t.chain.1.1, u ∈ unaryPasses) ∧
      (∀ y ∈ t.chain.2, ∀ u ∈ y.2.1, u ∈ unaryPasses) ∧
      ∀ o ∈ t.exposed, o ∈ binaryPasses := by
  induction t with
  | leaf n => simp [OpTree.chain, OpTree.exposed]
  | paren t _ => simp [OpTree.chain, OpTree.exposed]
  | un u t ih =>
      obtain ⟨h1, h2, h3⟩ := ih hw.2
      refine ⟨fun w hmem => ?_, h2, h3⟩
      rcases List.mem_cons.1 hmem with rfl | hmem
      · have := hw.1
        revert this
        cases w <;> decide
      · exact h1 w hmem
  | bin o l r ihl ihr =>
      obtain ⟨h1, h2, h3⟩ := ihl hw.2.1
      obtain ⟨h4, h5, h6⟩ := ihr hw.2.2
      refine ⟨h1, fun y hy => ?_, fun p hp => ?_⟩
      · rcases List.mem_append.1 hy with hy | hy
        · exact h2 y hy
        · rcases List.mem_cons.1 hy with rfl | hy
          · exact h4
          · exact h5 y hy
      · rcases List.mem_append.1 hp with hp | hp
        · exact h3 p hp
        · rcases List.mem_cons.1 hp with rfl | hp
          · have := hw.1
            revert this
            cases p <;> decide
          · exact h6 p hp

theorem chainValues_operators {g : OpTree OpCode Literal → Option (α × String)}
    {t : OpTree OpCode Literal} {row} (h : t.chainValues g = some row) :
    row.1.1 = t.chain.1.1 ∧ ∀ y ∈ row.2, ∃ z ∈ t.chain.2, y.2.1 = z.2.1 := by
  obtain ⟨v, _, h⟩ := Option.bind_eq_some_iff.1 h
  obtain ⟨vs, hvs, h⟩ := Option.bind_eq_some_iff.1 h
  obtain rfl := Option.some.inj h
  refine ⟨rfl, fun y hy => ?_⟩
  obtain ⟨z, hz, hy⟩ := OpTree.mem_traverseRow hvs y hy
  obtain ⟨w, _, hw⟩ := Option.bind_eq_some_iff.1 hy
  exact ⟨z, hz, congrArg Prod.fst (Option.some.inj hw).symm⟩

theorem readingOf_eq {t : OpTree OpCode Literal} (hw : WellPlaced t) (D : Discrete α) :
    readingOf D t =
      ((t.chainValues (atomReading D)).bind
        (OpTree.rowValue (tagged D) unaryRank binaryPasses)).bind fun
        | (v, []) => some v
        | _ => none := by
  obtain ⟨hx, hrow, _⟩ := wellPlaced_chain hw
  rw [readingOf, vectorOf_eq]
  cases h : t.chainValues (atomReading D) with
  | none => rfl
  | some row =>
      obtain ⟨h1, h2⟩ := chainValues_operators h
      refine resultOf_row (x := row.1) (h1 ▸ hx) fun y hy => ?_
      obtain ⟨z, hz, heq⟩ := h2 y hy
      exact heq ▸ hrow z hz

theorem readingOf_eq_none {t : OpTree OpCode Literal} (hw : WellPlaced t)
    (h : ¬ t.LevelUnaryOrder unaryRank) (D : Discrete α) : readingOf D t = none := by
  have hnone := OpTree.rowValue_none (I := tagged D) (g := atomReading D) binaryPasses h
  rw [Option.bind_eq_bind] at hnone
  rw [readingOf_eq hw, hnone]
  rfl

/-- The reading of a row is the value of the tree that the passes group. -/
theorem readingOf_level {t : OpTree OpCode Literal} (hw : WellPlaced t)
    (h : t.LevelUnaryOrder unaryRank) :
    ∃ t' : OpTree OpCode Literal, t'.items = t.items ∧ t'.LevelGrouped binaryRank ∧
      ∀ (α : Type) (D : Discrete α),
        readingOf D t = t'.evalLevel (tagged D) (atomReading D) := by
  obtain ⟨_, _, hops⟩ := wellPlaced_chain hw
  obtain ⟨t', hitems, hlg, hval⟩ :=
    OpTree.rowValue_tree unaryRank binaryRank binaryPasses (by decide) hops h
  refine ⟨t', hitems, hlg, fun α D => ?_⟩
  have hval := hval _ (tagged D) (atomReading D)
  rw [Option.bind_eq_bind] at hval
  rw [readingOf_eq hw, hval]
  cases t'.evalLevel (tagged D) (atomReading D) <;> rfl

end Swig4Ada.Ada

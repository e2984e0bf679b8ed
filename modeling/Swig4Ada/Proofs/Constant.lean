import Swig4Ada.Ada.CExpression
import Swig4Ada.Ada.Constant

/-!
# The constants that are bound

The wrapper looks at the first two characters of the value's text after it has
evaluated it and before it binds the name. A text of one character raises there, the
handler swallows the exception, and the name is left unbound; so does a name that was
bound before keep its old value. This is the condition exactly: a new name, and a text
of two characters or more.
-/

namespace Swig4Ada.Ada

/-! ## What an Ada literal denotes -/

/-- The digits of a numeral, all of them below its base. -/
def numeralValue (base : Nat) (digits : List Char) : Option Nat :=
  if digits ≠ [] ∧ digits.all (fun c => isHexDigit c && digitValue c < base) then
    some (digits.foldl (fun n c => n * base + digitValue c) 0)
  else none

/-- A decimal literal, or a based one such as `16#1F#`. -/
def literalValue (text : List Char) : Option Nat :=
  match text.splitOn '#' with
  | [digits] => numeralValue 10 digits
  | [base, digits, []] => do
      let base ← numeralValue 10 base
      if 2 ≤ base ∧ base ≤ 16 then numeralValue base digits else none
  | _ => none

/-- A literal with a minus sign before it or not. -/
def adaValue (text : List Char) : Option Int :=
  match text.dropWhile (· = ' ') with
  | '-' :: literal => (literalValue literal).map fun n => -(n : Int)
  | literal => (literalValue literal).map fun n => (n : Int)

/-- The images of a number denote it. -/
def Images.Denote (I : Images Int) (v : Int) : Prop :=
  adaValue (I.image v) = some v ∧ adaValue (I.hexImage v) = some v ∧
    adaValue (I.octImage v) = some v

/-- The image in the radix that a text begins with. -/
def Images.imageFor {α : Type} (I : Images α) (valueText : List Char) (v : α) : List Char :=
  if valueText.take 2 = "0x".toList then I.hexImage v
  else if valueText.take 1 = "0".toList then I.octImage v
  else I.image v

theorem Images.Denote.imageFor {I : Images Int} {v : Int} (h : I.Denote v)
    (valueText : List Char) : adaValue (I.imageFor valueText v) = some v := by
  rw [Images.imageFor]
  split
  · exact h.2.1
  · split
    · exact h.2.2
    · exact h.1

/-! ## The block -/

variable {α : Type} {D : Discrete α} {I : Images α} {self : Constants α}
  {theName valueText : List Char} {v : α}

/-- The expression of the value is worth `v`, for the resolver. -/
def EvaluatesTo (D : Discrete α) (self : Constants α) (valueText : List Char) (v : α) : Prop :=
  resolvedCIntegerExpression D self.integerSymbolValueMap self.currentClassNamespacePrefix
    valueText = .ok v

theorem slice_ok {low high : Nat} (hlow : low ≤ valueText.length + 1)
    (hhigh : high ≤ valueText.length) :
    slice valueText low high = .ok ((valueText.drop (low - 1)).take (high + 1 - low)) := by
  rw [slice, if_neg (by omega)]

theorem slice_short {low high : Nat} (h : valueText.length < high) :
    slice valueText low high = .error .indexError := by
  rw [slice, if_pos (Or.inr h)]

theorem evaluateBlock_failed
    (h : ∀ v, ¬ EvaluatesTo D self valueText v) :
    evaluateBlock D I self theName valueText = (valueText, none) := by
  rw [evaluateBlock]
  cases hrun : resolvedCIntegerExpression D self.integerSymbolValueMap
      self.currentClassNamespacePrefix valueText with
  | error fault => rfl
  | ok v => exact absurd hrun (h v)

theorem evaluateBlock_short (h : EvaluatesTo D self valueText v) (hlen : valueText.length < 2) :
    evaluateBlock D I self theName valueText = (valueText, none) := by
  rw [evaluateBlock, show resolvedCIntegerExpression D self.integerSymbolValueMap
    self.currentClassNamespacePrefix valueText = .ok v from h]
  simp only [slice_short hlen]

theorem evaluateBlock_long (h : EvaluatesTo D self valueText v) (hlen : 2 ≤ valueText.length) :
    evaluateBlock D I self theName valueText =
      (I.imageFor valueText v,
        if (self.integerSymbolValueMap theName).isSome then none
        else some (Function.update self.integerSymbolValueMap theName (some v))) := by
  rw [evaluateBlock, show resolvedCIntegerExpression D self.integerSymbolValueMap
    self.currentClassNamespacePrefix valueText = .ok v from h]
  simp only [slice_ok (show 1 ≤ valueText.length + 1 by omega) hlen,
    slice_ok (show 1 ≤ valueText.length + 1 by omega) (show 1 ≤ valueText.length by omega)]
  by_cases hsome : (self.integerSymbolValueMap theName).isSome = true
  · rw [if_pos hsome, if_pos hsome]
    rfl
  · rw [if_neg hsome, if_neg hsome]
    rfl

/-! ## The wrapper -/

/-- The name is bound to the value, and the constant that is appended denotes it. -/
def Records (self self' : Constants Int) (theName : List Char) (v : Int) : Prop :=
  self'.integerSymbolValueMap theName = some v ∧
    ∃ myType value, self'.newCVariables = self.newCVariables ++ [⟨theName, myType, value⟩] ∧
      adaValue value = some v

/-- The text that a constant is left with when its name is not bound anew. -/
def leftText (I : Images Int) (self : Constants Int) (theType : ConstantType)
    (valueText : List Char) (v : Int) : Except ConstantFault (ConstantType × List Char) :=
  if theType.isNumeric then
    exceptionHandler self theType
      (if 2 ≤ valueText.length then I.imageFor valueText v else valueText)
  else .ok (theType, valueText)

theorem constantWrapper_new {I : Images Int} {self : Constants Int} {theNode : ConstantNode}
    {theType : ConstantType} {v : Int}
    (htype : self.swigTypeMapOfCType theNode.type = some theType)
    (hnumeric : theType.isNumeric = true) (hv : EvaluatesTo gmp self theNode.value v)
    (hnew : self.integerSymbolValueMap theNode.symName = none)
    (hlen : 2 ≤ theNode.value.length) :
    constantWrapper gmp I self theNode = .ok { self with
      integerSymbolValueMap :=
        Function.update self.integerSymbolValueMap theNode.symName (some v)
      newCVariables := self.newCVariables ++
        [⟨theNode.symName, theType, I.imageFor theNode.value v⟩] } := by
  rw [constantWrapper, htype]
  simp only [if_pos hnumeric, evaluateBlock_long hv hlen, hnew]
  rfl

theorem constantWrapper_left {I : Images Int} {self : Constants Int} {theNode : ConstantNode}
    {theType : ConstantType} {v : Int}
    (htype : self.swigTypeMapOfCType theNode.type = some theType)
    (hv : EvaluatesTo gmp self theNode.value v)
    (hold : ¬ (theType.isNumeric = true ∧
      self.integerSymbolValueMap theNode.symName = none ∧ 2 ≤ theNode.value.length)) :
    constantWrapper gmp I self theNode =
      (leftText I self theType theNode.value v).map fun left => { self with
        newCVariables := self.newCVariables ++ [⟨theNode.symName, left.1, left.2⟩] } := by
  rw [constantWrapper, htype, leftText]
  by_cases hnumeric : theType.isNumeric = true
  · simp only [if_pos hnumeric]
    rcases Nat.lt_or_ge theNode.value.length 2 with hlen | hlen
    · simp only [evaluateBlock_short hv hlen, if_neg (show ¬ 2 ≤ theNode.value.length by omega)]
      cases exceptionHandler self theType theNode.value <;> rfl
    · have hsome : (self.integerSymbolValueMap theNode.symName).isSome = true := by
        rw [Option.isSome_iff_ne_none]
        exact fun hnone => hold ⟨hnumeric, hnone, hlen⟩
      simp only [evaluateBlock_long hv hlen, if_pos hsome, if_pos hlen]
      cases exceptionHandler self theType (I.imageFor theNode.value v) <;> rfl
  · simp only [if_neg hnumeric]
    rfl

/-- A numeric constant with a new name and a text of two characters or more is recorded. -/
theorem constantWrapper_records {I : Images Int} {self : Constants Int}
    {theNode : ConstantNode} {theType : ConstantType} {v : Int}
    (htype : self.swigTypeMapOfCType theNode.type = some theType)
    (hnumeric : theType.isNumeric = true)
    (hv : EvaluatesTo gmp self theNode.value v) (hdenote : I.Denote v)
    (hnew : self.integerSymbolValueMap theNode.symName = none)
    (hlen : 2 ≤ theNode.value.length) :
    ∃ self', constantWrapper gmp I self theNode = .ok self' ∧
      Records self self' theNode.symName v := by
  refine ⟨_, constantWrapper_new htype hnumeric hv hnew hlen, ?_, theType, _, rfl,
    hdenote.imageFor theNode.value⟩
  exact Function.update_self _ _ _

/-- Any other is recorded only if its name was bound to the value before. -/
theorem bound_of_records {I : Images Int} {self self' : Constants Int}
    {theNode : ConstantNode} {theType : ConstantType} {v : Int}
    (htype : self.swigTypeMapOfCType theNode.type = some theType)
    (hv : EvaluatesTo gmp self theNode.value v)
    (hold : ¬ (theType.isNumeric = true ∧
      self.integerSymbolValueMap theNode.symName = none ∧ 2 ≤ theNode.value.length))
    (hrun : constantWrapper gmp I self theNode = .ok self')
    (hrecords : Records self self' theNode.symName v) :
    self.integerSymbolValueMap theNode.symName = some v ∧
      ∃ left, leftText I self theType theNode.value v = .ok left ∧ adaValue left.2 = some v := by
  obtain ⟨hbound, myType, value, hvariables, hvalue⟩ := hrecords
  rw [constantWrapper_left htype hv hold] at hrun
  cases hleft : leftText I self theType theNode.value v with
  | error fault =>
      rw [hleft] at hrun
      cases hrun
  | ok left =>
      rw [hleft] at hrun
      cases hrun
      obtain ⟨-, -, rfl⟩ : theNode.symName = theNode.symName ∧ left.1 = myType ∧
        left.2 = value := by simpa using hvariables
      exact ⟨hbound, left, rfl, hvalue⟩

/-- A constant with a new name is recorded just when it is numeric and its text has two
characters or more. -/
theorem constantWrapper_newName {I : Images Int} {self : Constants Int}
    {theNode : ConstantNode} {theType : ConstantType} {v : Int}
    (htype : self.swigTypeMapOfCType theNode.type = some theType)
    (hv : EvaluatesTo gmp self theNode.value v) (hdenote : I.Denote v)
    (hnew : self.integerSymbolValueMap theNode.symName = none) :
    (∃ self', constantWrapper gmp I self theNode = .ok self' ∧
        Records self self' theNode.symName v) ↔
      theType.isNumeric = true ∧ 2 ≤ theNode.value.length := by
  constructor
  · rintro ⟨self', hrun, hrecords⟩
    by_contra hno
    have hold : ¬ (theType.isNumeric = true ∧
        self.integerSymbolValueMap theNode.symName = none ∧ 2 ≤ theNode.value.length) :=
      fun h => hno ⟨h.1, h.2.2⟩
    have hbound := (bound_of_records htype hv hold hrun hrecords).1
    rw [hnew] at hbound
    cases hbound
  · rintro ⟨hnumeric, hlen⟩
    exact constantWrapper_records htype hnumeric hv hdenote hnew hlen

/-- A constant whose value is `v` is recorded if it is a numeric one with a new name and
a text of two characters or more, and else only when its name was bound to `v` already
and the text it is left with denotes `v`. Where nothing is evaluated nothing is bound. -/
theorem constantWrapper_iff (I : Images Int) (self : Constants Int) (theNode : ConstantNode) :
    ((∀ v, ¬ EvaluatesTo gmp self theNode.value v) →
      ∀ self', constantWrapper gmp I self theNode = .ok self' →
        self'.integerSymbolValueMap = self.integerSymbolValueMap) ∧
    ∀ v, EvaluatesTo gmp self theNode.value v → I.Denote v →
      ((∃ self', constantWrapper gmp I self theNode = .ok self' ∧
          Records self self' theNode.symName v) ↔
        ∃ theType, self.swigTypeMapOfCType theNode.type = some theType ∧
          (theType.isNumeric = true ∧ self.integerSymbolValueMap theNode.symName = none ∧
              2 ≤ theNode.value.length ∨
            self.integerSymbolValueMap theNode.symName = some v ∧
              ∃ left, leftText I self theType theNode.value v = .ok left ∧
                adaValue left.2 = some v)) := by
  refine ⟨fun hfail self' hrun => ?_, fun v hv hdenote => ⟨?_, ?_⟩⟩
  · rw [constantWrapper] at hrun
    cases htype : self.swigTypeMapOfCType theNode.type with
    | none =>
        rw [htype] at hrun
        cases hrun
    | some theType =>
        rw [htype] at hrun
        simp only [evaluateBlock_failed hfail] at hrun
        split at hrun
        · cases hleft : exceptionHandler self theType theNode.value with
          | error fault =>
              rw [hleft] at hrun
              cases hrun
          | ok left =>
              rw [hleft] at hrun
              cases hrun
              rfl
        · cases hrun
          rfl
  · rintro ⟨self', hrun, hrecords⟩
    cases htype : self.swigTypeMapOfCType theNode.type with
    | none =>
        rw [constantWrapper, htype] at hrun
        cases hrun
    | some theType =>
        refine ⟨theType, rfl, ?_⟩
        by_cases hnew : theType.isNumeric = true ∧
            self.integerSymbolValueMap theNode.symName = none ∧ 2 ≤ theNode.value.length
        · exact Or.inl hnew
        · exact Or.inr (bound_of_records htype hv hnew hrun hrecords)
  · rintro ⟨theType, htype, ⟨hnumeric, hnew, hlen⟩ | ⟨hbound, left, hleft, hvalue⟩⟩
    · exact constantWrapper_records htype hnumeric hv hdenote hnew hlen
    · have hold : ¬ (theType.isNumeric = true ∧
          self.integerSymbolValueMap theNode.symName = none ∧ 2 ≤ theNode.value.length) := by
        rintro ⟨-, hnone, -⟩
        rw [hbound] at hnone
        cases hnone
      have hrun := constantWrapper_left (I := I) htype hv hold
      rw [hleft] at hrun
      exact ⟨_, hrun, hbound, left.1, left.2, rfl, hvalue⟩

/-! ## `#define` with one digit and with two -/

def decimalImages : Images Int where
  image
    | .ofNat n => Nat.toDigits 10 n
    | .negSucc n => '-' :: Nat.toDigits 10 (n + 1)
  hexImage
    | .ofNat n => "16#".toList ++ Nat.toDigits 16 n ++ "#".toList
    | .negSucc n => "-16#".toList ++ Nat.toDigits 16 (n + 1) ++ "#".toList
  octImage
    | .ofNat n => "8#".toList ++ Nat.toDigits 8 n ++ "#".toList
    | .negSucc n => "-8#".toList ++ Nat.toDigits 8 (n + 1) ++ "#".toList

def noConstants : Constants Int where
  swigTypeMapOfCType := fun _ => some ⟨"int".toList, "interfaces.c.int".toList⟩
  integerSymbolValueMap := fun _ => none
  currentClassNamespacePrefix := []
  newCVariables := []

/-- `#define SIZE 5`: the expression is worth 5, and the name is not bound. -/
theorem constantWrapper_one_digit :
    EvaluatesTo gmp noConstants "5".toList 5 ∧
      ∃ self', constantWrapper gmp decimalImages noConstants
          ⟨"SIZE".toList, "int".toList, "5".toList⟩ = .ok self' ∧
        self'.integerSymbolValueMap "SIZE".toList = none :=
  ⟨rfl, _, rfl, rfl⟩

/-- `#define SIZE 0x1f`. -/
theorem constantWrapper_hex :
    ∃ self', constantWrapper gmp decimalImages noConstants
        ⟨"SIZE".toList, "int".toList, "0x1f".toList⟩ = .ok self' ∧
      Records noConstants self' "SIZE".toList 31 := by
  have hiff := (constantWrapper_iff decimalImages noConstants
    ⟨"SIZE".toList, "int".toList, "0x1f".toList⟩).2 31 rfl ⟨by decide, by decide, by decide⟩
  exact hiff.2 ⟨_, rfl, Or.inl ⟨by decide, rfl, by decide⟩⟩

end Swig4Ada.Ada

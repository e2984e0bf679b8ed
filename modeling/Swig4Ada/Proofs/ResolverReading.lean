import Swig4Ada.Ada.CExpression

/-!
# What the resolver reads from the text of a C expression

The reading loop turns the text of an expression into the elements of its row:
the operators as they stand, a literal as its value, and a parenthesis as the
value of the reading inside it. `vectorOf` is that vector, and
`resolveRecursive_tree` says that the loop, given any spacing of the tokens,
appends it and goes on behind the expression.

The loop looks at the pad only from its front, so all that matters about what
follows an expression is that it does not run on: after a literal no digit and
no `x`, after `|` and `&` not the same character again.
-/

namespace Swig4Ada.Ada

open Swig4Ada.Lib

variable {α : Type}

/-- The elements the resolver collects for a tree. -/
def vectorOf (D : Discrete α) : OpTree OpCode Literal → Option (List (Element α))
  | .leaf n => some [.value (D.ofInt n.value) defaultQualifier]
  | .paren t => do
      let reading ← resultOf D (← vectorOf D t)
      return [.value reading.1 reading.2]
  | .un u t => do return .operator u :: (← vectorOf D t)
  | .bin o l r => do return (← vectorOf D l) ++ .operator o :: (← vectorOf D r)

/-- The value and type qualifier that the resolver gives to a tree. -/
def readingOf (D : Discrete α) (t : OpTree OpCode Literal) : Option (α × String) := do
  resultOf D (← vectorOf D t)

/-! ## Literals -/

theorem isDigit_cases {c : Char} (h : isDigit c = true) :
    c ∈ ['0', '1', '2', '3', '4', '5', '6', '7', '8', '9'] := by
  have hc : '0'.toNat ≤ c.toNat ∧ c.toNat ≤ '9'.toNat := by
    simpa [isDigit, Char.le_def, UInt32.le_iff_toNat_le] using h
  have hn : c.toNat ∈ List.range' 48 10 := by
    rw [List.mem_range'_1]
    exact ⟨hc.1, Nat.lt_of_le_of_lt hc.2 (by decide)⟩
  rw [← Char.ofNat_toNat c]
  generalize c.toNat = n at hn
  revert n
  decide

theorem findToken_append {set : Char → Bool} {run rest : List Char} (hne : run ≠ [])
    (hrun : ∀ c ∈ run, set c = true) (hrest : ∀ c, rest.head? = some c → set c = false) :
    findToken set (run ++ rest) = ([], run, rest) := by
  have hstop : rest.takeWhile set = [] ∧ rest.dropWhile set = rest := by
    cases rest with
    | nil => simp
    | cons c cs => simp [hrest c rfl]
  have hfront : (run ++ rest).takeWhile (!set ·) = [] ∧
      (run ++ rest).dropWhile (!set ·) = run ++ rest := by
    cases run with
    | nil => exact absurd rfl hne
    | cons c cs => simp [hrun c List.mem_cons_self]
  unfold findToken
  simp only [hfront.1, hfront.2]
  rw [List.takeWhile_append_of_pos hrun, List.dropWhile_append_of_pos hrun, hstop.1,
    hstop.2, List.append_nil]

theorem toIntDecimal_digits {digits : List Char} :
    ∀ {n : Nat}, (∀ c ∈ digits, isDigit c = true) →
      toIntDecimal false n digits =
        some (digits.foldl (fun n c => n * 10 + digitValue c) n : Nat) := by
  induction digits with
  | nil => intro n _; rfl
  | cons c cs ih =>
      intro n hd
      have hc := hd c List.mem_cons_self
      have hne : c ≠ '-' ∧ c ≠ ' ' ∧ c ≠ '(' ∧ c ≠ ')' := by
        refine ⟨?_, ?_, ?_, ?_⟩ <;> rintro rfl <;> exact absurd hc (by decide)
      rw [toIntDecimal, if_neg hne.1, if_neg (by simp [hne.2.1, hne.2.2.1]),
        if_neg hne.2.2.2, if_pos hc, List.foldl_cons]
      have := @ih (n * 10 + digitValue c) fun x hx => hd x (List.mem_cons_of_mem _ hx)
      rw [← this]
      simp [digitValue, hc]

theorem toIntHex_digits {digits : List Char} :
    ∀ {n : Nat}, (∀ c ∈ digits, isHexDigit c = true) →
      toIntHex false n digits =
        some (digits.foldl (fun n c => n * 16 + digitValue c) n : Nat) := by
  induction digits with
  | nil => intro n _; rfl
  | cons c cs ih =>
      intro n hd
      have hc := hd c List.mem_cons_self
      have hne : c ≠ '-' ∧ c ≠ ' ' := by
        refine ⟨?_, ?_⟩ <;> rintro rfl <;> exact absurd hc (by decide)
      have hrest := @ih (n * 16 + digitValue c) fun x hx => hd x (List.mem_cons_of_mem _ hx)
      rw [toIntHex, if_neg hne.1, if_neg hne.2, List.foldl_cons, ← hrest]
      unfold digitValue
      split
      · simp
      · split
        · simp
        · have : 'a' ≤ c ∧ c ≤ 'f' := by simp_all [isHexDigit]
          rw [if_pos this]
          simp

theorem index_zero_x_digits {digits : List Char} (hd : ∀ c ∈ digits, isDigit c = true) :
    index ['0', 'x'] digits = none := by
  induction digits with
  | nil => rfl
  | cons c cs ih =>
      have hrest := ih fun x hx => hd x (List.mem_cons_of_mem _ hx)
      have hpre : ['0', 'x'].isPrefixOf (c :: cs) = false := by
        cases cs with
        | nil => simp [List.isPrefixOf]
        | cons d ds =>
            have hx : d ≠ 'x' := by
              rintro rfl
              exact absurd (hd 'x' (by simp)) (by decide)
            simp [List.isPrefixOf, Ne.symm hx]
      rw [index, hpre, hrest]
      rfl

theorem toInt_literal (n : Literal) : toInt n.text = some (n.value : Int) := by
  cases n with
  | decimal digits _ hd _ =>
      rw [toInt, Literal.text, index_zero_x_digits hd]
      exact toIntDecimal_digits hd
  | hexadecimal digits _ hd =>
      have : index ['0', 'x'] ('0' :: 'x' :: digits) = some 0 := rfl
      rw [toInt, Literal.text, this]
      exact toIntHex_digits hd

/-- What follows a literal does not run on from it. -/
def StopsLiteral (rest : List Char) : Prop :=
  ∀ c, rest.head? = some c → isHexLiteralChar c = false

theorem literal_text_cons (n : Literal) :
    ∃ c cs, n.text = c :: cs ∧ isDigit c = true := by
  cases n with
  | decimal digits hne hd _ =>
      cases digits with
      | nil => exact absurd rfl hne
      | cons c cs => exact ⟨c, cs, rfl, hd c List.mem_cons_self⟩
  | hexadecimal digits _ _ => exact ⟨'0', 'x' :: digits, rfl, rfl⟩

/-- No test before those for numbers holds of a pad that starts with a digit. -/
theorem findFirst_digit {isSingle : Bool} {c : Char} {cs : List Char}
    (hc : isDigit c = true) :
    findFirst isSingle c cs =
      if (c :: cs).take 2 = ['0', 'x'] then findLiteral isHexLiteralChar (c :: cs)
      else findLiteral isDigit (c :: cs) := by
  have hmem := isDigit_cases hc
  simp only [List.mem_cons, List.not_mem_nil, or_false] at hmem
  rcases hmem with rfl | rfl | rfl | rfl | rfl | rfl | rfl | rfl | rfl | rfl <;>
    simp [findFirst, toUpper, hc]

theorem findFirst_literal {isSingle : Bool} (n : Literal) {rest : List Char}
    (hstop : StopsLiteral rest) {c : Char} {cs : List Char}
    (htext : n.text ++ rest = c :: cs) :
    findFirst isSingle c cs = .ok (.literal n.value, rest) := by
  obtain ⟨d, ds, hcons, hd⟩ := literal_text_cons n
  have hc : isDigit c = true := by
    rw [hcons, List.cons_append] at htext
    rw [← (List.cons.inj htext).1]
    exact hd
  rw [findFirst_digit hc]
  have hval := toInt_literal n
  cases n with
  | decimal digits hne hdig hoct =>
      change digits ++ rest = c :: cs at htext
      change toInt digits = _ at hval
      have hx : ¬ (digits ++ rest).take 2 = ['0', 'x'] := by
        intro htake
        cases digits with
        | nil => exact hne rfl
        | cons a as =>
            obtain ⟨rfl, h2⟩ : a = '0' ∧ (as ++ rest).take 1 = ['x'] := by
              simpa using htake
            have has : as = [] := by simpa using hoct rfl
            subst has
            cases rest with
            | nil => simp at h2
            | cons b bs =>
                obtain rfl : b = 'x' := by simpa using h2
                exact absurd (hstop 'x' rfl) (by decide)
      have htok : findToken isDigit (digits ++ rest) = ([], digits, rest) :=
          findToken_append hne hdig fun c hc => by
        have := hstop c hc
        simp [isHexLiteralChar] at this
        exact this.1.1.1
      rw [← htext, if_neg hx, findLiteral, htok]
      simp only [hval, List.nil_append]
  | hexadecimal digits hne hdig =>
      change '0' :: 'x' :: digits ++ rest = c :: cs at htext
      change toInt ('0' :: 'x' :: digits) = _ at hval
      have hrun : ∀ c ∈ '0' :: 'x' :: digits, isHexLiteralChar c = true := by
        intro c hc
        rcases List.mem_cons.1 hc with rfl | hc
        · decide
        · rcases List.mem_cons.1 hc with rfl | hc
          · decide
          · have := hdig c hc
            simp only [isHexDigit, Bool.or_eq_true] at this
            simp only [isHexLiteralChar, Bool.or_eq_true]
            tauto
      have htok := findToken_append (by simp) hrun hstop
      rw [← htext, if_pos (by simp), findLiteral, htok]
      simp only [hval, List.nil_append]

/-! ## Operators and spaces -/

/-- What follows `|` or `&` does not make it `||` or `&&`. -/
def StopsOperator (rest : List Char) : Prop :=
  ∀ c, rest.head? = some c → c ≠ '|' ∧ c ≠ '&'

theorem findFirst_operator {isSingle : Bool} (o : OpCode) {rest : List Char}
    (hstop : StopsOperator rest) {c : Char} {cs : List Char}
    (htext : operatorText o ++ rest = c :: cs) :
    findFirst isSingle c cs = .ok (.operator o, rest) := by
  cases o <;> simp only [operatorText, List.cons_append, List.nil_append,
    List.cons.injEq] at htext <;> obtain ⟨rfl, rfl⟩ := htext
  case or =>
    cases rest with
    | nil => simp [findFirst, toUpper]
    | cons d ds =>
        have := (hstop d rfl).1
        simp [findFirst, toUpper, this]
  case and =>
    cases rest with
    | nil => simp [findFirst, toUpper]
    | cons d ds =>
        have := (hstop d rfl).2
        simp [findFirst, toUpper, this]
  all_goals simp [findFirst, toUpper]

theorem operatorText_cons (o : OpCode) :
    ∃ c cs, operatorText o = c :: cs ∧ isHexLiteralChar c = false := by
  cases o <;> exact ⟨_, _, rfl, by decide⟩

theorem resolveRecursive_spaces {D : Discrete α} {knownSymbols : SymbolMap α}
    {nameSpace : List Char} {isSingle : Bool} {text : List Char}
    {elements : List (Element α)} (n : Nat) :
    ∀ {fuel : Nat}, n + text.length + 1 ≤ fuel →
      ∃ fuel', text.length + 1 ≤ fuel' ∧ fuel' ≤ fuel ∧
        resolveRecursive D knownSymbols nameSpace isSingle fuel
            (List.replicate n ' ' ++ text) elements =
          resolveRecursive D knownSymbols nameSpace isSingle fuel' text elements := by
  induction n with
  | zero => exact fun hf => ⟨_, by omega, Nat.le_refl _, rfl⟩
  | succ n ih =>
      intro fuel hf
      cases fuel with
      | zero => omega
      | succ fuel =>
          obtain ⟨fuel', h1, h2, heq⟩ := @ih fuel (by omega)
          refine ⟨fuel', h1, by omega, ?_⟩
          rw [List.replicate_succ, List.cons_append, resolveRecursive, ← heq]
          simp [findFirst, bind, Except.bind]

/-! ## Expressions -/

theorem resolveRecursive_operator {D : Discrete α} {knownSymbols : SymbolMap α}
    {nameSpace : List Char} {isSingle : Bool} {rest : List Char}
    {elements : List (Element α)} (o : OpCode) {fuel : Nat} (hstop : StopsOperator rest)
    (hf : (operatorText o ++ rest).length + 1 ≤ fuel) :
    ∃ fuel', rest.length + 1 ≤ fuel' ∧
      resolveRecursive D knownSymbols nameSpace isSingle fuel (operatorText o ++ rest)
          elements =
        resolveRecursive D knownSymbols nameSpace isSingle fuel' rest
          (elements ++ [.operator o]) := by
  obtain ⟨c, cs, hcons, _⟩ := operatorText_cons o
  have hfind := @findFirst_operator isSingle o rest hstop c (cs ++ rest) (by rw [hcons]; rfl)
  rw [hcons] at hf ⊢
  simp only [List.length_append, List.length_cons] at hf
  cases fuel with
  | zero => omega
  | succ fuel =>
      refine ⟨fuel, by omega, ?_⟩
      rw [List.cons_append, resolveRecursive, hfind]
      rfl

theorem resolveRecursive_literal {D : Discrete α} {knownSymbols : SymbolMap α}
    {nameSpace : List Char} {isSingle : Bool} {rest : List Char}
    {elements : List (Element α)} (n : Literal) {fuel : Nat} (hstop : StopsLiteral rest)
    (hf : (n.text ++ rest).length + 1 ≤ fuel) :
    ∃ fuel', rest.length + 1 ≤ fuel' ∧
      resolveRecursive D knownSymbols nameSpace isSingle fuel (n.text ++ rest) elements =
        resolveRecursive D knownSymbols nameSpace isSingle fuel' rest
          (elements ++ [.value (D.ofInt n.value) defaultQualifier]) := by
  obtain ⟨c, cs, hcons, _⟩ := literal_text_cons n
  have hfind := @findFirst_literal isSingle n rest hstop c (cs ++ rest) (by rw [hcons]; rfl)
  rw [hcons] at hf ⊢
  simp only [List.length_append, List.length_cons] at hf
  cases fuel with
  | zero => omega
  | succ fuel =>
      refine ⟨fuel, by omega, ?_⟩
      rw [List.cons_append, resolveRecursive, hfind]
      rfl

theorem resolveRecursive_close {D : Discrete α} {knownSymbols : SymbolMap α}
    {nameSpace : List Char} {isSingle : Bool} {rest : List Char}
    {elements : List (Element α)} (n : Nat) {fuel : Nat}
    (hf : (List.replicate n ' ' ++ ([')'] ++ rest)).length + 1 ≤ fuel) :
    resolveRecursive D knownSymbols nameSpace isSingle fuel
        (List.replicate n ' ' ++ ([')'] ++ rest)) elements =
      match resultOf D elements with
      | some reading => .ok (reading, rest)
      | none => .error .constraintError := by
  simp only [List.length_append, List.length_replicate] at hf
  obtain ⟨fuel', hf', _, heq⟩ :=
    @resolveRecursive_spaces _ D knownSymbols nameSpace isSingle ([')'] ++ rest)
      elements n fuel (by simp only [List.length_append]; omega)
  rw [heq]
  cases fuel' with
  | zero => omega
  | succ fuel' =>
      have hclose : findFirst isSingle ')' rest = .ok (.closeParen, rest) := by
        simp [findFirst, toUpper]
      rw [List.cons_append, List.nil_append, resolveRecursive, hclose]
      cases hr : resultOf D elements <;> rfl

/-- The tokens that may come after an operand: none, or one that starts with
neither a digit, a hexadecimal digit nor an `x`. -/
def FollowsOperand (ts : List (List Char)) : Prop :=
  ∀ token, ts.head? = some token →
    ∃ c cs, token = c :: cs ∧ isHexLiteralChar c = false

theorem spaced_cons {token : List Char} {ts : List (List Char)} {text : List Char}
    (h : Spaced (token :: ts) text) :
    ∃ n rest, text = List.replicate n ' ' ++ (token ++ rest) ∧ Spaced ts rest := by
  cases h with
  | cons n hrest => exact ⟨n, _, rfl, hrest⟩

theorem stopsLiteral_of_follows {ts : List (List Char)} {text : List Char}
    (hts : FollowsOperand ts) (h : Spaced ts text) : StopsLiteral text := by
  intro c hc
  cases h with
  | nil n =>
      cases n with
      | zero => simp at hc
      | succ n =>
          obtain rfl : ' ' = c := by simpa [List.replicate_succ] using hc
          decide
  | cons n hrest =>
      cases n with
      | zero =>
          obtain ⟨d, ds, rfl, hd⟩ := hts _ rfl
          obtain rfl : d = c := by simpa using hc
          exact hd
      | succ n =>
          obtain rfl : ' ' = c := by simpa [List.replicate_succ] using hc
          decide

theorem follows_operator (o : OpCode) (ts : List (List Char)) :
    FollowsOperand (operatorText o :: ts) := by
  intro token ht
  obtain rfl : operatorText o = token := by simpa using ht
  exact operatorText_cons o

/-- An operand starts with a digit, a parenthesis or a unary operator. -/
theorem tokens_head {t : OpTree OpCode Literal} (hw : WellPlaced t) :
    ∃ c cs ts, tokens t = (c :: cs) :: ts ∧ c ≠ '|' ∧ c ≠ '&' := by
  induction t with
  | leaf n =>
      obtain ⟨c, cs, hcons, hc⟩ := literal_text_cons n
      refine ⟨c, cs, [], by rw [tokens, hcons], ?_, ?_⟩ <;> rintro rfl <;>
        exact absurd hc (by decide)
  | paren t _ => exact ⟨'(', [], _, rfl, by decide, by decide⟩
  | un u t _ => cases u <;> first
      | exact absurd hw.1 (by decide)
      | exact ⟨_, _, _, rfl, by decide, by decide⟩
  | bin o l r ihl _ =>
      obtain ⟨c, cs, ts, hts, hc⟩ := ihl hw.2.1
      exact ⟨c, cs, ts ++ operatorText o :: tokens r, by rw [tokens, hts]; rfl, hc⟩

theorem stopsOperator_of_tokens {t : OpTree OpCode Literal} (hw : WellPlaced t)
    {ts : List (List Char)} {text : List Char} (h : Spaced (tokens t ++ ts) text) :
    StopsOperator text := by
  obtain ⟨c, cs, ts', hts, hc⟩ := tokens_head hw
  rw [hts, List.cons_append] at h
  obtain ⟨n, rest, rfl, _⟩ := spaced_cons h
  intro d hd
  cases n with
  | zero =>
      obtain rfl : c = d := by simpa using hd
      exact hc
  | succ n =>
      obtain rfl : ' ' = d := by simpa [List.replicate_succ] using hd
      decide

/-- The loop reads the tokens of a tree as the tree's elements. -/
theorem resolveRecursive_tree {D : Discrete α} {knownSymbols : SymbolMap α}
    {nameSpace : List Char} {isSingle : Bool} (t : OpTree OpCode Literal) :
    ∀ {ts : List (List Char)} {text : List Char} {fuel : Nat}
      {elements : List (Element α)},
      WellPlaced t → Spaced (tokens t ++ ts) text → FollowsOperand ts →
      text.length + 1 ≤ fuel →
      ∃ text' fuel', Spaced ts text' ∧ text'.length ≤ text.length ∧
        text'.length + 1 ≤ fuel' ∧
        resolveRecursive D knownSymbols nameSpace isSingle fuel text elements =
          match vectorOf D t with
          | some v => resolveRecursive D knownSymbols nameSpace isSingle fuel' text'
              (elements ++ v)
          | none => .error .constraintError := by
  induction t with
  | leaf n =>
      intro ts text fuel elements _ h hts hf
      obtain ⟨k, rest, rfl, hrest⟩ := spaced_cons h
      obtain ⟨fuel₁, hf₁, _, heq₁⟩ :=
        @resolveRecursive_spaces _ D knownSymbols nameSpace isSingle (n.text ++ rest)
          elements k fuel (by simpa [Nat.add_assoc] using hf)
      obtain ⟨fuel₂, hf₂, heq₂⟩ :=
        @resolveRecursive_literal _ D knownSymbols nameSpace isSingle rest elements n fuel₁
          (stopsLiteral_of_follows hts hrest) hf₁
      exact ⟨rest, fuel₂, hrest, by simp only [List.length_append]; omega, hf₂,
        heq₁.trans heq₂⟩
  | paren t ih =>
      intro ts text fuel elements hw h hts hf
      rw [tokens, List.cons_append] at h
      obtain ⟨k, rest, rfl, hrest⟩ := spaced_cons h
      obtain ⟨fuel₁, hf₁, _, heq₁⟩ :=
        @resolveRecursive_spaces _ D knownSymbols nameSpace isSingle (['('] ++ rest)
          elements k fuel (by simpa [Nat.add_assoc] using hf)
      have hclose : FollowsOperand ([')'] :: ts) := by
        intro token ht
        obtain rfl : [')'] = token := by simpa using ht
        exact ⟨')', [], rfl, by decide⟩
      cases fuel₁ with
      | zero => omega
      | succ fuel₁ =>
          simp only [List.length_append, List.length_cons, List.length_nil] at hf₁
          obtain ⟨inner, fuel₂, hinner, hlen, hf₂, heq₂⟩ :=
            @ih ([')'] :: ts) rest fuel₁ [] hw (by simpa using hrest) hclose (by omega)
          obtain ⟨j, rest', rfl, hrest'⟩ := spaced_cons hinner
          simp only [List.length_append, List.length_cons] at hlen
          refine ⟨rest', fuel₁, hrest', by simp only [List.length_append]; omega, by omega,
            heq₁.trans ?_⟩
          have hopen : findFirst isSingle '(' rest = .ok (.openParen, rest) := by
            simp [findFirst, toUpper]
          rw [List.cons_append, List.nil_append, resolveRecursive, hopen, vectorOf]
          simp only [bind, Except.bind, heq₂]
          cases vectorOf D t with
          | none => rfl
          | some v =>
              simp only [List.nil_append, resolveRecursive_close j hf₂, Option.bind_some]
              cases resultOf D v <;> rfl
  | un u t ih =>
      intro ts text fuel elements hw h hts hf
      rw [tokens, List.cons_append] at h
      obtain ⟨k, rest, rfl, hrest⟩ := spaced_cons h
      obtain ⟨fuel₁, hf₁, _, heq₁⟩ :=
        @resolveRecursive_spaces _ D knownSymbols nameSpace isSingle
          (operatorText u ++ rest) elements k fuel (by simpa [Nat.add_assoc] using hf)
      obtain ⟨fuel₂, hf₂, heq₂⟩ :=
        @resolveRecursive_operator _ D knownSymbols nameSpace isSingle rest elements u
          fuel₁ (stopsOperator_of_tokens hw.2 hrest) hf₁
      obtain ⟨text', fuel₃, htext', hlen, hf₃, heq₃⟩ := ih hw.2 hrest hts hf₂
      refine ⟨text', fuel₃, htext', by simp only [List.length_append]; omega, hf₃, (heq₁.trans heq₂).trans (heq₃.trans ?_)⟩
      rw [vectorOf]
      cases vectorOf D t with
      | none => rfl
      | some v => simp
  | bin o l r ihl ihr =>
      intro ts text fuel elements hw h hts hf
      rw [tokens, List.append_assoc, List.cons_append] at h
      obtain ⟨text₁, fuel₁, htext₁, hlen₁, hf₁, heq₁⟩ :=
        @ihl _ _ _ elements hw.2.1 h (follows_operator o _) hf
      obtain ⟨k, rest, rfl, hrest⟩ := spaced_cons htext₁
      simp only [List.length_append] at hlen₁
      -- From the operator on, for whatever the left operand has added.
      have hright : ∀ elements, ∃ text' fuel', Spaced ts text' ∧
          text'.length ≤ text.length ∧ text'.length + 1 ≤ fuel' ∧
          resolveRecursive D knownSymbols nameSpace isSingle fuel₁
              (List.replicate k ' ' ++ (operatorText o ++ rest)) elements =
            match vectorOf D r with
            | some v => resolveRecursive D knownSymbols nameSpace isSingle fuel' text'
                (elements ++ [.operator o] ++ v)
            | none => .error .constraintError := by
        intro elements
        obtain ⟨fuel₂, hf₂, _, heq₂⟩ :=
          @resolveRecursive_spaces _ D knownSymbols nameSpace isSingle
            (operatorText o ++ rest) elements k fuel₁ (by simpa [Nat.add_assoc] using hf₁)
        obtain ⟨fuel₃, hf₃, heq₃⟩ :=
          @resolveRecursive_operator _ D knownSymbols nameSpace isSingle rest elements o
            fuel₂ (stopsOperator_of_tokens hw.2.2 hrest) hf₂
        obtain ⟨text', fuel₄, htext', hlen, hf₄, heq₄⟩ :=
          @ihr _ _ _ (elements ++ [.operator o]) hw.2.2 hrest hts hf₃
        exact ⟨text', fuel₄, htext', by omega, hf₄, (heq₂.trans heq₃).trans heq₄⟩
      cases hl : vectorOf D l with
      | none =>
          obtain ⟨text', fuel', h1, h2, h3, _⟩ := hright []
          refine ⟨text', fuel', h1, h2, h3, heq₁.trans ?_⟩
          rw [vectorOf, hl]
          rfl
      | some v =>
          obtain ⟨text', fuel', h1, h2, h3, heq₂⟩ := hright (elements ++ v)
          refine ⟨text', fuel', h1, h2, h3, heq₁.trans ?_⟩
          rw [vectorOf, hl]
          refine heq₂.trans ?_
          cases vectorOf D r with
          | none => rfl
          | some w => simp

/-- What the resolver answers for the text of an expression. -/
theorem resolvedCIntegerExpression_eq (D : Discrete α) (knownSymbols : SymbolMap α)
    (nameSpace : List Char) (e : CExpression) :
    resolvedCIntegerExpression D knownSymbols nameSpace e.text =
      match readingOf D e.tree with
      | some reading => .ok reading.1
      | none => .error .constraintError := by
  have hspelled : Spaced (tokens e.tree ++ []) e.text := by simpa using e.spelled
  obtain ⟨text', fuel', htext', _, hf', heq⟩ :=
    @resolveRecursive_tree _ D knownSymbols nameSpace (e.text.length = 1) e.tree [] _ _ []
      e.wellPlaced hspelled (fun _ h => absurd h (by simp)) (Nat.le_refl _)
  rw [resolvedCIntegerExpression, heq, readingOf]
  cases htext' with
  | nil n =>
  cases vectorOf D e.tree with
  | none => rfl
  | some v =>
      obtain ⟨fuel₂, hf₂, _, heq₂⟩ :=
        @resolveRecursive_spaces _ D knownSymbols nameSpace (e.text.length = 1) [] ([] ++ v) n
          fuel' (by simpa using hf')
      cases fuel₂ with
      | zero => omega
      | succ fuel₂ =>
          rw [List.append_nil] at heq₂
          simp only [List.nil_append, Option.bind_eq_bind, Option.bind_some] at heq₂ ⊢
          rw [heq₂, resolveRecursive]
          cases resultOf D v <;> rfl

end Swig4Ada.Ada

import Swig4Ada.Proofs.ExprFrames

/-!
# When the evaluator gives an expression its value in C

The single reduction of the evaluator and its table of precedences decide which
tree is built from the tokens. `SingleReduction` holds of the expressions whose
own tree is built: of `1+2*3` and `1+2-3`, but not of `10-2*3-1`, where the last
minus reduces the product and leaves the first minus for the end, nor of
`1&2==2`, as `==` is below `&` in the table. `preprocessorExpr_iff` says that
these are the expressions which are evaluated as C groups them, and what else
there is to ask for the value in C: signed literals, a value that is an `int`,
and that no operand which C skips is undefined.
-/

namespace Swig4Ada.Preprocessor

open Swig4Ada.Lib

variable {α : Type}

/-- A unary plus leaves its operand as it is. -/
def withPlus (I : Interp ExprOp α) : Interp ExprOp α where
  un u x := if u = .plus then some x else I.un u x
  bin := I.bin

/-- The value of a tree in an arithmetic, with every operand evaluated. -/
def valueIn (A : Arithmetic α) (t : IfTree) : Option α :=
  t.eval (withPlus A.interp) fun n => some (A.ofLong n.value)

/-- The evaluator builds the tree from the row of every parenthesis level. -/
def SingleReduction (t : IfTree) : Prop :=
  (dropPlus t).AllLevels (OpTree.Fits prec none)

/-- The evaluator reads the value of the literal. -/
def Readable (n : IntLiteral) : Prop :=
  n.kind ≠ .longLong ∧ n.kind ≠ .ulongLong ∧ (n.value : Int) ≤ longMax

/-! ## Literals -/

theorem strtolDigits_append {base : Nat} {digits rest : List Char}
    (hd : ∀ c ∈ digits, ∃ d, digitOf c = some d ∧ d < base)
    (hrest : ∀ c d, rest.head? = some c → digitOf c = some d → base ≤ d) :
    ∀ n, strtolDigits base n (digits ++ rest) =
      digits.foldl (fun v c => v * base + (digitOf c).getD 0) n := by
  induction digits with
  | nil =>
      intro n
      cases rest with
      | nil => rfl
      | cons c cs =>
          rw [List.nil_append, strtolDigits]
          cases hc : digitOf c with
          | none => rfl
          | some d =>
              have hle := hrest c d rfl hc
              simp only
              rw [if_neg (by omega)]
              rfl
  | cons c cs ih =>
      intro n
      obtain ⟨d, hc, hlt⟩ := hd c List.mem_cons_self
      rw [List.cons_append, strtolDigits, hc, List.foldl_cons, hc]
      simp only [Option.getD_some]
      rw [if_pos hlt]
      exact ih (fun x hx => hd x (List.mem_cons_of_mem _ hx)) _

/-- A suffix starts with no digit of any base. -/
theorem suffix_head {n : IntLiteral} {c : Char} (h : n.suffix.head? = some c) :
    c ∈ ['u', 'U', 'l', 'L'] := by
  have hall : ∀ p ∈ suffixes, p.1.head?.all (· ∈ ['u', 'U', 'l', 'L']) = true := by decide
  have hn := hall _ n.suffixed
  rw [h] at hn
  simpa using hn

theorem suffix_digit {n : IntLiteral} {c : Char} {d : Nat} (h : n.suffix.head? = some c)
    (hd : digitOf c = some d) : n.radix.base ≤ d := by
  have hmem := suffix_head h
  have hbase : n.radix.base ≤ 16 := by cases n.radix <;> decide
  simp only [List.mem_cons, List.not_mem_nil, or_false] at hmem
  have hbig : 16 ≤ d := by
    rcases hmem with rfl | rfl | rfl | rfl
    all_goals
      obtain rfl := Option.some.inj (hd.symm.trans rfl)
      decide
  omega

theorem strtolDigits_literal (n : IntLiteral) :
    strtolDigits n.radix.base 0 (n.digits ++ n.suffix) = n.value :=
  strtolDigits_append n.valid (fun _ _ hc hd => suffix_digit hc hd) 0

/-- `strtol` reads the literal, up to the largest `long`. -/
theorem strtol_text (n : IntLiteral) : strtol n.text = min (n.value : Int) longMax := by
  have hvalue := strtolDigits_literal n
  obtain ⟨c, cs, hcs⟩ := List.exists_cons_of_ne_nil n.nonempty
  obtain ⟨d, hd, hlt⟩ := n.valid c (hcs ▸ List.mem_cons_self)
  by_cases hhex : n.radix = .hexadecimal
  · have htext : n.text = '0' :: n.hexPrefix :: c :: (cs ++ n.suffix) := by
      simp [IntLiteral.text, hhex, hcs]
    rw [hhex] at hlt hvalue
    rw [hcs] at hvalue
    have hdig : (digitOf c).any (· < 16) = true := by
      rw [hd]
      exact decide_eq_true hlt
    rw [htext, strtol]
    simp only [n.hex, hdig, and_self, if_true]
    rw [← hvalue]
    rfl
  · have htext : n.text = c :: (cs ++ n.suffix) := by
      simp [IntLiteral.text, hhex, hcs]
    rw [hcs] at hvalue
    have hlead := n.leading hhex
    simp only [hcs, List.head?_cons, Option.some.injEq] at hlead
    by_cases hoct : n.radix = .octal
    · -- After the leading zero comes a digit below 8 or a suffix, and so no `x`.
      obtain rfl : c = '0' := hlead.2 hoct
      have hx : ∀ x, (cs ++ n.suffix).head? = some x → ¬ (x = 'x' ∨ x = 'X') := by
        intro x hx hbad
        have hdx : digitOf x = some 33 := by rcases hbad with rfl | rfl <;> rfl
        cases cs with
        | nil =>
            have hmem := suffix_head hx
            rcases hbad with rfl | rfl <;> exact absurd hmem (by decide)
        | cons y ys =>
            obtain rfl : y = x := by simpa using hx
            obtain ⟨e, he, hle⟩ := n.valid y (hcs ▸ by simp)
            obtain rfl := Option.some.inj (hdx.symm.trans he)
            rw [hoct] at hle
            exact absurd hle (by decide)
      rw [hoct, List.cons_append] at hvalue
      rw [htext]
      generalize cs ++ n.suffix = rest at hx hvalue
      have hread : strtol ('0' :: rest) =
          min ((strtolDigits 8 0 ('0' :: rest) : Nat) : Int) longMax := by
        rcases rest with _ | ⟨x, _ | ⟨y, ys⟩⟩
        · rfl
        · rfl
        · have := hx x rfl
          simp only [strtol, this, false_and, if_false]
      rw [hread, ← hvalue]
      rfl
    · have hdec : n.radix = .decimal := by
        cases hr : n.radix with
        | decimal => rfl
        | octal => exact absurd hr hoct
        | hexadecimal => exact absurd hr hhex
      have hc0 : c ≠ '0' := fun h => hoct (hlead.1 h)
      rw [hdec, List.cons_append] at hvalue
      have hread : strtol (c :: (cs ++ n.suffix)) =
          min ((strtolDigits 10 0 (c :: (cs ++ n.suffix)) : Nat) : Int) longMax := by
        rw [strtol]
        · exact fun _ _ _ heq => hc0 (List.cons.inj heq).1
        · exact fun _ heq => hc0 (List.cons.inj heq).1
      rw [htext, hread, ← hvalue]
      rfl

theorem literalValue_readable {A : Arithmetic α} {n : IntLiteral} (h : Readable n) :
    literalValue A n = some (A.ofLong n.value) := by
  have hmin : min (n.value : Int) longMax = n.value := min_eq_left h.2.2
  have hkind : n.kind ∈ [.int, .uint, .long, .ulong, .longLong, .ulongLong] := by
    have hall : ∀ p ∈ suffixes,
        p.2 ∈ [NumberKind.int, .uint, .long, .ulong, .longLong, .ulongLong] := by decide
    exact hall _ n.suffixed
  rw [literalValue, strtol_text, hmin]
  cases hk : n.kind with
  | longLong => exact absurd hk h.1
  | ulongLong => exact absurd hk h.2.1
  | float =>
      rw [hk] at hkind
      exact absurd hkind (by decide)
  | double =>
      rw [hk] at hkind
      exact absurd hkind (by decide)
  | _ => rfl

/-! ## The levels -/

theorem eval_dropPlus {I : Interp ExprOp α} {val : IntLiteral → Option α} {t : IfTree}
    (hw : WellPlaced t) : t.eval (withPlus I) val = (dropPlus t).eval I val := by
  induction t with
  | leaf n => rfl
  | paren t ih => exact ih hw
  | un u t ih =>
      by_cases hu : u = .plus
      · subst hu
        rw [OpTree.eval, ih hw.2, dropPlus, if_pos rfl]
        cases (dropPlus t).eval I val <;> rfl
      · rw [OpTree.eval, ih hw.2, dropPlus, if_neg hu, OpTree.eval]
        simp only [withPlus, if_neg hu]
  | bin o l r ihl ihr =>
      rw [OpTree.eval, ihl hw.2.1, ihr hw.2.2, dropPlus, OpTree.eval]
      rfl

theorem leaves_dropPlus (t : IfTree) : (dropPlus t).leaves = t.leaves := by
  induction t with
  | leaf n => rfl
  | paren t ih => exact ih
  | un u t ih =>
      rw [dropPlus, OpTree.leaves]
      split
      · exact ih
      · exact ih
  | bin o l r ihl ihr => rw [dropPlus, OpTree.leaves, OpTree.leaves, ihl, ihr]

theorem leaves_paren {t x : IfTree} (hx : .operand (.paren x) ∈ t.items) :
    ∀ n ∈ x.leaves, n ∈ t.leaves := by
  induction t with
  | leaf n => simp [OpTree.items] at hx
  | paren t _ =>
      obtain rfl : x = t := by simpa [OpTree.items] using hx
      exact fun _ hn => hn
  | un u t ih => exact ih (by simpa [OpTree.items] using hx)
  | bin o l r ihl ihr =>
      intro n hn
      rcases (by simpa [OpTree.items] using hx :
          .operand (.paren x) ∈ l.items ∨ .operand (.paren x) ∈ r.items) with hx | hx
      · exact List.mem_append_left _ (ihl hx n hn)
      · exact List.mem_append_right _ (ihr hx n hn)

theorem leaf_mem_leaves {t : IfTree} {n : IntLiteral} (hn : .operand (.leaf n) ∈ t.items) :
    n ∈ t.leaves := by
  induction t with
  | leaf m =>
      obtain rfl : n = m := by simpa [OpTree.items] using hn
      exact List.mem_cons_self
  | paren t _ => simp [OpTree.items] at hn
  | un u t ih => exact ih (by simpa [OpTree.items] using hn)
  | bin o l r ihl ihr =>
      rcases (by simpa [OpTree.items] using hn :
          .operand (.leaf n) ∈ l.items ∨ .operand (.leaf n) ∈ r.items) with hn | hn
      · exact List.mem_append_left _ (ihl hn)
      · exact List.mem_append_right _ (ihr hn)

theorem built_unique (t t' t'' : IfTree) (h' : OpTree.Built prec t t')
    (h'' : OpTree.Built prec t t'') : t' = t'' :=
  Option.some.inj (h'.symm.trans h'')

theorem built_items (t t' : IfTree) (h : OpTree.Built prec t t') : t'.items = t.items := by
  obtain ⟨s, hs, _, hrow⟩ := OpTree.built_exists prec t
  rw [built_unique t t' s h hs, hrow]

theorem singleReduction_iff (t : IfTree) :
    SingleReduction t ↔ (dropPlus t).AllLevels fun t => OpTree.Built prec t t := by
  have hiff : (fun t : IfTree => OpTree.Fits prec none t) =
      fun t => OpTree.Built prec t t := by
    funext t
    exact propext (OpTree.built_self_iff prec t).symm
  rw [SingleReduction, ← hiff]

/-- The evaluator works level by level. -/
theorem exprRead_reads (A : Arithmetic α) :
    OpTree.Reads (fun _ => True) (OpTree.Built prec) A.interp (literalValue A) (exprRead A) :=
  OpTree.reads_of_levelValue fun t _ => exprRead_eq t

/-- An expression whose own trees are built has its own value. -/
theorem exprRead_of_singleReduction (A : Arithmetic α) {t : IfTree} (hw : WellPlaced t)
    (hlit : ∀ n ∈ t.leaves, Readable n) (h : SingleReduction t) :
    exprRead A (dropPlus t) = valueIn A t := by
  rw [(exprRead_reads A).eval (fun _ _ _ _ => trivial) built_unique (dropPlus t) trivial
    ((singleReduction_iff t).1 h), valueIn, eval_dropPlus hw]
  refine OpTree.eval_congr fun n hn => literalValue_readable (hlit n ?_)
  rwa [leaves_dropPlus] at hn

/-! ## Two arithmetics that tell expressions apart -/

/-- The numbers of an expression, from left to right. -/
def listArithmetic : Arithmetic (List Int) where
  ofLong n := [n]
  isZero _ := false
  unary _ x := some x
  binary _ l r := some (l ++ r)

/-- Every operation builds a tree. -/
def treeArithmetic : Arithmetic (OpTree ExprOp Int) where
  ofLong n := .leaf n
  isZero _ := false
  unary u x := some (.un u x)
  binary o l r := some (.bin o l r)

theorem listArithmetic_interp : listArithmetic.interp = OpTree.concat := by
  simp [Arithmetic.interp, listArithmetic, OpTree.concat]

theorem treeArithmetic_interp : treeArithmetic.interp = OpTree.free := by
  simp [Arithmetic.interp, treeArithmetic, OpTree.free]

/-- The number that a literal is read as. -/
def literalNumber (n : IntLiteral) : Option Int :=
  match n.kind with
  | .int | .uint | .long | .ulong => some (strtol n.text)
  | _ => none

theorem literalValue_eq (A : Arithmetic α) (n : IntLiteral) :
    literalValue A n = (literalNumber n).map A.ofLong := by
  rw [literalValue, literalNumber]
  cases n.kind <;> rfl

theorem readable_of_literalNumber {n : IntLiteral} (h : literalNumber n = some (n.value : Int)) :
    Readable n := by
  have hkind : n.kind ≠ .longLong ∧ n.kind ≠ .ulongLong := by
    constructor <;>
    · intro hk
      rw [literalNumber, hk] at h
      cases h
  refine ⟨hkind.1, hkind.2, ?_⟩
  have hread : ∀ k, (match k with
      | NumberKind.int | .uint | .long | .ulong => some (strtol n.text)
      | _ => none) = some (n.value : Int) → strtol n.text = n.value := by
    intro k hk
    cases k <;> first | exact Option.some.inj hk | cases hk
  have hstrtol := hread _ h
  rw [strtol_text] at hstrtol
  omega

theorem mapM_eq_some_map {β : Type} {f : α → Option β} {g : α → β} {xs : List α}
    (h : xs.mapM f = some (xs.map g)) : ∀ x ∈ xs, f x = some (g x) := by
  induction xs with
  | nil => simp
  | cons x xs ih =>
      rw [List.mapM_cons] at h
      obtain ⟨y, hy, h⟩ := Option.bind_eq_some_iff.1 h
      obtain ⟨ys, hys, h⟩ := Option.bind_eq_some_iff.1 h
      obtain ⟨rfl, rfl⟩ := List.cons.inj (Option.some.inj h)
      intro z hz
      rcases List.mem_cons.1 hz with rfl | hz
      · exact hy
      · exact ih hys z hz

/-- Over lists, the value of an expression is its own when its literals are
readable. -/
theorem readable_of_listArithmetic {t : IfTree}
    (h : exprRead listArithmetic (dropPlus t) = some (t.leaves.map fun n => (n.value : Int))) :
    ∀ n ∈ t.leaves, Readable n := by
  have hval : literalValue listArithmetic = fun n => (literalNumber n).map fun c => [c] := by
    funext n
    exact literalValue_eq _ n
  have hreads := exprRead_reads listArithmetic
  rw [listArithmetic_interp] at hreads
  rw [hreads.concat (fun _ _ _ _ => trivial)
    (fun t => (OpTree.built_exists prec t).imp fun t' h => ⟨h.1, h.2.2⟩) built_unique _ trivial,
    hval, OpTree.eval_concat, leaves_dropPlus] at h
  exact fun n hn => readable_of_literalNumber (mapM_eq_some_map h n hn)

theorem singleReduction_of_treeArithmetic {t : IfTree}
    (hlit : ∀ n ∈ t.leaves, Readable n)
    (h : exprRead treeArithmetic (dropPlus t) =
      some ((dropPlus t).erase fun n => (n.value : Int))) : SingleReduction t := by
  have hreads : OpTree.Reads (fun t : IfTree => ∀ n ∈ t.leaves, Readable n)
      (OpTree.Built prec) OpTree.free (fun n => some (.leaf (n.value : Int)))
      (exprRead treeArithmetic) := by
    intro t hw
    rcases exprRead_reads treeArithmetic t trivial with ⟨t', hbuilt, hval⟩ | ⟨hnone, hval⟩
    · refine Or.inl ⟨t', hbuilt, ?_⟩
      rw [hval, treeArithmetic_interp]
      refine OpTree.evalLevel_congr fun x hx => ?_
      rw [built_items t t' hbuilt] at hx
      rcases OpTree.atom_cases hx with ⟨n, rfl⟩ | ⟨y, rfl⟩
      · exact literalValue_readable (hw n (leaf_mem_leaves hx))
      · rfl
    · exact Or.inr ⟨hnone, hval⟩
  refine (singleReduction_iff t).2 (hreads.allLevels
    (fun t x hw hx n hn => hw n (leaves_paren hx n hn)) built_items (dropPlus t) ?_ h)
  rwa [leaves_dropPlus]

theorem valueIn_listArithmetic (t : IfTree) :
    valueIn listArithmetic t = some (t.leaves.map fun n => (n.value : Int)) := by
  induction t with
  | leaf n => rfl
  | paren t ih => exact ih
  | un u t ih =>
      rw [valueIn, OpTree.eval]
      rw [valueIn] at ih
      rw [ih]
      by_cases hu : u = .plus <;> simp [withPlus, hu, listArithmetic_interp, OpTree.concat,
        OpTree.leaves]
  | bin o l r ihl ihr =>
      rw [valueIn] at ihl ihr
      rw [valueIn, OpTree.eval, ihl, ihr]
      simp [withPlus, listArithmetic_interp, OpTree.concat, OpTree.leaves]

/-! ## The values of C -/

/-- The value fits the type that is returned. -/
def FitsInt (v : Int) : Prop := -2 ^ 31 ≤ v ∧ v < 2 ^ 31

/-- No operand of the expression is undefined, evaluated in C or not. -/
def NothingUndefined (t : IfTree) : Prop := valueIn longArithmetic t ≠ none

theorem toInt_eq_iff (v : Int) : toInt v = v ↔ FitsInt v := by
  rw [toInt, FitsInt]
  omega

theorem cBinary_signed {o : ExprOp} (x y : Int) :
    cBinary o (.signed x) (.signed y) = (longBinary o x y).map .signed := by
  cases o <;> rfl

theorem longArithmetic_bin {o : ExprOp} {x y w : Int}
    (h : longArithmetic.interp.bin o x y = some w) : longBinary o x y = some w := by
  simp only [Arithmetic.interp] at h
  split at h
  · cases h
  · exact h

theorem cValue_bin {o : ExprOp} {l r : IfTree} (hand : o ≠ .land) (hor : o ≠ .lor) :
    cValue (.bin o l r) = (cValue l).bind fun x => (cValue r).bind fun y => cBinary o x y := by
  cases o <;> first | rfl | exact absurd rfl hand | exact absurd rfl hor

/-- Where both are defined and no literal is unsigned, the value in C is the one
over `long`. -/
theorem cValue_eq {t : IfTree} (hw : WellPlaced t)
    (hlit : ∀ n ∈ t.leaves, Readable n ∧ n.hasUnsignedSuffix = false) :
    ∀ {v : CNum} {w : Int}, cValue t = some v → valueIn longArithmetic t = some w →
      v = .signed w := by
  induction t with
  | leaf n =>
      intro v w hv hval
      obtain ⟨hread, hsuffix⟩ := hlit n List.mem_cons_self
      rw [cValue, cLiteral, hsuffix] at hv
      simp only [Bool.false_eq_true, if_false, if_pos hread.2.2] at hv
      obtain rfl := Option.some.inj hv
      obtain rfl : (n.value : Int) = w := Option.some.inj hval
      rfl
  | paren t ih => exact fun hv hval => ih hw hlit hv hval
  | un u t ih =>
      intro v w hv hval
      rw [cValue] at hv
      obtain ⟨x, hx, hv⟩ := Option.bind_eq_some_iff.1 hv
      obtain ⟨x', hx', hval⟩ := Option.bind_eq_some_iff.1 hval
      obtain rfl := ih hw.2 hlit hx hx'
      simp only [withPlus] at hval
      by_cases hu : u = .plus
      · subst hu
        obtain rfl := Option.some.inj hval
        exact (Option.some.inj hv).symm
      · rw [if_neg hu] at hval
        have hun : cUnary u (.signed x') = (longUnary u x').map .signed := by
          cases u <;> first | rfl | exact absurd rfl hu
        have hlong : longUnary u x' = some w := hval
        rw [hun, hlong] at hv
        exact (Option.some.inj hv).symm
  | bin o l r ihl ihr =>
      intro v w hv hval
      obtain ⟨x', hx', hval⟩ := Option.bind_eq_some_iff.1 hval
      obtain ⟨y', hy', hval⟩ := Option.bind_eq_some_iff.1 hval
      have hl := fun {v} hv => @ihl hw.2.1
        (fun n hn => hlit n (List.mem_append_left _ hn)) v x' hv hx'
      have hr := fun {v} hv => @ihr hw.2.2
        (fun n hn => hlit n (List.mem_append_right _ hn)) v y' hv hy'
      have hlong := longArithmetic_bin hval
      -- What C skips is decided by the left operand.
      cases o with
      | land =>
          rw [cValue] at hv
          obtain ⟨x, hx, hv⟩ := Option.bind_eq_some_iff.1 hv
          obtain rfl := hl hx
          obtain rfl : ofBool (x' ≠ 0 ∧ y' ≠ 0) = w := Option.some.inj hlong
          by_cases h0 : x' = 0
          · simpa [CNum.isTrue, CNum.toInt, h0, ofBool, eq_comm] using hv
          · simp only [CNum.isTrue, CNum.toInt, ne_eq, h0, not_false_eq_true, decide_true,
              if_true] at hv
            obtain ⟨y, hy, hv⟩ := Option.bind_eq_some_iff.1 hv
            obtain rfl := hr hy
            have hiff : (x' ≠ 0 ∧ y' ≠ 0) ↔ y' ≠ 0 := ⟨fun h => h.2, fun h => ⟨h0, h⟩⟩
            simp only [hiff]
            exact (Option.some.inj hv).symm
      | lor =>
          rw [cValue] at hv
          obtain ⟨x, hx, hv⟩ := Option.bind_eq_some_iff.1 hv
          obtain rfl := hl hx
          obtain rfl : ofBool (x' ≠ 0 ∨ y' ≠ 0) = w := Option.some.inj hlong
          by_cases h0 : x' = 0
          · simp only [CNum.isTrue, CNum.toInt, ne_eq, h0, not_true_eq_false, decide_false,
              Bool.false_eq_true, if_false] at hv
            obtain ⟨y, hy, hv⟩ := Option.bind_eq_some_iff.1 hv
            obtain rfl := hr hy
            have hiff : (x' ≠ 0 ∨ y' ≠ 0) ↔ y' ≠ 0 := ⟨fun h => h.resolve_left (· h0), .inr⟩
            simp only [hiff]
            exact (Option.some.inj hv).symm
          · simpa [CNum.isTrue, CNum.toInt, h0, ofBool, eq_comm] using hv
      | _ =>
          replace hv := (cValue_bin (by simp) (by simp)).symm.trans hv
          obtain ⟨x, hx, hv⟩ := Option.bind_eq_some_iff.1 hv
          obtain ⟨y, hy, hv⟩ := Option.bind_eq_some_iff.1 hv
          obtain rfl := hl hx
          obtain rfl := hr hy
          rw [cBinary_signed, hlong] at hv
          exact (Option.some.inj hv).symm

/-- The value over `long`, as an `int`, is `v`. -/
def LongValueIs (t : IfTree) (v : Int) : Prop :=
  ∃ w, valueIn longArithmetic t = some w ∧ toInt w = v

/-- Without unsigned literals only the conversion to `int` and what C skips can
make a difference. -/
theorem longValueIs_iff {t : IfTree} (hw : WellPlaced t)
    (hlit : ∀ n ∈ t.leaves, Readable n ∧ n.hasUnsignedSuffix = false) {v : CNum}
    (hv : cValue t = some v) :
    LongValueIs t v.toInt ↔ FitsInt v.toInt ∧ NothingUndefined t := by
  constructor
  · rintro ⟨w, hval, hint⟩
    obtain rfl := cValue_eq hw hlit hv hval
    exact ⟨(toInt_eq_iff w).1 hint, by rw [NothingUndefined, hval]; exact nofun⟩
  · rintro ⟨hfits, hdef⟩
    obtain ⟨w, hval⟩ := Option.ne_none_iff_exists'.1 hdef
    obtain rfl := cValue_eq hw hlit hv hval
    exact ⟨w, hval, (toInt_eq_iff w).2 hfits⟩

theorem answer_eq_some {run : Except Fault Int} {v : Int} :
    answer run = some (v, false) ↔ ∃ w, run = .ok w ∧ toInt w = v := by
  cases run with
  | ok w => simp [answer]
  | error fault => cases fault <;> simp [answer]

/-- Over every arithmetic the evaluator gives an expression the value of its own
tree exactly when its literals are readable and its tree is the one that single
reductions build. Then the answer is the value in C if and only if that is the
value over `long`, which without unsigned literals only says that it is an `int`
and that nothing which C skips is undefined. -/
theorem preprocessorExpr_iff (e : IfExpression) :
    ((∀ (α : Type) (A : Arithmetic α) (stack : CleanStack α) (v : α),
        valueIn A e.tree = some v →
        (preprocessorExpr A pointers e.tokens stack.1).1 = .ok v) ↔
      (∀ n ∈ e.tree.leaves, Readable n) ∧ SingleReduction e.tree) ∧
    ((∀ n ∈ e.tree.leaves, Readable n) → SingleReduction e.tree →
      ∀ (stack : CleanStack Int) (v : CNum), cValue e.tree = some v →
      (answer (preprocessorExpr longArithmetic pointers e.tokens stack.1).1 =
          some (v.toInt, false) ↔ LongValueIs e.tree v.toInt) ∧
      ((∀ n ∈ e.tree.leaves, n.hasUnsignedSuffix = false) →
        (LongValueIs e.tree v.toInt ↔ FitsInt v.toInt ∧ NothingUndefined e.tree))) := by
  refine ⟨⟨fun h => ?_, fun ⟨hlit, hsingle⟩ α A stack v hv => ?_⟩,
    fun hlit hsingle stack v hv => ⟨?_, fun hsigned => ?_⟩⟩
  · have hlist := h _ listArithmetic ⟨fun _ => ⟨.top, [], .plus, none⟩, fun _ => rfl⟩ _
      (valueIn_listArithmetic e.tree)
    have hlit := readable_of_listArithmetic ((preprocessorExpr_eq_ok e _ _ _).1 hlist)
    refine ⟨hlit, singleReduction_of_treeArithmetic hlit ?_⟩
    refine (preprocessorExpr_eq_ok e treeArithmetic
      ⟨fun _ => ⟨.top, .leaf 0, .plus, none⟩, fun _ => rfl⟩ _).1 (h _ _ _ _ ?_)
    rw [valueIn, eval_dropPlus e.wellPlaced, treeArithmetic_interp]
    exact OpTree.eval_free (fun n : IntLiteral => (n.value : Int)) (dropPlus e.tree)
  · rw [preprocessorExpr_eq_ok, exprRead_of_singleReduction A e.wellPlaced hlit hsingle, hv]
  · have hread := exprRead_of_singleReduction longArithmetic e.wellPlaced hlit hsingle
    rw [answer_eq_some]
    constructor
    · rintro ⟨w, hrun, hint⟩
      exact ⟨w, hread ▸ (preprocessorExpr_eq_ok e longArithmetic stack w).1 hrun, hint⟩
    · rintro ⟨w, hval, hint⟩
      exact ⟨w, (preprocessorExpr_eq_ok e longArithmetic stack w).2 (hread.trans hval), hint⟩
  · exact longValueIs_iff e.wellPlaced (fun n hn => ⟨hlit n hn, hsigned n hn⟩) hv

/-! ## The reduction that comes once -/

def decimal (d : Char) (rest : List Char)
    (h : ∀ c ∈ d :: rest, ∃ v, digitOf c = some v ∧ v < 10) (hd : d ≠ '0') : IntLiteral where
  radix := .decimal
  hexPrefix := 'x'
  digits := d :: rest
  suffix := []
  kind := .int
  nonempty := nofun
  valid := h
  leading := by simpa using hd
  hex := .inl rfl
  suffixed := by decide

/-- `10-2*3-1`: the second minus sign reduces once, which is the product, and the
first difference is taken from the second. -/
def subtractProduct : IfExpression where
  tree := .bin .minus
    (.bin .minus (.leaf (decimal '1' ['0'] (by simp [digitOf]) (by simp)))
      (.bin .star (.leaf (decimal '2' [] (by simp [digitOf]) (by simp)))
        (.leaf (decimal '3' [] (by simp [digitOf]) (by simp)))))
    (.leaf (decimal '1' [] (by simp [digitOf]) (by simp)))
  tokens := [.number .int ['1', '0'], .op .minus, .number .int ['2'], .op .star,
    .number .int ['3'], .op .minus, .number .int ['1']]
  wellPlaced := by simp [WellPlaced, isUnaryOp]
  grouped := by simp [OpTree.Grouped, OpTree.exposed, cRank]
  spelled := rfl
  room := by decide

def freshStack : CleanStack Int := ⟨fun _ => ⟨.top, 0, .plus, none⟩, fun _ => rfl⟩

theorem preprocessorExpr_reduces_once :
    cValue subtractProduct.tree = some (.signed 3) ∧
    answer (preprocessorExpr longArithmetic pointers subtractProduct.tokens
      freshStack.1).1 = some (5, false) := by
  decide +kernel

end Swig4Ada.Preprocessor

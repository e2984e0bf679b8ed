import Swig4Ada.Lib.LevelReading
import Swig4Ada.Proofs.ResolverOrder

/-!
# When the resolver groups an expression as C does

`PassOrder` compares the levels of C with the order of the passes. It holds of
`1+2*3` and of `(1+2)<<3`; it fails of `10-3+2`, whose additions are all
reduced before its subtractions, of `1+2<<3`, and of `- -3`, where the pass for
`-` finds an operator and not a value behind the first sign.

`resolvedCIntegerExpression_iff` says that this is all there is to it. Over
every arithmetic the resolver has the value that C's grouping gives to the
expression exactly when `PassOrder` holds; the other direction takes the
arithmetic of trees, in which no two groupings have one value. Over the integers
there are two more things to ask, because C skips operands and the resolver does
not, and because the resolver shifts a number to the right by a division that
truncates. They are asked of all subexpressions at once: `(-1>>1)*0` has the right
value by chance.
-/

namespace Swig4Ada.Ada

open Swig4Ada.Lib

variable {α : Type}

/-- The passes meet the operators of the expression, at every parenthesis level,
in an order that groups them as its tree does. -/
def PassOrder (t : OpTree OpCode Literal) : Prop :=
  t.Grouped binaryRank ∧ t.UnaryOrder unaryRank

def Discrete.interp (D : Discrete α) : Interp OpCode α where
  un := D.unary
  bin := D.binary

/-- The value of a tree in an arithmetic, with every operand evaluated. -/
def valueIn (D : Discrete α) (t : OpTree OpCode Literal) : Option α :=
  t.eval D.interp fun n => some (D.ofInt n.value)

/-- The tree that the passes build from the row of `t` is `t'`. -/
def PassLevel (t t' : OpTree OpCode Literal) : Prop :=
  t.LevelUnaryOrder unaryRank ∧ t'.items = t.items ∧ t'.LevelGrouped binaryRank

theorem passLevel_unique {t t' t'' : OpTree OpCode Literal} (h' : PassLevel t t')
    (h'' : PassLevel t t'') : t' = t'' :=
  h'.2.2.unique h''.2.2 (h'.2.1.trans h''.2.1.symm)

theorem passOrder_iff_allLevels {t : OpTree OpCode Literal} :
    PassOrder t ↔ OpTree.AllLevels (fun t => PassLevel t t) t := by
  refine OpTree.level_induction (P := fun t =>
    PassOrder t ↔ OpTree.AllLevels (fun t => PassLevel t t) t) ?_ t
  intro t ih
  rw [OpTree.allLevels_iff, PassOrder, OpTree.grouped_iff, OpTree.unaryOrder_iff]
  constructor
  · rintro ⟨⟨h1, h2⟩, h3, h4⟩
    exact ⟨⟨h3, rfl, h1⟩, fun x hx => (ih x hx).1 ⟨h2 x hx, h4 x hx⟩⟩
  · rintro ⟨⟨h3, _, h1⟩, h⟩
    have hparens := fun x hx => (ih x hx).2 (h x hx)
    exact ⟨⟨h1, fun x hx => (hparens x hx).1⟩, h3, fun x hx => (hparens x hx).2⟩

theorem evalLevel_tagged {D : Discrete α} (g : OpTree OpCode Literal → Option (α × String))
    (t : OpTree OpCode Literal) :
    (t.evalLevel (tagged D) g).map Prod.fst =
      t.evalLevel D.interp fun x => (g x).map Prod.fst := by
  induction t with
  | leaf n => rfl
  | paren t _ => rfl
  | un u t ih =>
      rw [OpTree.evalLevel, OpTree.evalLevel, ← ih]
      cases t.evalLevel (tagged D) g with
      | none => rfl
      | some x => cases h : D.unary u x.1 <;> simp [tagged, Discrete.interp, h]
  | bin o l r ihl ihr =>
      rw [OpTree.evalLevel, OpTree.evalLevel, ← ihl, ← ihr]
      cases l.evalLevel (tagged D) g with
      | none => rfl
      | some x =>
          cases r.evalLevel (tagged D) g with
          | none => rfl
          | some y => cases h : D.binary o x.1 y.1 <;> simp [tagged, Discrete.interp, h]

theorem wellPlaced_paren (t x : OpTree OpCode Literal) (hw : WellPlaced t)
    (hx : .operand (.paren x) ∈ t.items) : WellPlaced x := by
  induction t with
  | leaf n => simp [OpTree.items] at hx
  | paren t _ =>
      obtain rfl : x = t := by simpa [OpTree.items] using hx
      exact hw
  | un u t ih => exact ih hw.2 (by simpa [OpTree.items] using hx)
  | bin o l r ihl ihr =>
      rcases (by simpa [OpTree.items] using hx :
        .operand (.paren x) ∈ l.items ∨ .operand (.paren x) ∈ r.items) with hx | hx
      · exact ihl hw.2.1 hx
      · exact ihr hw.2.2 hx

/-- The value of what the resolver reads. -/
def readValue (D : Discrete α) (t : OpTree OpCode Literal) : Option α :=
  (readingOf D t).map Prod.fst

/-- The resolver works level by level. -/
theorem readValue_reads (D : Discrete α) :
    OpTree.Reads WellPlaced PassLevel D.interp (fun n => some (D.ofInt n.value))
      (readValue D) := by
  intro t hw
  by_cases hun : t.LevelUnaryOrder unaryRank
  · obtain ⟨t', hitems, hlg, hval⟩ := readingOf_level hw hun
    refine Or.inl ⟨t', ⟨hun, hitems, hlg⟩, ?_⟩
    rw [readValue, hval, evalLevel_tagged]
    refine OpTree.evalLevel_congr fun x hx => ?_
    rcases OpTree.atom_cases hx with ⟨n, rfl⟩ | ⟨y, rfl⟩ <;> rfl
  · exact Or.inr ⟨fun t' h => hun h.1, by rw [readValue, readingOf_eq_none hw hun]; rfl⟩

/-- Every operation builds a tree. -/
def treeArithmetic : Discrete (OpTree OpCode Int) where
  ofInt n := .leaf n
  unary u x := some (.un u x)
  binary o l r := some (.bin o l r)
  natural _ := none

/-! ## The integers of C -/

/-- No operation of the expression raises `Constraint_Error`, evaluated in C or
not: no divisor is zero, and no shift count negative. -/
def RaisesNothing (t : OpTree OpCode Literal) : Prop := valueIn gmp t ≠ none

/-- A number that is shifted to the right is not negative, or divided without a
remainder. -/
def ExactShifts (t : OpTree OpCode Literal) : Prop :=
  ∀ l r, Evaluated (.bin .shiftRight l r) t → ∀ x y : Int, cValue l = some x →
    cValue r = some y → 0 ≤ x ∨ 2 ^ y.toNat ∣ x

theorem gmp_unary_of_cInterp {u : OpCode} {x v : Int} (h : cInterp.un u x = some v) :
    gmp.unary u x = some v := by
  cases u with
  | complement =>
      have hnot : Int.lnot x = -x - 1 := by
        cases x with
        | ofNat n => simp [Int.lnot, Int.negSucc_eq]; omega
        | negSucc n => simp [Int.lnot, Int.negSucc_eq]
      simp only [gmp, hnot]
      exact h
  | _ => exact h

theorem tdiv_eq_div_iff {x y : Int} (hy : 0 < y) : x.tdiv y = x / y ↔ 0 ≤ x ∨ y ∣ x := by
  rw [Int.tdiv_eq_ediv]
  constructor
  · intro h
    by_contra hne
    rw [if_neg hne, Int.sign_eq_one_of_pos hy] at h
    omega
  · intro h
    rw [if_pos h, Int.add_zero]

theorem gmp_binary_of_cInterp {o : OpCode} {x y v : Int}
    (hexact : o = .shiftRight → 0 ≤ x ∨ 2 ^ y.toNat ∣ x)
    (h : cInterp.bin o x y = some v) : gmp.binary o x y = some v := by
  cases o with
  | shiftLeft =>
      simp only [cInterp] at h
      split at h
      · exact (if_neg (by omega)).trans h
      · simp at h
  | shiftRight =>
      simp only [cInterp] at h
      split at h
      · rw [← (tdiv_eq_div_iff (Int.pow_pos (by decide))).2 (hexact rfl)] at h
        exact (if_neg (by omega)).trans h
      · simp at h
  | _ => exact h

theorem exact_of_shift {x y z : Int} (hc : cInterp.bin .shiftRight x y = some z)
    (hgmp : gmp.binary .shiftRight x y = some z) : 0 ≤ x ∨ 2 ^ y.toNat ∣ x := by
  simp only [cInterp] at hc
  simp only [gmp] at hgmp
  split at hc
  · rw [if_neg (by omega)] at hgmp
    exact (tdiv_eq_div_iff (Int.pow_pos (by decide))).1
      ((Option.some.inj hgmp).trans (Option.some.inj hc).symm)
  · cases hc

theorem ExactShifts.of_evaluated {s t : OpTree OpCode Literal} (h : ExactShifts t)
    (hs : ∀ {x}, Evaluated x s → Evaluated x t) : ExactShifts s :=
  fun l r hin => h l r (hs hin)

/-- Where both are defined and the shifts are exact, the value in C is the one over `gmp`. -/
theorem valueIn_gmp_eq {t : OpTree OpCode Literal} (hexact : ExactShifts t) :
    ∀ {v w : Int}, cValue t = some v → valueIn gmp t = some w → w = v := by
  induction t with
  | leaf n =>
      intro v w hv hw
      exact Option.some.inj (hw.symm.trans hv)
  | paren t ih => exact fun hv hw => ih (hexact.of_evaluated .paren) hv hw
  | un u t ih =>
      intro v w hv hw
      obtain ⟨x, hx, hv⟩ := Option.bind_eq_some_iff.1 hv
      obtain ⟨x', hx', hw⟩ := Option.bind_eq_some_iff.1 hw
      obtain rfl := ih (hexact.of_evaluated .un) hx hx'
      exact Option.some.inj (hw.symm.trans (gmp_unary_of_cInterp hv))
  | bin o l r ihl ihr =>
      intro v w hv hw
      obtain ⟨x', hx', hw⟩ := Option.bind_eq_some_iff.1 hw
      obtain ⟨y', hy', hw⟩ := Option.bind_eq_some_iff.1 hw
      replace ihl := @ihl (hexact.of_evaluated .left)
      have hright : ¬ SkipsRight o l → ExactShifts r := fun hskip =>
        hexact.of_evaluated fun hin => .right hin hskip
      -- What C skips is decided by the left operand.
      cases o with
      | andThen =>
          obtain ⟨x, hx, hv⟩ := Option.bind_eq_some_iff.1 hv
          obtain rfl := ihl hx hx'
          obtain rfl : (if x' ≠ 0 ∧ y' ≠ 0 then 1 else 0) = w := Option.some.inj hw
          by_cases h0 : x' = 0
          · simpa [h0] using hv
          · rw [if_neg h0] at hv
            obtain ⟨y, hy, hv⟩ := Option.bind_eq_some_iff.1 hv
            obtain rfl := ihr (hright (by simp [SkipsRight, hx, h0])) hy hy'
            by_cases h1 : y' = 0 <;> simpa [h0, h1] using hv
      | orElse =>
          obtain ⟨x, hx, hv⟩ := Option.bind_eq_some_iff.1 hv
          obtain rfl := ihl hx hx'
          obtain rfl : (if x' ≠ 0 ∨ y' ≠ 0 then 1 else 0) = w := Option.some.inj hw
          by_cases h0 : x' = 0
          · rw [if_neg (not_not.2 h0)] at hv
            obtain ⟨y, hy, hv⟩ := Option.bind_eq_some_iff.1 hv
            obtain rfl := ihr (hright (by simp [SkipsRight, hx, h0])) hy hy'
            by_cases h1 : y' = 0 <;> simpa [h0, h1] using hv
          · simpa [h0] using hv
      | _ =>
          obtain ⟨x, hx, hv⟩ := Option.bind_eq_some_iff.1 hv
          obtain ⟨y, hy, hv⟩ := Option.bind_eq_some_iff.1 hv
          obtain rfl := ihl hx hx'
          obtain rfl := ihr (hright (by simp [SkipsRight])) hy hy'
          refine Option.some.inj (hw.symm.trans (gmp_binary_of_cInterp ?_ hv))
          first
            | exact fun _ => hexact l r .refl x' y' hx hy
            | intro hop; cases hop

/-! ## Subexpressions -/

section Evaluated

variable {s t : OpTree OpCode Literal}

theorem Evaluated.trans {x : OpTree OpCode Literal} (h : Evaluated s t) (h' : Evaluated x s) :
    Evaluated x t := by
  induction h with
  | refl => exact h'
  | paren _ ih => exact .paren ih
  | un _ ih => exact .un ih
  | left _ ih => exact .left ih
  | right _ hskip ih => exact .right ih hskip

theorem Evaluated.defined (h : Evaluated s t) (ht : cValue t ≠ none) : cValue s ≠ none := by
  induction h with
  | refl => exact ht
  | paren _ ih => exact ih ht
  | un _ ih =>
      refine ih fun hnone => ht ?_
      rw [cValue, hnone]
      rfl
  | @left o l r _ ih =>
      refine ih fun hnone => ht ?_
      cases o <;> rw [cValue, hnone] <;> simp
  | @right o l r _ hskip ih =>
      refine ih fun hnone => ht ?_
      cases hl : cValue l with
      | none => cases o <;> rw [cValue, hl] <;> simp
      | some x =>
          cases o with
          | andThen =>
              have h0 : x ≠ 0 := by rintro rfl; exact hskip (Or.inl ⟨rfl, hl⟩)
              rw [cValue, hl, hnone]
              exact if_neg h0
          | orElse =>
              have h0 : x = 0 := by_contra fun h0 => hskip (Or.inr ⟨rfl, x, hl, h0⟩)
              rw [cValue, hl, hnone]
              exact if_neg (not_not.2 h0)
          | _ => rw [cValue, hl, hnone] <;> simp

/-- Every operand has a value in the resolver's arithmetic. -/
theorem Evaluated.raisesNothing (h : Evaluated s t) (ht : RaisesNothing t) :
    RaisesNothing s := by
  induction h with
  | refl => exact ht
  | paren _ ih => exact ih ht
  | un _ ih =>
      refine ih fun hnone => ht ?_
      rw [valueIn, OpTree.eval]
      exact Option.bind_eq_none_iff.2 fun x hx =>
        absurd (hnone.symm.trans hx) (Option.some_ne_none x).symm
  | left _ ih =>
      refine ih fun hnone => ht ?_
      rw [valueIn, OpTree.eval]
      exact Option.bind_eq_none_iff.2 fun x hx =>
        absurd (hnone.symm.trans hx) (Option.some_ne_none x).symm
  | right _ _ ih =>
      refine ih fun hnone => ht ?_
      rw [valueIn, OpTree.eval]
      exact Option.bind_eq_none_iff.2 fun x _ => Option.bind_eq_none_iff.2 fun y hy =>
        absurd (hnone.symm.trans hy) (Option.some_ne_none y).symm

theorem Evaluated.passOrder (h : Evaluated s t) (ht : PassOrder t) : PassOrder s := by
  induction h with
  | refl => exact ht
  | paren _ ih => exact ih ht
  | un _ ih => exact ih ⟨ht.1.2, ht.2.2⟩
  | left _ ih => exact ih ⟨ht.1.2.2.1, ht.2.1⟩
  | right _ _ ih => exact ih ⟨ht.1.2.2.2, ht.2.2⟩

theorem Evaluated.wellPlaced (h : Evaluated s t) (ht : WellPlaced t) : WellPlaced s := by
  induction h with
  | refl => exact ht
  | paren _ ih => exact ih ht
  | un _ ih => exact ih ht.2
  | left _ ih => exact ih ht.2.1
  | right _ _ ih => exact ih ht.2.2

theorem Evaluated.grouped (h : Evaluated s t) (ht : t.Grouped cRank) : s.Grouped cRank := by
  induction h with
  | refl => exact ht
  | paren _ ih => exact ih ht
  | un _ ih => exact ih ht.2
  | left _ ih => exact ih ht.2.2.1
  | right _ _ ih => exact ih ht.2.2.2

theorem exists_spaced (ts : List (List Char)) : ∃ text, Spaced ts text := by
  induction ts with
  | nil => exact ⟨_, .nil 0⟩
  | cons token ts ih =>
      obtain ⟨text, htext⟩ := ih
      exact ⟨_, .cons 0 htext⟩

/-- A subexpression is an expression. -/
theorem Evaluated.expression {e : CExpression} (h : Evaluated s e.tree) :
    ∃ e' : CExpression, e'.tree = s := by
  obtain ⟨text, htext⟩ := exists_spaced (tokens s)
  exact ⟨⟨s, text, h.wellPlaced e.wellPlaced, h.grouped e.grouped, htext⟩, rfl⟩

end Evaluated

/-- The resolver's value is the one of C's grouping, over every arithmetic,
exactly when the order of the passes groups the expression as C does. Then over
the integers every subexpression that C evaluates has its value in C exactly when
no operation raises an exception, those that C skips included, and no right shift
of a negative number drops a remainder. -/
theorem resolvedCIntegerExpression_iff (e : CExpression) :
    ((∀ (α : Type) (D : Discrete α) (knownSymbols : SymbolMap α) (nameSpace : List Char)
        (v : α), valueIn D e.tree = some v →
        resolvedCIntegerExpression D knownSymbols nameSpace e.text = .ok v) ↔
      PassOrder e.tree) ∧
    (PassOrder e.tree → cValue e.tree ≠ none →
      ((∀ (s : CExpression) (v : Int), Evaluated s.tree e.tree → cValue s.tree = some v →
          ∀ (knownSymbols : SymbolMap Int) (nameSpace : List Char),
            resolvedCIntegerExpression gmp knownSymbols nameSpace s.text = .ok v) ↔
        RaisesNothing e.tree ∧ ExactShifts e.tree)) := by
  have hvalue : ∀ {α : Type} (D : Discrete α) (e : CExpression) (knownSymbols : SymbolMap α)
      (nameSpace : List Char) (v : α),
      resolvedCIntegerExpression D knownSymbols nameSpace e.text = .ok v ↔
        readValue D e.tree = some v := by
    intro α D e knownSymbols nameSpace v
    rw [resolvedCIntegerExpression_eq, readValue]
    cases readingOf D e.tree <;> simp
  have hread : ∀ {α : Type} (D : Discrete α) (e : CExpression), PassOrder e.tree →
      readValue D e.tree = valueIn D e.tree := fun D e hp =>
    (readValue_reads D).eval wellPlaced_paren (fun _ _ _ => passLevel_unique) e.tree
      e.wellPlaced (passOrder_iff_allLevels.1 hp)
  refine ⟨⟨fun h => ?_, fun hp α D knownSymbols nameSpace v hv => ?_⟩, fun hp hdefined => ?_⟩
  · have htree := h _ treeArithmetic (fun _ => none) [] _
      (OpTree.eval_free (fun n : Literal => (n.value : Int)) e.tree)
    rw [hvalue] at htree
    exact passOrder_iff_allLevels.2 ((readValue_reads treeArithmetic).allLevels
      wellPlaced_paren (fun _ _ h => h.2.1) e.tree e.wellPlaced htree)
  · rw [hvalue, hread D e hp, hv]
  constructor
  · intro h
    have hsub : ∀ s v, Evaluated s e.tree → cValue s = some v → valueIn gmp s = some v := by
      intro s v hs hv
      obtain ⟨e', rfl⟩ := hs.expression
      have hresult := h e' v hs hv (fun _ => none) []
      rw [hvalue, hread gmp e' (hs.passOrder hp)] at hresult
      exact hresult
    obtain ⟨v, hv⟩ := Option.ne_none_iff_exists'.1 hdefined
    refine ⟨fun hnone => ?_, fun l r hin x y hx hy => ?_⟩
    · cases (hsub e.tree v .refl hv).symm.trans hnone
    · obtain ⟨z, hz⟩ := Option.ne_none_iff_exists'.1 (hin.defined hdefined)
      have hshift := hsub _ z hin hz
      have hl := hsub l x (hin.trans (.left .refl)) hx
      have hr := hsub r y (hin.trans (.right .refl (by simp [SkipsRight]))) hy
      obtain ⟨x', hx', hz⟩ := Option.bind_eq_some_iff.1 hz
      obtain ⟨y', hy', hz⟩ := Option.bind_eq_some_iff.1 hz
      obtain ⟨x'', hl', hshift⟩ := Option.bind_eq_some_iff.1 hshift
      obtain ⟨y'', hr', hshift⟩ := Option.bind_eq_some_iff.1 hshift
      obtain rfl := Option.some.inj (hx.symm.trans hx')
      obtain rfl := Option.some.inj (hy.symm.trans hy')
      obtain rfl := Option.some.inj (hl.symm.trans hl')
      obtain rfl := Option.some.inj (hr.symm.trans hr')
      exact exact_of_shift hz hshift
  · rintro ⟨hraises, hexact⟩ s v hs hv knownSymbols nameSpace
    rw [hvalue, hread gmp s (hs.passOrder hp)]
    obtain ⟨w, hw⟩ := Option.ne_none_iff_exists'.1 (hs.raisesNothing hraises)
    rw [hw, valueIn_gmp_eq (hexact.of_evaluated fun hin => hs.trans hin) hv hw]

/-- `10-3+2`. -/
def differenceAndSum : CExpression where
  tree := .bin .plus (.bin .minus
    (.leaf (.decimal ['1', '0'] (by simp) (by simp [isDigit]) (by simp)))
    (.leaf (.decimal ['3'] (by simp) (by simp [isDigit]) (by simp))))
    (.leaf (.decimal ['2'] (by simp) (by simp [isDigit]) (by simp)))
  text := "10-3+2".toList
  wellPlaced := by simp [WellPlaced, isBinary]
  grouped := by simp [OpTree.Grouped, OpTree.exposed, cRank]
  spelled := .cons 0 (.cons 0 (.cons 0 (.cons 0 (.cons 0 (.nil 0)))))

/-- The additions are reduced before the subtractions. -/
theorem resolvedCIntegerExpression_sums_first :
    cValue differenceAndSum.tree = some 9 ∧
      resolvedCIntegerExpression gmp (fun _ => none) [] differenceAndSum.text = .ok 5 := by
  exact ⟨rfl, rfl⟩

end Swig4Ada.Ada

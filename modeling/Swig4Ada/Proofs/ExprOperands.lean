import Swig4Ada.Proofs.ExprReductions
import Swig4Ada.Proofs.Indices

/-!
# The operands of the `#if` evaluator

`reduce_op` tests the divisor of a division and of a remainder for zero, and nothing
else. All numbers in the array are of the type `long`, all along, so the other operands
for which C leaves an operation undefined are few: the most negative number, negated or
divided by -1, and the shifts that go too far, either way, or that shift a number out of
the type.
-/

namespace Swig4Ada.Preprocessor

/-! ## Numbers of the type `long` -/

def IsLong (n : Int) : Prop := -longMax - 1 ≤ n ∧ n ≤ longMax

/-- The array of the program, with numbers of its type. -/
def LongStack : Type := { stack : PStack Int // ∀ i, IsLong (stack i).value }

/-- All numbers of a state are of the type `long`. -/
def Longs (st : PState Int) : Prop := ∀ i, IsLong (st.stack i).value

theorem isLong_inLong {n v : Int} (h : inLong n = some v) : IsLong v := by
  rw [inLong] at h
  split at h
  · next hn => exact Option.some.inj h ▸ hn
  · cases h

theorem isLong_ofBool (b : Bool) : IsLong (ofBool b) := by
  cases b <;> exact ⟨by decide, by decide⟩

theorem isLong_iff {n : Int} :
    IsLong n ↔ (∃ m : Nat, n = m ∧ m < 2 ^ 63) ∨ ∃ m : Nat, n = Int.negSucc m ∧ m < 2 ^ 63 := by
  constructor
  · rintro ⟨hlow, hhigh⟩
    rw [longMax] at hlow hhigh
    cases n with
    | ofNat m => exact Or.inl ⟨m, rfl, by simp only [Int.ofNat_eq_natCast] at hhigh; omega⟩
    | negSucc m => exact Or.inr ⟨m, rfl, by omega⟩
  · rw [IsLong, longMax]
    rintro (⟨m, rfl, hm⟩ | ⟨m, rfl, hm⟩)
    · omega
    · omega

theorem isLong_natCast {m : Nat} (h : m < 2 ^ 63) : IsLong (m : Int) :=
  isLong_iff.2 (Or.inl ⟨m, rfl, h⟩)

theorem isLong_negSucc {m : Nat} (h : m < 2 ^ 63) : IsLong (Int.negSucc m) :=
  isLong_iff.2 (Or.inr ⟨m, rfl, h⟩)

theorem ldiff_lt {m n : Nat} (hm : m < 2 ^ 63) (hn : n < 2 ^ 63) : Nat.ldiff m n < 2 ^ 63 :=
  Nat.bitwise_lt_two_pow hm hn

theorem isLong_land {l r : Int} (hl : IsLong l) (hr : IsLong r) : IsLong (Int.land l r) := by
  rcases isLong_iff.1 hl with ⟨m, rfl, hm⟩ | ⟨m, rfl, hm⟩
  · rcases isLong_iff.1 hr with ⟨n, rfl, hn⟩ | ⟨n, rfl, hn⟩
    · exact isLong_natCast (Nat.and_lt_two_pow m hn)
    · exact isLong_natCast (ldiff_lt hm hn)
  · rcases isLong_iff.1 hr with ⟨n, rfl, hn⟩ | ⟨n, rfl, hn⟩
    · exact isLong_natCast (ldiff_lt hn hm)
    · exact isLong_negSucc (Nat.or_lt_two_pow hm hn)

theorem isLong_lor {l r : Int} (hl : IsLong l) (hr : IsLong r) : IsLong (Int.lor l r) := by
  rcases isLong_iff.1 hl with ⟨m, rfl, hm⟩ | ⟨m, rfl, hm⟩
  · rcases isLong_iff.1 hr with ⟨n, rfl, hn⟩ | ⟨n, rfl, hn⟩
    · exact isLong_natCast (Nat.or_lt_two_pow hm hn)
    · exact isLong_negSucc (ldiff_lt hn hm)
  · rcases isLong_iff.1 hr with ⟨n, rfl, hn⟩ | ⟨n, rfl, hn⟩
    · exact isLong_negSucc (ldiff_lt hm hn)
    · exact isLong_negSucc (Nat.and_lt_two_pow m hn)

theorem isLong_xor {l r : Int} (hl : IsLong l) (hr : IsLong r) : IsLong (Int.xor l r) := by
  rcases isLong_iff.1 hl with ⟨m, rfl, hm⟩ | ⟨m, rfl, hm⟩
  · rcases isLong_iff.1 hr with ⟨n, rfl, hn⟩ | ⟨n, rfl, hn⟩
    · exact isLong_natCast (Nat.xor_lt_two_pow hm hn)
    · exact isLong_negSucc (Nat.xor_lt_two_pow hm hn)
  · rcases isLong_iff.1 hr with ⟨n, rfl, hn⟩ | ⟨n, rfl, hn⟩
    · exact isLong_negSucc (Nat.xor_lt_two_pow hm hn)
    · exact isLong_natCast (Nat.xor_lt_two_pow hm hn)

theorem isLong_lnot {n : Int} (h : IsLong n) : IsLong (Int.lnot n) := by
  rcases isLong_iff.1 h with ⟨m, rfl, hm⟩ | ⟨m, rfl, hm⟩
  · exact isLong_negSucc hm
  · exact isLong_natCast hm

theorem isLong_tmod {l r : Int} (h : IsLong l) : IsLong (l.tmod r) := by
  have habs := Int.natAbs_tmod l r
  have hle := Nat.mod_le l.natAbs r.natAbs
  rw [IsLong, longMax] at h ⊢
  by_cases hl : 0 ≤ l
  · have hpos := Int.tmod_nonneg r hl
    omega
  · have hneg := Int.tmod_nonneg r (by omega : 0 ≤ -l)
    rw [Int.neg_tmod] at hneg
    omega

theorem isLong_shift {l : Int} (h : IsLong l) (k : Nat) : IsLong (l / 2 ^ k) := by
  have hpos : (0 : Int) < 2 ^ k := by positivity
  have hone : (1 : Int) ≤ 2 ^ k := hpos
  rw [IsLong, longMax] at h ⊢
  constructor
  · exact (Int.le_ediv_iff_mul_le hpos).2 (by nlinarith)
  · by_cases hl : 0 ≤ l
    · exact le_trans (Int.ediv_le_self _ hl) h.2
    · have := Int.ediv_neg_of_neg_of_pos (by omega : l < 0) hpos
      omega

theorem isLong_longUnary {o : ExprOp} {x v : Int} (hx : IsLong x) (h : longUnary o x = some v) :
    IsLong v := by
  cases o <;> simp only [longUnary, reduceCtorEq] at h
  case not => exact Option.some.inj h ▸ isLong_lnot hx
  case lnot => exact Option.some.inj h ▸ isLong_ofBool _
  case uminus => exact isLong_inLong h

theorem isLong_longBinary {o : ExprOp} {l r v : Int} (hl : IsLong l) (hr : IsLong r)
    (h : longBinary o l r = some v) : IsLong v := by
  cases o <;> simp only [longBinary, reduceCtorEq] at h
  case star => exact isLong_inLong h
  case plus => exact isLong_inLong h
  case minus => exact isLong_inLong h
  case slash =>
      split at h
      · cases h
      · exact isLong_inLong h
  case percent =>
      split at h
      · cases h
      · obtain ⟨q, _, rfl⟩ := Option.map_eq_some_iff.1 h
        exact isLong_tmod hl
  case lshift =>
      split at h
      · exact isLong_inLong h
      · cases h
  case rshift =>
      split at h
      · exact Option.some.inj h ▸ isLong_shift hl _
      · cases h
  case and => exact Option.some.inj h ▸ isLong_land hl hr
  case xor => exact Option.some.inj h ▸ isLong_xor hl hr
  case or => exact Option.some.inj h ▸ isLong_lor hl hr
  all_goals exact Option.some.inj h ▸ isLong_ofBool _

theorem isLong_strtol (text : List Char) : IsLong (strtol text) := by
  refine ⟨?_, min_le_right _ _⟩
  exact le_min (le_trans (by decide) (Int.natCast_nonneg _)) (by decide)

/-! ## Every number is a long, all along -/

variable {st st' : PState Int}

theorem Longs.modify (h : Longs st) {i : Nat} {f : Cell Int (Option StringRef) → _}
    (hf : ∀ c, IsLong c.value → IsLong (f c).value) : Longs (st.modify i f) := by
  intro j
  rw [State.modify_stack]
  split
  · exact hf _ (h i)
  · exact h j

theorem Longs.reduced (h : Longs st) {k : Nat} {v : Int} (hv : IsLong v) :
    Longs (reduced pointers st k v) := by
  have hvalue : Longs (st.modify k fun c => { c with
      op := .value, value := v, svalue := pointers.null }) := h.modify fun _ _ => hv
  exact hvalue

theorem Longs.push (h : Longs st) {n : Nat} (hpush : st.push n = .ok st') : Longs st' := by
  rw [State.push] at hpush
  split at hpush
  · obtain rfl := Except.ok.inj hpush
    exact h
  · cases hpush

theorem longs_reduceUnaryNumber (h : Longs st) {o : ExprOp}
    (hrun : reduceUnaryNumber longArithmetic pointers st o = .ok st') : Longs st' := by
  rw [reduceUnaryNumber] at hrun
  split at hrun
  next v hv =>
    obtain rfl := Except.ok.inj hrun
    exact h.reduced (isLong_longUnary (h _) hv)
  next => cases hrun

theorem longs_reduceNumbers (h : Longs st) {o : ExprOp}
    (hrun : reduceNumbers longArithmetic pointers st o = .ok st') : Longs st' := by
  unfold reduceNumbers at hrun
  simp only at hrun
  split at hrun
  · exact nomatch hrun
  split at hrun
  · exact nomatch hrun
  split at hrun
  next v hv =>
    obtain rfl := Except.ok.inj hrun
    exact h.reduced (isLong_longBinary (h _) (h _) hv)
  next => exact nomatch hrun

theorem longs_reduceStrings (h : Longs st) {o : ExprOp}
    (hrun : reduceStrings longArithmetic pointers st o = .ok st') : Longs st' := by
  unfold reduceStrings at hrun
  simp only at hrun
  split at hrun
  · obtain ⟨same, -, hsame⟩ := bind_eq_ok hrun
    obtain rfl := Except.ok.inj hsame
    have hdeleted : Longs (st.modify st.sp fun c => { c with svalue := pointers.deleted c.svalue }) :=
      h.modify fun _ hc => hc
    refine hdeleted.reduced ?_
    split
    · exact isLong_ofBool true
    · exact isLong_ofBool false
  · exact nomatch hrun

theorem longs_reduceOp (h : Longs st)
    (hrun : reduceOp longArithmetic pointers st = .ok st') : Longs st' := by
  unfold reduceOp at hrun
  simp only at hrun
  split at hrun
  · exact nomatch hrun
  obtain ⟨rightIsString, -, hrun⟩ := bind_eq_ok hrun
  split at hrun
  · split at hrun
    · exact nomatch hrun
    · exact longs_reduceUnaryNumber h hrun
  split at hrun
  · exact nomatch hrun
  obtain ⟨leftIsString, -, hrun⟩ := bind_eq_ok hrun
  split at hrun
  · exact nomatch hrun
  split at hrun
  · exact longs_reduceStrings h hrun
  · exact longs_reduceNumbers h hrun

theorem longs_reduceAll {fuel : Nat} (h : Longs st)
    (hrun : reduceAll longArithmetic pointers fuel st = .ok st') : Longs st' := by
  induction fuel generalizing st with
  | zero => exact Except.ok.inj hrun ▸ h
  | succ fuel ih =>
      rw [reduceAll] at hrun
      split at hrun
      · obtain ⟨st₁, hone, hrest⟩ := bind_eq_ok hrun
        exact ih (longs_reduceOp h hone) hrest
      · exact Except.ok.inj hrun ▸ h

theorem longs_pushUnary (h : Longs st) {token : ExprOp}
    (hrun : pushUnary pointers st token = .ok st') : Longs st' := by
  obtain ⟨st₁, hpush, hrun⟩ := bind_eq_ok hrun
  obtain rfl := Except.ok.inj hrun
  have hop : Longs (st.modify st.sp fun c => { c with op := .op, token := token }) :=
    h.modify fun _ hc => hc
  exact (hop.push hpush).modify fun _ hc => hc

theorem longs_pushBinary (h : Longs st) {token : ExprOp}
    (hrun : pushBinary longArithmetic st token = .ok st') : Longs st' := by
  obtain ⟨st₁, hfirst, hrun⟩ := bind_eq_ok hrun
  obtain ⟨st₂, hsecond, hrun⟩ := bind_eq_ok hrun
  obtain rfl := Except.ok.inj hrun
  have hop : Longs (st₁.modify st₁.sp fun c => { c with op := .op, token := token }) :=
    (h.push hfirst).modify fun _ hc => hc
  exact (hop.push hsecond).modify fun _ _ => isLong_ofBool false

theorem longs_readNumber (h : Longs st) {kind : NumberKind} {text : List Char}
    (hrun : readNumber longArithmetic pointers st kind text = .ok st') : Longs st' := by
  have hnumber : Longs (st.modify st.sp fun c => { c with
      value := longArithmetic.ofLong (strtol text), svalue := pointers.null, op := .value }) :=
    h.modify fun _ _ => isLong_strtol text
  cases kind with
  | int => exact Except.ok.inj hrun ▸ hnumber
  | uint => exact Except.ok.inj hrun ▸ hnumber
  | long => exact Except.ok.inj hrun ▸ hnumber
  | ulong => exact Except.ok.inj hrun ▸ hnumber
  | longLong => exact nomatch hrun
  | ulongLong => exact nomatch hrun
  | float => exact nomatch hrun
  | double => exact nomatch hrun

theorem longs_readOperand (h : Longs st) {token : Token}
    (hrun : readOperand longArithmetic pointers st token = .ok st') : Longs st' := by
  unfold readOperand at hrun
  split at hrun
  · exact longs_readNumber h hrun
  · exact Except.ok.inj hrun ▸ h
  · exact longs_pushUnary h hrun
  · exact longs_pushUnary h hrun
  · exact longs_pushUnary h hrun
  · obtain ⟨st₁, hpush, hrun⟩ := bind_eq_ok hrun
    obtain rfl := Except.ok.inj hrun
    have hgroup : Longs (st.modify st.sp fun c => { c with op := .group }) :=
      h.modify fun _ hc => hc
    exact (hgroup.push hpush).modify fun _ _ => isLong_ofBool false
  · obtain rfl := Except.ok.inj hrun
    exact h.modify fun _ hc => hc
  · obtain rfl := Except.ok.inj hrun
    exact h.modify fun _ _ => isLong_ofBool false
  · exact nomatch hrun

theorem longs_readOperator (h : Longs st) {token : Token}
    (hrun : readOperator longArithmetic pointers st token = .ok st') : Longs st' := by
  unfold readOperator at hrun
  split at hrun
  · split at hrun
    · exact nomatch hrun
    split at hrun
    · exact longs_pushBinary h hrun
    split at hrun
    · exact nomatch hrun
    split at hrun
    · obtain ⟨st₁, hone, hrun⟩ := bind_eq_ok hrun
      exact longs_pushBinary (longs_reduceOp h hone) hrun
    · exact longs_pushBinary h hrun
  · split at hrun
    · exact nomatch hrun
    obtain ⟨st₁, hall, hrun⟩ := bind_eq_ok hrun
    have hst₁ := longs_reduceAll h hall
    split at hrun
    · exact nomatch hrun
    · obtain rfl := Except.ok.inj hrun
      have hgroup : Longs (st₁.modify (st₁.sp - 1) fun c => { c with
          op := .value, value := (st₁.cell st₁.sp).value }) := hst₁.modify fun _ _ => hst₁ st₁.sp
      exact hgroup
  · exact nomatch hrun

theorem longs_exprStep (h : Longs st) {token : Token}
    (hrun : exprStep longArithmetic pointers st token = .ok st') : Longs st' := by
  unfold exprStep at hrun
  split at hrun
  · exact longs_readOperand h hrun
  · exact longs_readOperator h hrun
  · exact nomatch hrun
  · exact nomatch hrun

/-! ### The states of the reductions -/

variable {r : PState Int}

theorem longs_allReductions {fuel : Nat} (h : Longs st)
    (hr : r ∈ allReductions longArithmetic pointers fuel st) : Longs r := by
  induction fuel generalizing st with
  | zero => exact absurd hr List.not_mem_nil
  | succ fuel ih =>
      rw [allReductions] at hr
      split at hr
      · rcases List.mem_cons.1 hr with rfl | hr
        · exact h
        · split at hr
          next st₁ hone => exact ih (longs_reduceOp h hone) hr
          next => exact absurd hr List.not_mem_nil
      · exact absurd hr List.not_mem_nil

theorem longs_stepReductions (h : Longs st) {token : Token}
    (hr : r ∈ stepReductions longArithmetic pointers st token) : Longs r := by
  rw [stepReductions] at hr
  split at hr
  · unfold operatorReductions at hr
    split at hr
    · split at hr
      · exact absurd hr List.not_mem_nil
      split at hr
      · exact List.mem_singleton.1 hr ▸ h
      · exact absurd hr List.not_mem_nil
    · exact longs_allReductions h hr
    · exact absurd hr List.not_mem_nil
  · exact absurd hr List.not_mem_nil

theorem longs_runReductions {tokens : List Token} (h : Longs st)
    (hr : r ∈ runReductions longArithmetic pointers tokens st) : Longs r := by
  induction tokens generalizing st with
  | nil =>
      rw [runReductions] at hr
      split at hr
      · exact longs_allReductions h hr
      · exact absurd hr List.not_mem_nil
  | cons token tokens ih =>
      rw [runReductions] at hr
      rcases List.mem_append.1 hr with hr | hr
      · exact longs_stepReductions h hr
      · split at hr
        next st₁ hone => exact ih (longs_exprStep h hone) hr
        next => exact absurd hr List.not_mem_nil

theorem longs_exprReductions {tokens : List Token} {stack : LongStack}
    (hr : r ∈ exprReductions tokens stack.1) : Longs r := by
  have hstack : Longs ⟨stack.1, 0⟩ := stack.2
  have hstart : Longs (exprStart longArithmetic stack.1) :=
    hstack.modify fun _ _ => isLong_ofBool false
  exact longs_runReductions hstart hr

/-! ## The operands -/

namespace State

def operator (st : PState Int) : ExprOp := (st.cell (st.sp - 1)).token

def left (st : PState Int) : Int := (st.cell (st.sp - 2)).value

def right (st : PState Int) : Int := (st.cell st.sp).value

/-- The reduction is one of numbers. -/
structure OnNumbers (st : PState Int) : Prop where
  value : (st.cell st.sp).op = .value
  right : (st.cell st.sp).svalue = none
  left : isUnaryOp st.operator = false → st.sp ≠ 1 ∧ (st.cell (st.sp - 2)).svalue = none

end State

/-- Divisions, remainders, shifts and negations are defined in C on a 64-bit `long`. -/
def CDefined (o : ExprOp) (l r : Int) : Prop :=
  match o with
  | .uminus => r ≠ -longMax - 1
  | .slash | .percent => r ≠ 0 ∧ ¬ (l = -longMax - 1 ∧ r = -1)
  | .lshift => 0 ≤ l ∧ 0 ≤ r ∧ r < 64 ∧ l * 2 ^ r.toNat ≤ longMax
  | .rshift => 0 ≤ r ∧ r < 64
  | _ => True

/-- The operands that nothing is done about. -/
def Unguarded (o : ExprOp) (l r : Int) : Prop :=
  match o with
  | .uminus => r = -longMax - 1
  | .slash | .percent => l = -longMax - 1 ∧ r = -1
  | .lshift => l < 0 ∨ r < 0 ∨ 64 ≤ r ∨ longMax < l * 2 ^ r.toNat
  | .rshift => r < 0 ∨ 64 ≤ r
  | _ => False

/-- Where C leaves the operation of a reduction undefined an error is reported. -/
def ReportsUndefined (st : PState Int) : Prop :=
  st.OnNumbers → ¬ CDefined st.operator st.left st.right →
    ∃ errmsg, reduceOp longArithmetic pointers st = st.fail errmsg

/-- The reduction comes to operands that nothing is done about. -/
def MeetsUnguarded (st : PState Int) : Prop :=
  st.OnNumbers ∧ Unguarded st.operator st.left st.right

variable {o : ExprOp} {l q : Int}

/-- The quotient of two longs is one, but for the most negative by -1. -/
theorem inLong_tdiv (hl : IsLong l) (hq : q ≠ 0) :
    inLong (l.tdiv q) = none ↔ l = -longMax - 1 ∧ q = -1 := by
  rw [inLong, IsLong] at *
  have habs : (l.tdiv q).natAbs = l.natAbs / q.natAbs := Int.natAbs_tdiv l q
  constructor
  · intro h
    have hout : ¬ (-longMax - 1 ≤ l.tdiv q ∧ l.tdiv q ≤ longMax) := fun hin => by
      rw [if_pos hin] at h
      cases h
    have hle : l.natAbs / q.natAbs ≤ l.natAbs := Nat.div_le_self _ _
    have hlmin : l = -longMax - 1 := by
      rw [longMax] at *
      omega
    refine ⟨hlmin, ?_⟩
    by_contra hq1
    by_cases hq2 : q = 1
    · rw [hq2, Int.tdiv_one] at hout
      exact hout hl
    · have hhalf : l.natAbs / q.natAbs ≤ l.natAbs / 2 :=
        Nat.div_le_div_left (by omega) (by omega)
      rw [longMax] at *
      omega
  · rintro ⟨rfl, rfl⟩
    rfl

theorem not_cDefined_of_unguarded (h : Unguarded o l q) : ¬ CDefined o l q := by
  cases o <;> simp only [Unguarded, CDefined] at h ⊢
  case uminus => exact fun hne => hne h
  case slash => exact fun hne => hne.2 h
  case percent => exact fun hne => hne.2 h
  case lshift => omega
  case rshift => omega

/-- What is undefined and guarded is a divisor zero. -/
theorem zero_of_guarded (hdefined : ¬ CDefined o l q) (h : ¬ Unguarded o l q) :
    (o = .slash ∨ o = .percent) ∧ q = 0 := by
  cases o <;> simp only [Unguarded, CDefined] at h hdefined
  case uminus => exact absurd h hdefined
  case slash =>
      refine ⟨Or.inl rfl, ?_⟩
      by_contra hq
      exact hdefined ⟨hq, h⟩
  case percent =>
      refine ⟨Or.inr rfl, ?_⟩
      by_contra hq
      exact hdefined ⟨hq, h⟩
  case lshift => omega
  case rshift => omega
  all_goals exact absurd trivial hdefined

theorem longUnary_unguarded (hun : isUnaryOp o = true) (h : Unguarded o l q) :
    longUnary o q = none := by
  cases o <;> simp only [Unguarded, isUnaryOp, Bool.false_eq_true] at h hun
  subst h
  rfl

theorem longBinary_unguarded (hl : IsLong l) (hbin : isUnaryOp o = false)
    (h : Unguarded o l q) : longBinary o l q = none := by
  cases o <;> simp only [Unguarded, isUnaryOp, Bool.true_eq_false] at h hbin
  case slash =>
      have hq : q ≠ 0 := by omega
      rw [longBinary, if_neg hq]
      exact (inLong_tdiv hl hq).2 h
  case percent =>
      have hq : q ≠ 0 := by omega
      rw [longBinary, if_neg hq, (inLong_tdiv hl hq).2 h]
      rfl
  case lshift =>
      rw [longBinary]
      split
      next hin => rw [inLong, if_neg (by omega)]
      next => rfl
  case rshift => rw [longBinary, if_neg (by omega)]

theorem reduceOp_onNumbers (h : st.OnNumbers) :
    reduceOp longArithmetic pointers st =
      if isUnaryOp st.operator then reduceUnaryNumber longArithmetic pointers st st.operator
      else reduceNumbers longArithmetic pointers st st.operator := by
  have hright : pointers.isString (st.stack st.sp).svalue = .ok false := by
    show Except.ok (st.stack st.sp).svalue.isSome = .ok false
    rw [show (st.stack st.sp).svalue = none from h.right]
    rfl
  cases hun : isUnaryOp st.operator with
  | true => rw [reduceOp_unary (S := pointers) h.value hun hright, if_neg (by simp), if_pos rfl,
      State.operator, State.cell]
  | false =>
      obtain ⟨hone, hleft⟩ := h.left hun
      have hleft : pointers.isString (st.stack (st.sp - 2)).svalue = .ok false := by
        show Except.ok (st.stack (st.sp - 2)).svalue.isSome = .ok false
        rw [show (st.stack (st.sp - 2)).svalue = none from hleft]
        rfl
      rw [reduceOp_binary (S := pointers) h.value hun hright hleft, if_neg hone, if_neg (by simp),
        if_neg (by simp), if_neg (by simp), State.operator, State.cell]

/-- What a reduction does with operands that nothing is done about is undefined. -/
theorem reduceOp_unguarded (hlongs : Longs st) (h : MeetsUnguarded st) :
    reduceOp longArithmetic pointers st = st.undefined := by
  obtain ⟨hnumbers, hunguarded⟩ := h
  rw [reduceOp_onNumbers hnumbers]
  cases hun : isUnaryOp st.operator with
  | true =>
      have hnone : longArithmetic.unary st.operator (st.cell st.sp).value = none :=
        longUnary_unguarded hun hunguarded
      rw [if_pos rfl, reduceUnaryNumber, hnone]
  | false =>
      have hnone : longArithmetic.binary st.operator (st.cell (st.sp - 2)).value
          (st.cell st.sp).value = none :=
        longBinary_unguarded (hlongs (st.sp - 2)) hun hunguarded
      have hzero : ∀ o', (o' = .slash ∨ o' = .percent) →
          ¬ (st.operator = o' ∧ longArithmetic.isZero (st.cell st.sp).value = true) := by
        rintro o' ho' ⟨ho, hz⟩
        have hz : st.right = 0 := of_decide_eq_true hz
        rw [ho, hz] at hunguarded
        rcases ho' with rfl | rfl
        · exact absurd hunguarded.2 (by decide)
        · exact absurd hunguarded.2 (by decide)
      rw [if_neg Bool.false_ne_true]
      unfold reduceNumbers
      simp only
      rw [if_neg (hzero .slash (Or.inl rfl)), if_neg (hzero .percent (Or.inr rfl)), hnone]

theorem reportsUndefined_iff (hlongs : Longs st) :
    ReportsUndefined st ↔ ¬ MeetsUnguarded st := by
  constructor
  · intro h hmeets
    obtain ⟨errmsg, hfail⟩ := h hmeets.1 (not_cDefined_of_unguarded hmeets.2)
    rw [reduceOp_unguarded hlongs hmeets, State.undefined, State.fail] at hfail
    cases hfail
  · intro h hnumbers hdefined
    obtain ⟨ho, hzero⟩ := zero_of_guarded hdefined fun hun => h ⟨hnumbers, hun⟩
    have hisZero : longArithmetic.isZero (st.cell st.sp).value = true := decide_eq_true hzero
    rw [reduceOp_onNumbers hnumbers]
    rcases ho with ho | ho
    · refine ⟨"Division by zero in expression", ?_⟩
      rw [ho, if_neg (by decide)]
      unfold reduceNumbers
      simp only
      rw [if_pos ⟨trivial, hisZero⟩]
    · refine ⟨"Modulo by zero in expression", ?_⟩
      rw [ho, if_neg (by decide)]
      unfold reduceNumbers
      simp only
      rw [if_neg fun hno => absurd hno.1 (by decide), if_pos ⟨trivial, hisZero⟩]

/-- In an evaluation every reduction that C leaves undefined is reported exactly if none
comes to the most negative number negated or divided by -1, or to a shift too far. -/
theorem exprReductions_report_iff (tokens : List Token) (stack : LongStack) :
    (∀ st ∈ exprReductions tokens stack.1, ReportsUndefined st) ↔
      ∀ st ∈ exprReductions tokens stack.1, ¬ MeetsUnguarded st :=
  forall₂_congr fun _ hst => reportsUndefined_iff (longs_exprReductions hst)

/-- `1 << 64` -/
def shiftTokens : List Token :=
  [.number .int ['1'], .op .lshift, .number .int ['6', '4']]

def zeroStack : LongStack := ⟨fun _ => ⟨.top, 0, .plus, none⟩, fun _ => isLong_ofBool false⟩

theorem shift_not_reported :
    ¬ ∀ (tokens : List Token) (stack : LongStack),
      ∀ st ∈ exprReductions tokens stack.1, ReportsUndefined st := by
  intro h
  obtain ⟨st, hst, hmeets⟩ : ∃ st ∈ exprReductions shiftTokens zeroStack.1, MeetsUnguarded st :=
    ⟨_, List.mem_singleton.2 rfl, ⟨rfl, rfl, fun _ => ⟨by decide, rfl⟩⟩,
      Or.inr (Or.inr (Or.inl (le_refl (64 : Int))))⟩
  exact (reportsUndefined_iff (longs_exprReductions hst)).1 (h shiftTokens zeroStack st hst) hmeets

end Swig4Ada.Preprocessor

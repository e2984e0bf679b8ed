import Swig4Ada.Lib.Shadow
import Swig4Ada.Preprocessor.Expr

/-!
# What an evaluation finds on the array

The array of `expr.c` keeps the strings of earlier evaluations: a cell that
becomes the start of a parenthesised operand behind a binary operator, or in
front of the whole expression, is not cleared, and has the old `svalue` again
when the parenthesis closes. `ReadsUnset` says that an expression looks at such
a field. It is the machine itself on an array of which nothing is known, with a
field `svalue` that keeps track of what the evaluation has set.

`preprocessorExpr_history_iff` says that this is the only way in which an
evaluation has an effect on a later one, and that every expression which reads an
unset field and is not rejected anyway can be made to go wrong.
-/

namespace Swig4Ada.Preprocessor

open Swig4Ada.Lib

variable {α : Type} {A : Arithmetic α}

/-! ## The tracking field -/

/-- `none` is a field that the evaluation has not set. -/
abbrev Tracked := Option (Option StringRef)

/-- The stop at a field that is not set. No error of the program has this text. -/
def unset : Fault := .message "svalue is not set"

def tracked : StringField Tracked where
  null := some pointers.null
  new text := some (pointers.new text)
  deleted p := p.map pointers.deleted
  isString
    | some p => pointers.isString p
    | none => .error unset
  equal
    | some p, some q => pointers.equal p q
    | _, _ => .error unset

/-- The run of the tracking machine on an array of which nothing is known. -/
def trackedExpr (A : Arithmetic α) (e : List Token) : Except Fault α × Stack α Tracked :=
  preprocessorExpr A tracked e fun _ => ⟨.top, A.ofLong 0, .plus, none⟩

/-- The evaluation reads a field `svalue` that it has not set. -/
def ReadsUnset (e : List Token) : Prop := (trackedExpr longArithmetic e).1 = .error unset

instance (e : List Token) : Decidable (ReadsUnset e) :=
  inferInstanceAs (Decidable (_ = _))

/-- `1+(2)` looks at a cell that it has not set. A unary operator clears the cell
of its operand. -/
example :
    ReadsUnset [.number .int ['1'], .op .plus, .lparen, .number .int ['2'], .rparen] ∧
    ¬ ReadsUnset [.op .lnot, .lparen, .number .int ['2'], .rparen] := by decide +kernel

/-- The array when the program starts. Its kinds, values and tokens are never
read. -/
def programStart : PStack Int := fun _ => ⟨.top, 0, .plus, none⟩

/-- The array after some evaluations. -/
def arrayAfter (history : List (List Token)) : PStack Int :=
  history.foldl (fun stack e => (preprocessorExpr longArithmetic pointers e stack).2)
    programStart

/-! ## The relation -/

/-- The operand in cell `i` is that of a unary operator. -/
def BehindUnary {σ : Type} (st : State α σ) (i : Nat) : Prop :=
  0 < i ∧ (st.stack (i - 1)).op = .op ∧ isUnaryOp (st.stack (i - 1)).token = true

/-- A value that is not read: that of a string behind a unary operator, or of an
operand there which is still to come. -/
def ValueUnread (st : State α Tracked) (i : Nat) (c : Cell α Tracked) : Prop :=
  BehindUnary st i ∧ (c.op = .top ∨ tracked.isString c.svalue = .ok true)

/-- A cell of the tracking machine and one of the program, but for `svalue`. -/
structure CellAlike (unread : Prop) (x : Cell α Tracked) (y : Cell α (Option StringRef)) :
    Prop where
  op : y.op = x.op
  token : x.op = .op → y.token = x.token
  value : x.op = .top ∨ x.op = .value → y.value = x.value ∨ unread

/-- The program has begun with the array `s`. -/
structure Alike (s : PStack α) (a : State α Tracked) (c : PState α) : Prop where
  sp : c.sp = a.sp
  svalue : ∀ i, (c.stack i).svalue = (a.stack i).svalue.getD (s i).svalue
  cell : ∀ i, i ≤ a.sp →
    CellAlike (ValueUnread a i (a.stack i)) (a.stack i) (c.stack i)
  /-- A binary operator has a value on its left. -/
  left : ∀ i, i ≤ a.sp → (a.stack i).op = .op → isUnaryOp (a.stack i).token = false →
    0 < i ∧ (a.stack (i - 1)).op = .value
  room : a.sp < stackSize

/-- The same, with a value on top. -/
structure AlikeValue (s : PStack α) (a : State α Tracked) (c : PState α) : Prop extends
    Alike s a c where
  top : (a.stack a.sp).op = .value

/-- The program gives an error message. -/
def Rejected (err : Option (Fault × PStack α)) : Prop :=
  ∃ errmsg stack, err = some (.message errmsg, stack)

/-- What a stop of the tracking machine says about the program on the arrays `s`:
where it is not for an unset field, all stop likewise; else for one cell, of two
arrays that differ in it, one with a string and one without, one ends in an
error. -/
def Ends (err : Fault × Stack α Tracked) (runs : PStack α → Option (Fault × PStack α)) :
    Prop :=
  if err.1 = unset then
    ∃ k < stackSize, ∀ s s' : PStack α, (∀ i, i ≠ k → (s i).svalue = (s' i).svalue) →
      (s k).svalue.isSome ≠ (s' k).svalue.isSome → Rejected (runs s) ∨ Rejected (runs s')
  else ∀ s, ∃ stack, runs s = some (err.1, stack)

theorem persistent_ends : Persistent (Ends (α := α)) := by
  intro err runs runs' h hmore
  rw [Ends] at h ⊢
  split at h
  · obtain ⟨k, hk, hdiff⟩ := h
    rw [if_pos ‹_›]
    refine ⟨k, hk, fun s s' hsame hk => (hdiff s s' hsame hk).imp ?_ ?_⟩
    · exact fun ⟨errmsg, stack, heq⟩ => ⟨errmsg, stack, hmore _ _ heq⟩
    · exact fun ⟨errmsg, stack, heq⟩ => ⟨errmsg, stack, hmore _ _ heq⟩
  · rw [if_neg ‹_›]
    intro s
    obtain ⟨stack, heq⟩ := h s
    exact ⟨stack, hmore _ _ heq⟩

theorem BehindUnary.modify {σ : Type} {st : State α σ} {i k : Nat} {f : Cell α σ → Cell α σ}
    (h : BehindUnary st i) (hik : i ≤ k) : BehindUnary { st.modify k f with sp := k } i := by
  obtain ⟨hpos, hop, htoken⟩ := h
  have hne : i - 1 ≠ k := by omega
  refine ⟨hpos, ?_, ?_⟩
  · rwa [State.modify_stack, if_neg hne]
  · rwa [State.modify_stack, if_neg hne]

/-- A change of cell `k`, which becomes the top. -/
theorem Alike.set {s : PStack α} {a : State α Tracked} {c : PState α} (h : Alike s a c)
    {k : Nat} {f : Cell α Tracked → Cell α Tracked}
    {g : Cell α (Option StringRef) → Cell α (Option StringRef)} (hk : k ≤ a.sp + 1)
    (hroom : k < stackSize)
    (hs : (g (c.stack k)).svalue = (f (a.stack k)).svalue.getD (s k).svalue)
    (hc : CellAlike (ValueUnread a k (f (a.stack k))) (f (a.stack k)) (g (c.stack k)))
    (hleft : (f (a.stack k)).op = .op → isUnaryOp (f (a.stack k)).token = false →
      0 < k ∧ (a.stack (k - 1)).op = .value) :
    Alike s { a.modify k f with sp := k } { c.modify k g with sp := k } := by
  refine ⟨rfl, fun i => ?_, fun i hi => ?_, fun i hi hop hbin => ?_, hroom⟩
  · simp only [State.modify_stack]
    by_cases hik : i = k
    · rw [if_pos hik, if_pos hik, hik, hs]
    · rw [if_neg hik, if_neg hik, h.svalue i]
  · by_cases hik : i = k
    · subst hik
      simp only [State.modify_stack, if_true]
      refine ⟨hc.op, hc.token, fun hv => (hc.value hv).imp_right fun hun => ?_⟩
      exact ⟨hun.1.modify (Nat.le_refl i), hun.2⟩
    · have hle : i ≤ k := hi
      have hcell := h.cell i (by omega)
      simp only [State.modify_stack, if_neg hik]
      refine ⟨hcell.op, hcell.token, fun hv => (hcell.value hv).imp_right fun hun => ?_⟩
      exact ⟨hun.1.modify hi, hun.2⟩
  · have hle : i ≤ k := hi
    simp only [State.modify_stack] at hop hbin ⊢
    by_cases hik : i = k
    · rw [if_pos hik] at hop hbin
      subst hik
      have := hleft hop hbin
      rwa [if_neg (by omega)]
    · rw [if_neg hik] at hop hbin
      have := h.left i (by omega) hop hbin
      rwa [if_neg (by omega)]

/-- A change of the top cell. -/
theorem Alike.setTop {s : PStack α} {a : State α Tracked} {c : PState α} (h : Alike s a c)
    {f : Cell α Tracked → Cell α Tracked}
    {g : Cell α (Option StringRef) → Cell α (Option StringRef)}
    (hs : (g (c.stack a.sp)).svalue = (f (a.stack a.sp)).svalue.getD (s a.sp).svalue)
    (hc : CellAlike (ValueUnread a a.sp (f (a.stack a.sp))) (f (a.stack a.sp))
      (g (c.stack a.sp)))
    (hleft : (f (a.stack a.sp)).op = .op → isUnaryOp (f (a.stack a.sp)).token = false →
      0 < a.sp ∧ (a.stack (a.sp - 1)).op = .value) :
    Alike s (a.modify a.sp f) (c.modify a.sp g) := by
  have hset := h.set (f := f) (g := g) (by omega) h.room hs hc hleft
  have hc : ({ c.modify a.sp g with sp := a.sp } : PState α) = c.modify a.sp g := by
    show (⟨_, a.sp⟩ : PState α) = ⟨_, c.sp⟩
    rw [h.sp]
    rfl
  rwa [hc] at hset

/-! ## The steps -/

variable {a : State α Tracked} {ys : PStack α → PState α}

/-- The runs of the program that stand behind one of the tracking machine. -/
abbrev Tracks {β γ : Type} (R : PStack α → β → γ → Prop) (run : Run α Tracked β)
    (runs : PStack α → PRun α γ) : Prop :=
  Shadows Ends R run runs

theorem tracks_fail {β γ : Type} {R : PStack α → β → γ → Prop} {errmsg : String}
    (h : Fault.message errmsg ≠ unset) :
    Tracks R (a.fail errmsg) fun s => (ys s).fail errmsg := by
  rw [Tracks, State.fail, Shadows, Ends, if_neg h]
  exact fun s => ⟨_, rfl⟩

theorem tracks_undefined {β γ : Type} {R : PStack α → β → γ → Prop} :
    Tracks R a.undefined fun s => (ys s).undefined := by
  rw [Tracks, State.undefined, Shadows, Ends, if_neg (by simp [unset])]
  exact fun s => ⟨_, rfl⟩

/-- The end of a reduction. -/
theorem reduced_alike {s : PStack α} {c : PState α} (h : Alike s a c) {k : Nat} {v : α}
    (hk : k ≤ a.sp) : AlikeValue s (reduced tracked a k v) (reduced pointers c k v) := by
  have hroom := h.room
  refine ⟨h.set (by omega) (by omega) rfl ⟨rfl, nofun, fun _ => Or.inl rfl⟩ nofun, ?_⟩
  simp [reduced]

/-- A value that is no string is the same for all. -/
theorem value_eq {s : PStack α} {c : PState α} (h : Alike s a c) {i : Nat} (hi : i ≤ a.sp)
    (hop : (a.stack i).op = .value) (hs : tracked.isString (a.stack i).svalue ≠ .ok true) :
    (c.stack i).value = (a.stack i).value := by
  rcases (h.cell i hi).value (Or.inr hop) with hv | ⟨_, htop | hstr⟩
  · exact hv
  · rw [hop] at htop
    cases htop
  · exact absurd hstr hs

theorem reduceOp_unary {σ : Type} {S : StringField σ} {st : State α σ} {r : Bool}
    (hval : (st.stack st.sp).op = .value)
    (hun : isUnaryOp (st.stack (st.sp - 1)).token = true)
    (hr : S.isString (st.stack st.sp).svalue = .ok r) :
    reduceOp A S st =
      if r then st.fail "Syntax error: attempt to apply unary operator to string"
      else reduceUnaryNumber A S st (st.stack (st.sp - 1)).token := by
  simp only [reduceOp, State.cell, hval, hr, hun, State.lift, ne_eq, not_true_eq_false,
    if_false, if_true]
  rfl

theorem reduceOp_binary {σ : Type} {S : StringField σ} {st : State α σ} {l r : Bool}
    (hval : (st.stack st.sp).op = .value)
    (hbin : isUnaryOp (st.stack (st.sp - 1)).token = false)
    (hr : S.isString (st.stack st.sp).svalue = .ok r)
    (hl : S.isString (st.stack (st.sp - 2)).svalue = .ok l) :
    reduceOp A S st =
      if st.sp = 1 then st.fail "Missing left-hand side for binary operator"
      else if l ≠ r then st.fail "Can't mix strings and integers in expression"
      else if r then reduceStrings A S st (st.stack (st.sp - 1)).token
      else reduceNumbers A S st (st.stack (st.sp - 1)).token := by
  simp only [reduceOp, State.cell, hval, hr, hl, hbin, State.lift, ne_eq, not_true_eq_false,
    if_false, Bool.false_eq_true]
  rfl

/-- Where a binary operator has a string on one side only, it is an error. -/
theorem reduceOp_mixed {st : PState α} (hval : (st.stack st.sp).op = .value)
    (hbin : isUnaryOp (st.stack (st.sp - 1)).token = false)
    (hmix : (st.stack (st.sp - 2)).svalue.isSome ≠ (st.stack st.sp).svalue.isSome) :
    Rejected (errorOf (reduceOp A pointers st)) := by
  rw [reduceOp_binary (S := pointers) hval hbin rfl rfl]
  by_cases hsp : st.sp = 1
  · rw [if_pos hsp]
    exact ⟨_, _, rfl⟩
  · rw [if_neg hsp, if_pos hmix]
    exact ⟨_, _, rfl⟩

theorem reduceOp_string {st : PState α} (hval : (st.stack st.sp).op = .value)
    (hun : isUnaryOp (st.stack (st.sp - 1)).token = true)
    (hstr : (st.stack st.sp).svalue.isSome = true) :
    Rejected (errorOf (reduceOp A pointers st)) := by
  rw [reduceOp_unary (S := pointers) hval hun rfl, if_pos hstr]
  exact ⟨_, _, rfl⟩

theorem tracks_reduceUnaryNumber (h : ∀ s, Alike s a (ys s)) (o : ExprOp)
    (hop : (a.stack a.sp).op = .value)
    (hs : tracked.isString (a.stack a.sp).svalue ≠ .ok true) :
    Tracks AlikeValue (reduceUnaryNumber A tracked a o)
      fun s => reduceUnaryNumber A pointers (ys s) o := by
  have hvalue : ∀ s, ((ys s).stack a.sp).value = (a.stack a.sp).value :=
    fun s => value_eq (h s) (Nat.le_refl _) hop hs
  simp only [reduceUnaryNumber, State.cell, (h _).sp, hvalue]
  cases A.unary o (a.stack a.sp).value with
  | none => exact tracks_undefined
  | some v => exact Shadows.ok fun s => reduced_alike (h s) (by omega)

theorem tracks_reduceNumbers (h : ∀ s, Alike s a (ys s)) (o : ExprOp)
    (hop : (a.stack a.sp).op = .value)
    (hs : tracked.isString (a.stack a.sp).svalue ≠ .ok true)
    (hopl : (a.stack (a.sp - 2)).op = .value)
    (hsl : tracked.isString (a.stack (a.sp - 2)).svalue ≠ .ok true) :
    Tracks AlikeValue (reduceNumbers A tracked a o)
      fun s => reduceNumbers A pointers (ys s) o := by
  have hright : ∀ s, ((ys s).stack a.sp).value = (a.stack a.sp).value :=
    fun s => value_eq (h s) (Nat.le_refl _) hop hs
  have hleft : ∀ s, ((ys s).stack (a.sp - 2)).value = (a.stack (a.sp - 2)).value :=
    fun s => value_eq (h s) (by omega) hopl hsl
  simp only [reduceNumbers, State.cell, (h _).sp, hright, hleft]
  refine Shadows.ite (fun _ => tracks_fail (by simp [unset])) fun _ => ?_
  refine Shadows.ite (fun _ => tracks_fail (by simp [unset])) fun _ => ?_
  cases A.binary o (a.stack (a.sp - 2)).value (a.stack a.sp).value with
  | none => exact tracks_undefined
  | some v => exact Shadows.ok fun s => reduced_alike (h s) (by omega)

theorem equal_error {p q : Option StringRef} {fault : Fault}
    (h : pointers.equal p q = .error fault) : fault = .undefined := by
  rcases p with _ | _ | _ <;> rcases q with _ | _ | _ <;> simp_all [pointers]

theorem tracks_reduceStrings (h : ∀ s, Alike s a (ys s)) (o : ExprOp)
    {p q : Option StringRef} (hp : (a.stack a.sp).svalue = some p)
    (hq : (a.stack (a.sp - 2)).svalue = some q) :
    Tracks AlikeValue (reduceStrings A tracked a o)
      fun s => reduceStrings A pointers (ys s) o := by
  have hright : ∀ s, ((ys s).stack a.sp).svalue = p := fun s => by rw [(h s).svalue, hp]; rfl
  have hleft : ∀ s, ((ys s).stack (a.sp - 2)).svalue = q := fun s => by
    rw [(h s).svalue, hq]
    rfl
  simp only [reduceStrings, State.cell, (h _).sp, hright, hleft, hp, hq]
  refine Shadows.ite (fun _ => ?_) fun _ => tracks_fail (by simp [unset])
  have hequal : tracked.equal (some q) (some p) = pointers.equal q p := rfl
  rw [hequal]
  cases heq : pointers.equal q p with
  | error fault =>
      obtain rfl := equal_error heq
      exact tracks_undefined
  | ok same =>
      have hdeleted : ∀ s, Alike s
          (a.modify a.sp fun c => { c with svalue := tracked.deleted c.svalue })
          ((ys s).modify a.sp fun c => { c with svalue := pointers.deleted c.svalue }) := by
        intro s
        have hcell := (h s).cell a.sp (Nat.le_refl _)
        refine (h s).setTop ?_ ⟨hcell.op, hcell.token, fun hv => ?_⟩
          ((h s).left _ (Nat.le_refl _))
        · rw [hright, hp]
          rfl
        · refine (hcell.value hv).imp_right fun hun => ⟨hun.1, Or.inr ?_⟩
          rw [hp]
          rfl
      have hsp : ∀ s, ((ys s).modify a.sp fun c =>
          { c with svalue := pointers.deleted c.svalue }).sp = a.sp := fun s => (h s).sp
      simp only [State.lift, bind, Except.bind, hsp]
      exact Shadows.ok fun s => reduced_alike (hdeleted s) (Nat.sub_le _ _)

/-- What a stop for the field of cell `k` takes. -/
theorem tracks_unset {β γ : Type} {R : PStack α → β → γ → Prop} {stack : Stack α Tracked}
    {runs : PStack α → PRun α γ} {k : Nat} (hk : k < stackSize)
    (hdiff : ∀ s s' : PStack α, (∀ i, i ≠ k → (s i).svalue = (s' i).svalue) →
      (s k).svalue.isSome ≠ (s' k).svalue.isSome →
      Rejected (errorOf (runs s)) ∨ Rejected (errorOf (runs s'))) :
    Tracks R (.error (unset, stack)) runs := by
  rw [Tracks, Shadows, Ends, if_pos rfl]
  exact ⟨k, hk, hdiff⟩

section

variable {s : PStack α} {c : PState α}

theorem Alike.top_op (h : Alike s a c) : (c.stack c.sp).op = (a.stack a.sp).op := by
  rw [h.sp, (h.cell _ (Nat.le_refl _)).op]

theorem Alike.below_token (h : Alike s a c) (hop : (a.stack (a.sp - 1)).op = .op) :
    (c.stack (c.sp - 1)).token = (a.stack (a.sp - 1)).token := by
  rw [h.sp, (h.cell _ (Nat.sub_le _ _)).token hop]

theorem Alike.right (h : Alike s a c) :
    (c.stack c.sp).svalue = (a.stack a.sp).svalue.getD (s a.sp).svalue := by
  rw [h.sp, h.svalue]

theorem Alike.left_svalue (h : Alike s a c) :
    (c.stack (c.sp - 2)).svalue =
      (a.stack (a.sp - 2)).svalue.getD (s (a.sp - 2)).svalue := by
  rw [h.sp, h.svalue]

end

/-- There is an array to begin with, so what holds of the tracking machine for
each of them holds. -/
def someArray (st : State α Tracked) : PStack α := fun _ => ⟨.top, (st.stack 0).value, .plus, none⟩

theorem reduceOp_unsetRight (hval : (a.stack a.sp).op = .value)
    (hright : (a.stack a.sp).svalue = none) :
    reduceOp A tracked a = .error (unset, a.stack) := by
  simp only [reduceOp, State.cell, hval, hright, tracked, State.lift]
  rfl

theorem tracks_reduceOp_unary (h : ∀ s, Alike s a (ys s))
    (hop : (a.stack (a.sp - 1)).op = .op) (hval : (a.stack a.sp).op = .value)
    (hun : isUnaryOp (a.stack (a.sp - 1)).token = true) :
    Tracks AlikeValue (reduceOp A tracked a) fun s => reduceOp A pointers (ys s) := by
  have hvals : ∀ s, ((ys s).stack (ys s).sp).op = .value := fun s => by rw [(h s).top_op, hval]
  have huns : ∀ s, isUnaryOp ((ys s).stack ((ys s).sp - 1)).token = true :=
    fun s => by rw [(h s).below_token hop, hun]
  cases hright : (a.stack a.sp).svalue with
  | none =>
      rw [reduceOp_unsetRight hval hright]
      refine tracks_unset (h (someArray a)).room fun s s' _ hdiff => ?_
      have hstr : ∀ s : PStack α, (s a.sp).svalue.isSome = true →
          Rejected (errorOf (reduceOp A pointers (ys s))) := fun s hs =>
        reduceOp_string (hvals s) (huns s) (by rw [(h s).right, hright]; exact hs)
      cases hs : (s a.sp).svalue.isSome with
      | true => exact Or.inl (hstr s hs)
      | false =>
          rw [hs] at hdiff
          exact Or.inr (hstr s' (Bool.eq_true_of_not_eq_false hdiff.symm))
  | some p =>
      have hruns : ∀ s, reduceOp A pointers (ys s) =
          if p.isSome then
            (ys s).fail "Syntax error: attempt to apply unary operator to string"
          else reduceUnaryNumber A pointers (ys s) (a.stack (a.sp - 1)).token := fun s => by
        rw [← (h s).below_token hop]
        refine reduceOp_unary (hvals s) (huns s) ?_
        rw [(h s).right, hright]
        rfl
      have hstr : tracked.isString (a.stack a.sp).svalue = .ok p.isSome := by
        rw [hright]
        rfl
      rw [reduceOp_unary hval hun hstr, funext hruns]
      refine Shadows.ite (fun _ => tracks_fail (by simp [unset])) fun hp => ?_
      exact tracks_reduceUnaryNumber h _ hval (by simpa [hstr] using hp)

theorem tracks_reduceOp_binary (h : ∀ s, Alike s a (ys s))
    (hop : (a.stack (a.sp - 1)).op = .op) (hval : (a.stack a.sp).op = .value)
    (hbin : isUnaryOp (a.stack (a.sp - 1)).token = false) :
    Tracks AlikeValue (reduceOp A tracked a) fun s => reduceOp A pointers (ys s) := by
  have hvals : ∀ s, ((ys s).stack (ys s).sp).op = .value := fun s => by rw [(h s).top_op, hval]
  have hbins : ∀ s, isUnaryOp ((ys s).stack ((ys s).sp - 1)).token = false :=
    fun s => by rw [(h s).below_token hop, hbin]
  obtain ⟨hsp, hvall⟩ := (h (someArray a)).left (a.sp - 1) (Nat.sub_le _ _) hop hbin
  have hsub : a.sp - 1 - 1 = a.sp - 2 := by omega
  rw [hsub] at hvall
  have hroom := (h (someArray a)).room
  cases hright : (a.stack a.sp).svalue with
  | none =>
      rw [reduceOp_unsetRight hval hright]
      refine tracks_unset hroom fun s s' hsame hdiff => ?_
      have hleft : ((ys s').stack ((ys s').sp - 2)).svalue =
          ((ys s).stack ((ys s).sp - 2)).svalue := by
        rw [(h s).left_svalue, (h s').left_svalue, hsame (a.sp - 2) (by omega)]
      by_cases hmix : ((ys s).stack ((ys s).sp - 2)).svalue.isSome = (s a.sp).svalue.isSome
      · refine Or.inr (reduceOp_mixed (hvals s') (hbins s') ?_)
        rw [hleft, (h s').right, hright, hmix]
        exact hdiff
      · refine Or.inl (reduceOp_mixed (hvals s) (hbins s) ?_)
        rw [(h s).right, hright]
        exact hmix
  | some p =>
      have hstr : tracked.isString (a.stack a.sp).svalue = .ok p.isSome := by
        rw [hright]
        rfl
      have hrights : ∀ s, ((ys s).stack (ys s).sp).svalue = p := fun s => by
        rw [(h s).right, hright]
        rfl
      cases hleft : (a.stack (a.sp - 2)).svalue with
      | none =>
          have hrun : reduceOp A tracked a = .error (unset, a.stack) := by
            simp only [reduceOp, State.cell, hval, hstr, hbin, hleft, State.lift]
            rw [if_neg (by simp)]
            simp only [bind, Except.bind, Bool.false_eq_true, if_false]
            rw [if_neg (by omega)]
            rfl
          rw [hrun]
          refine tracks_unset (k := a.sp - 2) (by omega) fun s s' _ hdiff => ?_
          by_cases hmix : (s (a.sp - 2)).svalue.isSome = p.isSome
          · refine Or.inr (reduceOp_mixed (hvals s') (hbins s') ?_)
            rw [hrights, (h s').left_svalue, hleft, ← hmix]
            exact hdiff.symm
          · refine Or.inl (reduceOp_mixed (hvals s) (hbins s) ?_)
            rw [hrights, (h s).left_svalue, hleft]
            exact hmix
      | some q =>
          have hstrl : tracked.isString (a.stack (a.sp - 2)).svalue = .ok q.isSome := by
            rw [hleft]
            rfl
          have hruns : ∀ s, reduceOp A pointers (ys s) =
              if a.sp = 1 then (ys s).fail "Missing left-hand side for binary operator"
              else if q.isSome ≠ p.isSome then
                (ys s).fail "Can't mix strings and integers in expression"
              else if p.isSome then
                reduceStrings A pointers (ys s) (a.stack (a.sp - 1)).token
              else reduceNumbers A pointers (ys s) (a.stack (a.sp - 1)).token := fun s => by
            rw [← (h s).below_token hop, ← (h s).sp]
            refine reduceOp_binary (hvals s) (hbins s) ?_ ?_
            · rw [hrights]
              rfl
            · rw [(h s).left_svalue, hleft]
              rfl
          rw [reduceOp_binary hval hbin hstr hstrl, funext hruns]
          refine Shadows.ite (fun _ => tracks_fail (by simp [unset])) fun _ => ?_
          refine Shadows.ite (fun _ => tracks_fail (by simp [unset])) fun hsame => ?_
          refine Shadows.ite (fun _ => tracks_reduceStrings h _ hright hleft) fun hp => ?_
          have hq : q.isSome ≠ true := fun hq => hp (by rw [← not_not.1 hsame, hq])
          exact tracks_reduceNumbers h _ hval (by simpa [hstr] using hp) hvall
            (by simpa [hstrl] using hq)

theorem tracks_reduceOp (h : ∀ s, Alike s a (ys s))
    (hop : (a.stack (a.sp - 1)).op = .op) :
    Tracks AlikeValue (reduceOp A tracked a) fun s => reduceOp A pointers (ys s) := by
  by_cases hval : (a.stack a.sp).op = .value
  · cases hun : isUnaryOp (a.stack (a.sp - 1)).token with
    | true => exact tracks_reduceOp_unary h hop hval hun
    | false => exact tracks_reduceOp_binary h hop hval hun
  · have hrun : reduceOp A tracked a = a.fail "Right-hand side is not value" := if_pos hval
    have hruns : ∀ s, reduceOp A pointers (ys s) =
        (ys s).fail "Right-hand side is not value" :=
      fun s => if_pos (by rw [← (h s).top_op] at hval; exact hval)
    rw [hrun, funext hruns]
    exact tracks_fail (by simp [unset])

theorem tracks_reduceAll (fuel : Nat) : ∀ {a : State α Tracked} {ys : PStack α → PState α},
    (∀ s, AlikeValue s a (ys s)) →
    Tracks AlikeValue (reduceAll A tracked fuel a)
      fun s => reduceAll A pointers fuel (ys s) := by
  induction fuel with
  | zero => exact fun h => Shadows.ok h
  | succ fuel ih =>
      intro a ys h
      simp only [reduceAll, State.cell, (h _).sp, ((h _).cell _ (Nat.sub_le _ 1)).op]
      refine Shadows.ite (fun hop => ?_) fun _ => Shadows.ok h
      exact (tracks_reduceOp (fun s => (h s).toAlike) hop.2).bind persistent_ends
        fun x zs hz => ih hz

theorem pushUnary_eq {σ : Type} {S : StringField σ} {st : State α σ} {u : ExprOp} :
    pushUnary S st u =
      let st := st.modify st.sp fun c => { c with op := .op, token := u }
      if st.sp + 1 < stackSize then
        .ok { st.modify (st.sp + 1) fun c => { c with op := .top, svalue := S.null } with
          sp := st.sp + 1 }
      else st.undefined := by
  simp only [pushUnary, State.push]
  split <;> rfl

theorem tracks_pushUnary (h : ∀ s, Alike s a (ys s)) {u : ExprOp} (hu : isUnaryOp u = true) :
    Tracks Alike (pushUnary tracked a u) fun s => pushUnary pointers (ys s) u := by
  simp only [pushUnary_eq, State.modify_sp, (h _).sp]
  refine Shadows.ite (fun hroom => Shadows.ok fun s => ?_) fun _ => tracks_undefined
  have htop : Alike s (a.modify a.sp fun c => { c with op := .op, token := u })
      ((ys s).modify a.sp fun c => { c with op := .op, token := u }) := by
    refine (h s).setTop ((h s).svalue _) ⟨rfl, fun _ => rfl, nofun⟩ fun _ hbin => ?_
    rw [hu] at hbin
    cases hbin
  refine htop.set (Nat.le_refl _) hroom rfl ⟨rfl, nofun, fun _ => Or.inr ⟨?_, Or.inl rfl⟩⟩ nofun
  refine ⟨Nat.succ_pos _, ?_, ?_⟩ <;> simp [hu]

theorem tracks_readNumber (h : ∀ s, Alike s a (ys s)) (kind : NumberKind) (text : List Char) :
    Tracks Alike (readNumber A tracked a kind text)
      fun s => readNumber A pointers (ys s) kind text := by
  have hread : Tracks Alike
      (.ok (a.modify a.sp fun c =>
        { c with value := A.ofLong (strtol text), svalue := tracked.null, op := .value }))
      fun s => .ok ((ys s).modify (ys s).sp fun c =>
        { c with value := A.ofLong (strtol text), svalue := pointers.null, op := .value }) := by
    simp only [(h _).sp]
    exact Shadows.ok fun s => (h s).setTop rfl ⟨rfl, nofun, fun _ => Or.inl rfl⟩ nofun
  cases kind with
  | int | uint | long | ulong => exact hread
  | float | double => exact tracks_fail (by simp [unset])
  | longLong | ulongLong => exact tracks_fail (by simp [unset])

theorem openParen_eq {σ : Type} {S : StringField σ} {st : State α σ} :
    readOperand A S st .lparen =
      let st := st.modify st.sp fun c => { c with op := .group }
      if st.sp + 1 < stackSize then
        .ok { st.modify (st.sp + 1) fun c =>
          { c with op := .top, value := A.ofLong 0, svalue := S.null } with sp := st.sp + 1 }
      else st.undefined := by
  simp only [readOperand, State.push]
  split <;> rfl

theorem tracks_readOperand (h : ∀ s, Alike s a (ys s)) (hop : (a.stack a.sp).op = .top)
    (token : Token) :
    Tracks Alike (readOperand A tracked a token)
      fun s => readOperand A pointers (ys s) token := by
  have hfail : Tracks Alike (a.fail "Syntax error") fun s => (ys s).fail "Syntax error" :=
    tracks_fail (by simp [unset])
  cases token with
  | number kind text => exact tracks_readNumber h kind text
  | string text =>
      simp only [readOperand, (h _).sp]
      refine Shadows.ok fun s => (h s).setTop rfl ⟨rfl, nofun, fun _ => ?_⟩ nofun
      refine (((h s).cell _ (Nat.le_refl _)).value (Or.inl hop)).imp_right fun hun => ?_
      exact ⟨hun.1, Or.inr rfl⟩
  | id =>
      simp only [readOperand, (h _).sp]
      exact Shadows.ok fun s => (h s).setTop rfl ⟨rfl, nofun, fun _ => Or.inl rfl⟩ nofun
  | lparen =>
      simp only [openParen_eq, State.modify_sp, (h _).sp]
      refine Shadows.ite (fun hroom => Shadows.ok fun s => ?_) fun _ => tracks_undefined
      have htop : Alike s (a.modify a.sp fun c => { c with op := .group })
          ((ys s).modify a.sp fun c => { c with op := .group }) :=
        (h s).setTop ((h s).svalue _) ⟨rfl, nofun, nofun⟩ nofun
      exact htop.set (Nat.le_refl _) hroom rfl ⟨rfl, nofun, fun _ => Or.inl rfl⟩ nofun
  | op o =>
      cases o with
      | plus => exact Shadows.ok h
      | minus => exact tracks_pushUnary h rfl
      | lnot => exact tracks_pushUnary h rfl
      | not => exact tracks_pushUnary h rfl
      | _ => exact hfail
  | _ => exact hfail

theorem pushBinary_eq {σ : Type} {st : State α σ} {o : ExprOp} :
    pushBinary A st o =
      if st.sp + 1 < stackSize then
        let st : State α σ :=
          { st.modify (st.sp + 1) fun c => { c with op := .op, token := o } with sp := st.sp + 1 }
        if st.sp + 1 < stackSize then
          .ok { st.modify (st.sp + 1) fun c => { c with op := .top, value := A.ofLong 0 } with
            sp := st.sp + 1 }
        else st.undefined
      else st.undefined := by
  by_cases h : st.sp + 1 < stackSize
  · by_cases h' : st.sp + 1 + 1 < stackSize
    · simp [pushBinary, State.push, h, h', bind, Except.bind]
      rfl
    · simp [pushBinary, State.push, h, h', bind, Except.bind]
      rfl
  · simp [pushBinary, State.push, h, bind, Except.bind]
    rfl

theorem tracks_pushBinary (h : ∀ s, AlikeValue s a (ys s)) (o : ExprOp) :
    Tracks Alike (pushBinary A a o) fun s => pushBinary A (ys s) o := by
  simp only [pushBinary_eq, (h _).sp]
  refine Shadows.ite (fun hroom => ?_) fun _ => tracks_undefined
  have hop : ∀ s, Alike s
      { a.modify (a.sp + 1) fun c => { c with op := .op, token := o } with sp := a.sp + 1 }
      { (ys s).modify (a.sp + 1) fun c => { c with op := .op, token := o } with
        sp := a.sp + 1 } := fun s =>
    (h s).set (Nat.le_refl _) hroom ((h s).svalue _) ⟨rfl, fun _ => rfl, nofun⟩
      fun _ _ => ⟨Nat.succ_pos _, (h s).top⟩
  refine Shadows.ite (fun hroom' => Shadows.ok fun s => ?_) fun _ => tracks_undefined
  exact (hop s).set (Nat.le_refl _) hroom' ((hop s).svalue _)
    ⟨rfl, nofun, fun _ => Or.inl rfl⟩ nofun

theorem tracks_rparen (h : ∀ s, AlikeValue s a (ys s)) :
    Tracks Alike (readOperator A tracked a .rparen)
      fun s => readOperator A pointers (ys s) .rparen := by
  simp only [readOperator, (h _).sp]
  refine Shadows.ite (fun _ => tracks_fail (by simp [unset])) fun _ => ?_
  refine (tracks_reduceAll a.sp h).bind persistent_ends fun x zs hz => ?_
  simp only [State.cell, (hz _).sp, ((hz _).cell _ (Nat.sub_le _ 1)).op]
  refine Shadows.ite (fun _ => tracks_fail (by simp [unset])) fun hgroup => ?_
  obtain ⟨hpos, hop⟩ := not_or.1 hgroup
  have hop := not_not.1 hop
  have hvalue : ∀ s, ((zs s).stack x.sp).value = (x.stack x.sp).value := by
    intro s
    rcases ((hz s).cell _ (Nat.le_refl _)).value (Or.inr (hz s).top) with hv | ⟨hun, _⟩
    · exact hv
    · have := hun.2.1
      rw [hop] at this
      cases this
  simp only [hvalue]
  refine Shadows.ok fun s => ?_
  have hroom := (hz s).room
  exact (hz s).set (by omega) (by omega) ((hz s).svalue _) ⟨rfl, nofun, fun _ => Or.inl rfl⟩
    nofun

theorem tracks_readOperator (h : ∀ s, AlikeValue s a (ys s)) (token : Token) :
    Tracks Alike (readOperator A tracked a token)
      fun s => readOperator A pointers (ys s) token := by
  have hfail : Tracks Alike (a.fail "Syntax error: expected operator")
      fun s => (ys s).fail "Syntax error: expected operator" := tracks_fail (by simp [unset])
  cases token with
  | op o =>
      simp only [readOperator, State.cell, (h _).sp, ((h _).cell _ (Nat.sub_le _ 1)).op]
      refine Shadows.ite (fun _ => hfail) fun _ => ?_
      refine Shadows.ite (fun _ => tracks_pushBinary h o) fun _ => ?_
      refine Shadows.ite (fun _ => hfail) fun hop => ?_
      have hop := not_not.1 hop
      simp only [((h _).cell _ (Nat.sub_le _ 1)).token hop]
      refine Shadows.ite (fun _ => ?_) fun _ => tracks_pushBinary h o
      exact (tracks_reduceOp (fun s => (h s).toAlike) hop).bind persistent_ends
        fun x zs hz => tracks_pushBinary hz o
  | rparen => exact tracks_rparen h
  | _ => exact hfail

theorem tracks_exprStep (h : ∀ s, Alike s a (ys s)) (token : Token) :
    Tracks Alike (exprStep A tracked a token)
      fun s => exprStep A pointers (ys s) token := by
  simp only [exprStep, State.cell, (h _).sp, ((h _).cell _ (Nat.le_refl _)).op]
  cases hop : (a.stack a.sp).op with
  | top => exact tracks_readOperand h hop token
  | value => exact tracks_readOperator (fun s => ⟨h s, hop⟩) token
  | op => exact tracks_undefined
  | group => exact tracks_undefined

/-- The values that are returned are equal. -/
def SameValue (_ : PStack α) (x : α × Stack α Tracked) (y : α × PStack α) : Prop := y.1 = x.1

theorem tracks_exprEnd (h : ∀ s, Alike s a (ys s)) :
    Tracks SameValue (exprEnd A tracked a) fun s => exprEnd A pointers (ys s) := by
  simp only [exprEnd, State.cell, (h _).sp, ((h _).cell _ (Nat.le_refl _)).op]
  cases hop : (a.stack a.sp).op with
  | top => exact tracks_fail (by simp [unset])
  | value =>
      refine (tracks_reduceAll a.sp fun s => ⟨h s, hop⟩).bind persistent_ends fun x zs hz => ?_
      simp only [(hz _).sp, ((hz _).cell _ (Nat.sub_le _ 1)).op]
      refine Shadows.ite (fun hzero => Shadows.ok fun s => ?_) fun _ => ?_
      · have htop := (hz s).top
        rw [hzero] at htop
        rcases ((hz s).cell 0 (Nat.zero_le _)).value (Or.inr htop) with hv | ⟨hun, _⟩
        · exact hv
        · exact absurd hun.1 (Nat.lt_irrefl 0)
      · exact Shadows.ite (fun _ => tracks_fail (by simp [unset]))
          fun _ => tracks_fail (by simp [unset])
  | op => exact tracks_undefined
  | group => exact tracks_undefined

theorem exprStart_alike (A : Arithmetic α) (s : PStack α) :
    Alike s (exprStart A fun _ => ⟨.top, A.ofLong 0, .plus, none⟩) (exprStart A s) := by
  refine ⟨rfl, fun i => ?_, fun i hi => ?_, fun i hi hop => ?_, Nat.zero_lt_succ _⟩
  · simp only [exprStart, State.modify_stack]
    by_cases hi : i = 0
    · rw [if_pos hi, if_pos hi, hi]
      rfl
    · rw [if_neg hi, if_neg hi]
      rfl
  · obtain rfl : i = 0 := Nat.le_zero.1 hi
    exact ⟨rfl, nofun, fun _ => Or.inl rfl⟩
  · obtain rfl : i = 0 := Nat.le_zero.1 hi
    cases hop

/-- The evaluation before its result and its array are taken apart. -/
def exprRun {σ : Type} (A : Arithmetic α) (S : StringField σ) (e : List Token)
    (s : Stack α σ) : Run α σ (α × Stack α σ) := do
  exprEnd A S (← (e.filter (!isSkipped ·)).foldlM (exprStep A S) (exprStart A s))

theorem preprocessorExpr_of_ok {σ : Type} {S : StringField σ} {e : List Token}
    {s : Stack α σ} {x : α × Stack α σ} (h : exprRun A S e s = .ok x) :
    preprocessorExpr A S e s = (.ok x.1, x.2) := by
  rw [exprRun] at h
  simp only [preprocessorExpr, h]

theorem preprocessorExpr_of_error {σ : Type} {S : StringField σ} {e : List Token}
    {s : Stack α σ} {err : Fault × Stack α σ} (h : exprRun A S e s = .error err) :
    preprocessorExpr A S e s = (.error err.1, err.2) := by
  rw [exprRun] at h
  simp only [preprocessorExpr, h]

theorem errorOf_eq_some {ε γ : Type} {run : Except ε γ} {err : ε}
    (h : errorOf run = some err) : run = .error err := by
  cases run with
  | ok x => cases h
  | error err' => rw [Option.some.inj h]

theorem tracks_exprRun (A : Arithmetic α) (e : List Token) :
    Tracks SameValue (exprRun A tracked e fun _ => ⟨.top, A.ofLong 0, .plus, none⟩)
      fun s => exprRun A pointers e s := by
  have hloop := Shadows.foldlM persistent_ends
    (fun token a ys h => tracks_exprStep (A := A) h token) (e.filter (!isSkipped ·))
    _ (fun s => exprStart A s) (exprStart_alike A)
  exact hloop.bind persistent_ends fun x zs hz => tracks_exprEnd hz

/-- Without a look at an unset field the array makes no difference. -/
theorem preprocessorExpr_of_set (A : Arithmetic α) (e : List Token)
    (h : (trackedExpr A e).1 ≠ .error unset) (s : PStack α) :
    (preprocessorExpr A pointers e s).1 = (trackedExpr A e).1 := by
  have htracks := tracks_exprRun A e
  rw [trackedExpr] at h ⊢
  cases hrun : exprRun A tracked e fun _ => ⟨.top, A.ofLong 0, .plus, none⟩ with
  | ok x =>
      rw [hrun] at htracks
      obtain ⟨y, hy, hsame⟩ := htracks s
      rw [preprocessorExpr_of_ok hy, preprocessorExpr_of_ok hrun]
      exact congrArg Except.ok hsame
  | error err =>
      have herr : err.1 ≠ unset := fun heq => h (by
        rw [preprocessorExpr_of_error hrun, heq])
      rw [hrun, Tracks, Shadows, Ends, if_neg herr] at htracks
      obtain ⟨stack, hstack⟩ := htracks s
      rw [preprocessorExpr_of_error hrun, preprocessorExpr_of_error (errorOf_eq_some hstack)]

/-- At the first unset field it looks at, an evaluation can be given an error. -/
theorem preprocessorExpr_of_unset (A : Arithmetic α) (e : List Token)
    (h : (trackedExpr A e).1 = .error unset) :
    ∃ k < stackSize, ∀ s s' : PStack α, (∀ i, i ≠ k → (s i).svalue = (s' i).svalue) →
      (s k).svalue.isSome ≠ (s' k).svalue.isSome →
      (∃ errmsg, (preprocessorExpr A pointers e s).1 = .error (.message errmsg)) ∨
      ∃ errmsg, (preprocessorExpr A pointers e s').1 = .error (.message errmsg) := by
  have htracks := tracks_exprRun A e
  rw [trackedExpr] at h
  cases hrun : exprRun A tracked e fun _ => ⟨.top, A.ofLong 0, .plus, none⟩ with
  | ok x =>
      rw [preprocessorExpr_of_ok hrun] at h
      cases h
  | error err =>
      rw [preprocessorExpr_of_error hrun] at h
      have herr : err.1 = unset := Except.error.inj h
      rw [hrun, Tracks, Shadows, Ends, if_pos herr] at htracks
      obtain ⟨k, hk, hdiff⟩ := htracks
      have hreject : ∀ s : PStack α, Rejected (errorOf (exprRun A pointers e s)) →
          ∃ errmsg, (preprocessorExpr A pointers e s).1 = .error (.message errmsg) :=
        fun s ⟨errmsg, stack, heq⟩ =>
          ⟨errmsg, by rw [preprocessorExpr_of_error (errorOf_eq_some heq)]⟩
      exact ⟨k, hk, fun s s' hsame hne =>
        (hdiff s s' hsame hne).imp (hreject s) (hreject s')⟩

/-! ## A string in any cell -/

/-- An expression that leaves a string in cell `k`. -/
def leaveString (k : Nat) : List Token := List.replicate k .lparen ++ [.string ['a']]

/-- `k` parentheses have been opened on an array without strings. -/
structure Opened (k : Nat) (st : PState α) : Prop where
  sp : st.sp = k
  top : (st.stack k).op = .top
  below : k = 0 ∨ (st.stack (k - 1)).op = .group
  null : ∀ i, (st.stack i).svalue = none

theorem opened_replicate (k : Nat) : ∀ {j : Nat} {st : PState α}, Opened j st →
    j + k < stackSize →
    ∃ st', (List.replicate k Token.lparen).foldlM (exprStep A pointers) st = .ok st' ∧
      Opened (j + k) st' := by
  induction k with
  | zero => exact fun h _ => ⟨_, rfl, h⟩
  | succ k ih =>
      intro j st h hroom
      have hstep : exprStep A pointers st .lparen = readOperand A pointers st .lparen := by
        simp only [exprStep, State.cell, h.sp, h.top]
      have hone : j + 1 < stackSize := by omega
      rw [List.replicate_succ, List.foldlM_cons, hstep, openParen_eq]
      simp only [State.modify_sp, h.sp, if_pos hone]
      have hopened : Opened (j + 1) ({ (st.modify j fun c => { c with op := .group }).modify
          (j + 1) fun c => { c with op := .top, value := A.ofLong 0, svalue := pointers.null }
          with sp := j + 1 } : PState α) := by
        refine ⟨rfl, by simp, Or.inr (by simp), fun i => ?_⟩
        simp only [State.modify_stack]
        split
        · rfl
        · split
          · exact h.null j
          · exact h.null i
      have hsum : j + (k + 1) = j + 1 + k := by omega
      rw [hsum]
      exact ih hopened (by omega)

def stringAt (st : PState α) (k : Nat) : PState α :=
  st.modify k fun c => { c with svalue := pointers.new ['a'], op := .value }

theorem reduceAll_stop {σ : Type} {S : StringField σ} {st : State α σ} (fuel : Nat)
    (h : st.sp = 0 ∨ (st.stack (st.sp - 1)).op ≠ .op) : reduceAll A S fuel st = .ok st := by
  cases fuel with
  | zero => rfl
  | succ fuel =>
      refine if_neg fun ⟨hpos, hop⟩ => ?_
      rcases h with h | h
      · omega
      · exact h hop

/-- The string is read, and the evaluation ends there or at the parentheses. -/
theorem string_leaves {k : Nat} {st : PState α} {s : PStack α} {e : List Token}
    (h : Opened k st)
    (hrun : (e.filter (!isSkipped ·)).foldlM (exprStep A pointers) (exprStart A s) =
      .ok (stringAt st k)) :
    (preprocessorExpr A pointers e s).2 = (stringAt st k).stack := by
  have hsp : (stringAt st k).sp = k := h.sp
  have htop : ((stringAt st k).stack k).op = .value := by simp [stringAt]
  have hexpr : exprRun A pointers e s = exprEnd A pointers (stringAt st k) := by
    rw [exprRun, hrun]
    rfl
  by_cases hk : k = 0
  · have hstop : reduceAll A pointers k (stringAt st k) = .ok (stringAt st k) :=
      reduceAll_stop k (Or.inl (hsp.trans hk))
    have hend : exprRun A pointers e s =
        .ok (((stringAt st k).stack 0).value, (stringAt st k).stack) := by
      rw [hexpr, exprEnd]
      simp only [State.cell, hsp, htop, bind, Except.bind,
        hstop, if_pos hk]
      rfl
    rw [preprocessorExpr_of_ok hend]
  · have hne : k - 1 ≠ k := by omega
    have hgroup : ((stringAt st k).stack (k - 1)).op = .group := by
      rw [stringAt, State.modify_stack, if_neg hne]
      exact h.below.resolve_left hk
    have hstop : reduceAll A pointers k (stringAt st k) = .ok (stringAt st k) :=
      reduceAll_stop k (Or.inr (by rw [hsp, hgroup]; exact nofun))
    have hend : exprRun A pointers e s =
        .error (.message "Missing ')'", (stringAt st k).stack) := by
      rw [hexpr, exprEnd]
      simp only [State.cell, hsp, htop, bind, Except.bind, hstop, if_neg hk, hgroup, if_true]
      rfl
    rw [preprocessorExpr_of_error hend]

theorem svalue_leaveString {k : Nat} (hk : k < stackSize) (i : Nat) :
    ((arrayAfter [leaveString k]) i).svalue = if i = k then some (.live ['a']) else none := by
  have hstart : Opened 0 (exprStart longArithmetic programStart) := by
    refine ⟨rfl, rfl, Or.inl rfl, fun i => ?_⟩
    simp only [exprStart, State.modify_stack]
    split <;> rfl
  obtain ⟨st, hrun, hopened⟩ := opened_replicate k hstart (by omega)
  rw [Nat.zero_add] at hopened
  have hall : (leaveString k).filter (!isSkipped ·) = leaveString k := by
    simp [leaveString, isSkipped]
  have hread : exprStep longArithmetic pointers st (.string ['a']) =
      .ok (stringAt st k) := by
    simp only [exprStep, stringAt, State.cell, hopened.sp, hopened.top, readOperand]
  have hleaves : (preprocessorExpr longArithmetic pointers (leaveString k) programStart).2 =
      (stringAt st k).stack := string_leaves hopened (by
    rw [hall, leaveString, List.foldlM_append, hrun]
    simp only [bind, Except.bind, List.foldlM_cons, List.foldlM_nil, hread]
    rfl)
  show ((preprocessorExpr longArithmetic pointers (leaveString k) programStart).2 i).svalue = _
  rw [hleaves, stringAt, State.modify_stack]
  split
  · rfl
  · exact hopened.null i

/-- That an evaluation reads no field that it has not set is enough. -/
theorem preprocessorExpr_history_of_set {e : List Token} (h : ¬ ReadsUnset e)
    (history : List (List Token)) :
    answer (preprocessorExpr longArithmetic pointers e (arrayAfter history)).1 =
      answer (preprocessorExpr longArithmetic pointers e programStart).1 := by
  rw [preprocessorExpr_of_set _ _ h, preprocessorExpr_of_set _ _ h]

/-- An evaluation that reads a field that it has not set is rejected at the start or behind a
string in the cell of that field. -/
theorem preprocessorExpr_rejected_of_unset {e : List Token} (h : ReadsUnset e) :
    ∃ history, answer (preprocessorExpr longArithmetic pointers e (arrayAfter history)).1 =
      some (0, true) := by
  obtain ⟨k, hk, hdiff⟩ := preprocessorExpr_of_unset longArithmetic e h
  have hsame : ∀ i, i ≠ k →
      (programStart i).svalue = (arrayAfter [leaveString k] i).svalue := fun i hi => by
    rw [svalue_leaveString hk, if_neg hi]
    rfl
  have hne : (programStart k).svalue.isSome ≠
      (arrayAfter [leaveString k] k).svalue.isSome := by
    rw [svalue_leaveString hk, if_pos rfl]
    exact nofun
  rcases hdiff _ _ hsame hne with ⟨errmsg, herr⟩ | ⟨errmsg, herr⟩
  · refine ⟨[], ?_⟩
    show answer (preprocessorExpr longArithmetic pointers e programStart).1 = some (0, true)
    rw [herr]
    rfl
  · refine ⟨[leaveString k], ?_⟩
    rw [herr]
    rfl

/-- For an expression that is not rejected at the start of the program it is needed too. -/
theorem not_readsUnset_of_history {e : List Token}
    (haccepted : answer (preprocessorExpr longArithmetic pointers e programStart).1 ≠
      some (0, true))
    (h : ∀ history, answer (preprocessorExpr longArithmetic pointers e (arrayAfter history)).1 =
      answer (preprocessorExpr longArithmetic pointers e programStart).1) : ¬ ReadsUnset e := by
  intro hunset
  obtain ⟨history, hrejected⟩ := preprocessorExpr_rejected_of_unset hunset
  exact haccepted ((h history).symm.trans hrejected)

/-- Evaluations have no effect on a later one exactly when it reads no field that
it has not set, or is rejected whatever there has been. -/
theorem preprocessorExpr_history_iff (e : List Token) :
    (∀ history, answer (preprocessorExpr longArithmetic pointers e (arrayAfter history)).1 =
        answer (preprocessorExpr longArithmetic pointers e programStart).1) ↔
      ¬ ReadsUnset e ∨
      ∀ history, answer (preprocessorExpr longArithmetic pointers e
        (arrayAfter history)).1 = some (0, true) := by
  constructor
  · intro h
    by_cases hunset : ReadsUnset e
    · by_contra hno
      refine hno (Or.inr fun history => (h history).trans ?_)
      by_contra haccepted
      exact not_readsUnset_of_history haccepted h hunset
    · exact Or.inl hunset
  · rintro (hset | hreject) history
    · exact preprocessorExpr_history_of_set hset history
    · rw [hreject history]
      exact (hreject []).symm

/-- After `"a"` the comparison `(1)==1` is an error, and `(1)` is 1. -/
theorem preprocessorExpr_keeps_string :
    answer (preprocessorExpr longArithmetic pointers
        [.lparen, .number .int ['1'], .rparen, .op .equalTo, .number .int ['1']]
        programStart).1 = some (1, false) ∧
    answer (preprocessorExpr longArithmetic pointers
        [.lparen, .number .int ['1'], .rparen, .op .equalTo, .number .int ['1']]
        (arrayAfter [[.string ['a']]])).1 = some (0, true) := by
  decide +kernel

end Swig4Ada.Preprocessor

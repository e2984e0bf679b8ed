import Swig4Ada.Lib.LevelReading

/-!
# Shifting with a single reduction

A shift/reduce evaluator keeps the pending operators of a parenthesis level in
frames. The one of this module compares a binary operator that arrives with the
frame on top, and reduces that frame when it does not bind looser: that frame
only, and not those below it. At the end of the level every frame is reduced.

A complete operator precedence parser would go on reducing. `Fits` says which
trees the single reduction is enough for: left operands are atoms, or were
reduced by the very operator whose left operand they are, and an operator that
is not reduced by the next one gets everything up to the end of the level as its
right operand. `reads_of_levelValue` gives the evaluator the form of
`OpTree.Reads`, where the trees that are built back are those that fit. `need`
counts the cells it takes on a stack.
-/

namespace Swig4Ada.Lib

namespace OpTree

variable {ω α β : Type}

/-- A pending operator, a binary one with its left operand. -/
inductive Frame (ω β : Type)
  | bin (l : β) (o : ω)
  | un (u : ω)
deriving DecidableEq, Repr

namespace Frame

/-- The operator of a frame. -/
def op : Frame ω β → ω
  | bin _ o => o
  | un u => u

/-- The value of a frame with its operand. -/
def apply (I : Interp ω β) : Frame ω β → β → Option β
  | bin l o, v => I.bin o l v
  | un u, v => I.un u v

end Frame

/-- A binary operator arrives: the top frame is reduced when it binds at least
as tight, and the operator is pushed. -/
def shift (I : Interp ω β) (prec : ω → Nat) (o : ω) :
    List (Frame ω β) → β → Option (List (Frame ω β))
  | [], v => some [.bin v o]
  | f :: fs, v =>
      if prec f.op ≤ prec o then do return .bin (← f.apply I v) o :: fs
      else some (.bin v o :: f :: fs)

/-- The end of a level: all frames are reduced. -/
def collapse (I : Interp ω β) : List (Frame ω β) → β → Option β
  | [], v => some v
  | f :: fs, v => do collapse I fs (← f.apply I v)

/-- Reads the row of a tree, with the values `g` of its operands. -/
def feed (I : Interp ω β) (prec : ω → Nat) (g : OpTree ω α → Option β) :
    OpTree ω α → List (Frame ω β) → Option (List (Frame ω β) × β)
  | leaf a, fs => do return (fs, ← g (leaf a))
  | paren t, fs => do return (fs, ← g (paren t))
  | un u t, fs => feed I prec g t (.un u :: fs)
  | bin o l r, fs => do
      let (fs', v) ← feed I prec g l fs
      feed I prec g r (← shift I prec o fs' v)

/-- The value of a level. -/
def levelValue (I : Interp ω β) (prec : ω → Nat) (g : OpTree ω α → Option β)
    (t : OpTree ω α) : Option β := do
  let (fs, v) ← feed I prec g t []
  collapse I fs v

/-! ## The trees that are built -/

/-- A leaf or a parenthesis. -/
def isAtom : OpTree ω α → Bool
  | leaf _ | paren _ => true
  | _ => false

/-- `l` can be the left operand of `o`, when `context` is the operator pending
below. -/
def FitsLeft (prec : ω → Nat) (context : Option ω) (o : ω) : OpTree ω α → Prop
  | leaf _ | paren _ => ∀ p, context = some p → prec o < prec p
  | un u t => isAtom t = true ∧ prec u ≤ prec o
  | bin p l r => isAtom r = true ∧ prec p ≤ prec o ∧ FitsLeft prec context p l

/-- The tree is built from its row, when `context` is the operator pending
below. -/
def Fits (prec : ω → Nat) (context : Option ω) : OpTree ω α → Prop
  | leaf _ | paren _ => True
  | un u t => Fits prec (some u) t
  | bin o l r => FitsLeft prec context o l ∧ Fits prec (some o) r

/-- The operator on top of the frames. -/
def context (fs : List (Frame ω β)) : Option ω := fs.head?.map Frame.op

/-- Every frame could be pushed on the ones below it. -/
def FramesFit (prec : ω → Nat) : List (Frame ω (OpTree ω α)) → Prop
  | [] => True
  | .un _ :: fs => FramesFit prec fs
  | .bin l o :: fs => FitsLeft prec (context fs) o l ∧ FramesFit prec fs

/-- The row that frames have been read from. -/
def frameItems : List (Frame ω (OpTree ω α)) → List (Item ω α)
  | [] => []
  | .un u :: fs => frameItems fs ++ [.op u]
  | .bin l o :: fs => frameItems fs ++ (items l ++ [.op o])

theorem fitsLeft_atom {prec : ω → Nat} {c : Option ω} {o : ω} {t : OpTree ω α}
    (h : isAtom t = true) : FitsLeft prec c o t ↔ ∀ p, c = some p → prec o < prec p := by
  cases t with
  | leaf a => rfl
  | paren t => rfl
  | un u t => cases h
  | bin o l r => cases h

theorem fits_atom {prec : ω → Nat} {c : Option ω} {t : OpTree ω α} (h : isAtom t = true) :
    Fits prec c t := by
  cases t with
  | leaf a => trivial
  | paren t => trivial
  | un u t => cases h
  | bin o l r => cases h

/-- What the arrival of an operator does to frames of trees. -/
theorem shift_free {prec : ω → Nat} {fs : List (Frame ω (OpTree ω α))} {a : OpTree ω α}
    (o : ω) (hfs : FramesFit prec fs) (ha : isAtom a = true) :
    ∃ fs', shift free prec o fs a = some fs' ∧ FramesFit prec fs' ∧
      frameItems fs' = frameItems fs ++ (items a ++ [.op o]) := by
  cases fs with
  | nil =>
      refine ⟨[.bin a o], rfl, ⟨?_, trivial⟩, rfl⟩
      exact (fitsLeft_atom ha).2 fun p hp => nomatch hp
  | cons f fs =>
      rw [shift]
      by_cases hp : prec f.op ≤ prec o
      · rw [if_pos hp]
        cases f with
        | un u =>
            refine ⟨_, rfl, ⟨⟨ha, hp⟩, hfs⟩, ?_⟩
            simp [frameItems, items]
        | bin l p =>
            refine ⟨_, rfl, ⟨⟨ha, hp, hfs.1⟩, hfs.2⟩, ?_⟩
            simp [frameItems, items]
      · rw [if_neg hp]
        refine ⟨_, rfl, ⟨?_, hfs⟩, rfl⟩
        refine (fitsLeft_atom ha).2 fun q hq => ?_
        obtain rfl : f.op = q := by simpa [context] using hq
        omega

theorem collapse_free {prec : ω → Nat} (fs : List (Frame ω (OpTree ω α))) :
    ∀ {v : OpTree ω α}, FramesFit prec fs → Fits prec (context fs) v →
      ∃ t, collapse free fs v = some t ∧ Fits prec none t ∧
        items t = frameItems fs ++ items v := by
  induction fs with
  | nil => exact fun _ hv => ⟨_, rfl, hv, rfl⟩
  | cons f fs ih =>
      intro v hfs hv
      cases f with
      | un u =>
          obtain ⟨t, ht, hfit, hrow⟩ := @ih (un u v) hfs hv
          exact ⟨t, ht, hfit, by rw [hrow]; simp [frameItems, items]⟩
      | bin l o =>
          obtain ⟨t, ht, hfit, hrow⟩ := @ih (bin o l v) hfs.2 ⟨hfs.1, hv⟩
          exact ⟨t, ht, hfit, by rw [hrow]; simp [frameItems, items]⟩

theorem feed_free {prec : ω → Nat} (t : OpTree ω α) :
    ∀ {fs : List (Frame ω (OpTree ω α))}, FramesFit prec fs →
      ∃ fs' a, feed free prec some t fs = some (fs', a) ∧ FramesFit prec fs' ∧
        isAtom a = true ∧ frameItems fs' ++ items a = frameItems fs ++ items t := by
  induction t with
  | leaf a => exact fun hfs => ⟨_, _, rfl, hfs, rfl, rfl⟩
  | paren t _ => exact fun hfs => ⟨_, _, rfl, hfs, rfl, rfl⟩
  | un u t ih =>
      intro fs hfs
      obtain ⟨fs', a, heq, hfs', ha, hrow⟩ := @ih (.un u :: fs) hfs
      exact ⟨fs', a, heq, hfs', ha, by rw [hrow]; simp [frameItems, items]⟩
  | bin o l r ihl ihr =>
      intro fs hfs
      obtain ⟨fs₁, a₁, heq₁, hfs₁, ha₁, hrow₁⟩ := ihl hfs
      obtain ⟨fs₂, hshift, hfs₂, hrow₂⟩ := shift_free o hfs₁ ha₁
      obtain ⟨fs₃, a₃, heq₃, hfs₃, ha₃, hrow₃⟩ := ihr hfs₂
      refine ⟨fs₃, a₃, ?_, hfs₃, ha₃, ?_⟩
      · rw [feed, heq₁]
        simp only [Option.bind_eq_bind, Option.bind_some, hshift]
        exact heq₃
      · rw [hrow₃, hrow₂, ← List.append_assoc, hrow₁]
        simp [items]

/-- The tree that is built from a row. -/
def Built (prec : ω → Nat) (t t' : OpTree ω α) : Prop :=
  levelValue free prec some t = some t'

theorem built_exists (prec : ω → Nat) (t : OpTree ω α) :
    ∃ t', Built prec t t' ∧ Fits prec none t' ∧ items t' = items t := by
  have hempty : FramesFit prec ([] : List (Frame ω (OpTree ω α))) := trivial
  obtain ⟨fs, a, heq, hfs, ha, hrow⟩ := feed_free t hempty
  obtain ⟨t', hcollapse, hfit, hrow'⟩ := collapse_free fs hfs (fits_atom ha)
  refine ⟨t', ?_, hfit, hrow'.trans hrow⟩
  rw [Built, levelValue, heq]
  exact hcollapse

/-! ## Trees that are built back -/

theorem collapse_append {I : Interp ω β} (fs gs : List (Frame ω β)) (v : β) :
    collapse I (fs ++ gs) v = (collapse I fs v).bind (collapse I gs) := by
  induction fs generalizing v with
  | nil => rfl
  | cons f fs ih =>
      rw [List.cons_append, collapse, collapse]
      cases f.apply I v with
      | none => rfl
      | some w => exact ih w

theorem feed_atom {I : Interp ω β} {prec : ω → Nat} {g : OpTree ω α → Option β}
    {t : OpTree ω α} (h : isAtom t = true) (fs : List (Frame ω β)) :
    feed I prec g t fs = do return (fs, ← g t) := by
  cases t with
  | leaf a => rfl
  | paren t => rfl
  | un u t => cases h
  | bin o l r => cases h

/-- A left operand that fits is complete when its operator has arrived. -/
theorem feed_fitsLeft {prec : ω → Nat} {fs : List (Frame ω (OpTree ω α))}
    (t : OpTree ω α) : ∀ {o : ω}, FitsLeft prec (context fs) o t →
      (do let (fs', v) ← feed free prec some t fs; shift free prec o fs' v) =
        some (.bin t o :: fs) := by
  have hatom : ∀ {t : OpTree ω α} {o : ω}, isAtom t = true →
      FitsLeft prec (context fs) o t → shift free prec o fs t = some (.bin t o :: fs) := by
    intro t o ht h
    have h := (fitsLeft_atom ht).1 h
    cases fs with
    | nil => rfl
    | cons f fs =>
        have hlt := h f.op rfl
        rw [shift, if_neg (by omega)]
  induction t with
  | leaf a => exact fun h => hatom (t := leaf a) rfl h
  | paren t _ => exact fun h => hatom (t := paren t) rfl h
  | un u t _ =>
      intro o h
      rw [feed, feed_atom h.1]
      simp only [Option.bind_eq_bind, Option.bind_some, Option.pure_def]
      rw [shift, if_pos (show prec (Frame.un u).op ≤ prec o from h.2)]
      rfl
  | bin p l r ihl _ =>
      intro o h
      obtain ⟨hr, hp, hl⟩ := h
      have hleft := ihl hl
      rw [feed]
      cases heq : feed free prec some l fs with
      | none => rw [heq] at hleft; exact absurd hleft (by simp)
      | some x =>
          obtain ⟨fs', v⟩ := x
          rw [heq] at hleft
          simp only [Option.bind_eq_bind, Option.bind_some] at hleft ⊢
          rw [hleft]
          simp only [Option.bind_some, feed_atom hr, Option.bind_eq_bind, Option.pure_def]
          rw [shift, if_pos (show prec (Frame.bin l p).op ≤ prec o from hp)]
          rfl

/-- A tree that fits is what its own frames collapse to. -/
theorem feed_fits {prec : ω → Nat} (t : OpTree ω α) :
    ∀ {fs : List (Frame ω (OpTree ω α))}, Fits prec (context fs) t →
      ∃ gs a, feed free prec some t fs = some (gs ++ fs, a) ∧
        collapse free gs a = some t := by
  induction t with
  | leaf a => exact fun _ => ⟨[], _, rfl, rfl⟩
  | paren t _ => exact fun _ => ⟨[], _, rfl, rfl⟩
  | un u t ih =>
      intro fs h
      obtain ⟨gs, a, heq, hcollapse⟩ := @ih (.un u :: fs) h
      refine ⟨gs ++ [.un u], a, ?_, ?_⟩
      · rw [feed, heq]
        simp
      · rw [collapse_append, hcollapse]
        rfl
  | bin o l r _ ihr =>
      intro fs h
      have hleft := feed_fitsLeft l h.1
      obtain ⟨gs, a, heq, hcollapse⟩ := @ihr (.bin l o :: fs) h.2
      refine ⟨gs ++ [.bin l o], a, ?_, ?_⟩
      · rw [feed]
        cases hl : feed free prec some l fs with
        | none => rw [hl] at hleft; exact absurd hleft (by simp)
        | some x =>
            obtain ⟨fs', v⟩ := x
            rw [hl] at hleft
            simp only [Option.bind_eq_bind, Option.bind_some] at hleft ⊢
            rw [hleft]
            simpa using heq
      · rw [collapse_append, hcollapse]
        rfl

/-- Exactly the trees that fit are built back. -/
theorem built_self_iff (prec : ω → Nat) (t : OpTree ω α) :
    Built prec t t ↔ Fits prec none t := by
  constructor
  · intro h
    obtain ⟨t', hbuilt, hfit, _⟩ := built_exists prec t
    rwa [← Option.some.inj (Eq.trans h.symm hbuilt)] at hfit
  · intro h
    obtain ⟨gs, a, heq, hcollapse⟩ := @feed_fits _ _ prec t [] h
    rw [Built, levelValue, heq]
    simpa using hcollapse

/-! ## From trees to values -/

/-- The value `h` of the operand in a frame. -/
def Frame.traverse (h : OpTree ω α → Option β) :
    Frame ω (OpTree ω α) → Option (Frame ω β)
  | .bin l o => do return .bin (← h l) o
  | .un u => some (.un u)

def traverseFrames (h : OpTree ω α → Option β) :
    List (Frame ω (OpTree ω α)) → Option (List (Frame ω β))
  | [] => some []
  | f :: fs => do return (← f.traverse h) :: (← traverseFrames h fs)

theorem traverseFrames_bin {h : OpTree ω α → Option β} (t : OpTree ω α) (o : ω)
    (fs : List (Frame ω (OpTree ω α))) :
    traverseFrames h (.bin t o :: fs) =
      (h t).bind fun v => (traverseFrames h fs).map fun vs => .bin v o :: vs := by
  rw [traverseFrames, Frame.traverse]
  cases h t <;> cases traverseFrames h fs <;> rfl

theorem Frame.traverse_op {h : OpTree ω α → Option β} {f : Frame ω (OpTree ω α)}
    {f' : Frame ω β} (hf : f.traverse h = some f') : f'.op = f.op := by
  cases f with
  | un u =>
      obtain rfl := Option.some.inj hf
      rfl
  | bin l o =>
      obtain ⟨v, _, hf⟩ := Option.bind_eq_some_iff.1 hf
      obtain rfl := Option.some.inj hf
      rfl

theorem Frame.traverse_apply {I : Interp ω β} {g : OpTree ω α → Option β}
    {f : Frame ω (OpTree ω α)} {a t : OpTree ω α} (h : f.apply free a = some t) :
    (do (← f.traverse (evalLevel I g)).apply I (← evalLevel I g a)) = evalLevel I g t := by
  cases f with
  | un u =>
      obtain rfl := Option.some.inj h
      rfl
  | bin l o =>
      obtain rfl := Option.some.inj h
      rw [evalLevel, Frame.traverse]
      cases evalLevel I g l <;> rfl

theorem shift_eval {I : Interp ω β} {prec : ω → Nat} {g : OpTree ω α → Option β}
    {fs fs' : List (Frame ω (OpTree ω α))} {a : OpTree ω α} {o : ω}
    (h : shift free prec o fs a = some fs') :
    (do shift I prec o (← traverseFrames (evalLevel I g) fs) (← evalLevel I g a)) =
      traverseFrames (evalLevel I g) fs' := by
  cases fs with
  | nil =>
      obtain rfl := Option.some.inj h
      rw [traverseFrames_bin, traverseFrames]
      cases evalLevel I g a <;> rfl
  | cons f fs =>
      rw [shift] at h
      by_cases hp : prec f.op ≤ prec o
      · rw [if_pos hp] at h
        obtain ⟨t, ht, h⟩ := Option.bind_eq_some_iff.1 h
        obtain rfl := Option.some.inj h
        have happly := Frame.traverse_apply (I := I) (g := g) ht
        rw [traverseFrames_bin, ← happly, traverseFrames]
        cases hf : f.traverse (evalLevel I g) with
        | none => rfl
        | some f' =>
            have hp' : prec f'.op ≤ prec o := Frame.traverse_op hf ▸ hp
            cases traverseFrames (evalLevel I g) fs with
            | none => cases evalLevel I g a <;> simp
            | some vs =>
                cases evalLevel I g a with
                | none => rfl
                | some v => cases hv : f'.apply I v <;> simp [shift, hp', hv]
      · rw [if_neg hp] at h
        obtain rfl := Option.some.inj h
        rw [traverseFrames_bin, traverseFrames]
        cases hf : f.traverse (evalLevel I g) with
        | none => cases evalLevel I g a <;> rfl
        | some f' =>
            have hp' : ¬ prec f'.op ≤ prec o := Frame.traverse_op hf ▸ hp
            cases traverseFrames (evalLevel I g) fs <;> cases evalLevel I g a <;>
              simp [shift, hp']

theorem feed_eval {I : Interp ω β} {prec : ω → Nat} {g : OpTree ω α → Option β}
    (t : OpTree ω α) :
    ∀ {fs fs' : List (Frame ω (OpTree ω α))} {a : OpTree ω α},
      feed free prec some t fs = some (fs', a) →
      ((traverseFrames (evalLevel I g) fs).bind (feed I prec g t)) =
        (traverseFrames (evalLevel I g) fs').bind fun vs =>
          (evalLevel I g a).map fun v => (vs, v) := by
  induction t with
  | leaf a =>
      intro fs fs' a' h
      obtain ⟨rfl, rfl⟩ : fs = fs' ∧ leaf a = a' := by simpa [feed] using h
      cases traverseFrames (evalLevel I g) fs <;> simp [feed, evalLevel]
      cases g (leaf a) <;> rfl
  | paren t _ =>
      intro fs fs' a' h
      obtain ⟨rfl, rfl⟩ : fs = fs' ∧ paren t = a' := by simpa [feed] using h
      cases traverseFrames (evalLevel I g) fs <;> simp [feed, evalLevel]
      cases g (paren t) <;> rfl
  | un u t ih =>
      intro fs fs' a h
      rw [← ih h, traverseFrames, Frame.traverse]
      cases traverseFrames (evalLevel I g) fs <;> rfl
  | bin o l r ihl ihr =>
      intro fs fs' a h
      rw [feed] at h
      obtain ⟨⟨fs₁, a₁⟩, hl, h⟩ := Option.bind_eq_some_iff.1 h
      obtain ⟨fs₂, hshift, hr⟩ := Option.bind_eq_some_iff.1 h
      rw [← ihr hr, ← shift_eval hshift]
      have hleft := ihl hl
      cases hfs : traverseFrames (evalLevel I g) fs with
      | none => 
          rw [hfs] at hleft
          cases hfs₁ : traverseFrames (evalLevel I g) fs₁ with
          | none => rfl
          | some vs => cases ha : evalLevel I g a₁ <;> simp_all
      | some vs =>
          rw [hfs, Option.bind_some] at hleft
          rw [Option.bind_some, feed, hleft]
          cases traverseFrames (evalLevel I g) fs₁ with
          | none => rfl
          | some vs₁ => cases evalLevel I g a₁ <;> rfl

theorem collapse_eval {I : Interp ω β} {g : OpTree ω α → Option β}
    (fs : List (Frame ω (OpTree ω α))) :
    ∀ {v t : OpTree ω α}, collapse free fs v = some t →
      ((traverseFrames (evalLevel I g) fs).bind fun vs =>
        (evalLevel I g v).bind (collapse I vs)) = evalLevel I g t := by
  induction fs with
  | nil =>
      intro v t h
      obtain rfl := Option.some.inj h
      simp only [traverseFrames, Option.bind_some]
      cases evalLevel I g v <;> rfl
  | cons f fs ih =>
      intro v t h
      obtain ⟨w, hw, h⟩ := Option.bind_eq_some_iff.1 h
      rw [← ih h, ← Frame.traverse_apply hw, traverseFrames]
      cases f.traverse (evalLevel I g) with
      | none => cases traverseFrames (evalLevel I g) fs <;> rfl
      | some f' =>
          cases traverseFrames (evalLevel I g) fs with
          | none => rfl
          | some vs => cases evalLevel I g v <;> rfl

/-- The value of a level is the value of the tree that is built. -/
theorem levelValue_eq {I : Interp ω β} {prec : ω → Nat} {g : OpTree ω α → Option β}
    {t t' : OpTree ω α} (h : Built prec t t') :
    levelValue I prec g t = evalLevel I g t' := by
  obtain ⟨⟨fs, a⟩, hfeed, hcollapse⟩ := Option.bind_eq_some_iff.1 h
  have heval := feed_eval (I := I) (g := g) t hfeed
  rw [levelValue, ← collapse_eval fs hcollapse]
  simp only [traverseFrames, Option.bind_some] at heval
  rw [heval]
  cases traverseFrames (evalLevel I g) fs with
  | none => rfl
  | some vs => cases evalLevel I g a <;> rfl

/-- An evaluator whose value of a level is `levelValue` works level by level. -/
theorem reads_of_levelValue {W : OpTree ω α → Prop} {I : Interp ω β} {prec : ω → Nat}
    {val : α → Option β} {read : OpTree ω α → Option β}
    (h : ∀ t, W t → read t = levelValue I prec (atomRead val read) t) :
    Reads W (Built prec) I val read := by
  intro t hw
  obtain ⟨t', hbuilt, _⟩ := built_exists prec t
  exact Or.inl ⟨t', hbuilt, (h t hw).trans (levelValue_eq hbuilt)⟩

/-! ## Room on a stack -/

/-- The cells of frames: two for a binary operator and its left operand, one for
a unary operator. -/
def height : List (Frame ω β) → Nat
  | [] => 0
  | .bin _ _ :: fs => height fs + 2
  | .un _ :: fs => height fs + 1

/-- The interpretation that forgets values. -/
def unit : Interp ω Unit where
  un _ _ := some ()
  bin _ _ _ := some ()

def Frame.shape : Frame ω β → Frame ω Unit
  | .bin _ o => .bin () o
  | .un u => .un u

def shapes (fs : List (Frame ω β)) : List (Frame ω Unit) := fs.map Frame.shape

/-- The frames after a left operand and its operator. -/
def afterLeft (prec : ω → Nat) (o : ω) (l : OpTree ω α) (fs : List (Frame ω Unit)) :
    List (Frame ω Unit) :=
  match feed unit prec (fun _ => some ()) l fs with
  | some (fs', v) => (shift unit prec o fs' v).getD []
  | none => []

/-- The highest cell that is used to read a tree behind frames. A parenthesis
takes a cell of its own, and so does the operand that is being read. -/
def need (prec : ω → Nat) : OpTree ω α → List (Frame ω Unit) → Nat
  | leaf _, fs => height fs
  | paren t, fs => height fs + 1 + need prec t []
  | un u t, fs => need prec t (.un u :: fs)
  | bin o l r, fs => max (need prec l fs) (need prec r (afterLeft prec o l fs))

theorem height_le_need (prec : ω → Nat) (t : OpTree ω α) :
    ∀ fs : List (Frame ω Unit), height fs ≤ need prec t fs := by
  induction t with
  | leaf a => exact fun fs => Nat.le_refl _
  | paren t _ =>
      intro fs
      rw [need]
      omega
  | un u t ih =>
      intro fs
      have := ih (.un u :: fs)
      rw [height] at this
      rw [need]
      omega
  | bin o l r ihl _ =>
      intro fs
      exact Nat.le_trans (ihl fs) (Nat.le_max_left _ _)

theorem Frame.shape_op (f : Frame ω β) : f.shape.op = f.op := by
  cases f <;> rfl

theorem height_shapes (fs : List (Frame ω β)) : height (shapes fs) = height fs := by
  induction fs with
  | nil => rfl
  | cons f fs ih =>
      have hcons : shapes (f :: fs) = f.shape :: shapes fs := rfl
      rw [hcons]
      cases f <;> simp [Frame.shape, height, ih]

theorem shift_shapes {I : Interp ω β} {prec : ω → Nat} {o : ω} {v : β}
    {fs fs' : List (Frame ω β)} (h : shift I prec o fs v = some fs') :
    shift unit prec o (shapes fs) () = some (shapes fs') := by
  cases fs with
  | nil =>
      obtain rfl := Option.some.inj h
      rfl
  | cons f fs =>
      have hcons : shapes (f :: fs) = f.shape :: shapes fs := rfl
      rw [hcons, shift, Frame.shape_op]
      rw [shift] at h
      by_cases hp : prec f.op ≤ prec o
      · rw [if_pos hp] at h ⊢
        obtain ⟨w, _, h⟩ := Option.bind_eq_some_iff.1 h
        obtain rfl := Option.some.inj h
        cases f <;> rfl
      · rw [if_neg hp] at h ⊢
        obtain rfl := Option.some.inj h
        rfl

theorem feed_shapes {I : Interp ω β} {prec : ω → Nat} {g : OpTree ω α → Option β}
    (t : OpTree ω α) :
    ∀ {fs fs' : List (Frame ω β)} {v : β}, feed I prec g t fs = some (fs', v) →
      feed unit prec (fun _ => some ()) t (shapes fs) = some (shapes fs', ()) := by
  induction t with
  | leaf a =>
      intro fs fs' v h
      obtain ⟨w, _, h⟩ := Option.bind_eq_some_iff.1 h
      obtain ⟨rfl, rfl⟩ := Prod.mk.inj (Option.some.inj h)
      rfl
  | paren t _ =>
      intro fs fs' v h
      obtain ⟨w, _, h⟩ := Option.bind_eq_some_iff.1 h
      obtain ⟨rfl, rfl⟩ := Prod.mk.inj (Option.some.inj h)
      rfl
  | un u t ih => exact fun h => ih h
  | bin o l r ihl ihr =>
      intro fs fs' v h
      obtain ⟨⟨fs₁, v₁⟩, hl, h⟩ := Option.bind_eq_some_iff.1 h
      obtain ⟨fs₂, hshift, hr⟩ := Option.bind_eq_some_iff.1 h
      rw [feed, ihl hl]
      simp only [Option.bind_eq_bind, Option.bind_some, shift_shapes hshift]
      exact ihr hr

theorem afterLeft_shapes {I : Interp ω β} {prec : ω → Nat} {g : OpTree ω α → Option β}
    {l : OpTree ω α} {o : ω} {fs fs₁ fs₂ : List (Frame ω β)} {v : β}
    (hfeed : feed I prec g l fs = some (fs₁, v)) (hshift : shift I prec o fs₁ v = some fs₂) :
    afterLeft prec o l (shapes fs) = shapes fs₂ := by
  rw [afterLeft, feed_shapes l hfeed]
  simp only [shift_shapes hshift, Option.getD_some]

end OpTree

end Swig4Ada.Lib

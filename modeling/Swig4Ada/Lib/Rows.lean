import Swig4Ada.Lib.Passes

/-!
# Whole rows: unary operators before the operands

A row of a tree is a chain of operands with binary operators between them, each
operand an atom behind a list of unary operators. Passes reduce the unary
operators first. A unary pass takes an operator away only when the atom stands
right behind it, and fails on one that it finds in any other place, so the
passes succeed exactly when every operator of a list comes in a later pass than
those behind it (`unaryPasses_eq`).

`rowValue_tree` puts this together with the binary passes: what the passes
compute for a row is the value of one tree of that row, or nothing at all.
-/

namespace Swig4Ada.Lib

namespace OpTree

variable {ω α β γ : Type}

/-- An atom and the unary operators before it. -/
abbrev Operand (ω γ : Type) := List ω × γ

/-- A tree's row at its own parenthesis level, as a chain of operands. -/
def chain : OpTree ω α → Operand ω (OpTree ω α) × List (ω × Operand ω (OpTree ω α))
  | leaf a => (([], leaf a), [])
  | paren t => (([], paren t), [])
  | un u t => ((u :: (chain t).1.1, (chain t).1.2), (chain t).2)
  | bin o l r => ((chain l).1, (chain l).2 ++ (o, (chain r).1) :: (chain r).2)

/-- The operand as a tree. -/
def Operand.wrap (x : Operand ω (OpTree ω α)) : OpTree ω α := x.1.foldr un x.2

/-- The unary operators that the row of a tree starts with. -/
def leadingUnary (t : OpTree ω α) : List ω := (chain t).1.1

/-- Of unary operators that apply one to another, the inner ranks below the
outer, at every parenthesis level. -/
def UnaryOrder (rank : ω → Nat) : OpTree ω α → Prop
  | leaf _ => True
  | paren t => UnaryOrder rank t
  | un u t => (∀ w ∈ leadingUnary t, rank w < rank u) ∧ UnaryOrder rank t
  | bin _ l r => UnaryOrder rank l ∧ UnaryOrder rank r

/-- A list of unary operators with the ranks falling from left to right. -/
def Falling (rank : ω → Nat) (us : List ω) : Prop := us.Pairwise fun u w => rank w < rank u

instance (rank : ω → Nat) (us : List ω) : Decidable (Falling rank us) :=
  inferInstanceAs (Decidable (us.Pairwise _))

/-- `UnaryOrder` at the tree's own parenthesis level only. -/
def LevelUnaryOrder (rank : ω → Nat) (t : OpTree ω α) : Prop :=
  Falling rank (chain t).1.1 ∧ ∀ x ∈ (chain t).2, Falling rank x.2.1

instance (rank : ω → Nat) (t : OpTree ω α) : Decidable (LevelUnaryOrder rank t) :=
  inferInstanceAs (Decidable (_ ∧ _))

theorem levelUnaryOrder_un {rank : ω → Nat} {u : ω} {t : OpTree ω α} :
    LevelUnaryOrder rank (un u t) ↔
      (∀ w ∈ leadingUnary t, rank w < rank u) ∧ LevelUnaryOrder rank t := by
  simp only [LevelUnaryOrder, chain, Falling, List.pairwise_cons, leadingUnary, and_assoc]

theorem levelUnaryOrder_bin {rank : ω → Nat} {o : ω} {l r : OpTree ω α} :
    LevelUnaryOrder rank (bin o l r) ↔ LevelUnaryOrder rank l ∧ LevelUnaryOrder rank r := by
  simp only [LevelUnaryOrder, chain, List.mem_append, List.mem_cons]
  constructor
  · rintro ⟨h1, h2⟩
    exact ⟨⟨h1, fun x hx => h2 x (Or.inl hx)⟩, h2 _ (Or.inr (Or.inl rfl)),
      fun x hx => h2 x (Or.inr (Or.inr hx))⟩
  · rintro ⟨⟨h1, h2⟩, h3, h4⟩
    refine ⟨h1, fun x hx => ?_⟩
    rcases hx with hx | rfl | hx
    · exact h2 x hx
    · exact h3
    · exact h4 x hx

theorem unaryOrder_iff {rank : ω → Nat} (t : OpTree ω α) :
    UnaryOrder rank t ↔ LevelUnaryOrder rank t ∧
      ∀ x, .operand (paren x) ∈ items t → UnaryOrder rank x := by
  induction t with
  | leaf a => simp [UnaryOrder, LevelUnaryOrder, chain, Falling, items]
  | paren t _ => simp [UnaryOrder, LevelUnaryOrder, chain, Falling, items]
  | un u t ih => simp [UnaryOrder, levelUnaryOrder_un, items, ih, and_assoc]
  | bin o l r ihl ihr =>
      simp only [UnaryOrder, levelUnaryOrder_bin, items, ihl, ihr, List.mem_append,
        List.mem_cons, reduceCtorEq, false_or]
      constructor
      · rintro ⟨⟨h1, h2⟩, h3, h4⟩
        exact ⟨⟨h1, h3⟩, fun x hx => hx.elim (h2 x) (h4 x)⟩
      · rintro ⟨⟨h1, h3⟩, h5⟩
        exact ⟨⟨h1, fun x hx => h5 x (Or.inl hx)⟩, h3, fun x hx => h5 x (Or.inr hx)⟩

/-! ## The row and its trees -/

theorem exposed_wrap {x : Operand ω (OpTree ω α)} (h : exposed x.2 = []) :
    exposed x.wrap = [] := by
  obtain ⟨us, t⟩ := x
  induction us with
  | nil => exact h
  | cons u us ih => exact ih h

theorem levelGrouped_wrap {rank : ω → Nat} {x : Operand ω (OpTree ω α)}
    (h : exposed x.2 = []) (hlg : LevelGrouped rank x.2) : LevelGrouped rank x.wrap := by
  obtain ⟨us, t⟩ := x
  induction us with
  | nil => exact hlg
  | cons u us ih => exact ⟨exposed_wrap (x := (us, t)) h, ih h hlg⟩

theorem evalLevel_wrap {I : Interp ω β} {g : OpTree ω α → Option β}
    {x : Operand ω (OpTree ω α)} (h : evalLevel I g x.2 = g x.2) :
    evalLevel I g x.wrap = (do x.1.foldrM I.un (← g x.2)) := by
  obtain ⟨us, t⟩ := x
  induction us with
  | nil => exact h.trans (by cases g t <;> rfl)
  | cons u us ih =>
      have hstep : evalLevel I g (Operand.wrap (u :: us, t)) =
        (evalLevel I g (Operand.wrap (us, t))).bind (I.un u) := rfl
      rw [hstep, ih h]
      cases g t <;> simp

/-- An atom is a leaf or a parenthesis. -/
def IsAtom : OpTree ω α → Prop
  | leaf _ | paren _ => True
  | _ => False

theorem isAtom_spec {t : OpTree ω α} (h : IsAtom t) (rank : ω → Nat) :
    exposed t = [] ∧ LevelGrouped rank t ∧ items t = [.operand t] := by
  cases t with
  | leaf a => exact ⟨rfl, trivial, rfl⟩
  | paren t => exact ⟨rfl, trivial, rfl⟩
  | un u t => exact h.elim
  | bin o l r => exact h.elim

theorem evalLevel_atom {I : Interp ω β} {g : OpTree ω α → Option β} {t : OpTree ω α}
    (h : IsAtom t) : evalLevel I g t = g t := by
  cases t with
  | leaf a => rfl
  | paren t => rfl
  | un u t => exact h.elim
  | bin o l r => exact h.elim

theorem chain_atoms (t : OpTree ω α) :
    IsAtom (chain t).1.2 ∧ ∀ x ∈ (chain t).2, IsAtom x.2.2 := by
  induction t with
  | leaf a => exact ⟨trivial, by simp [chain]⟩
  | paren t _ => exact ⟨trivial, by simp [chain]⟩
  | un u t ih => exact ih
  | bin o l r ihl ihr =>
      refine ⟨ihl.1, fun x hx => ?_⟩
      rcases List.mem_append.1 hx with hx | hx
      · exact ihl.2 x hx
      · rcases List.mem_cons.1 hx with rfl | hx
        · exact ihr.1
        · exact ihr.2 x hx

theorem chain_ops (t : OpTree ω α) : (chain t).2.map Prod.fst = exposed t := by
  induction t with
  | leaf a => rfl
  | paren t _ => rfl
  | un u t ih => exact ih
  | bin o l r ihl ihr => simp [chain, exposed, ihl, ihr]

theorem rowItems_append (h x : OpTree ω α) (o : ω) (row row' : List (ω × OpTree ω α)) :
    rowItems h (row ++ (o, x) :: row') = rowItems h row ++ .op o :: rowItems x row' := by
  induction row generalizing h with
  | nil => rfl
  | cons y row ih =>
      obtain ⟨p, y⟩ := y
      rw [List.cons_append, rowItems, rowItems, ih]
      simp

theorem rowItems_un (u : ω) (h : OpTree ω α) (row : List (ω × OpTree ω α)) :
    rowItems (un u h) row = .op u :: rowItems h row := by
  cases row <;> simp [rowItems, items]

/-- The chain of a tree, as trees. -/
def chainTrees (t : OpTree ω α) : OpTree ω α × List (ω × OpTree ω α) :=
  ((chain t).1.wrap, (chain t).2.map fun x => (x.1, x.2.wrap))

theorem chainTrees_items (t : OpTree ω α) :
    rowItems (chainTrees t).1 (chainTrees t).2 = items t := by
  induction t with
  | leaf a => rfl
  | paren t _ => rfl
  | un u t ih =>
      have : chainTrees (un u t) = (un u (chainTrees t).1, (chainTrees t).2) := rfl
      rw [this, rowItems_un, ih, items]
  | bin o l r ihl ihr =>
      have : chainTrees (bin o l r) = ((chainTrees l).1,
          (chainTrees l).2 ++ (o, (chainTrees r).1) :: (chainTrees r).2) := by
        simp [chainTrees, chain]
      rw [this, rowItems_append, ihl, ihr, items]

/-! ## Traversals -/

theorem traverseRow_bind {ξ : Type} (f : ξ → Option β) (g : β → Option γ)
    (row : List (ω × ξ)) :
    (do traverseRow g (← traverseRow f row)) =
      traverseRow (fun x => do g (← f x)) row := by
  induction row with
  | nil => rfl
  | cons x row ih =>
      obtain ⟨o, x⟩ := x
      rw [traverseRow, traverseRow, ← ih]
      cases f x with
      | none => rfl
      | some y =>
          cases traverseRow f row with
          | none => cases h : g y <;> simp [h]
          | some ys => rfl

theorem traverseRow_congr {ξ : Type} {f g : ξ → Option β} {row : List (ω × ξ)}
    (h : ∀ x ∈ row, f x.2 = g x.2) : traverseRow f row = traverseRow g row := by
  induction row with
  | nil => rfl
  | cons x row ih =>
      obtain ⟨o, x⟩ := x
      rw [traverseRow, traverseRow, h _ List.mem_cons_self,
        ih fun y hy => h y (List.mem_cons_of_mem _ hy)]

theorem traverseRow_eq_none {ξ : Type} {f : ξ → Option β} {row : List (ω × ξ)}
    {x : ω × ξ} (hx : x ∈ row) (h : f x.2 = none) : traverseRow f row = none := by
  induction row with
  | nil => simp at hx
  | cons y row ih =>
      obtain ⟨o, y⟩ := y
      rw [traverseRow]
      rcases List.mem_cons.1 hx with rfl | hx
      · rw [h]
        rfl
      · rw [ih hx]
        cases f y <;> rfl

theorem mem_traverseRow {ξ : Type} {f : ξ → Option β} {row : List (ω × ξ)} :
    ∀ {out : List (ω × β)}, traverseRow f row = some out →
      ∀ y ∈ out, ∃ x ∈ row, f x.2 = some y.2 := by
  induction row with
  | nil =>
      intro out h
      obtain rfl := Option.some.inj h
      simp
  | cons x row ih =>
      intro out h
      obtain ⟨v, hv, h⟩ := Option.bind_eq_some_iff.1 h
      obtain ⟨vs, hvs, h⟩ := Option.bind_eq_some_iff.1 h
      obtain rfl := Option.some.inj h
      intro y hy
      rcases List.mem_cons.1 hy with rfl | hy
      · exact ⟨x, List.mem_cons_self, hv⟩
      · obtain ⟨z, hz, hfz⟩ := ih hvs y hy
        exact ⟨z, List.mem_cons_of_mem _ hz, hfz⟩

theorem traverseRow_append {ξ : Type} (f : ξ → Option β) (row row' : List (ω × ξ)) :
    traverseRow f (row ++ row') =
      do return (← traverseRow f row) ++ (← traverseRow f row') := by
  induction row with
  | nil => cases h : traverseRow f row' <;> simp [h, traverseRow]
  | cons x row ih =>
      obtain ⟨o, x⟩ := x
      rw [List.cons_append, traverseRow, traverseRow, ih]
      cases f x <;> cases traverseRow f row <;> cases traverseRow f row' <;> rfl

theorem traverseRow_map {ξ ζ : Type} (f : ζ → Option β) (w : ξ → ζ)
    (row : List (ω × ξ)) :
    traverseRow f (row.map fun x => (x.1, w x.2)) = traverseRow (fun x => f (w x)) row := by
  induction row with
  | nil => rfl
  | cons x row ih => rw [List.map_cons, traverseRow, traverseRow, ih]

/-- The row of a tree over the values `g` of its atoms. -/
def chainValues (g : OpTree ω α → Option β) (t : OpTree ω α) :
    Option (Operand ω β × List (ω × Operand ω β)) := do
  let v ← g (chain t).1.2
  let vs ← traverseRow (fun x => do return (x.1, ← g x.2)) (chain t).2
  return (((chain t).1.1, v), vs)

theorem chainValues_un (g : OpTree ω α → Option β) (u : ω) (t : OpTree ω α) :
    chainValues g (un u t) =
      (chainValues g t).map fun row => ((u :: row.1.1, row.1.2), row.2) := by
  rw [chainValues, chainValues, chain]
  cases g (chain t).1.2 with
  | none => rfl
  | some v => cases traverseRow _ (chain t).2 <;> simp

theorem chainValues_bin (g : OpTree ω α → Option β) (o : ω) (l r : OpTree ω α) :
    chainValues g (bin o l r) = do
      let left ← chainValues g l
      let right ← chainValues g r
      return (left.1, left.2 ++ (o, right.1) :: right.2) := by
  simp only [chainValues, chain, traverseRow_append, traverseRow]
  cases g (chain l).1.2 with
  | none => rfl
  | some v =>
      cases traverseRow (fun x => do return (x.1, ← g x.2)) (chain l).2 with
      | none => rfl
      | some vs =>
          cases g (chain r).1.2 with
          | none => rfl
          | some w =>
              cases traverseRow (fun x => do return (x.1, ← g x.2)) (chain r).2 <;> rfl

/-! ## Unary passes -/

variable [DecidableEq ω]

/-- One pass for the unary operator `p` over an operand. -/
def unaryPass (f : γ → Option γ) (p : ω) : List ω → γ → Option (Operand ω γ)
  | [], v => some ([], v)
  | u :: us, v =>
      if u = p then
        if us.isEmpty then do return ([], ← f v) else none
      else do
        let (us', v') ← unaryPass f p us v
        return (u :: us', v')

theorem unaryPass_cons {f : γ → Option γ} {p u : ω} {us : List ω} (v : γ) (h : p ≠ u) :
    unaryPass f p (u :: us) v =
      do let (us', v') ← unaryPass f p us v; return (u :: us', v') := by
  rw [unaryPass, if_neg h.symm]

theorem unaryPass_absent {f : γ → Option γ} {p : ω} {us : List ω} (v : γ) (h : p ∉ us) :
    unaryPass f p us v = some (us, v) := by
  induction us with
  | nil => rfl
  | cons u us ih =>
      rw [List.mem_cons, not_or] at h
      rw [unaryPass_cons v h.1, ih h.2]
      rfl

theorem unaryPass_last {f : γ → Option γ} {p : ω} {us : List ω} (v : γ) (h : p ∉ us) :
    unaryPass f p (us ++ [p]) v = do return (us, ← f v) := by
  induction us with
  | nil =>
      rw [List.nil_append, unaryPass, if_pos rfl]
      rfl
  | cons u us ih =>
      rw [List.mem_cons, not_or] at h
      rw [List.cons_append, unaryPass_cons v h.1, ih h.2]
      cases f v <;> rfl

theorem unaryPass_inner {f : γ → Option γ} {p w : ω} {us ws : List ω} (v : γ)
    (h : p ∉ us) : unaryPass f p (us ++ p :: w :: ws) v = none := by
  induction us with
  | nil =>
      rw [List.nil_append, unaryPass, if_pos rfl]
      rfl
  | cons u us ih =>
      rw [List.mem_cons, not_or] at h
      rw [List.cons_append, unaryPass_cons v h.1, ih h.2]
      rfl

/-- The unary passes in their order. -/
def unaryPasses (f : ω → γ → Option γ) (ps : List ω) (x : Operand ω γ) :
    Option (Operand ω γ) :=
  ps.foldlM (fun x p => unaryPass (f p) p x.1 x.2) x

/-- The passes apply the operators from the inside, if their ranks fall. -/
theorem unaryPasses_eq {f : ω → γ → Option γ} (rank : ω → Nat) (ps : List ω) :
    ∀ (us : List ω) (v : γ), ps.Pairwise (fun p q => rank p < rank q) →
      (∀ u ∈ us, u ∈ ps) →
      unaryPasses f ps (us, v) =
        if Falling rank us then do return ([], ← us.foldrM f v) else none := by
  induction ps with
  | nil =>
      intro us v _ hus
      cases us with
      | nil => rfl
      | cons u us => exact absurd (hus u List.mem_cons_self) List.not_mem_nil
  | cons p ps ih =>
      intro us v hsorted hus
      obtain ⟨hp, hps⟩ := List.pairwise_cons.1 hsorted
      rw [unaryPasses, List.foldlM_cons]
      by_cases hmem : p ∈ us
      · obtain ⟨init, tail, rfl, hinit⟩ := List.eq_append_cons_of_mem hmem
        cases tail with
        | nil =>
            have hin : ∀ u ∈ init, u ∈ ps := fun u hu =>
              (List.mem_cons.1 (hus u (List.mem_append_left _ hu))).resolve_left
                fun h => hinit (h ▸ hu)
            have hfall : Falling rank (init ++ [p]) ↔ Falling rank init := by
              simp only [Falling, List.pairwise_append, List.pairwise_cons,
                List.mem_singleton, forall_eq]
              exact ⟨fun h => h.1, fun h => ⟨h, by simp, fun u hu => hp u (hin u hu)⟩⟩
            rw [unaryPass_last v hinit]
            simp only [hfall, List.foldrM_append, List.foldrM_cons, List.foldrM_nil,
              pure_bind]
            cases f p v with
            | none => exact (ite_self _).symm
            | some w => exact ih init w hps hin
        | cons w ws =>
            have hnot : ¬ Falling rank (init ++ p :: w :: ws) := by
              intro hfall
              have hw := (List.pairwise_cons.1 (List.pairwise_append.1 hfall).2.1).1 w
                List.mem_cons_self
              rcases List.mem_cons.1 (hus w (by simp)) with rfl | hwps
              · omega
              · exact absurd (hp w hwps) (by omega)
            rw [unaryPass_inner v hinit, if_neg hnot]
            rfl
      · rw [unaryPass_absent v hmem]
        exact ih us v hps fun u hu =>
          (List.mem_cons.1 (hus u hu)).resolve_left fun h => hmem (h ▸ hu)

/-! ## Rows of values -/

/-- The value of an operand whose operators have falling ranks. -/
def operandValue (I : Interp ω β) (rank : ω → Nat) (x : Operand ω β) : Option β :=
  if Falling rank x.1 then x.1.foldrM I.un x.2 else none

/-- The value of a row: first of every operand, and then by the binary passes. -/
def rowValue (I : Interp ω β) (rank : ω → Nat) (ps : List ω)
    (row : Operand ω β × List (ω × Operand ω β)) : Option (β × List (ω × β)) := do
  let v ← operandValue I rank row.1
  let vs ← traverseRow (operandValue I rank) row.2
  passes I.bin ps v vs

/-- A row whose unary operators are out of order has no value. -/
theorem rowValue_none {I : Interp ω β} {rank : ω → Nat} {g : OpTree ω α → Option β}
    {t : OpTree ω α} (ps : List ω) (h : ¬ LevelUnaryOrder rank t) :
    (do rowValue I rank ps (← chainValues g t)) = none := by
  rw [Option.bind_eq_bind, Option.bind_eq_none_iff]
  intro row hrow
  obtain ⟨v, _, hrow⟩ := Option.bind_eq_some_iff.1 hrow
  obtain ⟨vs, hvs, hrow⟩ := Option.bind_eq_some_iff.1 hrow
  obtain rfl : (((chain t).1.1, v), vs) = row := by simpa using hrow
  rw [rowValue]
  by_cases hhead : Falling rank (chain t).1.1
  · have hbad : ∃ x ∈ (chain t).2, ¬ Falling rank x.2.1 := by
      by_contra hno
      exact h ⟨hhead, fun x hx => by_contra fun hx' => hno ⟨x, hx, hx'⟩⟩
    obtain ⟨x, hx, hbad⟩ := hbad
    have hnone : traverseRow (operandValue I rank) vs = none := by
      have := traverseRow_bind (fun x : Operand ω (OpTree ω α) => do return (x.1, ← g x.2))
        (operandValue I rank) (chain t).2
      rw [hvs] at this
      refine Eq.trans this (traverseRow_eq_none hx ?_)
      cases g x.2.2 with
      | none => rfl
      | some w => exact if_neg hbad
    simp only [hnone]
    cases operandValue I rank ((chain t).1.1, v) <;> rfl
  · rw [operandValue, if_neg hhead]
    rfl

/-- A row whose unary operators are in order has the value of one of its trees,
the one that the binary passes group. -/
theorem rowValue_tree (uRank bRank : ω → Nat) (ps : List ω) {t : OpTree ω α}
    (hsorted : ps.Pairwise fun p q => bRank p < bRank q) (hops : ∀ o ∈ exposed t, o ∈ ps)
    (h : LevelUnaryOrder uRank t) :
    ∃ t', items t' = items t ∧ LevelGrouped bRank t' ∧
      ∀ (β : Type) (I : Interp ω β) (g : OpTree ω α → Option β),
        (do rowValue I uRank ps (← chainValues g t)) = do return (← evalLevel I g t', []) := by
  obtain ⟨hatom, hatoms⟩ := chain_atoms t
  obtain ⟨t', hpasses, hitems, hlg⟩ := passes_tree bRank ps (chainTrees t).1
    (chainTrees t).2 hsorted
    (by
      intro x hx
      obtain ⟨y, hy, rfl⟩ := List.mem_map.1 hx
      exact hops y.1 (chain_ops t ▸ List.mem_map_of_mem hy))
    (levelGrouped_wrap (isAtom_spec hatom bRank).1 (isAtom_spec hatom bRank).2.1)
    (fun p _ q hq => by
      rw [chainTrees, exposed_wrap (isAtom_spec hatom bRank).1] at hq
      exact absurd hq List.not_mem_nil)
    (by
      intro x hx
      obtain ⟨y, hy, rfl⟩ := List.mem_map.1 hx
      have hy := isAtom_spec (hatoms y hy) bRank
      refine ⟨levelGrouped_wrap hy.1 hy.2.1, fun p _ q hq => ?_⟩
      rw [exposed_wrap hy.1] at hq
      exact absurd hq List.not_mem_nil)
  refine ⟨t', hitems.trans (chainTrees_items t), hlg, fun β I g => ?_⟩
  have heval := passes_eval (I := I) (h := evalLevel I g) (fun p l r => rfl) ps _ _ _ _ hpasses
  have hhead : evalLevel I g (chainTrees t).1 =
      (do operandValue I uRank ((chain t).1.1, ← g (chain t).1.2)) := by
    rw [chainTrees, evalLevel_wrap (evalLevel_atom hatom)]
    simp only [operandValue, if_pos h.1]
  have htail : traverseRow (evalLevel I g) (chainTrees t).2 =
      (traverseRow (fun x => do return (x.1, ← g x.2)) (chain t).2).bind
        (traverseRow (operandValue I uRank)) := by
    refine Eq.trans ?_ (traverseRow_bind _ _ _).symm
    rw [chainTrees, traverseRow_map]
    refine traverseRow_congr fun x hx => ?_
    rw [evalLevel_wrap (evalLevel_atom (hatoms x hx))]
    cases g x.2.2 with
    | none => rfl
    | some w => exact (if_pos (h.2 x hx)).symm
  rw [hhead, htail] at heval
  have hdone : (do return (← evalLevel I g t', ([] : List (ω × β)))) =
      (evalLevel I g t').bind fun v =>
        (traverseRow (evalLevel I g) []).bind fun vs => some (v, vs) := by
    cases evalLevel I g t' <;> rfl
  refine Eq.trans ?_ (hdone.trans heval).symm
  rw [chainValues]
  simp only [rowValue]
  cases g (chain t).1.2 with
  | none => rfl
  | some v =>
      cases traverseRow (fun x => do return (x.1, ← g x.2)) (chain t).2 with
      | none => cases hv : operandValue I uRank ((chain t).1.1, v) <;> simp [hv]
      | some vs => rfl

end OpTree

end Swig4Ada.Lib

import Mathlib

/-!
# Operator trees, precedence, and what a flat row of operators determines

An infix notation writes a tree as a row of operators and operands. A ranking
of the operators, with the usual left association of equal ranks, says which
tree a row means: `Grouped rank t` is "the notation reads the row of `t` as
`t`". Parentheses are nodes, so a row is what stands at one parenthesis level.

An evaluator of rows sees the tree it builds through an `Interp`. The free
interpretation `free` answers the tree itself, without its parentheses, which
is how "the evaluator groups the operators like this" becomes an equation.
`graft_injective` is the reason the equation says so much: a tree can be read
back from its free value once the row is known.
-/

namespace Swig4Ada.Lib

/-- Trees of operators `ω` over operands `α`. -/
inductive OpTree (ω α : Type)
  | leaf (a : α)
  | paren (t : OpTree ω α)
  | un (u : ω) (t : OpTree ω α)
  | bin (o : ω) (l r : OpTree ω α)
deriving DecidableEq, Repr

/-- A meaning for the operators, which may be undefined. -/
structure Interp (ω β : Type) where
  un : ω → β → Option β
  bin : ω → β → β → Option β

namespace OpTree

variable {ω α β : Type}

/-- The binary operators outside every parenthesis of the tree. -/
def exposed : OpTree ω α → List ω
  | leaf _ | paren _ => []
  | un _ t => exposed t
  | bin o l r => exposed l ++ o :: exposed r

/-- The tree is the one that precedence by `rank`, lower binding tighter, and
left association give to its row, at every parenthesis level. An operand of a
unary operator has no binary operator of the same level. -/
def Grouped (rank : ω → Nat) : OpTree ω α → Prop
  | leaf _ => True
  | paren t => Grouped rank t
  | un _ t => exposed t = [] ∧ Grouped rank t
  | bin o l r =>
      (∀ p ∈ exposed l, rank p ≤ rank o) ∧ (∀ p ∈ exposed r, rank p < rank o) ∧
        Grouped rank l ∧ Grouped rank r

/-- The value of a tree over the values of its leaves; every operand is
evaluated. -/
def eval (I : Interp ω β) (val : α → Option β) : OpTree ω α → Option β
  | leaf a => val a
  | paren t => eval I val t
  | un u t => do I.un u (← eval I val t)
  | bin o l r => do I.bin o (← eval I val l) (← eval I val r)

/-- The leaves, from left to right. -/
def leaves : OpTree ω α → List α
  | leaf a => [a]
  | paren t => leaves t
  | un _ t => leaves t
  | bin _ l r => leaves l ++ leaves r

theorem eval_congr {I : Interp ω β} {val val' : α → Option β} {t : OpTree ω α}
    (h : ∀ a ∈ leaves t, val a = val' a) : eval I val t = eval I val' t := by
  induction t with
  | leaf a => exact h a (by simp [leaves])
  | paren t ih => exact ih h
  | un u t ih => rw [eval, eval, ih h]
  | bin o l r ihl ihr =>
      rw [eval, eval, ihl fun a ha => h a (List.mem_append_left _ ha),
        ihr fun a ha => h a (List.mem_append_right _ ha)]

example : leaves (bin '+' (leaf 1) (paren (un '-' (leaf 2)))) = [1, 2] := by decide +kernel

/-- The value of a tree over the values `g` of the operands of its own level. -/
def evalLevel (I : Interp ω β) (g : OpTree ω α → Option β) : OpTree ω α → Option β
  | leaf a => g (leaf a)
  | paren t => g (paren t)
  | un u t => do I.un u (← evalLevel I g t)
  | bin o l r => do I.bin o (← evalLevel I g l) (← evalLevel I g r)

theorem evalLevel_eval (I : Interp ω β) (val : α → Option β) (t : OpTree ω α) :
    evalLevel I (eval I val) t = eval I val t := by
  induction t with
  | leaf a => rfl
  | paren t _ => rfl
  | un u t ih => rw [evalLevel, ih, eval]
  | bin o l r ihl ihr => rw [evalLevel, ihl, ihr, eval]

/-- The interpretation by the trees themselves. -/
def free : Interp ω (OpTree ω α) where
  un u t := some (un u t)
  bin o l r := some (bin o l r)

/-- The tree over the values `φ` of its leaves, without its parentheses. -/
def erase (φ : α → β) : OpTree ω α → OpTree ω β
  | leaf a => leaf (φ a)
  | paren t => erase φ t
  | un u t => un u (erase φ t)
  | bin o l r => bin o (erase φ l) (erase φ r)

@[simp] theorem eval_free (φ : α → β) (t : OpTree ω α) :
    eval free (fun a => some (leaf (φ a))) t = some (erase φ t) := by
  induction t with
  | leaf a => rfl
  | paren t ih => rw [eval, ih, erase]
  | un u t ih => rw [eval, ih, erase]; rfl
  | bin o l r ihl ihr => rw [eval, ihl, ihr, erase]; rfl

/-! ## Rows -/

/-- What stands in a row: operators, and operands as whole trees. -/
inductive Item (ω α : Type)
  | op (o : ω)
  | operand (t : OpTree ω α)
deriving DecidableEq, Repr

/-- The row a tree is written as at its own parenthesis level. -/
def items : OpTree ω α → List (Item ω α)
  | leaf a => [.operand (leaf a)]
  | paren t => [.operand (paren t)]
  | un u t => .op u :: items t
  | bin o l r => items l ++ .op o :: items r

theorem items_length_pos (t : OpTree ω α) : 0 < (items t).length := by
  cases t <;> simp [items]

example : (items (bin '+' (leaf 1) (paren (un '-' (leaf 2))))).length = 3 := by decide +kernel

/-- A row of one operand is that operand. -/
theorem eq_of_items_eq_operand {t x : OpTree ω α} (h : items t = [.operand x]) :
    t = x := by
  cases t with
  | leaf a => simpa [items] using h
  | paren t => simpa [items] using h
  | un u t => simp [items] at h
  | bin o l r =>
      have hl := items_length_pos l
      have hlen := congrArg List.length h
      simp only [items, List.length_append, List.length_cons, List.length_nil] at hlen
      omega

theorem items_getLast (t : OpTree ω α) :
    ∃ x, (items t).getLast? = some (.operand x) := by
  induction t with
  | leaf a => exact ⟨leaf a, rfl⟩
  | paren t _ => exact ⟨paren t, rfl⟩
  | un u t ih =>
      obtain ⟨x, hx⟩ := ih
      exact ⟨x, by rw [items, List.getLast?_cons, hx]; rfl⟩
  | bin o l r _ ih =>
      obtain ⟨x, hx⟩ := ih
      refine ⟨x, ?_⟩
      rw [items, List.getLast?_append, List.getLast?_cons, hx]
      rfl

/-- An operator of the row with an operand right before it is binary. -/
theorem mem_exposed_of_split {t : OpTree ω α} :
    ∀ {xs ys : List (Item ω α)} {o : ω} {x : OpTree ω α},
      items t = xs ++ .op o :: ys → xs.getLast? = some (.operand x) →
      o ∈ exposed t := by
  induction t with
  | leaf a =>
      intro xs ys o x h hx
      cases xs with
      | nil => simp at hx
      | cons y xs => simp [items] at h
  | paren t _ =>
      intro xs ys o x h hx
      cases xs with
      | nil => simp at hx
      | cons y xs => simp [items] at h
  | un u t ih =>
      intro xs ys o x h hx
      cases xs with
      | nil => simp at hx
      | cons y xs =>
          obtain ⟨rfl, htail⟩ := List.cons.inj h
          cases xs with
          | nil => simp at hx
          | cons z xs => exact ih htail (by rwa [List.getLast?_cons_cons] at hx)
  | bin o' l r ihl ihr =>
      intro xs ys o x h hx
      rw [exposed, List.mem_append, List.mem_cons]
      rcases List.append_eq_append_iff.1 h with ⟨c, rfl, hc⟩ | ⟨c, hl, hc⟩
      · cases c with
        | nil => exact Or.inr (Or.inl (by simpa [eq_comm] using (List.cons.inj hc).1))
        | cons y c =>
            obtain ⟨rfl, hr⟩ := List.cons.inj hc
            cases c with
            | nil => simp at hx
            | cons z c =>
                refine Or.inr (Or.inr (@ihr _ _ _ x hr ?_))
                rw [List.getLast?_append, List.getLast?_cons_cons] at hx
                simpa [List.getLast?_cons] using hx
      · cases c with
        | nil => exact Or.inr (Or.inl (by simpa using (List.cons.inj hc).1))
        | cons y c =>
            obtain ⟨rfl, _⟩ := List.cons.inj hc
            exact Or.inl (ihl hl hx)

/-- `Grouped` at the tree's own parenthesis level only. -/
def LevelGrouped (rank : ω → Nat) : OpTree ω α → Prop
  | leaf _ | paren _ => True
  | un _ t => exposed t = [] ∧ LevelGrouped rank t
  | bin o l r =>
      (∀ p ∈ exposed l, rank p ≤ rank o) ∧ (∀ p ∈ exposed r, rank p < rank o) ∧
        LevelGrouped rank l ∧ LevelGrouped rank r

theorem grouped_iff {rank : ω → Nat} (t : OpTree ω α) :
    Grouped rank t ↔ LevelGrouped rank t ∧
      ∀ x, .operand (paren x) ∈ items t → Grouped rank x := by
  induction t with
  | leaf a => simp [Grouped, LevelGrouped, items]
  | paren t _ => simp [Grouped, LevelGrouped, items]
  | un u t ih => simp [Grouped, LevelGrouped, items, ih, and_assoc]
  | bin o l r ihl ihr =>
      simp only [Grouped, LevelGrouped, items, ihl, ihr, List.mem_append,
        List.mem_cons, reduceCtorEq, false_or]
      constructor
      · rintro ⟨h1, h2, ⟨h3, h4⟩, h5, h6⟩
        exact ⟨⟨h1, h2, h3, h5⟩, fun x hx => hx.elim (h4 x) (h6 x)⟩
      · rintro ⟨⟨h1, h2, h3, h5⟩, h6⟩
        exact ⟨h1, h2, ⟨h3, fun x hx => h6 x (Or.inl hx)⟩, h5, fun x hx => h6 x (Or.inr hx)⟩

example : exposed (bin '+' (leaf 1) (paren (bin '*' (leaf 2) (leaf 3)))) = ['+'] := by
  decide +kernel

/-- The row of one level has no other tree than the one grouped by rank. -/
theorem LevelGrouped.unique {rank : ω → Nat} {t : OpTree ω α} :
    ∀ {t' : OpTree ω α}, LevelGrouped rank t → LevelGrouped rank t' →
      items t = items t' → t = t' := by
  -- Of two different roots, each would bind looser than the other.
  have hroots : ∀ {o o' : ω} {l r l' r' : OpTree ω α} {c : List (Item ω α)},
      LevelGrouped rank (bin o l r) → LevelGrouped rank (bin o' l' r') →
      items l' = items l ++ .op o :: c → items r = c ++ .op o' :: items r' →
      False := by
    intro o o' l r l' r' c ht ht' hl hr
    obtain ⟨x, hx⟩ := items_getLast l
    obtain ⟨y, hy⟩ := items_getLast l'
    have hle := ht'.1 o (mem_exposed_of_split hl hx)
    rw [hl, List.getLast?_append, List.getLast?_cons, Option.some_or] at hy
    cases c with
    | nil => simp at hy
    | cons z c =>
        have hlt := ht.2.1 o' (@mem_exposed_of_split _ _ r _ _ _ y hr (by
          rw [List.getLast?_cons] at hy ⊢
          simpa using hy))
        omega
  induction t with
  | leaf a => exact fun _ _ h => (eq_of_items_eq_operand h.symm).symm
  | paren t _ => exact fun _ _ h => (eq_of_items_eq_operand h.symm).symm
  | un u t ih =>
      intro t' ht ht' h
      cases t' with
      | leaf a => exact eq_of_items_eq_operand h
      | paren t' => exact eq_of_items_eq_operand h
      | un v t' =>
          obtain ⟨hu, h⟩ := List.cons.inj h
          rw [ih ht.2 ht'.2 h, Item.op.inj hu]
      | bin o l r =>
          obtain ⟨x, hx⟩ := items_getLast l
          have hmem := mem_exposed_of_split h hx
          rw [exposed, ht.1] at hmem
          exact absurd hmem List.not_mem_nil
  | bin o l r ihl ihr =>
      intro t' ht ht' h
      cases t' with
      | leaf a => exact eq_of_items_eq_operand h
      | paren t' => exact eq_of_items_eq_operand h
      | un v t' =>
          obtain ⟨x, hx⟩ := items_getLast l
          have hmem := mem_exposed_of_split h.symm hx
          rw [exposed, ht'.1] at hmem
          exact absurd hmem List.not_mem_nil
      | bin o' l' r' =>
          rcases List.append_eq_append_iff.1 h with ⟨c, hl, hr⟩ | ⟨c, hl, hr⟩
          · cases c with
            | nil =>
                obtain ⟨ho, hr⟩ := List.cons.inj hr
                rw [ihl ht.2.2.1 ht'.2.2.1 (by simpa using hl.symm),
                  ihr ht.2.2.2 ht'.2.2.2 hr, Item.op.inj ho]
            | cons y c =>
                obtain ⟨rfl, hright⟩ := List.cons.inj hr
                exact (hroots ht ht' hl hright).elim
          · cases c with
            | nil =>
                obtain ⟨ho, hr⟩ := List.cons.inj hr
                rw [ihl ht.2.2.1 ht'.2.2.1 (by simpa using hl),
                  ihr ht.2.2.2 ht'.2.2.2 hr.symm, Item.op.inj ho]
            | cons y c =>
                obtain ⟨rfl, hright⟩ := List.cons.inj hr
                exact (hroots ht' ht hl hright).elim

/-! ## Grafts -/

/-- Puts trees in the place of the operands of the tree's own level. -/
def graft (f : OpTree ω α → OpTree ω β) : OpTree ω α → OpTree ω β
  | leaf a => f (leaf a)
  | paren t => f (paren t)
  | un u t => un u (graft f t)
  | bin o l r => bin o (graft f l) (graft f r)

/-- A level over trees makes the graft of its operands' values. -/
theorem evalLevel_free_eq_some {g : OpTree ω α → Option (OpTree ω β)} (d : OpTree ω β)
    {t : OpTree ω α} :
    ∀ {s : OpTree ω β}, evalLevel free g t = some s →
      s = graft (fun x => (g x).getD d) t ∧
        ∀ x, .operand x ∈ items t → g x = some ((g x).getD d) := by
  induction t with
  | leaf a =>
      intro s h
      rw [evalLevel] at h
      simp [graft, items, h]
  | paren t _ =>
      intro s h
      rw [evalLevel] at h
      simp [graft, items, h]
  | un u t ih =>
      intro s h
      obtain ⟨s', hs', h⟩ := Option.bind_eq_some_iff.1 h
      obtain rfl := Option.some.inj h
      obtain ⟨rfl, hmem⟩ := ih hs'
      exact ⟨rfl, fun x hx => hmem x (by simpa [items] using hx)⟩
  | bin o l r ihl ihr =>
      intro s h
      obtain ⟨sl, hsl, h⟩ := Option.bind_eq_some_iff.1 h
      obtain ⟨sr, hsr, h⟩ := Option.bind_eq_some_iff.1 h
      obtain rfl := Option.some.inj h
      obtain ⟨rfl, hl⟩ := ihl hsl
      obtain ⟨rfl, hr⟩ := ihr hsr
      refine ⟨rfl, fun x hx => ?_⟩
      rcases (by simpa [items] using hx :
          .operand x ∈ items l ∨ .operand x ∈ items r) with hx | hx
      · exact hl x hx
      · exact hr x hx

example : leaves (graft (bin '+' (leaf 1)) (un '-' (leaf 2))) = [1, 2] := by decide +kernel

/-- Only the operands that stand in the row matter to a level's value. -/
theorem evalLevel_congr {I : Interp ω β} {g h : OpTree ω α → Option β}
    {t : OpTree ω α} (hgh : ∀ x, .operand x ∈ items t → g x = h x) :
    evalLevel I g t = evalLevel I h t := by
  induction t with
  | leaf a => exact hgh _ (by simp [items])
  | paren t _ => exact hgh _ (by simp [items])
  | un u t ih =>
      rw [evalLevel, evalLevel, ih fun x hx => hgh x (by simp [items, hx])]
  | bin o l r ihl ihr =>
      rw [evalLevel, evalLevel, ihl fun x hx => hgh x (by simp [items, hx]),
        ihr fun x hx => hgh x (by simp [items, hx])]

theorem graft_erase (φ : α → β) (t : OpTree ω α) : graft (erase φ) t = erase φ t := by
  induction t with
  | leaf a => rfl
  | paren t _ => rfl
  | un u t ih => rw [graft, ih, erase]
  | bin o l r ihl ihr => rw [graft, ihl, ihr, erase]

/-- Grafts that agree on a tree agree on its operands. -/
theorem eq_of_graft_eq {f g : OpTree ω α → OpTree ω β} {t : OpTree ω α}
    (h : graft f t = graft g t) {x : OpTree ω α} (hx : .operand x ∈ items t) :
    f x = g x := by
  induction t with
  | leaf a =>
      obtain rfl : x = leaf a := by simpa [items] using hx
      exact h
  | paren t _ =>
      obtain rfl : x = paren t := by simpa [items] using hx
      exact h
  | un u t ih =>
      exact ih (by simpa [graft] using h) (by simpa [items] using hx)
  | bin o l r ihl ihr =>
      obtain ⟨hl, hr⟩ : graft f l = graft g l ∧ graft f r = graft g r := by
        simpa [graft] using h
      rcases (by simpa [items] using hx :
          .operand x ∈ items l ∨ .operand x ∈ items r) with hx | hx
      · exact ihl hl hx
      · exact ihr hr hx

/-- Nodes of a tree, parentheses not counted. -/
def nodes : OpTree ω α → Nat
  | leaf _ => 1
  | paren t => nodes t
  | un _ t => nodes t + 1
  | bin _ l r => nodes l + nodes r + 1

theorem nodes_pos (t : OpTree ω α) : 0 < nodes t := by
  induction t with
  | paren t ih => exact ih
  | _ => simp [nodes]

/-- How many nodes a row stands for, when its operands are replaced by `f`. -/
def weight (f : OpTree ω α → OpTree ω β) : List (Item ω α) → Nat
  | [] => 0
  | .op _ :: rest => weight f rest + 1
  | .operand t :: rest => weight f rest + nodes (f t)

theorem weight_append (f : OpTree ω α → OpTree ω β) (xs ys : List (Item ω α)) :
    weight f (xs ++ ys) = weight f xs + weight f ys := by
  induction xs with
  | nil => simp [weight]
  | cons x xs ih => cases x <;> simp only [List.cons_append, weight, ih] <;> omega

example : weight paren [.op '+', .operand (leaf 1)] = 2 := by decide +kernel

theorem weight_eq_zero {f : OpTree ω α → OpTree ω β} {xs : List (Item ω α)}
    (h : weight f xs = 0) : xs = [] := by
  cases xs with
  | nil => rfl
  | cons x xs =>
      cases x with
      | op o => simp [weight] at h
      | operand t =>
          have := nodes_pos (f t)
          simp only [weight] at h
          omega

@[simp] theorem nodes_erase (φ : α → β) (t : OpTree ω α) : nodes (erase φ t) = nodes t := by
  induction t with
  | leaf a => rfl
  | paren t ih => rw [erase, ih, nodes]
  | un u t ih => simp [erase, nodes, ih]
  | bin o l r ihl ihr => simp [erase, nodes, ihl, ihr]

theorem nodes_graft (f : OpTree ω α → OpTree ω β) (t : OpTree ω α) :
    nodes (graft f t) = weight f (items t) := by
  induction t with
  | leaf a => simp [graft, items, weight]
  | paren t _ => simp [graft, items, weight]
  | un u t ih => simp [graft, items, weight, nodes, ih]
  | bin o l r ihl ihr =>
      simp only [graft, items, weight, nodes, weight_append, ihl, ihr]
      omega

theorem weight_congr {f g : OpTree ω α → OpTree ω β} {xs : List (Item ω α)}
    (h : ∀ t, .operand t ∈ xs → nodes (f t) = nodes (g t)) :
    weight f xs = weight g xs := by
  induction xs with
  | nil => rfl
  | cons x xs ih =>
      have hrest := ih fun t ht => h t (List.mem_cons_of_mem _ ht)
      cases x with
      | op o => simp only [weight, hrest]
      | operand t => simp only [weight, hrest, h t List.mem_cons_self]

/-- Two rows that start alike and weigh alike are alike. -/
theorem row_eq_of_weight {f g : OpTree ω α → OpTree ω β}
    {xs ys s s' : List (Item ω α)} (hrow : xs ++ s = ys ++ s')
    (hfg : ∀ t, .operand t ∈ xs ++ s → nodes (f t) = nodes (g t))
    (hw : weight f xs = weight g ys) : xs = ys := by
  have hys : weight f ys = weight g ys :=
    weight_congr fun t ht => hfg t (hrow ▸ List.mem_append_left _ ht)
  rw [← hys] at hw
  rcases List.append_eq_append_iff.1 hrow with ⟨c, rfl, _⟩ | ⟨c, rfl, _⟩
  · rw [weight_append] at hw
    rw [weight_eq_zero (show weight f c = 0 by omega), List.append_nil]
  · rw [weight_append] at hw
    rw [weight_eq_zero (show weight f c = 0 by omega), List.append_nil]

/-- A tree can be read back from what grafting makes of it, when the row it
was written as is known and the grafts have the sizes they should. -/
theorem graft_injective {f g : OpTree ω α → OpTree ω β} (t : OpTree ω α) :
    ∀ t' s s', items t ++ s = items t' ++ s' →
      (∀ x, .operand x ∈ items t ++ s → nodes (f x) = nodes (g x)) →
      graft f t = graft g t' → t = t' := by
  have hsame : ∀ (x y : OpTree ω α) (s s' : List (Item ω α)),
      items x ++ s = items y ++ s' →
      (∀ z, .operand z ∈ items x ++ s → nodes (f z) = nodes (g z)) →
      graft f x = graft g y → items x = items y := by
    intro x y s s' hrow hfg heq
    refine row_eq_of_weight hrow hfg ?_
    rw [← nodes_graft, ← nodes_graft, heq]
  induction t with
  | leaf a =>
      intro t' s s' hrow hfg heq
      exact (eq_of_items_eq_operand (hsame _ _ s s' hrow hfg heq).symm).symm
  | paren t _ =>
      intro t' s s' hrow hfg heq
      exact (eq_of_items_eq_operand (hsame _ _ s s' hrow hfg heq).symm).symm
  | un u t ih =>
      intro t' s s' hrow hfg heq
      have h := hsame _ _ s s' hrow hfg heq
      cases t' with
      | leaf b => simp [items] at h
      | paren t => simp [items] at h
      | bin o l r => simp [graft] at heq
      | un v t' =>
          obtain ⟨rfl, hgraft⟩ : u = v ∧ graft f t = graft g t' := by
            simpa [graft] using heq
          simp only [items, List.cons_append] at hrow hfg
          rw [ih t' s s' (List.cons.inj hrow).2
            (fun x hx => hfg x (List.mem_cons_of_mem _ hx)) hgraft]
  | bin o l r ihl ihr =>
      intro t' s s' hrow hfg heq
      have h := hsame _ _ s s' hrow hfg heq
      cases t' with
      | leaf b => exact eq_of_items_eq_operand h
      | paren t => exact eq_of_items_eq_operand h
      | un u t => simp [graft] at heq
      | bin o' l' r' =>
          obtain ⟨rfl, hl, hr⟩ : o = o' ∧ graft f l = graft g l' ∧
            graft f r = graft g r' := by simpa [graft] using heq
          simp only [items, List.append_assoc, List.cons_append] at hrow hfg
          have hll := ihl l' _ _ hrow hfg hl
          subst hll
          have hrow' := (List.cons.inj (List.append_cancel_left hrow)).2
          rw [ihr r' s s' hrow'
            (fun x hx => hfg x (List.mem_append_right _ (List.mem_cons_of_mem _ hx))) hr]

end OpTree

end Swig4Ada.Lib

import Swig4Ada.Lib.OpTree

/-!
# Evaluators that work level by level

An evaluator of infix text builds, for the row of every parenthesis level, some
tree of that row, or rejects it. `Level t t'` says that it builds `t'` from the
row of `t`, and `Reads` that its value is the one of the trees it builds.

Such an evaluator computes the value of `t` itself, in every interpretation,
exactly when it builds the tree of `t` back at every level: `Reads.eval` is one
direction, and `Reads.allLevels`, in the interpretation by trees, the other.
-/

namespace Swig4Ada.Lib

namespace OpTree

variable {ω α β : Type}

/-- `Ok` holds of the contents of every parenthesis. -/
def ParensAll (Ok : OpTree ω α → Prop) : OpTree ω α → Prop
  | leaf _ => True
  | paren t => Ok t ∧ ParensAll Ok t
  | un _ t => ParensAll Ok t
  | bin _ l r => ParensAll Ok l ∧ ParensAll Ok r

/-- `Ok` holds of the tree and of the contents of every parenthesis. -/
def AllLevels (Ok : OpTree ω α → Prop) (t : OpTree ω α) : Prop := Ok t ∧ ParensAll Ok t

theorem parensAll_iff {Ok : OpTree ω α → Prop} (t : OpTree ω α) :
    ParensAll Ok t ↔ ∀ x, .operand (paren x) ∈ items t → AllLevels Ok x := by
  induction t with
  | leaf a => simp [ParensAll, items]
  | paren t _ => simp [ParensAll, items, AllLevels]
  | un u t ih => simp [ParensAll, items, ih]
  | bin o l r ihl ihr =>
      simp only [ParensAll, items, ihl, ihr, List.mem_append, List.mem_cons, reduceCtorEq,
        false_or]
      exact ⟨fun h x hx => hx.elim (h.1 x) (h.2 x),
        fun h => ⟨fun x hx => h x (Or.inl hx), fun x hx => h x (Or.inr hx)⟩⟩

theorem allLevels_iff {Ok : OpTree ω α → Prop} (t : OpTree ω α) :
    AllLevels Ok t ↔ Ok t ∧ ∀ x, .operand (paren x) ∈ items t → AllLevels Ok x := by
  rw [AllLevels, parensAll_iff]

/-- What holds of a tree when it holds of its parentheses holds of every tree. -/
theorem level_induction {P : OpTree ω α → Prop}
    (step : ∀ t, (∀ x, .operand (paren x) ∈ items t → P x) → P t) (t : OpTree ω α) :
    P t := by
  have hparens : ParensAll P t := by
    induction t with
    | leaf a => trivial
    | paren t ih => exact ⟨step t fun x hx => ((parensAll_iff t).1 ih x hx).1, ih⟩
    | un u t ih => exact ih
    | bin o l r ihl ihr => exact ⟨ihl, ihr⟩
  exact step t fun x hx => ((parensAll_iff t).1 hparens x hx).1

theorem atom_cases {t x : OpTree ω α} (hx : .operand x ∈ items t) :
    (∃ a, x = leaf a) ∨ ∃ y, x = paren y := by
  induction t with
  | leaf a => exact Or.inl ⟨a, by simpa [items] using hx⟩
  | paren t _ => exact Or.inr ⟨t, by simpa [items] using hx⟩
  | un u t ih => exact ih (by simpa [items] using hx)
  | bin o l r ihl ihr =>
      rcases (by simpa [items] using hx :
          .operand x ∈ items l ∨ .operand x ∈ items r) with hx | hx
      · exact ihl hx
      · exact ihr hx

/-- What an evaluator with the results `read` gives for an operand of a row. -/
def atomRead (val : α → Option β) (read : OpTree ω α → Option β) : OpTree ω α → Option β
  | leaf a => val a
  | paren t => read t
  | _ => none

/-- On the trees of `W`, `read` answers the value of the tree that is built from
the row, and nothing where no tree is built. -/
def Reads (W : OpTree ω α → Prop) (Level : OpTree ω α → OpTree ω α → Prop)
    (I : Interp ω β) (val : α → Option β) (read : OpTree ω α → Option β) : Prop :=
  ∀ t, W t →
    (∃ t', Level t t' ∧ read t = evalLevel I (atomRead val read) t') ∨
      ((∀ t', ¬ Level t t') ∧ read t = none)

/-! ## The interpretation by leaves -/

/-- Every operator concatenates, so that a value is the list of the leaves. -/
def concat {γ : Type} : Interp ω (List γ) where
  un _ x := some x
  bin _ l r := some (l ++ r)

/-- The concatenation of the operands of a row. -/
def concatRow {γ : Type} (g : OpTree ω α → Option (List γ)) :
    List (Item ω α) → Option (List γ)
  | [] => some []
  | .op _ :: rest => concatRow g rest
  | .operand t :: rest => do return (← g t) ++ (← concatRow g rest)

theorem concatRow_append {γ : Type} (g : OpTree ω α → Option (List γ))
    (xs ys : List (Item ω α)) :
    concatRow g (xs ++ ys) = do return (← concatRow g xs) ++ (← concatRow g ys) := by
  induction xs with
  | nil => cases h : concatRow g ys <;> simp [concatRow, h]
  | cons x xs ih =>
      cases x with
      | op o => exact ih
      | operand t =>
          rw [List.cons_append, concatRow, concatRow, ih]
          cases g t <;> cases concatRow g xs <;> cases concatRow g ys <;> simp

/-- Over lists every tree of a row has the same value. -/
theorem evalLevel_concat {γ : Type} (g : OpTree ω α → Option (List γ)) (t : OpTree ω α) :
    evalLevel concat g t = concatRow g (items t) := by
  induction t with
  | leaf a => cases h : g (leaf a) <;> simp [evalLevel, items, concatRow, h]
  | paren t _ => cases h : g (paren t) <;> simp [evalLevel, items, concatRow, h]
  | un u t ih =>
      rw [evalLevel, ih, items, concatRow]
      cases concatRow g (items t) <;> rfl
  | bin o l r ihl ihr => rw [evalLevel, ihl, ihr, items, concatRow_append]; rfl

theorem eval_concat {γ : Type} (f : α → Option γ) (t : OpTree ω α) :
    OpTree.eval concat (fun a => (f a).map fun c => [c]) t = (leaves t).mapM f := by
  induction t with
  | leaf a => cases h : f a <;> simp [OpTree.eval, leaves, h]
  | paren t ih => exact ih
  | un u t ih =>
      rw [OpTree.eval, ih, leaves]
      cases (leaves t).mapM f <;> rfl
  | bin o l r ihl ihr =>
      rw [OpTree.eval, ihl, ihr, leaves, List.mapM_append]
      rfl

section Evaluator

variable {W : OpTree ω α → Prop} {Level : OpTree ω α → OpTree ω α → Prop}
  (hinner : ∀ t x, W t → .operand (paren x) ∈ items t → W x)

include hinner

/-- An evaluator that builds the tree itself computes its value. -/
theorem Reads.eval {I : Interp ω β} {val : α → Option β} {read : OpTree ω α → Option β}
    (hreads : Reads W Level I val read)
    (hunique : ∀ t t' t'', Level t t' → Level t t'' → t' = t'') (t : OpTree ω α) :
    W t → AllLevels (fun t => Level t t) t → read t = OpTree.eval I val t := by
  refine level_induction (P := fun t =>
    W t → AllLevels (fun t => Level t t) t → read t = OpTree.eval I val t) ?_ t
  intro t ih hw hok
  obtain ⟨hself, hparens⟩ := (allLevels_iff t).1 hok
  rcases hreads t hw with ⟨t', hlevel, hval⟩ | ⟨hnone, _⟩
  · obtain rfl := hunique t t t' hself hlevel
    rw [hval, ← evalLevel_eval]
    refine evalLevel_congr fun x hx => ?_
    rcases atom_cases hx with ⟨a, rfl⟩ | ⟨y, rfl⟩
    · rfl
    · exact ih y hx (hinner _ y hw hx) (hparens y hx)
  · exact absurd hself (hnone t)

/-- Whatever trees it builds, the evaluator meets the same leaves. -/
theorem Reads.concat {γ : Type} {val : α → Option (List γ)}
    {read : OpTree ω α → Option (List γ)} (hreads : Reads W Level concat val read)
    (hlevel : ∀ t, ∃ t', Level t t' ∧ items t' = items t)
    (hunique : ∀ t t' t'', Level t t' → Level t t'' → t' = t'') (t : OpTree ω α) :
    W t → read t = OpTree.eval OpTree.concat val t := by
  refine level_induction (P := fun t =>
    W t → read t = OpTree.eval OpTree.concat val t) ?_ t
  intro t ih hw
  obtain ⟨s, hs, hrow⟩ := hlevel t
  rcases hreads t hw with ⟨t', hlevel', hval⟩ | ⟨hnone, _⟩
  · obtain rfl := hunique t t' s hlevel' hs
    rw [hval, evalLevel_concat, hrow, ← evalLevel_concat, ← evalLevel_eval]
    refine evalLevel_congr fun x hx => ?_
    rcases atom_cases hx with ⟨a, rfl⟩ | ⟨y, rfl⟩
    · rfl
    · exact ih y hx (hinner _ y hw hx)
  · exact absurd hs (hnone s)

variable {read : OpTree ω α → Option (OpTree ω β)} {φ : α → β}
  (hitems : ∀ t t', Level t t' → items t' = items t)

include hitems

/-- Whatever trees it builds, the evaluator keeps the number of nodes. -/
theorem Reads.nodes (hreads : Reads W Level free (fun a => some (leaf (φ a))) read)
    (t : OpTree ω α) : W t → ∀ s, read t = some s → nodes s = nodes t := by
  refine level_induction (P := fun t =>
    W t → ∀ s, read t = some s → OpTree.nodes s = OpTree.nodes t) ?_ t
  intro t ih hw s hs
  rcases hreads t hw with ⟨t', hlevel, hval⟩ | ⟨_, hnone⟩
  · rw [hval] at hs
    obtain ⟨hgraft, hatoms⟩ := evalLevel_free_eq_some s hs
    have hrow := hitems t t' hlevel
    calc OpTree.nodes s = weight _ (items t) := by rw [hgraft, nodes_graft, hrow]
      _ = weight (erase φ) (items t) := by
          refine weight_congr fun x hx => ?_
          have hatom := hatoms x (hrow ▸ hx)
          rw [nodes_erase]
          rcases atom_cases hx with ⟨a, rfl⟩ | ⟨y, rfl⟩
          · rfl
          · exact ih y hx (hinner t y hw hx) _ hatom
      _ = OpTree.nodes t := by rw [← nodes_graft, graft_erase, nodes_erase]
  · rw [hnone] at hs
    exact absurd hs (Option.some_ne_none s).symm

/-- An evaluator that answers the tree itself, over trees, builds it back at
every level. -/
theorem Reads.allLevels (hreads : Reads W Level free (fun a => some (leaf (φ a))) read)
    (t : OpTree ω α) :
    W t → read t = some (erase φ t) → AllLevels (fun t => Level t t) t := by
  refine level_induction (P := fun t =>
    W t → read t = some (erase φ t) → AllLevels (fun t => Level t t) t) ?_ t
  intro t ih hw hs
  rcases hreads t hw with ⟨t', hlevel, hval⟩ | ⟨_, hnone⟩
  · rw [hval] at hs
    obtain ⟨hgraft, hatoms⟩ := evalLevel_free_eq_some (erase φ t) hs
    have hrow := hitems t t' hlevel
    rw [← graft_erase] at hgraft
    have hsame := graft_injective t' t [] [] (by rw [hrow])
      (fun x hx => by
        rw [List.append_nil] at hx
        have hatom := hatoms x hx
        rw [← graft_erase] at hatom
        rw [nodes_erase]
        rcases atom_cases hx with ⟨a, rfl⟩ | ⟨y, rfl⟩
        · rfl
        · exact hreads.nodes hinner hitems y (hinner t y hw (hrow ▸ hx)) _ hatom)
      hgraft.symm
    subst hsame
    refine (allLevels_iff t').2 ⟨hlevel, fun x hx => ih x hx (hinner t' x hw hx) ?_⟩
    have hatom := hatoms _ hx
    rw [← graft_erase, ← eq_of_graft_eq hgraft hx] at hatom
    exact hatom
  · rw [hnone] at hs
    exact absurd hs (Option.some_ne_none _).symm

end Evaluator

end OpTree

end Swig4Ada.Lib

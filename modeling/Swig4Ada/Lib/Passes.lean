import Swig4Ada.Lib.OpTree

/-!
# Reducing a row by one pass for each operator

The simplest evaluator of a row of operators and values walks the row once for
every operator, in a fixed order, and replaces each occurrence of that operator
and its two neighbours by a value. `passes` is that evaluator.

It needs no precedence table, because the order of the passes is one: the tree
it evaluates is the tree of the row under the ranking by position in that order
(`passes_tree`), with left association among equal operators since a pass goes
from left to right. `passes_eval` carries this from trees to values, where a
pass can also fail.
-/

namespace Swig4Ada.Lib

namespace OpTree

variable {ω α β γ : Type}

/-- The row of a chain of trees. -/
def rowItems (t : OpTree ω α) : List (ω × OpTree ω α) → List (Item ω α)
  | [] => items t
  | (o, u) :: rest => items t ++ .op o :: rowItems u rest

theorem rowItems_bin (p : ω) (t u : OpTree ω α) (rest : List (ω × OpTree ω α)) :
    rowItems (bin p t u) rest = items t ++ .op p :: rowItems u rest := by
  cases rest with
  | nil => simp [rowItems, items]
  | cons x rest => simp [rowItems, items]

variable [DecidableEq ω]

/-- One pass over the row `t, rest`: every `p` is replaced, from left to right,
by the value of `f` at its neighbours. -/
def pass (f : γ → γ → Option γ) (p : ω) : γ → List (ω × γ) → Option (γ × List (ω × γ))
  | t, [] => some (t, [])
  | t, (o, u) :: rest =>
      if o = p then do
        let v ← f t u
        pass f p v rest
      else do
        let (h, tl) ← pass f p u rest
        return (t, (o, h) :: tl)

/-- The passes in their order. -/
def passes (f : ω → γ → γ → Option γ) :
    List ω → γ → List (ω × γ) → Option (γ × List (ω × γ))
  | [], t, rest => some (t, rest)
  | p :: ps, t, rest => do
      let (t', rest') ← pass (f p) p t rest
      passes f ps t' rest'

/-- What one pass does to a chain of trees whose operators all rank below it. -/
theorem pass_tree {rank : ω → Nat} (p : ω) :
    ∀ (rest : List (ω × OpTree ω α)) (t : OpTree ω α),
      LevelGrouped rank t → (∀ q ∈ exposed t, rank q ≤ rank p) →
      (∀ x ∈ rest, LevelGrouped rank x.2 ∧ ∀ q ∈ exposed x.2, rank q < rank p) →
      ∃ t' rest',
        pass (fun l r => some (bin p l r)) p t rest = some (t', rest') ∧
        rowItems t' rest' = rowItems t rest ∧
        LevelGrouped rank t' ∧ (∀ q ∈ exposed t', rank q ≤ rank p) ∧
        (∀ x ∈ rest', LevelGrouped rank x.2 ∧ ∀ q ∈ exposed x.2, rank q ≤ rank p) ∧
        ∀ x ∈ rest', x.1 ≠ p ∧ x.1 ∈ rest.map Prod.fst := by
  intro rest
  induction rest with
  | nil =>
      intro t hlg hexp _
      exact ⟨t, [], rfl, rfl, hlg, hexp, by simp, by simp⟩
  | cons x rest ih =>
      intro t hlg hexp hrest
      obtain ⟨o, u⟩ := x
      obtain ⟨hlu, hxu⟩ := hrest (o, u) List.mem_cons_self
      have hrest' := fun x hx => hrest x (List.mem_cons_of_mem _ hx)
      by_cases ho : o = p
      · subst ho
        have hbin : LevelGrouped rank (bin o t u) := ⟨hexp, hxu, hlg, hlu⟩
        have hbexp : ∀ q ∈ exposed (bin o t u), rank q ≤ rank o := by
          intro q hq
          rcases List.mem_append.1 hq with hq | hq
          · exact hexp q hq
          · rcases List.mem_cons.1 hq with rfl | hq
            · exact Nat.le_refl _
            · exact Nat.le_of_lt (hxu q hq)
        obtain ⟨t', rest', heq, hrow, h1, h2, h3, h4⟩ := ih _ hbin hbexp hrest'
        refine ⟨t', rest', ?_, ?_, h1, h2, h3, fun x hx => ⟨(h4 x hx).1, ?_⟩⟩
        · rw [pass, if_pos rfl]
          exact heq
        · rw [hrow, rowItems_bin, rowItems]
        · exact List.mem_cons_of_mem _ (h4 x hx).2
      · obtain ⟨u', rest', heq, hrow, h1, h2, h3, h4⟩ :=
          ih u hlu (fun q hq => Nat.le_of_lt (hxu q hq)) hrest'
        refine ⟨t, (o, u') :: rest', ?_, ?_, hlg, hexp, ?_, ?_⟩
        · rw [pass, if_neg ho, heq]
          rfl
        · rw [rowItems, rowItems, hrow]
        · intro x hx
          rcases List.mem_cons.1 hx with rfl | hx
          · exact ⟨h1, h2⟩
          · exact h3 x hx
        · intro x hx
          rcases List.mem_cons.1 hx with rfl | hx
          · exact ⟨ho, by simp⟩
          · exact ⟨(h4 x hx).1, List.mem_cons_of_mem _ (h4 x hx).2⟩

/-- Passes over all the operators of a row, in the order of their ranks, leave
the tree of the row that is grouped by rank. -/
theorem passes_tree (rank : ω → Nat) (ps : List ω) :
    ∀ (t : OpTree ω α) (rest : List (ω × OpTree ω α)),
      ps.Pairwise (fun p q => rank p < rank q) →
      (∀ x ∈ rest, x.1 ∈ ps) →
      LevelGrouped rank t → (∀ p ∈ ps, ∀ q ∈ exposed t, rank q < rank p) →
      (∀ x ∈ rest, LevelGrouped rank x.2 ∧
        ∀ p ∈ ps, ∀ q ∈ exposed x.2, rank q < rank p) →
      ∃ t', passes (fun p l r => some (bin p l r)) ps t rest = some (t', []) ∧
        items t' = rowItems t rest ∧ LevelGrouped rank t' := by
  induction ps with
  | nil =>
      intro t rest _ hops hlg _ _
      cases rest with
      | nil => exact ⟨t, rfl, rfl, hlg⟩
      | cons x rest => exact absurd (hops x List.mem_cons_self) List.not_mem_nil
  | cons p ps ih =>
      intro t rest hsorted hops hlg hexp hrest
      obtain ⟨hp, hps⟩ := List.pairwise_cons.1 hsorted
      obtain ⟨t', rest', heq, hrow, h1, h2, h3, h4⟩ := pass_tree p rest t hlg
        (fun q hq => Nat.le_of_lt (hexp p List.mem_cons_self q hq))
        (fun x hx => ⟨(hrest x hx).1, (hrest x hx).2 p List.mem_cons_self⟩)
      have hops' : ∀ x ∈ rest', x.1 ∈ ps := by
        intro x hx
        obtain ⟨y, hy, hyx⟩ := List.mem_map.1 (h4 x hx).2
        have := hops y hy
        rw [hyx] at this
        exact (List.mem_cons.1 this).resolve_left (h4 x hx).1
      obtain ⟨t'', heq', hrow', hlg'⟩ := ih t' rest' hps hops' h1
        (fun q hq r hr => Nat.lt_of_le_of_lt (h2 r hr) (hp q hq))
        (fun x hx => ⟨(h3 x hx).1,
          fun q hq r hr => Nat.lt_of_le_of_lt ((h3 x hx).2 r hr) (hp q hq)⟩)
      refine ⟨t'', ?_, by rw [hrow', hrow], hlg'⟩
      rw [passes, heq]
      exact heq'

/-! ## From trees to values -/

/-- The values `h` of the entries of a chain. -/
def traverseRow {ξ : Type} (h : ξ → Option β) : List (ω × ξ) → Option (List (ω × β))
  | [] => some []
  | (o, u) :: rest => do
      let v ← h u
      let vs ← traverseRow h rest
      return (o, v) :: vs

theorem pass_eval {I : Interp ω β} {h : OpTree ω α → Option β}
    (hbin : ∀ p l r, h (bin p l r) = do I.bin p (← h l) (← h r)) (p : ω) :
    ∀ (rest rest' : List (ω × OpTree ω α)) (t t' : OpTree ω α),
      pass (fun l r => some (bin p l r)) p t rest = some (t', rest') →
      (do let v ← h t'; let vs ← traverseRow h rest'; some (v, vs)) =
        (do let v ← h t; let vs ← traverseRow h rest; pass (I.bin p) p v vs) := by
  intro rest
  induction rest with
  | nil =>
      intro rest' t t' heq
      obtain ⟨rfl, rfl⟩ : t = t' ∧ rest' = [] := by simpa [pass, eq_comm] using heq
      rfl
  | cons x rest ih =>
      intro rest' t t' heq
      obtain ⟨o, u⟩ := x
      by_cases ho : o = p
      · subst ho
        rw [pass, if_pos rfl] at heq
        rw [ih rest' _ t' heq, hbin, traverseRow]
        cases h t <;> cases h u <;> cases traverseRow h rest <;> simp [pass]
      · rw [pass, if_neg ho] at heq
        obtain ⟨⟨u', tl⟩, hpass, heq⟩ := Option.bind_eq_some_iff.1 heq
        obtain ⟨rfl, rfl⟩ : t = t' ∧ (o, u') :: tl = rest' := by simpa using heq
        have := (ih tl u u' hpass).symm
        rw [traverseRow, traverseRow]
        cases hu : h u <;> cases hr : traverseRow h rest <;>
          cases hu' : h u' <;> cases hr' : traverseRow h tl <;>
          simp_all [pass]

/-- The passes over the values of a row compute the value of the tree that the
passes over the row itself build. -/
theorem passes_eval {I : Interp ω β} {h : OpTree ω α → Option β}
    (hbin : ∀ p l r, h (bin p l r) = do I.bin p (← h l) (← h r)) (ps : List ω) :
    ∀ (rest rest' : List (ω × OpTree ω α)) (t t' : OpTree ω α),
      passes (fun p l r => some (bin p l r)) ps t rest = some (t', rest') →
      (do let v ← h t'; let vs ← traverseRow h rest'; some (v, vs)) =
        (do let v ← h t; let vs ← traverseRow h rest; passes I.bin ps v vs) := by
  induction ps with
  | nil =>
      intro rest rest' t t' heq
      obtain ⟨rfl, rfl⟩ : t = t' ∧ rest = rest' := by simpa [passes] using heq
      rfl
  | cons p ps ih =>
      intro rest rest' t t' heq
      rw [passes] at heq
      obtain ⟨⟨t₁, rest₁⟩, hpass, hrest⟩ := Option.bind_eq_some_iff.1 heq
      rw [ih rest₁ rest' t₁ t' hrest]
      have hstep := (pass_eval hbin p rest rest₁ t t₁ hpass).symm
      cases ht : h t <;> cases hr : traverseRow h rest <;>
        cases ht₁ : h t₁ <;> cases hr₁ : traverseRow h rest₁ <;>
        simp_all [passes]

/-! ## One reduction at a time -/

/-- The first reduction of a pass: `none` inside when the row has no `p`. -/
def passOnce (f : γ → γ → Option γ) (p : ω) :
    γ → List (ω × γ) → Option (Option (γ × List (ω × γ)))
  | _, [] => some none
  | t, (o, u) :: rest =>
      if o = p then do
        let v ← f t u
        return some (v, rest)
      else do
        let found ← passOnce f p u rest
        return found.map fun x => (t, (o, x.1) :: x.2)

/-- A pass that starts again after every reduction is the same pass. -/
theorem pass_eq_passOnce (f : γ → γ → Option γ) (p : ω) :
    ∀ (rest : List (ω × γ)) (t : γ),
      pass f p t rest =
        (do match ← passOnce f p t rest with
            | none => some (t, rest)
            | some (t', rest') => pass f p t' rest') := by
  intro rest
  induction rest with
  | nil => intro t; rfl
  | cons x rest ih =>
      intro t
      obtain ⟨o, u⟩ := x
      by_cases ho : o = p
      · rw [pass, passOnce, if_pos ho, if_pos ho]
        cases f t u <;> rfl
      · rw [pass, passOnce, if_neg ho, if_neg ho, ih u]
        cases passOnce f p u rest with
        | none => rfl
        | some found =>
            cases found with
            | none => rfl
            | some y =>
                simp only [Option.bind_eq_bind, Option.bind_some, Option.map_some,
                  Option.pure_def]
                rw [pass, if_neg ho]
                rfl

theorem passOnce_length {f : γ → γ → Option γ} {p : ω} :
    ∀ {rest : List (ω × γ)} {t t' : γ} {rest' : List (ω × γ)},
      passOnce f p t rest = some (some (t', rest')) →
      rest'.length + 1 = rest.length := by
  intro rest
  induction rest with
  | nil => intro t t' rest' h; simp [passOnce] at h
  | cons x rest ih =>
      intro t t' rest' h
      obtain ⟨o, u⟩ := x
      rw [passOnce] at h
      split at h
      · obtain ⟨v, _, h⟩ := Option.bind_eq_some_iff.1 h
        obtain ⟨_, rfl⟩ : v = t' ∧ rest = rest' := by simpa using h
        rfl
      · obtain ⟨found, hfound, h⟩ := Option.bind_eq_some_iff.1 h
        cases found with
        | none => simp at h
        | some y =>
            obtain ⟨y₁, y₂⟩ := y
            obtain ⟨_, rfl⟩ : t = t' ∧ (o, y₁) :: y₂ = rest' := by simpa using h
            simp [← ih hfound]

end OpTree

end Swig4Ada.Lib

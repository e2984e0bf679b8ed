import Swig4Ada.Lib.Saturation
import Swig4Ada.Ada.Prune

/-!
# What pruning keeps, and which functions it loses

The saturation is right: the list the `while` loop ends with is the least set
that contains the unknown types and is closed under `depends_directly_on`. The
deletions of types and variables are right too, one per offender.

The functions are another matter. Every reason against a function is one
`delete` at the function's index, and after the first of them the index holds
the function that came next. `survivors` says what the whole loop does: a
function with `n + 1` reasons takes the `n` survivors after it along. No
exception stops this, because deleting at the position after the last is legal.
So the result is what it should be exactly when nothing good follows a function
with two reasons or more.
-/

namespace Swig4Ada.Ada

open Swig4Ada.Lib

variable {τ φ : Type} [DecidableEq τ] [DecidableEq φ]

/-- The least set of C types that has the unknown ones and is closed under
`depends_directly_on`. -/
def NotFullyKnown (heap : Heap τ φ) (types : List τ) : τ → Prop :=
  Least (· ∈ types) (fun t => isUnknown heap t = true)
    (fun t u => dependsDirectlyOn heap t (.type u) = true)

/-! ## The saturation -/

/-- The inner loop appends one copy of `each` for every known entry that it
depends on, and counts the copies. -/
theorem foldl_append_each (heap : Heap τ φ) (each : τ) :
    ∀ (found : List τ) (acc : Nat × List τ), ∃ n,
      found.foldl
        (fun acc known =>
          if dependsDirectlyOn heap each (.type known) then
            (acc.1 + 1, acc.2 ++ [each])
          else acc) acc = (acc.1 + n, acc.2 ++ List.replicate n each) ∧
      (n = 0 ↔ ∀ u ∈ found, dependsDirectlyOn heap each (.type u) = false) := by
  intro found
  induction found with
  | nil => intro acc; exact ⟨0, by simp⟩
  | cons u rest ih =>
      intro acc
      by_cases hu : dependsDirectlyOn heap each (.type u) = true
      · obtain ⟨n, heq, _⟩ := ih (acc.1 + 1, acc.2 ++ [each])
        refine ⟨n + 1, ?_, by simp [hu]⟩
        rw [List.foldl_cons, if_pos hu, heq, List.replicate_succ]
        simp only [List.append_assoc, List.cons_append, List.nil_append, Prod.mk.injEq,
          and_true]
        omega
      · obtain ⟨n, heq, hn⟩ := ih acc
        refine ⟨n, ?_, by simp [hn, hu]⟩
        rw [List.foldl_cons, if_neg hu, heq]

/-- Examining one type: nothing happens unless it is new and depends on a known
entry, and then the count rises and only copies of it are appended. -/
theorem examine_cases (heap : Heap τ φ) (state : Nat × List τ) (each : τ) :
    (examine heap state each = state ∧
        (each ∈ state.2 ∨
          ∀ u ∈ state.2, dependsDirectlyOn heap each (.type u) = false)) ∨
      (each ∉ state.2 ∧ ∃ u ∈ state.2, dependsDirectlyOn heap each (.type u) = true ∧
        ∃ n, 0 < n ∧ examine heap state each =
          (state.1 + n, state.2 ++ List.replicate n each)) := by
  unfold examine
  by_cases hmem : each ∈ state.2
  · rw [if_pos hmem]
    exact Or.inl ⟨rfl, Or.inl hmem⟩
  · rw [if_neg hmem]
    obtain ⟨n, heq, hn⟩ := foldl_append_each heap each state.2 state
    rw [heq]
    rcases Nat.eq_zero_or_pos n with hz | hpos
    · subst hz
      exact Or.inl ⟨by simp, Or.inr (hn.1 rfl)⟩
    · have hdep : ¬ ∀ u ∈ state.2, dependsDirectlyOn heap each (.type u) = false :=
        fun h => absurd (hn.2 h) (by omega)
      simp only [not_forall, Bool.not_eq_false] at hdep
      obtain ⟨u, hu, hdep⟩ := hdep
      exact Or.inr ⟨hmem, u, hu, hdep, n, hpos, rfl⟩

/-- A sweep over a part of the name map: it only adds, what it adds is
justified, and a sweep that counted nothing left nothing to add. -/
theorem foldl_examine_spec (heap : Heap τ φ) {types : List τ} :
    ∀ (part : List τ) (state : Nat × List τ), part ⊆ types →
      (∀ t ∈ state.2, NotFullyKnown heap types t) →
      state.2 ⊆ (part.foldl (examine heap) state).2 ∧
        (∀ t ∈ (part.foldl (examine heap) state).2, NotFullyKnown heap types t) ∧
        state.1 ≤ (part.foldl (examine heap) state).1 ∧
        ((part.foldl (examine heap) state).1 = state.1 →
          (part.foldl (examine heap) state).2 = state.2 ∧
            ∀ t ∈ part, ∀ u ∈ state.2, dependsDirectlyOn heap t (.type u) = true →
              t ∈ state.2) ∧
        (state.1 < (part.foldl (examine heap) state).1 →
          ∃ t ∈ types, t ∉ state.2 ∧ t ∈ (part.foldl (examine heap) state).2) := by
  intro part
  induction part with
  | nil =>
      intro state _ hsound
      simp only [List.foldl_nil]
      exact ⟨fun _ h => h, hsound, Nat.le_refl _, fun _ => ⟨by simp, by simp⟩,
        fun h => absurd h (Nat.lt_irrefl _)⟩
  | cons each rest ih =>
      intro state hsub hsound
      obtain ⟨heach, hrest⟩ := List.cons_subset.1 hsub
      simp only [List.foldl_cons]
      rcases examine_cases heap state each with
        ⟨heq, hold⟩ | ⟨hnew, u, hu, hdep, n, hn, heq⟩
      · obtain ⟨h1, h2, h3, h4, h5⟩ := ih state hrest hsound
        rw [heq]
        refine ⟨h1, h2, h3, fun hc => ⟨(h4 hc).1, ?_⟩, h5⟩
        intro t ht u hu hdep
        rcases List.mem_cons.1 ht with rfl | ht
        · rcases hold with hold | hold
          · exact hold
          · exact absurd hdep (by simp [hold u hu])
        · exact (h4 hc).2 t ht u hu hdep
      · have hsound' : ∀ t ∈ state.2 ++ List.replicate n each,
            NotFullyKnown heap types t := by
          intro t ht
          rcases List.mem_append.1 ht with ht | ht
          · exact hsound t ht
          · rw [List.eq_of_mem_replicate ht]
            exact Least.step heach hdep (hsound u hu)
        obtain ⟨h1, h2, h3, _, _⟩ := ih (state.1 + n, _) hrest hsound'
        rw [heq]
        have hmem : each ∈ state.2 ++ List.replicate n each :=
          List.mem_append_right _ (List.mem_replicate.2 ⟨by omega, rfl⟩)
        refine ⟨fun t ht => h1 (List.mem_append_left _ ht), h2, ?_, ?_, ?_⟩
        · exact Nat.le_trans (Nat.le_add_right _ _) h3
        · intro hc
          have : state.1 + n ≤ state.1 := Nat.le_trans h3 (Nat.le_of_eq hc)
          omega
        · exact fun _ => ⟨each, heach, hnew, h1 hmem⟩

/-- The loop ends within the types still missing, and what it ends with is the
least set. -/
theorem saturate_spec (heap : Heap τ φ) {types : List τ} :
    ∀ (fuel count : Nat) (known : List τ), missing types known < fuel →
      (∀ t ∈ known, NotFullyKnown heap types t) →
      (∀ t ∈ types, isUnknown heap t = true → t ∈ known) →
      (count = 0 → ∀ t ∈ types, ∀ u ∈ known,
        dependsDirectlyOn heap t (.type u) = true → t ∈ known) →
      ∃ known', saturate heap types fuel (count, known) = some known' ∧
        ∀ t, t ∈ known' ↔ NotFullyKnown heap types t := by
  intro fuel
  induction fuel with
  | zero => intro count known hf; exact absurd hf (Nat.not_lt_zero _)
  | succ fuel ih =>
      intro count known hf hsound hseed hclosed
      cases count with
      | zero =>
          refine ⟨known, by rw [saturate], ?_⟩
          exact mem_iff_least_of_saturated hsound hseed
            fun t u ht hd hu => hclosed rfl t ht u hu hd
      | succ count =>
          rw [saturate]
          obtain ⟨hgrow, hsound', _, hstop, hnew⟩ :=
            foldl_examine_spec heap types (0, known) (fun _ h => h) hsound
          rw [← sweep] at hgrow hsound' hstop hnew
          rcases Nat.eq_zero_or_pos (sweep heap types known).1 with hz | hpos
          · obtain ⟨heq, hdeps⟩ := hstop hz
            refine ⟨known, ?_, mem_iff_least_of_saturated hsound hseed
              fun t u ht hd hu => hdeps t ht u hu hd⟩
            rw [show sweep heap types known = (0, known) from Prod.ext hz heq, saturate]
          · obtain ⟨t, ht, hold, hin⟩ := hnew hpos
            have hlt := missing_lt hgrow ht hold hin
            exact ih (sweep heap types known).1 (sweep heap types known).2
              (Nat.lt_of_lt_of_le hlt (Nat.le_of_lt_succ hf)) hsound'
              (fun t ht hs => hgrow (hseed t ht hs)) fun hz => absurd hz (Nat.ne_of_gt hpos)

/-- `not_fully_known_Types` is the least set. -/
theorem notFullyKnownTypes_spec (heap : Heap τ φ) (types : List τ) :
    ∃ known, notFullyKnownTypes heap types = some known ∧
      ∀ t, t ∈ known ↔ NotFullyKnown heap types t := by
  refine saturate_spec heap _ _ _
    (Nat.lt_succ_of_le (missing_le_length _ _)) ?_ ?_ ?_
  · intro t ht
    obtain ⟨hmem, hunk⟩ := List.mem_filter.1 ht
    exact Least.seed hmem hunk
  · exact fun t ht hunk => List.mem_filter.2 ⟨ht, hunk⟩
  · -- Without an unknown type the loop does not start, and nothing is known.
    intro hz t _ u hu
    rw [List.eq_nil_of_length_eq_zero hz] at hu
    exact absurd hu (List.not_mem_nil)

/-! ## The deletions -/

theorem vectorElement_at {α : Type} (pre post : List α) (x : α) :
    vectorElement (pre ++ x :: post) (pre.length + 1) = .ok x := by
  simp [vectorElement]

/-- Deleting at a position drops what is there, and is legal one past the end. -/
theorem vectorDelete_at {α : Type} (pre post : List α) :
    vectorDelete (pre ++ post) (pre.length + 1) = .ok (pre ++ post.tail) := by
  rw [vectorDelete, if_pos (by simp)]
  simp [List.eraseIdx_append_of_length_le]

theorem pruneTypes_eq_diff (notFullyKnown : List τ) :
    ∀ newCTypes, pruneTypes notFullyKnown newCTypes =
      .ok (newCTypes.diff notFullyKnown) := by
  unfold pruneTypes
  induction notFullyKnown with
  | nil => intro newCTypes; rfl
  | cons each rest ih =>
      intro newCTypes
      have hdel : (let i := vectorFindIndex newCTypes each
          if i ≠ 0 then vectorDelete newCTypes i else .ok newCTypes) =
          .ok (newCTypes.erase each) := by
        unfold vectorFindIndex
        by_cases hmem : each ∈ newCTypes
        · have hlt := List.idxOf_lt_length_iff.2 hmem
          simp only [if_pos hmem]
          rw [if_pos (Nat.succ_ne_zero _), vectorDelete, if_pos ⟨by omega, by omega⟩]
          rw [Nat.add_sub_cancel, List.erase_eq_eraseIdx_of_idxOf rfl]
        · simp [if_neg hmem, List.erase_of_not_mem hmem]
      rw [List.foldlM_cons, hdel, List.diff_cons]
      exact ih (newCTypes.erase each)

theorem pruneVariables_append (notFullyKnown : List τ) (pre : List (Typed τ)) :
    ∀ post, pruneVariables notFullyKnown pre.length (pre ++ post) =
      .ok (pre.filter (fun v => v.myType ∉ notFullyKnown) ++ post) := by
  induction pre using List.reverseRecOn with
  | nil => intro post; rfl
  | append_singleton pre v ih =>
      intro post
      rw [List.length_append, List.length_singleton, List.append_assoc,
        List.singleton_append, pruneVariables, vectorElement_at]
      by_cases hbad : v.myType ∈ notFullyKnown
      · have := vectorDelete_at pre (v :: post)
        simp [hbad, this, ih, bind, Except.bind]
      · simp [hbad, ih, bind, Except.bind]

/-- The types a function mentions: its return type, then its parameters'. -/
def CFunction.signature (f : CFunction τ) : List τ :=
  f.returnType :: f.parameters.map (·.myType)

theorem foldlM_delete (notFullyKnown : List τ) (pre : List (CFunction τ))
    (parameters : List (Typed τ)) :
    ∀ post, parameters.foldlM
        (fun functions each =>
          if each.myType ∈ notFullyKnown then
            vectorDelete functions (pre.length + 1)
          else .ok functions) (pre ++ post) =
      .ok (pre ++ post.drop
        ((parameters.map (·.myType)).countP (· ∈ notFullyKnown))) := by
  induction parameters with
  | nil => intro post; rfl
  | cons each rest ih =>
      intro post
      rw [List.foldlM_cons, List.map_cons, List.countP_cons]
      by_cases hbad : each.myType ∈ notFullyKnown
      · rw [if_pos hbad, vectorDelete_at]
        simp only [bind, Except.bind]
        rw [ih]
        simp [hbad, List.drop_tail]
      · rw [if_neg hbad]
        simp only [bind, Except.bind]
        rw [ih]
        simp [hbad]

/-- What one function costs: a deletion at its index for every reason. -/
theorem pruneFunction_at (notFullyKnown : List τ) (f : CFunction τ)
    (pre post : List (CFunction τ)) :
    pruneFunction notFullyKnown (pre.length + 1) f (pre ++ post) =
      .ok (pre ++ post.drop (f.signature.countP (· ∈ notFullyKnown))) := by
  unfold pruneFunction CFunction.signature
  by_cases hbad : f.returnType ∈ notFullyKnown
  · rw [if_pos hbad, vectorDelete_at]
    simp only [bind, Except.bind]
    rw [foldlM_delete, List.countP_cons]
    simp [hbad, List.drop_tail]
  · rw [if_neg hbad]
    simp only [bind, Except.bind]
    rw [foldlM_delete, List.countP_cons]
    simp [hbad]

/-- What the loop over the functions leaves, when each has `cost` reasons. -/
def survivors {α : Type} (cost : α → Nat) : List α → List α
  | [] => []
  | f :: rest => (f :: survivors cost rest).drop (cost f)

theorem pruneFunctions_append (notFullyKnown : List τ) (pre : List (CFunction τ)) :
    ∀ post, pruneFunctions notFullyKnown pre.length (pre ++ post) =
      .ok (pre.foldr
        (fun f rest => (f :: rest).drop (f.signature.countP (· ∈ notFullyKnown)))
        post) := by
  induction pre using List.reverseRecOn with
  | nil => intro post; rfl
  | append_singleton pre f ih =>
      intro post
      rw [List.length_append, List.length_singleton, List.append_assoc,
        List.singleton_append, pruneFunctions, vectorElement_at]
      have := pruneFunction_at notFullyKnown f pre (f :: post)
      simp [this, ih, bind, Except.bind]

theorem survivors_eq_foldr {α : Type} (cost : α → Nat) (fs : List α) :
    survivors cost fs = fs.foldr (fun f rest => (f :: rest).drop (cost f)) [] := by
  induction fs with
  | nil => rfl
  | cons f rest ih => rw [survivors, ih, List.foldr_cons]

theorem pruneFunctions_eq_survivors (notFullyKnown : List τ)
    (fs : List (CFunction τ)) :
    pruneFunctions notFullyKnown fs.length fs =
      .ok (survivors (fun f => f.signature.countP (· ∈ notFullyKnown)) fs) := by
  have h := pruneFunctions_append notFullyKnown fs []
  rwa [List.append_nil, ← survivors_eq_foldr] at h

/-! ## Who survives -/

theorem survivors_sublist {α : Type} (cost : α → Nat) (fs : List α) :
    (survivors cost fs).Sublist (fs.filter fun f => cost f = 0) := by
  induction fs with
  | nil => exact List.Sublist.refl _
  | cons f rest ih =>
      rw [survivors]
      by_cases hz : cost f = 0
      · rw [hz, List.drop_zero, List.filter_cons_of_pos (by simpa using hz)]
        exact ih.cons_cons f
      · obtain ⟨n, hn⟩ := Nat.exists_eq_succ_of_ne_zero hz
        rw [hn, List.drop_succ_cons, List.filter_cons_of_neg (by simpa using hz)]
        exact (List.drop_sublist n _).trans ih

/-- The loop keeps exactly the functions without a reason, unless one of them
follows a function with two reasons or more. -/
theorem survivors_eq_filter_iff {α : Type} (cost : α → Nat) (fs : List α) :
    survivors cost fs = fs.filter (fun f => cost f = 0) ↔
      fs.Pairwise fun f g => 2 ≤ cost f → cost g ≠ 0 := by
  induction fs with
  | nil => simp [survivors]
  | cons f rest ih =>
      have hsub := survivors_sublist cost rest
      rw [survivors, List.pairwise_cons, ← ih]
      rcases Nat.lt_or_ge 0 (cost f) with hpos | hz
      · obtain ⟨n, hn⟩ := Nat.exists_eq_succ_of_ne_zero (Nat.ne_of_gt hpos)
        rw [hn, List.drop_succ_cons,
          List.filter_cons_of_neg (by simp [hn])]
        rcases Nat.eq_zero_or_pos n with hn0 | hnpos
        · -- One reason: the function itself goes, and nobody with it.
          subst hn0
          rw [List.drop_zero]
          exact ⟨fun h => ⟨fun _ _ h2 => absurd h2 (by omega), h⟩, fun h => h.2⟩
        · constructor
          · intro h
            have hlen := congrArg List.length h
            rw [List.length_drop] at hlen
            have hle := hsub.length_le
            have hnil : rest.filter (fun f => cost f = 0) = [] :=
              List.eq_nil_of_length_eq_zero (by omega)
            refine ⟨fun g hg _ => ?_, hsub.eq_of_length (by omega)⟩
            simpa using List.filter_eq_nil_iff.1 hnil g hg
          · rintro ⟨hall, heq⟩
            have hnil : rest.filter (fun f => cost f = 0) = [] :=
              List.filter_eq_nil_iff.2 fun g hg => by
                simpa using hall g hg (by omega)
            rw [heq, hnil, List.drop_nil]
      · have hz : cost f = 0 := by omega
        rw [hz, List.drop_zero, List.filter_cons_of_pos (by simpa using hz)]
        simp

/-! ## The pruned module -/

open Classical in
/-- How many of the types a function mentions are not fully known. -/
noncomputable def offences (heap : Heap τ φ) (types : List τ) (f : CFunction τ) : Nat :=
  f.signature.countP fun t => decide (NotFullyKnown heap types t)

/-- A function that may stay: no type it mentions is in the least set. -/
def FullyKnown (heap : Heap τ φ) (types : List τ) (f : CFunction τ) : Prop :=
  ∀ t ∈ f.signature, ¬ NotFullyKnown heap types t

theorem offences_eq_zero {heap : Heap τ φ} {types : List τ} {f : CFunction τ} :
    offences heap types f = 0 ↔ FullyKnown heap types f := by
  simp [offences, FullyKnown, List.countP_eq_zero]

/-- What a run of the procedure leaves, in terms of the least set: the types
without the members of the set, the variables whose type is outside it, and
the functions as the loop over them treats their offences. It always ends, and
no exception is raised. -/
theorem pruneUnknownCTypes_ok (heap : Heap τ φ) (types : List τ)
    (moduleTop : CModule τ) :
    ∃ known, (∀ t, t ∈ known ↔ NotFullyKnown heap types t) ∧
      pruneUnknownCTypes heap types moduleTop = some (.ok
        { newCTypes := moduleTop.newCTypes.diff known
          newCVariables :=
            moduleTop.newCVariables.filter fun v => v.myType ∉ known
          newCFunctions :=
            survivors (offences heap types) moduleTop.newCFunctions }) := by
  obtain ⟨known, hsome, hknown⟩ := notFullyKnownTypes_spec heap types
  refine ⟨known, hknown, ?_⟩
  have hvars := pruneVariables_append known moduleTop.newCVariables []
  simp only [List.append_nil] at hvars
  have hcost : (fun f : CFunction τ => f.signature.countP (· ∈ known)) =
      offences heap types := by
    funext f
    exact List.countP_congr fun t _ => by simp [hknown t]
  unfold pruneUnknownCTypes
  rw [hsome, Option.map_some, pruneTypes_eq_diff]
  simp only [bind, Except.bind]
  rw [hvars, pruneFunctions_eq_survivors, hcost]
  rfl

open Classical in
/-- The functions left are the fully known ones, in their order, if and only if
no fully known function follows one with two offences or more. -/
theorem pruneUnknownCTypes_functions_iff (heap : Heap τ φ) (types : List τ)
    (moduleTop : CModule τ) :
    (∃ pruned, pruneUnknownCTypes heap types moduleTop = some (.ok pruned) ∧
        pruned.newCFunctions =
          moduleTop.newCFunctions.filter fun f => FullyKnown heap types f) ↔
      moduleTop.newCFunctions.Pairwise fun f g =>
        2 ≤ offences heap types f → ¬ FullyKnown heap types g := by
  obtain ⟨known, _, hrun⟩ := pruneUnknownCTypes_ok heap types moduleTop
  have hfilter : (moduleTop.newCFunctions.filter fun f => FullyKnown heap types f) =
      moduleTop.newCFunctions.filter fun f => offences heap types f = 0 := by
    simp only [offences_eq_zero]
  have hsurv := survivors_eq_filter_iff (offences heap types) moduleTop.newCFunctions
  rw [← hfilter] at hsurv
  simp only [ne_eq, offences_eq_zero] at hsurv
  rw [← hsurv]
  constructor
  · rintro ⟨pruned, hpruned, hfns⟩
    rw [hrun] at hpruned
    rw [← hfns, ← Except.ok.inj (Option.some.inj hpruned)]
  · exact fun h => ⟨_, hrun, h⟩

/-- The type `true` is unknown, the type `false` is not. -/
def unknownTwiceHeap : Heap Bool Empty
  | true => .unknown
  | false => .standardCType

/-- The two functions `true f (true x)` and `false g ()`. -/
def unknownTwice : CModule Bool where
  newCTypes := [true, false]
  newCVariables := []
  newCFunctions := [⟨"f", [⟨"x", true⟩], true⟩, ⟨"g", [], false⟩]

/-- Unknown as return type and as parameter type, `f` is deleted twice, and the
second time it is `g` that goes. -/
theorem pruneUnknownCTypes_loses_function :
    FullyKnown unknownTwiceHeap [true, false] ⟨"g", [], false⟩ ∧
      pruneUnknownCTypes unknownTwiceHeap [true, false] unknownTwice =
        some (.ok { newCTypes := [false], newCVariables := [], newCFunctions := [] }) := by
  refine ⟨?_, by rfl⟩
  intro t ht hbad
  have hfalse : t = false := by simpa [CFunction.signature] using ht
  subst hfalse
  cases hbad with
  | seed _ hunk => exact absurd hunk (by decide)
  | step _ hdep _ => exact absurd hdep (by simp [dependsDirectlyOn, unknownTwiceHeap])

end Swig4Ada.Ada

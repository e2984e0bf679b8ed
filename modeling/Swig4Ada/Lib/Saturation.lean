import Mathlib

/-!
# Least sets, and the loops that saturate a list up to one

A set given by seeds and by a dependency relation has a least closed member,
and a program usually computes it by sweeping a list of known members until a
sweep adds nothing. The facts here are the ones such a loop needs: what it adds
is justified (`Least.step`), what it stops on is everything
(`mem_iff_least_of_saturated`), and it does stop, because every productive
sweep lowers `missing`, the number of members of the universe not known yet.
-/

namespace Swig4Ada.Lib

variable {τ : Type}

/-- The least set that contains `seed` and, inside the universe `univ`, every
member with a `dep` on a member of the set. -/
inductive Least (univ seed : τ → Prop) (dep : τ → τ → Prop) : τ → Prop
  | seed {t : τ} : univ t → seed t → Least univ seed dep t
  | step {t u : τ} : univ t → dep t u → Least univ seed dep u →
      Least univ seed dep t

/-- Leastness: any set with the seeds that is closed under `dep` contains it. -/
theorem Least.subset_closed {univ seed : τ → Prop} {dep : τ → τ → Prop}
    {S : τ → Prop} (hseed : ∀ t, univ t → seed t → S t)
    (hstep : ∀ t u, univ t → dep t u → S u → S t) {t : τ}
    (h : Least univ seed dep t) : S t := by
  induction h with
  | seed hu hs => exact hseed _ hu hs
  | step hu hd _ ih => exact hstep _ _ hu hd ih

/-- A list of justified members that has the seeds and that no dependency
leaves is the least set. -/
theorem mem_iff_least_of_saturated {univ seed : τ → Prop} {dep : τ → τ → Prop}
    {known : List τ} (hsound : ∀ t ∈ known, Least univ seed dep t)
    (hseed : ∀ t, univ t → seed t → t ∈ known)
    (hclosed : ∀ t u, univ t → dep t u → u ∈ known → t ∈ known) (t : τ) :
    t ∈ known ↔ Least univ seed dep t := by
  constructor
  · exact hsound t
  · exact Least.subset_closed hseed hclosed

/-! ## The variant of a saturating loop -/

variable [DecidableEq τ]

/-- How many entries of the universe are still to be found. -/
def missing (univ known : List τ) : Nat :=
  univ.countP fun t => decide (t ∉ known)

theorem missing_le_length (univ known : List τ) :
    missing univ known ≤ univ.length := List.countP_le_length

theorem missing_mono (univ : List τ) {known known' : List τ}
    (hsub : known ⊆ known') :
    missing univ known' ≤ missing univ known := by
  refine List.countP_mono_left fun t _ ht => ?_
  simp only [decide_eq_true_eq] at ht ⊢
  exact fun hmem => ht (hsub hmem)

/-- A sweep that found a new member of the universe paid for its turn. -/
theorem missing_lt {univ known known' : List τ} {t : τ} (hsub : known ⊆ known')
    (hu : t ∈ univ) (hnew : t ∉ known) (hknown : t ∈ known') :
    missing univ known' < missing univ known := by
  obtain ⟨before, after, rfl⟩ := List.append_of_mem hu
  have hb := missing_mono before hsub
  have ha := missing_mono after hsub
  unfold missing at hb ha ⊢
  rw [List.countP_append, List.countP_append,
    List.countP_cons_of_neg (by simpa using hknown),
    List.countP_cons_of_pos (by simpa using hnew)]
  omega

end Swig4Ada.Lib

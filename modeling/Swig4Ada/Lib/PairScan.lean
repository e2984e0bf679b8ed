import Mathlib

/-!
# Looking for a pair of characters two at a time

The search takes two characters wherever it meets the first of a pair, whatever the second is.
A run of the first character is so taken in pairs, and whether the search comes out of a text
with its last character depends on the length of the run at its end.
-/

namespace Swig4Ada.Lib

variable {α : Type} [DecidableEq α] {c d : α}

/-- How a search ends: where the pair is, at the end of the text, or there in the middle of a
pair. -/
inductive PairScan
  | found (place : Nat)
  | ended
  | cut

def PairScan.shift (n : Nat) : PairScan → PairScan
  | .found place => .found (n + place)
  | .ended => .ended
  | .cut => .cut

/-- The search. -/
def scanPair (c d : α) : List α → PairScan
  | [] => .ended
  | [x] => if x = c then .cut else .ended
  | x :: y :: t =>
      if x = c then
        if y = d then .found 0 else (scanPair c d t).shift 2
      else (scanPair c d (y :: t)).shift 1

/-- The length of the run of a character at the end of a text. -/
def endRun (c : α) : List α → Nat
  | [] => 0
  | x :: t => if x = c ∧ ∀ y ∈ t, y = c then t.length + 1 else endRun c t

theorem PairScan.shift_shift (m n : Nat) (s : PairScan) :
    (s.shift m).shift n = s.shift (n + m) := by
  cases s with
  | found place => exact congrArg PairScan.found (Nat.add_assoc n m place).symm
  | ended => rfl
  | cut => rfl

theorem PairScan.shift_zero (s : PairScan) : s.shift 0 = s := by
  cases s with
  | found place => exact congrArg PairScan.found (Nat.zero_add place)
  | ended => rfl
  | cut => rfl

theorem scanPair_other {x : α} (h : x ≠ c) (t : List α) :
    scanPair c d (x :: t) = (scanPair c d t).shift 1 := by
  cases t with
  | nil => simp only [scanPair, if_neg h, PairScan.shift]
  | cons y t => rw [scanPair, if_neg h]

theorem scanPair_skip {y : α} (h : y ≠ d) (t : List α) :
    scanPair c d (c :: y :: t) = (scanPair c d t).shift 2 := by
  rw [scanPair, if_pos rfl, if_neg h]

theorem scanPair_pair (t : List α) : scanPair c d (c :: d :: t) = .found 0 := by
  rw [scanPair, if_pos rfl, if_pos rfl]

/-! ## Runs -/

theorem endRun_other {x : α} (h : x ≠ c) (t : List α) : endRun c (x :: t) = endRun c t := by
  rw [endRun, if_neg fun hand => h hand.1]

example : endRun '*' "a**".toList = 2 := by decide +kernel

theorem endRun_all {t : List α} (h : ∀ y ∈ t, y = c) : endRun c t = t.length := by
  cases t with
  | nil => rfl
  | cons x t =>
      obtain ⟨hx, ht⟩ := List.forall_mem_cons.1 h
      rw [endRun, if_pos ⟨hx, ht⟩, List.length_cons]

theorem endRun_some {t : List α} (h : ¬ ∀ y ∈ t, y = c) (x : α) :
    endRun c (x :: t) = endRun c t := by
  rw [endRun, if_neg fun hand => h hand.2]

/-- Two characters in front do not change whether the run is even. -/
theorem endRun_pair (y : α) (t : List α) : Even (endRun c (c :: y :: t)) ↔ Even (endRun c t) := by
  by_cases hall : ∀ z ∈ y :: t, z = c
  · obtain ⟨-, ht⟩ := List.forall_mem_cons.1 hall
    rw [endRun, if_pos ⟨rfl, hall⟩, endRun_all ht, List.length_cons, Nat.add_assoc,
      Nat.even_add]
    exact iff_of_eq (by simp)
  · rw [endRun_some hall]
    by_cases ht : ∀ z ∈ t, z = c
    · have hy : y ≠ c := fun he => hall (List.forall_mem_cons.2 ⟨he, ht⟩)
      rw [endRun_other hy]
    · rw [endRun_some ht]

/-! ## Texts without the pair -/

omit [DecidableEq α] in
theorem apart_tail {x : α} {t : List α} (h : ¬ [c, d] <:+: x :: t) : ¬ [c, d] <:+: t :=
  fun hin => h (hin.trans (List.suffix_cons x t).isInfix)

omit [DecidableEq α] in
theorem apart_second {y : α} {t : List α} (h : ¬ [c, d] <:+: c :: y :: t) : y ≠ d :=
  fun heq => h ⟨[], t, by rw [heq]; rfl⟩

omit [DecidableEq α] in
/-- The first pair of a text. -/
theorem exists_first_pair {t : List α} (h : [c, d] <:+: t) :
    ∃ p r, t = p ++ c :: d :: r ∧ ¬ [c, d] <:+: p := by
  induction t with
  | nil => exact absurd (List.infix_nil.1 h) (List.cons_ne_nil _ _)
  | cons x t ih =>
      by_cases hhead : [c, d] <+: x :: t
      · obtain ⟨r, hr⟩ := hhead
        exact ⟨[], r, hr.symm, fun hin =>
          absurd (List.infix_nil.1 hin) (List.cons_ne_nil _ _)⟩
      · obtain ⟨p, r, rfl, hp⟩ := ih ((List.infix_cons_iff.1 h).resolve_left hhead)
        refine ⟨x :: p, r, rfl, fun hin => ?_⟩
        rcases List.infix_cons_iff.1 hin with hpre | hin
        · exact hhead (hpre.trans (List.prefix_append (x :: p) _))
        · exact hp hin

/-- The search comes out of a text with an even run at its end. -/
theorem scanPair_even {p : List α} (h : ¬ [c, d] <:+: p) (heven : Even (endRun c p))
    (t : List α) : scanPair c d (p ++ t) = (scanPair c d t).shift p.length := by
  induction p using scanPair.induct (c := c) (d := d) with
  | case1 => exact (PairScan.shift_zero _).symm
  | case2 =>
      rw [endRun_all fun y hy => List.mem_singleton.1 hy] at heven
      exact absurd heven (by simp)
  | case3 x hx => exact scanPair_other hx t
  | case4 p => exact absurd rfl (apart_second h)
  | case5 y p hy ih =>
      rw [endRun_pair] at heven
      rw [List.cons_append, List.cons_append, scanPair_skip hy,
        ih (apart_tail (apart_tail h)) heven, PairScan.shift_shift, List.length_cons,
        List.length_cons]
      congr 1
      omega
  | case6 x y p hx ih =>
      rw [endRun_other hx] at heven
      rw [List.cons_append, scanPair_other hx, ih (apart_tail h) heven, PairScan.shift_shift]
      simp only [List.length_cons]
      congr 1
      omega

/-- Behind an odd run it takes one character more without looking at it. -/
theorem scanPair_odd {p : List α} (h : ¬ [c, d] <:+: p) (hodd : ¬ Even (endRun c p)) {x : α}
    (hx : x ≠ d) (t : List α) :
    scanPair c d (p ++ x :: t) = (scanPair c d t).shift (p.length + 1) := by
  induction p using scanPair.induct (c := c) (d := d) with
  | case1 => exact absurd ⟨0, rfl⟩ hodd
  | case2 => exact scanPair_skip hx t
  | case3 y hy =>
      rw [endRun_other hy] at hodd
      exact absurd ⟨0, rfl⟩ hodd
  | case4 p => exact absurd rfl (apart_second h)
  | case5 y p hy ih =>
      rw [endRun_pair] at hodd
      rw [List.cons_append, List.cons_append, scanPair_skip hy,
        ih (apart_tail (apart_tail h)) hodd, PairScan.shift_shift, List.length_cons,
        List.length_cons]
      congr 1
      omega
  | case6 y z p hy ih =>
      rw [endRun_other hy] at hodd
      rw [List.cons_append, scanPair_other hy, ih (apart_tail h) hodd, PairScan.shift_shift]
      simp only [List.length_cons]
      congr 1
      omega

theorem scanPair_ended {p : List α} (h : ¬ [c, d] <:+: p) (heven : Even (endRun c p)) :
    scanPair c d p = .ended := by
  have happ := scanPair_even h heven []
  rwa [List.append_nil] at happ

theorem scanPair_cut {p : List α} (h : ¬ [c, d] <:+: p) (hodd : ¬ Even (endRun c p)) :
    scanPair c d p = .cut := by
  induction p using scanPair.induct (c := c) (d := d) with
  | case1 => exact absurd ⟨0, rfl⟩ hodd
  | case2 => rw [scanPair, if_pos rfl]
  | case3 y hy =>
      rw [endRun_other hy] at hodd
      exact absurd ⟨0, rfl⟩ hodd
  | case4 p => exact absurd rfl (apart_second h)
  | case5 y p hy ih =>
      rw [endRun_pair] at hodd
      rw [scanPair_skip hy, ih (apart_tail (apart_tail h)) hodd, PairScan.shift]
  | case6 y z p hy ih =>
      rw [endRun_other hy] at hodd
      rw [scanPair_other hy, ih (apart_tail h) hodd, PairScan.shift]

/-- What is found lies within the text. -/
theorem scanPair_found {p : List α} {k : Nat} (h : scanPair c d p = .found k) :
    k + 2 ≤ p.length := by
  induction p using scanPair.induct (c := c) (d := d) generalizing k with
  | case1 => exact absurd h (by rw [scanPair]; nofun)
  | case2 => exact absurd h (by rw [scanPair, if_pos rfl]; nofun)
  | case3 y hy => exact absurd h (by rw [scanPair, if_neg hy]; nofun)
  | case4 p =>
      rw [scanPair_pair] at h
      obtain rfl := PairScan.found.inj h
      exact Nat.le_add_left 2 p.length
  | case5 y p hy ih =>
      rw [scanPair_skip hy] at h
      cases hscan : scanPair c d p with
      | found place =>
          rw [hscan] at h
          obtain rfl := PairScan.found.inj h
          have hle := ih hscan
          rw [List.length_cons, List.length_cons]
          omega
      | ended => exact absurd h (by rw [hscan]; nofun)
      | cut => exact absurd h (by rw [hscan]; nofun)
  | case6 y z p hy ih =>
      rw [scanPair_other hy] at h
      cases hscan : scanPair c d (z :: p) with
      | found place =>
          rw [hscan] at h
          obtain rfl := PairScan.found.inj h
          have hle := ih hscan
          rw [List.length_cons]
          omega
      | ended => exact absurd h (by rw [hscan]; nofun)
      | cut => exact absurd h (by rw [hscan]; nofun)

end Swig4Ada.Lib

import Mathlib

/-!
# Binary search between two bounds that are part of the range

The search keeps two bounds, halves between them, and ends when it meets what it looks
for or the bounds have passed each other. The upper bound is never less than zero: where
it would be, the search ends. In a table with its keys in ascending order it finds the
place of a key whenever the key is there (`bisect_eq_some`).
-/

namespace Swig4Ada.Lib

variable {K : Type} [LinearOrder K]

/-- The loop, on fuel, of the search for `x` from `l` to `r`. -/
def bisectFrom (key : Nat → K) (x : K) : Nat → Nat → Nat → Option Nat
  | 0, _, _ => none
  | fuel + 1, l, r =>
      let i := (l + r) / 2
      match cmp x (key i) with
      | .eq => some i
      | .lt =>
          if i = 0 then none
          else if l ≤ i - 1 then bisectFrom key x fuel l (i - 1)
          else none
      | .gt => if i + 1 ≤ r then bisectFrom key x fuel (i + 1) r else none

/-- The search in the first `size` keys. -/
def bisect (key : Nat → K) (x : K) (size : Nat) : Option Nat :=
  if size = 0 then none else bisectFrom key x size 0 (size - 1)

variable {key : Nat → K} {x : K}

theorem bisectFrom_sound {fuel l r i : Nat} (hlr : l ≤ r)
    (h : bisectFrom key x fuel l r = some i) : l ≤ i ∧ i ≤ r ∧ key i = x := by
  induction fuel generalizing l r with
  | zero => cases h
  | succ fuel ih =>
      rw [bisectFrom] at h
      split at h
      · next heq =>
          obtain rfl : (l + r) / 2 = i := by simpa using h
          exact ⟨by omega, by omega, (cmp_eq_eq_iff _ _).1 heq |>.symm⟩
      · split at h
        · cases h
        · split at h
          · next hle =>
              obtain ⟨h₁, h₂, h₃⟩ := ih hle h
              exact ⟨h₁, by omega, h₃⟩
          · cases h
      · split at h
        · next hle =>
            obtain ⟨h₁, h₂, h₃⟩ := ih hle h
            exact ⟨by omega, h₂, h₃⟩
        · cases h

theorem bisectFrom_complete {fuel l r k : Nat}
    (hkey : ∀ i j, i < j → j ≤ r → key i < key j) (hl : l ≤ k) (hr : k ≤ r)
    (hk : key k = x) (hfuel : r + 1 - l ≤ fuel) : bisectFrom key x fuel l r = some k := by
  induction fuel generalizing l r with
  | zero => omega
  | succ fuel ih =>
      rw [bisectFrom]
      -- The half in which `k` lies is the one that is kept.
      rcases lt_trichotomy k ((l + r) / 2) with hlt | heq | hgt
      · have hcmp : cmp x (key ((l + r) / 2)) = .lt :=
          (cmp_eq_lt_iff _ _).2 (hk ▸ hkey k _ hlt (by omega))
        rw [hcmp]
        simp only
        rw [if_neg (by omega), if_pos (by omega)]
        exact ih (fun i j hij hj => hkey i j hij (by omega)) hl (by omega) (by omega)
      · have hcmp : cmp x (key ((l + r) / 2)) = .eq := by
          rw [← heq, hk]
          exact (cmp_eq_eq_iff _ _).2 rfl
        rw [hcmp, heq]
      · have hcmp : cmp x (key ((l + r) / 2)) = .gt :=
          (cmp_eq_gt_iff _ _).2 (hk ▸ hkey _ k hgt hr)
        rw [hcmp]
        simp only
        rw [if_pos (by omega)]
        exact ih hkey (by omega) hr (by omega)

/-- In a table in ascending order the search answers with the place of the key. -/
theorem bisect_eq_some {size i : Nat} (hkey : ∀ i j, i < j → j < size → key i < key j) :
    bisect key x size = some i ↔ i < size ∧ key i = x := by
  unfold bisect
  split
  · next h => simp [h]
  · constructor
    · intro h
      obtain ⟨-, hle, hk⟩ := bisectFrom_sound (by omega) h
      exact ⟨by omega, hk⟩
    · intro h
      exact bisectFrom_complete (fun i j hij hj => hkey i j hij (by omega)) (by omega)
        (by omega) h.2 (by omega)

/-! ## In a list of keys

The keys may be there more than once, and a key behind the last one, or a loop that does not
end, is `none`. -/

/-- The loop, on fuel, of the search for `x` from `l` to `r`. -/
def bisectIn (keys : List K) (x : K) : Nat → Nat → Nat → Option (Option Nat)
  | 0, _, _ => none
  | fuel + 1, l, r =>
      let i := (l + r) / 2
      match keys[i]? with
      | none => none
      | some k =>
          match cmp x k with
          | .eq => some (some i)
          | .lt =>
              if i = 0 then some none
              else if l ≤ i - 1 then bisectIn keys x fuel l (i - 1)
              else some none
          | .gt => if i + 1 ≤ r then bisectIn keys x fuel (i + 1) r else some none

/-- The search reads no key outside of the list and finds the key where it is between the
bounds. -/
theorem bisectIn_spec {keys : List K} (hsorted : keys.Pairwise (· ≤ ·)) {fuel l r : Nat}
    (hlr : l ≤ r) (hr : r < keys.length) (hfuel : r < fuel + l) :
    ∃ answer, bisectIn keys x fuel l r = some answer ∧
      (∀ i, answer = some i → keys[i]? = some x) ∧
      (answer = none → ∀ j, l ≤ j → j ≤ r → keys[j]? ≠ some x) := by
  induction fuel generalizing l r with
  | zero => omega
  | succ fuel ih =>
      have hi : (l + r) / 2 < keys.length := by omega
      have hle : ∀ a b (ha : a < keys.length) (hb : b < keys.length), a < b → keys[a] ≤ keys[b] :=
        fun a b ha hb hab => List.pairwise_iff_getElem.1 hsorted a b ha hb hab
      rw [bisectIn]
      rw [List.getElem?_eq_getElem hi]
      dsimp only
      split
      · next heq =>
          refine ⟨_, rfl, fun i h => ?_, nofun⟩
          obtain rfl : (l + r) / 2 = i := Option.some.inj h
          rw [List.getElem?_eq_getElem hi, (cmp_eq_eq_iff _ _).1 heq]
      · next hlt =>
          have hless := (cmp_eq_lt_iff _ _).1 hlt
          have hbehind : ∀ j, (l + r) / 2 ≤ j → j ≤ r → keys[j]? ≠ some x := by
            intro j hj hjr h
            rw [List.getElem?_eq_getElem (by omega)] at h
            have hx := Option.some.inj h
            rcases Nat.lt_or_eq_of_le hj with hj | rfl
            · exact absurd (hle _ j hi (by omega) hj) (by rw [hx]; exact not_le.2 hless)
            · exact absurd hx (ne_of_gt hless)
          split
          · exact ⟨none, rfl, nofun, fun _ j _ hjr => hbehind j (by omega) hjr⟩
          · split
            · next hle' =>
                obtain ⟨answer, hrun, hfound, hnone⟩ := @ih l ((l + r) / 2 - 1) hle' (by omega)
                  (by omega)
                refine ⟨answer, hrun, hfound, fun h j hlj hjr => ?_⟩
                rcases Nat.lt_or_ge j ((l + r) / 2) with hj | hj
                · exact hnone h j hlj (by omega)
                · exact hbehind j hj hjr
            · exact ⟨none, rfl, nofun, fun _ j _ hjr => hbehind j (by omega) hjr⟩
      · next hgt =>
          have hless := (cmp_eq_gt_iff _ _).1 hgt
          have hbefore : ∀ j, l ≤ j → j ≤ (l + r) / 2 → keys[j]? ≠ some x := by
            intro j _ hj h
            rw [List.getElem?_eq_getElem (by omega)] at h
            have hx := Option.some.inj h
            rcases Nat.lt_or_eq_of_le hj with hj | rfl
            · exact absurd (hle j _ (by omega) hi hj) (by rw [hx]; exact not_le.2 hless)
            · exact absurd hx (ne_of_lt hless)
          split
          · next hle' =>
              obtain ⟨answer, hrun, hfound, hnone⟩ := @ih ((l + r) / 2 + 1) r hle' hr (by omega)
              refine ⟨answer, hrun, hfound, fun h j hlj hjr => ?_⟩
              rcases Nat.lt_or_ge ((l + r) / 2) j with hj | hj
              · exact hnone h j (by omega) hjr
              · exact hbefore j hlj hj
          · exact ⟨none, rfl, nofun, fun _ j hlj hjr => hbefore j hlj (by omega)⟩

end Swig4Ada.Lib

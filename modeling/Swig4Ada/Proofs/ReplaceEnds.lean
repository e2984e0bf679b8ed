import Swig4Ada.Proofs.Replace

/-!
# The two passes of a longer replacement

One pass counts the matches and the other builds the text, and they do not look at the quotes
alike. A match that was counted and is not found again is copied up to the null pointer.
-/

namespace Swig4Ada.Doh

/-- Where the pass that counts has gone behind the last quote, no fewer matches are found when
the quotes are not looked at. -/
def MatchesEnough (mode : MatchMode) (token text rep : List Char) (noquote first : Bool) : Prop :=
  token.length < rep.length → noquote = true → first = false →
    ∀ step steps, matchSteps mode token text (text.length + 1) noquote 0 = step :: steps →
      (∀ q ∈ (step :: steps).dropLast, q.2 = true → (quoteFrom text (q.1 + token.length)).isSome) →
      ((step :: steps).getLast fun h => List.cons_ne_nil step steps h).2 = true ∨
        steps.length ≤ (matchPositions mode token text false (text.length + 1)
          (step.1 + token.length)).length

section Passes

variable {mode : MatchMode} {token rep text : List Char} {noquote first flag : Bool} {s c : Nat}

/-- The flag is only taken away. -/
theorem countMatches_false {fuel : Nat} {ic : Int} {rcount : Nat} :
    (countMatches mode token text fuel s ic false rcount).2 = false := by
  induction fuel generalizing s ic rcount with
  | zero => rfl
  | succ fuel ih =>
      rw [countMatches]
      split
      · rfl
      · rw [if_neg (fun h => Bool.false_ne_true h.1), nextMatch_false]
        dsimp only
        cases matchFrom mode token text s with
        | none => rfl
        | some c => exact ih

/-- Where the flag is kept, the matches that were counted are found again. -/
theorem buildText_counted {fuel : Nat} {ic : Int} {rcount n : Nat} {ns : List Char}
    (h : countMatches mode token text fuel (s + token.length) ic flag rcount = (n, flag)) :
    (buildText mode token rep text (n - rcount + 1) s flag ns).isSome := by
  induction fuel generalizing s ic rcount ns with
  | zero =>
      obtain rfl : rcount = n := congrArg Prod.fst h
      rw [Nat.sub_self, buildText]
      simp
  | succ fuel ih =>
      have hdone : rcount = n →
          (buildText mode token rep text (n - rcount + 1) s flag ns).isSome := by
        rintro rfl
        rw [Nat.sub_self, buildText]
        simp
      rw [countMatches] at h
      split at h
      · exact hdone (congrArg Prod.fst h)
      split at h
      · exact hdone (congrArg Prod.fst h)
      cases hc : nextMatch mode token text flag (s + token.length) with
      | mk c flag' =>
          rw [hc] at h
          cases c with
          | none => exact hdone (congrArg Prod.fst h)
          | some c =>
              dsimp only at h
              have hflag : flag' = flag := by
                cases flag' with
                | true =>
                    cases flag with
                    | true => rfl
                    | false =>
                        rw [nextMatch_false] at hc
                        exact (Prod.mk.inj hc).2.symm
                | false => exact countMatches_false.symm.trans (congrArg Prod.snd h)
              subst hflag
              have hcount : (countMatches mode token text fuel (c + token.length) (ic - 1) flag'
                  (rcount + 1)).1 = n := congrArg Prod.fst h
              have hge : rcount + 1 ≤ n := hcount ▸ countMatches_ge
              rw [show n - rcount + 1 = (n - (rcount + 1) + 1) + 1 by omega, buildText, hc]
              dsimp only
              rw [if_neg (Nat.succ_ne_zero _)]
              exact ih h

/-- Where the pass that counts ends early, quotes are still looked for. -/
theorem countMatches_early (htoken : token ≠ []) {fuel fuel' : Nat} {ic : Int} (hic : ic < 0)
    {rcount : Nat} (hfuel : text.length < fuel + c)
    (hfuel' : text.length < fuel' + (c + token.length))
    (hquotes : ∃ q ∈ ((c, flag) :: matchSteps mode token text fuel' flag
        (c + token.length)).dropLast, q.2 = true ∧ quoteFrom text (q.1 + token.length) = none)
    (hinside : c + token.length ≤ text.length) :
    (countMatches mode token text fuel (c + token.length) ic flag rcount).2 = flag := by
  have hpos := List.length_pos_of_ne_nil htoken
  induction fuel generalizing c flag fuel' ic rcount with
  | zero => omega
  | succ fuel ih =>
      obtain ⟨fuel', rfl⟩ : ∃ n, fuel' = n + 1 := ⟨fuel' - 1, by omega⟩
      rw [countMatches_succ hic]
      cases hc : nextMatch mode token text flag (c + token.length) with
      | mk c' flag' =>
          cases c' with
          | none => rfl
          | some c' =>
              rw [matchSteps_some hc] at hquotes
              obtain ⟨hge, -, -, hin⟩ := nextMatch_sound htoken (congrArg Prod.fst hc)
              by_cases hends : flag = true ∧ quoteFrom text (c + token.length) = none
              · exact congrArg Prod.snd (if_pos hends)
              · obtain ⟨q, hq, hflag, hnone⟩ := hquotes
                rcases List.mem_cons.1 hq with rfl | hq
                · exact absurd ⟨hflag, hnone⟩ hends
                · have hlater : (countMatches mode token text fuel (c' + token.length) (ic - 1)
                      flag' (rcount + 1)).2 = flag' := ih (by omega) (by omega)
                    (show text.length < fuel' + (c' + token.length) by omega)
                    ⟨q, hq, hflag, hnone⟩ hin
                  have hflag' : flag' = true := by
                    rcases List.mem_cons.1 (List.mem_of_mem_dropLast hq) with rfl | hq
                    · exact hflag
                    · cases flag' with
                      | true => rfl
                      | false => exact absurd hflag (by rw [matchSteps_noFlag hq]; decide)
                  have hsame : flag = true := by
                    cases flag with
                    | true => rfl
                    | false =>
                        rw [nextMatch_false] at hc
                        exact (Prod.mk.inj hc).2.trans hflag'
                  simp only [if_neg hends]
                  rw [hlater, hflag', hsame]

end Passes

section Result

variable {mode : MatchMode} {token rep text : List Char} {noquote first : Bool}

/-- Both passes with quotes. -/
theorem buildText_isSome (htoken : token ≠ []) {c : Nat} {flag : Bool} {ns : List Char}
    (h : nextMatch mode token text true 0 = (some c, flag)) (hlt : token.length < rep.length) :
    (buildText mode token rep text (countMatches mode token text (text.length + 1)
        (c + token.length) (-1 - 1) flag 1).1 c (countMatches mode token text (text.length + 1)
        (c + token.length) (-1 - 1) flag 1).2 ns).isSome ↔
      MatchesEnough mode token text rep true false := by
  have hpos := List.length_pos_of_ne_nil htoken
  obtain ⟨-, -, -, hin⟩ := nextMatch_sound htoken (congrArg Prod.fst h)
  have hsteps : matchSteps mode token text (text.length + 1) true 0 =
      (c, flag) :: laterSteps mode token text c flag := matchSteps_some h
  have hfuel : matchPositions mode token text false (text.length + 1) (c + token.length) =
      matchPositions mode token text false text.length (c + token.length) :=
    matchPositions_fuel htoken (by omega) (by omega)
  by_cases hquotes : ∀ q ∈ ((c, flag) :: laterSteps mode token text c flag).dropLast,
      q.2 = true → (quoteFrom text (q.1 + token.length)).isSome
  · have hcount : countMatches mode token text (text.length + 1) (c + token.length) (-1 - 1) flag
        1 = (1 + (laterSteps mode token text c flag).length, lastFlag mode token text c flag) :=
      countMatches_all htoken (by omega) (show text.length < text.length + 1 + c by omega)
        (show text.length < text.length + (c + token.length) by omega) hquotes hin
    have hbuild : buildText mode token rep text ((laterSteps mode token text c flag).length + 1) c
        (lastFlag mode token text c flag) ns = _ :=
      buildText_eq htoken (Or.inl rfl)
        (show text.length < text.length + (c + token.length) by omega) hin
    rw [hcount]
    simp only
    rw [Nat.add_comm 1, hbuild]
    simp only [List.length_take, min_eq_left_iff]
    constructor
    · intro hsome _ _ _ step steps hs _
      obtain ⟨rfl, rfl⟩ := List.cons.inj (hsteps.symm.trans hs)
      cases hlast : lastFlag mode token text c flag with
      | true => exact Or.inl hlast
      | false =>
          right
          rw [hfuel]
          rw [hlast] at hsome
          by_contra hfew
          rw [if_neg hfew] at hsome
          exact nomatch hsome
    · intro henough
      rw [if_pos]
      · rfl
      · rcases henough hlt rfl rfl (c, flag) _ hsteps hquotes with hlast | hplain
        · have hflag : lastFlag mode token text c flag = true := hlast
          have hself := congrArg List.length (plain_self htoken h)
          rw [List.length_take, List.length_map, min_eq_left_iff] at hself
          rw [hflag]
          exact hself
        · cases hlast : lastFlag mode token text c flag with
          | true =>
              have hself := congrArg List.length (plain_self htoken h)
              rw [List.length_take, List.length_map, min_eq_left_iff] at hself
              exact hself
          | false =>
              rw [hfuel] at hplain
              exact hplain
  · refine iff_of_true ?_ fun _ _ _ step steps hs hq => ?_
    · have hearly : ∃ q ∈ ((c, flag) :: matchSteps mode token text text.length flag
          (c + token.length)).dropLast, q.2 = true ∧
            quoteFrom text (q.1 + token.length) = none := by
        push Not at hquotes
        obtain ⟨q, hq, hflag, hnone⟩ := hquotes
        exact ⟨q, hq, hflag, Option.not_isSome_iff_eq_none.1 hnone⟩
      have hkept : (countMatches mode token text (text.length + 1) (c + token.length) (-1 - 1) flag
          1).2 = flag := countMatches_early htoken (by omega)
        (show text.length < text.length + 1 + c by omega)
        (show text.length < text.length + (c + token.length) by omega) hearly hin
      generalize hanswer : countMatches mode token text (text.length + 1) (c + token.length)
        (-1 - 1) flag 1 = answer at hkept ⊢
      have hge : 1 ≤ answer.1 := hanswer ▸ countMatches_ge
      have hbuilt := @buildText_counted mode token rep text flag c _ _ 1 answer.1 ns
        (hanswer.trans (Prod.ext rfl hkept))
      rw [Nat.sub_add_cancel hge] at hbuilt
      rw [hkept]
      exact hbuilt
    · obtain ⟨rfl, rfl⟩ := List.cons.inj (hsteps.symm.trans hs)
      exact absurd hq hquotes

/-- A replacement is made, except where the second pass finds too few matches. -/
theorem stringReplace_isSome (text token rep : List Char) (flags : ReplaceFlags)
    (htoken : token ≠ []) :
    (stringReplace text token rep flags).isSome ↔
      MatchesEnough flags.mode token text rep flags.noquote flags.first := by
  unfold stringReplace
  cases hc : nextMatch flags.mode token text flags.noquote 0 with
  | mk c flag =>
      cases c with
      | none =>
          have hright := @simpleRight_none flags.mode token rep text flags.noquote flags.first
            htoken (congrArg Prod.fst hc)
          refine iff_of_true ?_ fun _ _ _ step steps hsteps => ?_
          · rw [hright]
            rfl
          · rw [matchSteps_none hc] at hsteps
            cases hsteps
      | some c =>
          rw [replaceSimple_some htoken hc]
          by_cases hle : rep.length ≤ token.length
          · rw [if_pos hle]
            exact iff_of_true rfl fun hlt => absurd hlt (by omega)
          · rw [if_neg hle]
            simp only [Option.isSome_map]
            cases hfirst : flags.first with
            | true =>
                refine iff_of_true ?_ fun _ _ => (by intro h; cases h)
                have hcount : countMatches flags.mode token text (text.length + 1)
                    (c + token.length) ((if true = true then 1 else -1) - 1) flag 1 =
                      (1, flag) := by
                  rw [countMatches]
                  exact if_pos (Or.inl rfl)
                exact hcount ▸ buildText_counted hcount
            | false =>
                rw [if_neg Bool.false_ne_true]
                cases hnoquote : flags.noquote with
                | false =>
                    refine iff_of_true ?_ fun _ => (by intro h; cases h)
                    rw [hnoquote, nextMatch_false] at hc
                    obtain rfl : false = flag := congrArg Prod.snd hc
                    generalize hanswer : countMatches flags.mode token text (text.length + 1)
                      (c + token.length) (-1 - 1) false 1 = answer
                    have hge : 1 ≤ answer.1 := hanswer ▸ countMatches_ge
                    have hkept : answer.2 = false := hanswer ▸ countMatches_false
                    have hbuilt := @buildText_counted flags.mode token rep text false c _ _ 1
                      answer.1 (text.take c) (hanswer.trans (Prod.ext rfl hkept))
                    rw [Nat.sub_add_cancel hge] at hbuilt
                    rw [hkept]
                    exact hbuilt
                | true =>
                    rw [hnoquote] at hc
                    exact buildText_isSome htoken hc (by omega)

end Result

end Swig4Ada.Doh

import Swig4Ada.Proofs.Scanner

/-!
# What `retract` takes back

The loop of `retract` looks at the character at the end of the text by the length that the text
had before the loop. From the second turn on there is a null character, so that of the lines of
the characters taken back only one can be, that of the last character.
-/

namespace Swig4Ada.Swig

namespace Scanner

variable {s : Scanner} {src : Source} {u w : List Char} {n l : Nat}

/-! ## The loop -/

/-- The loop, with the length `l` of the text before it; the null characters of the buffer
behind the text are `none`. -/
def retractLoop (l : Nat) : Nat → Scanner → Scanner
  | 0, s => s
  | n + 1, s => retractLoop l n { s with
      line := if s.text[l - 1]? = some '\n' then
          if s.freezeLine then s.line else s.line - 1
        else s.line
      str := s.str.map (·.back 1)
      text := s.text.dropLast }

theorem back_back (src : Source) (m n : Nat) : (src.back m).back n = src.back (m + n) := by
  simp only [Source.back, List.drop_drop, Source.mk.injEq, true_and, and_true]
  rw [← List.append_assoc, ← List.reverse_append, List.take_add]

theorem map_back {str : Option Source} :
    (str.map (·.back 1)).map (·.back n) = str.map (·.back (n + 1)) := by
  rw [Option.map_map, Nat.add_comm n 1]
  congr 1
  funext src
  exact back_back src 1 n

theorem dropLast_take : u.dropLast.take (u.dropLast.length - n) = u.take (u.length - (n + 1)) := by
  rw [List.dropLast_eq_take, List.take_take, List.length_take]
  congr 1
  omega

/-- Behind the text no turn changes the line. -/
theorem retractLoop_short (hl : s.text.length ≤ l - 1) :
    retractLoop l n s = { s with
      str := s.str.map (·.back n)
      text := s.text.take (s.text.length - n) } := by
  induction n generalizing s with
  | zero =>
      obtain ⟨text, str, scanobjs, line, startLine, freezeLine⟩ := s
      cases str <;> simp [retractLoop, Source.back]
  | succ n ih =>
      have hnone : s.text[l - 1]? = none := List.getElem?_eq_none hl
      have hlen : s.text.dropLast.length ≤ l - 1 := by
        rw [List.length_dropLast]
        omega
      rw [retractLoop, ih hlen, hnone, if_neg (by intro h; cases h)]
      simp only [dropLast_take, map_back]

theorem ticks_getLast : s.ticks s.text.getLast?.toList =
    if s.text[s.text.length - 1]? = some '\n' then if s.freezeLine then 0 else 1 else 0 := by
  rw [ticks, ← List.getLast?_eq_getElem?]
  cases s.text.getLast? with
  | none => simp
  | some c =>
      by_cases hc : c = '\n'
      · simp [hc]
      · simp [hc]

/-- `retract` is the loop. -/
theorem retract_loop (h : n ≤ s.text.length) :
    s.retract n = some (retractLoop s.text.length n s) := by
  cases n with
  | zero => rw [retract_zero, retractLoop]
  | succ n =>
      have hshort : s.text.dropLast.length ≤ s.text.length - 1 := by rw [List.length_dropLast]
      rw [retract, if_pos h, if_neg (Nat.succ_ne_zero n), ticks_getLast, retractLoop,
        retractLoop_short hshort]
      simp only [dropLast_take, map_back, Option.some.injEq, Scanner.mk.injEq, true_and, and_true]
      split
      · split
        · exact Int.sub_zero _
        · rfl
      · exact Int.sub_zero _

/-! ## The calls of `nextchar` -/

/-- The scanner behind `n` calls of `nextchar`. -/
def nextchars (n : Nat) (s : Scanner) : Scanner := (fun s => s.nextchar.2)^[n] s

theorem nextchars_advance (hs : s.rest = u ++ w) (hu : u ≠ []) :
    nextchars u.length s = s.advance u w := by
  induction u generalizing s with
  | nil => exact absurd rfl hu
  | cons c u ih =>
      have hnext : s.nextchar.2 = s.advance [c] (u ++ w) :=
        congrArg Prod.snd (nextchar_cons hs)
      rw [List.length_cons, nextchars, Function.iterate_succ_apply, hnext]
      cases u with
      | nil => rfl
      | cons d u =>
          have hrest : (s.advance [c] (d :: u ++ w)).rest = d :: u ++ w :=
            rest_advance (by rw [hs]; nofun)
          have hread := ih hrest (List.cons_ne_nil d u)
          rw [nextchars] at hread
          rw [hread, advance_advance]
          rfl

theorem ticks_eq_zero_iff : s.ticks u = 0 ↔ s.freezeLine = true ∨ '\n' ∉ u := by
  rw [ticks, ← List.count_eq_zero]
  cases s.freezeLine <;> simp

/-- `retract` takes back what the last calls of `nextchar` did, unless there is a line end that
is counted before the last of the characters. -/
theorem retract_reads (hs : s.str = some src) (hn : n ≤ src.after.length) :
    (nextchars n s).retract n = some s ↔
      s.freezeLine = true ∨ '\n' ∉ (src.after.take n).dropLast := by
  cases n with
  | zero =>
      have hzero : (nextchars 0 s).retract 0 = some s := retract_zero
      simp [hzero]
  | succ n =>
      have hrest : s.rest = src.after := by rw [rest, hs]; rfl
      have hne : src.after.take (n + 1) ≠ [] := by
        intro he
        rw [List.take_eq_nil_iff] at he
        rcases he with he | he
        · exact absurd he (Nat.succ_ne_zero n)
        · simp [he] at hn
      have hlen : (src.after.take (n + 1)).length = n + 1 := by rw [List.length_take]; omega
      obtain ⟨v, q, hv⟩ : ∃ v q, src.after.take (n + 1) = v ++ [q] :=
        ⟨_, _, (List.dropLast_append_getLast hne).symm⟩
      have hvlen : v.length = n := by
        rw [hv, List.length_append, List.length_singleton] at hlen
        omega
      have hafter : v ++ q :: src.after.drop (n + 1) = src.after := by
        rw [List.append_cons, ← hv, List.take_append_drop]
      have hread : nextchars (n + 1) s = s.advance ([] ++ (v ++ [q])) (src.after.drop (n + 1)) := by
        have hall := nextchars_advance (s := s) (u := src.after.take (n + 1))
          (w := src.after.drop (n + 1)) (by rw [hrest, List.take_append_drop]) hne
        rw [hlen, hv] at hall
        exact hall
      have hback : (nextchars (n + 1) s).retract (n + 1) = some (s.recount v) := by
        rw [hread, ← hvlen, retract_advance, hvlen, hafter, advance_nil hrest (by
          intro he
          simp [he] at hn)]
      rw [hback, hv, List.dropLast_concat, Option.some.injEq, ← ticks_eq_zero_iff]
      constructor
      · intro he
        have hline : s.line + s.ticks v = s.line := congrArg Scanner.line he
        omega
      · intro he
        rw [recount, he, Int.add_zero]

/-- A line end that is read last. -/
theorem last_retracted :
    (nextchars 2 ⟨[], some ⟨[], "/\n".toList, 1⟩, [], 7, 7, false⟩).retract 2 =
      some ⟨[], some ⟨[], "/\n".toList, 1⟩, [], 7, 7, false⟩ :=
  (retract_reads rfl (Nat.le_refl 2)).2 (Or.inr (by decide))

/-- A line end before it stays counted. -/
theorem first_counted :
    (nextchars 2 ⟨[], some ⟨[], "\n/".toList, 1⟩, [], 7, 7, false⟩).retract 2 =
      some ⟨[], some ⟨[], "\n/".toList, 1⟩, [], 8, 7, false⟩ := by
  decide

end Scanner

end Swig4Ada.Swig

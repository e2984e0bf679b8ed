import Swig4Ada.Proofs.Balanced

/-!
# What reading raw text leaves of the scanner

`Scanner_get_raw_text_balanced` goes back in the text that is the current one at the end, and
only when it has found the bracket. So it leaves the scanner as it was exactly when the bracket
is in the text in which it began.
-/

namespace Swig4Ada.Swig

open Swig4Ada.Lib

/-- The function ends, and the scanner is as it was. -/
def Restores (p : BracketPair) (g : Locators) (s : Scanner) : Prop :=
  ∃ text steps, ∀ fuel ≥ steps,
    scannerGetRawTextBalanced fuel p.opening p.closing g s = some (text, s)

/-- The bracket that the machine takes for the one that matches is in a text. A character
behind a division sign is not looked at unless it opens a bracket. -/
def BracketPair.ClosesIn (p : BracketPair) (t : List Char) : Prop :=
  ∃ pre post, lexemes p.reader t = pre ++ .char p.closing :: post ∧
    Balanced p.opening p.closing (codeOf pre)

variable {p : BracketPair} {s s' : Scanner} {g : Locators} {c : Char} {t rest before : List Char}
  {v : Balance} {fuel : Nat} {line : Int}

theorem closesIn_iff : p.ClosesIn t ↔ (run false p ⟨1, .code, []⟩ t).isSome := by
  rw [run_code, Option.isSome_map, Option.isSome_iff_exists]
  constructor
  · rintro ⟨pre, post, hsplit, hbalanced⟩
    exact ⟨post, behindClosing_iff.2 ⟨pre, hsplit, hbalanced⟩⟩
  · rintro ⟨post, hpost⟩
    obtain ⟨pre, hsplit, hbalanced⟩ := behindClosing_iff.1 hpost
    exact ⟨pre, post, hsplit, hbalanced⟩

/-! ## Without locators -/

def BalanceState.Located : BalanceState → Prop
  | .locatorStart _ | .locator | .locatorStar => True
  | _ => False

theorem turn_unlocated (h : ¬ v.state.Located) :
    ¬ (balanceTurn false p.opening p.closing v c).state.Located := by
  obtain ⟨n, st, l⟩ := v
  cases st with
  | code =>
      simp only [balanceTurn, balanceCode]
      split_ifs <;> exact id
  | locatorStart missing => exact absurd trivial h
  | locator => exact absurd trivial h
  | locatorStar => exact absurd trivial h
  | escape q => exact id
  | slash | lineComment | comment | commentStar | literal q =>
      simp only [balanceTurn]
      split_ifs <;> exact id
  | commentStart =>
      simp only [balanceTurn, Bool.false_eq_true, false_and, if_false]
      split_ifs <;> exact id

/-- A turn of the loop. -/
theorem balanceLoop_turn (h : ¬ v.state.Located) (hv : v.numLevels ≠ 0) :
    balanceLoop false p.opening p.closing (fuel + 1) v g s =
      if s.nextchar.1 = '\x00' then some (false, g, s.nextchar.2)
      else balanceLoop false p.opening p.closing fuel
        (balanceTurn false p.opening p.closing v s.nextchar.1) g s.nextchar.2 := by
  have hstate : ¬ (v.state = .locatorStar ∧ s.nextchar.1 = '/') := by
    rintro ⟨hstar, -⟩
    rw [hstar] at h
    exact h trivial
  rw [balanceLoop, if_neg hv]
  simp only [if_neg hstate]

/-! ## In the text in which it began -/

/-- A scanner that has read some of its text. -/
structure Within (s s' : Scanner) (src : Source) : Prop where
  scanobjs : s'.scanobjs = s.scanobjs
  startLine : s'.startLine = s.startLine
  freezeLine : s'.freezeLine = s.freezeLine
  str : ∃ inside after, src.after = inside ++ after ∧
    s'.str = some ⟨inside.reverse ++ src.before, after, src.line⟩

theorem Within.restore {src : Source} (text : List Char) (h : Within s s' src)
    (hs : s.str = some src) :
    ({ s' with
      str := s'.str.map (·.seek src.before.length)
      text := text
      line := s.line } : Scanner) = { s with text := text } := by
  obtain ⟨hobjs, hstart, hfreeze, inside, after, hafter, hstr⟩ := h
  have hseek : (⟨inside.reverse ++ src.before, after, src.line⟩ : Source).seek
      src.before.length = src := by
    obtain ⟨before, after', line⟩ := src
    have hlen : before.length = before.reverse.length := List.length_reverse.symm
    have hwhole : (inside.reverse ++ before).reverse ++ after =
        before.reverse ++ (inside ++ after) := by simp
    obtain rfl : after' = inside ++ after := hafter
    simp only [Source.seek, hwhole]
    rw [hlen, List.take_left, List.drop_left, List.reverse_reverse]
  rw [hstr, Option.map_some, hseek, ← hs, hobjs, hstart, hfreeze]

theorem loop_found (hv : ¬ v.state.Located) (hs : s.str = some ⟨before, t, line⟩)
    (h : (run false p v (t.takeWhile (· ≠ '\x00'))).isSome) :
    ∃ fuel s', balanceLoop false p.opening p.closing fuel v g s = some (true, g, s') ∧
      Within s s' ⟨before, t, line⟩ := by
  induction t generalizing v s before with
  | nil =>
      by_cases hlevel : v.numLevels = 0
      · refine ⟨1, s, by rw [balanceLoop, if_pos hlevel], rfl, rfl, rfl, [], [], rfl, hs⟩
      · rw [List.takeWhile_nil, run, if_neg hlevel] at h
        cases h
  | cons c t ih =>
      by_cases hlevel : v.numLevels = 0
      · refine ⟨1, s, by rw [balanceLoop, if_pos hlevel], rfl, rfl, rfl, [], c :: t, rfl, hs⟩
      · by_cases hc : c = '\x00'
        · subst hc
          rw [List.takeWhile_cons_of_neg (by simp), run, if_neg hlevel] at h
          cases h
        · rw [List.takeWhile_cons_of_pos (by simpa using hc), run, if_neg hlevel] at h
          have hnext := Scanner.nextchar_cons (s := s) (c := c) (u := t) (by
            rw [Scanner.rest, hs]
            rfl)
          have hstr : (s.advance [c] t).str = some ⟨c :: before, t, line⟩ := by
            rw [Scanner.advance, hs]
            rfl
          obtain ⟨fuel, s', hloop, hobjs, hstart, hfreeze, inside, after, hafter, hstr'⟩ :=
            ih (turn_unlocated hv) hstr h
          refine ⟨fuel + 1, s', ?_, hobjs, hstart, hfreeze, c :: inside, after, ?_, ?_⟩
          · rw [balanceLoop_turn hv hlevel, hnext]
            exact (if_neg hc).trans hloop
          · exact congrArg (c :: ·) hafter
          · rw [hstr', List.reverse_cons, List.append_assoc]
            rfl

/-! ## Behind its end -/

/-- Fewer texts are left, or none. -/
def Popped (k : Nat) (s : Scanner) : Prop := s.str = none ∨ s.scanobjs.length < k

theorem nextcharOf_pops (objs : List Source) (s : Scanner) (src : Source) :
    (Scanner.nextcharOf objs s src).2.str = none ∨
      (Scanner.nextcharOf objs s src).2.scanobjs.length ≤ objs.length := by
  induction objs generalizing s src with
  | nil =>
      obtain ⟨before, _ | ⟨c, after⟩, line⟩ := src
      · exact Or.inl rfl
      · exact Or.inr (le_refl _)
  | cons next objs ih =>
      obtain ⟨before, _ | ⟨c, after⟩, line⟩ := src
      · exact (ih _ next).imp_right Nat.le_succ_of_le
      · exact Or.inr (le_refl _)

theorem Popped.nextchar {k : Nat} (h : Popped k s) : Popped k s.nextchar.2 := by
  rw [Scanner.nextchar]
  cases hs : s.str with
  | none => exact Or.inl hs
  | some src =>
      rcases h with h | h
      · rw [hs] at h
        cases h
      · exact (nextcharOf_pops s.scanobjs s src).imp_right fun hle => lt_of_le_of_lt hle h

theorem Popped.loop {k : Nat} {found : Bool} {g' : Locators} (h : Popped k s)
    (hv : ¬ v.state.Located)
    (hloop : balanceLoop false p.opening p.closing fuel v g s = some (found, g', s')) :
    Popped k s' := by
  induction fuel generalizing v g s with
  | zero => cases hloop
  | succ fuel ih =>
      by_cases hlevel : v.numLevels = 0
      · rw [balanceLoop, if_pos hlevel] at hloop
        cases hloop
        exact h
      · rw [balanceLoop_turn hv hlevel] at hloop
        split at hloop
        · cases hloop
          exact h.nextchar
        · exact ih h.nextchar (turn_unlocated hv) hloop

/-- A text that is at its end is left. -/
theorem nextchar_pops (hs : s.str = some ⟨before, [], line⟩) :
    Popped s.scanobjs.length s.nextchar.2 := by
  rw [Scanner.nextchar, hs]
  cases hobjs : s.scanobjs with
  | nil => exact Or.inl rfl
  | cons next objs =>
      exact (nextcharOf_pops objs _ next).imp_right Nat.lt_succ_of_le

/-- Where the bracket is not in the text, this is left, or it is read up to a null character. -/
theorem loop_lost {found : Bool} {g' : Locators} (hv : ¬ v.state.Located)
    (hs : s.str = some ⟨before, t, line⟩)
    (h : run false p v (t.takeWhile (· ≠ '\x00')) = none)
    (hloop : balanceLoop false p.opening p.closing fuel v g s = some (found, g', s')) :
    Popped s.scanobjs.length s' ∨
      (found = false ∧ ∃ src, s'.str = some src ∧ before.length < src.before.length) := by
  induction t generalizing v s before fuel with
  | nil =>
      have hlevel : v.numLevels ≠ 0 := by
        intro hlevel
        rw [List.takeWhile_nil, run, if_pos hlevel] at h
        cases h
      cases fuel with
      | zero => cases hloop
      | succ fuel =>
          rw [balanceLoop_turn hv hlevel] at hloop
          split at hloop
          · cases hloop
            exact Or.inl (nextchar_pops hs)
          · exact Or.inl ((nextchar_pops hs).loop (turn_unlocated hv) hloop)
  | cons c t ih =>
      have hlevel : v.numLevels ≠ 0 := by
        intro hlevel
        by_cases hc : c = '\x00'
        · rw [List.takeWhile_cons_of_neg (by simpa using hc), run, if_pos hlevel] at h
          cases h
        · rw [List.takeWhile_cons_of_pos (by simpa using hc), run, if_pos hlevel] at h
          cases h
      have hnext := Scanner.nextchar_cons (s := s) (c := c) (u := t) (by
        rw [Scanner.rest, hs]
        rfl)
      have hstr : (s.advance [c] t).str = some ⟨c :: before, t, line⟩ := by
        rw [Scanner.advance, hs]
        rfl
      cases fuel with
      | zero => cases hloop
      | succ fuel =>
          rw [balanceLoop_turn hv hlevel, hnext] at hloop
          by_cases hc : c = '\x00'
          · rw [if_pos hc] at hloop
            cases hloop
            exact Or.inr ⟨rfl, _, hstr, Nat.lt_succ_self _⟩
          · rw [if_neg hc] at hloop
            rw [List.takeWhile_cons_of_pos (by simpa using hc), run, if_neg hlevel] at h
            refine (ih (turn_unlocated hv) hstr h hloop).imp_right ?_
            rintro ⟨hfound, src, hsrc, hlt⟩
            exact ⟨hfound, src, hsrc, by
              rw [List.length_cons] at hlt
              omega⟩

/-! ## The law -/

theorem unlocated_start : ¬ (⟨1, .code, []⟩ : Balance).state.Located := id

theorem restores_of_none (hs : s.str = none) : Restores p g s := by
  refine ⟨none, 1, fun fuel hfuel => ?_⟩
  obtain ⟨fuel, rfl⟩ : ∃ f, fuel = f + 1 := ⟨fuel - 1, by omega⟩
  have hnext : ({ s with text := [p.opening] } : Scanner).nextchar =
      ('\x00', { s with text := [p.opening] }) := by
    rw [Scanner.nextchar, hs]
  rw [scannerGetRawTextBalanced, balance, balanceLoop_turn unlocated_start (Nat.one_ne_zero),
    hnext, if_pos rfl]
  rfl

theorem restores_iff (p : BracketPair) (g : Locators) (s : Scanner) :
    Restores p g s ↔ ∀ src, s.str = some src → p.ClosesIn (src.after.takeWhile (· ≠ '\x00')) := by
  constructor
  · rintro ⟨text, steps, hraw⟩ src hs
    rw [closesIn_iff]
    by_contra hno
    have hnone := Option.not_isSome_iff_eq_none.1 hno
    obtain ⟨⟨found, g', s'⟩, hloop, heq⟩ := Option.map_eq_some_iff.1 (hraw steps (le_refl _))
    rcases loop_lost (s := { s with text := [p.opening] }) unlocated_start hs hnone hloop with
      (hstr | hobjs) | ⟨rfl, src', hsrc, hlt⟩
    · have hsame : s.str = none := by
        cases found with
        | true =>
            simp only [if_true, Prod.mk.injEq] at heq
            rw [← heq.2]
            exact congrArg (Option.map _) hstr
        | false =>
            simp only [Bool.false_eq_true, if_false, Prod.mk.injEq] at heq
            rw [← heq.2]
            exact hstr
      rw [hs] at hsame
      cases hsame
    · have hsame : s.scanobjs = s'.scanobjs := by
        cases found with
        | true =>
            simp only [if_true, Prod.mk.injEq] at heq
            rw [← heq.2]
        | false =>
            simp only [Bool.false_eq_true, if_false, Prod.mk.injEq] at heq
            rw [← heq.2]
      simp only [hsame] at hobjs
      exact Nat.lt_irrefl _ hobjs
    · simp only [Bool.false_eq_true, if_false, Prod.mk.injEq] at heq
      have hsame : s.str = some src' := by
        rw [← heq.2]
        exact hsrc
      rw [hs] at hsame
      cases hsame
      exact Nat.lt_irrefl _ hlt
  · intro h
    cases hs : s.str with
    | none => exact restores_of_none hs
    | some src =>
        obtain ⟨fuel, s', hloop, hwithin⟩ := loop_found (g := g)
          (s := { s with text := [p.opening] }) unlocated_start hs (closesIn_iff.1 (h src hs))
        refine ⟨some s'.text, fuel, fun fuel' hfuel => ?_⟩
        rw [scannerGetRawTextBalanced, balance, balanceLoop_mono hloop hfuel, Option.map_some, hs]
        have hrestore := hwithin.restore s.text hs
        simp only [if_true, Option.elim_some, Option.some.injEq, Prod.mk.injEq, true_and]
        exact hrestore

theorem raw_mono {startchar endchar : Char} {r : Option (List Char) × Scanner}
    (h : scannerGetRawTextBalanced fuel startchar endchar g s = some r) {fuel' : Nat}
    (hle : fuel ≤ fuel') : scannerGetRawTextBalanced fuel' startchar endchar g s = some r := by
  obtain ⟨result, hloop, rfl⟩ := Option.map_eq_some_iff.1 h
  exact Option.map_eq_some_iff.2 ⟨result, balanceLoop_mono hloop hle, rfl⟩

/-- `int x;`, with no brace to the end of the text. -/
def openClass : Scanner where
  text := ['c']
  str := some ⟨['{'], ['i', 'n', 't', ' ', 'x', ';'], 1⟩
  scanobjs := []
  line := 1
  startLine := 1
  freezeLine := false

/-- Nothing is left to be read. -/
theorem openClass_lost :
    scannerGetRawTextBalanced 10 '{' '}' ⟨false, 0, [], 1⟩ openClass =
      some (none, { openClass with str := none }) ∧
    ¬ ∀ (p : BracketPair) (g : Locators) (s : Scanner), Restores p g s := by
  have hlost : scannerGetRawTextBalanced 10 '{' '}' ⟨false, 0, [], 1⟩ openClass =
      some (none, { openClass with str := none }) := by
    decide
  refine ⟨hlost, fun h => ?_⟩
  obtain ⟨text, steps, hraw⟩ := h braces ⟨false, 0, [], 1⟩ openClass
  have hsame := (raw_mono hlost (Nat.le_max_right steps 10)).symm.trans
    (hraw _ (Nat.le_max_left steps 10))
  cases hsame

end Swig4Ada.Swig

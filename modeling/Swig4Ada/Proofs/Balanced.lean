import Swig4Ada.Swig.Balanced
import Swig4Ada.Proofs.Scanner

/-!
# Where the code in brackets ends

Both machines read their text as the sequence of its comments, literals and other characters,
except that a character directly behind a division sign is not looked at unless it opens a
bracket. So they find the bracket that matches as long as no closing bracket and no quote is
in such a place before it.
-/

namespace Swig4Ada.Swig

open Swig4Ada.Lib

/-! ## Brackets -/

/-- Two brackets that are nothing else in the text. -/
structure BracketPair where
  opening : Char
  closing : Char
  distinct : opening ≠ closing
  brackets : ∀ c ∈ ['/', '"', '\'', '\n'], c ≠ opening ∧ c ≠ closing

/-- `inside` ends with the bracket that matches the one in front of the text. -/
def BracketPair.Matches (p : BracketPair) (t inside rest : List Char) : Prop :=
  ∃ pre post, lexemes plain t = pre ++ .char p.closing :: post ∧
    Balanced p.opening p.closing (codeOf pre) ∧
    inside = textOf pre ++ [p.closing] ∧ rest = textOf post

/-- The text that is read from a scanner: a null character ends it. -/
def Scanner.input (s : Scanner) : List Char :=
  (s.str.elim [] fun src => src.after ++ s.scanobjs.flatMap Source.after).takeWhile (· ≠ '\x00')

/-- The bracket that matches is found where there is one, and the raw text is the same. -/
def SkipsBalanced (p : BracketPair) (g : Locators) (s : Scanner) : Prop :=
  ∃ result g' s',
    (∃ steps, ∀ fuel ≥ steps,
      scannerSkipBalanced fuel p.opening p.closing g s = some (result, g', s')) ∧
    ((result = 0 ∧ ∃ inside, p.Matches s.input inside s'.input ∧ s'.text = p.opening :: inside) ∨
      (result = -1 ∧ ∀ inside rest, ¬ p.Matches s.input inside rest)) ∧
    ∀ fuel text s'', scannerGetRawTextBalanced fuel p.opening p.closing g s = some (some text, s'') →
      result = 0 ∧ text = s'.text

/-- Up to the bracket that matches, each lexeme directly behind a division sign is one of
those. -/
def Divisors (p : BracketPair) (those : Lexeme → Prop) (n : Nat) (ls : List Lexeme) : Prop :=
  ∀ pre x post, ls = pre ++ .char '/' :: x :: post →
    (nesting p.opening p.closing n (codeOf pre)).isSome → those x

def IsChar (x : Lexeme) : Prop := ∃ c, x = .char c

/-- No quote and no closing bracket. -/
def BracketPair.IsDivisor (p : BracketPair) (x : Lexeme) : Prop :=
  ∃ c, x = .char c ∧ c ≠ p.closing

/-- The machines do not look at these characters behind a division sign. -/
def BracketPair.reader (p : BracketPair) : Reader :=
  { plain with past := fun x => x ≠ p.opening }

variable {p : BracketPair} {s : Scanner} {g : Locators} {c : Char} {t rest : List Char}
  {v : Balance} {n m fuel : Nat}

/-! ## Reading -/

theorem nextcharOf_input (objs : List Source) (s : Scanner) (src : Source) :
    match (src.after ++ objs.flatMap Source.after).takeWhile (· ≠ '\x00') with
    | [] => (Scanner.nextcharOf objs s src).1 = '\x00'
    | c :: t => c ≠ '\x00' ∧ ∃ s', Scanner.nextcharOf objs s src = (c, s') ∧ s'.input = t ∧
        s'.text = s.text ++ [c] := by
  induction objs generalizing s src with
  | nil =>
      obtain ⟨before, _ | ⟨c, after⟩, line⟩ := src
      · rfl
      · by_cases hc : c = '\x00'
        · subst hc
          rfl
        · simp only [List.flatMap_nil, List.append_nil]
          rw [List.takeWhile_cons_of_pos (by simpa using hc)]
          exact ⟨hc, _, rfl, by simp [Scanner.input], rfl⟩
  | cons next objs ih =>
      obtain ⟨before, _ | ⟨c, after⟩, line⟩ := src
      · exact ih { s with line := next.line } next
      · by_cases hc : c = '\x00'
        · subst hc
          rfl
        · simp only [List.cons_append]
          rw [List.takeWhile_cons_of_pos (by simpa using hc)]
          exact ⟨hc, _, rfl, rfl, rfl⟩

theorem nextchar_end (h : s.input = []) : s.nextchar.1 = '\x00' := by
  obtain ⟨text, _ | src, scanobjs, line, startLine, freezeLine⟩ := s
  · rfl
  · have hread := nextcharOf_input scanobjs
      ⟨text, some src, scanobjs, line, startLine, freezeLine⟩ src
    rw [show (src.after ++ scanobjs.flatMap Source.after).takeWhile (· ≠ '\x00') = [] from h]
      at hread
    exact hread

theorem nextchar_input (h : s.input = c :: t) :
    c ≠ '\x00' ∧ ∃ s', s.nextchar = (c, s') ∧ s'.input = t ∧ s'.text = s.text ++ [c] := by
  obtain ⟨text, _ | src, scanobjs, line, startLine, freezeLine⟩ := s
  · cases h
  · have hread := nextcharOf_input scanobjs
      ⟨text, some src, scanobjs, line, startLine, freezeLine⟩ src
    rw [show (src.after ++ scanobjs.flatMap Source.after).takeWhile (· ≠ '\x00') = c :: t from h]
      at hread
    exact hread

theorem scannerLocator_reads (g : Locators) (s : Scanner) (loc : List Char) :
    (scannerLocator g s loc).2.input = s.input ∧ (scannerLocator g s loc).2.text = s.text := by
  have hset : ∀ line, (s.setLocation line).input = s.input := by
    intro line
    obtain ⟨text, _ | src, scanobjs, line, startLine, freezeLine⟩ := s <;> rfl
  unfold scannerLocator
  split
  · exact ⟨rfl, rfl⟩
  · split
    · split
      · exact ⟨rfl, rfl⟩
      · exact ⟨hset _, rfl⟩
    · exact ⟨hset _, rfl⟩

/-! ## The loop on a text -/

/-- What is left of a text when a loop has found the bracket. -/
def run (locators : Bool) (p : BracketPair) : Balance → List Char → Option (List Char)
  | v, [] => if v.numLevels = 0 then some [] else none
  | v, c :: t =>
      if v.numLevels = 0 then some (c :: t)
      else run locators p (balanceTurn locators p.opening p.closing v c) t

theorem balanceLoop_run (locators : Bool) (hs : s.input = t) (hfuel : t.length + 1 < fuel) :
    ∃ g' s', balanceLoop locators p.opening p.closing fuel v g s =
        some ((run locators p v t).isSome, g', s') ∧
      ∀ rest, run locators p v t = some rest →
        ∃ inside, t = inside ++ rest ∧ s'.text = s.text ++ inside ∧ s'.input = rest := by
  induction t generalizing fuel v g s with
  | nil =>
      obtain ⟨fuel, rfl⟩ : ∃ f, fuel = f + 1 := ⟨fuel - 1, by omega⟩
      rw [balanceLoop, run]
      by_cases hv : v.numLevels = 0
      · rw [if_pos hv, if_pos hv]
        refine ⟨g, s, rfl, fun rest hrest => ⟨[], ?_, (List.append_nil _).symm, ?_⟩⟩
        · exact Option.some.inj hrest
        · exact hs.trans (Option.some.inj hrest)
      · rw [if_neg hv, if_neg hv]
        have hend := nextchar_end hs
        simp only [hend, if_true]
        exact ⟨g, _, rfl, (by intro k h; cases h)⟩
  | cons c t ih =>
      rw [List.length_cons] at hfuel
      obtain ⟨fuel, rfl⟩ : ∃ f, fuel = f + 1 := ⟨fuel - 1, by omega⟩
      rw [balanceLoop, run]
      by_cases hv : v.numLevels = 0
      · rw [if_pos hv, if_pos hv]
        refine ⟨g, s, rfl, fun rest hrest => ⟨[], ?_, (List.append_nil _).symm, ?_⟩⟩
        · exact Option.some.inj hrest
        · exact hs.trans (Option.some.inj hrest)
      · rw [if_neg hv, if_neg hv]
        obtain ⟨hc, s', hread, hinput, htext⟩ := nextchar_input hs
        simp only [hread, hc, if_false]
        obtain ⟨g₁, s₁, hcall, hinput₁, htext₁⟩ : ∃ g₁ s₁,
            (if v.state = .locatorStar ∧ c = '/' then
              scannerLocator g s' (balanceTurn locators p.opening p.closing v c).locator
            else (g, s')) = (g₁, s₁) ∧ s₁.input = t ∧ s₁.text = s.text ++ [c] := by
          split
          · have hsame := scannerLocator_reads g s'
              (balanceTurn locators p.opening p.closing v c).locator
            exact ⟨_, _, rfl, hsame.1.trans hinput, hsame.2.trans htext⟩
          · exact ⟨g, s', rfl, hinput, htext⟩
        rw [hcall]
        obtain ⟨g', s₂, hloop, hrest⟩ := ih (v := balanceTurn locators p.opening p.closing v c)
          (g := g₁) hinput₁ (by omega : t.length + 1 < fuel)
        refine ⟨g', s₂, hloop, fun rest h => ?_⟩
        obtain ⟨inside, rfl, htext₂, hinput₂⟩ := hrest rest h
        exact ⟨c :: inside, rfl, by rw [htext₂, htext₁, List.append_assoc]; rfl, hinput₂⟩

/-! ## The machine on lexemes -/

section Run

variable {locators : Bool} {st : BalanceState} {l : List Char} {q : Char}

/-- What has been kept of a locator does not matter for the brackets. -/
theorem run_locator {k : List Char} :
    run locators p ⟨n, st, l⟩ t = run locators p ⟨n, st, k⟩ t := by
  induction t generalizing n st l k with
  | nil => rfl
  | cons c t ih =>
      rw [run, run]
      by_cases hn : n = 0
      · rw [if_pos hn, if_pos hn]
      · rw [if_neg hn, if_neg hn]
        cases st with
        | code =>
            simp only [balanceTurn, balanceCode]
            split_ifs <;> exact ih
        | locator =>
            simp only [balanceTurn]
            exact ih
        | escape q => exact ih
        | slash | lineComment | commentStart | comment | commentStar | literal q
        | locatorStart missing | locatorStar =>
            simp only [balanceTurn]
            split_ifs <;> exact ih

theorem run_closed : run locators p ⟨0, st, l⟩ t = some t := by
  cases t <;> rfl

theorem run_open : run locators p ⟨n + 1, st, l⟩ (c :: t) =
    run locators p (balanceTurn locators p.opening p.closing ⟨n + 1, st, l⟩ c) t := by
  rw [run, if_neg (Nat.succ_ne_zero n)]

theorem run_lineComment : run locators p ⟨n + 1, .lineComment, l⟩ t =
    run locators p ⟨n + 1, .code, l⟩ (lineEnd t).2 := by
  induction t with
  | nil => rfl
  | cons c t ih =>
      rw [run_open, lineEnd]
      simp only [balanceTurn]
      by_cases hc : c = '\n'
      · rw [if_pos hc, if_pos hc]
      · rw [if_neg hc, if_neg hc]
        exact ih

theorem run_literal : run locators p ⟨n + 1, .literal q, l⟩ t =
    (literalEnd q t).bind fun r => run locators p ⟨n + 1, .code, l⟩ r.2 := by
  fun_induction literalEnd q t with
  | case1 => rfl
  | case2 =>
      rw [run_open]
      simp only [balanceTurn, if_true]
      rfl
  | case3 c hc =>
      rw [run_open]
      simp only [balanceTurn]
      rw [if_neg hc]
      split_ifs <;> rfl
  | case4 =>
      rw [run_open]
      simp only [balanceTurn, if_true]
      rfl
  | case5 x t hne ih =>
      rw [run_open]
      simp only [balanceTurn, if_true]
      rw [if_neg hne, run_open]
      simp only [balanceTurn]
      rw [ih, Option.bind_map]
      rfl
  | case6 c x t hne hesc ih =>
      rw [run_open]
      simp only [balanceTurn]
      rw [if_neg hne, if_neg hesc]
      rw [ih, Option.bind_map]
      rfl

/-- The states in a comment, and whether there is a star that may belong to its end. -/
def inComment : BalanceState → Option Bool
  | .commentStart | .comment | .locator => some false
  | .locatorStart missing => if '*' ∈ missing then none else some false
  | .commentStar | .locatorStar => some true
  | _ => none

/-- A turn in a comment ends it or goes on in it. -/
theorem comment_turn (locators : Bool) (p : BracketPair) (n : Nat) (l : List Char) {star : Bool}
    (hst : inComment st = some star) (c : Char) :
    (star = true ∧ c = '/' ∧
      ∃ l', balanceTurn locators p.opening p.closing ⟨n, st, l⟩ c = ⟨n, .code, l'⟩) ∨
    (¬ (star = true ∧ c = '/') ∧
      ∃ st' l', balanceTurn locators p.opening p.closing ⟨n, st, l⟩ c = ⟨n, st', l'⟩ ∧
        inComment st' = some (decide (c = '*'))) := by
  cases st with
  | code | slash | lineComment | literal q | escape q => cases hst
  | commentStart =>
      cases hst
      refine Or.inr ⟨nofun, ?_⟩
      simp only [balanceTurn]
      by_cases hc : c = '*'
      · exact ⟨.commentStar, l, by rw [if_pos hc], by rw [decide_eq_true hc]; rfl⟩
      · rw [if_neg hc, decide_eq_false hc]
        split
        · exact ⟨_, _, rfl, by decide⟩
        · exact ⟨_, _, rfl, rfl⟩
  | comment =>
      cases hst
      refine Or.inr ⟨nofun, ?_⟩
      simp only [balanceTurn]
      by_cases hc : c = '*'
      · exact ⟨.commentStar, l, by rw [if_pos hc], by rw [decide_eq_true hc]; rfl⟩
      · exact ⟨.comment, l, by rw [if_neg hc], by rw [decide_eq_false hc]; rfl⟩
  | locator =>
      cases hst
      refine Or.inr ⟨nofun, _, _, rfl, ?_⟩
      by_cases hc : c = '*'
      · rw [if_pos hc, decide_eq_true hc]
        rfl
      · rw [if_neg hc, decide_eq_false hc]
        rfl
  | locatorStart missing =>
      rw [inComment] at hst
      split at hst
      next => cases hst
      next hmissing =>
        cases hst
        refine Or.inr ⟨nofun, ?_⟩
        simp only [balanceTurn]
        split
        next hhead =>
          have hc : c ≠ '*' := by
            rintro rfl
            exact hmissing (List.mem_of_mem_head? hhead)
          rw [decide_eq_false hc]
          split
          · exact ⟨_, _, rfl, rfl⟩
          · exact ⟨_, _, rfl, if_neg fun h => hmissing (List.mem_of_mem_tail h)⟩
        next =>
          by_cases hc : c = '*'
          · exact ⟨.commentStar, l, by rw [if_pos hc], by rw [decide_eq_true hc]; rfl⟩
          · exact ⟨.comment, l, by rw [if_neg hc], by rw [decide_eq_false hc]; rfl⟩
  | commentStar =>
      cases hst
      simp only [balanceTurn]
      by_cases hc : c = '*'
      · subst hc
        exact Or.inr ⟨by decide, .commentStar, l, rfl, rfl⟩
      · by_cases hslash : c = '/'
        · exact Or.inl ⟨trivial, hslash, l, by rw [if_neg hc, if_pos hslash]⟩
        · refine Or.inr ⟨fun h => hslash h.2, .comment, l, ?_, by rw [decide_eq_false hc]; rfl⟩
          rw [if_neg hc, if_neg hslash]
  | locatorStar =>
      cases hst
      simp only [balanceTurn]
      by_cases hslash : c = '/'
      · exact Or.inl ⟨trivial, hslash, _, by rw [if_pos hslash]⟩
      · refine Or.inr ⟨fun h => hslash h.2, ?_⟩
        rw [if_neg hslash]
        by_cases hc : c = '*'
        · exact ⟨.commentStar, l, by rw [if_pos hc], by rw [decide_eq_true hc]; rfl⟩
        · exact ⟨.comment, l, by rw [if_neg hc], by rw [decide_eq_false hc]; rfl⟩

/-- In a comment the machine goes to its end, also in a locator. -/
theorem run_comment {star : Bool} (hst : inComment st = some star) :
    run locators p ⟨n + 1, st, l⟩ t =
      (commentEnd (if star then '*' :: t else t)).bind
        fun r => run locators p ⟨n + 1, .code, []⟩ r.2 := by
  induction t generalizing st star l with
  | nil => cases star <;> rfl
  | cons c t ih =>
      rw [run_open]
      have hgo : ∀ {x : Char} {u : List Char}, ¬ (x = '*' ∧ u.head? = some '/') →
          (commentEnd (x :: u)).bind (fun r => run locators p ⟨n + 1, .code, []⟩ r.2) =
            (commentEnd u).bind fun r => run locators p ⟨n + 1, .code, []⟩ r.2 := by
        intro x u h
        rw [commentEnd, if_neg h, Option.bind_map]
        rfl
      rcases comment_turn locators p (n + 1) l hst c with
        ⟨rfl, rfl, l', hturn⟩ | ⟨hne, st', l', hturn, hin⟩
      · rw [hturn, run_locator (k := [])]
        rfl
      · rw [hturn, ih hin]
        have htail : (commentEnd (if star then '*' :: c :: t else c :: t)).bind
            (fun r => run locators p ⟨n + 1, .code, []⟩ r.2) =
            (commentEnd (c :: t)).bind fun r => run locators p ⟨n + 1, .code, []⟩ r.2 := by
          cases star with
          | false => rfl
          | true => exact hgo fun h => hne ⟨rfl, Option.some.inj h.2⟩
        rw [htail]
        by_cases hc : c = '*'
        · rw [decide_eq_true hc, hc]
          rfl
        · rw [decide_eq_false hc]
          exact (hgo fun h => hc h.1).symm

/-- The brackets outside of comments and literals count, one at a time. -/
theorem run_char (hc : c ≠ '/' ∧ c ≠ '"' ∧ c ≠ '\'') :
    run locators p ⟨n + 1, .code, l⟩ (c :: t) =
      match nesting p.opening p.closing n (codeOf [.char c]) with
      | none => some t
      | some m => run locators p ⟨m + 1, .code, l⟩ t := by
  rw [run_open, codeOf, codeOf]
  simp only [balanceTurn, balanceCode]
  by_cases hclosing : c = p.closing
  · subst hclosing
    rw [if_neg (Ne.symm p.distinct), if_pos rfl]
    cases n with
    | zero =>
        rw [nesting_closed]
        exact run_closed
    | succ n =>
        rw [nesting_closing, nesting_nil]
        rfl
  · rw [nesting_other hclosing, nesting_nil]
    by_cases hopening : c = p.opening
    · rw [if_pos hopening, if_pos hopening]
    · rw [if_neg hopening, if_neg hclosing, if_neg hc.1, if_neg (not_or.2 hc.2), if_neg hopening]

/-- The machine reads its text as lexemes. -/
theorem run_code (p : BracketPair) (n : Nat) (l t : List Char) :
    run locators p ⟨n + 1, .code, l⟩ t =
      (behindClosing p.opening p.closing n (lexemes p.reader t)).map textOf := by
  obtain ⟨hslash, hquote⟩ : (('/' : Char) ≠ p.opening ∧ '/' ≠ p.closing) ∧
      (∀ q, q = '"' ∨ q = '\'' → q ≠ p.opening ∧ q ≠ p.closing) := by
    refine ⟨p.brackets _ (by decide), fun q hq => p.brackets _ ?_⟩
    rcases hq with rfl | rfl <;> decide
  induction hlen : t.length using Nat.strong_induction_on generalizing t n l with
  | _ k ih =>
  cases t with
  | nil =>
      rw [lexemes_nil]
      rfl
  | cons c t =>
      rw [List.length_cons] at hlen
      have hrest : ∀ (n : Nat) (l u : List Char), u.length ≤ t.length →
          run locators p ⟨n + 1, .code, l⟩ u =
            (behindClosing p.opening p.closing n (lexemes p.reader u)).map textOf :=
        fun n l u hu => ih u.length (by omega) n l u rfl
      rw [lexemes_cons]
      by_cases hc : c = '/'
      · subst hc
        rw [run_open]
        simp only [balanceTurn, balanceCode, if_neg hslash.1, if_neg hslash.2, if_true]
        have hlevel : nesting p.opening p.closing n (codeOf [.char '/']) = some n := by
          rw [codeOf, codeOf, nesting_other hslash.2, if_neg hslash.1, nesting_nil]
        cases t with
        | nil =>
            rw [nextLexeme_end, lexemes_nil, behindClosing_some hlevel]
            rfl
        | cons x u =>
            rw [List.length_cons] at hrest
            rw [run_open]
            simp only [balanceTurn]
            by_cases hx : x = '/'
            · subst hx
              rw [if_pos rfl, run_lineComment, nextLexeme_line, behindClosing_skip rfl]
              exact hrest n l _ (Nat.le_succ_of_le (length_lineEnd u))
            · rw [if_neg hx]
              by_cases hstar : x = '*'
              · subst hstar
                have hstart : inComment .commentStart = some false := rfl
                rw [if_pos rfl, run_comment hstart, if_neg Bool.false_ne_true]
                cases hend : commentEnd u with
                | none =>
                    rw [nextLexeme_unclosed hend, lexemes_nil, behindClosing_skip rfl]
                    rfl
                | some r =>
                    rw [nextLexeme_comment hend,
                      behindClosing_skip rfl, ← hrest n [] r.2 ?_]
                    · rfl
                    · have hlen := congrArg List.length
                        (commentEnd_append hend)
                      rw [List.length_append] at hlen
                      omega
              · rw [if_neg hstar, nextLexeme_division hx hstar]
                by_cases hopening : x = p.opening
                · have hone : nesting p.opening p.closing n (codeOf [.char p.opening]) =
                      some (n + 1) := by
                    rw [codeOf, codeOf, nesting_other p.distinct, if_pos rfl, nesting_nil]
                  have hplain : nextLexeme p.reader p.opening u = (.char p.opening, u) :=
                    nextLexeme_char (Ne.symm hslash.1) fun hq => (hquote _ hq).1 rfl
                  subst hopening
                  rw [if_pos rfl, if_neg (by simp [BracketPair.reader]), behindClosing_some hlevel,
                    lexemes_cons, hplain, behindClosing_some hone]
                  exact hrest (n + 1) l u (Nat.le_succ _)
                · rw [if_neg hopening, if_pos (by simpa [BracketPair.reader] using hopening),
                    behindClosing_skip rfl]
                  exact hrest n l u (Nat.le_succ _)
      · by_cases hq : c = '"' ∨ c = '\''
        · rw [run_open]
          simp only [balanceTurn, balanceCode]
          rw [if_neg (hquote c hq).1, if_neg (hquote c hq).2, if_neg hc, if_pos hq, run_literal]
          cases hend : literalEnd c t with
          | none =>
              rw [nextLexeme_open hq hend, lexemes_nil, behindClosing_skip rfl]
              rfl
          | some r =>
              rw [nextLexeme_literal hq hend, behindClosing_skip rfl]
              exact hrest n l r.2 (length_literalEnd hend)
        · rw [nextLexeme_char hc hq, run_char ⟨hc, not_or.1 hq⟩]
          cases hlevel : nesting p.opening p.closing n (codeOf [.char c]) with
          | none =>
              rw [behindClosing_none hlevel]
              exact congrArg some (textOf_lexemes _ _).symm
          | some m =>
              rw [behindClosing_some hlevel]
              exact hrest m l t (le_refl _)

end Run

/-! ## What is behind a division sign -/

section Divisors

variable {those : Lexeme → Prop} {l : Lexeme} {ls post : List Lexeme} {x : Char} {u : List Char}

theorem divisors_cons (h : nesting p.opening p.closing n (codeOf [l]) = some m) :
    Divisors p those n (l :: ls) ↔
      Divisors p those m ls ∧ (l = .char '/' → ∀ x, ls.head? = some x → those x) := by
  constructor
  · intro hd
    refine ⟨fun pre x post heq hpre => ?_, fun hl x hx => ?_⟩
    · refine hd (l :: pre) x post (congrArg (l :: ·) heq) ?_
      rw [nesting_codeOf_cons, h]
      exact hpre
    · cases ls with
      | nil => cases hx
      | cons y ls =>
          cases hx
          exact hd [] x ls (by rw [hl]; rfl) (by rw [codeOf, nesting_nil]; rfl)
  · rintro ⟨hd, hhead⟩ (_ | ⟨l', pre⟩) x post heq hpre
    · obtain ⟨hl, heq⟩ := List.cons.inj heq
      exact hhead hl x (by rw [heq]; rfl)
    · rw [List.cons_append, List.cons.injEq] at heq
      obtain ⟨rfl, heq⟩ := heq
      rw [nesting_codeOf_cons, h] at hpre
      exact hd pre x post heq hpre

/-- Behind the bracket that matches everything may be. -/
theorem divisors_closed (h : nesting p.opening p.closing n (codeOf [l]) = none) :
    Divisors p those n (l :: ls) := by
  rintro (_ | ⟨l', pre⟩) x post heq hpre
  · obtain ⟨hl, -⟩ := List.cons.inj heq
    have hc := Lexeme.char.inj ((nesting_lexeme_none h).1.symm.trans hl)
    exact absurd hc.symm (p.brackets '/' (by decide)).2
  · rw [← (List.cons.inj heq).1, nesting_codeOf_cons, h] at hpre
    cases hpre

theorem nesting_slash : nesting p.opening p.closing n (codeOf [.char '/']) = some n := by
  obtain ⟨hopening, hclosing⟩ := p.brackets '/' (by decide)
  rw [codeOf, codeOf, nesting_other hclosing, if_neg hopening, nesting_nil]

theorem nextLexeme_opening (reader : Reader) (p : BracketPair) (u : List Char) :
    nextLexeme reader p.opening u = (.char p.opening, u) := by
  refine nextLexeme_char (Ne.symm (p.brackets '/' (by decide)).1) ?_
  rintro (h | h)
  · exact (p.brackets '"' (by decide)).1 h.symm
  · exact (p.brackets '\'' (by decide)).1 h.symm

/-- The two readers differ in a character behind a division sign. -/
theorem nextLexeme_reader (p : BracketPair) (c : Char) (t : List Char) :
    (∃ x u, c = '/' ∧ t = x :: u ∧ x ≠ '/' ∧ x ≠ p.opening ∧
      nextLexeme p.reader c t = (.passed x, u) ∧
      nextLexeme plain c t = (.char '/', x :: u)) ∨
    (nextLexeme p.reader c t = nextLexeme plain c t ∧
      ((nextLexeme plain c t).1 = .char '/' →
        ∀ x, (lexemes plain (nextLexeme plain c t).2).head? = some x → p.IsDivisor x)) := by
  by_cases hc : c = '/'
  · subst hc
    cases t with
    | nil =>
        refine Or.inr ⟨rfl, fun _ x hx => ?_⟩
        rw [nextLexeme_end, lexemes_nil] at hx
        cases hx
    | cons x u =>
        by_cases hslash : x = '/'
        · subst hslash
          exact Or.inr ⟨rfl, nofun⟩
        · by_cases hstar : x = '*'
          · subst hstar
            cases hend : commentEnd u with
            | none =>
                have hcode : p.reader.commentEnd u = none := hend
                have hplain : plain.commentEnd u = none := hend
                rw [nextLexeme_unclosed hcode, nextLexeme_unclosed hplain]
                exact Or.inr ⟨rfl, nofun⟩
            | some r =>
                have hcode : p.reader.commentEnd u = some r := hend
                have hplain : plain.commentEnd u = some r := hend
                rw [nextLexeme_comment hcode, nextLexeme_comment hplain]
                exact Or.inr ⟨rfl, nofun⟩
          · rw [nextLexeme_division hslash hstar, nextLexeme_division hslash hstar]
            by_cases hopening : x = p.opening
            · subst hopening
              refine Or.inr ⟨by simp [BracketPair.reader, plain], fun _ y hy => ?_⟩
              simp only [plain, Bool.false_eq_true, if_false] at hy
              change (lexemes plain (p.opening :: u)).head? = some y at hy
              rw [lexemes_cons, nextLexeme_opening] at hy
              cases hy
              exact ⟨_, rfl, p.distinct⟩
            · exact Or.inl ⟨x, u, rfl, rfl, hslash, hopening,
                if_pos (by simpa [BracketPair.reader] using hopening), rfl⟩
  · by_cases hq : c = '"' ∨ c = '\''
    · cases hend : literalEnd c t with
      | none =>
          rw [nextLexeme_open hq hend, nextLexeme_open hq hend]
          exact Or.inr ⟨rfl, nofun⟩
      | some r =>
          rw [nextLexeme_literal hq hend,
            nextLexeme_literal hq hend]
          exact Or.inr ⟨rfl, nofun⟩
    · rw [nextLexeme_char hc hq, nextLexeme_char hc hq]
      exact Or.inr ⟨rfl, fun h => absurd (Lexeme.char.inj h) hc⟩

/-- A lexeme behind a division sign that is a character. -/
theorem nextLexeme_isChar (hx : x ≠ '/') (h : IsChar (nextLexeme plain x u).1) :
    nextLexeme plain x u = (.char x, u) := by
  by_cases hq : x = '"' ∨ x = '\''
  · obtain ⟨c, hc⟩ := h
    cases hend : literalEnd x u with
    | none =>
        rw [nextLexeme_open hq hend] at hc
        cases hc
    | some r =>
        rw [nextLexeme_literal hq hend] at hc
        cases hc
  · exact nextLexeme_char hx hq

/-- Where each division sign has a divisor, both readers find the same bracket. -/
theorem behindClosing_reader (h : Divisors p p.IsDivisor n (lexemes plain t)) :
    (behindClosing p.opening p.closing n (lexemes p.reader t)).map textOf =
      (behindClosing p.opening p.closing n (lexemes plain t)).map textOf := by
  induction hlen : t.length using Nat.strong_induction_on generalizing t n with
  | _ k ih =>
  cases t with
  | nil => rw [lexemes_nil, lexemes_nil]
  | cons c t =>
      rw [List.length_cons] at hlen
      rw [lexemes_cons] at h
      rw [lexemes_cons, lexemes_cons]
      rcases nextLexeme_reader p c t with
        ⟨x, u, rfl, rfl, hslash, hopening, hreader, hplain⟩ | ⟨hsame, -⟩
      · rw [List.length_cons] at hlen
        rw [hplain, divisors_cons nesting_slash, lexemes_cons] at h
        obtain ⟨y, hy, hclosing⟩ := h.2 rfl _ rfl
        have hnext := nextLexeme_isChar hslash ⟨y, hy⟩
        rw [hnext] at hy
        obtain rfl := Lexeme.char.inj hy
        have hlevel : nesting p.opening p.closing n (codeOf [.char x]) = some n := by
          rw [codeOf, codeOf, nesting_other hclosing, if_neg hopening, nesting_nil]
        rw [hnext, divisors_cons hlevel] at h
        rw [hreader, hplain, behindClosing_skip rfl, behindClosing_some nesting_slash,
          lexemes_cons, hnext, behindClosing_some hlevel]
        exact ih u.length (by omega) h.1.1 rfl
      · rw [hsame]
        have hshort := length_nextLexeme plain c t
        cases hlevel : nesting p.opening p.closing n (codeOf [(nextLexeme plain c t).1]) with
        | none =>
            rw [behindClosing_none hlevel, behindClosing_none hlevel]
            exact congrArg some ((textOf_lexemes _ _).trans (textOf_lexemes _ _).symm)
        | some m =>
            rw [divisors_cons hlevel] at h
            rw [behindClosing_some hlevel, behindClosing_some hlevel]
            exact ih _ (by omega) h.1 rfl

theorem textOf_behindClosing (h : behindClosing p.opening p.closing n ls = some post) :
    (textOf post).length < (textOf ls).length := by
  obtain ⟨pre, rfl, -⟩ := behindClosing_iff.1 h
  rw [textOf_append, textOf_cons, List.length_append, List.length_append]
  simp only [Lexeme.text, List.length_cons]
  omega

/-- The reader of the machines finds a bracket at most behind the one that matches, and it
finds another where more brackets are open or one is passed. -/
theorem behindClosing_late {post' : List Lexeme} (hnm : n ≤ m)
    (hno : Divisors p IsChar n (lexemes plain t))
    (h : behindClosing p.opening p.closing m (lexemes p.reader t) = some post') :
    ∃ post, behindClosing p.opening p.closing n (lexemes plain t) = some post ∧
      (textOf post').length ≤ (textOf post).length ∧
      (n < m ∨ ¬ Divisors p p.IsDivisor n (lexemes plain t) →
        (textOf post').length < (textOf post).length) := by
  induction hlen : t.length using Nat.strong_induction_on generalizing t n m with
  | _ k ih =>
  cases t with
  | nil =>
      rw [lexemes_nil] at h
      cases h
  | cons c t =>
      rw [List.length_cons] at hlen
      rw [lexemes_cons] at h hno
      rw [lexemes_cons]
      rcases nextLexeme_reader p c t with
        ⟨x, u, rfl, rfl, hslash, hopening, hreader, hplain⟩ | ⟨hsame, hdivisor⟩
      · rw [List.length_cons] at hlen
        rw [hplain, divisors_cons nesting_slash, lexemes_cons] at hno
        have hnext := nextLexeme_isChar hslash (hno.2 rfl _ rfl)
        rw [hnext] at hno
        rw [hreader, behindClosing_skip rfl] at h
        rw [hplain, behindClosing_some nesting_slash, divisors_cons nesting_slash, lexemes_cons,
          hnext]
        by_cases hclosing : x = p.closing
        · subst hclosing
          cases n with
          | zero =>
              rw [behindClosing_none (by rw [codeOf, codeOf, nesting_closed])]
              have hlt := textOf_behindClosing h
              rw [textOf_lexemes] at hlt
              refine ⟨_, rfl, ?_⟩
              rw [textOf_lexemes]
              exact ⟨le_of_lt hlt, fun _ => hlt⟩
          | succ n =>
              have hlevel : nesting p.opening p.closing (n + 1) (codeOf [.char p.closing]) =
                  some n := by
                rw [codeOf, codeOf, nesting_closing, nesting_nil]
              rw [divisors_cons hlevel] at hno
              rw [behindClosing_some hlevel]
              obtain ⟨post, hpost, hle, hlt⟩ := ih u.length (by omega) (by omega) hno.1.1 h rfl
              exact ⟨post, hpost, hle, fun _ => hlt (Or.inl (by omega))⟩
        · have hlevel : nesting p.opening p.closing n (codeOf [.char x]) = some n := by
            rw [codeOf, codeOf, nesting_other hclosing, if_neg hopening, nesting_nil]
          rw [divisors_cons hlevel] at hno ⊢
          rw [behindClosing_some hlevel]
          obtain ⟨post, hpost, hle, hlt⟩ := ih u.length (by omega) hnm hno.1.1 h rfl
          refine ⟨post, hpost, hle, fun hor => hlt (hor.imp_right fun hd hin => hd ⟨⟨hin, ?_⟩, ?_⟩)⟩
          · exact fun hx => absurd (Lexeme.char.inj hx) hslash
          · rintro - y ⟨⟩
            exact ⟨x, rfl, hclosing⟩
      · rw [hsame] at h
        have hshort := length_nextLexeme plain c t
        cases hlevel : nesting p.opening p.closing n (codeOf [(nextLexeme plain c t).1]) with
        | none =>
            rw [behindClosing_none hlevel]
            refine ⟨_, rfl, ?_⟩
            rw [textOf_lexemes]
            obtain ⟨hl, rfl⟩ := nesting_lexeme_none hlevel
            rw [hl] at h
            cases m with
            | zero =>
                rw [behindClosing_none (by rw [codeOf, codeOf, nesting_closed])] at h
                cases h
                rw [textOf_lexemes]
                refine ⟨le_refl _, ?_⟩
                rintro (hlt | hd)
                · exact absurd hlt (Nat.lt_irrefl 0)
                · exact absurd (divisors_closed hlevel) hd
            | succ m =>
                rw [behindClosing_some (by rw [codeOf, codeOf, nesting_closing, nesting_nil])] at h
                have hlt := textOf_behindClosing h
                rw [textOf_lexemes] at hlt
                exact ⟨le_of_lt hlt, fun _ => hlt⟩
        | some n' =>
            have hlevel' := nesting_add hlevel (m - n)
            rw [Nat.add_sub_cancel' hnm] at hlevel'
            rw [divisors_cons hlevel] at hno ⊢
            rw [behindClosing_some hlevel'] at h
            rw [behindClosing_some hlevel]
            obtain ⟨post, hpost, hle, hlt⟩ := ih _ (by omega) (by omega) hno.1 h rfl
            refine ⟨post, hpost, hle, fun hor => hlt (hor.imp (fun h => by omega) fun hd hin => ?_)⟩
            exact hd ⟨hin, hdivisor⟩

end Divisors

/-! ## The two functions -/

theorem matches_iff {inside : List Char} : p.Matches t inside rest ↔
    t = inside ++ rest ∧
      (behindClosing p.opening p.closing 0 (lexemes plain t)).map textOf = some rest := by
  constructor
  · rintro ⟨pre, post, hsplit, hbalanced, rfl, rfl⟩
    refine ⟨?_, ?_⟩
    · have htext := congrArg textOf hsplit
      rw [textOf_lexemes, textOf_append, textOf_cons] at htext
      rw [htext, List.append_assoc]
      rfl
    · rw [behindClosing_iff.2 ⟨pre, hsplit, hbalanced⟩]
      rfl
  · rintro ⟨ht, hmap⟩
    obtain ⟨post, hpost, rfl⟩ := Option.map_eq_some_iff.1 hmap
    obtain ⟨pre, hsplit, hbalanced⟩ := behindClosing_iff.1 hpost
    refine ⟨pre, post, hsplit, hbalanced, ?_, rfl⟩
    have htext := congrArg textOf hsplit
    rw [textOf_lexemes, textOf_append, textOf_cons, ← List.append_assoc] at htext
    exact List.append_cancel_right (ht.symm.trans htext)

theorem balanceLoop_mono {locators : Bool} {startchar endchar : Char}
    {r : Bool × Locators × Scanner}
    (h : balanceLoop locators startchar endchar fuel v g s = some r) {fuel' : Nat}
    (hle : fuel ≤ fuel') : balanceLoop locators startchar endchar fuel' v g s = some r := by
  induction fuel generalizing v g s fuel' with
  | zero => cases h
  | succ fuel ih =>
      obtain ⟨fuel', rfl⟩ : ∃ f, fuel' = f + 1 := ⟨fuel' - 1, by omega⟩
      rw [balanceLoop] at h ⊢
      split at h
      next hv => rw [if_pos hv]; exact h
      next hv =>
        rw [if_neg hv]
        simp only at h ⊢
        by_cases hc : s.nextchar.1 = '\x00'
        · rw [if_pos hc] at h ⊢
          exact h
        · rw [if_neg hc] at h ⊢
          exact ih h (by omega)

/-- What the machines leave of a text. -/
def BracketPair.left (p : BracketPair) (reader : Reader) (t : List Char) : Option (List Char) :=
  (behindClosing p.opening p.closing 0 (lexemes reader t)).map textOf

theorem balance_ends (locators : Bool) (p : BracketPair) (g : Locators) (s : Scanner) :
    ∃ g' s', (∀ fuel ≥ s.input.length + 2, balance locators fuel p.opening p.closing g s =
        some ((p.left p.reader s.input).isSome, g', s')) ∧
      ∀ rest, p.left p.reader s.input = some rest →
        ∃ inside, s.input = inside ++ rest ∧ s'.text = p.opening :: inside ∧ s'.input = rest := by
  obtain ⟨g', s', hloop, hrest⟩ := balanceLoop_run locators (p := p) (g := g)
    (s := { s with text := [p.opening] }) (v := ⟨1, .code, []⟩) (t := s.input) rfl
    (Nat.lt_succ_self _)
  rw [run_code] at hloop hrest
  exact ⟨g', s', fun fuel hfuel => balanceLoop_mono hloop hfuel, hrest⟩

theorem raw_text {text : List Char} {s'' : Scanner}
    (h : scannerGetRawTextBalanced fuel p.opening p.closing g s = some (some text, s'')) :
    ∃ inside rest, s.input = inside ++ rest ∧ text = p.opening :: inside ∧
      p.left p.reader s.input = some rest := by
  obtain ⟨g₁, s₁, hends, hrest⟩ := balance_ends false p g s
  obtain ⟨⟨found, g', s'⟩, hloop, heq⟩ := Option.map_eq_some_iff.1 h
  have hsame := (balanceLoop_mono hloop (Nat.le_max_left fuel (s.input.length + 2))).symm.trans
    (hends _ (Nat.le_max_right fuel (s.input.length + 2)))
  rw [Option.some.injEq, Prod.mk.injEq, Prod.mk.injEq] at hsame
  obtain ⟨hfound, -, rfl⟩ := hsame
  cases hleft : p.left p.reader s.input with
  | none =>
      rw [hfound, hleft] at heq
      simp at heq
  | some rest =>
      obtain ⟨inside, hinput, htext, -⟩ := hrest rest hleft
      rw [hfound, hleft] at heq
      simp only [Option.isSome_some, if_true, Prod.mk.injEq, Option.some.injEq] at heq
      exact ⟨inside, rest, hinput, heq.1.symm.trans htext, rfl⟩

theorem skipsBalanced_left :
    SkipsBalanced p g s ↔ p.left p.reader s.input = p.left plain s.input := by
  obtain ⟨g', s', hends, hrest⟩ := balance_ends true p g s
  constructor
  · rintro ⟨result, g₁, s₁, ⟨steps, hskip⟩, hresult, -⟩
    have hsame := hskip (max steps (s.input.length + 2)) (le_max_left _ _)
    rw [scannerSkipBalanced, hends _ (le_max_right _ _), Option.map_some, Option.some.injEq,
      Prod.mk.injEq, Prod.mk.injEq] at hsame
    obtain ⟨hcode, -, rfl⟩ := hsame
    rcases hresult with ⟨rfl, inside, hmatch, htext⟩ | ⟨rfl, hno⟩
    · cases hleft : p.left p.reader s.input with
      | none =>
          rw [hleft] at hcode
          cases hcode
      | some rest =>
          obtain ⟨-, -, -, hinput⟩ := hrest rest hleft
          rw [← hinput]
          exact (matches_iff.1 hmatch).2.symm
    · cases hplain : p.left plain s.input with
      | none =>
          cases hleft : p.left p.reader s.input with
          | none => rfl
          | some rest =>
              rw [hleft] at hcode
              cases hcode
      | some rest =>
          obtain ⟨post, hpost, rfl⟩ := Option.map_eq_some_iff.1 hplain
          obtain ⟨pre, hsplit, hbalanced⟩ := behindClosing_iff.1 hpost
          exact absurd ⟨pre, post, hsplit, hbalanced, rfl, rfl⟩ (hno _ _)
  · intro hsame
    refine ⟨if (p.left p.reader s.input).isSome then 0 else -1, g', s',
      ⟨s.input.length + 2, fun fuel hfuel => ?_⟩, ?_, fun fuel text s'' hraw => ?_⟩
    · rw [scannerSkipBalanced, hends fuel hfuel]
      rfl
    · cases hleft : p.left p.reader s.input with
      | none =>
          refine Or.inr ⟨rfl, fun inside rest hmatch => ?_⟩
          have hplain := (matches_iff.1 hmatch).2
          rw [← BracketPair.left, ← hsame, hleft] at hplain
          cases hplain
      | some rest =>
          obtain ⟨inside, hinput, htext, hafter⟩ := hrest rest hleft
          refine Or.inl ⟨rfl, inside, matches_iff.2 ⟨?_, ?_⟩, htext⟩
          · rw [hafter]
            exact hinput
          · rw [← BracketPair.left, ← hsame, hleft, hafter]
    · obtain ⟨inside, rest, hinput, rfl, hleft⟩ := raw_text hraw
      obtain ⟨inside', hinput', htext, -⟩ := hrest rest hleft
      rw [hleft]
      refine ⟨rfl, ?_⟩
      rw [htext, List.append_cancel_right (hinput.symm.trans hinput')]

/-- The bracket that matches is found where each division sign before it is followed by
neither a closing bracket nor a quote; and, where none is followed by a quote, only there or
where no bracket matches. -/
theorem skipsBalanced_iff (p : BracketPair) (g : Locators) (s : Scanner) :
    (Divisors p p.IsDivisor 0 (lexemes plain s.input) → SkipsBalanced p g s) ∧
      (Divisors p IsChar 0 (lexemes plain s.input) →
        (SkipsBalanced p g s ↔ ((∃ inside rest, p.Matches s.input inside rest) →
          Divisors p p.IsDivisor 0 (lexemes plain s.input)))) := by
  have hdivisors : Divisors p p.IsDivisor 0 (lexemes plain s.input) → SkipsBalanced p g s :=
    fun h => skipsBalanced_left.2 (behindClosing_reader h)
  refine ⟨hdivisors, fun hno => ⟨fun hskips hmatch => ?_, fun h => ?_⟩⟩
  · obtain ⟨inside, rest, hmatch⟩ := hmatch
    have hsame := skipsBalanced_left.1 hskips
    have hplain := (matches_iff.1 hmatch).2
    rw [BracketPair.left, BracketPair.left, hplain] at hsame
    obtain ⟨post', hpost', hrest'⟩ := Option.map_eq_some_iff.1 hsame
    obtain ⟨post, hpost, -, hlt⟩ := behindClosing_late (le_refl 0) hno hpost'
    rw [hpost, Option.map_some, Option.some.injEq] at hplain
    by_contra hd
    have := hlt (Or.inr hd)
    rw [hrest', hplain] at this
    exact Nat.lt_irrefl _ this
  · cases hpost : behindClosing p.opening p.closing 0 (lexemes plain s.input) with
    | none =>
        refine skipsBalanced_left.2 ?_
        rw [BracketPair.left, BracketPair.left, hpost]
        cases hpost' : behindClosing p.opening p.closing 0 (lexemes p.reader s.input) with
        | none => rfl
        | some post' =>
            obtain ⟨post, hpost₂, -⟩ := behindClosing_late (le_refl 0) hno hpost'
            rw [hpost] at hpost₂
            cases hpost₂
    | some post =>
        obtain ⟨pre, hsplit, hbalanced⟩ := behindClosing_iff.1 hpost
        exact hdivisors (h ⟨_, _, pre, post, hsplit, hbalanced, rfl, rfl⟩)

/-! ## A bracket behind a division sign -/

def braces : BracketPair := ⟨'{', '}', by decide, by simp⟩

/-- `/}` is what is left of a block. -/
def dividedBlock : Scanner where
  text := []
  str := some ⟨['{'], ['/', '}'], 1⟩
  scanobjs := []
  line := 1
  startLine := 1
  freezeLine := false

/-- The machines go past the bracket, to the end of the text. -/
theorem dividedBlock_missed :
    ¬ ∀ (p : BracketPair) (g : Locators) (s : Scanner), SkipsBalanced p g s := by
  intro h
  have hsame := skipsBalanced_left.1 (h braces ⟨false, 0, [], 1⟩ dividedBlock)
  have hinput : dividedBlock.input = ['/', '}'] := rfl
  rw [hinput] at hsame
  have hreader : braces.left braces.reader ['/', '}'] = none := by
    rw [BracketPair.left, lexemes_cons, nextLexeme_division (by decide) (by decide),
      if_pos (by decide), lexemes_nil]
    rfl
  have hplain : braces.left plain ['/', '}'] = some [] := by
    rw [BracketPair.left, lexemes_cons, nextLexeme_division (by decide) (by decide),
      if_neg (by decide), lexemes_cons, nextLexeme_char (by decide) (by decide), lexemes_nil]
    rfl
  rw [hreader, hplain] at hsame
  cases hsame

end Swig4Ada.Swig

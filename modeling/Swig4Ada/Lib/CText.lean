import Swig4Ada.Lib.Brackets

/-!
# Comments and literals in the text of a program

A text is a sequence of comments, of literals between quotes with escapes, and of other
characters, and the brackets that count are among the last. Readers differ in where they
take a comment to end, and in whether they look at a character behind a division sign.
-/

namespace Swig4Ada.Lib

/-- Texts are compared character by character. -/
instance lawfulText : LawfulBEq (List Char) := inferInstance

/-! ## Ends -/

/-- A comment behind its slashes, up to and with the end of the line, and what follows. -/
def lineEnd : List Char → List Char × List Char
  | [] => ([], [])
  | c :: t => if c = '\n' then ([c], t) else (c :: (lineEnd t).1, (lineEnd t).2)

/-- A comment behind its slash and star, up to and with the first star and slash. -/
def commentEnd : List Char → Option (List Char × List Char)
  | [] => none
  | c :: t =>
      if c = '*' ∧ t.head? = some '/' then some ([c, '/'], t.tail)
      else (commentEnd t).map fun r => (c :: r.1, r.2)

/-- A literal behind its first quote, up to and with the last one. -/
def literalEnd (q : Char) : List Char → Option (List Char × List Char)
  | [] => none
  | [c] => if c = q then some ([c], []) else none
  | c :: x :: t =>
      if c = q then some ([c], x :: t)
      else if c = '\\' then (literalEnd q t).map fun r => (c :: x :: r.1, r.2)
      else (literalEnd q (x :: t)).map fun r => (c :: r.1, r.2)

variable {t : List Char} {q c : Char}

theorem lineEnd_append (t : List Char) : (lineEnd t).1 ++ (lineEnd t).2 = t := by
  induction t with
  | nil => rfl
  | cons c t ih =>
      rw [lineEnd]
      by_cases hc : c = '\n'
      · rw [if_pos hc]
        rfl
      · rw [if_neg hc]
        exact congrArg (c :: ·) ih

theorem commentEnd_append {r : List Char × List Char} (h : commentEnd t = some r) :
    r.1 ++ r.2 = t := by
  induction t generalizing r with
  | nil => cases h
  | cons c t ih =>
      rw [commentEnd] at h
      by_cases hc : c = '*' ∧ t.head? = some '/'
      · rw [if_pos hc] at h
        cases h
        cases t with
        | nil => cases hc.2
        | cons x t =>
            obtain rfl : x = '/' := Option.some.inj hc.2
            rfl
      · rw [if_neg hc] at h
        obtain ⟨r', hr, rfl⟩ := Option.map_eq_some_iff.1 h
        exact congrArg (c :: ·) (ih hr)

theorem literalEnd_append {r : List Char × List Char} (h : literalEnd q t = some r) :
    r.1 ++ r.2 = t := by
  fun_induction literalEnd q t generalizing r with
  | case1 => cases h
  | case2 => cases h; rfl
  | case3 => cases h
  | case4 => cases h; rfl
  | case5 x t hne ih =>
      obtain ⟨r', hr, rfl⟩ := Option.map_eq_some_iff.1 h
      exact congrArg ('\\' :: x :: ·) (ih hr)
  | case6 c x t hne hesc ih =>
      obtain ⟨r', hr, rfl⟩ := Option.map_eq_some_iff.1 h
      exact congrArg (c :: ·) (ih hr)

theorem length_lineEnd (t : List Char) : (lineEnd t).2.length ≤ t.length := by
  have h := congrArg List.length (lineEnd_append t)
  rw [List.length_append] at h
  omega

theorem length_literalEnd {r : List Char × List Char} (h : literalEnd q t = some r) :
    r.2.length ≤ t.length := by
  rw [← literalEnd_append h, List.length_append]
  omega

/-! ## The sequence -/

inductive Lexeme
  | char (c : Char)
  | comment (text : List Char)
  | literal (text : List Char)
  /-- A comment or a literal that does not end. -/
  | unclosed (text : List Char)
  /-- A division sign with a character that is not looked at. -/
  | passed (c : Char)
deriving DecidableEq, Repr

def Lexeme.text : Lexeme → List Char
  | .char c => [c]
  | .comment text | .literal text | .unclosed text => text
  | .passed c => ['/', c]

def Lexeme.isComment : Lexeme → Bool
  | .comment _ => true
  | _ => false

/-- What one reader of a program goes by. -/
structure Reader where
  /-- A comment behind its slash and star, and what follows. -/
  commentEnd : List Char → Option (List Char × List Char)
  splits : ∀ t r, commentEnd t = some r → r.1 ++ r.2 = t
  /-- The characters that it does not look at directly behind a division sign. -/
  past : Char → Bool

/-- The reader that follows the language. -/
def plain : Reader := ⟨commentEnd, fun _ _ => commentEnd_append, fun _ => false⟩

def nextLexeme (reader : Reader) (c : Char) (t : List Char) : Lexeme × List Char :=
  if c = '/' then
    match t with
    | [] => (.char '/', [])
    | x :: u =>
        if x = '/' then (.comment ('/' :: '/' :: (lineEnd u).1), (lineEnd u).2)
        else if x = '*' then
          match reader.commentEnd u with
          | none => (.unclosed ('/' :: '*' :: u), [])
          | some (inside, rest) => (.comment ('/' :: '*' :: inside), rest)
        else if reader.past x then (.passed x, u)
        else (.char '/', t)
  else if c = '"' ∨ c = '\'' then
    match literalEnd c t with
    | none => (.unclosed (c :: t), [])
    | some (inside, rest) => (.literal (c :: inside), rest)
  else (.char c, t)

section Next

variable {reader : Reader} {x : Char} {r : List Char × List Char}

theorem nextLexeme_end : nextLexeme reader '/' [] = (.char '/', []) := rfl

theorem nextLexeme_line :
    nextLexeme reader '/' ('/' :: t) = (.comment ('/' :: '/' :: (lineEnd t).1), (lineEnd t).2) :=
  rfl

theorem nextLexeme_comment (h : reader.commentEnd t = some r) :
    nextLexeme reader '/' ('*' :: t) = (.comment ('/' :: '*' :: r.1), r.2) := by
  simp [nextLexeme, h]

theorem nextLexeme_unclosed (h : reader.commentEnd t = none) :
    nextLexeme reader '/' ('*' :: t) = (.unclosed ('/' :: '*' :: t), []) := by
  simp [nextLexeme, h]

theorem nextLexeme_division (hslash : x ≠ '/') (hstar : x ≠ '*') :
    nextLexeme reader '/' (x :: t) =
      if reader.past x then (.passed x, t) else (.char '/', x :: t) := by
  simp [nextLexeme, hslash, hstar]

theorem nextLexeme_literal (hq : q = '"' ∨ q = '\'') (h : literalEnd q t = some r) :
    nextLexeme reader q t = (.literal (q :: r.1), r.2) := by
  have hslash : q ≠ '/' := by rcases hq with rfl | rfl <;> decide
  simp [nextLexeme, hslash, hq, h]

theorem nextLexeme_open (hq : q = '"' ∨ q = '\'') (h : literalEnd q t = none) :
    nextLexeme reader q t = (.unclosed (q :: t), []) := by
  have hslash : q ≠ '/' := by rcases hq with rfl | rfl <;> decide
  simp [nextLexeme, hslash, hq, h]

theorem nextLexeme_char (hslash : c ≠ '/') (hq : ¬ (c = '"' ∨ c = '\'')) :
    nextLexeme reader c t = (.char c, t) := by
  simp [nextLexeme, hslash, hq]

end Next

theorem nextLexeme_text (reader : Reader) (c : Char) (t : List Char) :
    (nextLexeme reader c t).1.text ++ (nextLexeme reader c t).2 = c :: t := by
  unfold nextLexeme
  split
  next hslash =>
    subst hslash
    split
    next => rfl
    next x u =>
      split
      next hx =>
        subst hx
        exact congrArg ('/' :: '/' :: ·) (lineEnd_append u)
      next =>
        split
        next hx =>
          subst hx
          split
          next => exact List.append_nil _
          next inside rest h => exact congrArg ('/' :: '*' :: ·) (reader.splits _ _ h)
        next =>
          split
          next => rfl
          next => rfl
  next =>
    split
    next =>
      split
      next => exact List.append_nil _
      next inside rest h => exact congrArg (c :: ·) (literalEnd_append h)
    next => rfl

theorem length_nextLexeme (reader : Reader) (c : Char) (t : List Char) :
    (nextLexeme reader c t).2.length ≤ t.length := by
  have hpos : 0 < (nextLexeme reader c t).1.text.length := by
    unfold nextLexeme
    repeat' split
    all_goals simp [Lexeme.text]
  have h := congrArg List.length (nextLexeme_text reader c t)
  rw [List.length_append, List.length_cons] at h
  omega

def lexemes (reader : Reader) : List Char → List Lexeme
  | [] => []
  | c :: t => (nextLexeme reader c t).1 :: lexemes reader (nextLexeme reader c t).2
termination_by t => t.length
decreasing_by exact Nat.lt_succ_of_le (length_nextLexeme reader c t)

def textOf (ls : List Lexeme) : List Char := ls.flatMap Lexeme.text

/-- The characters outside of comments and literals. -/
def codeOf : List Lexeme → List Char
  | [] => []
  | .char c :: ls => c :: codeOf ls
  | _ :: ls => codeOf ls

variable {reader : Reader}

@[simp] theorem lexemes_nil : lexemes reader [] = [] := by
  rw [lexemes]

theorem lexemes_cons : lexemes reader (c :: t) =
    (nextLexeme reader c t).1 :: lexemes reader (nextLexeme reader c t).2 := by
  rw [lexemes]

theorem textOf_lexemes (reader : Reader) (t : List Char) : textOf (lexemes reader t) = t := by
  fun_induction lexemes reader t with
  | case1 => rfl
  | case2 c t ih =>
      rw [textOf, List.flatMap_cons]
      exact (congrArg ((nextLexeme reader c t).1.text ++ ·) ih).trans (nextLexeme_text reader c t)

/-- The rest of the sequence is that of the rest of the text. -/
theorem lexemes_textOf {before ls : List Lexeme} (h : lexemes reader t = before ++ ls) :
    lexemes reader (textOf ls) = ls := by
  induction before generalizing t with
  | nil =>
      rw [List.nil_append] at h
      rw [← h, textOf_lexemes]
  | cons l before ih =>
      cases t with
      | nil =>
          rw [lexemes_nil] at h
          cases h
      | cons c t =>
          rw [lexemes_cons] at h
          exact ih (List.cons.inj h).2

/-! ## The matching bracket -/

section Brackets

variable {opening closing : Char} {n m : Nat} {l : Lexeme} {ls pre post : List Lexeme}

@[simp] theorem codeOf_append : codeOf (pre ++ post) = codeOf pre ++ codeOf post := by
  induction pre with
  | nil => rfl
  | cons l pre ih => cases l <;> simp [codeOf, ih]

@[simp] theorem textOf_cons : textOf (l :: ls) = l.text ++ textOf ls := List.flatMap_cons

@[simp] theorem textOf_append : textOf (pre ++ post) = textOf pre ++ textOf post :=
  List.flatMap_append

/-- What is behind the bracket that closes one more than the `n` brackets that are open. -/
def behindClosing (opening closing : Char) : Nat → List Lexeme → Option (List Lexeme)
  | _, [] => none
  | n, l :: ls =>
      match nesting opening closing n (codeOf [l]) with
      | none => some ls
      | some m => behindClosing opening closing m ls

theorem behindClosing_none (h : nesting opening closing n (codeOf [l]) = none) :
    behindClosing opening closing n (l :: ls) = some ls := by
  rw [behindClosing, h]

theorem behindClosing_some (h : nesting opening closing n (codeOf [l]) = some m) :
    behindClosing opening closing n (l :: ls) = behindClosing opening closing m ls := by
  rw [behindClosing, h]

/-- A lexeme that is no character. -/
theorem behindClosing_skip (h : codeOf [l] = []) :
    behindClosing opening closing n (l :: ls) = behindClosing opening closing n ls :=
  behindClosing_some (by rw [h, nesting_nil])

theorem nesting_codeOf_cons : nesting opening closing n (codeOf (l :: ls)) =
    (nesting opening closing n (codeOf [l])).bind
      fun m => nesting opening closing m (codeOf ls) := by
  rw [← nesting_append, ← codeOf_append]
  rfl

theorem nesting_lexeme_none (h : nesting opening closing n (codeOf [l]) = none) :
    l = .char closing ∧ n = 0 := by
  obtain ⟨u, w, hsplit, hu⟩ := nesting_eq_none h
  cases l with
  | char c =>
      have hnil : u = [] := by
        have hlen := congrArg List.length hsplit
        simp only [codeOf, List.length_cons, List.length_append, List.length_nil] at hlen
        exact List.length_eq_zero_iff.1 (by omega)
      subst hnil
      rw [nesting_nil] at hu
      exact ⟨congrArg Lexeme.char (List.cons.inj hsplit).1, Option.some.inj hu⟩
  | comment text => simp [codeOf] at hsplit
  | literal text => simp [codeOf] at hsplit
  | unclosed text => simp [codeOf] at hsplit
  | passed c => simp [codeOf] at hsplit

theorem behindClosing_iff : behindClosing opening closing n ls = some post ↔
    ∃ pre, ls = pre ++ .char closing :: post ∧ nesting opening closing n (codeOf pre) = some 0 := by
  induction ls generalizing n with
  | nil =>
      constructor
      · intro h
        cases h
      · rintro ⟨pre, h, -⟩
        exact absurd h.symm (by simp)
  | cons l ls ih =>
      cases hl : nesting opening closing n (codeOf [l]) with
      | none =>
          rw [behindClosing_none hl]
          obtain ⟨rfl, rfl⟩ := nesting_lexeme_none hl
          constructor
          · rintro ⟨⟩
            exact ⟨[], rfl, nesting_nil⟩
          · rintro ⟨_ | ⟨l, pre⟩, heq, hpre⟩
            · exact congrArg some (List.cons.inj heq).2
            · rw [nesting_codeOf_cons, ← (List.cons.inj heq).1, hl] at hpre
              cases hpre
      | some m =>
          rw [behindClosing_some hl, ih]
          constructor
          · rintro ⟨pre, rfl, hpre⟩
            exact ⟨l :: pre, rfl, by rw [nesting_codeOf_cons, hl]; exact hpre⟩
          · rintro ⟨_ | ⟨l', pre⟩, heq, hpre⟩
            · -- Nothing is open, so the bracket would be the one.
              obtain rfl : l = .char closing := (List.cons.inj heq).1
              obtain rfl : n = 0 := Option.some.inj (nesting_nil.symm.trans hpre)
              rw [codeOf, nesting_closed] at hl
              cases hl
            · rw [List.cons_append, List.cons.injEq] at heq
              obtain ⟨rfl, rfl⟩ := heq
              rw [nesting_codeOf_cons, hl] at hpre
              exact ⟨pre, rfl, hpre⟩

end Brackets

end Swig4Ada.Lib

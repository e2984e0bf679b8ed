import Swig4Ada.Doh.Position
import Swig4Ada.Lib.CText

/-!
# Printing wrapper functions (`Wrapper_pretty_print` in `Source/Swig/wrapfunc.c`)

The text of a wrapper function is read once and written line by line. `ts` is the line that is
being gathered; at a brace or at the end of a line it is printed behind its indentation. White
space at the beginning of a line is dropped as long as nothing but colons was read in it, which
is `empty`. Behind the end of the text `Getc` gives `EOF`, and `Putc` writes it as a character.
-/

namespace Swig4Ada.Swig

/-- What `Putc` writes for `EOF`. -/
def putEof : Char := '\xff'

/-- The loop of a literal: what is put to the line, and the text behind it. The character behind
a backslash may be the one that ends the literal. -/
def printLiteral (quote : Char) : List Char → List Char × List Char
  | [] => ([], [])
  | c :: s =>
      if c = '\\' then
        match s with
        | [] => ([c, putEof], [])
        | d :: s =>
            if d = quote then ([c, d], s)
            else (c :: d :: (printLiteral quote s).1, (printLiteral quote s).2)
      else if c = quote then ([c], s)
      else (c :: (printLiteral quote s).1, (printLiteral quote s).2)

/-- A loop that puts as many blanks. -/
def blanks (n : Int) : List Char := List.replicate n.toNat ' '

/-- The loop of a C comment, the lines of which are indented. -/
def printComment (level : Int) (endstar : Bool) : List Char → List Char × List Char
  | [] => ([], [])
  | c :: s =>
      if endstar && c = '/' then ([c], s)
      else
        ((if c = '\n' then c :: blanks level else [c]) ++ (printComment level (c = '*') s).1,
          (printComment level (c = '*') s).2)

/-- What is printed to the file, and the line. -/
structure PrettyState where
  f : List Char
  ts : List Char
  level : Int
  plevel : Int
  empty : Bool
  label : Bool

def PrettyState.start : PrettyState := ⟨[], [], 0, 0, true, false⟩

def prettyIndent : Int := 2

/-- The text is put to the line, which is no longer empty. -/
def PrettyState.put (st : PrettyState) (text : List Char) : PrettyState :=
  { st with ts := st.ts ++ text, empty := false }

/-- The line is printed at the level of the braces. -/
def PrettyState.print (st : PrettyState) : PrettyState :=
  { st with f := st.f ++ blanks st.level ++ st.ts, ts := [] }

/-- The end of a line. A label is printed further to the left, and a directive of the
preprocessor without its indentation. -/
def PrettyState.endLine (st : PrettyState) : PrettyState :=
  let slevel := if st.label && prettyIndent ≤ st.level then st.level - prettyIndent else st.level
  let ts := st.ts ++ ['\n']
  { st with
    f := st.f ++ (if ts.head? = some '#' then [] else blanks slevel) ++ ts ++ blanks st.plevel
    ts := []
    label := false
    empty := true }

/-- One turn of the loop, for the character that was read and the text behind it. -/
def prettyTurn (st : PrettyState) (c : Char) (s : List Char) : PrettyState × List Char :=
  if c = '"' ∨ c = '\'' then
    (st.put (c :: (printLiteral c s).1), (printLiteral c s).2)
  else if c = ':' then
    let ts := st.ts ++ [c]
    let label := st.label || (s.head? = some '\n' && !st.empty && '?' ∉ ts)
    ({ st with ts := ts, label := label }, s)
  else if c = '(' then ({ st.put [c] with plevel := st.plevel + prettyIndent }, s)
  else if c = ')' then ({ st.put [c] with plevel := st.plevel - prettyIndent }, s)
  else if c = '{' then
    ({ (st.put [c, '\n']).print with level := st.level + prettyIndent }, s.dropWhile Doh.isSpace)
  else if c = '}' then
    let st := if st.empty then st else (st.put ['\n']).print
    ({ st.put [c] with level := st.level - prettyIndent }, s)
  else if c = '\n' then (st.endLine, s)
  else if c = '/' then
    match s with
    | [] => (st.put [c], [])
    | d :: s =>
        if d = '/' then
          (st.put (c :: d :: s.takeWhile (· ≠ '\n')), s.dropWhile (· ≠ '\n'))
        else if d = '*' then
          (st.put (c :: d :: (printComment st.level false s).1), (printComment st.level false s).2)
        else (st.put [c, d], s)
  else if !st.empty || !Doh.isSpace c then (st.put [c], s)
  else (st, s)

theorem printLiteral_suffix (quote : Char) (s : List Char) : (printLiteral quote s).2 <:+ s := by
  fun_induction printLiteral quote s with
  | case1 => exact List.suffix_rfl
  | case2 => exact List.nil_suffix
  | case3 => exact (List.suffix_cons _ _).trans (List.suffix_cons _ _)
  | case4 d s _ ih => exact ih.trans ((List.suffix_cons _ _).trans (List.suffix_cons _ _))
  | case5 => exact List.suffix_cons _ _
  | case6 c s _ _ ih => exact ih.trans (List.suffix_cons _ _)

theorem printComment_suffix (level : Int) (endstar : Bool) (s : List Char) :
    (printComment level endstar s).2 <:+ s := by
  induction s generalizing endstar with
  | nil => exact List.suffix_rfl
  | cons c s ih =>
      rw [printComment]
      split
      · exact List.suffix_cons c s
      · exact (ih _).trans (List.suffix_cons c s)

theorem prettyTurn_suffix (st : PrettyState) (c : Char) (s : List Char) :
    (prettyTurn st c s).2 <:+ s := by
  unfold prettyTurn
  split
  · exact printLiteral_suffix c s
  split
  · exact List.suffix_rfl
  split
  · exact List.suffix_rfl
  split
  · exact List.suffix_rfl
  split
  · exact List.dropWhile_suffix _
  split
  · exact List.suffix_rfl
  split
  · exact List.suffix_rfl
  split
  · split
    · exact List.suffix_rfl
    · split
      · exact (List.dropWhile_suffix _).trans (List.suffix_cons _ _)
      split
      · exact (printComment_suffix _ _ _).trans (List.suffix_cons _ _)
      · exact List.suffix_cons _ _
  split
  · exact List.suffix_rfl
  · exact List.suffix_rfl

/-- The loop over the text. -/
def prettyLoop (st : PrettyState) : List Char → PrettyState
  | [] => st
  | c :: s => prettyLoop (prettyTurn st c s).1 (prettyTurn st c s).2
termination_by s => s.length
decreasing_by exact Nat.lt_succ_of_le (prettyTurn_suffix st c s).length_le

/-- What is printed to the file. -/
def wrapperPrettyPrint (str : List Char) : List Char :=
  let st := prettyLoop .start str
  st.f ++ (if st.empty then [] else st.ts) ++ ['\n']

end Swig4Ada.Swig

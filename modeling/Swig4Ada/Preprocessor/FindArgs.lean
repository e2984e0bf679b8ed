import Swig4Ada.Preprocessor.Parse

/-!
# The arguments of a macro (`find_args` of `cpp.c`)

`find_args` reads the arguments of a macro behind its name and gives them back as a list;
where no parenthesis follows the name, nothing is read. A text stands for the characters
that `Getc` has not given yet, and a character that is given back is still in front of it.
-/

namespace Swig4Ada.Preprocessor

/-- `skip_tochar`: what is copied, and what follows. -/
def skipTochar (ch : Char) : List Char → List Char × List Char
  | [] => ([], [])
  | [c] => ([c], [])
  | c :: x :: s =>
      if c = ch then ([c], x :: s)
      else if c = '\\' then (c :: x :: (skipTochar ch s).1, (skipTochar ch s).2)
      else (c :: (skipTochar ch (x :: s)).1, (skipTochar ch (x :: s)).2)

/-! ## Comments -/

/-- The loop behind a slash and a star. -/
def skipBlockComment : List Char → List Char
  | [] => []
  | [_] => []
  | c :: x :: s =>
      if c = '*' then if x = '/' then s else skipBlockComment s
      else skipBlockComment (x :: s)

/-- The loop behind two slashes. -/
def skipLineComment : List Char → List Char
  | [] => []
  | c :: s => if c = '\n' then s else skipLineComment s

/-- What follows a comment at the beginning of a text. -/
def skipComment : List Char → Option (List Char)
  | c :: x :: s =>
      if c = '/' then
        if x = '*' then some (skipBlockComment s)
        else if x = '/' then some (skipLineComment s)
        else none
      else none
  | _ => none

theorem length_skipTochar (ch : Char) (s : List Char) :
    (skipTochar ch s).2.length ≤ s.length := by
  fun_induction skipTochar ch s with
  | case1 => exact Nat.le_refl _
  | case2 => exact Nat.zero_le _
  | case3 x s => exact Nat.le_succ _
  | case4 x s _ ih =>
      simp only [List.length_cons]
      omega
  | case5 c x s _ _ ih => exact Nat.le_succ_of_le ih

theorem length_skipBlockComment (s : List Char) : (skipBlockComment s).length ≤ s.length := by
  fun_induction skipBlockComment s with
  | case1 => exact Nat.le_refl _
  | case2 => exact Nat.zero_le _
  | case3 s =>
      simp only [List.length_cons]
      omega
  | case4 x s _ ih =>
      simp only [List.length_cons]
      omega
  | case5 c x s _ ih => exact Nat.le_succ_of_le ih

theorem length_skipLineComment (s : List Char) : (skipLineComment s).length ≤ s.length := by
  induction s with
  | nil => exact Nat.le_refl _
  | cons c s ih =>
      rw [skipLineComment]
      split
      · exact Nat.le_succ _
      · exact Nat.le_succ_of_le ih

theorem length_skipComment {s s' : List Char} (h : skipComment s = some s') :
    s'.length < s.length := by
  match s with
  | [] => cases h
  | [_] => cases h
  | c :: x :: s =>
      have hblock := length_skipBlockComment s
      have hline := length_skipLineComment s
      simp only [skipComment] at h
      split at h
      · split at h
        · cases h
          simp only [List.length_cons]
          omega
        · split at h
          · cases h
            simp only [List.length_cons]
            omega
          · cases h
      · cases h

/-! ## One argument -/

/-- The inner loop behind the text `str`, with `level` open parentheses: the values of both
and the text at its end. -/
def findArg (level : Nat) (str : List Char) : List Char → Nat × List Char × List Char
  | [] => (level, str, [])
  | c :: s =>
      if c = '"' ∨ c = '\'' then findArg level (str ++ c :: (skipTochar c s).1) (skipTochar c s).2
      else
        match _h : skipComment (c :: s) with
        | some s' => findArg level str s'
        | none =>
            if (c = ',' ∨ c = ')') ∧ level = 0 then (level, str, c :: s)
            else
              findArg (if c = '(' then level + 1 else if c = ')' then level - 1 else level)
                (str ++ [c]) s
termination_by s => s.length
decreasing_by
  · exact Nat.lt_succ_of_le (length_skipTochar c s)
  · exact length_skipComment _h
  · exact Nat.lt_succ_self _

theorem length_findArg (level : Nat) (str s : List Char) :
    (findArg level str s).2.2.length ≤ s.length := by
  fun_induction findArg level str s with
  | case1 => exact Nat.le_refl _
  | case2 level str c s _ ih => exact Nat.le_succ_of_le (ih.trans (length_skipTochar c s))
  | case3 level str c s _ s' h ih => exact ih.trans (length_skipComment h).le
  | case4 => exact Nat.le_refl _
  | case5 level str c s _ _ _ ih => exact Nat.le_succ_of_le ih

/-! ## The list -/

/-- The outer loop behind the arguments `args`: the list, the text at its end, and whether
there was a closing parenthesis. -/
def collectArgs (args : List (List Char)) : List Char → List (List Char) × List Char × Bool
  | [] => (args, [], false)
  | c :: s =>
      let found := findArg 0 [] ((c :: s).dropWhile isSpace)
      if found.1 > 0 then (args, found.2.2, false)
      else
        match _h : found.2.2 with
        | [] => (args ++ [chop found.2.1], [], false)
        | x :: s' =>
            if x = ')' then (args ++ [chop found.2.1], s', true)
            else collectArgs (args ++ [chop found.2.1]) s'
termination_by s => s.length
decreasing_by
  have hle := (length_findArg 0 [] ((c :: s).dropWhile isSpace)).trans
    (List.length_dropWhile_le isSpace (c :: s))
  rw [_h] at hle
  exact hle

structure FoundArgs where
  /-- `none` is no list. -/
  args : Option (List (List Char))
  rest : List Char
  /-- The error, at the place where the reading began. -/
  error : Option String
deriving DecidableEq, Repr

def untermError ( ismacro : Bool) (macroName : List Char) : String :=
  (if ismacro then "Unterminated call invoking macro '" else "Unterminated call to '") ++
    String.ofList macroName ++ "'\n"

/-- `find_args`. -/
def findArgs ( ismacro : Bool) (macroName s : List Char) : FoundArgs :=
  match s.dropWhile isSpace with
  | [] => ⟨none, s, none⟩
  | c :: t =>
      if c = '(' then
        let found := collectArgs [] t
        ⟨some found.1, found.2.1, if found.2.2 then none else some (untermError ismacro macroName)⟩
      else ⟨none, s, none⟩

end Swig4Ada.Preprocessor

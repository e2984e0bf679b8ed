import Swig4Ada.Lib.PairScan

/-!
# Stripping comments (`Swig_strip_c_comments` in `Source/Swig/misc.c`)

The loop goes past the character behind each slash, and in a comment past the one behind each
star, without looking at it for anything but the pair. Behind a star at the end of the text it
goes past the end.
-/

namespace Swig4Ada.Swig

/-- How the loop ends: without a complete comment, with one from its slash to its slash, or
beyond the end of the text. -/
inductive StripScan
  | none
  | found (commentBegin commentEnd : Nat)
  | overrun

/-- `while (*c)`. -/
def stripLoop : Option Nat → Nat → List Char → StripScan
  | _, _, [] => .none
  | none, pos, c :: rest =>
      if c = '/' then
        match rest with
        | [] => .none
        | d :: rest => stripLoop (if d = '*' then some pos else none) (pos + 2) rest
      else stripLoop none (pos + 1) rest
  | some commentBegin, pos, c :: rest =>
      if c = '*' then
        match rest with
        | [] => .overrun
        | d :: rest =>
            if d = '/' then .found commentBegin (pos + 1)
            else stripLoop (some commentBegin) (pos + 2) rest
      else stripLoop (some commentBegin) (pos + 1) rest

/-- What the function returns, when it does not read beyond the text. -/
inductive Stripped
  | overrun
  | null
  | text (stripped : List Char)

mutual

/-- `Swig_strip_c_comments`. It is nothing when the fuel is used up. -/
def swigStripCComments : Nat → List Char → Option Stripped
  | 0, _ => none
  | fuel + 1, s =>
      match stripLoop none 0 s with
      | .overrun => some .overrun
      | .none => some .null
      | .found commentBegin commentEnd =>
          stripMore fuel (s.take commentBegin ++ s.drop (commentEnd + 1))

/-- `do { .. } while (stripmore)`. -/
def stripMore : Nat → List Char → Option Stripped
  | 0, _ => none
  | fuel + 1, stripped =>
      match swigStripCComments fuel stripped with
      | none => none
      | some .overrun => some .overrun
      | some .null => some (.text stripped)
      | some (.text stripmore) => stripMore fuel stripmore

end

/-! ## What a comment is -/

open Swig4Ada.Lib (endRun)

/-- The rest behind the first `*/`. -/
def behindClose : List Char → Option (List Char)
  | [] => none
  | [_] => none
  | c :: d :: t => if c = '*' ∧ d = '/' then some t else behindClose (d :: t)

theorem behindClose_length {t r : List Char} (h : behindClose t = some r) :
    r.length < t.length := by
  induction t using behindClose.induct with
  | case1 => exact nomatch h
  | case2 => exact nomatch h
  | case3 c d t hclose =>
      rw [behindClose, if_pos hclose] at h
      obtain rfl := Option.some.inj h
      exact Nat.lt_succ_of_le (Nat.le_succ t.length)
  | case4 c d t hne ih =>
      rw [behindClose, if_neg hne] at h
      exact (ih h).trans (Nat.lt_succ_self _)

/-- The text without its comments. What opens one and does not close it is left. -/
def withoutComments : List Char → List Char
  | [] => []
  | c :: t =>
      if c = '/' ∧ t.head? = some '*' then
        match _h : behindClose t.tail with
        | some r => withoutComments r
        | none => c :: t
      else c :: withoutComments t
termination_by s => s.length
decreasing_by
  · have hlt := behindClose_length ‹_›
    have htail := List.length_tail (l := t)
    rw [List.length_cons]
    omega
  · exact Nat.lt_succ_self _

/-- A complete comment is in the text. -/
def HasComment (t : List Char) : Prop :=
  ∃ p b r, t = p ++ '/' :: '*' :: (b ++ '*' :: '/' :: r)

/-- The function returns the text without its comments, or nothing where there are none. -/
def StripsRight (t : List Char) : Prop :=
  (HasComment t → ∃ n, ∀ fuel, n ≤ fuel →
    swigStripCComments fuel t = some (.text (withoutComments t))) ∧
  (¬ HasComment t → ∃ n, ∀ fuel, n ≤ fuel → swigStripCComments fuel t = some .null)

/-- A text without a complete comment in which the scan does not go beyond the end: where it
sees a comment open, an even run of stars ends the text. -/
inductive Quiet : List Char → Prop
  | plain {u : List Char} (noOpen : ¬ ['/', '*'] <:+: u) : Quiet u
  | unclosed {p u : List Char} (noOpen : ¬ ['/', '*'] <:+: p) (slashes : Even (endRun '/' p))
      (noClose : ¬ ['*', '/'] <:+: u) (stars : Even (endRun '*' u)) :
      Quiet (p ++ '/' :: '*' :: u)
  | missed {p u : List Char} (noOpen : ¬ ['/', '*'] <:+: p) (slashes : ¬ Even (endRun '/' p))
      (noClose : ¬ ['*', '/'] <:+: u) (rest : Quiet u) : Quiet (p ++ '/' :: '*' :: u)

/-- Each comment has an even run of slashes before its `/*` and an even run of stars before its
`*/`. -/
inductive Regular : List Char → Prop
  | quiet {u : List Char} (rest : Quiet u) : Regular u
  | comment {p b r : List Char} (noOpen : ¬ ['/', '*'] <:+: p)
      (slashes : Even (endRun '/' p)) (noClose : ¬ ['*', '/'] <:+: b)
      (stars : Even (endRun '*' b)) (rest : Regular r) :
      Regular (p ++ '/' :: '*' :: (b ++ '*' :: '/' :: r))

end Swig4Ada.Swig

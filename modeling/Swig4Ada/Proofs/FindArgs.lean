import Swig4Ada.Lib.CText
import Swig4Ada.Preprocessor.Define
import Swig4Ada.Preprocessor.FindArgs

/-!
# What the arguments of a macro are

The list behind a parenthesis reaches up to the parenthesis that closes it, and what is
between its commas, trimmed and without comments, is an argument. What is a comment is for
`Preprocessor_replace` to say. `find_args` says otherwise of a comment with an even number
of stars before its last slash, and it does not trim what is behind a leading comment.
-/

namespace Swig4Ada.Preprocessor

open Swig4Ada.Lib

/-! ## The list -/

/-- A comment behind its slash and star as `Preprocessor_replace` reads it, and what
follows. -/
def replaceComment (st : ReplaceState) : List Char → Option (List Char × List Char)
  | [] => none
  | c :: t =>
      if (replaceStep st c).1.mode = .plain then some ([c], t)
      else (replaceComment (replaceStep st c).1 t).map fun r => (c :: r.1, r.2)

theorem replaceComment_append {st : ReplaceState} {t : List Char} {r : List Char × List Char}
    (h : replaceComment st t = some r) : r.1 ++ r.2 = t := by
  induction t generalizing st r with
  | nil => cases h
  | cons c t ih =>
      rw [replaceComment] at h
      split at h
      · cases h
        rfl
      · obtain ⟨r', hr, rfl⟩ := Option.map_eq_some_iff.1 h
        exact congrArg (c :: ·) (ih hr)

/-- The reader that takes the comments of `Preprocessor_replace`. -/
def replaceReader : Reader :=
  ⟨replaceComment ⟨.blockComment, false, []⟩, fun _ _ => replaceComment_append, fun _ => false⟩

/-- The text behind an opening parenthesis has `inside` up to the one that closes it, and
`post` behind that. -/
def Encloses (t : List Char) (inside post : List Lexeme) : Prop :=
  lexemes replaceReader t = inside ++ .char ')' :: post ∧ Balanced '(' ')' (codeOf inside)

/-- The open parentheses behind a lexeme. -/
def levelBehind (n : Nat) (l : Lexeme) : Nat :=
  if l = .char '(' then n + 1 else if l = .char ')' then n - 1 else n

/-- What is between the commas outside of `n` parentheses. -/
def splitCommas : Nat → List Lexeme → List (List Lexeme)
  | _, [] => [[]]
  | n, l :: ls =>
      if l = .char ',' ∧ n = 0 then [] :: splitCommas 0 ls
      else (splitCommas (levelBehind n l) ls).modifyHead (l :: ·)

def withoutComments (ls : List Lexeme) : List Char := textOf (ls.filter (!·.isComment))

def trim (s : List Char) : List Char := chop (s.dropWhile isSpace)

/-- `find_args`, entered at a lexeme, takes the comments that there are. -/
def CommentsAgree (inside : List Lexeme) (rest : List Char) : Prop :=
  ∀ before l after, inside = before ++ l :: after →
    skipComment (textOf (l :: after) ++ rest) =
      if l.isComment then some (textOf after ++ rest) else none

/-- What is to be right about the arguments that are found behind a parenthesis. -/
def FindsArgs (t : List Char) : Prop :=
  ∀ inside post, Encloses t inside post →
    (∀ ( ismacro : Bool) (macroName : List Char),
      findArgs ismacro macroName ('(' :: t) =
        ⟨some ((splitCommas 0 inside).map (trim <| withoutComments ·)), textOf post, none⟩) ∧
    CommentsAgree inside (')' :: textOf post)

/-- A comment behind its slash and star has an odd number of stars directly before its last
slash. -/
def OddStars (text : List Char) : Prop := (text.dropLast.rtakeWhile (· = '*')).length % 2 = 1

def isBlank : Lexeme → Bool
  | .char c => isSpace c
  | _ => false

/-- Behind its first blanks an argument without its comments begins with no blank, or all of
it is blank. -/
def LeadTrimmed (arg : List Lexeme) : Prop :=
  let s := withoutComments (arg.dropWhile isBlank)
  s.dropWhile isSpace = s ∨ s.dropWhile isSpace = []

variable {t u s : List Char} {c x : Char} {l : Lexeme} {ls inside post arg : List Lexeme}
  {r : List Char × List Char} {n : Nat}

/-! ## Comments -/

theorem replaceComment_star {st : ReplaceState} (h : st.mode = .blockCommentStar) :
    replaceComment st t =
      if t.head? = some '/' then some (['/'], t.tail)
      else replaceComment { st with mode := .blockComment } t := by
  cases t with
  | nil => rfl
  | cons c t =>
      by_cases hslash : c = '/'
      · have hstep : replaceStep st c = ({ st with mode := .plain }, [c], false) := by
          simp [replaceStep, h, hslash]
        subst hslash
        rw [replaceComment, hstep, if_pos rfl, List.head?_cons, if_pos rfl]
        rfl
      · have hstep : replaceStep st c = ({ st with
            mode := if c = '*' then .blockCommentStar else .blockComment }, [c], false) := by
          simp [replaceStep, h, hslash]
        have hsame : replaceStep { st with mode := .blockComment } c = replaceStep st c := by
          rw [hstep, replaceStep]
        rw [List.head?_cons, if_neg fun hhead => hslash (Option.some.inj hhead), replaceComment,
          replaceComment, hsame]

theorem replaceComment_eq {st : ReplaceState} (h : st.mode = .blockComment) :
    replaceComment st t = commentEnd t := by
  induction t with
  | nil => rfl
  | cons c t ih =>
      obtain ⟨mode, expandDefined, id⟩ := st
      obtain rfl : mode = .blockComment := h
      rw [replaceComment, commentEnd]
      by_cases hc : c = '*'
      · have hstep : replaceStep ⟨.blockComment, expandDefined, id⟩ c =
            (⟨.blockCommentStar, expandDefined, id⟩, [c], false) := by
          simp [replaceStep, hc]
        rw [hstep, if_neg ReplaceMode.noConfusion, replaceComment_star rfl, ih]
        by_cases hslash : t.head? = some '/'
        · rw [if_pos hslash, if_pos ⟨hc, hslash⟩]
          rfl
        · rw [if_neg hslash, if_neg fun hand => hslash hand.2]
      · have hstep : replaceStep ⟨.blockComment, expandDefined, id⟩ c =
            (⟨.blockComment, expandDefined, id⟩, [c], false) := by
          simp [replaceStep, hc]
        rw [hstep, if_neg ReplaceMode.noConfusion, if_neg fun hand => hc hand.1, ih]

theorem replaceReader_eq : replaceReader = plain := by
  have h : replaceComment ⟨.blockComment, false, []⟩ = commentEnd :=
    funext fun _ => replaceComment_eq rfl
  simp only [replaceReader, plain, h]

theorem skipTochar_eq (h : literalEnd c t = some r) : skipTochar c t = r := by
  fun_induction literalEnd c t generalizing r with
  | case1 => cases h
  | case2 => cases h; rfl
  | case3 => cases h
  | case4 => cases h; rw [skipTochar, if_pos rfl]
  | case5 x t hne ih =>
      obtain ⟨r', hr, rfl⟩ := Option.map_eq_some_iff.1 h
      rw [skipTochar, if_neg hne, if_pos rfl, ih hr]
  | case6 c x t hne hesc ih =>
      obtain ⟨r', hr, rfl⟩ := Option.map_eq_some_iff.1 h
      rw [skipTochar, if_neg hne, if_neg hesc, ih hr]

theorem skipLineComment_eq : skipLineComment t = (lineEnd t).2 := by
  induction t with
  | nil => rfl
  | cons c t ih =>
      rw [skipLineComment, lineEnd, ih]
      split <;> rfl

theorem length_skipBlockComment_lt (h : t ≠ []) : (skipBlockComment t).length < t.length := by
  match t with
  | [] => exact absurd rfl h
  | [_] => exact Nat.one_pos
  | c :: x :: t =>
      have hrest := length_skipBlockComment t
      have hall := length_skipBlockComment (x :: t)
      rw [List.length_cons] at hall
      rw [skipBlockComment, List.length_cons, List.length_cons]
      split
      · split
        · omega
        · omega
      · omega

theorem rtakeWhile_cons {p : Char → Bool} (h : ¬ ∀ x ∈ c :: t, p x) :
    (c :: t).rtakeWhile p = t.rtakeWhile p := by
  rw [List.rtakeWhile, List.rtakeWhile, List.reverse_cons, List.takeWhile_append]
  split
  next hlen =>
    have hall : t.reverse.takeWhile p = t.reverse := (List.takeWhile_prefix _).eq_of_length hlen
    have hc : ¬ p c := fun hc => h fun x hx => by
      rcases List.mem_cons.1 hx with rfl | hmem
      · exact hc
      · exact List.takeWhile_eq_self_iff.1 hall x (List.mem_reverse.2 hmem)
    rw [List.takeWhile_cons_of_neg hc, List.append_nil, hall]
  next => rfl

theorem commentEnd_ne_nil (h : commentEnd t = some r) : r.1 ≠ [] := by
  cases t with
  | nil => cases h
  | cons c t =>
      rw [commentEnd] at h
      split at h
      · cases h
        exact List.cons_ne_nil _ _
      · obtain ⟨r', -, rfl⟩ := Option.map_eq_some_iff.1 h
        exact List.cons_ne_nil _ _

theorem oddStars_cons (hs : s ≠ []) (hc : c ≠ '*') : OddStars (c :: s) ↔ OddStars s := by
  rw [OddStars, OddStars, List.dropLast_cons_of_ne_nil hs, rtakeWhile_cons]
  intro hall
  exact hc (by simpa using hall c List.mem_cons_self)

theorem oddStars_pair (hs : s ≠ []) : OddStars ('*' :: x :: s) ↔ OddStars s := by
  rw [OddStars, OddStars, List.dropLast_cons_of_ne_nil (List.cons_ne_nil _ _),
    List.dropLast_cons_of_ne_nil hs]
  by_cases hall : ∀ y ∈ x :: s.dropLast, decide (y = '*')
  · have hstars : ∀ y ∈ '*' :: x :: s.dropLast, decide (y = '*') :=
      List.forall_mem_cons.2 ⟨rfl, hall⟩
    rw [List.rtakeWhile_eq_self_iff.2 hstars,
      List.rtakeWhile_eq_self_iff.2 fun y hy => hall y (List.mem_cons_of_mem _ hy),
      List.length_cons, List.length_cons]
    omega
  · rw [rtakeWhile_cons fun hstars => hall (List.forall_mem_cons.1 hstars).2,
      rtakeWhile_cons hall]

theorem not_oddStars : ¬ OddStars ['*', '*', '/'] := by
  rw [OddStars]
  decide

/-- The loop that takes two characters at a star. -/
theorem skipBlockComment_iff (h : commentEnd t = some r) (hr : r.2 ≠ []) :
    skipBlockComment t = r.2 ↔ OddStars r.1 := by
  fun_induction skipBlockComment t generalizing r with
  | case1 => cases h
  | case2 c =>
      rw [commentEnd, if_neg fun hand => absurd hand.2 (by simp)] at h
      cases h
  | case3 s =>
      rw [commentEnd, if_pos ⟨rfl, rfl⟩] at h
      cases h
      exact iff_of_true rfl rfl
  | case4 x s hx ih =>
      rw [commentEnd, if_neg fun hand => hx (Option.some.inj hand.2)] at h
      obtain ⟨r', hr', rfl⟩ := Option.map_eq_some_iff.1 h
      rw [commentEnd] at hr'
      split at hr'
      next hclose =>
        -- The second star is not looked at, and the slash behind it does not close.
        cases hr'
        obtain ⟨s', rfl⟩ : ∃ s', s = '/' :: s' := List.head?_eq_some_iff.1 hclose.2
        obtain rfl : x = '*' := hclose.1
        rw [List.tail_cons] at hr
        have hlt := length_skipBlockComment_lt hr
        have hskip : skipBlockComment ('/' :: s') = skipBlockComment s' := by
          cases s' with
          | nil => exact absurd rfl hr
          | cons y s' => rw [skipBlockComment, if_neg (by decide)]
        rw [hskip, List.tail_cons]
        refine iff_of_false (fun heq => ?_) not_oddStars
        rw [heq] at hlt
        exact lt_irrefl _ hlt
      next =>
        obtain ⟨r'', hr'', rfl⟩ := Option.map_eq_some_iff.1 hr'
        rw [oddStars_pair (commentEnd_ne_nil hr'')]
        exact ih hr'' hr
  | case5 c x s hc ih =>
      rw [commentEnd, if_neg fun hand => hc hand.1] at h
      obtain ⟨r', hr', rfl⟩ := Option.map_eq_some_iff.1 h
      rw [oddStars_cons (commentEnd_ne_nil hr') hc]
      exact ih hr' hr

/-! ## Lexemes -/

theorem skipComment_next (hrest : (nextLexeme plain c u).2 ≠ [])
    (hodd : ∀ text, (nextLexeme plain c u).1 = .comment ('/' :: '*' :: text) → OddStars text) :
    skipComment (c :: u) = if (nextLexeme plain c u).1.isComment then
      some (nextLexeme plain c u).2 else none := by
  by_cases hc : c = '/'
  · subst hc
    cases u with
    | nil => exact absurd rfl hrest
    | cons x u =>
        by_cases hslash : x = '/'
        · subst hslash
          rw [nextLexeme_line, skipComment, if_pos rfl, if_neg (by decide), if_pos rfl,
            skipLineComment_eq]
          rfl
        · by_cases hstar : x = '*'
          · subst hstar
            cases hend : commentEnd u with
            | none =>
                rw [nextLexeme_unclosed hend] at hrest
                exact absurd rfl hrest
            | some r =>
                rw [nextLexeme_comment hend] at hrest hodd ⊢
                rw [skipComment, if_pos rfl, if_pos rfl,
                  (skipBlockComment_iff hend hrest).2 (hodd _ rfl)]
                rfl
          · rw [nextLexeme_division hslash hstar, skipComment, if_pos rfl, if_neg hstar,
              if_neg hslash]
            rfl
  · have hnone : skipComment (c :: u) = none := by
      cases u with
      | nil => rfl
      | cons x u => rw [skipComment, if_neg hc]
    rw [hnone]
    by_cases hq : c = '"' ∨ c = '\''
    · cases hend : literalEnd c u with
      | none =>
          rw [nextLexeme_open hq hend]
          rfl
      | some r =>
          rw [nextLexeme_literal hq hend]
          rfl
    · rw [nextLexeme_char hc hq]
      rfl

/-- A lexeme with the text that follows it. -/
theorem skipComment_lexeme (h : lexemes plain t = l :: ls) (hrest : textOf ls ≠ [])
    (hodd : ∀ text, l = .comment ('/' :: '*' :: text) → OddStars text) :
    skipComment t = if l.isComment then some (textOf ls) else none := by
  cases t with
  | nil =>
      rw [lexemes_nil] at h
      cases h
  | cons c u =>
      rw [lexemes_cons] at h
      obtain ⟨rfl, rfl⟩ := List.cons.inj h
      rw [textOf_lexemes] at hrest ⊢
      exact skipComment_next hrest hodd

theorem nextLexeme_single (hq : ¬ (c = '"' ∨ c = '\'')) (hrest : (nextLexeme plain c u).2 ≠ [])
    (hcom : (nextLexeme plain c u).1.isComment = false) :
    nextLexeme plain c u = (.char c, u) := by
  by_cases hc : c = '/'
  · subst hc
    cases u with
    | nil => exact absurd rfl hrest
    | cons x u =>
        by_cases hslash : x = '/'
        · subst hslash
          cases hcom
        · by_cases hstar : x = '*'
          · subst hstar
            cases hend : commentEnd u with
            | none =>
                rw [nextLexeme_unclosed hend] at hrest
                exact absurd rfl hrest
            | some r =>
                rw [nextLexeme_comment hend] at hcom
                cases hcom
          · rw [nextLexeme_division hslash hstar]
            rfl
  · exact nextLexeme_char hc hq

/-! ## One argument -/

/-- A lexeme at which an argument ends. -/
def IsCut (n : Nat) (l : Lexeme) : Prop := (l = .char ',' ∨ l = .char ')') ∧ n = 0

theorem findArg_step {str : List Char} (h : lexemes plain t = l :: ls) (hrest : textOf ls ≠ [])
    (hodd : ∀ text, l = .comment ('/' :: '*' :: text) → OddStars text) (hcut : ¬ IsCut n l) :
    findArg n str t = findArg (levelBehind n l) (str ++ withoutComments [l]) (textOf ls) := by
  have hskip := skipComment_lexeme h hrest hodd
  cases t with
  | nil =>
      rw [lexemes_nil] at h
      cases h
  | cons c u =>
      rw [lexemes_cons] at h
      obtain ⟨rfl, rfl⟩ := List.cons.inj h
      rw [textOf_lexemes] at hrest hskip ⊢
      by_cases hq : c = '"' ∨ c = '\''
      · cases hend : literalEnd c u with
        | none =>
            rw [nextLexeme_open hq hend] at hrest
            exact absurd rfl hrest
        | some r =>
            rw [nextLexeme_literal hq hend, findArg, if_pos hq, skipTochar_eq hend]
            simp [levelBehind, withoutComments, textOf, Lexeme.isComment, Lexeme.text]
      · rw [findArg, if_neg hq]
        split
        next s' hs =>
          rw [hs] at hskip
          split at hskip
          next hcom =>
            rw [Option.some.inj hskip]
            cases hl : (nextLexeme plain c u).1 <;> rw [hl] at hcom <;> cases hcom
            simp [levelBehind, withoutComments, textOf, Lexeme.isComment]
          next => cases hskip
        next hs =>
          rw [hs] at hskip
          split at hskip
          next => cases hskip
          next hcom =>
            have hsingle := nextLexeme_single hq hrest (Bool.eq_false_iff.2 hcom)
            rw [hsingle] at hcut ⊢
            rw [if_neg]
            · simp [levelBehind, withoutComments, textOf, Lexeme.isComment, Lexeme.text]
            · rintro ⟨hc, hn⟩
              exact hcut ⟨hc.imp (congrArg Lexeme.char) (congrArg Lexeme.char), hn⟩

theorem findArg_cut {str : List Char} (hc : c = ',' ∨ c = ')') :
    findArg 0 str (c :: u) = (0, str, c :: u) := by
  have hne : c ≠ '"' ∧ c ≠ '\'' ∧ c ≠ '/' := by
    rcases hc with rfl | rfl <;> decide
  have hskip : skipComment (c :: u) = none := by
    cases u with
    | nil => rfl
    | cons x u => rw [skipComment, if_neg hne.2.2]
  rw [findArg, if_neg (not_or.2 ⟨hne.1, hne.2.1⟩)]
  split
  next s' hs =>
    rw [hs] at hskip
    cases hskip
  next => rw [if_pos ⟨hc, rfl⟩]

/-- The lexemes of an argument behind `n` open parentheses. -/
inductive ArgBody : Nat → List Lexeme → Prop
  | nil : ArgBody 0 []
  | cons (n : Nat) (l : Lexeme) (ls : List Lexeme) (hcut : ¬ IsCut n l)
      (hbody : ArgBody (levelBehind n l) ls) : ArgBody n (l :: ls)

@[simp] theorem withoutComments_append :
    withoutComments (arg ++ ls) = withoutComments arg ++ withoutComments ls := by
  rw [withoutComments, List.filter_append, textOf_append]
  rfl

theorem findArg_body (hbody : ArgBody n arg) (hc : c = ',' ∨ c = ')') {str : List Char}
    (h : lexemes plain t = arg ++ .char c :: ls)
    (hodd : ∀ text, .comment ('/' :: '*' :: text) ∈ arg → OddStars text) :
    findArg n str t = (0, str ++ withoutComments arg, c :: textOf ls) := by
  induction hbody generalizing str t with
  | nil =>
      have ht : t = c :: textOf ls := by
        rw [← textOf_lexemes plain t, h]
        rfl
      rw [ht, findArg_cut hc]
      exact congrArg (0, ·, c :: textOf ls) (List.append_nil str).symm
  | cons n l arg hcut _ ih =>
      have hrest : textOf (arg ++ .char c :: ls) ≠ [] := by
        simp [Lexeme.text]
      have htail : lexemes plain (textOf (arg ++ .char c :: ls)) = arg ++ .char c :: ls :=
        lexemes_textOf (h.trans (List.append_cons [] l (arg ++ .char c :: ls)))
      rw [List.cons_append] at h
      rw [findArg_step h hrest (fun text hl => hodd text (hl ▸ List.mem_cons_self)) hcut,
        ih htail fun text hmem => hodd text (List.mem_cons_of_mem _ hmem),
        List.append_assoc, ← withoutComments_append]
      rfl

/-! ## The list of arguments -/

theorem nesting_lexeme {m : Nat} (h : nesting '(' ')' n (codeOf [l]) = some m) :
    m = levelBehind n l ∧ ¬ (l = .char ')' ∧ n = 0) := by
  cases l with
  | char c =>
      by_cases hc : c = ')'
      · subst hc
        cases n with
        | zero =>
            rw [codeOf, nesting_closed] at h
            cases h
        | succ k =>
            rw [codeOf, nesting_closing, codeOf, nesting_nil] at h
            cases h
            exact ⟨rfl, fun hand => Nat.succ_ne_zero _ hand.2⟩
      · rw [codeOf, nesting_other hc, codeOf, nesting_nil] at h
        cases h
        exact ⟨by simp [levelBehind, hc], fun hand => hc (Lexeme.char.inj hand.1)⟩
  | comment text | literal text | unclosed text | passed text =>
      rw [codeOf, codeOf, nesting_nil] at h
      · cases h
        exact ⟨rfl, fun hand => Lexeme.noConfusion hand.1⟩
      all_goals exact fun _ => Lexeme.noConfusion

/-- The first argument. -/
theorem splitCommas_first (h : nesting '(' ')' n (codeOf inside) = some 0) :
    (ArgBody n inside ∧ splitCommas n inside = [inside]) ∨
      ∃ arg others, inside = arg ++ .char ',' :: others ∧ ArgBody n arg ∧
        Balanced '(' ')' (codeOf others) ∧
        splitCommas n inside = arg :: splitCommas 0 others := by
  induction inside generalizing n with
  | nil =>
      rw [codeOf, nesting_nil] at h
      cases h
      exact .inl ⟨.nil, rfl⟩
  | cons l ls ih =>
      rw [nesting_codeOf_cons] at h
      obtain ⟨m, hm, hls⟩ := Option.bind_eq_some_iff.1 h
      obtain ⟨rfl, hclose⟩ := nesting_lexeme hm
      rw [splitCommas]
      by_cases hcomma : l = .char ',' ∧ n = 0
      · obtain ⟨rfl, rfl⟩ := hcomma
        exact .inr ⟨[], ls, rfl, .nil, hls, if_pos ⟨rfl, rfl⟩⟩
      · have hcut : ¬ IsCut n l := fun hcut => hcut.1.elim
          (fun hl => hcomma ⟨hl, hcut.2⟩) fun hl => hclose ⟨hl, hcut.2⟩
        rw [if_neg hcomma]
        rcases ih hls with ⟨hbody, hsplit⟩ | ⟨arg, others, rfl, hbody, hothers, hsplit⟩
        · exact .inl ⟨.cons n l ls hcut hbody, by rw [hsplit]; rfl⟩
        · exact .inr ⟨l :: arg, others, rfl, .cons n l arg hcut hbody, hothers, by rw [hsplit]; rfl⟩

theorem isBlank_iff : isBlank l ↔ ∃ c, l = .char c ∧ isSpace c := by
  cases l <;> simp [isBlank]

theorem nextLexeme_blank (hc : isSpace c) : nextLexeme plain c u = (.char c, u) := by
  refine nextLexeme_char ?_ ?_
  · rintro rfl
    cases hc
  · rintro (rfl | rfl) <;> cases hc

theorem lexemes_dropWhile (t : List Char) :
    lexemes plain (t.dropWhile isSpace) = (lexemes plain t).dropWhile isBlank := by
  induction t with
  | nil => simp
  | cons c t ih =>
      by_cases hc : isSpace c
      · rw [List.dropWhile_cons_of_pos hc, ih, lexemes_cons, nextLexeme_blank hc]
        have hblank : isBlank (.char c) := hc
        rw [List.dropWhile_cons_of_pos hblank]
      · rw [List.dropWhile_cons_of_neg hc, lexemes_cons, List.dropWhile_cons_of_neg]
        intro hblank
        obtain ⟨x, hx, hspace⟩ := isBlank_iff.1 hblank
        have htext := nextLexeme_text plain c t
        rw [hx] at htext
        exact hc ((List.cons.inj htext).1 ▸ hspace)

theorem levelBehind_blank (hc : isSpace c) : levelBehind n (.char c) = n := by
  have hne : c ≠ '(' ∧ c ≠ ')' := by
    constructor <;> rintro rfl <;> cases hc
  rw [levelBehind, if_neg fun h => hne.1 (Lexeme.char.inj h),
    if_neg fun h => hne.2 (Lexeme.char.inj h)]

theorem argBody_dropWhile (h : ArgBody 0 arg) : ArgBody 0 (arg.dropWhile isBlank) := by
  induction arg with
  | nil => exact h
  | cons l ls ih =>
      by_cases hl : isBlank l
      · rw [List.dropWhile_cons_of_pos hl]
        obtain ⟨c, rfl, hc⟩ := isBlank_iff.1 hl
        cases h with
        | cons _ _ _ _ hbody =>
            rw [levelBehind_blank hc] at hbody
            exact ih hbody
      · rw [List.dropWhile_cons_of_neg hl]
        exact h

/-- What `find_args` makes of an argument. -/
def argFound (arg : List Lexeme) : List Char := chop (withoutComments (arg.dropWhile isBlank))

theorem collectArgs_found {args : List (List Char)} {str : List Char}
    (h : findArg 0 [] ((c :: s).dropWhile isSpace) = (0, str, x :: u)) :
    collectArgs args (c :: s) =
      if x = ')' then (args ++ [chop str], u, true) else collectArgs (args ++ [chop str]) u := by
  rw [collectArgs]
  simp only [h, gt_iff_lt, lt_self_iff_false, if_false]
  split
  next hend =>
    rw [h] at hend
    cases hend
  next y s' hend =>
    rw [h] at hend
    cases hend
    rfl

theorem collectArgs_end {args : List (List Char)} {str : List Char}
    (h : findArg 0 [] ((c :: s).dropWhile isSpace) = (0, str, [])) :
    collectArgs args (c :: s) = (args ++ [chop str], [], false) := by
  rw [collectArgs]
  simp only [h, gt_iff_lt, lt_self_iff_false, if_false]
  split
  next => rfl
  next y s' hend =>
    rw [h] at hend
    cases hend

/-- One turn of the outer loop. -/
theorem collectArgs_arg {args : List (List Char)} (hbody : ArgBody 0 arg)
    (hc : c = ',' ∨ c = ')') (h : lexemes plain t = arg ++ .char c :: ls)
    (hodd : ∀ text, .comment ('/' :: '*' :: text) ∈ arg → OddStars text) :
    collectArgs args t =
      if c = ')' then (args ++ [argFound arg], textOf ls, true)
      else collectArgs (args ++ [argFound arg]) (textOf ls) := by
  have hblank : ¬ isBlank (.char c) := by
    rcases hc with rfl | rfl <;> decide
  have hdrop : lexemes plain (t.dropWhile isSpace) = arg.dropWhile isBlank ++ .char c :: ls := by
    rw [lexemes_dropWhile, h, List.dropWhile_append]
    split
    next hempty => rw [List.dropWhile_cons_of_neg hblank, List.isEmpty_iff.1 hempty]; rfl
    next => rfl
  have hfound : findArg 0 [] (t.dropWhile isSpace) =
      (0, [] ++ withoutComments (arg.dropWhile isBlank), c :: textOf ls) :=
    findArg_body (argBody_dropWhile hbody) hc hdrop
      fun text hmem => hodd text ((List.dropWhile_suffix _).subset hmem)
  cases t with
  | nil =>
      rw [lexemes_nil] at h
      exact absurd h.symm (by simp)
  | cons x u => exact collectArgs_found hfound

theorem collectArgs_inside {args : List (List Char)}
    (h : lexemes plain t = inside ++ .char ')' :: post) (hin : Balanced '(' ')' (codeOf inside))
    (hodd : ∀ text, .comment ('/' :: '*' :: text) ∈ inside → OddStars text) :
    collectArgs args t = (args ++ (splitCommas 0 inside).map argFound, textOf post, true) := by
  induction hlen : inside.length using Nat.strong_induction_on generalizing inside t args with
  | _ n ih =>
      rcases splitCommas_first hin with ⟨hbody, hsplit⟩ |
        ⟨arg, others, rfl, hbody, hothers, hsplit⟩
      · rw [collectArgs_arg hbody (.inr rfl) h hodd, if_pos rfl, hsplit]
        rfl
      · rw [List.append_assoc, List.cons_append] at h
        have htail : lexemes plain (textOf (others ++ .char ')' :: post)) =
            others ++ .char ')' :: post :=
          lexemes_textOf (h.trans (List.append_cons arg _ _))
        have hlt : others.length < n := by
          rw [← hlen, List.length_append, List.length_cons]
          omega
        rw [collectArgs_arg hbody (.inl rfl) h fun text hmem =>
            hodd text (List.mem_append_left _ hmem), if_neg (by decide),
          ih _ hlt htail hothers (fun text hmem =>
            hodd text (List.mem_append_right _ (List.mem_cons_of_mem _ hmem))) rfl,
          hsplit, List.map_cons, List.append_assoc]
        rfl

/-! ## Trimming -/

theorem chop_nil_iff : chop s = [] ↔ s.dropWhile isSpace = [] := by
  rw [chop, List.rdropWhile_eq_nil_iff, List.dropWhile_eq_nil_iff]

theorem chop_append {v : List Char} (hv : v.dropWhile isSpace ≠ []) :
    chop (s ++ v) = s ++ chop v := by
  have hchop : v.reverse.dropWhile isSpace ≠ [] := fun hnil =>
    hv (chop_nil_iff.1 (List.reverse_eq_nil_iff.2 hnil))
  rw [chop, chop, List.rdropWhile, List.rdropWhile, List.reverse_append, List.dropWhile_append,
    if_neg fun hempty => hchop (List.isEmpty_iff.1 hempty), List.reverse_append,
    List.reverse_reverse]

theorem chop_dropWhile_iff :
    chop s = chop (s.dropWhile isSpace) ↔ s.dropWhile isSpace = s ∨ s.dropWhile isSpace = [] := by
  by_cases hnil : s.dropWhile isSpace = []
  · rw [hnil, chop_nil_iff.2 hnil]
    exact iff_of_true rfl (.inr rfl)
  · have hsplit := List.takeWhile_append_dropWhile (p := isSpace) (l := s)
    have hchop : chop s = s.takeWhile isSpace ++ chop (s.dropWhile isSpace) := by
      rw [← chop_append (by rwa [List.dropWhile_idempotent]), hsplit]
    rw [hchop, List.append_left_eq_self, or_iff_left hnil]
    constructor
    · intro htake
      rw [htake, List.nil_append] at hsplit
      exact hsplit
    · intro hdrop
      rw [hdrop, List.append_left_eq_self] at hsplit
      exact hsplit

theorem withoutComments_blank (h : ∀ l ∈ ls, isBlank l) : ∀ x ∈ withoutComments ls, isSpace x := by
  induction ls with
  | nil =>
      intro x hx
      cases hx
  | cons l ls ih =>
      obtain ⟨hl, hls⟩ := List.forall_mem_cons.1 h
      obtain ⟨c, rfl, hc⟩ := isBlank_iff.1 hl
      exact List.forall_mem_cons.2 ⟨hc, ih hls⟩

theorem argFound_iff : argFound arg = trim (withoutComments arg) ↔ LeadTrimmed arg := by
  have hblank : ∀ x ∈ withoutComments (arg.takeWhile isBlank), isSpace x :=
    withoutComments_blank fun l hl => List.mem_takeWhile_imp hl
  have hsplit : withoutComments arg = withoutComments (arg.takeWhile isBlank) ++
      withoutComments (arg.dropWhile isBlank) := by
    rw [← withoutComments_append, List.takeWhile_append_dropWhile]
  rw [trim, hsplit, List.dropWhile_append_of_pos hblank]
  exact chop_dropWhile_iff

/-! ## The arguments -/

/-- A comment that `find_args` leaves at its end. -/
theorem oddStars_of_skip {text : List Char}
    (h : lexemes plain t = .comment ('/' :: '*' :: text) :: ls) (hrest : textOf ls ≠ [])
    (hskip : skipComment t = some (textOf ls)) : OddStars text := by
  have ht : t = '/' :: '*' :: (text ++ textOf ls) := by
    rw [← textOf_lexemes plain t, h]
    rfl
  subst ht
  rw [lexemes_cons] at h
  cases hend : commentEnd (text ++ textOf ls) with
  | none =>
      rw [nextLexeme_unclosed hend] at h
      cases h
  | some r =>
      rw [nextLexeme_comment hend] at h
      obtain ⟨htext, hls⟩ := List.cons.inj h
      have hrest' : textOf ls = r.2 := by
        rw [← hls, textOf_lexemes]
      cases htext
      rw [hrest'] at hrest
      refine (skipBlockComment_iff hend hrest).1 ?_
      rw [← hrest']
      exact Option.some.inj hskip

theorem commentsAgree_iff (h : lexemes plain t = inside ++ ls) (hls : textOf ls ≠ []) :
    CommentsAgree inside (textOf ls) ↔
      ∀ text, .comment ('/' :: '*' :: text) ∈ inside → OddStars text := by
  have hne (after : List Lexeme) : textOf (after ++ ls) ≠ [] := by
    rw [textOf_append]
    exact List.append_ne_nil_of_right_ne_nil _ hls
  have hlex {l : Lexeme} {before after : List Lexeme} (hin : inside = before ++ l :: after) :
      lexemes plain (textOf (l :: after ++ ls)) = l :: (after ++ ls) := by
    rw [hin, List.append_assoc] at h
    exact lexemes_textOf h
  constructor
  · intro hagree text hmem
    obtain ⟨before, after, hin⟩ := List.append_of_mem hmem
    have hskip := hagree before _ after hin
    rw [← textOf_append, ← textOf_append] at hskip
    exact oddStars_of_skip (hlex hin) (hne after) hskip
  · intro hodd before l after hin
    rw [← textOf_append, ← textOf_append]
    refine skipComment_lexeme (hlex hin) (hne after) fun text hl => hodd text ?_
    rw [hin, ← hl]
    exact List.mem_append_right _ List.mem_cons_self

end Swig4Ada.Preprocessor

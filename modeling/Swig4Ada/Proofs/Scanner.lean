import Swig4Ada.Swig.Scanner

/-!
# Raw string literals in the scanner

Behind a closing parenthesis the scanner reads on to the next quote, and when what it
read is not the delimiter it takes back as many characters as there were before the
quote: one too few, and without their lines. So a parenthesis that does not close the
literal swallows the character behind it, also when that is the one that does, and the
lines up to the quote are counted once more. `swallows` and `readAgain` say this of the
content alone, and the scan of a content ends as they say.
-/

namespace Swig4Ada.Swig

/-! ## Reading on -/

namespace Scanner

/-- The scanner behind the characters `cs` of its text, of which `rest` is left. -/
def advance (s : Scanner) (cs rest : List Char) : Scanner :=
  { s with
    text := s.text ++ cs
    str := s.str.map fun src => ⟨cs.reverse ++ src.before, rest, src.line⟩
    line := s.line + s.ticks cs }

/-- The lines of some characters are counted without reading them. -/
def recount (s : Scanner) (cs : List Char) : Scanner :=
  { s with line := s.line + s.ticks cs }

/-- What is left of the text. -/
def rest (s : Scanner) : List Char := s.str.elim [] Source.after

variable {s : Scanner} {c : Char} {u v w : List Char}

theorem ticks_append : s.ticks (u ++ v) = s.ticks u + s.ticks v := by
  unfold ticks
  split
  · rfl
  · simp [List.count_append]

theorem ticks_nil : s.ticks [] = 0 := by
  unfold ticks
  simp

theorem ticks_eq_zero (h : '\n' ∉ u) : s.ticks u = 0 := by
  unfold ticks
  rw [List.count_eq_zero_of_not_mem h]
  simp

theorem nextchar_cons (hs : s.rest = c :: u) : s.nextchar = (c, s.advance [c] u) := by
  obtain ⟨text, _ | ⟨before, after, line⟩, scanobjs, line', startLine, freezeLine⟩ := s
  · cases hs
  · obtain rfl : after = c :: u := hs
    rw [nextchar]
    simp only [nextcharOf]
    rfl

theorem rest_advance (hs : s.rest ≠ []) : (s.advance u v).rest = v := by
  obtain ⟨text, _ | src, scanobjs, line', startLine, freezeLine⟩ := s
  · exact absurd rfl hs
  · rfl

theorem rest_recount (hs : s.rest ≠ []) : ((s.advance u w).recount v).rest = w :=
  rest_advance hs

theorem advance_advance {fs : List Char} :
    (s.advance u w).advance v fs = s.advance (u ++ v) fs := by
  have hline : (s.advance u w).line + s.ticks v = s.line + s.ticks (u ++ v) := by
    rw [ticks_append]
    exact Int.add_assoc _ _ _
  have hstr : ((s.advance u w).advance v fs).str = (s.advance (u ++ v) fs).str := by
    simp only [advance, Option.map_map, Function.comp_def, List.reverse_append,
      List.append_assoc]
  simp only [advance, List.append_assoc, Scanner.mk.injEq, true_and, and_true] at hstr ⊢
  exact ⟨hstr, hline⟩

theorem advance_recount : (s.recount u).advance v w = (s.advance v w).recount u := by
  simp only [advance, recount, Scanner.mk.injEq, true_and, and_true]
  show s.line + s.ticks u + s.ticks v = s.line + s.ticks v + s.ticks u
  omega

theorem recount_recount : (s.recount u).recount v = s.recount (u ++ v) := by
  simp only [recount, Scanner.mk.injEq, true_and, and_true, ticks_append]
  show s.line + s.ticks u + s.ticks v = _
  omega

/-- Characters are given back to the text from which they were read; of their lines that
of the last one only. -/
theorem retract_advance {q : Char} :
    (s.advance (u ++ (v ++ [q])) w).retract (v.length + 1) =
      some ((s.advance u (v ++ q :: w)).recount v) := by
  have hlen : v.length + 1 ≤ (s.advance (u ++ (v ++ [q])) w).text.length := by
    simp only [advance, List.length_append, List.length_singleton]
    omega
  have hlast : (s.text ++ (u ++ (v ++ [q]))).getLast?.toList = [q] := by
    simp [List.getLast?_append]
  have htext : (s.text ++ (u ++ (v ++ [q]))).take
      ((s.text ++ (u ++ (v ++ [q]))).length - (v.length + 1)) = s.text ++ u := by
    have hsplit : (s.text ++ (u ++ (v ++ [q]))).length - (v.length + 1) =
        (s.text ++ u).length := by
      simp only [List.length_append, List.length_singleton]
      omega
    rw [hsplit, ← List.append_assoc, List.take_left]
  have hline : s.line + s.ticks (u ++ (v ++ [q])) - s.ticks [q] =
      s.line + s.ticks u + s.ticks v := by
    simp only [ticks_append]
    omega
  have hstr : (s.advance (u ++ (v ++ [q])) w).str.map (·.back (v.length + 1)) =
      (s.advance u (v ++ q :: w)).str := by
    simp [advance, Option.map_map, Function.comp_def, Source.back]
  rw [retract, if_pos hlen, if_neg (Nat.succ_ne_zero _), hstr]
  simp only [advance, recount, htext, hlast, Option.some.injEq, Scanner.mk.injEq, true_and,
    and_true]
  exact hline

theorem advance_nil (hs : s.rest = w) (hne : w ≠ []) : s.advance [] w = s := by
  subst hs
  obtain ⟨text, _ | src, scanobjs, line, startLine, freezeLine⟩ := s
  · exact absurd rfl hne
  · simp only [advance, ticks_nil, List.append_nil, Int.add_zero]
    rfl

theorem recount_nil : s.recount [] = s := by
  simp only [recount, ticks_nil, Int.add_zero]

theorem retract_zero : s.retract 0 = some s := by
  rw [retract, if_pos (Nat.zero_le _), if_pos rfl]
  obtain ⟨text, str, scanobjs, line, startLine, freezeLine⟩ := s
  cases str <;> simp [Source.back]

end Scanner

/-! ## Turns of the loop -/

/-- A turn that has fuel enough for the loops inside. -/
def Turns (v : Look) (result : Look ⊕ Token × Scanner) : Prop :=
  ∃ steps, ∀ fuel ≥ steps, lookStep fuel v = some result

def Loops (v : Look) (result : Token × Scanner) : Prop :=
  ∃ steps, ∀ fuel ≥ steps, lookLoop fuel v = some result

theorem Turns.goes {v v' : Look} {result : Token × Scanner} (h : Turns v (.inl v')) :
    Loops v result ↔ Loops v' result := by
  obtain ⟨steps, h⟩ := h
  have hloop : ∀ fuel ≥ steps, lookLoop (fuel + 1) v = lookLoop fuel v' := by
    intro fuel hf
    rw [lookLoop, h fuel hf]
    rfl
  constructor
  · rintro ⟨n, hn⟩
    refine ⟨max n steps, fun fuel hf => ?_⟩
    rw [← hloop fuel (by omega)]
    exact hn _ (by omega)
  · rintro ⟨n, hn⟩
    refine ⟨max n steps + 1, fun fuel hf => ?_⟩
    obtain ⟨fuel, rfl⟩ : ∃ k, fuel = k + 1 := ⟨fuel - 1, by omega⟩
    rw [hloop _ (by omega)]
    exact hn _ (by omega)

theorem Turns.stops {v : Look} {result result' : Token × Scanner} (h : Turns v (.inr result')) :
    Loops v result ↔ result = result' := by
  obtain ⟨steps, h⟩ := h
  have hloop : ∀ fuel ≥ steps, lookLoop (fuel + 1) v = some result' := by
    intro fuel hf
    rw [lookLoop, h fuel hf]
    rfl
  constructor
  · rintro ⟨n, hn⟩
    have hmax := hn (max n steps + 1) (by omega)
    rw [hloop _ (by omega)] at hmax
    exact (Option.some.inj hmax).symm
  · rintro rfl
    refine ⟨steps + 1, fun fuel hf => ?_⟩
    obtain ⟨fuel, rfl⟩ : ∃ k, fuel = k + 1 := ⟨fuel - 1, by omega⟩
    exact hloop _ (by omega)

/-! ## Inside a literal -/

section InString

variable {s : Scanner} {c x q : Char} {d w rest : List Char}

/-- The delimiter is looked for up to a quote, or up to a null character. -/
theorem readEndDelimiter_eq (hq : q = '\x00' ∨ q = '"') :
    ∀ {w acc : List Char} {fuel : Nat} {s : Scanner}, s.rest = w ++ q :: rest →
      '"' ∉ w → '\x00' ∉ w → w.length < fuel →
      readEndDelimiter fuel acc s = some (q, acc ++ w, s.advance (w ++ [q]) rest) := by
  intro w
  induction w with
  | nil =>
      intro acc fuel s hs _ _ hf
      obtain ⟨fuel, rfl⟩ : ∃ k, fuel = k + 1 := ⟨fuel - 1, by simp at hf; omega⟩
      rw [readEndDelimiter, Scanner.nextchar_cons hs]
      simp only
      rw [if_neg (by rcases hq with rfl | rfl <;> simp)]
      rw [List.append_nil, List.nil_append]
  | cons y w ih =>
      intro acc fuel s hs hquote hnull hf
      obtain ⟨fuel, rfl⟩ : ∃ k, fuel = k + 1 := ⟨fuel - 1, by simp at hf; omega⟩
      rw [List.mem_cons, not_or] at hquote hnull
      rw [List.cons_append] at hs
      rw [readEndDelimiter, Scanner.nextchar_cons hs]
      simp only
      rw [if_pos ⟨Ne.symm hnull.1, Ne.symm hquote.1⟩]
      have hrest : (s.advance [y] (w ++ q :: rest)).rest = w ++ q :: rest :=
        Scanner.rest_advance (by rw [hs]; simp)
      rw [ih hrest hquote.2 hnull.2 (by simp at hf; omega), Scanner.advance_advance]
      simp

/-- A character that is no closing parenthesis is gone past. -/
theorem turns_plain (hs : s.rest = x :: rest) (hx : x ≠ '\x00') (hp : x ≠ ')') :
    Turns ⟨.inString, c, some d, s⟩ (.inl ⟨.inString, x, some d, s.advance [x] rest⟩) := by
  refine ⟨0, fun fuel _ => ?_⟩
  simp only [lookStep, lookInString]
  rw [Scanner.nextchar_cons hs]
  simp only
  rw [if_neg hx, if_neg hp]

theorem turns_null (hs : s.rest = '\x00' :: rest) :
    Turns ⟨.inString, c, some d, s⟩
      (.inr (.unterminatedString, s.advance ['\x00'] rest)) := by
  refine ⟨0, fun fuel _ => ?_⟩
  simp only [lookStep, lookInString]
  rw [Scanner.nextchar_cons hs]
  rfl

/-- A closing parenthesis that does not close the literal: the character behind it is
gone past as well, and the lines from there to the quote are counted. -/
theorem turns_swallow (hs : s.rest = ')' :: (w ++ '"' :: rest)) (hquote : '"' ∉ w)
    (hnull : '\x00' ∉ w) (hw : w ≠ d) :
    ∃ y again, w ++ ['"'] = y :: again ∧
      Turns ⟨.inString, c, some d, s⟩ (.inl ⟨.inString, '"', some d,
        (s.advance [')', y] (again ++ rest)).recount w.tail⟩) := by
  have hrest : (s.advance [')'] (w ++ '"' :: rest)).rest = w ++ '"' :: rest :=
    Scanner.rest_advance (by rw [hs]; simp)
  have hread : ∀ fuel > w.length, lookStep fuel ⟨.inString, c, some d, s⟩ =
      ((s.advance (')' :: (w ++ ['"'])) rest).retract w.length).map fun s =>
        .inl ⟨.inString, '"', some d, s⟩ := by
    intro fuel hf
    simp only [lookStep, lookInString]
    rw [Scanner.nextchar_cons hs]
    simp only
    rw [if_neg (by simp), if_pos trivial, closeRaw,
      readEndDelimiter_eq (Or.inr rfl) hrest hquote hnull hf, Scanner.advance_advance]
    simp only [Option.bind_eq_bind, Option.bind_some, List.nil_append, List.cons_append]
    rw [if_neg hw, if_neg (by simp)]
    cases (s.advance (')' :: (w ++ ['"'])) rest).retract w.length <;> rfl
  cases w with
  | nil =>
      refine ⟨'"', [], rfl, 1, fun fuel hf => ?_⟩
      rw [hread fuel (by simp; omega), List.length_nil, Scanner.retract_zero]
      simp only [List.tail_nil, Scanner.recount_nil, Option.map_some, List.nil_append]
  | cons y w =>
      refine ⟨y, w ++ ['"'], rfl, w.length + 2, fun fuel hf => ?_⟩
      rw [hread fuel (by simp; omega), List.length_cons]
      have hback := Scanner.retract_advance (s := s) (u := [')', y]) (v := w) (q := '"')
        (w := rest)
      simp only [List.cons_append, List.nil_append] at hback
      rw [List.cons_append, hback]
      simp

/-- What is left of the text of a literal when it ends. -/
def closed (s : Scanner) (d : List Char) : Scanner :=
  { s with
    text := (s.text.take (s.text.length - 2 - d.length)).drop (d.length + 1) }

/-- A closing parenthesis with the delimiter behind it, up to a quote or to a null
character. -/
theorem turns_close (hq : q = '\x00' ∨ q = '"') (hs : s.rest = ')' :: (d ++ q :: rest))
    (hquote : '"' ∉ d) (hnull : '\x00' ∉ d) :
    Turns ⟨.inString, c, some d, s⟩
      (.inr (.string, closed (s.advance (')' :: (d ++ [q])) rest) d)) := by
  have hrest : (s.advance [')'] (d ++ q :: rest)).rest = d ++ q :: rest :=
    Scanner.rest_advance (by rw [hs]; simp)
  refine ⟨d.length + 1, fun fuel hf => ?_⟩
  simp only [lookStep, lookInString]
  rw [Scanner.nextchar_cons hs]
  simp only
  rw [if_neg (by simp), if_pos trivial, closeRaw,
    readEndDelimiter_eq hq hrest hquote hnull (by omega), Scanner.advance_advance]
  simp only [Option.bind_eq_bind, Option.bind_some, List.nil_append, List.cons_append]
  rw [if_pos trivial]
  rfl

end InString

/-! ## The content of a literal -/

/-- The closing parenthesis behind the content is swallowed. -/
def swallows : List Char → Bool
  | [] => false
  | c :: t =>
      if c = ')' then
        match t with
        | [] => true
        | _ :: t => swallows t
      else swallows t

/-- The characters that are read once more, in front of the delimiter `d`. -/
def readAgain (d : List Char) : List Char → List Char
  | [] => []
  | c :: t =>
      if c = ')' then
        match t with
        | [] => []
        | x :: t =>
            ((x :: t ++ ')' :: d).takeWhile (· ≠ '"')).tail ++ readAgain d t
      else readAgain d t

/-- An induction over a content by what is gone past in one turn. -/
theorem content_induction {P : List Char → Prop} (nil : P [])
    (last : P [')']) (swallow : ∀ x t, P t → P (')' :: x :: t))
    (plain : ∀ c t, c ≠ ')' → P t → P (c :: t)) : ∀ t, P t
  | [] => nil
  | c :: t => by
      by_cases hc : c = ')'
      · subst hc
        match t with
        | [] => exact last
        | x :: t => exact swallow x t (content_induction nil last swallow plain t)
      · exact plain c t hc (content_induction nil last swallow plain t)

theorem swallows_swallow {x : Char} {t : List Char} :
    swallows (')' :: x :: t) = swallows t := by
  rw [swallows, if_pos rfl]

theorem readAgain_swallow {x : Char} {d t : List Char} :
    readAgain d (')' :: x :: t) =
      ((x :: t ++ ')' :: d).takeWhile (· ≠ '"')).tail ++ readAgain d t := by
  rw [readAgain, if_pos rfl]

theorem swallows_plain {c : Char} {t : List Char} (hc : c ≠ ')') :
    swallows (c :: t) = swallows t := by
  rw [swallows.eq_def]
  simp only
  rw [if_neg hc]

theorem readAgain_plain {c : Char} {d t : List Char} (hc : c ≠ ')') :
    readAgain d (c :: t) = readAgain d t := by
  rw [readAgain.eq_def]
  simp only
  rw [if_neg hc]

theorem trailing_cons (p : Char → Bool) (c : Char) (t : List Char) :
    ((c :: t).reverse.takeWhile p).length =
      if t.all p then t.length + (if p c then 1 else 0)
      else (t.reverse.takeWhile p).length := by
  rw [List.reverse_cons, List.takeWhile_append]
  by_cases ht : t.all p = true
  · have hall : t.reverse.takeWhile p = t.reverse := by
      rw [List.takeWhile_eq_self_iff]
      intro a ha
      exact List.all_eq_true.1 ht a (List.mem_reverse.1 ha)
    rw [hall, if_pos rfl, if_pos ht, List.length_append, List.length_reverse]
    by_cases hc : p c
    · simp [hc]
    · simp [hc]
  · have hne : (t.reverse.takeWhile p).length ≠ t.reverse.length := by
      intro heq
      have hself : t.reverse.takeWhile p = t.reverse :=
        (List.takeWhile_prefix p).eq_of_length heq
      rw [List.takeWhile_eq_self_iff] at hself
      exact ht (List.all_eq_true.2 fun a ha => hself a (List.mem_reverse.2 ha))
    rw [if_neg hne, if_neg ht]

/-- Every second parenthesis of a run is swallowed. -/
theorem swallows_iff : ∀ t : List Char,
    swallows t = false ↔ Even (t.reverse.takeWhile (· = ')')).length := by
  apply content_induction
  · simp [swallows]
  · simp [swallows]
  · intro x t ih
    rw [swallows_swallow, ih, trailing_cons, trailing_cons]
    by_cases ht : t.all (· = ')') = true
    · have hself : (t.reverse.takeWhile (· = ')')).length = t.length := by
        rw [List.takeWhile_eq_self_iff.2, List.length_reverse]
        intro a ha
        exact List.all_eq_true.1 ht a (List.mem_reverse.1 ha)
      rw [hself, if_pos ht]
      by_cases hx : x = ')'
      · subst hx
        rw [if_pos (by simpa using ht)]
        simp [Nat.even_add_one]
      · rw [if_neg (by simp [hx])]
        simp [hx]
    · rw [if_neg ht, if_neg (by simp at ht ⊢; intro _; exact ht)]
  · intro c t hc ih
    rw [swallows_plain hc, ih, trailing_cons]
    by_cases ht : t.all (· = ')') = true
    · have hself : (t.reverse.takeWhile (· = ')')).length = t.length := by
        rw [List.takeWhile_eq_self_iff.2, List.length_reverse]
        intro a ha
        exact List.all_eq_true.1 ht a (List.mem_reverse.1 ha)
      rw [hself, if_pos ht]
      simp [hc]
    · rw [if_neg ht]

theorem newline_tail {p : Char → Bool} {x : Char} {t d : List Char} (hd : '\n' ∉ d) :
    '\n' ∈ ((x :: t ++ ')' :: d).takeWhile p).tail ↔ '\n' ∈ ((x :: t).takeWhile p).tail := by
  rw [List.takeWhile_append]
  by_cases hall : ((x :: t).takeWhile p).length = (x :: t).length
  · rw [if_pos hall, (List.takeWhile_prefix p).eq_of_length hall, List.cons_append,
      List.tail_cons, List.tail_cons, List.mem_append, or_iff_left]
    intro hmem
    rcases List.mem_cons.1 ((List.takeWhile_prefix p).subset hmem) with h | h
    · exact absurd h (by decide)
    · exact hd h
  · rw [if_neg hall]

/-- A line that is read again ends between the second character behind a parenthesis and
the next quote. -/
theorem newline_readAgain {d : List Char} (hd : '\n' ∉ d) : ∀ t : List Char,
    swallows t = false →
      ('\n' ∉ readAgain d t ↔ ∀ before after, t = before ++ ')' :: after →
        '\n' ∉ (after.takeWhile (· ≠ '"')).tail) := by
  apply content_induction
  · intro _
    simp [readAgain]
  · intro h
    simp [swallows] at h
  · intro x t ih hs
    rw [readAgain_swallow, List.mem_append, not_or, newline_tail hd, ih (swallows_swallow ▸ hs)]
    constructor
    · rintro ⟨hhere, hbehind⟩ before after ht
      match before with
      | [] =>
          obtain rfl := (List.cons.inj ht).2
          exact hhere
      | [y] =>
          -- The swallowed character is a parenthesis too, and no quote.
          obtain ⟨rfl, rfl⟩ := List.cons.inj (List.cons.inj ht).2
          intro hmem
          refine hhere ?_
          rw [List.takeWhile_cons, if_pos (by simp)]
          exact List.mem_of_mem_tail hmem
      | y :: z :: before =>
          obtain ⟨rfl, htail⟩ := List.cons.inj (List.cons.inj ht).2
          exact hbehind before after htail
    · intro hall
      refine ⟨hall [] (x :: t) rfl, fun before after ht => hall (')' :: x :: before) after ?_⟩
      rw [ht]
      rfl
  · intro c t hc ih hs
    rw [readAgain_plain hc, ih (swallows_plain hc ▸ hs)]
    constructor
    · intro hall before after ht
      match before with
      | [] => exact absurd (List.cons.inj ht).1 hc
      | y :: before => exact hall before after (List.cons.inj ht).2
    · intro hall before after ht
      exact hall (c :: before) after (by rw [ht]; rfl)

/-! ## The scan of a content -/

section Scan

variable {s : Scanner} {c : Char} {d rest : List Char}

/-- The text up to a quote, when there is one. -/
theorem split_quote (u rest : List Char) :
    ∃ again, u ++ '"' :: rest = u.takeWhile (· ≠ '"') ++ '"' :: again := by
  induction u with
  | nil => exact ⟨rest, rfl⟩
  | cons x u ih =>
      by_cases hx : x = '"'
      · subst hx
        exact ⟨u ++ '"' :: rest, by simp⟩
      · obtain ⟨again, h⟩ := ih
        refine ⟨again, ?_⟩
        rw [List.takeWhile_cons, if_pos (by simpa using hx), List.cons_append, h]
        rfl

theorem quote_notMem_takeWhile (u : List Char) : '"' ∉ u.takeWhile (· ≠ '"') := by
  intro hmem
  simpa using List.mem_takeWhile_imp hmem

/-- No end of the literal begins with a parenthesis of the content. -/
theorem takeWhile_ne {t : List Char} (hquote : '"' ∉ d)
    (hend : ¬ (')' :: (d ++ ['"'])) <:+: (')' :: t)) :
    (t ++ ')' :: d).takeWhile (· ≠ '"') ≠ d := by
  intro heq
  rw [List.takeWhile_append] at heq
  by_cases hall : (t.takeWhile (· ≠ '"')).length = t.length
  · rw [if_pos hall] at heq
    have hlen := congrArg List.length heq
    have hd : d.takeWhile (· ≠ '"') = d := by
      rw [List.takeWhile_eq_self_iff]
      intro a ha
      simpa using fun h : a = '"' => hquote (h ▸ ha)
    rw [List.takeWhile_cons, if_pos (by simp), hd] at hlen
    simp at hlen
    omega
  · rw [if_neg hall] at heq
    refine hend ?_
    have hsplit := List.takeWhile_append_dropWhile (p := (· ≠ '"')) (l := t)
    rw [heq] at hsplit
    match hdrop : t.dropWhile (· ≠ '"') with
    | [] =>
        rw [hdrop, List.append_nil] at hsplit
        rw [heq, hsplit] at hall
        exact absurd rfl hall
    | y :: more =>
        have hy : y = '"' := by
          have hhead := List.head_dropWhile_not (p := (· ≠ '"')) (l := t) (by rw [hdrop]; simp)
          simp only [hdrop, List.head_cons] at hhead
          simpa using hhead
        rw [hdrop, hy] at hsplit
        refine ⟨[], more, ?_⟩
        rw [← hsplit]
        simp

/-- A parenthesis that does not close the literal, with a quote somewhere behind it. -/
theorem turns_behind {x : Char} {r u m : List Char} (hs : s.rest = ')' :: x :: r)
    (hr : x :: r = u ++ '"' :: m) (hnull : '\x00' ∉ u) (hne : u.takeWhile (· ≠ '"') ≠ d) :
    Turns ⟨.inString, c, some d, s⟩ (.inl ⟨.inString, '"', some d,
      (s.advance [')', x] r).recount (u.takeWhile (· ≠ '"')).tail⟩) := by
  obtain ⟨more', hmore⟩ := split_quote u m
  have hs' : s.rest = ')' :: (u.takeWhile (· ≠ '"') ++ '"' :: more') := by
    rw [hs, hr, hmore]
  obtain ⟨y, again, hy, hturn⟩ := turns_swallow (c := c) hs' (quote_notMem_takeWhile u)
    (fun h => hnull ((List.takeWhile_prefix _).subset h)) hne
  have hcons : x :: r = y :: (again ++ more') := by
    calc x :: r = u.takeWhile (· ≠ '"') ++ ['"'] ++ more' := by rw [hr, hmore]; simp
      _ = y :: (again ++ more') := by rw [hy]; rfl
  obtain ⟨rfl, rfl⟩ := List.cons.inj hcons
  exact hturn

theorem notMem_append_delimiter {t : List Char} (hnull : '\x00' ∉ d) (ht : '\x00' ∉ t) :
    '\x00' ∉ t ++ ')' :: d := by
  rw [List.mem_append, List.mem_cons]
  rintro (h | h | h)
  · exact ht h
  · exact absurd h (by decide)
  · exact hnull h

/-- The scan of a content behind which the closing parenthesis is met. -/
theorem scan_ends (hquote : '"' ∉ d) (hnull : '\x00' ∉ d) {result : Token × Scanner} :
    ∀ t : List Char, swallows t = false → '\x00' ∉ t → ¬ (')' :: (d ++ ['"'])) <:+: t →
      ∀ (c : Char) (s : Scanner), s.rest = t ++ ')' :: (d ++ '"' :: rest) →
        (Loops ⟨.inString, c, some d, s⟩ result ↔
          result = (.string, closed ((s.advance (t ++ ')' :: (d ++ ['"'])) rest).recount
            (readAgain d t)) d)) := by
  apply content_induction
  · intro _ _ _ c s hs
    rw [(turns_close (Or.inr rfl) hs hquote hnull).stops, readAgain, Scanner.recount_nil]
    rfl
  · intro h
    simp [swallows] at h
  · intro x t ih hsw ht hend c s hs
    rw [List.mem_cons, not_or] at ht
    rw [List.cons_append, List.cons_append] at hs
    have hturn := turns_behind (c := c) (d := d) (u := x :: t ++ ')' :: d) (m := rest) hs
      (by simp) (notMem_append_delimiter hnull ht.2) (takeWhile_ne hquote hend)
    rw [hturn.goes, ih (swallows_swallow ▸ hsw) (fun h => ht.2 (List.mem_cons_of_mem _ h))
      (fun h => hend (h.trans ⟨[')', x], [], by simp⟩)) '"' _
      (Scanner.rest_recount (by rw [hs]; simp)), readAgain_swallow,
      Scanner.advance_recount, Scanner.advance_advance, Scanner.recount_recount]
    rfl
  · intro y t hy ih hsw ht hend c s hs
    rw [List.mem_cons, not_or] at ht
    rw [List.cons_append] at hs
    have hrest : (s.advance [y] (t ++ ')' :: (d ++ '"' :: rest))).rest =
        t ++ ')' :: (d ++ '"' :: rest) := Scanner.rest_advance (by rw [hs]; simp)
    rw [(turns_plain hs (Ne.symm ht.1) hy).goes, ih (swallows_plain hy ▸ hsw) ht.2
      (fun h => hend (h.trans ⟨[y], [], by simp⟩)) y _ hrest, readAgain_plain hy,
      Scanner.advance_advance]
    rfl

/-! ## The scan of another content -/

theorem nextcharOf_text : ∀ (objs : List Source) (s : Scanner) (src : Source),
    s.text.length ≤ (Scanner.nextcharOf objs s src).2.text.length ∧
      ((Scanner.nextcharOf objs s src).1 ≠ '\x00' →
        (Scanner.nextcharOf objs s src).2.text.length = s.text.length + 1) := by
  intro objs
  induction objs with
  | nil =>
      intro s src
      obtain ⟨before, _ | ⟨x, after⟩, line⟩ := src
      · simp [Scanner.nextcharOf]
      · simp [Scanner.nextcharOf]
  | cons next objs ih =>
      intro s src
      obtain ⟨before, _ | ⟨x, after⟩, line⟩ := src
      · rw [Scanner.nextcharOf]
        exact ih { s with line := next.line } next
      · simp [Scanner.nextcharOf]

theorem nextchar_text (s : Scanner) :
    s.text.length ≤ s.nextchar.2.text.length ∧
      (s.nextchar.1 ≠ '\x00' → s.nextchar.2.text.length = s.text.length + 1) := by
  unfold Scanner.nextchar
  split
  · simp
  · exact nextcharOf_text _ _ _

theorem readEndDelimiter_text : ∀ {fuel : Nat} {acc w : List Char} {s s' : Scanner} {q : Char},
    readEndDelimiter fuel acc s = some (q, w, s') →
      s.text.length + w.length ≤ s'.text.length + acc.length ∧
        (q ≠ '\x00' → s.text.length + w.length + 1 ≤ s'.text.length + acc.length) := by
  intro fuel
  induction fuel with
  | zero =>
      intro acc w s s' q h
      cases h
  | succ fuel ih =>
      intro acc w s s' q h
      obtain ⟨hle, heq⟩ := nextchar_text s
      rw [readEndDelimiter] at h
      simp only at h
      by_cases hc : s.nextchar.1 ≠ '\x00' ∧ s.nextchar.1 ≠ '"'
      · rw [if_pos hc] at h
        obtain ⟨hrest, hquote⟩ := ih h
        have hlen := heq hc.1
        simp only [List.length_append, List.length_singleton] at hrest hquote
        refine ⟨by omega, fun hq => ?_⟩
        have hlen' := hquote hq
        omega
      · rw [if_neg hc] at h
        simp only [Option.some.injEq, Prod.mk.injEq] at h
        obtain ⟨hq, hacc, hs⟩ := h
        rw [hs] at hle heq
        subst hacc
        refine ⟨by omega, fun hne => ?_⟩
        have hlen := heq (hq ▸ hne)
        omega

/-- A string that ends is as long as what had been read when the loop was in it. -/
theorem lookLoop_text {d : List Char} {s' : Scanner} : ∀ {fuel : Nat} {v : Look},
    v.state = .inString → v.strDelimiter = some d → lookLoop fuel v = some (.string, s') →
      v.scanner.text.length ≤ s'.text.length + d.length + 2 := by
  intro fuel
  induction fuel with
  | zero =>
      intro v _ _ h
      cases h
  | succ fuel ih =>
      intro v hstate hd h
      obtain ⟨hle, heq⟩ := nextchar_text v.scanner
      obtain ⟨state, c, strDelimiter, s⟩ := v
      simp only at hstate hd hle heq
      subst hstate hd
      simp only [lookLoop, lookStep, lookInString] at h
      by_cases hc : s.nextchar.1 = '\x00'
      · rw [if_pos hc] at h
        simp at h
      rw [if_neg hc] at h
      have hlen := heq hc
      by_cases hp : s.nextchar.1 = ')'
      · rw [if_pos hp] at h
        cases hread : readEndDelimiter fuel [] s.nextchar.2 with
        | none => simp [closeRaw, hread] at h
        | some r =>
            obtain ⟨q, w, s₁⟩ := r
            obtain ⟨hw, hwq⟩ := readEndDelimiter_text hread
            simp only [closeRaw, hread, Option.bind_eq_bind, Option.bind_some] at h
            simp only [List.length_nil] at hw hwq
            by_cases hwd : w = d
            · subst hwd
              rw [if_pos rfl] at h
              simp at h
              rw [← h]
              simp only [List.length_drop, List.length_take]
              show s.text.length ≤ _
              omega
            rw [if_neg hwd] at h
            by_cases hq : q = '\x00'
            · rw [if_pos hq] at h
              simp at h
            rw [if_neg hq] at h
            have hback := hwq hq
            rw [Scanner.retract] at h
            by_cases hle' : w.length ≤ s₁.text.length
            · rw [if_pos hle'] at h
              have hgo := ih rfl rfl h
              simp only [List.length_take] at hgo
              show s.text.length ≤ _
              omega
            · rw [if_neg hle'] at h
              simp at h
      · rw [if_neg hp] at h
        have hgo := ih rfl rfl h
        simp only at hgo
        show s.text.length ≤ _
        omega

/-- The scan of a content with which the closing parenthesis is swallowed: the text that
comes out is too long. -/
theorem scan_missed (hquote : '"' ∉ d) (hnull : '\x00' ∉ d) (hp : ')' ∉ d) {s' : Scanner} :
    ∀ t : List Char, swallows t = true → '\x00' ∉ t → ¬ (')' :: (d ++ ['"'])) <:+: t →
      ∀ (c : Char) (s : Scanner), s.rest = t ++ ')' :: (d ++ '"' :: rest) →
        Loops ⟨.inString, c, some d, s⟩ (.string, s') →
        s.text.length + t.length < s'.text.length + d.length + 1 := by
  apply content_induction
  · intro h
    simp [swallows] at h
  · intro _ _ hend c s hs hloop
    have hturn := turns_behind (c := c) (d := d) (u := ')' :: d) (m := rest) hs rfl
      (notMem_append_delimiter (t := []) hnull (by simp))
      (takeWhile_ne (t := []) hquote (by intro h; have := h.length_le; simp at this))
    rw [hturn.goes] at hloop
    -- The next character is no parenthesis, so the loop goes past it.
    obtain ⟨y, more, hy, hne⟩ : ∃ y more, d ++ '"' :: rest = y :: more ∧ y ≠ '\x00' ∧ y ≠ ')' := by
      cases d with
      | nil => exact ⟨'"', rest, rfl, by decide, by decide⟩
      | cons y d =>
          rw [List.mem_cons, not_or] at hnull hp
          exact ⟨y, d ++ '"' :: rest, rfl, Ne.symm hnull.1, Ne.symm hp.1⟩
    have hrest : ((s.advance [')', ')'] (d ++ '"' :: rest)).recount
        ((')' :: d).takeWhile (· ≠ '"')).tail).rest = y :: more := by
      rw [Scanner.rest_recount (by rw [hs]; simp), hy]
    rw [(turns_plain hrest hne.1 hne.2).goes] at hloop
    obtain ⟨n, hn⟩ := hloop
    have hlen := lookLoop_text rfl rfl (hn n le_rfl)
    simp [Scanner.advance, Scanner.recount] at hlen ⊢
    omega
  · intro x t ih hsw ht hend c s hs hloop
    rw [List.mem_cons, not_or] at ht
    rw [List.cons_append, List.cons_append] at hs
    have hturn := turns_behind (c := c) (d := d) (u := x :: t ++ ')' :: d) (m := rest) hs
      (by simp) (notMem_append_delimiter hnull ht.2) (takeWhile_ne hquote hend)
    rw [hturn.goes] at hloop
    have hlen := ih (swallows_swallow ▸ hsw) (fun h => ht.2 (List.mem_cons_of_mem _ h))
      (fun h => hend (h.trans ⟨[')', x], [], by simp⟩)) '"' _
      (Scanner.rest_recount (by rw [hs]; simp)) hloop
    simp [Scanner.advance, Scanner.recount] at hlen ⊢
    omega
  · intro y t hy ih hsw ht hend c s hs hloop
    rw [List.mem_cons, not_or] at ht
    rw [List.cons_append] at hs
    rw [(turns_plain hs (Ne.symm ht.1) hy).goes] at hloop
    have hlen := ih (swallows_plain hy ▸ hsw) ht.2
      (fun h => hend (h.trans ⟨[y], [], by simp⟩)) y _
      (Scanner.rest_advance (by rw [hs]; simp)) hloop
    simp [Scanner.advance] at hlen ⊢
    omega

theorem closed_text {u r : List Char} {q : Char} :
    (closed (s.advance (u ++ ')' :: (d ++ [q])) r) d).text =
      (s.text ++ u).drop (d.length + 1) := by
  have hsplit : (s.text ++ (u ++ ')' :: (d ++ [q]))).length - 2 - d.length =
      (s.text ++ u).length := by
    simp only [List.length_append, List.length_cons, List.length_nil]
    omega
  simp only [closed, Scanner.advance]
  rw [hsplit, ← List.append_assoc, List.take_left]

theorem turns_unterminated {w : List Char} (hs : s.rest = ')' :: (w ++ '\x00' :: rest))
    (hquote : '"' ∉ w) (hnull : '\x00' ∉ w) (hw : w ≠ d) :
    Turns ⟨.inString, c, some d, s⟩ (.inr (.unterminatedRawString d,
      s.advance (')' :: (w ++ ['\x00'])) rest)) := by
  have hrest : (s.advance [')'] (w ++ '\x00' :: rest)).rest = w ++ '\x00' :: rest :=
    Scanner.rest_advance (by rw [hs]; simp)
  refine ⟨w.length + 1, fun fuel hf => ?_⟩
  simp only [lookStep, lookInString]
  rw [Scanner.nextchar_cons hs]
  simp only
  rw [if_neg (by simp), if_pos trivial, closeRaw,
    readEndDelimiter_eq (Or.inl rfl) hrest hquote hnull (by omega), Scanner.advance_advance]
  simp only [Option.bind_eq_bind, Option.bind_some, List.nil_append, List.cons_append]
  rw [if_neg hw]
  rfl

/-- A null character behind a parenthesis, with no quote before it. -/
theorem scan_null_last {w : List Char} {s' : Scanner} (hs : s.rest = ')' :: (w ++ '\x00' :: rest))
    (hquote : '"' ∉ w) (hnull : '\x00' ∉ w) (ht : d.length + 1 ≤ s.text.length)
    (hloop : Loops ⟨.inString, c, some d, s⟩ (.string, s')) :
    s'.text.length + d.length + 1 ≤ s.text.length := by
  by_cases hw : w = d
  · subst hw
    rw [(turns_close (Or.inl rfl) hs hquote hnull).stops] at hloop
    rw [(Prod.mk.inj hloop).2, ← List.nil_append (')' :: (w ++ ['\x00'])), closed_text]
    simp only [List.append_nil, List.length_drop]
    omega
  · rw [(turns_unterminated hs hquote hnull hw).stops] at hloop
    exact absurd (Prod.mk.inj hloop).1 (by simp)

/-- A content with a null character in it: the text that comes out, if there is any, ends
before it. -/
theorem scan_null (hquote : '"' ∉ d) (hdn : '\x00' ∉ d) {s' : Scanner} :
    ∀ t : List Char, '\x00' ∉ t → ∀ (c : Char) (s : Scanner),
      s.rest = t ++ '\x00' :: rest → d.length + 1 ≤ s.text.length →
      Loops ⟨.inString, c, some d, s⟩ (.string, s') →
      s'.text.length + d.length + 1 ≤ s.text.length + t.length := by
  apply content_induction
  · intro _ c s hs _ hloop
    rw [(turns_null hs).stops] at hloop
    exact absurd (Prod.mk.inj hloop).1 (by simp)
  · intro _ c s hs hlen hloop
    have := scan_null_last (w := []) hs (by simp) (by simp) hlen hloop
    omega
  · intro x t ih ht c s hs hlen hloop
    rw [List.mem_cons, not_or] at ht
    rw [List.cons_append] at hs
    by_cases hq : '"' ∈ x :: t
    · obtain ⟨u, more, hu⟩ := List.append_of_mem hq
      obtain ⟨more', hmore⟩ := split_quote u more
      have hun : '\x00' ∉ u := fun h => ht.2 (by rw [hu]; exact List.mem_append_left _ h)
      by_cases hclose : u.takeWhile (· ≠ '"') = d
      · rw [hclose] at hmore
        rw [hu, hmore, List.append_assoc, List.cons_append] at hs
        rw [(turns_close (Or.inr rfl) hs hquote hdn).stops] at hloop
        rw [(Prod.mk.inj hloop).2, ← List.nil_append (')' :: (d ++ ['"'])), closed_text]
        simp only [List.append_nil, List.length_drop]
        omega
      · have hsplit : x :: (t ++ '\x00' :: rest) = u ++ '"' :: (more ++ '\x00' :: rest) := by
          rw [← List.cons_append, hu]
          simp
        have hturn := turns_behind (c := c) hs hsplit hun hclose
        rw [hturn.goes] at hloop
        have := ih (fun h => ht.2 (List.mem_cons_of_mem _ h)) '"' _
          (Scanner.rest_recount (by rw [hs]; simp)) (by simp [Scanner.advance, Scanner.recount]; omega)
          hloop
        simp [Scanner.advance, Scanner.recount] at this ⊢
        omega
    · have := scan_null_last (w := x :: t) hs hq ht.2 hlen hloop
      omega
  · intro y t hy ih ht c s hs hlen hloop
    rw [List.mem_cons, not_or] at ht
    rw [List.cons_append] at hs
    rw [(turns_plain hs (Ne.symm ht.1) hy).goes] at hloop
    have := ih ht.2 y _ (Scanner.rest_advance (by rw [hs]; simp))
      (by simp [Scanner.advance]; omega) hloop
    simp [Scanner.advance] at this ⊢
    omega

end Scan

/-! ## The beginning of a literal -/

section Opening

variable {s : Scanner} {c : Char} {d rest : List Char}

theorem turns_delimiter {x : Char} {acc : List Char} (hs : s.rest = x :: rest)
    (hx : x ≠ '\x00') (hp : x ≠ '(') :
    Turns ⟨.string, c, some acc, s⟩ (.inl ⟨.string, x, some (acc ++ [x]), s.advance [x] rest⟩) := by
  refine ⟨0, fun fuel _ => ?_⟩
  simp only [lookStep, lookString]
  rw [Scanner.nextchar_cons hs]
  simp only
  rw [if_neg hx, if_neg hp]

theorem delimiter_read {result : Token × Scanner} : ∀ {d acc : List Char} {c : Char} {s : Scanner},
    s.rest = d ++ '(' :: rest → '(' ∉ d → '\x00' ∉ d →
      (Loops ⟨.string, c, some acc, s⟩ result ↔
        Loops ⟨.inString, '(', some (acc ++ d), s.advance (d ++ ['(']) rest⟩ result) := by
  intro d
  induction d with
  | nil =>
      intro acc c s hs _ _
      have hturn : Turns ⟨.string, c, some acc, s⟩
          (.inl ⟨.inString, '(', some acc, s.advance ['('] rest⟩) := by
        refine ⟨0, fun fuel _ => ?_⟩
        simp only [lookStep, lookString]
        rw [Scanner.nextchar_cons hs]
        rfl
      rw [hturn.goes, List.append_nil, List.nil_append]
  | cons x d ih =>
      intro acc c s hs hp hn
      rw [List.mem_cons, not_or] at hp hn
      rw [List.cons_append] at hs
      rw [(turns_delimiter hs (Ne.symm hn.1) (Ne.symm hp.1)).goes,
        ih (Scanner.rest_advance (by rw [hs]; simp)) hp.2 hn.2, Scanner.advance_advance]
      simp

theorem delimiter_null {result : Token × Scanner} : ∀ {d acc : List Char} {c : Char} {s : Scanner},
    s.rest = d ++ rest → '(' ∉ d → '\x00' ∈ d → Loops ⟨.string, c, some acc, s⟩ result →
      result.1 = .unterminatedString := by
  intro d
  induction d with
  | nil =>
      intro acc c s _ _ hn
      cases hn
  | cons x d ih =>
      intro acc c s hs hp hn hloop
      rw [List.mem_cons, not_or] at hp
      rw [List.cons_append] at hs
      by_cases hx : x = '\x00'
      · subst hx
        have hturn : Turns ⟨.string, c, some acc, s⟩
            (.inr (.unterminatedString, s.advance ['\x00'] (d ++ rest))) := by
          refine ⟨0, fun fuel _ => ?_⟩
          simp only [lookStep, lookString]
          rw [Scanner.nextchar_cons hs]
          rfl
        rw [hturn.stops] at hloop
        rw [hloop]
      · rw [(turns_delimiter hs hx (Ne.symm hp.1)).goes] at hloop
        exact ih (Scanner.rest_advance (by rw [hs]; simp)) hp.2
          ((List.mem_cons.1 hn).resolve_left (Ne.symm hx)) hloop

/-- The mark of a raw string and the quote behind it are read, given back and read again. -/
theorem looks_raw {token : Token} {s' : Scanner} (hs : s.rest = 'R' :: '"' :: rest) :
    Looks s token s' ↔
      Loops ⟨.string, '"', some [], (s.advance ['R', '"'] rest).startConstant⟩ (token, s') := by
  have hs₀ : s.startConstant.rest = 'R' :: '"' :: rest := hs
  have hback : (s.startConstant.advance ['R'] ('"' :: rest)).retract 1 =
      some s.startConstant := by
    have h := Scanner.retract_advance (s := s.startConstant) (u := []) (v := []) (q := 'R')
      (w := '"' :: rest)
    simp only [Scanner.recount_nil, List.nil_append] at h
    rw [Scanner.advance_nil hs₀ (by simp)] at h
    exact h
  have hs₁ : (s.startConstant.advance ['R'] ('"' :: rest)).rest = '"' :: rest :=
    Scanner.rest_advance (by rw [hs₀]; simp)
  have hback₁ : (s.startConstant.advance ['R', '"'] rest).retract 1 =
      some (s.startConstant.advance ['R'] ('"' :: rest)) := by
    have h := Scanner.retract_advance (s := s.startConstant) (u := ['R']) (v := []) (q := '"')
      (w := rest)
    rw [Scanner.recount_nil] at h
    exact h
  have hstart : Turns ⟨.start, '\x00', none, s.startConstant⟩
      (.inl ⟨.first, 'R', none, s.startConstant⟩) := by
    refine ⟨0, fun fuel _ => ?_⟩
    simp only [lookStep, lookStart]
    rw [Scanner.nextchar_cons hs₀]
    simp only
    rw [if_neg (by decide), if_neg (by decide), if_pos (by decide), hback]
    rfl
  have hfirst : Turns ⟨.first, 'R', none, s.startConstant⟩
      (.inl ⟨.letter, 'R', none, s.startConstant.advance ['R'] ('"' :: rest)⟩) := by
    refine ⟨0, fun fuel _ => ?_⟩
    simp only [lookStep, lookFirst]
    rw [Scanner.nextchar_cons hs₀]
    simp only
    rw [if_neg (by decide), if_pos (by decide)]
  have hletter : Turns ⟨.letter, 'R', none, s.startConstant.advance ['R'] ('"' :: rest)⟩
      (.inl ⟨.rawMark 1, 'R', none, s.startConstant.advance ['R'] ('"' :: rest)⟩) :=
    ⟨0, fun fuel _ => rfl⟩
  have hmark : Turns ⟨.rawMark 1, 'R', none, s.startConstant.advance ['R'] ('"' :: rest)⟩
      (.inl ⟨.first, '"', some [], s.startConstant.advance ['R'] ('"' :: rest)⟩) := by
    refine ⟨0, fun fuel _ => ?_⟩
    simp only [lookStep, lookRawMark]
    rw [Scanner.nextchar_cons hs₁]
    simp only
    rw [if_neg (by decide), if_pos trivial, Scanner.advance_advance]
    exact congrArg (Option.map _) hback₁
  have hquote : Turns ⟨.first, '"', some [], s.startConstant.advance ['R'] ('"' :: rest)⟩
      (.inl ⟨.string, '"', some [], (s.advance ['R', '"'] rest).startConstant⟩) := by
    refine ⟨0, fun fuel _ => ?_⟩
    simp only [lookStep, lookFirst]
    rw [Scanner.nextchar_cons hs₁]
    simp only
    rw [if_neg (by decide), if_neg (by decide), if_pos trivial, Scanner.advance_advance]
    rfl
  exact hstart.goes.trans (hfirst.goes.trans (hletter.goes.trans (hmark.goes.trans hquote.goes)))

end Opening

/-! ## Raw string literals -/

section Literal

variable {s : Scanner} {src : Source} {d content rest : List Char}

/-- The scanner inside a literal, behind its opening parenthesis. -/
def opened (s : Scanner) (d rest : List Char) : Scanner :=
  ((s.advance ['R', '"'] (d ++ '(' :: rest)).startConstant).advance (d ++ ['(']) rest

theorem opened_text : (opened s d rest).text = d ++ ['('] := rfl

theorem opened_line : (opened s d rest).line = s.line + s.ticks d := by
  have hd : (opened s d rest).line = s.line + s.ticks ['R', '"'] + s.ticks (d ++ ['(']) := rfl
  rw [hd, Scanner.ticks_append, Scanner.ticks_eq_zero (u := ['R', '"']) (by decide),
    Scanner.ticks_eq_zero (u := ['(']) (by decide)]
  omega

theorem opened_rest (hs : s.rest ≠ []) : (opened s d rest).rest = rest := by
  refine Scanner.rest_advance ?_
  show (s.advance ['R', '"'] (d ++ '(' :: rest)).rest ≠ []
  rw [Scanner.rest_advance hs]
  simp

/-- The scanner behind a literal whose end is met. -/
def scanned (s : Scanner) (d content rest : List Char) : Scanner :=
  closed (((opened s d (content ++ ')' :: (d ++ '"' :: rest))).advance
    (content ++ ')' :: (d ++ ['"'])) rest).recount (readAgain d content)) d

theorem scanned_text : (scanned s d content rest).text = content := by
  have htext : (scanned s d content rest).text =
      ((opened s d (content ++ ')' :: (d ++ '"' :: rest))).text ++ content).drop (d.length + 1) :=
    closed_text (r := rest) (q := '"')
  have hlen : d.length + 1 = (d ++ ['(']).length := by simp
  rw [htext, opened_text, hlen, List.drop_left]

theorem scanned_str (hs : s.str = some src) : (scanned s d content rest).str =
    some ⟨(rawLiteral d content).reverse ++ src.before, rest, src.line⟩ := by
  simp [scanned, closed, Scanner.recount, opened, Scanner.advance, Scanner.startConstant, hs,
    rawLiteral]

/-- The lines of the delimiter count twice, and those that are read again once more. -/
theorem scanned_line : (scanned s d content rest).line =
    s.line + (2 * s.ticks d + s.ticks content + s.ticks (readAgain d content)) := by
  have hline : (scanned s d content rest).line =
      (opened s d (content ++ ')' :: (d ++ '"' :: rest))).line +
        s.ticks (content ++ ([')'] ++ (d ++ ['"']))) + s.ticks (readAgain d content) := rfl
  rw [hline, opened_line, Scanner.ticks_append, Scanner.ticks_append, Scanner.ticks_append,
    Scanner.ticks_eq_zero (u := [')']) (by decide),
    Scanner.ticks_eq_zero (u := ['"']) (by decide)]
  omega

theorem scanned_line_iff (hsw : swallows content = false) :
    (scanned s d content rest).line = s.line + content.count '\n' ↔
      (s.freezeLine = true → '\n' ∉ content) ∧
      (s.freezeLine = false → '\n' ∉ d ∧
        ∀ before after, content = before ++ ')' :: after →
          '\n' ∉ (after.takeWhile (· ≠ '"')).tail) := by
  rw [scanned_line]
  unfold Scanner.ticks
  cases hf : s.freezeLine with
  | true =>
      simp only [if_true, true_imp_iff, Bool.true_eq_false, false_imp_iff, and_true]
      rw [← List.count_eq_zero]
      omega
  | false =>
      simp only [Bool.false_eq_true, if_false, false_imp_iff, true_imp_iff, true_and]
      constructor
      · intro h
        have hd : '\n' ∉ d := by
          rw [← List.count_eq_zero]
          omega
        refine ⟨hd, (newline_readAgain hd content hsw).1 ?_⟩
        rw [← List.count_eq_zero]
        omega
      · rintro ⟨hd, hlines⟩
        have hread := (newline_readAgain hd content hsw).2 hlines
        rw [← List.count_eq_zero] at hd hread
        omega

/-- A raw string literal is scanned as one string with its content if and only if every
parenthesis that is met on the way leaves the end of the literal and the lines alone. -/
theorem rawLiteral_scans_iff (hs : s.At src (rawLiteral d content ++ rest))
    (hd : '(' ∉ d ∧ ')' ∉ d ∧ '"' ∉ d) (hend : ¬ (')' :: (d ++ ['"'])) <:+: content) :
    ScansRaw s src d content rest ↔ RetractsWell s d content := by
  have hrest : s.rest = 'R' :: '"' :: (d ++ '(' :: (content ++ ')' :: (d ++ '"' :: rest))) := by
    rw [Scanner.rest, hs.1, Option.elim_some, hs.2]
    simp [rawLiteral]
  have hbegin : (s.advance ['R', '"'] (d ++ '(' :: (content ++ ')' ::
      (d ++ '"' :: rest)))).startConstant.rest =
        d ++ '(' :: (content ++ ')' :: (d ++ '"' :: rest)) :=
    Scanner.rest_advance (by rw [hrest]; simp)
  by_cases hdn : '\x00' ∈ d
  · refine iff_of_false ?_ fun h => h.no_null.1 hdn
    rintro ⟨s', hlooks, -⟩
    rw [looks_raw hrest] at hlooks
    exact absurd (delimiter_null hbegin hd.1 hdn hlooks) (by simp)
  have hopen : ∀ s', Looks s .string s' ↔ Loops ⟨.inString, '(', some d,
      opened s d (content ++ ')' :: (d ++ '"' :: rest))⟩ (.string, s') := by
    intro s'
    rw [looks_raw hrest, delimiter_read hbegin hd.1 hdn]
    rfl
  have hin : (opened s d (content ++ ')' :: (d ++ '"' :: rest))).rest =
      content ++ ')' :: (d ++ '"' :: rest) := opened_rest (by rw [hrest]; simp)
  by_cases hcn : '\x00' ∈ content
  · refine iff_of_false ?_ fun h => h.no_null.2 hcn
    rintro ⟨s', hlooks, htext, -⟩
    rw [hopen] at hlooks
    obtain ⟨before, after, hsplit, hfirst⟩ := List.eq_append_cons_of_mem hcn
    rw [hsplit, List.append_assoc, List.cons_append] at hin
    have hlen := scan_null hd.2.2 hdn before hfirst _ _ hin (by rw [opened_text]; simp)
      (by rw [hsplit, List.append_assoc, List.cons_append] at hlooks; exact hlooks)
    rw [htext, hsplit, opened_text] at hlen
    simp only [List.length_append, List.length_cons, List.length_nil] at hlen
    omega
  cases hsw : swallows content with
  | true =>
      refine iff_of_false ?_ fun h => ?_
      · rintro ⟨s', hlooks, htext, -⟩
        rw [hopen] at hlooks
        have hlen := scan_missed hd.2.2 hdn hd.2.1 content hsw hcn hend _ _ hin hlooks
        rw [htext, opened_text, List.length_append, List.length_singleton] at hlen
        omega
      · rw [(swallows_iff content).2 h.parentheses] at hsw
        exact absurd hsw (by simp)
  | false =>
      have hscan : ∀ s', Looks s .string s' ↔ s' = scanned s d content rest := by
        intro s'
        rw [hopen, scan_ends hd.2.2 hdn content hsw hcn hend _ _ hin, Prod.mk.injEq,
          and_iff_right rfl]
        rfl
      constructor
      · rintro ⟨s', hlooks, -, -, -, hline⟩
        rw [(hscan s').1 hlooks, scanned_line_iff hsw] at hline
        exact ⟨⟨hdn, hcn⟩, (swallows_iff content).1 hsw, hline.1, hline.2⟩
      · intro h
        refine ⟨_, (hscan _).2 rfl, scanned_text, scanned_str hs.1, rfl, ?_⟩
        exact (scanned_line_iff hsw).2 ⟨h.frozen, h.lines⟩

end Literal

/-- A scanner at the beginning of a text. -/
def scannerOf (t : List Char) : Scanner where
  text := []
  str := some ⟨[], t, 1⟩
  scanobjs := []
  line := 1
  startLine := 1
  freezeLine := false

/-- `R"x(a)"b)x"`. -/
theorem rawLiteral_scans_quote :
    ScansRaw (scannerOf (rawLiteral ['x'] ['a', ')', '"', 'b'] ++ [';']))
      ⟨[], rawLiteral ['x'] ['a', ')', '"', 'b'] ++ [';'], 1⟩ ['x'] ['a', ')', '"', 'b'] [';'] ↔
    RetractsWell (scannerOf (rawLiteral ['x'] ['a', ')', '"', 'b'] ++ [';']))
      ['x'] ['a', ')', '"', 'b'] :=
  rawLiteral_scans_iff ⟨rfl, rfl⟩ (by decide) (by decide)

/-- `R"(f(x))"`: the parenthesis that closes the literal is swallowed by the one of the
content, and the scanner runs to the end of the input. -/
theorem rawLiteral_not_scanned :
    ¬ ScansRaw (scannerOf (rawLiteral [] ['f', '(', 'x', ')'] ++ [';']))
      ⟨[], rawLiteral [] ['f', '(', 'x', ')'] ++ [';'], 1⟩ [] ['f', '(', 'x', ')'] [';'] := by
  rintro ⟨s', ⟨steps, hlook⟩, -⟩
  have hrun : ∀ n, ∃ s, look (n + 20)
      (scannerOf (rawLiteral [] ['f', '(', 'x', ')'] ++ [';'])) = some (.unterminatedString, s) :=
    fun n => ⟨_, rfl⟩
  obtain ⟨s, hs⟩ := hrun steps
  rw [hlook (steps + 20) (by omega)] at hs
  exact absurd (Prod.mk.inj (Option.some.inj hs)).1 (by decide)

end Swig4Ada.Swig

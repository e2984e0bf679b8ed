import Swig4Ada.Swig.Wrapfunc

/-!
# Printing a wrapper changes white space

A turn of the loop takes characters from the text and puts them to the line, with blanks and line
breaks besides, or drops white space. Two things can go wrong at the end of the text: a literal
may end there behind a backslash, and a last line of colons is not printed.
-/

namespace Swig4Ada.Swig

variable {st st' : PrettyState} {c : Char} {s t : List Char}

/-- What is left of a text without its white space. -/
def nonBlank (text : List Char) : List Char := text.filter fun c => !Doh.isSpace c

theorem nonBlank_append (s t : List Char) : nonBlank (s ++ t) = nonBlank s ++ nonBlank t :=
  List.filter_append s t

theorem nonBlank_blanks (n : Int) : nonBlank (blanks n) = [] := by
  rw [nonBlank, List.filter_eq_nil_iff]
  intro c hc
  rw [List.eq_of_mem_replicate hc]
  decide

theorem nonBlank_cons (c : Char) (s : List Char) :
    nonBlank (c :: s) = nonBlank [c] ++ nonBlank s := nonBlank_append [c] s

theorem nonBlank_newline : nonBlank ['\n'] = [] := by decide

theorem nonBlank_dropWhile (s : List Char) : nonBlank (s.dropWhile Doh.isSpace) = nonBlank s := by
  have htake : nonBlank (s.takeWhile Doh.isSpace) = [] := by
    rw [nonBlank, List.filter_eq_nil_iff]
    intro c hc
    rw [List.mem_takeWhile_imp hc]
    decide
  conv_rhs => rw [← List.takeWhile_append_dropWhile (p := Doh.isSpace) (l := s)]
  rw [nonBlank_append, htake, List.nil_append]

/-! ## Literals and comments -/

/-- Behind the quote the text ends before the literal does, and it ends in a backslash. The quote
ends the literal also behind a backslash. -/
inductive EndsInside (quote : Char) : List Char → Prop
  | last : EndsInside quote ['\\']
  | escaped {d : Char} {s : List Char} (hd : d ≠ quote) (h : EndsInside quote s) :
      EndsInside quote ('\\' :: d :: s)
  | char {c : Char} {s : List Char} (hc : c ≠ '\\') (hquote : c ≠ quote)
      (h : EndsInside quote s) : EndsInside quote (c :: s)

/-- A literal is put as it stands; where it ends behind a backslash at the end of the text, the
end of the text is put as well. -/
theorem printLiteral_text (quote : Char) (s : List Char) :
    (printLiteral quote s).1 ++ (printLiteral quote s).2 = s ∨
      (printLiteral quote s).1 = s ++ [putEof] ∧ (printLiteral quote s).2 = [] ∧
        EndsInside quote s := by
  fun_induction printLiteral quote s with
  | case1 => exact Or.inl rfl
  | case2 => exact Or.inr ⟨rfl, rfl, .last⟩
  | case3 => exact Or.inl rfl
  | case4 d s hd ih =>
      rcases ih with ih | ⟨htext, hrest, hinside⟩
      · exact Or.inl (congrArg ('\\' :: d :: ·) ih)
      · exact Or.inr ⟨congrArg ('\\' :: d :: ·) htext, hrest, .escaped hd hinside⟩
  | case5 => exact Or.inl rfl
  | case6 c s hc hquote ih =>
      rcases ih with ih | ⟨htext, hrest, hinside⟩
      · exact Or.inl (congrArg (c :: ·) ih)
      · exact Or.inr ⟨congrArg (c :: ·) htext, hrest, .char hc hquote hinside⟩

/-- A comment is put with the indentation of its lines. -/
theorem printComment_text (level : Int) (endstar : Bool) (s : List Char) :
    nonBlank (printComment level endstar s).1 ++ nonBlank (printComment level endstar s).2 =
      nonBlank s := by
  induction s generalizing endstar with
  | nil => rfl
  | cons c s ih =>
      have hline : nonBlank (if c = '\n' then c :: blanks level else [c]) = nonBlank [c] := by
        split
        · rw [nonBlank_cons, nonBlank_blanks, List.append_nil]
        · rfl
      rw [printComment]
      split
      · exact (nonBlank_cons c s).symm
      · dsimp only
        rw [nonBlank_append, hline, List.append_assoc, ih, ← nonBlank_cons]

/-! ## One turn -/

/-- What was printed and gathered, without white space. -/
def PrettyState.kept (st : PrettyState) : List Char := nonBlank (st.f ++ st.ts)

theorem kept_put (st : PrettyState) (text : List Char) :
    (st.put text).kept = st.kept ++ nonBlank text := by
  show nonBlank (st.f ++ (st.ts ++ text)) = _
  rw [← List.append_assoc, nonBlank_append]
  rfl

theorem kept_print (st : PrettyState) : st.print.kept = st.kept := by
  show nonBlank (st.f ++ blanks st.level ++ st.ts ++ []) = nonBlank (st.f ++ st.ts)
  simp only [nonBlank_append, nonBlank_blanks, List.append_nil]

theorem kept_endLine (st : PrettyState) : st.endLine.kept = st.kept := by
  have hindent : ∀ (p : Prop) [Decidable p] (n : Int),
      nonBlank (if p then [] else blanks n) = [] := by
    intro p _ n
    split
    · rfl
    · exact nonBlank_blanks n
  rw [PrettyState.kept, PrettyState.endLine]
  dsimp only
  simp only [nonBlank_append, nonBlank_blanks, nonBlank_newline, hindent, List.append_nil,
    PrettyState.kept]

/-- Where a line counts as empty, the last line of what was read is white space but for the colons
that were gathered. -/
def PrettyState.Gathered (st : PrettyState) (read : List Char) : Prop :=
  st.empty = true → ∃ before line, read = before ++ line ∧
    (before = [] ∨ before.getLast? = some '\n') ∧ '\n' ∉ line ∧ nonBlank line = st.ts ∧
      ∀ c ∈ st.ts, c = ':'

/-- The turns of the loop from one state, with the text to be read, to another one. -/
inductive PrettyTurns : PrettyState → List Char → PrettyState → List Char → Prop
  | refl (st : PrettyState) (s : List Char) : PrettyTurns st s st s
  | turn {st st' : PrettyState} {c : Char} {s s' : List Char}
      (h : PrettyTurns (prettyTurn st c s).1 (prettyTurn st c s).2 st' s') : PrettyTurns st (c :: s) st' s'

/-- The loop comes to a literal that ends behind a backslash at the end of the text. -/
def ComesInside (st : PrettyState) (s : List Char) : Prop :=
  ∃ st' quote body, PrettyTurns st s st' (quote :: body) ∧ (quote = '"' ∨ quote = '\'') ∧
    EndsInside quote body

/-- From one state with a text to be read to another one, no character gets lost; the end of a
text behind a backslash becomes a character. -/
inductive Keeps (st : PrettyState) (s : List Char) (st' : PrettyState) (s' : List Char) : Prop
  | all (h : st'.kept ++ nonBlank s' = st.kept ++ nonBlank s)
  | gains (h : st'.kept = st.kept ++ nonBlank s ++ [putEof]) (rest : s' = [])
      (empty : st'.empty = false) (inside : ComesInside st s)

theorem keeps_put {text rest : List Char} (h : nonBlank text ++ nonBlank rest = nonBlank s)
    (hkept : st'.kept = (st.put text).kept) : Keeps st s st' rest :=
  .all (by rw [hkept, kept_put, List.append_assoc, h])

theorem keeps_cons (hkept : st'.kept = (st.put [c]).kept) : Keeps st (c :: s) st' s :=
  keeps_put (nonBlank_cons c s).symm hkept

theorem prettyTurn_keeps (st : PrettyState) (c : Char) (s : List Char) :
    Keeps st (c :: s) (prettyTurn st c s).1 (prettyTurn st c s).2 := by
  have hite : ∀ {p : Prop} [Decidable p] {a b : PrettyState × List Char},
      (p → Keeps st (c :: s) a.1 a.2) → (¬ p → Keeps st (c :: s) b.1 b.2) →
        Keeps st (c :: s) (if p then a else b).1 (if p then a else b).2 := fun ha hb =>
    iteInduction (motive := fun r : PrettyState × List Char => Keeps st (c :: s) r.1 r.2) ha hb
  unfold prettyTurn
  refine hite (fun hquote => ?_) fun _ => ?_
  · rcases printLiteral_text c s with htext | ⟨htext, hrest, hinside⟩
    · refine keeps_put ?_ rfl
      rw [← nonBlank_append, List.cons_append, htext]
    · refine .gains ?_ hrest rfl ⟨st, c, s, .refl st (c :: s), hquote, hinside⟩
      rw [kept_put, htext, ← List.cons_append, nonBlank_append, List.append_assoc]
      rfl
  refine hite (fun _ => keeps_cons rfl) fun _ => ?_
  refine hite (fun _ => keeps_cons rfl) fun _ => ?_
  refine hite (fun _ => keeps_cons rfl) fun _ => ?_
  refine hite (fun _ => ?_) fun _ => ?_
  · have htext : nonBlank [c, '\n'] ++ nonBlank (s.dropWhile Doh.isSpace) = nonBlank (c :: s) := by
      rw [nonBlank_dropWhile, nonBlank_cons c ['\n'], nonBlank_newline, List.append_nil,
        ← nonBlank_cons]
    exact keeps_put htext (kept_print _)
  refine hite (fun _ => ?_) fun _ => ?_
  · have hclosed : (if st.empty = true then st else (st.put ['\n']).print).kept = st.kept := by
      split
      · rfl
      · rw [kept_print, kept_put, nonBlank_newline, List.append_nil]
    refine .all ?_
    show ((if st.empty = true then st else (st.put ['\n']).print).put [c]).kept ++ nonBlank s = _
    rw [kept_put, hclosed, List.append_assoc, ← nonBlank_cons]
  refine hite (fun hc => ?_) fun _ => ?_
  · rw [hc]
    refine .all ?_
    rw [nonBlank_cons '\n', nonBlank_newline, List.nil_append, kept_endLine]
  refine hite (fun _ => ?_) fun _ => ?_
  · split
    · exact keeps_cons rfl
    next d s =>
      split
      · refine keeps_put ?_ rfl
        rw [← nonBlank_append, List.cons_append, List.cons_append,
          List.takeWhile_append_dropWhile]
      split
      · refine keeps_put ?_ rfl
        rw [nonBlank_cons c, nonBlank_cons d, List.append_assoc, List.append_assoc,
          printComment_text, ← nonBlank_cons, ← nonBlank_cons]
      · exact keeps_put (nonBlank_append [c, d] s).symm rfl
  refine hite (fun _ => keeps_cons rfl) fun hspace => ?_
  have hblank : Doh.isSpace c = true := by
    rw [Bool.or_eq_true, not_or] at hspace
    simpa using hspace.2
  refine .all ?_
  rw [nonBlank, nonBlank, List.filter_cons_of_neg (by simp [hblank])]

/-- The turns behind which a line counts as empty. -/
theorem prettyTurn_empty {r : PrettyState × List Char} (h : prettyTurn st c s = r)
    (hempty : r.1.empty = true) :
    r.2 = s ∧ (c = '\n' ∧ r.1.ts = [] ∨
      c ≠ '\n' ∧ st.empty = true ∧ r.1.ts = st.ts ++ nonBlank [c] ∧ ∀ x ∈ nonBlank [c], x = ':') := by
  unfold prettyTurn at h
  have hput : ∀ {st' : PrettyState} {s' : List Char}, (st', s') = r → st'.empty = false → False := by
    intro st' s' heq hfalse
    rw [← heq, hfalse] at hempty
    cases hempty
  replace h := ((ite_eq_iff.1 h).resolve_left fun h => hput h.2 rfl).2
  rcases ite_eq_iff.1 h with ⟨hc, h⟩ | ⟨-, h⟩
  · have hnonBlank : nonBlank [c] = [c] := by
      rw [hc]
      decide
    obtain rfl := h
    refine ⟨rfl, Or.inr ⟨by rw [hc]; decide, hempty, by rw [hnonBlank], ?_⟩⟩
    rw [hnonBlank]
    exact fun x hx => (List.mem_singleton.1 hx).trans hc
  replace h := ((ite_eq_iff.1 h).resolve_left fun h => hput h.2 rfl).2
  replace h := ((ite_eq_iff.1 h).resolve_left fun h => hput h.2 rfl).2
  replace h := ((ite_eq_iff.1 h).resolve_left fun h => hput h.2 rfl).2
  replace h := ((ite_eq_iff.1 h).resolve_left fun h => hput h.2 rfl).2
  rcases ite_eq_iff.1 h with ⟨hc, h⟩ | ⟨hnewline, h⟩
  · obtain rfl := h
    exact ⟨rfl, Or.inl ⟨hc, rfl⟩⟩
  rcases ite_eq_iff.1 h with ⟨-, h⟩ | ⟨-, h⟩
  · split at h
    · exact (hput h rfl).elim
    · split at h
      · exact (hput h rfl).elim
      split at h <;> exact (hput h rfl).elim
  obtain ⟨hspace, h⟩ := (ite_eq_iff.1 h).resolve_left fun h => hput h.2 rfl
  have hblank : nonBlank [c] = [] := by
    rw [Bool.or_eq_true, not_or] at hspace
    rw [nonBlank, List.filter_cons_of_neg (by simpa using hspace.2), List.filter_nil]
  obtain rfl := h
  rw [hblank]
  exact ⟨rfl, Or.inr ⟨hnewline, hempty, (List.append_nil _).symm,
    fun x hx => absurd hx List.not_mem_nil⟩⟩

theorem prettyTurn_gathered {read : List Char} (h : st.Gathered read) :
    ∃ taken, c :: s = taken ++ (prettyTurn st c s).2 ∧
      (prettyTurn st c s).1.Gathered (read ++ taken) := by
  obtain ⟨taken, htaken⟩ : (prettyTurn st c s).2 <:+ c :: s :=
    (prettyTurn_suffix st c s).trans (List.suffix_cons c s)
  refine ⟨taken, htaken.symm, fun hempty => ?_⟩
  obtain ⟨hrest, hcase⟩ := prettyTurn_empty rfl hempty
  obtain rfl : taken = [c] := by
    rw [hrest] at htaken
    exact @List.append_cancel_right _ taken s [c] htaken
  rcases hcase with ⟨hc, hts⟩ | ⟨hc, hbefore, hts, hcolon⟩
  · refine ⟨read ++ [c], [], (List.append_nil _).symm, Or.inr ?_, List.not_mem_nil, hts.symm, ?_⟩
    · rw [List.getLast?_append, hc]
      rfl
    · rw [hts]
      exact fun x hx => absurd hx List.not_mem_nil
  · obtain ⟨before, line, hread, hline, hnewline, hcolons, hall⟩ := h hbefore
    refine ⟨before, line ++ [c], ?_, hline, ?_, ?_, ?_⟩
    · rw [hread, List.append_assoc]
    · rw [List.mem_append, not_or, List.mem_singleton]
      exact ⟨hnewline, hc.symm⟩
    · rw [nonBlank_append, hcolons, hts]
    · rw [hts]
      intro x hx
      exact (List.mem_append.1 hx).elim (hall x) (hcolon x)

/-! ## The whole text -/

theorem prettyLoop_gathered {read : List Char} (h : st.Gathered read) :
    (prettyLoop st s).Gathered (read ++ s) := by
  fun_induction prettyLoop st s generalizing read with
  | case1 st =>
      rw [List.append_nil]
      exact h
  | case2 st c s ih =>
      obtain ⟨taken, htaken, hgathered⟩ := @prettyTurn_gathered st c s read h
      have hrest := ih hgathered
      rw [List.append_assoc, ← htaken] at hrest
      exact hrest

theorem prettyLoop_keeps (st : PrettyState) (s : List Char) : Keeps st s (prettyLoop st s) [] := by
  fun_induction prettyLoop st s with
  | case1 st => exact .all rfl
  | case2 st c s ih =>
      cases prettyTurn_keeps st c s with
      | all heq =>
          cases ih with
          | all heq' => exact .all (heq'.trans heq)
          | gains heq' hnil hempty hinside =>
              obtain ⟨st', quote, body, hturns, hquote⟩ := hinside
              exact .gains (by rw [heq', heq]) hnil hempty
                ⟨st', quote, body, hturns.turn, hquote⟩
      | gains heq hnil hempty hinside =>
          rw [hnil, prettyLoop]
          exact .gains heq rfl hempty hinside

end Swig4Ada.Swig

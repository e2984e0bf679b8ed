import Swig4Ada.Proofs.Reading
import Swig4Ada.Preprocessor.Groups
import Swig4Ada.Preprocessor.Lines

/-!
# The name of a directive

What the machine has put into `id` at the end of a directive is the first word behind its
hash (`Named.firstWord`).
-/

namespace Swig4Ada.Preprocessor

variable {σ : Type} {W : FileWorld σ} {fs : FileState σ} {c : Char} {n : Nat}

/-! ## The name that the machine takes -/

/-- The first word of a text is complete. -/
def CutAt (d id : List Char) : Prop :=
  ∃ e rest, d.dropWhile isSpace = id ++ e :: rest ∧ isIdChar e = false ∧
    ∀ c ∈ id, isIdChar c = true

/-- What the machine has of the name of a directive whose text is `d`. -/
def Named (fs : FileState σ) (d : List Char) : Prop :=
  match fs.line.mode with
  | .hash => ∀ c ∈ d, isSpace c = true
  | .name => d.dropWhile isSpace = fs.line.id ∧ fs.line.id ≠ [] ∧
      ∀ c ∈ fs.line.id, isIdChar c = true
  | mode => mode.inDirective = true → CutAt d fs.line.id

variable {d id : List Char}

theorem dropWhile_space_append (h : d.dropWhile isSpace ≠ []) (t : List Char) :
    (d ++ t).dropWhile isSpace = d.dropWhile isSpace ++ t := by
  rw [List.dropWhile_append, if_neg]
  rw [List.isEmpty_iff]
  exact h

theorem CutAt.append (h : CutAt d id) (c : Char) : CutAt (d ++ [c]) id := by
  obtain ⟨e, rest, hd, he, hid⟩ := h
  refine ⟨e, rest ++ [c], ?_, he, hid⟩
  rw [dropWhile_space_append (by rw [hd]; simp), hd, List.append_assoc, List.cons_append]

theorem firstWord_id (hid : ∀ c ∈ id, isIdChar c = true) (h : d.dropWhile isSpace = id) :
    firstWord d = id := by
  rw [firstWord, h]
  exact List.takeWhile_eq_self_iff.2 hid

theorem CutAt.firstWord (h : CutAt d id) : firstWord d = id := by
  obtain ⟨e, rest, hd, he, hid⟩ := h
  rw [Preprocessor.firstWord, hd, List.takeWhile_append_of_pos hid,
    List.takeWhile_cons_of_neg (by rw [he]; exact Bool.false_ne_true), List.append_nil]

theorem named_outside (h : fs.line.mode.inDirective = false) (d : List Char) : Named fs d := by
  rw [Named]
  cases hm : fs.line.mode with
  | hash | name =>
      rw [hm] at h
      cases h
  | _ =>
      rw [hm] at h
      intro hin
      rw [h] at hin
      cases hin

theorem Named.of_value (hmode : fs.line.mode.inValue = true) :
    Named fs d ↔ CutAt d fs.line.id := by
  rw [Named]
  cases hm : fs.line.mode with
  | beforeValue | value | valueBackslash | valueSlash | valueLineComment | valueBlockComment
  | valueBlockCommentStar => exact ⟨fun h => h rfl, fun h _ => h⟩
  | skip quote escaped inValue =>
      rw [hm] at hmode
      cases inValue with
      | true => exact ⟨fun h => h rfl, fun h _ => h⟩
      | false => cases hmode
  | _ =>
      rw [hm] at hmode
      cases hmode

/-- Behind its name a directive keeps it. -/
theorem parseStep_value {st : ParseState σ} (hmode : st.mode.inValue = true) :
    (parseStep W.toWorld st c).1.id = st.id ∧
      ((parseStep W.toWorld st c).1.mode.inValue = true ∨
        (parseStep W.toWorld st c).1.mode = .directive) := by
  cases hm : st.mode with
  | skip quote escaped inValue =>
      rw [hm] at hmode
      cases inValue with
      | true =>
          simp only [parseStep, hm, if_true]
          refine ⟨rfl, .inl ?_⟩
          rw [putValue]
          repeat' split
          all_goals rfl
      | false => cases hmode
  | beforeValue | value | valueBackslash | valueSlash | valueLineComment | valueBlockComment
  | valueBlockCommentStar =>
      simp only [parseStep, hm, readValue]
      repeat' split
      all_goals refine ⟨rfl, ?_⟩
      all_goals first
        | exact .inl rfl
        | exact .inr rfl
        | (rw [hm]; exact .inl rfl)
  | _ =>
      rw [hm] at hmode
      cases hmode

theorem inValue_ne {mode : Mode} (h : mode.inValue = true) :
    mode ≠ .swigBlock ∧ mode ≠ .directive ∧ mode.inDirective = true := by
  cases mode with
  | skip quote escaped inValue =>
      cases inValue with
      | true => exact ⟨(by intro h; cases h), (by intro h; cases h), rfl⟩
      | false => cases h
  | beforeValue | value | valueBackslash | valueSlash | valueLineComment | valueBlockComment
  | valueBlockCommentStar => exact ⟨(by intro h; cases h), (by intro h; cases h), rfl⟩
  | _ => cases h

/-- A character behind the name. -/
theorem readFile_id : ∀ (n : Nat) (fs : FileState σ),
    fs.line.mode.inValue = true ∨ fs.line.mode = .directive →
      (readFileChar W n fs c).line.mode.inDirective = true →
        (readFileChar W n fs c).line.id = fs.line.id ∧
          ((readFileChar W n fs c).line.mode.inValue = true ∨
            (readFileChar W n fs c).line.mode = .directive) := by
  intro n
  induction n with
  | zero => exact fun fs h _ => ⟨rfl, h⟩
  | succ n ih =>
      intro fs hmode hin
      by_cases hend : fs.line.mode = .directive
      · rw [atEnd_inDirective (readFile_directive hend)] at hin
        cases hin
      have hvalue := hmode.resolve_right hend
      obtain ⟨hid, hmode'⟩ := parseStep_value (W := W) (c := c) hvalue
      rcases hstep : parseStep W.toWorld fs.line c with ⟨line, again⟩
      rw [hstep] at hid hmode'
      have hblock : line.mode ≠ .swigBlock := by
        rcases hmode' with h | h
        · exact (inValue_ne h).1
        · rw [h]
          intro h
          cases h
      have hfile := fileStep_line (inValue_ne hvalue).1 hstep hblock
      cases again with
      | false =>
          rw [readFileChar_taken hfile]
          exact ⟨hid, hmode'⟩
      | true =>
          rw [readFileChar_again hfile] at hin ⊢
          obtain ⟨hid', hmode''⟩ := ih (fs.withLine line) hmode' hin
          exact ⟨hid'.trans hid, hmode''⟩

theorem isSpace_idChar {c : Char} (h : isIdChar c = true) : isSpace c = false := by
  have htoNat : c.toNat = c.val.toNat := rfl
  cases hspace : isSpace c with
  | false => rfl
  | true =>
      simp only [isIdChar, Char.isAlphanum, Char.isAlpha, Char.isUpper, Char.isLower,
        Char.isDigit, Bool.or_eq_true, Bool.and_eq_true, decide_eq_true_eq, ge_iff_le,
        UInt32.le_iff_toNat_le] at h
      have hA : 'A'.val.toNat = 65 := rfl
      have hZ : 'Z'.val.toNat = 90 := rfl
      have ha : 'a'.val.toNat = 97 := rfl
      have hz : 'z'.val.toNat = 122 := rfl
      have h0 : '0'.val.toNat = 48 := rfl
      have h9 : '9'.val.toNat = 57 := rfl
      rcases of_decide_eq_true hspace with rfl | hrange
      · revert h
        decide
      · rcases h with ((h | h) | h) | rfl | rfl
        · omega
        · omega
        · omega
        · revert hrange
          decide
        · revert hrange
          decide

/-- A character of the name, or the one behind it. -/
theorem readFile_inName (hmode : fs.line.mode = .name) (hd : d.dropWhile isSpace = fs.line.id)
    (hchars : ∀ c ∈ fs.line.id, isIdChar c = true) (hfirst : fs.line.id = [] → isSpace c = false)
    (hin : (readFileChar W (n + 1) fs c).line.mode.inDirective = true)
    (hend : (readFileChar W (n + 1) fs c).line.mode ≠ .directive) :
    Named (readFileChar W (n + 1) fs c) (d ++ [c]) := by
  have hne : fs.line.mode ≠ .swigBlock := by
    rw [hmode]
    intro h
    cases h
  have hdrop : (d ++ [c]).dropWhile isSpace = fs.line.id ++ [c] := by
    by_cases hempty : fs.line.id = []
    · rw [hempty] at hd ⊢
      rw [List.dropWhile_append, hd, List.isEmpty_nil, if_pos rfl, List.dropWhile_cons_of_neg
        (by rw [hfirst hempty]; exact Bool.false_ne_true), List.nil_append]
    · rw [dropWhile_space_append (by rw [hd]; exact hempty), hd]
  by_cases hname : isSpace c ∨ ¬ isIdChar c
  · have hnot : isIdChar c = false := by
      rcases hname with h | h
      · rw [Bool.eq_false_iff]
        intro hid
        rw [isSpace_idChar hid] at h
        cases h
      · exact Bool.eq_false_iff.2 h
    have hcut : CutAt (d ++ [c]) fs.line.id := ⟨c, [], hdrop, hnot, hchars⟩
    by_cases hc : c = '\n'
    · subst hc
      have hstep : parseStep W.toWorld fs.line '\n' =
          ({ fs.line with value := [], comment := [], mode := .directive }, true) := by
        simp only [parseStep, hmode, if_pos hname, if_true]
      rw [readFileChar_again (fileStep_line hne hstep (by intro h; cases h))] at hin hend
      cases n with
      | zero => exact absurd rfl hend
      | succ n =>
          rw [atEnd_inDirective (readFile_directive rfl)] at hin
          cases hin
    have hstep : parseStep W.toWorld fs.line c =
        ({ fs.line with value := [], comment := [], mode := .beforeValue }, !isSpace c) := by
      simp only [parseStep, hmode, if_pos hname, if_neg hc]
    cases hspace : isSpace c with
    | true =>
        rw [hspace] at hstep
        rw [readFileChar_taken (fileStep_line hne hstep (by intro h; cases h))]
        exact (Named.of_value rfl).2 hcut
    | false =>
        rw [hspace] at hstep
        rw [readFileChar_again (fileStep_line hne hstep (by intro h; cases h))] at hin hend ⊢
        obtain ⟨hid, hvalue⟩ := readFile_id (W := W) (c := c) n _ (.inl rfl) hin
        rw [Named.of_value (hvalue.resolve_right hend), hid]
        exact hcut
  · have hstep : parseStep W.toWorld fs.line c =
        ({ fs.line with id := fs.line.id ++ [c] }, false) := by
      simp only [parseStep, hmode, if_neg hname]
    rw [not_or, not_not] at hname
    rw [readFileChar_taken (fileStep_line hne hstep hne), Named]
    dsimp only [FileState.withLine]
    rw [hmode]
    refine ⟨hdrop, List.append_ne_nil_of_right_ne_nil _ (List.cons_ne_nil _ _), fun e he => ?_⟩
    rcases List.mem_append.1 he with he | he
    · exact hchars e he
    · rw [List.mem_singleton.1 he]
      exact hname.2

/-- A character in a directive. -/
theorem named_next (h : Named fs d) (hmode : fs.line.mode.inDirective = true)
    (hstart : fs.line.mode ≠ .directive)
    (hin : (readFileChar W 3 fs c).line.mode.inDirective = true)
    (hend : (readFileChar W 3 fs c).line.mode ≠ .directive) :
    Named (readFileChar W 3 fs c) (d ++ [c]) := by
  by_cases hhash : fs.line.mode = .hash
  · have hspaces : ∀ c ∈ d, isSpace c = true := by
      rw [Named, hhash] at h
      exact h
    have hne : fs.line.mode ≠ .swigBlock := by
      rw [hhash]
      intro h
      cases h
    by_cases hc : c = '\n'
    · have hstep : parseStep W.toWorld fs.line c = (putChunk fs.line c .start, false) := by
        simp only [parseStep, hhash, if_pos hc]
      rw [readFileChar_taken (fileStep_line hne hstep (by intro h; cases h))] at hin
      cases hin
    by_cases hspace : isSpace c = true
    · have hstep : parseStep W.toWorld fs.line c = (fs.line, false) := by
        simp only [parseStep, hhash, if_neg hc, if_pos hspace]
      rw [readFileChar_taken (fileStep_line hne hstep hne), Named]
      dsimp only [FileState.withLine]
      rw [hhash]
      intro e he
      rcases List.mem_append.1 he with he | he
      · exact hspaces e he
      · rw [List.mem_singleton.1 he]
        exact hspace
    · have hstep : parseStep W.toWorld fs.line c =
          ({ fs.line with id := [], mode := .name }, true) := by
        simp only [parseStep, hhash, if_neg hc, if_neg hspace]
      rw [readFileChar_again (fileStep_line hne hstep (by intro h; cases h))] at hin hend ⊢
      exact readFile_inName rfl (List.dropWhile_eq_nil_iff.2 hspaces)
        (by intro _ h; cases h)
        (fun _ => Bool.eq_false_iff.2 hspace) hin hend
  by_cases hname : fs.line.mode = .name
  · obtain ⟨hd, hnonempty, hchars⟩ : d.dropWhile isSpace = fs.line.id ∧ fs.line.id ≠ [] ∧
        ∀ c ∈ fs.line.id, isIdChar c = true := by
      rw [Named, hname] at h
      exact h
    exact readFile_inName hname hd hchars (fun h => absurd h hnonempty) hin hend
  · have hvalue : fs.line.mode.inValue = true := by
      cases hm : fs.line.mode with
      | hash => exact absurd hm hhash
      | name => exact absurd hm hname
      | directive => exact absurd hm hstart
      | skip quote escaped inValue =>
          rw [hm] at hmode
          cases inValue with
          | true => rfl
          | false => cases hmode
      | _ =>
          rw [hm] at hmode
          first | rfl | cases hmode
    obtain ⟨hid, hvalue'⟩ := readFile_id (W := W) (c := c) 3 fs (.inl hvalue) hin
    rw [Named.of_value hvalue] at h
    rw [Named.of_value (hvalue'.resolve_right hend), hid]
    exact h.append c

/-- The name is complete at the end of its directive. -/
theorem Named.firstWord (h : Named fs d) (hmode : fs.line.mode.inDirective = true)
    (hhash : fs.line.mode ≠ .hash) : firstWord d = fs.line.id := by
  by_cases hname : fs.line.mode = .name
  · rw [Named, hname] at h
    exact firstWord_id h.2.2 h.1
  · rw [Named] at h
    cases hm : fs.line.mode with
    | hash => exact absurd hm hhash
    | name => exact absurd hm hname
    | _ =>
        rw [hm] at h hmode
        exact (h hmode).firstWord

theorem firstWord_spaces (h : ∀ c ∈ d, isSpace c = true) : firstWord d = [] := by
  rw [firstWord, List.dropWhile_eq_nil_iff.2 h]
  rfl

/-! ## The end of a directive -/

/-- State 50. -/
theorem readFile_directiveEnd (hmode : fs.line.mode = .directive) :
    readFileChar W (n + 1) fs c = fs.withLine (directiveEnd W.toWorld fs.line) := by
  have hblock : (directiveEnd W.toWorld fs.line).mode ≠ .swigBlock := by
    rw [directiveEnd]
    intro hb
    rcases carryOut_mode W.toWorld
      { fs.line with value := chop fs.line.value, mode := .start } with h | h
    · cases h.symm.trans hb
    · cases h.symm.trans hb
  refine readFileChar_taken (fileStep_line (hmode.trans_ne (by decide)) ?_ hblock)
  simp only [parseStep, hmode]

/-- A directive ends at a line break: a null directive, or one that is carried out. -/
theorem readFile_lineBreak (hmode : fs.line.mode.inDirective = true)
    (hend : fs.line.mode ≠ .directive)
    (hout : (readFileChar W 3 fs '\n').line.mode.inDirective = false) :
    (fs.line.mode = .hash ∧
      readFileChar W 3 fs '\n' = fs.withLine (putChunk fs.line '\n' .start)) ∨
    fs.line.mode ≠ .hash ∧ ∃ line, (parseStep W.toWorld fs.line '\n').1 = line ∧
      line.id = fs.line.id ∧ line.mode = .directive ∧
        readFileChar W 3 fs '\n' = fs.withLine (directiveEnd W.toWorld line) := by
  by_cases hhash : fs.line.mode = .hash
  · have hstep : parseStep W.toWorld fs.line '\n' = (putChunk fs.line '\n' .start, false) := by
      simp only [parseStep, hhash, if_true]
    have hne : fs.line.mode ≠ .swigBlock := by
      rw [hhash]
      intro h
      cases h
    exact .inl ⟨hhash, readFileChar_taken (fileStep_line hne hstep (by intro h; cases h))⟩
  refine .inr ⟨hhash, _, rfl, ?_⟩
  have hne : fs.line.mode ≠ .swigBlock := by
    intro h
    rw [h] at hmode
    cases hmode
  have hends : ∀ line : ParseState σ, parseStep W.toWorld fs.line '\n' = (line, true) →
      line.id = fs.line.id → line.mode = .directive →
        (parseStep W.toWorld fs.line '\n').1.id = fs.line.id ∧
          (parseStep W.toWorld fs.line '\n').1.mode = .directive ∧
            readFileChar W 3 fs '\n' =
              fs.withLine (directiveEnd W.toWorld (parseStep W.toWorld fs.line '\n').1) := by
    intro line hstep hid hline
    have hblock : line.mode ≠ .swigBlock := by
      rw [hline]
      intro h
      cases h
    rw [readFileChar_again (fileStep_line hne hstep hblock), hstep]
    have hdone : (fs.withLine line).line.mode = .directive := hline
    exact ⟨hid, hline, readFile_directiveEnd hdone⟩
  have hstays : ∀ line : ParseState σ, parseStep W.toWorld fs.line '\n' = (line, false) →
      line.mode.inDirective = true → False := by
    intro line hstep hline
    have hblock : line.mode ≠ .swigBlock := by
      intro h
      rw [h] at hline
      cases hline
    rw [readFileChar_taken (fileStep_line hne hstep hblock)] at hout
    rw [show (fs.withLine line).line = line from rfl, hline] at hout
    cases hout
  cases hm : fs.line.mode with
  | name =>
      have hname : isSpace '\n' = true ∨ ¬ isIdChar '\n' = true := .inl isSpace_newline
      exact hends { fs.line with value := [], comment := [], mode := .directive }
        (by simp only [parseStep, hm, if_pos hname, if_true]) rfl rfl
  | beforeValue =>
      exact hends { fs.line with mode := .directive }
        (by simp only [parseStep, hm, isSpace_newline, if_true]) rfl rfl
  | value =>
      exact hends { fs.line with mode := .directive }
        (by simp only [parseStep, hm, readValue, if_true]) rfl rfl
  | valueSlash =>
      exact hends (putValue fs.line '/' .directive)
        (by simp [parseStep, hm]) rfl rfl
  | valueLineComment =>
      exact hends { fs.line with mode := .directive }
        (by simp only [parseStep, hm, if_true]) rfl rfl
  | hash => exact absurd hm hhash
  | directive => exact absurd hm hend
  | valueBackslash | valueBlockComment | valueBlockCommentStar =>
      exact (hstays _ (by simp only [parseStep, hm]; rfl) rfl).elim
  | skip quote escaped inValue =>
      rw [hm] at hmode
      cases inValue with
      | false => cases hmode
      | true =>
          refine (hstays _ (by simp only [parseStep, hm, if_true]; rfl) ?_).elim
          rw [putValue]
          repeat' split
          all_goals rfl
  | _ =>
      rw [hm] at hmode
      cases hmode

end Swig4Ada.Preprocessor

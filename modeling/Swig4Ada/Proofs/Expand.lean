import Swig4Ada.Preprocessor.Expand

/-!
# The expansion of macros ends

An argument is shorter than the text in which its call stands, and the text that is replaced
again has one more macro marked; so the number of macros without a mark and the length of the
text go down together. Every path takes back the marks and the level that it has set, and while
a macro is marked nothing depends on its value.
-/

namespace Swig4Ada.Preprocessor

variable {symbols : MacroTable} {f g : Replacing} {st st' : ExpandState} {m : Macro}
  {name id file text s : List Char} {line n k : Nat}

/-! ## Lengths -/

theorem skipTochar_lengths (ch : Char) (s : List Char) :
    (skipTochar ch s).1.length + (skipTochar ch s).2.length = s.length := by
  fun_induction skipTochar ch s with
  | case1 => rfl
  | case2 => rfl
  | case3 x s =>
      simp only [List.length_cons, List.length_nil]
      omega
  | case4 x s _ ih =>
      simp only [List.length_cons]
      omega
  | case5 c x s _ _ ih =>
      simp only [List.length_cons] at ih ⊢
      omega

theorem findArg_lengths (level : Nat) (str s : List Char) :
    (findArg level str s).2.1.length + (findArg level str s).2.2.length ≤
      str.length + s.length := by
  fun_induction findArg level str s with
  | case1 => exact Nat.le_refl _
  | case2 level str c s _ ih =>
      have hskip := skipTochar_lengths c s
      simp only [List.length_append, List.length_cons] at ih ⊢
      omega
  | case3 level str c s _ s' h ih =>
      have hlt := length_skipComment h
      omega
  | case4 => exact Nat.le_refl _
  | case5 level str c s _ _ _ ih =>
      simp only [dite_eq_ite, List.length_append, List.length_cons, List.length_nil] at ih ⊢
      omega

/-- What arguments take of a text, with the character behind each. -/
def argsLength (args : List (List Char)) : Nat := (args.map fun arg => arg.length + 1).sum

theorem argsLength_append (a b : List (List Char)) :
    argsLength (a ++ b) = argsLength a + argsLength b := by
  rw [argsLength, List.map_append, List.sum_append]
  rfl

theorem argsLength_chop {args : List (List Char)} {str : List Char} (h : str.length ≤ n) :
    argsLength (args ++ [chop str]) ≤ argsLength args + n + 1 := by
  have hchop : (chop str).length ≤ str.length := (List.rdropWhile_prefix isSpace str).length_le
  rw [argsLength_append]
  simp only [argsLength, List.map_cons, List.map_nil, List.sum_cons, List.sum_nil]
  omega

theorem collectArgs_lengths (args : List (List Char)) (s : List Char) :
    argsLength (collectArgs args s).1 ≤ argsLength args + s.length + 1 ∧
      (collectArgs args s).2.1.length ≤ s.length := by
  have hfound : ∀ c s, (findArg 0 [] ((c :: s).dropWhile isSpace)).2.1.length +
      (findArg 0 [] ((c :: s).dropWhile isSpace)).2.2.length ≤ (c :: s).length := by
    intro c s
    have hdrop := List.length_dropWhile_le isSpace (c :: s)
    have hlengths := findArg_lengths 0 [] ((c :: s).dropWhile isSpace)
    rw [List.length_nil] at hlengths
    omega
  fun_induction collectArgs args s with
  | case1 => exact ⟨by rw [Nat.add_assoc]; exact Nat.le_add_right _ _, Nat.le_refl _⟩
  | case2 args c s found _ =>
      have h : found.2.1.length + found.2.2.length ≤ (c :: s).length := hfound c s
      refine ⟨by rw [Nat.add_assoc]; exact Nat.le_add_right _ _, ?_⟩
      show found.2.2.length ≤ _
      omega
  | case3 args c s found _ hrest =>
      have h : found.2.1.length + found.2.2.length ≤ (c :: s).length := hfound c s
      exact ⟨argsLength_chop (by omega), Nat.zero_le _⟩
  | case4 args c s found _ s' hrest =>
      have h : found.2.1.length + found.2.2.length ≤ (c :: s).length := hfound c s
      rw [hrest, List.length_cons] at h
      exact ⟨argsLength_chop (by omega), by show s'.length ≤ _; omega⟩
  | case5 args c s found _ x s' hrest _ ih =>
      have h : found.2.1.length + found.2.2.length ≤ (c :: s).length := hfound c s
      rw [hrest, List.length_cons] at h
      have hchop := @argsLength_chop found.2.1.length args found.2.1 (Nat.le_refl _)
      exact ⟨by omega, by omega⟩

theorem findArgs_lengths ( ismacro : Bool) (name s : List Char) :
    (findArgs ismacro name s).rest.length ≤ s.length ∧
      ∀ args, (findArgs ismacro name s).args = some args →
        argsLength args ≤ s.length ∧ 0 < s.length := by
  have hdrop := List.length_dropWhile_le isSpace s
  unfold findArgs
  split
  next => exact ⟨Nat.le_refl _, by intro args h; cases h⟩
  next c t hs =>
    rw [hs, List.length_cons] at hdrop
    split
    · obtain ⟨hargs, hrest⟩ := collectArgs_lengths [] t
      refine ⟨by show (collectArgs [] t).2.1.length ≤ _; omega, ?_⟩
      rintro args ⟨⟩
      have hnil : argsLength [] = 0 := rfl
      exact ⟨by omega, by omega⟩
    · exact ⟨Nat.le_refl _, by intro args h; cases h⟩

theorem intercalate_length (args : List (List Char)) :
    ([','].intercalate args).length ≤ argsLength args - 1 := by
  induction args with
  | nil => exact Nat.zero_le _
  | cons a args ih =>
      cases args with
      | nil =>
          rw [List.intercalate_singleton]
          exact Nat.le_refl _
      | cons b args =>
          rw [List.intercalate_cons_cons, List.length_append, List.length_append]
          simp only [argsLength, List.map_cons, List.sum_cons, List.length_cons,
            List.length_nil] at ih ⊢
          omega

theorem length_lt_argsLength {args : List (List Char)} {arg : List Char} (h : arg ∈ args) :
    arg.length < argsLength args := by
  obtain ⟨a, b, rfl⟩ := List.append_of_mem h
  rw [argsLength_append]
  simp only [argsLength, List.map_cons, List.sum_cons]
  omega

/-- The arguments as the parameters take them are shorter than the text of the call. -/
theorem length_macroArguments {margs args : List (List Char)} {arg : List Char}
    (hargs : argsLength args ≤ n) (hn : 0 < n) (h : arg ∈ macroArguments m margs args) :
    arg.length < n := by
  have hmem : ∀ l, (∀ a ∈ l, a.length < n) →
      arg ∈ (if margs = [] ∧ l = [[]] then [] else l) → arg.length < n := by
    intro l hl hin
    split at hin
    · exact absurd hin List.not_mem_nil
    · exact hl arg hin
  refine hmem _ (fun a ha => ?_) h
  split at ha
  · have hsum := argsLength_append (args.take (margs.length - 1)) (args.drop (margs.length - 1))
    rw [List.take_append_drop] at hsum
    rcases List.mem_append.1 ha with ha | ha
    · have hlt := length_lt_argsLength ha
      omega
    · obtain rfl := List.mem_singleton.1 ha
      have hle := intercalate_length (args.drop (margs.length - 1))
      omega
  · have hlt := length_lt_argsLength ha
    omega

theorem definedOperands_rest (text : List Char) :
    (definedOperands text).rest.length ≤ text.length := by
  have hdrop : (text.dropWhile isSpace).length ≤ text.length := List.length_dropWhile_le _ _
  unfold definedOperands
  dsimp only
  split
  next =>
    rw [List.length_drop]
    omega
  next c t hs =>
    split
    · exact ((findArgs_lengths false "defined".toList _).1).trans hdrop
    · split
      · exact (List.length_dropWhile_le _ _).trans hdrop
      · exact hdrop

theorem callArguments_lengths (symbols : MacroTable) (id text : List Char) :
    (callArguments symbols id text).rest.length ≤ text.length ∧
      ∀ args, (callArguments symbols id text).args = some args →
        argsLength args ≤ text.length ∧ 0 < text.length := by
  unfold callArguments
  split
  · exact findArgs_lengths true id text
  · exact ⟨Nat.le_refl _, by intro args h; cases h⟩

/-! ## What is kept -/

/-- The marks and the level are as they were. -/
structure Restored (st st' : ExpandState) : Prop where
  expanded : st'.expanded = st.expanded
  macroLevel : st'.macroLevel = st.macroLevel

theorem Restored.refl (st : ExpandState) : Restored st st := ⟨rfl, rfl⟩

theorem Restored.trans {st₁ st₂ st₃ : ExpandState} (h : Restored st₁ st₂) (h' : Restored st₂ st₃) :
    Restored st₁ st₃ :=
  ⟨h'.expanded.trans h.expanded, h'.macroLevel.trans h.macroLevel⟩

theorem kept_error (st : ExpandState) (e : Option String) : Restored st (e.elim st st.error) := by
  cases e with
  | none => exact Restored.refl st
  | some text => exact ⟨rfl, rfl⟩

theorem specialWord_kept {r : List Char × List Char × ExpandState}
    (h : specialWord symbols id file line text st = some r) :
    Restored st r.2.2 ∧ r.2.1.length ≤ text.length := by
  have hsame : ∀ {out}, some (out, text, st) = some r →
      Restored st r.2.2 ∧ r.2.1.length ≤ text.length := by
    rintro out ⟨⟩
    exact ⟨Restored.refl st, Nat.le_refl _⟩
  unfold specialWord at h
  split at h
  · split at h
    · obtain rfl := Option.some.inj h
      exact ⟨⟨rfl, rfl⟩, Nat.zero_le _⟩
    · split at h
      · obtain rfl := Option.some.inj h
        have hrest := definedOperands_rest text
        have hkept := kept_error st (definedOperands text).error
        unfold definedOperator
        dsimp only
        split
        · exact ⟨hkept, hrest⟩
        · exact ⟨hkept, hrest⟩
        · exact ⟨hkept, hrest⟩
      · exact hsame h
  · split at h
    · exact hsame h
    · split at h
      · exact hsame h
      · split at h
        · obtain rfl := Option.some.inj h
          exact ⟨⟨rfl, rfl⟩, Nat.le_refl _⟩
        · split at h
          · exact hsame h
          · cases h

/-! ## More fuel -/

/-- The second replacement gives every result of the first. -/
def Extends (f g : Replacing) : Prop := ∀ s st r, f s st = some r → g s st = some r

theorem parameterLoop_extends (h : Extends f g) {mangle : List Char → List Char} {va : Bool}
    {pairs : List (List Char × List Char)} {ns : List Char} {r : List Char × ExpandState}
    (hf : parameterLoop f mangle va pairs ns st = some r) :
    parameterLoop g mangle va pairs ns st = some r := by
  induction pairs generalizing ns st with
  | nil => exact hf
  | cons p pairs ih =>
      rw [parameterLoop] at hf ⊢
      cases hone : f p.2 st with
      | none =>
          rw [hone] at hf
          cases hf
      | some q =>
          rw [hone] at hf
          rw [h _ _ _ hone]
          exact ih hf

theorem rescan_extends (h : Extends f g) {ns : List Char} {r : List Char × ExpandState}
    (hf : rescan f name ns st = some r) : rescan g name ns st = some r := by
  obtain ⟨q, hq, rfl⟩ := Option.map_eq_some_iff.1 hf
  exact Option.map_eq_some_iff.2 ⟨q, h _ _ _ hq, rfl⟩

theorem expandFound_extends (h : Extends f g) {args : Option (List (List Char))}
    {r : Option (List Char) × ExpandState}
    (hf : expandFound symbols f m name args st = some r) :
    expandFound symbols g m name args st = some r := by
  unfold expandFound at hf ⊢
  by_cases hmark : name ∈ st.expanded
  · rw [if_pos hmark] at hf ⊢
    exact hf
  · rw [if_neg hmark] at hf ⊢
    cases hm : m.args with
    | none =>
        rw [hm] at hf
        cases args with
        | none =>
            obtain ⟨q, hq, rfl⟩ := Option.map_eq_some_iff.1 hf
            exact Option.map_eq_some_iff.2 ⟨q, rescan_extends h hq, rfl⟩
        | some args => exact hf
    | some margs =>
        rw [hm] at hf
        cases args with
        | none => exact hf
        | some args =>
            dsimp only at hf ⊢
            by_cases hlen : margs.length ≠ (macroArguments m margs args).length
            · rw [if_pos hlen] at hf ⊢
              exact hf
            · rw [if_neg hlen] at hf ⊢
              obtain ⟨q, hq, hf⟩ := Option.bind_eq_some_iff.1 hf
              obtain ⟨p, hp, rfl⟩ := Option.map_eq_some_iff.1 hq
              obtain ⟨q, hq, rfl⟩ := Option.map_eq_some_iff.1 hf
              refine Option.bind_eq_some_iff.2 ⟨_, Option.map_eq_some_iff.2
                ⟨p, parameterLoop_extends h hp, rfl⟩, ?_⟩
              exact Option.map_eq_some_iff.2 ⟨q, rescan_extends h hq, rfl⟩

theorem expandMacro_extends (h : Extends f g) {args : Option (List (List Char))}
    {r : Option (List Char) × ExpandState}
    (hf : expandMacro symbols f name args file line st = some r) :
    expandMacro symbols g name args file line st = some r := by
  unfold expandMacro at hf ⊢
  cases hm : symbols.getattr name with
  | none =>
      rw [hm] at hf
      exact hf
  | some m =>
      rw [hm] at hf
      obtain ⟨q, hq, rfl⟩ := Option.map_eq_some_iff.1 hf
      exact Option.map_eq_some_iff.2 ⟨q, expandFound_extends h hq, rfl⟩

theorem expandWord_extends (h : Extends f g) {r : List Char × List Char × ExpandState}
    (hf : expandWord symbols f id file line text st = some r) :
    expandWord symbols g id file line text st = some r := by
  unfold expandWord at hf ⊢
  cases hspecial : specialWord symbols id file line text st with
  | some q =>
      rw [hspecial] at hf
      exact hf
  | none =>
      rw [hspecial] at hf
      obtain ⟨q, hq, rfl⟩ := Option.map_eq_some_iff.1 hf
      exact Option.map_eq_some_iff.2 ⟨q, expandMacro_extends h hq, rfl⟩

/-- The replacement of a text inside of an expansion. -/
def nested (symbols : MacroTable) (fuel : Nat) : Replacing := fun s st =>
  preprocessorReplaceLoop symbols fuel st.macroStartFile .plain [] st.macroStartLine s st

theorem loop_succ (symbols : MacroTable) (n : Nat) (file : List Char) (mode : ReplaceMode)
    (id : List Char) (line : Nat) (text : List Char) (st : ExpandState) :
    preprocessorReplaceLoop symbols (n + 1) file mode id line text st =
      if wordEnds mode text = true then
        (expandWord symbols (nested symbols n) id file line text st).bind fun r =>
          if text = [] then some (r.1, r.2.2)
          else
            (preprocessorReplaceLoop symbols n file .plain [] (line + linesRead text r.2.1)
              r.2.1 r.2.2).map fun rest => (r.1 ++ rest.1, rest.2)
      else
        match text with
        | [] => some ([], st)
        | c :: cs =>
            (preprocessorReplaceLoop symbols n file
              (replaceStep ⟨mode, st.expandDefined, id⟩ c).1.mode
              (replaceStep ⟨mode, st.expandDefined, id⟩ c).1.id
              (if (replaceStep ⟨mode, st.expandDefined, id⟩ c).2.2 || c ≠ '\n' then line
                else line + 1)
              (if (replaceStep ⟨mode, st.expandDefined, id⟩ c).2.2 then c :: cs else cs)
              { st with
                expandDefined := (replaceStep ⟨mode, st.expandDefined, id⟩ c).1.expandDefined
              }).map fun rest => ((replaceStep ⟨mode, st.expandDefined, id⟩ c).2.1 ++ rest.1,
                rest.2) := rfl

/-- One more unit of fuel changes no result. -/
theorem loop_more {mode : ReplaceMode} {r : List Char × ExpandState}
    (h : preprocessorReplaceLoop symbols n file mode id line text st = some r) :
    preprocessorReplaceLoop symbols (n + 1) file mode id line text st = some r := by
  induction n generalizing file mode id line text st r with
  | zero => cases h
  | succ n ih =>
      have hnested : Extends (nested symbols n) (nested symbols (n + 1)) := fun _ _ _ => ih
      rw [loop_succ] at h ⊢
      by_cases hword : wordEnds mode text = true
      · rw [if_pos hword] at h ⊢
        obtain ⟨q, hq, h⟩ := Option.bind_eq_some_iff.1 h
        refine Option.bind_eq_some_iff.2 ⟨q, expandWord_extends hnested hq, ?_⟩
        by_cases hnil : text = []
        · rw [if_pos hnil] at h ⊢
          exact h
        · rw [if_neg hnil] at h ⊢
          obtain ⟨rest, hrest, rfl⟩ := Option.map_eq_some_iff.1 h
          exact Option.map_eq_some_iff.2 ⟨rest, ih hrest, rfl⟩
      · rw [if_neg hword] at h ⊢
        cases text with
        | nil => exact h
        | cons c cs =>
            obtain ⟨rest, hrest, rfl⟩ := Option.map_eq_some_iff.1 h
            exact Option.map_eq_some_iff.2 ⟨rest, ih hrest, rfl⟩

theorem loop_mono {mode : ReplaceMode} {r : List Char × ExpandState} (hk : n ≤ k)
    (h : preprocessorReplaceLoop symbols n file mode id line text st = some r) :
    preprocessorReplaceLoop symbols k file mode id line text st = some r := by
  induction hk with
  | refl => exact h
  | step _ ih => exact loop_more ih

theorem nested_mono (hk : n ≤ k) : Extends (nested symbols n) (nested symbols k) :=
  fun _ _ _ h => loop_mono hk h

/-! ## Enough fuel -/

/-- With enough fuel there is a result, and it keeps the marks and the level. -/
def Settles (run : Nat → Option (List Char × ExpandState)) (st : ExpandState) : Prop :=
  ∃ n r, run n = some r ∧ Restored st r.2

theorem parameterLoop_ends {mangle : List Char → List Char} {va : Bool}
    {pairs : List (List Char × List Char)} {ns : List Char}
    (h : ∀ p ∈ pairs, ∀ st', st'.expanded = st.expanded →
      Settles (fun n => nested symbols n p.2 st') st') :
    Settles (fun n => parameterLoop (nested symbols n) mangle va pairs ns st) st := by
  induction pairs generalizing ns st with
  | nil => exact ⟨0, (ns, st), rfl, Restored.refl st⟩
  | cons p pairs ih =>
      obtain ⟨n, q, hq, hkept⟩ := h p List.mem_cons_self st rfl
      obtain ⟨k, r, hr, hrest⟩ := @ih q.2
        (parameterTurn mangle (va && pairs.isEmpty) ns p.1 p.2 q.1)
        fun p' hp' st' hst' => h p' (List.mem_cons_of_mem p hp') st' (hst'.trans hkept.expanded)
      refine ⟨max n k, r, ?_, hkept.trans hrest⟩
      dsimp only
      rw [parameterLoop, nested_mono (Nat.le_max_left n k) _ _ _ hq]
      exact parameterLoop_extends (nested_mono (Nat.le_max_right n k)) hr

theorem rescan_ends {ns : List Char}
    (h : ∀ st', st'.expanded = name :: st.expanded →
      Settles (fun n => nested symbols n ns st') st') :
    Settles (fun n => rescan (nested symbols n) name ns st) st := by
  obtain ⟨n, r, hr, hkept⟩ := h { st with expanded := name :: st.expanded } rfl
  refine ⟨n, _, Option.map_eq_some_iff.2 ⟨r, hr, rfl⟩, ?_, hkept.macroLevel⟩
  show r.2.expanded.erase name = st.expanded
  rw [hkept.expanded]
  exact List.erase_cons_head name st.expanded

theorem expandFound_ends {args : Option (List (List Char))}
    (harg : ∀ l margs, args = some l → m.args = some margs →
      ∀ arg ∈ macroArguments m margs l, ∀ st', st'.expanded = st.expanded →
        Settles (fun n => nested symbols n arg st') st')
    (hscan : name ∉ st.expanded → ∀ ns st', st'.expanded = name :: st.expanded →
      Settles (fun n => nested symbols n ns st') st') :
    ∃ n r, expandFound symbols (nested symbols n) m name args st = some r ∧ Restored st r.2 := by
  unfold expandFound
  by_cases hmark : name ∈ st.expanded
  · refine ⟨0, _, if_pos hmark, Restored.refl st⟩
  · have hrescan : ∀ ns st', st'.expanded = st.expanded →
        Settles (fun n => rescan (nested symbols n) name ns st') st' := fun ns st' hst' =>
      rescan_ends fun st'' hst'' => hscan hmark ns st'' (by rw [hst'', hst'])
    cases hm : m.args with
    | none =>
        cases args with
        | none =>
            obtain ⟨n, r, hr, hkept⟩ := hrescan (unmarkedValue m.value) st rfl
            refine ⟨n, (some r.1, r.2), ?_, hkept⟩
            rw [if_neg hmark]
            exact Option.map_eq_some_iff.2 ⟨r, hr, rfl⟩
        | some l => exact ⟨0, _, if_neg hmark, rfl, rfl⟩
    | some margs =>
        cases args with
        | none => exact ⟨0, _, if_neg hmark, Restored.refl st⟩
        | some l =>
            by_cases hlen : margs.length ≠ (macroArguments m margs l).length
            · refine ⟨0, (none, st.error (countError m name margs)), ?_, rfl, rfl⟩
              rw [if_neg hmark]
              exact if_pos hlen
            · obtain ⟨n, q, hq, hbody⟩ := @parameterLoop_ends symbols st symbols.mangle m.varargs
                (margs.zip (macroArguments m margs l)) m.value fun p hp st' hst' =>
                  harg l margs rfl hm p.2 (List.of_mem_zip hp).2 st' hst'
              obtain ⟨k, r, hr, hkept⟩ := hrescan (unmarkedValue q.1) q.2 hbody.expanded
              refine ⟨max n k, (some r.1, r.2), ?_, hbody.trans hkept⟩
              rw [if_neg hmark]
              dsimp only
              rw [if_neg hlen]
              refine Option.bind_eq_some_iff.2 ⟨(unmarkedValue q.1, q.2),
                Option.map_eq_some_iff.2
                  ⟨q, parameterLoop_extends (nested_mono (Nat.le_max_left n k)) hq, rfl⟩, ?_⟩
              exact Option.map_eq_some_iff.2
                ⟨r, rescan_extends (nested_mono (Nat.le_max_right n k)) hr, rfl⟩

/-- `expand_macro` ends where the replacement of its arguments and of its value does, and keeps
the marks and the level on every path. -/
theorem expandMacro_ends {args : Option (List (List Char))}
    (harg : ∀ m l margs, symbols.getattr name = some m → args = some l → m.args = some margs →
      ∀ arg ∈ macroArguments m margs l, ∀ st', st'.expanded = st.expanded →
        Settles (fun n => nested symbols n arg st') st')
    (hscan : (symbols.getattr name).isSome → name ∉ st.expanded → ∀ ns st',
      st'.expanded = name :: st.expanded → Settles (fun n => nested symbols n ns st') st') :
    ∃ n r, expandMacro symbols (nested symbols n) name args file line st = some r ∧
      Restored st r.2 := by
  unfold expandMacro
  cases hm : symbols.getattr name with
  | none => exact ⟨0, _, rfl, Restored.refl st⟩
  | some m =>
      dsimp only
      obtain ⟨st₁, hst₁, hexpanded, hlevel⟩ : ∃ st₁, st₁ = (if st.macroLevel = 0 then
          { st with macroStartFile := file, macroStartLine := line } else st) ∧
          st₁.expanded = st.expanded ∧ st₁.macroLevel = st.macroLevel := by
        refine ⟨_, rfl, ?_, ?_⟩
        · split <;> rfl
        · split <;> rfl
      rw [← hst₁]
      obtain ⟨n, r, hr, hkept⟩ := @expandFound_ends symbols
        { st₁ with macroLevel := st₁.macroLevel + 1 } m name args
        (fun l margs hl hmargs arg hin st' hst' => harg m l margs hm hl hmargs arg hin st'
          (hst'.trans hexpanded))
        (fun hmark ns st' hst' => hscan (by rw [hm]; rfl) (hexpanded ▸ hmark) ns st'
          (hst'.trans (by rw [← hexpanded])))
      refine ⟨n, _, Option.map_eq_some_iff.2 ⟨r, hr, rfl⟩, hkept.expanded.trans hexpanded, ?_⟩
      show r.2.macroLevel - 1 = st.macroLevel
      rw [hkept.macroLevel, ← hlevel]
      exact Nat.add_sub_cancel _ _

/-- A word ends where all shorter texts do, and those that are replaced with one more mark. -/
theorem expandWord_ends
    (harg : ∀ arg, arg.length < text.length → ∀ st', st'.expanded = st.expanded →
      Settles (fun n => nested symbols n arg st') st')
    (hscan : (symbols.getattr id).isSome → id ∉ st.expanded → ∀ ns st',
      st'.expanded = id :: st.expanded → Settles (fun n => nested symbols n ns st') st') :
    ∃ n r, expandWord symbols (nested symbols n) id file line text st = some r ∧
      Restored st r.2.2 ∧ r.2.1.length ≤ text.length := by
  unfold expandWord
  cases hspecial : specialWord symbols id file line text st with
  | some r => exact ⟨0, r, rfl, specialWord_kept hspecial⟩
  | none =>
      obtain ⟨hrest, hargs⟩ := callArguments_lengths symbols id text
      have herror := kept_error st (callArguments symbols id text).error
      obtain ⟨n, r, hr, hkept⟩ := @expandMacro_ends symbols
        ((callArguments symbols id text).error.elim st st.error) id file line
        (callArguments symbols id text).args
        (fun m l margs _ hl _ arg hin st' hst' => harg arg
          (length_macroArguments (hargs l hl).1 (hargs l hl).2 hin) st'
          (hst'.trans herror.expanded))
        (fun hm hmark ns st' hst' => hscan hm (herror.expanded ▸ hmark) ns st'
          (hst'.trans (by rw [herror.expanded])))
      exact ⟨n, _, Option.map_eq_some_iff.2 ⟨r, hr, rfl⟩, herror.trans hkept, hrest⟩

/-! ## The measure -/

/-- The macros without a mark. -/
def unmarked (symbols : MacroTable) (st : ExpandState) : Nat :=
  (symbols.macros.filter fun m => m.name ∉ st.expanded).length

theorem unmarked_congr (h : st'.expanded = st.expanded) :
    unmarked symbols st' = unmarked symbols st := by
  rw [unmarked, h]
  rfl

theorem unmarked_lt (hm : (symbols.getattr name).isSome) (hmark : name ∉ st.expanded)
    (h : st'.expanded = name :: st.expanded) : unmarked symbols st' < unmarked symbols st := by
  obtain ⟨m, hm⟩ := Option.isSome_iff_exists.1 hm
  have hname : m.name = name := by simpa using List.find?_some hm
  have hsplit : symbols.macros.filter (fun m => m.name ∉ st'.expanded) =
      (symbols.macros.filter fun m => m.name ∉ st.expanded).filter fun m => m.name ≠ name := by
    rw [List.filter_filter, h]
    refine List.filter_congr fun m _ => ?_
    simp [not_or]
  rw [unmarked, unmarked, hsplit]
  refine List.length_filter_lt_length_iff_exists.2 ⟨m, List.mem_filter.2 ⟨?_, ?_⟩, ?_⟩
  · exact List.mem_of_find?_eq_some hm
  · simpa [hname] using hmark
  · simp [hname]

/-- How many turns may follow that read nothing. -/
def ReplaceMode.rank : ReplaceMode → Nat
  | .percent => 2
  | .word | .slash | .backslash => 1
  | _ => 0

theorem ReplaceMode.rank_le (mode : ReplaceMode) : mode.rank ≤ 2 := by
  cases mode <;> simp [rank]

/-- A character that is given back takes the mode down. -/
theorem replaceStep_rank (rs : ReplaceState) (c : Char) :
    (replaceStep rs c).2.2 = true → (replaceStep rs c).1.mode.rank < rs.mode.rank := by
  unfold replaceStep
  cases hmode : rs.mode with
  | plain =>
      dsimp only
      split
      · exact fun h => absurd h Bool.false_ne_true
      · split
        · exact fun h => absurd h Bool.false_ne_true
        · exact fun h => absurd h Bool.false_ne_true
  | percent =>
      dsimp only
      split
      · exact fun h => absurd h Bool.false_ne_true
      · exact fun _ => Nat.lt_succ_self 1
  | slash =>
      dsimp only
      split
      · exact fun h => absurd h Bool.false_ne_true
      · split
        · exact fun h => absurd h Bool.false_ne_true
        · exact fun _ => Nat.one_pos
  | lineComment =>
      dsimp only
      split <;> exact fun h => absurd h Bool.false_ne_true
  | backslash =>
      dsimp only
      split
      · exact fun h => absurd h Bool.false_ne_true
      · exact fun _ => Nat.one_pos
  | word | blockComment | blockCommentStar | skip quote escaped =>
      exact fun h => absurd h Bool.false_ne_true

theorem wordEnds_rank {mode : ReplaceMode} (h : wordEnds mode text = true) : 0 < mode.rank := by
  cases text with
  | nil =>
      rcases Bool.or_eq_true_iff.1 h with h | h
      · rw [of_decide_eq_true h]
        exact Nat.two_pos
      · rw [of_decide_eq_true h]
        exact Nat.one_pos
  | cons c cs =>
      rw [of_decide_eq_true (Bool.and_eq_true_iff.1 h).1]
      exact Nat.one_pos

/-- The loop ends. -/
theorem loop_ends (symbols : MacroTable) (file : List Char) (mode : ReplaceMode) (id : List Char)
    (line : Nat) (text : List Char) (st : ExpandState) :
    Settles (fun n => preprocessorReplaceLoop symbols n file mode id line text st) st := by
  -- The macros without a mark come first: the text that is replaced again may be longer.
  induction hu : unmarked symbols st using Nat.strong_induction_on
    generalizing file mode id line text st with
  | _ u ihmarks =>
  induction hk : 4 * text.length + mode.rank using Nat.strong_induction_on
    generalizing file mode id line text st with
  | _ k ihtext =>
      by_cases hword : wordEnds mode text = true
      · have hrank := wordEnds_rank hword
        obtain ⟨n, r, hr, hkept, hlen⟩ := @expandWord_ends symbols st id file text line
          (fun arg harg st' hst' => by
            refine ihtext (4 * arg.length) (by omega) _ .plain [] _ arg st' ?_ rfl
            rw [← hu]
            exact unmarked_congr hst')
          (fun hm hmark ns st' hst' => by
            refine ihmarks (unmarked symbols st') ?_ _ .plain [] _ ns st' rfl
            rw [← hu]
            exact unmarked_lt hm hmark hst')
        by_cases hnil : text = []
        · refine ⟨n + 1, (r.1, r.2.2), ?_, hkept⟩
          dsimp only
          rw [loop_succ, if_pos hword]
          exact Option.bind_eq_some_iff.2 ⟨r, hr, if_pos hnil⟩
        · obtain ⟨k', rest, hrest, hkept'⟩ := ihtext (4 * r.2.1.length) (by omega) file .plain []
            (line + linesRead text r.2.1) r.2.1 r.2.2
            (by rw [← hu]; exact unmarked_congr hkept.expanded) rfl
          refine ⟨max n k' + 1, (r.1 ++ rest.1, rest.2), ?_, hkept.trans hkept'⟩
          dsimp only
          rw [loop_succ, if_pos hword]
          refine Option.bind_eq_some_iff.2
            ⟨r, expandWord_extends (nested_mono (Nat.le_max_left n k')) hr, ?_⟩
          rw [if_neg hnil]
          exact Option.map_eq_some_iff.2
            ⟨rest, loop_mono (Nat.le_max_right n k') hrest, rfl⟩
      · cases text with
        | nil =>
            refine ⟨1, ([], st), ?_, Restored.refl st⟩
            dsimp only
            rw [loop_succ, if_neg hword]
        | cons c cs =>
            have hless : 4 * (if (replaceStep ⟨mode, st.expandDefined, id⟩ c).2.2 then c :: cs
                else cs).length + (replaceStep ⟨mode, st.expandDefined, id⟩ c).1.mode.rank < k := by
              have hle := (replaceStep ⟨mode, st.expandDefined, id⟩ c).1.mode.rank_le
              have hagain := replaceStep_rank ⟨mode, st.expandDefined, id⟩ c
              rw [List.length_cons] at hk
              split
              next h =>
                have hlt : _ < mode.rank := hagain h
                rw [List.length_cons]
                omega
              next => omega
            obtain ⟨n, rest, hrest, hkept⟩ := ihtext _ hless file _
              (replaceStep ⟨mode, st.expandDefined, id⟩ c).1.id
              (if (replaceStep ⟨mode, st.expandDefined, id⟩ c).2.2 || c ≠ '\n' then line
                else line + 1) _
              { st with
                expandDefined := (replaceStep ⟨mode, st.expandDefined, id⟩ c).1.expandDefined }
              hu rfl
            refine ⟨n + 1, ((replaceStep ⟨mode, st.expandDefined, id⟩ c).2.1 ++ rest.1, rest.2), ?_,
              hkept.expanded, hkept.macroLevel⟩
            dsimp only
            rw [loop_succ, if_neg hword]
            exact Option.map_eq_some_iff.2 ⟨rest, hrest, rfl⟩

/-- Every result keeps the marks and the level. -/
theorem loop_kept {mode : ReplaceMode} {r : List Char × ExpandState}
    (h : preprocessorReplaceLoop symbols n file mode id line text st = some r) :
    Restored st r.2 := by
  obtain ⟨k, r', hr', hkept⟩ := loop_ends symbols file mode id line text st
  have hsame := (loop_mono (Nat.le_max_left n k) h).symm.trans
    (loop_mono (Nat.le_max_right n k) hr')
  rw [Option.some.inj hsame]
  exact hkept

/-- The replacement of a text ends, whatever macros call each other, and takes back every mark
and the level. -/
theorem preprocessorReplace_ends (symbols : MacroTable) (file : List Char) (line : Nat)
    (s : List Char) (st : ExpandState) :
    ∃ n r, (∀ k, n ≤ k → preprocessorReplace symbols k file line s st = some r) ∧
      r.2.expanded = st.expanded ∧ r.2.macroLevel = st.macroLevel := by
  obtain ⟨n, r, hr, hkept⟩ := loop_ends symbols file .plain [] line s st
  exact ⟨n, r, fun k hk => loop_mono hk hr, hkept.expanded, hkept.macroLevel⟩

theorem expandWord_kept {r : List Char × List Char × ExpandState}
    (h : expandWord symbols (nested symbols n) id file line text st = some r) :
    Restored st r.2.2 := by
  obtain ⟨k, r', hr', hkept, -⟩ := @expandWord_ends symbols st id file text line
    (fun arg _ st' _ => loop_ends symbols _ .plain [] _ arg st')
    (fun _ _ ns st' _ => loop_ends symbols _ .plain [] _ ns st')
  have hsame := (expandWord_extends (nested_mono (Nat.le_max_left n k)) h).symm.trans
    (expandWord_extends (nested_mono (Nat.le_max_right n k)) hr')
  rw [Option.some.inj hsame]
  exact hkept

/-! ## The value of a marked macro -/

/-- The tables differ at most in the value of one macro. -/
structure SameBut (name : List Char) (a b : MacroTable) : Prop where
  mangle : a.mangle = b.mangle
  others : ∀ id, id ≠ name → a.getattr id = b.getattr id
  args : (a.getattr name).map Macro.args = (b.getattr name).map Macro.args

namespace SameBut

variable {a b : MacroTable}

theorem args_eq (h : SameBut name a b) (id : List Char) :
    (a.getattr id).map Macro.args = (b.getattr id).map Macro.args := by
  by_cases hid : id = name
  · rw [hid]
    exact h.args
  · rw [h.others id hid]

theorem isSome_eq (h : SameBut name a b) (id : List Char) :
    (a.getattr id).isSome = (b.getattr id).isSome := by
  rw [← Option.isSome_map (f := Macro.args), h.args_eq id, Option.isSome_map]

theorem specialWord_eq (h : SameBut name a b) (id file : List Char) (line : Nat)
    (text : List Char) (st : ExpandState) :
    specialWord a id file line text st = specialWord b id file line text st := by
  have hnone : (a.getattr id).isNone = (b.getattr id).isNone := by
    rw [← Option.not_isSome, h.isSome_eq id, Option.not_isSome]
  unfold specialWord definedOperator
  simp only [h.isSome_eq, hnone]

theorem callArguments_eq (h : SameBut name a b) (id text : List Char) :
    callArguments a id text = callArguments b id text := by
  have hbind : ∀ t : MacroTable, (t.getattr id).bind Macro.args =
      ((t.getattr id).map Macro.args).bind fun x => x := by
    intro t
    cases t.getattr id with
    | none => rfl
    | some m => rfl
  unfold callArguments
  rw [hbind a, h.args_eq id, ← hbind b]

end SameBut

/-- Replacements that agree where the macro is marked, and keep the marks. -/
structure AgreeMarked (name : List Char) (f g : Replacing) : Prop where
  eq : ∀ s st, name ∈ st.expanded → f s st = g s st
  kept : ∀ s st r, f s st = some r → Restored st r.2

namespace AgreeMarked

variable {a b : MacroTable} {mangle : List Char → List Char} {va : Bool}
  {pairs : List (List Char × List Char)} {ns : List Char}

theorem parameterLoop_kept (h : AgreeMarked name f g) {r : List Char × ExpandState}
    (hr : parameterLoop f mangle va pairs ns st = some r) : Restored st r.2 := by
  induction pairs generalizing ns st with
  | nil =>
      obtain rfl := Option.some.inj hr
      exact Restored.refl st
  | cons p pairs ih =>
      rw [parameterLoop] at hr
      cases hone : f p.2 st with
      | none =>
          rw [hone] at hr
          cases hr
      | some q =>
          rw [hone] at hr
          exact (h.kept _ _ _ hone).trans (ih hr)

theorem parameterLoop_eq (h : AgreeMarked name f g) (hmark : name ∈ st.expanded) :
    parameterLoop f mangle va pairs ns st = parameterLoop g mangle va pairs ns st := by
  induction pairs generalizing ns st with
  | nil => rfl
  | cons p pairs ih =>
      rw [parameterLoop, parameterLoop, ← h.eq p.2 st hmark]
      cases hone : f p.2 st with
      | none => rfl
      | some q => exact ih ((h.kept _ _ _ hone).expanded ▸ hmark)

theorem rescan_eq (h : AgreeMarked name f g) {id : List Char}
    (hmark : name ∈ id :: st.expanded) : rescan f id ns st = rescan g id ns st := by
  rw [rescan, rescan, h.eq ns { st with expanded := id :: st.expanded } hmark]

theorem expandFound_eq (h : AgreeMarked name f g) (hab : a.mangle = b.mangle)
    (hmark : name ∈ st.expanded) (m : Macro) (id : List Char) (args : Option (List (List Char))) :
    expandFound a f m id args st = expandFound b g m id args st := by
  unfold expandFound
  by_cases hid : id ∈ st.expanded
  · rw [if_pos hid, if_pos hid]
  · rw [if_neg hid, if_neg hid]
    cases m.args with
    | none =>
        cases args with
        | none =>
            dsimp only
            rw [h.rescan_eq (List.mem_cons_of_mem id hmark)]
        | some l => rfl
    | some margs =>
        cases args with
        | none => rfl
        | some l =>
            dsimp only
            rw [macroBody, macroBody, ← hab, ← h.parameterLoop_eq hmark]
            cases hbody : parameterLoop f a.mangle m.varargs
                (margs.zip (macroArguments m margs l)) m.value st with
            | none => rfl
            | some q =>
                have hq : name ∈ q.2.expanded :=
                  (h.parameterLoop_kept hbody).expanded ▸ hmark
                dsimp only [Option.map_some, Option.bind_some]
                rw [h.rescan_eq (List.mem_cons_of_mem id hq)]

theorem expandMacro_eq (h : AgreeMarked name f g) (hab : SameBut name a b)
    (hmark : name ∈ st.expanded) (id : List Char) (args : Option (List (List Char)))
    (file : List Char) (line : Nat) :
    expandMacro a f id args file line st = expandMacro b g id args file line st := by
  obtain ⟨st₁, hst₁, hexpanded⟩ : ∃ st₁, st₁ = (if st.macroLevel = 0 then
      { st with macroStartFile := file, macroStartLine := line } else st) ∧
      st₁.expanded = st.expanded := by
    refine ⟨_, rfl, ?_⟩
    split <;> rfl
  have hmark₁ : name ∈ ExpandState.expanded { st₁ with macroLevel := st₁.macroLevel + 1 } :=
    hexpanded ▸ hmark
  have hfound : ∀ m,
      expandFound a f m id args { st₁ with macroLevel := st₁.macroLevel + 1 } =
        expandFound b g m id args { st₁ with macroLevel := st₁.macroLevel + 1 } :=
    fun m => h.expandFound_eq hab.mangle hmark₁ m id args
  unfold expandMacro
  rw [← hst₁]
  by_cases hid : id = name
  · -- The macro is the marked one itself, and its call is written back.
    subst hid
    have hargs := hab.args
    have hcall : ∀ (t : MacroTable) (r : Replacing) (m : Macro), expandFound t r m id args
        { st₁ with macroLevel := st₁.macroLevel + 1 } =
          some (some (callText id args), { st₁ with macroLevel := st₁.macroLevel + 1 }) := by
      intro t r m
      exact if_pos (hexpanded ▸ hmark)
    cases ha : a.getattr id with
    | none =>
        cases hb : b.getattr id with
        | none => rfl
        | some m =>
            rw [ha, hb] at hargs
            cases hargs
    | some m =>
        cases hb : b.getattr id with
        | none =>
            rw [ha, hb] at hargs
            cases hargs
        | some m' =>
            dsimp only
            rw [hcall, hcall]
  · rw [hab.others id hid]
    cases b.getattr id with
    | none => rfl
    | some m =>
        dsimp only
        rw [hfound m]

end AgreeMarked

/-- While a macro is marked, nothing depends on its value. -/
theorem loop_agree {a b : MacroTable} (hab : SameBut name a b) (n : Nat) (file : List Char)
    (mode : ReplaceMode) (id : List Char) (line : Nat) (text : List Char) (st : ExpandState)
    (hmark : name ∈ st.expanded) :
    preprocessorReplaceLoop a n file mode id line text st =
      preprocessorReplaceLoop b n file mode id line text st := by
  induction n generalizing file mode id line text st with
  | zero => rfl
  | succ n ih =>
      have hagree : AgreeMarked name (nested a n) (nested b n) :=
        ⟨fun s st hst => ih _ _ _ _ s st hst, fun _ _ _ h => loop_kept h⟩
      rw [loop_succ, loop_succ]
      by_cases hword : wordEnds mode text = true
      · rw [if_pos hword, if_pos hword]
        have hexpand : expandWord a (nested a n) id file line text st =
            expandWord b (nested b n) id file line text st := by
          unfold expandWord
          rw [hab.specialWord_eq, hab.callArguments_eq]
          cases specialWord b id file line text st with
          | some r => rfl
          | none =>
              have herror := kept_error st (callArguments b id text).error
              dsimp only
              rw [hagree.expandMacro_eq hab (herror.expanded ▸ hmark)]
        rw [← hexpand]
        cases hr : expandWord a (nested a n) id file line text st with
        | none => rfl
        | some r =>
            dsimp only [Option.bind_some]
            rw [ih file .plain [] _ r.2.1 r.2.2 ((expandWord_kept hr).expanded ▸ hmark)]
      · rw [if_neg hword, if_neg hword]
        cases text with
        | nil => rfl
        | cons c cs =>
            dsimp only
            rw [ih file _ _ _ _
              { st with
                expandDefined := (replaceStep ⟨mode, st.expandDefined, id⟩ c).1.expandDefined }
              hmark]

/-- No macro is expanded in its own value: the value, with the arguments in it, is replaced in
the same way whatever the value of the macro is. -/
theorem rescan_own_value {a b : MacroTable} (hab : SameBut name a b) (n : Nat) (ns : List Char)
    (st : ExpandState) : rescan (nested a n) name ns st = rescan (nested b n) name ns st := by
  rw [rescan, rescan, nested, nested, loop_agree hab n _ _ _ _ _ _ List.mem_cons_self]

/-- `#define f(x) value` -/
def macroF (value : List Char) : Macro := ⟨['f'], some [['x']], false, value, false⟩

theorem macroF_call_defined :
    ∀ m ∈ [macroF "f(x)+x".toList], ∃ s, readMacro false s = some m := by
  rw [List.forall_mem_singleton]
  exact ⟨"f(x) f(x)+x".toList, by decide +kernel⟩

theorem macroF_argument_defined : ∀ m ∈ [macroF ['x']], ∃ s, readMacro false s = some m := by
  rw [List.forall_mem_singleton]
  exact ⟨"f(x) x".toList, by decide +kernel⟩

/-- A table with a macro that calls itself. -/
def callTable : MacroTable := ⟨[macroF "f(x)+x".toList], macroF_call_defined, fun s => s⟩

def argumentTable : MacroTable := ⟨[macroF ['x']], macroF_argument_defined, fun s => s⟩

def plainState : ExpandState := ⟨false, 0, [], 0, [], []⟩

theorem callTable_sameBut : SameBut ['f'] callTable argumentTable where
  mangle := rfl
  others := by
    intro id hid
    have hnone : ∀ value, [macroF value].find? (fun m => m.name = id) = none := by
      intro value
      refine List.find?_cons_of_neg fun he => hid ?_
      exact (of_decide_eq_true he).symm
    exact (hnone _).trans (hnone _).symm
  args := rfl

theorem rescan_callTable :
    rescan (nested callTable 12) ['f'] "f(1)+1".toList plainState =
      rescan (nested argumentTable 12) ['f'] "f(1)+1".toList plainState :=
  rescan_own_value callTable_sameBut 12 _ plainState

example : preprocessorReplace callTable 16 [] 1 "f(1)".toList plainState =
    some ("f(1)+1".toList, { plainState with macroStartLine := 1 }) := by decide +kernel

end Swig4Ada.Preprocessor

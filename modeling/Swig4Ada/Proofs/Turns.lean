import Swig4Ada.Proofs.Reading
import Swig4Ada.Preprocessor.Groups

/-!
# What the machine does with the text in hand

A turn of the machine that ends no directive leaves the variables of the conditionals alone.
It keeps the text in hand, or hands on all of it, and where text is not allowed it writes
line breaks only (`Turn`); so does a character, outside of directives or when it ends none
(`readFile_turn`).
-/

namespace Swig4Ada.Preprocessor

variable {σ : Type} {W : FileWorld σ}

/-! ## What a turn of the machine hands on -/

/-- A text in the output: expanded, or as its line breaks. -/
def emit (W : World σ) (live : Bool) (symbols : σ) (s : List Char) : List Char :=
  if live then W.replace symbols false s else newlines s

/-- The text in hand is ordinary. -/
def Mode.holdsText : Mode → Bool
  | start | text | slash | lineComment | blockComment | blockCommentStar | percent
  | swigName => true
  | skip _ _ inValue => !inValue
  | _ => false

/-- What a turn does with the text in hand: it is kept, or handed on; that of a block is
written as it is. -/
inductive LineTurn (W : World σ) (st st' : ParseState σ) : Prop
  | keep (after : List Char) (hblock : st'.mode ≠ .swigBlock) (hns : st'.ns = st.ns)
      (hchunk : st'.chunk = st.chunk ++ after) (hcond : st'.cond = st.cond)
      (hholds : st.mode.holdsText = true → st'.mode.holdsText = true)
      (hempty : st'.mode.inDirective = true → st.mode.inDirective = true ∧ after = [])
  | hand (after : List Char) (hblock : st'.mode ≠ .swigBlock)
      (hns : st'.ns = (addChunk W st).ns) (hchunk : st'.chunk = after)
      (hcond : st'.cond = st.cond) (hempty : st'.mode.inDirective = true → after = [])
  | raw (s : List Char) (hblock : st'.mode ≠ .swigBlock)
      (hns : st'.ns = addLine st.ns s st.cond.allow) (hcond : st'.cond = st.cond)
      (hholds : st.mode.holdsText = false) (hempty : st'.mode.inDirective = false)
  | opens (hmode : st.mode = .swigName) (h : st' = { st with mode := .swigBlock })

variable {st st' : ParseState σ} {c : Char}

theorem LineTurn.put (mode : Mode) (hblock : mode ≠ .swigBlock)
    (hholds : st.mode.holdsText = true → mode.holdsText = true)
    (hempty : mode.inDirective = false) : LineTurn W.toWorld st (putChunk st c mode) :=
  .keep [c] hblock rfl rfl rfl hholds fun h => absurd h (by
    rw [putChunk, hempty]
    exact Bool.false_ne_true)

/-- Another mode. -/
theorem LineTurn.move (h : st'.ns = st.ns ∧ st'.chunk = st.chunk ∧ st'.cond = st.cond)
    (hblock : st'.mode ≠ .swigBlock)
    (hholds : st.mode.holdsText = true → st'.mode.holdsText = true)
    (hempty : st'.mode.inDirective = true → st.mode.inDirective = true) :
    LineTurn W.toWorld st st' :=
  .keep [] hblock h.1 (h.2.1.trans (List.append_nil _).symm) h.2.2 hholds
    fun h => ⟨hempty h, rfl⟩

/-- A turn in a directive. -/
theorem parseStep_silent (hmode : st.mode.inDirective = true) (hhash : st.mode ≠ .hash)
    (hend : st.mode ≠ .directive) : LineTurn W.toWorld st (parseStep W.toWorld st c).1 := by
  have hholds : st.mode.holdsText = false := by
    cases hm : st.mode with
    | skip quote escaped inValue =>
        rw [hm] at hmode
        cases inValue with
        | true => rfl
        | false => cases hmode
    | _ =>
        rw [hm] at hmode
        first | rfl | cases hmode
  have hkeep : (parseStep W.toWorld st c).1.mode ≠ .swigBlock ∧
      (parseStep W.toWorld st c).1.ns = st.ns ∧
        (parseStep W.toWorld st c).1.chunk = st.chunk ∧
          (parseStep W.toWorld st c).1.cond = st.cond := by
    cases hm : st.mode with
    | skip quote escaped inValue =>
        rw [hm] at hmode
        cases inValue with
        | true =>
            simp only [parseStep, hm, if_true]
            refine ⟨?_, rfl, rfl, rfl⟩
            rw [putValue]
            repeat' split
            all_goals intro h; cases h
        | false => cases hmode
    | name | beforeValue | value | valueBackslash | valueSlash | valueLineComment
    | valueBlockComment | valueBlockCommentStar =>
        simp only [parseStep, hm, readValue]
        repeat' split
        all_goals refine ⟨?_, rfl, rfl, rfl⟩
        all_goals first
          | (rw [hm]; intro h; cases h)
          | intro h; cases h
    | hash => exact absurd hm hhash
    | directive => exact absurd hm hend
    | _ =>
        rw [hm] at hmode
        cases hmode
  exact .move hkeep.2 hkeep.1 (fun h => by rw [hholds] at h; cases h) fun _ => hmode

theorem swigDirective_turn (hmode : st.mode = .swigName) :
    LineTurn W.toWorld st (swigDirective st) := by
  rw [swigDirective]
  split
  · exact .opens hmode rfl
  split
  · exact .move ⟨rfl, rfl, rfl⟩ (by intro h; cases h) (fun _ => rfl) (by intro h; cases h)
  · exact .keep st.decl (by intro h; cases h) rfl rfl rfl (fun _ => rfl) (by intro h; cases h)

theorem parseStep_turn (hblock : st.mode ≠ .swigBlock) (hend : st.mode ≠ .directive) :
    LineTurn W.toWorld st (parseStep W.toWorld st c).1 := by
  have hsame : st.ns = st.ns ∧ st.chunk = st.chunk ∧ st.cond = st.cond := ⟨rfl, rfl, rfl⟩
  cases hm : st.mode with
  | start =>
      simp only [parseStep, hm]
      split
      · exact .hand [] (by intro h; cases h) rfl rfl rfl fun _ => rfl
      split
      · exact .put .start (by intro h; cases h) (fun _ => rfl) rfl
      · exact .move hsame (by intro h; cases h) (fun _ => rfl) (by intro h; cases h)
  | text =>
      simp only [parseStep, hm]
      split
      · exact .move hsame (by intro h; cases h) (fun _ => rfl) (by intro h; cases h)
      repeat' split
      all_goals exact .put _ (by intro h; cases h) (fun _ => rfl) rfl
  | slash | lineComment | blockComment | blockCommentStar =>
      simp only [parseStep, hm]
      repeat' split
      all_goals exact .put _ (by intro h; cases h) (fun _ => rfl) rfl
  | hash =>
      have hout : st.mode.holdsText = true → False := by
        rw [hm]
        intro h
        cases h
      simp only [parseStep, hm]
      split
      · exact .put .start (by intro h; cases h) (fun _ => rfl) rfl
      split
      · exact .move hsame (by rw [hm]; intro h; cases h) (fun h => (hout h).elim) id
      · exact .move hsame (by intro h; cases h) (fun h => (hout h).elim) fun _ => by rw [hm]; rfl
  | name | beforeValue | value | valueBackslash | valueSlash | valueLineComment
  | valueBlockComment | valueBlockCommentStar =>
      exact parseStep_silent (by rw [hm]; rfl) (by rw [hm]; intro h; cases h) hend
  | directive => exact absurd hm hend
  | swigBlock => exact absurd hm hblock
  | percent =>
      simp only [parseStep, hm]
      split
      · exact .hand ['%', c] (by intro h; cases h) rfl rfl rfl (by intro h; cases h)
      split
      · exact .hand [c] (by intro h; cases h) rfl rfl rfl (by intro h; cases h)
      split
      · exact .move hsame (by intro h; cases h) (fun _ => rfl) (by intro h; cases h)
      · exact .keep ['%', c] (by intro h; cases h) rfl (List.append_assoc _ _ _) rfl
          (fun _ => rfl) (by intro h; cases h)
  | code =>
      have hout : st.mode.holdsText = true → False := by
        rw [hm]
        intro h
        cases h
      simp only [parseStep, hm]
      split <;> exact .put _ (by intro h; cases h) (fun h => (hout h).elim) rfl
  | codePercent =>
      have hout : st.mode.holdsText = false := by
        rw [hm]
        rfl
      simp only [parseStep, hm]
      split
      · exact .raw _ (by intro h; cases h) rfl rfl hout rfl
      · exact .put _ (by intro h; cases h) (fun h => by rw [hout] at h; cases h) rfl
  | embedded =>
      have hout : st.mode.holdsText = false := by
        rw [hm]
        rfl
      simp only [parseStep, hm]
      split
      · exact .raw _ (by intro h; cases h) rfl rfl hout rfl
      split <;> exact .put _ (by intro h; cases h) (fun h => by rw [hout] at h; cases h) rfl
  | embeddedBackslash =>
      simp only [parseStep, hm]
      exact .put _ (by intro h; cases h) (fun h => by rw [hm] at h; cases h) rfl
  | swigName =>
      simp only [parseStep, hm]
      split
      · exact swigDirective_turn hm
      · exact .move ⟨rfl, rfl, rfl⟩ (by intro h; cases h) (fun _ => rfl) (by intro h; cases h)
  | skip quote escaped inValue =>
      cases inValue with
      | true => exact parseStep_silent (by rw [hm]; rfl) (by rw [hm]; intro h; cases h) hend
      | false =>
          simp only [parseStep, hm, Bool.false_eq_true, if_false]
          repeat' split
          all_goals exact .put _ (by intro h; cases h) (fun _ => rfl) rfl
  | outside =>
      simp only [parseStep, hm]
      exact .move hsame (by rw [hm]; intro h; cases h) id id

/-- The text in hand is not that of a block. -/
def HoldsText (fs : FileState σ) : Bool :=
  if fs.line.mode = .swigBlock then !fs.part.ofBlock else fs.line.mode.holdsText

/-- A file is included where text is allowed, and in a directive there is no text in hand. -/
structure Sound (fs : FileState σ) : Prop where
  including : fs.line.mode = .swigBlock → fs.part.ofBlock = false → fs.line.cond.allow = true
  empty : fs.line.mode.inDirective = true → fs.line.chunk = []

/-- From one state to another the text in hand is kept, or all of it has been handed on. -/
inductive Hands (W : FileWorld σ) (fs fs' : FileState σ) : Prop
  | kept (after : List Char) (hns : fs'.line.ns = fs.line.ns)
      (hchunk : fs'.line.chunk = fs.line.chunk ++ after) (hcond : fs'.line.cond = fs.line.cond)
      (hholds : HoldsText fs' = true)
  | handed (after : List Char) (symbols : σ) (more : List Char)
      (hns : fs'.line.ns = fs.line.ns ++
        emit W.toWorld fs.line.cond.allow symbols (fs.line.chunk ++ after) ++ more)

/-- Turns of the machine that end no directive. -/
structure Turn (W : FileWorld σ) (fs fs' : FileState σ) : Prop where
  cond : fs'.line.cond = fs.line.cond
  sound : Sound fs'
  skipped : fs.line.cond.allow = false → OnlyBreaks fs.line.ns fs'.line.ns
  grows : fs.line.ns <+: fs'.line.ns
  hands : HoldsText fs = true → Hands W fs fs'

variable {fs fs' fs₁ fs₂ : FileState σ}

theorem OnlyBreaks.refl (ns : List Char) : OnlyBreaks ns ns :=
  ⟨[], fun _ h => absurd h List.not_mem_nil, (List.append_nil ns).symm⟩

theorem OnlyBreaks.trans {ns ns₁ ns₂ : List Char} (h : OnlyBreaks ns ns₁)
    (h' : OnlyBreaks ns₁ ns₂) : OnlyBreaks ns ns₂ := by
  obtain ⟨t, ht, rfl⟩ := h
  obtain ⟨u, hu, rfl⟩ := h'
  refine ⟨t ++ u, fun c hc => ?_, List.append_assoc _ _ _⟩
  exact (List.mem_append.1 hc).elim (ht c) (hu c)

theorem mem_newlines {s : List Char} {c : Char} (h : c ∈ newlines s) : c = '\n' :=
  of_decide_eq_true (List.mem_filter.1 h).2

theorem onlyBreaks_addLine {allow : Bool} (h : allow = false) (ns s : List Char) :
    OnlyBreaks ns (addLine ns s allow) := by
  rw [addLine, if_neg (by rw [h]; exact Bool.false_ne_true)]
  exact ⟨newlines s, fun c hc => mem_newlines hc, rfl⟩

theorem grows_addLine (ns s : List Char) (allow : Bool) : ns <+: addLine ns s allow := by
  rw [addLine]
  split <;> exact List.prefix_append _ _

theorem addChunk_ns (st : ParseState σ) : (addChunk W.toWorld st).ns =
    st.ns ++ emit W.toWorld st.cond.allow st.symbols st.chunk := by
  rw [addChunk, emit, addLine]
  cases st.cond.allow <;> rfl

/-- The text in hand over two parts of a run. -/
theorem Hands.next (h : Hands W fs fs₁)
    (hnext : HoldsText fs₁ = true → Hands W fs₁ fs₂) (hgrows : fs₁.line.ns <+: fs₂.line.ns) :
    Hands W fs fs₂ := by
  cases h with
  | kept after hns hchunk hcond hholds =>
      cases hnext hholds with
      | kept after' hns' hchunk' hcond' hholds' =>
          exact .kept (after ++ after') (hns'.trans hns)
            (by rw [hchunk', hchunk, List.append_assoc]) (hcond'.trans hcond) hholds'
      | handed after' symbols more hns' =>
          rw [hns, hchunk, hcond, List.append_assoc fs.line.chunk] at hns'
          exact .handed (after ++ after') symbols more hns'
  | handed after symbols more hns =>
      obtain ⟨rest, hrest⟩ := hgrows
      refine .handed after symbols (more ++ rest) ?_
      rw [← hrest, hns]
      exact List.append_assoc _ _ _

theorem Turn.trans (h : Turn W fs fs₁) (h' : Turn W fs₁ fs₂) : Turn W fs fs₂ where
  cond := h'.cond.trans h.cond
  sound := h'.sound
  skipped := fun hallow => (h.skipped hallow).trans (h'.skipped (by rw [h.cond, hallow]))
  grows := h.grows.trans h'.grows
  hands := fun hholds => (h.hands hholds).next h'.hands h'.grows

/-- A turn after which there is no block. -/
theorem LineTurn.turn (h : LineTurn W.toWorld fs.line fs'.line) (hsound : Sound fs)
    (hblock : fs.line.mode ≠ .swigBlock) (hblock' : fs'.line.mode ≠ .swigBlock) :
    Turn W fs fs' := by
  have hholds' : HoldsText fs' = fs'.line.mode.holdsText := if_neg hblock'
  have hholds : HoldsText fs = fs.line.mode.holdsText := if_neg hblock
  cases h with
  | keep after _ hns hchunk hcond hkeep hempty =>
      refine ⟨hcond, ⟨fun h => absurd h hblock', fun hin => ?_⟩, fun _ => ?_, ?_, fun h => ?_⟩
      · obtain ⟨hbefore, rfl⟩ := hempty hin
        rw [hchunk, hsound.empty hbefore, List.append_nil]
      · rw [hns]
        exact .refl _
      · rw [hns]
      · rw [hholds] at h
        exact .kept after hns hchunk hcond (hholds'.trans (hkeep h))
  | hand after _ hns hchunk hcond hempty =>
      refine ⟨hcond, ⟨fun h => absurd h hblock', fun hin => hchunk.trans (hempty hin)⟩,
        fun hallow => ?_, ?_, fun _ => ?_⟩
      · rw [hns, addChunk]
        exact onlyBreaks_addLine hallow _ _
      · rw [hns, addChunk]
        exact grows_addLine _ _ _
      · rw [addChunk_ns] at hns
        refine .handed [] fs.line.symbols [] ?_
        rw [hns, List.append_nil, List.append_nil]
  | raw s _ hns hcond hno hempty =>
      refine ⟨hcond, ⟨fun h => absurd h hblock', fun hin => ?_⟩, fun hallow => ?_, ?_, fun h => ?_⟩
      · rw [hempty] at hin
        cases hin
      · rw [hns]
        exact onlyBreaks_addLine hallow _ _
      · rw [hns]
        exact grows_addLine _ _ _
      · rw [hholds, hno] at h
        cases h
  | opens hmode hst =>
      refine absurd ?_ hblock'
      rw [hst]

/-- A turn that writes nothing. -/
theorem Turn.silent (hcond : fs'.line.cond = fs.line.cond) (hns : fs'.line.ns = fs.line.ns)
    (hsound : Sound fs') (hkeep : HoldsText fs = true →
      ∃ after, fs'.line.chunk = fs.line.chunk ++ after ∧ HoldsText fs' = true) :
    Turn W fs fs' where
  cond := hcond
  sound := hsound
  skipped := fun _ => by rw [hns]; exact .refl _
  grows := by rw [hns]
  hands := fun hholds => by
    obtain ⟨after, hchunk, hholds'⟩ := hkeep hholds
    exact .kept after hns hchunk hcond hholds'

theorem Turn.refl (h : Sound fs) : Turn W fs fs :=
  .silent rfl rfl h fun hholds => ⟨[], (List.append_nil _).symm, hholds⟩

/-- The text in hand is handed on in front of a block. -/
theorem Turn.handedOn (hcond : fs'.line.cond = fs.line.cond)
    (hns : fs'.line.ns = (addChunk W.toWorld fs.line).ns) (hsound : Sound fs') : Turn W fs fs' where
  cond := hcond
  sound := hsound
  skipped := fun hallow => by rw [hns, addChunk]; exact onlyBreaks_addLine hallow _ _
  grows := by rw [hns, addChunk]; exact grows_addLine _ _ _
  hands := fun _ => by
    rw [addChunk_ns] at hns
    exact .handed [] fs.line.symbols [] (by rw [hns, List.append_nil, List.append_nil])

/-- A directive that reads on is opened. -/
theorem openBlock_turn (fs' : FileState σ)
    (hfs : fs' = openBlock W (fs.withLine { fs.line with mode := .swigBlock })) :
    Turn W fs fs' := by
  rw [openBlock] at hfs
  split at hfs
  · subst hfs
    exact .handedOn rfl rfl ⟨(by intro _ h; cases h), by intro h; cases h⟩
  split at hfs
  · subst hfs
    exact .handedOn rfl rfl ⟨(by intro _ h; cases h), by intro h; cases h⟩
  split at hfs
  · next hallow =>
      subst hfs
      exact .silent rfl rfl ⟨fun _ _ => hallow, by intro h; cases h⟩
        fun _ => ⟨[], (List.append_nil _).symm, rfl⟩
  · subst hfs
    exact .silent rfl rfl ⟨(by intro h; cases h), by intro h; cases h⟩
      fun _ => ⟨[], (List.append_nil _).symm, rfl⟩

/-! ### Blocks and inclusions -/

/-- The end of an inclusion, without a file and with one. -/
theorem endInclude_cases (fs : FileState σ) :
    (∃ symbols, endInclude W fs =
      fs.withLine { fs.line with mode := .text, symbols := symbols }) ∨
    ∃ symbols text, endInclude W fs = fs.withLine
      { fs.line with
        mode := .text, chunk := [], symbols := symbols
        ns := (addChunk W.toWorld fs.line).ns ++ text } := by
  simp only [endInclude]
  split
  · exact .inl ⟨_, rfl⟩
  · exact .inr ⟨_, _, rfl⟩

theorem endInclude_turn (hallow : fs.line.cond.allow = true) : Turn W fs (endInclude W fs) := by
  rcases endInclude_cases (W := W) fs with ⟨symbols, h⟩ | ⟨symbols, text, h⟩
  · rw [h]
    exact .silent rfl rfl ⟨(by intro h; cases h), by intro h; cases h⟩
      fun _ => ⟨[], (List.append_nil _).symm, rfl⟩
  · rw [h]
    have hns : (fs.withLine
        { fs.line with
          mode := .text, chunk := [], symbols := symbols
          ns := (addChunk W.toWorld fs.line).ns ++ text }).line.ns =
        fs.line.ns ++ emit W.toWorld fs.line.cond.allow fs.line.symbols
          (fs.line.chunk ++ []) ++ text := by
      rw [List.append_nil, ← addChunk_ns]
      rfl
    refine ⟨rfl, ⟨(by intro h; cases h), by intro h; cases h⟩, fun h => ?_, ?_,
      fun _ => .handed [] fs.line.symbols text hns⟩
    · rw [hallow] at h
      cases h
    · rw [hns, List.append_assoc]
      exact List.prefix_append _ _

/-- An inclusion goes on. -/
theorem Turn.including (h : Sound fs) (hmode : fs.line.mode = .swigBlock)
    (hpart : fs.part.ofBlock = false) (hline : fs'.line = fs.line)
    (hpart' : fs'.part.ofBlock = false) : Turn W fs fs' := by
  have hmode' : fs'.line.mode = .swigBlock := by rw [hline, hmode]
  refine .silent (by rw [hline]) (by rw [hline]) ⟨fun _ _ => ?_, fun hin => ?_⟩ fun _ =>
    ⟨[], by rw [hline, List.append_nil], ?_⟩
  · rw [hline]
    exact h.including hmode hpart
  · rw [hmode'] at hin
    cases hin
  · rw [HoldsText, if_pos hmode', hpart']
    rfl

/-- A block is left, or goes on. -/
theorem Turn.inBlock (hmode : fs.line.mode = .swigBlock) (hpart : fs.part.ofBlock = true)
    (hcond : fs'.line.cond = fs.line.cond) (hsound : Sound fs')
    (hns : ∃ s allow, fs'.line.ns = addLine fs.line.ns s allow ∧
      (fs.line.cond.allow = false → allow = false)) : Turn W fs fs' := by
  have hout : HoldsText fs = false := by
    rw [HoldsText, if_pos hmode, hpart]
    rfl
  obtain ⟨s, allow, hns, hallow⟩ := hns
  refine ⟨hcond, hsound, fun h => ?_, ?_, fun h => ?_⟩
  · rw [hns]
    exact onlyBreaks_addLine (hallow h) _ _
  · rw [hns]
    exact grows_addLine _ _ _
  · rw [hout] at h
    cases h

theorem addLine_nothing (ns : List Char) : ns = addLine ns [] false := (List.append_nil ns).symm

theorem closeBlock_turn (hmode : fs.line.mode = .swigBlock) (hpart : fs.part.ofBlock = true) :
    Turn W fs (closeBlock W fs) := by
  rw [closeBlock]
  split
  · exact .inBlock hmode hpart rfl ⟨(by intro h; cases h), by intro h; cases h⟩
      ⟨_, false, rfl, fun _ => rfl⟩
  · exact .inBlock hmode hpart rfl ⟨(by intro h; cases h), by intro h; cases h⟩ ⟨_, _, rfl, id⟩

/-- In a block nothing is written. -/
theorem Turn.goesOn (hmode : fs.line.mode = .swigBlock) (hpart : fs.part.ofBlock = true)
    (hmode' : fs'.line.mode = .swigBlock) (hpart' : fs'.part.ofBlock = true)
    (hcond : fs'.line.cond = fs.line.cond) (hns : fs'.line.ns = fs.line.ns) : Turn W fs fs' := by
  refine .inBlock hmode hpart hcond ⟨fun _ h => ?_, fun h => ?_⟩ ⟨[], false, ?_, fun _ => rfl⟩
  · rw [hpart'] at h
    cases h
  · rw [hmode'] at h
    cases h
  · rw [hns]
    exact addLine_nothing _

theorem endStatement_turn (read : List Char) (hmode : fs.line.mode = .swigBlock)
    (hpart : fs.part.ofBlock = true) : Turn W fs (endStatement W fs read) := by
  have hbody : ∀ g : FileState σ, g.line = fs.line → g.part = .body → Turn W fs g := by
    intro g hline hg
    exact .goesOn hmode hpart (by rw [hline, hmode]) (by rw [hg]; rfl) (by rw [hline])
      (by rw [hline])
  rw [endStatement]
  dsimp only
  split
  · split <;> exact hbody _ rfl rfl
  · have hclose : ∀ (g : FileState σ) (p : Prop) [Decidable p], g.line = fs.line →
        g.part = .body → Turn W fs (if p then closeBlock W g else g) := by
      intro g p _ hline hg
      split
      · exact (hbody g hline hg).trans
          (closeBlock_turn (by rw [hline, hmode]) (by rw [hg]; rfl))
      · exact hbody g hline hg
    refine hclose _ _ ?_ ?_
    · split <;> rfl
    · split <;> rfl

theorem putBlock_turn {part : BlockPart} (hmode : fs.line.mode = .swigBlock)
    (hpart : fs.part.ofBlock = true) (hpart' : part.ofBlock = true) :
    Turn W fs (fs.putBlock c part) := by
  refine .goesOn hmode hpart ?_ hpart' ?_ ?_
  all_goals
    rw [FileState.putBlock]
    dsimp only
    split
  · exact hmode
  · exact hmode
  all_goals rfl

theorem startFilename_turn (h : Sound fs) (hmode : fs.line.mode = .swigBlock)
    (hpart : fs.part.ofBlock = false) : Turn W fs (startFilename fs c).1 := by
  rw [startFilename]
  dsimp only
  repeat' split
  all_goals exact .including h hmode hpart rfl rfl

theorem blockStep_turn (h : Sound fs) (hmode : fs.line.mode = .swigBlock) :
    Turn W fs (blockStep W fs c).1 := by
  have hgoes : ∀ g : FileState σ, g.line = fs.line → g.part.ofBlock = false →
      fs.part.ofBlock = false → Turn W fs g :=
    fun g hline hg hpart => .including h hmode hpart hline hg
  cases hpart : fs.part with
  | optionsBlank | filenameBlank =>
      have hout : fs.part.ofBlock = false := by rw [hpart]; rfl
      simp only [blockStep, hpart]
      repeat' split
      all_goals first
        | exact startFilename_turn h hmode hout
        | exact hgoes _ rfl rfl hout
  | options level =>
      have hout : fs.part.ofBlock = false := by rw [hpart]; rfl
      simp only [blockStep, hpart]
      repeat' split
      all_goals exact hgoes _ rfl rfl hout
  | filename close =>
      have hout : fs.part.ofBlock = false := by rw [hpart]; rfl
      simp only [blockStep, hpart]
      split
      · exact endInclude_turn (h.including hmode hout)
      · exact hgoes _ rfl rfl hout
  | bareFilename =>
      have hout : fs.part.ofBlock = false := by rw [hpart]; rfl
      simp only [blockStep, hpart]
      split
      · exact endInclude_turn (h.including hmode hout)
      · exact hgoes _ rfl rfl hout
  | body =>
      have hin : fs.part.ofBlock = true := by rw [hpart]; rfl
      simp only [blockStep, hpart]
      exact putBlock_turn hmode hin (by split <;> rfl)
  | statement read =>
      have hin : fs.part.ofBlock = true := by rw [hpart]; rfl
      simp only [blockStep, hpart]
      refine putBlock_turn hmode hin ?_
      repeat' split
      all_goals rfl
  | statementEnd read =>
      have hin : fs.part.ofBlock = true := by rw [hpart]; rfl
      simp only [blockStep, hpart]
      split
      · exact endStatement_turn read hmode hin
      · exact .goesOn hmode hin hmode rfl rfl rfl

/-! ### One character -/

theorem fileStep_turn (h : Sound fs) (hend : fs.line.mode ≠ .directive) :
    Turn W fs (fileStep W fs c).1 := by
  by_cases hblock : fs.line.mode = .swigBlock
  · rw [fileStep_block hblock]
    exact blockStep_turn h hblock
  have hturn : LineTurn W.toWorld fs.line (parseStep W.toWorld fs.line c).1 :=
    parseStep_turn hblock hend
  rw [fileStep, if_neg hblock]
  dsimp only
  split
  · next hopen =>
      have hline : (parseStep W.toWorld fs.line c).1 = { fs.line with mode := .swigBlock } := by
        cases hturn with
        | opens _ hst => exact hst
        | _ => contradiction
      rw [hline]
      exact openBlock_turn _ rfl
  · next hopen => exact hturn.turn h hblock hopen

theorem blockStep_again (hm : fs.line.mode = .swigBlock)
    (hagain : (fileStep W fs c).2 = true) :
    (fileStep W fs c).1.line.mode.inDirective = false := by
  rw [fileStep_block hm] at hagain ⊢
  cases hpart : fs.part with
  | bareFilename =>
      simp only [blockStep, hpart] at hagain ⊢
      split
      · rw [endInclude_mode]
        rfl
      · rw [hm]
        rfl
  | statementEnd read =>
      simp only [blockStep, hpart]
      split
      · rcases endStatement_cases (W := W) read hm with h | h | h
        · rw [h.1]
          rfl
        · rw [h]
          rfl
        · rw [h]
          rfl
      · rw [hm]
        rfl
  | optionsBlank | filenameBlank =>
      simp only [blockStep, hpart, startFilename] at hagain
      repeat' split at hagain
      all_goals cases hagain
  | options level | filename close | body | statement read =>
      simp only [blockStep, hpart] at hagain
      repeat' split at hagain
      all_goals cases hagain

theorem openBlock_outside (hmode : fs.line.mode = .swigBlock) :
    (openBlock W fs).line.mode.inDirective = false := by
  rcases openBlock_cases (W := W) hmode with h | h
  · rw [h.1]
    rfl
  · rw [h]
    rfl

/-- Outside of directives a character is given back at the end of a name and where the
first column is left. -/
theorem parseStep_again (hin : st.mode.inDirective = false) (hblock : st.mode ≠ .swigBlock)
    (hagain : (parseStep W.toWorld st c).2 = true) :
    (parseStep W.toWorld st c).1.mode = .text ∨
      (parseStep W.toWorld st c).1.mode = .swigBlock := by
  cases hm : st.mode with
  | swigName =>
      simp only [parseStep, hm] at hagain ⊢
      split at hagain
      · next hid =>
          rw [if_pos hid, swigDirective]
          split
          · exact .inr rfl
          split <;> exact .inl rfl
      · cases hagain
  | start =>
      simp only [parseStep, hm] at hagain ⊢
      split at hagain
      · cases hagain
      split at hagain
      · cases hagain
      · next hhash hspace =>
          rw [if_neg hhash, if_neg hspace]
          exact .inl rfl
  | swigBlock => exact absurd hm hblock
  | text | slash | lineComment | blockComment | blockCommentStar | percent | code | codePercent
  | embedded | embeddedBackslash | outside =>
      simp only [parseStep, hm] at hagain
      repeat' split at hagain
      all_goals cases hagain
  | skip quote escaped inValue =>
      simp only [parseStep, hm] at hagain
      cases hagain
  | _ =>
      rw [hm] at hin
      cases hin

/-- Outside of directives no character is given back to one. -/
theorem again_outside (hin : fs.line.mode.inDirective = false)
    (hagain : (fileStep W fs c).2 = true) :
    (fileStep W fs c).1.line.mode.inDirective = false := by
  by_cases hblock : fs.line.mode = .swigBlock
  · exact blockStep_again hblock hagain
  rw [fileStep, if_neg hblock] at hagain ⊢
  dsimp only at hagain ⊢
  have hagain' : (parseStep W.toWorld fs.line c).2 = true := by
    split at hagain <;> exact hagain
  split
  · next hopen => exact openBlock_outside hopen
  · next hopen =>
      have htext := (parseStep_again hin hblock hagain').resolve_right hopen
      show (parseStep W.toWorld fs.line c).1.mode.inDirective = false
      rw [htext]
      rfl

/-- A character is read, up to the end of a directive. -/
theorem readFile_turn (c : Char) : ∀ (n : Nat) (fs : FileState σ), Sound fs →
    fs.line.mode ≠ .directive → (readFileChar W n fs c).line.mode ≠ .directive →
      Turn W fs (readFileChar W n fs c) ∨ fs.line.mode.inDirective = true ∧
        AtEnd (readFileChar W n fs c).line.mode := by
  intro n
  induction n with
  | zero => exact fun fs h _ _ => .inl (.refl h)
  | succ n ih =>
      intro fs h hend hread
      have hturn := fileStep_turn (W := W) (c := c) h hend
      rcases hstep : fileStep W fs c with ⟨fs₁, again⟩
      rw [hstep] at hturn
      cases again with
      | false =>
          rw [readFileChar_taken hstep]
          exact .inl hturn
      | true =>
          have hout : fs.line.mode.inDirective = false → fs₁.line.mode.inDirective = false := by
            intro hin
            have hagain := again_outside (W := W) (c := c) hin (by rw [hstep])
            rwa [hstep] at hagain
          rw [readFileChar_again hstep] at hread ⊢
          have hback : fs₁.line.mode.inDirective = true → fs.line.mode.inDirective = true := by
            intro hin₁
            by_contra hin
            rw [hout (Bool.eq_false_iff.2 hin)] at hin₁
            cases hin₁
          by_cases hend₁ : fs₁.line.mode = .directive
          · cases n with
            | zero => exact absurd hend₁ hread
            | succ n => exact .inr ⟨hback (by rw [hend₁]; rfl), readFile_directive hend₁⟩
          · rcases ih fs₁ hturn.sound hend₁ hread with hmore | ⟨hin, hmore⟩
            · exact .inl (hturn.trans hmore)
            · exact .inr ⟨hback hin, hmore⟩

end Swig4Ada.Preprocessor

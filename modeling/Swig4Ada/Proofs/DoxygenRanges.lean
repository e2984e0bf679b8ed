import Swig4Ada.Proofs.DoxygenParser

/-!
# Comments that are parsed in their ranges

The other direction: a run in which every call of `parse` ends where it was to end, and every
block is closed by its own end command, is one over a comment whose extents nest. The record
of a run is only added to, so every part of such a run is right as well, and a handler has
then taken its extent.
-/

namespace Swig4Ada.Doxygen

variable {features : ParserFeatures} {r u : List Token} {s s' s₁ s₂ : DoxygenParser}

/-- The calls and blocks of a run are right. -/
structure Clean (s : DoxygenParser) : Prop where
  calls : ∀ c ∈ s.calls, c.Exact
  blocks : ∀ b ∈ s.blocks, b.Closed

theorem Clean.before (h : Clean s') (hgrows : Grows s s') : Clean s :=
  ⟨fun c hc => h.calls c (hgrows.calls.subset hc), fun b hb => h.blocks b (hgrows.blocks.subset hb)⟩

/-! ## Ends of blocks -/

theorem getEndCommand_shorter {endCommand : List Char} {t : Token} {ts close : List Token}
    (h : getEndCommand endCommand (t :: ts) = some close) : close.length ≤ ts.length := by
  induction ts generalizing t with
  | nil => cases h
  | cons v ts ih =>
      rw [getEndCommand] at h
      simp only [List.head?_cons] at h
      split at h
      · obtain rfl := Option.some.inj h
        exact Nat.le_refl _
      · exact (ih h).trans (Nat.le_succ _)

theorem matchingEnd_shorter {theCommand endCommand : List Char} {depth : Nat} {close : List Token}
    (h : matchingEnd theCommand endCommand depth r = some close) : close.length ≤ r.length := by
  induction r generalizing depth with
  | nil =>
      rw [matchingEnd.eq_def] at h
      cases h
  | cons t ts ih =>
      rw [matchingEnd.eq_def] at h
      simp only at h
      split at h
      · cases depth with
        | zero =>
            obtain rfl := Option.some.inj h
            exact Nat.le_refl _
        | succ depth => exact (ih h).trans (Nat.le_succ _)
      · split at h
        · exact (ih h).trans (Nat.le_succ _)
        · exact (ih h).trans (Nat.le_succ _)

/-- An open block goes past the first end command. -/
theorem matchingEnd_open {theCommand endCommand : List Char} {depth : Nat} {close : List Token}
    (h : matchingEnd theCommand endCommand (depth + 1) r = some close) :
    close.length < (r.dropWhile fun t => !t.isCommand endCommand).length := by
  induction r generalizing depth with
  | nil =>
      rw [matchingEnd.eq_def] at h
      cases h
  | cons t ts ih =>
      rw [matchingEnd.eq_def] at h
      simp only at h
      cases hend : t.isCommand endCommand with
      | true =>
          rw [hend, if_pos rfl] at h
          rw [List.dropWhile_cons_of_neg (by simp [hend])]
          exact Nat.lt_succ_of_le (matchingEnd_shorter h)
      | false =>
          rw [hend, if_neg Bool.false_ne_true] at h
          rw [List.dropWhile_cons_of_pos (by simp [hend])]
          split at h
          · exact ih h
          · exact ih h

theorem matchingEnd_nested {theCommand endCommand : List Char} {close : List Token}
    (hinside : (r.takeWhile fun t => !t.isCommand endCommand).any (Token.isCommand theCommand))
    (h : matchingEnd theCommand endCommand 0 r = some close) :
    close.length < (r.dropWhile fun t => !t.isCommand endCommand).length := by
  induction r with
  | nil => cases hinside
  | cons t ts ih =>
      rw [matchingEnd.eq_def] at h
      simp only at h
      cases hend : t.isCommand endCommand with
      | true =>
          rw [List.takeWhile_cons_of_neg (by simp [hend])] at hinside
          cases hinside
      | false =>
          rw [hend, if_neg Bool.false_ne_true] at h
          rw [List.dropWhile_cons_of_pos (by simp [hend])]
          rw [List.takeWhile_cons_of_pos (by simp [hend]), List.any_cons] at hinside
          cases hopen : t.isCommand theCommand with
          | true =>
              rw [hopen, if_pos rfl] at h
              exact matchingEnd_open h
          | false =>
              rw [hopen, if_neg Bool.false_ne_true] at h
              rw [hopen, Bool.false_or] at hinside
              exact ih hinside h

theorem getEndCommand_none {endCommand : List Char} {t : Token} {ts close : List Token}
    (hnone : ts.dropWhile (fun t => !t.isCommand endCommand) = [])
    (h : getEndCommand endCommand (t :: ts) = some close) : False := by
  induction ts generalizing t with
  | nil => cases h
  | cons v ts ih =>
      rw [getEndCommand] at h
      simp only [List.head?_cons] at h
      cases hend : v.isCommand endCommand with
      | true =>
          rw [List.dropWhile_cons_of_neg (by simp [hend])] at hnone
          cases hnone
      | false =>
          rw [List.dropWhile_cons_of_pos (by simp [hend])] at hnone
          rw [hend, if_neg Bool.false_ne_true] at h
          exact ih hnone h

/-- A block whose end is found where it is has something in it, and no block of its kind. -/
theorem parsedEnd_of {theCommand endCommand : List Char} {close : List Token}
    (hfound : getEndCommand endCommand r = some close) (hne : close ≠ [])
    (hmatching : matchingEnd theCommand endCommand 0 r = some close) :
    parsedEnd theCommand endCommand r = some close := by
  cases r with
  | nil =>
      obtain rfl := Option.some.inj hfound
      exact absurd rfl hne
  | cons t ts =>
      cases hend : t.isCommand endCommand with
      | true =>
          rw [matchingEnd.eq_def] at hmatching
          simp only [hend, if_pos] at hmatching
          obtain rfl := Option.some.inj hmatching
          exact absurd (getEndCommand_shorter hfound) (by simp)
      | false =>
          have hclose : ts.dropWhile (fun t => !t.isCommand endCommand) ≠ [] := fun hnone =>
            getEndCommand_none hnone hfound
          have hfirst := getEndCommand_cons (t := t) hclose
          have heq : ts.dropWhile (fun t => !t.isCommand endCommand) = close :=
            Option.some.inj (hfirst.symm.trans hfound)
          have hdrop : (t :: ts).dropWhile (fun t => !t.isCommand endCommand) = close := by
            rw [List.dropWhile_cons_of_pos (by simp [hend]), heq]
          have hinside : (t :: ts).takeWhile (fun t => !t.isCommand endCommand) ≠ [] := by
            rw [List.takeWhile_cons_of_pos (by simp [hend])]
            exact List.cons_ne_nil _ _
          rw [parsedEnd, hdrop, if_neg]
          rintro (hnil | hnested | hnil)
          · exact hinside hnil
          · have hless := matchingEnd_nested hnested hmatching
            rw [hdrop] at hless
            exact Nat.lt_irrefl _ hless
          · exact hne hnil

/-! ## The handlers -/

/-- A call that is recorded: with a clean record it ends where it was to end. -/
def Honest (parse : List Token → DoxygenParser → Handled) : Prop :=
  ∀ stop s l s', parse stop s = some (l, s') → Grows s s' ∧ (Clean s' → s'.rest = stop)

/-- Calls one behind the other, each to its end and with a clean record. -/
def Chain (parse : List Token → DoxygenParser → Handled) :
    List (List Char) → List Token → List (List Token) → List (List Char) → Prop
  | ends, _, [], ends' => ends' = ends
  | ends, r, stop :: stops, ends' =>
      ∃ s l s', s.rest = r ∧ s.ends = ends ∧ parse stop s = some (l, s') ∧ Clean s' ∧
        s'.rest = stop ∧ Chain parse s'.ends stop stops ends'

/-- A handler that leaves a clean record has taken its extent. -/
def Shows (handler : (List Token → DoxygenParser → Handled) → DoxygenParser →
      List DoxygenEntity → Handled) (extent : List Token → Option Extent) : Prop :=
  ∀ parse, Honest parse → ∀ s l l' s', handler parse s l = some (l', s') → Grows s s' ∧
    (Clean s' → ∃ x, extent s.rest = some x ∧ s'.rest = x.final ∧
      Chain parse s.ends x.start x.stops s'.ends)

section Handlers

variable {c : List Char}

theorem Reads.shows {handler : DoxygenParser → List DoxygenEntity → Handled}
    {final : List Token → List Token} (h : Reads handler final) :
    Shows (fun _ s l => handler s l) fun r => some (.words (final r)) := by
  intro parse _ s l l' s' hs'
  obtain ⟨l₁, s₁, hs₁, hrest, hends, hgoes⟩ := h s l
  obtain ⟨rfl, rfl⟩ := Prod.mk.inj (Option.some.inj (hs₁.symm.trans hs'))
  exact ⟨hgoes.grows, fun _ => ⟨_, rfl, hrest, hends⟩⟩

theorem shows_ite {cond : Prop} [Decidable cond]
    {h₁ h₂ : (List Token → DoxygenParser → Handled) → DoxygenParser → List DoxygenEntity → Handled}
    {e₁ e₂ : List Token → Option Extent} (hthen : Shows h₁ e₁) (helse : Shows h₂ e₂) :
    Shows (fun parse s l => if cond then h₁ parse s l else h₂ parse s l)
      fun r => if cond then e₁ r else e₂ r := by
  by_cases hcond : cond
  · simp only [if_pos hcond]
    exact hthen
  · simp only [if_neg hcond]
    exact helse

/-- A handler that calls `parse` once and leaves the rest to a function of what it gave. -/
theorem Honest.bind {parse : List Token → DoxygenParser → Handled} (hparse : Honest parse)
    {stop : List Token} {l' : List DoxygenEntity}
    {next : List DoxygenEntity × DoxygenParser → Handled}
    (h : (parse stop s₁).bind next = some (l', s')) :
    ∃ l₂ s₂, parse stop s₁ = some (l₂, s₂) ∧ next (l₂, s₂) = some (l', s') ∧ Grows s₁ s₂ ∧
      (Clean s₂ → s₂.rest = stop) := by
  cases hs₂ : parse stop s₁ with
  | none =>
      rw [hs₂] at h
      cases h
  | some result =>
      obtain ⟨l₂, s₂⟩ := result
      rw [hs₂] at h
      exact ⟨l₂, s₂, rfl, h, hparse stop s₁ l₂ s₂ hs₂⟩

theorem addRange_shows (args : List Arg) (range : List Token → Option (List Token)) (skip : Bool) :
    Shows (fun parse s l => addRange parse c s l args range skip)
      fun r => some (rangeExtent args range skip r) := by
  intro parse hparse s l l' s' h
  simp only [addRange] at h
  have hread : Goes s (s.moved (readArgs args s.rest).2) := .moved (readArgs_suffix args)
  simp only [rangeExtent]
  cases hargs : (readArgs args s.rest).1 with
  | error reason =>
      rw [hargs] at h
      obtain ⟨rfl, rfl⟩ := Prod.mk.inj (Option.some.inj h)
      exact ⟨.same rfl rfl, fun _ => ⟨_, rfl, rfl, rfl⟩⟩
  | ok front =>
      rw [hargs] at h
      simp only at h ⊢
      cases hrange : range (readArgs args s.rest).2 with
      | none =>
          have hmoved : range (s.moved (readArgs args s.rest).2).rest = none := hrange
          rw [hmoved] at h
          obtain ⟨s₁, hs₁, hrest, hends, hgoes⟩ := skip_goes skip (s.moved (readArgs args s.rest).2)
          obtain ⟨-, hs'⟩ := Prod.mk.inj (Option.some.inj h)
          obtain rfl : s₁ = s' := hs₁.symm.trans hs'
          exact ⟨hread.grows.trans hgoes.grows, fun _ => ⟨_, rfl, hrest, hends⟩⟩
      | some stop =>
          have hmoved : range (s.moved (readArgs args s.rest).2).rest = some stop := hrange
          rw [hmoved] at h
          obtain ⟨l₂, s₂, hs₂, hnext, hgrows, hstop⟩ := hparse.bind h
          obtain ⟨s₁, hs₁, hrest, hends, hgoes⟩ := skip_goes skip s₂
          obtain ⟨-, hs'⟩ := Prod.mk.inj (Option.some.inj hnext)
          obtain rfl : s₁ = s' := hs₁.symm.trans hs'
          refine ⟨hread.grows.trans (hgrows.trans hgoes.grows), fun hclean => ?_⟩
          have hclean₂ := hclean.before hgoes.grows
          refine ⟨_, rfl, ?_, s.moved (readArgs args s.rest).2, l₂, s₂, rfl, rfl, hs₂, hclean₂,
            hstop hclean₂, hends⟩
          rw [hrest, hstop hclean₂]

/-- A block that is not closed stays in the record. -/
theorem not_clean_unclosed {kind : BlockKind} {inside : List Token}
    (hgrows : Grows (s.withBlock ⟨kind, inside, none⟩) s') : ¬ Clean s' := by
  intro hclean
  have hmem : (⟨kind, inside, none⟩ : Block) ∈ s'.blocks :=
    hgrows.blocks.subset (List.mem_append_right _ (List.mem_singleton_self _))
  exact absurd (hclean.blocks _ hmem).1 Bool.false_ne_true

theorem Clean.matching {kind : BlockKind} {inside close : List Token} (hclean : Clean s')
    (hgrows : Grows (s.withBlock ⟨kind, inside, some close⟩) s') :
    kind.matching inside = some close := by
  have hmem : (⟨kind, inside, some close⟩ : Block) ∈ s'.blocks :=
    hgrows.blocks.subset (List.mem_append_right _ (List.mem_singleton_self _))
  exact (hclean.blocks _ hmem).2.symm

theorem addCommandEndCommand_shows :
    Shows (fun parse => addCommandEndCommand parse c) (parsedExtent c ("end".toList ++ c)) := by
  intro parse hparse s l l' s' h
  simp only [addCommandEndCommand, Option.bind_eq_bind] at h
  cases hfound : getEndCommand ("end".toList ++ c) s.rest with
  | none =>
      rw [hfound] at h
      cases h
  | some close =>
      rw [hfound, Option.bind_some] at h
      by_cases hne : close = []
      · rw [if_pos hne] at h
        obtain ⟨-, rfl⟩ := Prod.mk.inj (Option.some.inj h)
        have hblock : Grows (s.withBlock ⟨.parsed c ("end".toList ++ c), s.rest, none⟩)
            ((s.withBlock ⟨.parsed c ("end".toList ++ c), s.rest, none⟩).printListError
              (expectedText ("end".toList ++ c))) := .same rfl rfl
        exact ⟨(Grows.withBlock _).trans hblock, fun hclean => absurd hclean
          (not_clean_unclosed hblock)⟩
      · rw [if_neg hne] at h
        obtain ⟨l₂, s₂, hs₂, hnext, hgrows, hstop⟩ := hparse.bind h
        obtain ⟨s₃, hs₃, hlist⟩ := Option.bind_eq_some_iff.1 hnext
        obtain rfl := advance_some hs₃
        obtain ⟨-, rfl⟩ := Prod.mk.inj (Option.some.inj hlist)
        have hlast : Grows s₂ (s₂.moved s₂.rest.tail) := .same rfl rfl
        refine ⟨(Grows.withBlock _).trans (hgrows.trans hlast), fun hclean => ?_⟩
        have hclean₂ := hclean.before hlast
        have hend := parsedEnd_of hfound hne (hclean₂.matching hgrows)
        refine ⟨⟨s.rest, [close], close.tail⟩, by rw [parsedExtent, hend]; rfl, ?_,
          s.withBlock ⟨_, s.rest, some close⟩, l₂, s₂, rfl, rfl, hs₂, hclean₂, hstop hclean₂, rfl⟩
        exact congrArg List.tail (hstop hclean₂)

theorem addArg_shows : Shows (fun parse => addArg parse c) (sectionExtent c) := by
  intro parse hparse s l l' s' h
  simp only [addArg, Option.bind_eq_bind] at h
  cases hsection : getEndOfSection c s.rest with
  | none =>
      rw [hsection] at h
      cases h
  | some stop =>
      rw [hsection, Option.bind_some] at h
      obtain ⟨l₂, s₂, hs₂, hnext, hgrows, hstop⟩ := hparse.bind h
      obtain ⟨-, rfl⟩ := Prod.mk.inj (Option.some.inj hnext)
      exact ⟨hgrows, fun hclean => ⟨⟨s.rest, [stop], stop⟩, by rw [sectionExtent, hsection]; rfl,
        hstop hclean, s, l₂, s₂, rfl, rfl, hs₂, hclean, hstop hclean, rfl⟩⟩

theorem addPar_shows : Shows (fun parse => addPar parse c) fun r => some (parExtent r) := by
  intro parse hparse s l l' s' h
  simp only [addPar, Option.bind_eq_bind] at h
  obtain ⟨l₁, s₁, hs₁, hnext, hgrows₁, hstop₁⟩ := hparse.bind h
  obtain ⟨l₂, s₂, hs₂, hlast, hgrows₂, hstop₂⟩ := hparse.bind hnext
  obtain ⟨-, rfl⟩ := Prod.mk.inj (Option.some.inj hlast)
  refine ⟨hgrows₁.trans hgrows₂, fun hclean => ?_⟩
  have hclean₁ := hclean.before hgrows₂
  have hline := hstop₁ hclean₁
  simp only [hline] at hs₂ hstop₂
  exact ⟨_, rfl, hstop₂ hclean, s, l₁, s₁, rfl, rfl, hs₁, hclean₁, hline, s₁, l₂, s₂, hline, rfl,
    hs₂, hclean, hstop₂ hclean, rfl⟩

theorem addOverload_shows :
    Shows (fun parse => addOverload parse c) fun r => some (overloadExtent r) := by
  intro parse hparse s l l' s' h
  simp only [addOverload] at h
  simp only [overloadExtent]
  cases hline : someLine s.rest with
  | none =>
      rw [hline] at h
      obtain ⟨-, rfl⟩ := Prod.mk.inj (Option.some.inj h)
      exact ⟨.same rfl rfl, fun _ => ⟨_, rfl, rfl, rfl⟩⟩
  | some stop =>
      rw [hline] at h
      obtain ⟨l₂, s₂, hs₂, hnext, hgrows, hstop⟩ := hparse.bind h
      obtain ⟨-, rfl⟩ := Prod.mk.inj (Option.some.inj hnext)
      exact ⟨hgrows, fun hclean => ⟨_, rfl, hstop hclean, s, l₂, s₂, rfl, rfl, hs₂, hclean,
        hstop hclean, rfl⟩⟩

theorem addVerbatim_shows : Shows (fun _ => addVerbatim c) (verbatimExtent c) := by
  intro parse _ s l l' s' h
  simp only [addVerbatim] at h
  simp only [verbatimExtent]
  by_cases hne : (getStringTilEndCommand (endOfVerbatim c) s.rest).2 = []
  · rw [if_pos hne] at h
    obtain ⟨-, hs'⟩ := Prod.mk.inj (Option.some.inj h)
    have hblock : Grows (s.withBlock ⟨.raw (endOfVerbatim c), s.rest, none⟩) s' := by
      rw [← hs']
      split
      · exact .same rfl rfl
      · exact .same rfl rfl
    exact ⟨(Grows.withBlock _).trans hblock, fun hclean => absurd hclean
      (not_clean_unclosed hblock)⟩
  · rw [if_neg hne] at h ⊢
    obtain ⟨-, rfl⟩ := Prod.mk.inj (Option.some.inj h)
    exact ⟨(Grows.withBlock _).trans (.same rfl rfl), fun _ => ⟨_, rfl, rfl, rfl⟩⟩

theorem addIf_shows (needsCond : Bool) :
    Shows (fun parse s l => addIf parse c s l needsCond) (ifExtent needsCond) := by
  intro parse hparse s l l' s' h
  simp only [addIf, Option.bind_eq_bind] at h
  simp only [ifExtent]
  generalize (if needsCond then getNextWord s.rest else ([], s.rest)) = cond at h ⊢
  have hread : Grows s (s.moved cond.2) := .same rfl rfl
  by_cases hnil : needsCond = true ∧ cond.1 = []
  · rw [if_pos hnil] at h ⊢
    obtain ⟨-, rfl⟩ := Prod.mk.inj (Option.some.inj h)
    exact ⟨.same rfl rfl, fun _ => ⟨_, rfl, rfl, rfl⟩⟩
  · rw [if_neg hnil] at h ⊢
    have hrest : (s.moved cond.2).rest = cond.2 := rfl
    rw [hrest] at h
    cases hfind : findEndif 1 cond.2 with
    | none =>
        rw [hfind] at h
        obtain ⟨-, rfl⟩ := Prod.mk.inj (Option.some.inj h)
        have hblock : Grows ((s.moved cond.2).withBlock ⟨.conditional, cond.2, none⟩)
            (((s.moved cond.2).withBlock ⟨.conditional, cond.2, none⟩).printListError
              (expectedText "endif".toList)) := .same rfl rfl
        exact ⟨hread.trans ((Grows.withBlock _).trans hblock), fun hclean => absurd hclean
          (not_clean_unclosed hblock)⟩
    | some found =>
        obtain ⟨close, skipEndif⟩ := found
        rw [hfind] at h
        obtain ⟨l₂, s₂, hs₂, hnext, hgrows, hstop⟩ := hparse.bind h
        have hs' : (if skipEndif then s₂.moved s₂.rest.tail else s₂) = s' := by
          cases skipEndif with
          | true =>
              obtain ⟨s₃, hs₃, hlist⟩ := Option.bind_eq_some_iff.1 hnext
              obtain ⟨-, rfl⟩ := Prod.mk.inj (Option.some.inj hlist)
              exact (advance_some hs₃).symm
          | false => exact (Prod.mk.inj (Option.some.inj hnext)).2
        have hlast : Grows s₂ s' := by
          rw [← hs']
          split
          · exact .same rfl rfl
          · exact .same rfl rfl
        refine ⟨hread.trans ((Grows.withBlock _).trans (hgrows.trans hlast)), fun hclean => ?_⟩
        have hclean₂ := hclean.before hlast
        refine ⟨⟨cond.2, [close], if skipEndif then close.tail else close⟩, rfl, ?_,
          (s.moved cond.2).withBlock ⟨.conditional, cond.2, some close⟩, l₂, s₂, rfl, rfl, hs₂,
          hclean₂, hstop hclean₂, ?_⟩
        · rw [← hs', ← hstop hclean₂]
          split
          · rfl
          · rfl
        · rw [← hs']
          show _ = s₂.ends
          split
          · rfl
          · rfl

theorem ignoreCommand_shows :
    Shows (fun parse s l => ignoreCommand parse c s l features) (ignoreExtent features c) := by
  intro parse hparse s l l' s' h
  simp only [ignoreCommand, Option.bind_eq_bind] at h
  simp only [ignoreExtent]
  by_cases hend : features.endCommand c ≠ []
  · rw [if_pos hend] at h ⊢
    cases hfound : getEndCommand (features.endCommand c) s.rest with
    | none =>
        rw [hfound] at h
        cases h
    | some close =>
        rw [hfound, Option.bind_some] at h
        by_cases hne : close = []
        · rw [if_pos hne] at h
          obtain ⟨-, rfl⟩ := Prod.mk.inj (Option.some.inj h)
          have hblock : Grows (s.withBlock ⟨.parsed c (features.endCommand c), s.rest, none⟩)
              ((s.withBlock ⟨.parsed c (features.endCommand c), s.rest, none⟩).printListError
                (expectedText (features.endCommand c))) := .same rfl rfl
          exact ⟨(Grows.withBlock _).trans hblock, fun hclean => absurd hclean
            (not_clean_unclosed hblock)⟩
        · rw [if_neg hne] at h
          cases hcontents : features.contents c with
          | none =>
              rw [hcontents] at h
              obtain ⟨-, rfl⟩ := Prod.mk.inj (Option.some.inj h)
              have hlast : Grows (s.withBlock ⟨.parsed c (features.endCommand c), s.rest,
                  some close⟩) ((s.withBlock ⟨.parsed c (features.endCommand c), s.rest,
                  some close⟩).moved close.tail) := .same rfl rfl
              refine ⟨(Grows.withBlock _).trans hlast, fun hclean => ?_⟩
              have hclose := parsedEnd_of hfound hne (hclean.matching hlast)
              exact ⟨.words close.tail, by rw [hclose]; rfl, rfl, rfl⟩
          | some contents =>
              rw [hcontents] at h
              simp only at h ⊢
              by_cases htext : contents = "parse".toList
              · rw [if_pos htext] at h ⊢
                obtain ⟨l₂, s₂, hs₂, hnext, hgrows, hstop⟩ := hparse.bind h
                obtain ⟨-, rfl⟩ := Prod.mk.inj (Option.some.inj hnext)
                have hlast : Grows s₂ ((s₂.moved close).moved close.tail) := .same rfl rfl
                refine ⟨(Grows.withBlock _).trans (hgrows.trans hlast), fun hclean => ?_⟩
                have hclean₂ := hclean.before hlast
                have hclose := parsedEnd_of hfound hne (hclean₂.matching hgrows)
                exact ⟨⟨s.rest, [close], close.tail⟩, by rw [parsedExtent, hclose]; rfl, rfl,
                  s.withBlock ⟨_, s.rest, some close⟩, l₂, s₂, rfl, rfl, hs₂, hclean₂,
                  hstop hclean₂, rfl⟩
              · rw [if_neg htext] at h ⊢
                obtain ⟨-, rfl⟩ := Prod.mk.inj (Option.some.inj h)
                refine ⟨.same rfl rfl, fun _ => ⟨.words s.rest, if_neg ?_, rfl, rfl⟩⟩
                rintro (hnone | hnil)
                · cases hnone
                · exact hne (Option.some.inj hnil)
  · rw [if_neg hend] at h ⊢
    cases hrange : features.range c with
    | none =>
        rw [hrange] at h
        obtain ⟨-, rfl⟩ := Prod.mk.inj (Option.some.inj h)
        exact ⟨.same rfl rfl, fun _ => ⟨_, rfl, rfl, rfl⟩⟩
    | some range =>
        rw [hrange] at h
        simp only at h ⊢
        by_cases hkind : range = "line".toList
        · rw [if_pos hkind] at h ⊢
          obtain ⟨-, rfl⟩ := Prod.mk.inj (Option.some.inj h)
          exact ⟨.same rfl rfl, fun _ => ⟨_, rfl, rfl, rfl⟩⟩
        · rw [if_neg hkind] at h ⊢
          obtain ⟨-, rfl⟩ := Prod.mk.inj (Option.some.inj h)
          exact ⟨.same rfl rfl, fun _ => ⟨_, rfl, rfl, rfl⟩⟩

theorem addCommandUnique_shows :
    Shows (fun parse s l => addCommandUnique parse c s l) (uniqueExtent c) := by
  unfold addCommandUnique uniqueExtent
  refine shows_ite addArg_shows (shows_ite (addRange_shows _ _ _) (shows_ite
    (addRange_shows _ _ _) (shows_ite addPar_shows (shows_ite (addRange_shows _ _ _) (shows_ite
    addOverload_shows (shows_ite (addRange_shows _ _ _) (shows_ite addRef_reads.shows (shows_ite
    (addRange_shows _ _ _) (shows_ite addVerbatim_shows ?_)))))))))
  exact shows_ite (addRange_shows _ _ _) (shows_ite (addRange_shows _ _ _) (shows_ite
    (addRange_shows _ _ _) (shows_ite (addIf_shows true) (shows_ite (addIf_shows false)
    (stays_reads id).shows))))

/-- So has a command. -/
theorem addCommand_shows {parse : List Token → DoxygenParser → Handled} (hparse : Honest parse)
    {l l' : List DoxygenEntity} {commandString : List Char}
    (h : addCommand parse s l features commandString = some (l', s')) :
    Grows s s' ∧ (Clean s' → ∃ x ends, commandExtent features s.ends commandString s.rest =
      some (x, ends) ∧ s'.rest = x.final ∧ Chain parse ends x.start x.stops s'.ends) := by
  simp only [addCommand] at h
  simp only [commandExtent]
  by_cases htext : stringToLower commandString = "plainstd::string".toList
  · rw [if_pos htext] at h ⊢
    obtain ⟨p, hp, heq⟩ := Option.map_eq_some_iff.1 h
    obtain ⟨-, rfl⟩ := Prod.mk.inj heq
    exact ⟨.same rfl rfl, fun _ => ⟨.words p.2, s.ends, by rw [hp]; rfl, rfl, rfl⟩⟩
  · rw [if_neg htext] at h ⊢
    generalize commandBelongs features.toFeatures s.ends commandString = found at h ⊢
    obtain ⟨kind, ends₂⟩ := found
    have hshown : ∀ {handler : (List Token → DoxygenParser → Handled) → DoxygenParser →
        List DoxygenEntity → Handled} {extent : List Token → Option Extent},
        Shows handler extent → handler parse { s with ends := ends₂ } l = some (l', s') →
        Grows s s' ∧ (Clean s' → ∃ x ends, (extent s.rest).map (·, ends₂) = some (x, ends) ∧
          s'.rest = x.final ∧ Chain parse ends x.start x.stops s'.ends) := by
      intro handler extent hshows hs'
      obtain ⟨hgrows, htaken⟩ := hshows parse hparse { s with ends := ends₂ } l l' s' hs'
      refine ⟨⟨hgrows.calls, hgrows.blocks⟩, fun hclean => ?_⟩
      obtain ⟨x, hx, hrest, hchain⟩ := htaken hclean
      have hextent : extent s.rest = some x := hx
      exact ⟨x, ends₂, by rw [hextent]; rfl, hrest, hchain⟩
    cases kind with
    | none => exact hshown (stays_reads id).shows h
    | simpleCommand => exact hshown (stays_reads fun l => l ++ [_]).shows h
    | commandWord => exact hshown addCommandWord_reads.shows h
    | commandLine => exact hshown (addRange_shows _ _ _) h
    | commandParagraph => exact hshown (addRange_shows _ _ _) h
    | commandEndCommand => exact hshown addCommandEndCommand_shows h
    | commandWordParagraph => exact hshown (addRange_shows _ _ _) h
    | commandWordLine => exact hshown (addRange_shows _ _ _) h
    | commandWordOWordWord => exact hshown (addRange_shows _ _ _) h
    | commandOWord => exact hshown (addRange_shows _ _ _) h
    | commandErrorThrow => exact hshown addCommandErrorThrow_reads.shows h
    | commandUnique => exact hshown addCommandUnique_shows h
    | commandHtml => exact hshown addCommandHtml_reads.shows h
    | commandHtmlEntity => exact hshown (stays_reads fun l => l ++ [_]).shows h
    | commandAlias => exact hshown (stays_reads fun l => l ++ [_]).shows h
    | commandIgnore => exact hshown ignoreCommand_shows h

end Handlers

/-! ## `parse` -/

section Parse

variable {root : Bool} {ends ends₁ ends₂ ends' : List (List Char)} {stop : List Token}
  {stops : List (List Token)} {x : Extent} {fuel : Nat} {l l' : List DoxygenEntity}

theorem nestedParse_honest (hgrows : ∀ stop l s l' s',
    parse features fuel false l stop s = some (l', s') → Grows s s') :
    Honest (nestedParse (parse features fuel false [])) := by
  intro stop s l s' h
  rw [nestedParse] at h
  obtain ⟨⟨l₁, s₁⟩, hs₁, heq⟩ := Option.map_eq_some_iff.1 h
  obtain ⟨-, rfl⟩ := Prod.mk.inj heq
  refine ⟨(hgrows stop [] s l₁ s₁ hs₁).trans (.withCall _), fun hclean => ?_⟩
  exact (hclean.calls ⟨s.rest, stop, s₁.rest⟩
    (List.mem_append_right _ (List.mem_singleton_self _))).1

/-- A turn that leaves a clean record has taken its extent. -/
theorem turn_shows (hhonest : Honest (nestedParse (parse features fuel false [])))
    (hlen : s.rest.length ≠ stop.length)
    (h : parse features (fuel + 1) root l stop s = some (l', s')) :
    ∃ l₁ s₁, nextTurn features fuel root stop l₁ s₁ = some (l', s') ∧ Grows s s₁ ∧
      (Clean s₁ → ∃ x ends, turnExtent features root s.ends s.rest = some (x, ends) ∧
        s₁.rest = x.final ∧
          Chain (nestedParse (parse features fuel false [])) ends x.start x.stops s₁.ends) := by
  rw [parse, if_neg hlen] at h
  cases hrest : s.rest with
  | nil =>
      rw [hrest] at h
      cases h
  | cons t ts =>
      rw [hrest] at h
      simp only [turnExtent]
      cases htype : t.type with
      | endLine =>
          simp only [htype] at h
          exact ⟨_, s.moved ts, h, .same rfl rfl, fun _ => ⟨.words ts, s.ends, rfl, rfl, rfl⟩⟩
      | command =>
          simp only [htype, Option.bind_eq_bind] at h
          obtain ⟨⟨l₁, s₁⟩, hs₁, hnext⟩ := Option.bind_eq_some_iff.1 h
          obtain ⟨hgrows, htaken⟩ := addCommand_shows hhonest hs₁
          exact ⟨l₁, s₁, hnext, ⟨hgrows.calls, hgrows.blocks⟩, htaken⟩
      | plainString =>
          simp only [htype, Option.bind_eq_bind] at h
          obtain ⟨⟨l₁, s₁⟩, hs₁, hnext⟩ := Option.bind_eq_some_iff.1 h
          obtain ⟨hgrows, htaken⟩ := addCommand_shows hhonest hs₁
          rw [hrest] at htaken
          exact ⟨l₁, s₁, hnext, hgrows, htaken⟩

theorem parse_grows (h : parse features fuel root l stop s = some (l', s')) : Grows s s' := by
  induction fuel generalizing root l stop s l' s' with
  | zero => cases h
  | succ fuel ih =>
      by_cases hlen : s.rest.length = stop.length
      · rw [parse, if_pos hlen] at h
        obtain ⟨-, rfl⟩ := Prod.mk.inj (Option.some.inj h)
        exact .same rfl rfl
      · obtain ⟨l₁, s₁, hnext, hgrows, -⟩ :=
          turn_shows (nestedParse_honest fun _ _ _ _ _ => ih) hlen h
        rw [nextTurn] at hnext
        split at hnext
        · obtain ⟨-, rfl⟩ := Prod.mk.inj (Option.some.inj hnext)
          exact hgrows.trans (.same rfl rfl)
        · exact hgrows.trans (ih hnext)

/-- From an end that is reached on to the next ones. -/
theorem Fits.append (h : Fits features root ends r [stop] ends₁)
    (h' : Fits features root ends₁ stop stops ends') :
    Fits features root ends r (stop :: stops) ends' := by
  obtain ⟨first, hfirst⟩ : ∃ first, first = [stop] := ⟨_, rfl⟩
  rw [← hfirst] at h
  induction h with
  | none => cases hfirst
  | reached hrest _ =>
      obtain ⟨rfl, rfl⟩ := List.cons.inj hfirst
      cases hrest
      exact .reached h'
  | turn hne hextent hwithin hinside _ _ ih =>
      obtain ⟨rfl, rfl⟩ := List.cons.inj hfirst
      exact .turn hne hextent hwithin hinside (ih h' rfl)

/-- What is reached lies in front. -/
theorem Fits.forward (h : Fits features root ends r (stop :: stops) ends') : stop <:+ r := by
  obtain ⟨enough, ends₁, hparse, -⟩ := h.reaches
  obtain ⟨l, s', -, hstop, -, hgoes⟩ := hparse enough (Nat.le_refl _) []
    (.start ends r) rfl rfl
  rw [← hstop]
  exact hgoes.forward

theorem chain_fits (ih : ∀ {l stop s l' s'}, parse features fuel false l stop s = some (l', s') →
      Clean s' → s'.rest = stop → Fits features false s.ends s.rest [stop] s'.ends)
    (h : Chain (nestedParse (parse features fuel false [])) ends r stops ends') :
    Fits features false ends r stops ends' := by
  induction stops generalizing ends r with
  | nil =>
      obtain rfl : ends' = ends := h
      exact .none
  | cons stop stops ihstops =>
      obtain ⟨s, l, s', rfl, rfl, hs', hclean, hstop, hchain⟩ := h
      rw [nestedParse] at hs'
      obtain ⟨⟨l₁, s₁⟩, hs₁, heq⟩ := Option.map_eq_some_iff.1 hs'
      obtain ⟨-, rfl⟩ := Prod.mk.inj heq
      exact (ih hs₁ (hclean.before (.withCall _)) hstop).append (ihstops hchain)

/-- A run with a clean record that reaches its end is one over extents that nest. -/
theorem parse_fits (h : parse features fuel root l stop s = some (l', s')) (hclean : Clean s')
    (hstop : s'.rest = stop) : Fits features root s.ends s.rest [stop] s'.ends := by
  induction fuel generalizing root l stop s l' s' with
  | zero => cases h
  | succ fuel ih =>
      by_cases hlen : s.rest.length = stop.length
      · rw [parse, if_pos hlen] at h
        obtain ⟨-, rfl⟩ := Prod.mk.inj (Option.some.inj h)
        rw [hstop]
        exact .reached .none
      · obtain ⟨l₁, s₁, hnext, -, htaken⟩ :=
          turn_shows (nestedParse_honest fun _ _ _ _ _ => parse_grows) hlen h
        rw [nextTurn] at hnext
        split at hnext
        · next hbreak =>
            obtain ⟨-, rfl⟩ := Prod.mk.inj (Option.some.inj hnext)
            exact absurd (hstop.symm.trans hbreak.2) hbreak.1
        · obtain ⟨x, ends, hextent, hfinal, hchain⟩ :=
            htaken (hclean.before (parse_grows hnext))
          have hrest := ih hnext hclean hstop
          rw [hfinal] at hrest
          exact .turn hlen hextent hrest.forward (chain_fits ih hchain) hrest

/-- Every call of `parse` by a handler ends where it was to end, every block is closed by its
own end command, and every token is gone past once, in order. -/
def ConsumedRight (features : ParserFeatures) (ends : List (List Char)) (toks : List Token) :
    Prop :=
  ∃ enough, ∀ fuel ≥ enough, ∃ l s',
    parse features fuel true [] [] (.start ends toks) = some (l, s') ∧ s'.rest = [] ∧
      s'.consumed = toks ∧ (∀ c ∈ s'.calls, c.Exact) ∧ ∀ b ∈ s'.blocks, b.Closed

/-- It is so where the extents of the commands nest, and only there. -/
theorem parse_consumes (features : ParserFeatures) (ends : List (List Char)) (toks : List Token) :
    ConsumedRight features ends toks ↔ ∃ ends', Fits features true ends toks [[]] ends' := by
  constructor
  · rintro ⟨enough, h⟩
    obtain ⟨l, s', hs', hend, -, hcalls, hblocks⟩ := h enough (Nat.le_refl _)
    exact ⟨s'.ends, parse_fits hs' ⟨hcalls, hblocks⟩ hend⟩
  · rintro ⟨ends', h⟩
    obtain ⟨enough, ends₁, hparse, -⟩ := h.reaches
    refine ⟨enough, fun fuel hfuel => ?_⟩
    obtain ⟨l, s', hs', hend, -, hgoes⟩ := hparse fuel hfuel [] (.start ends toks) rfl rfl
    refine ⟨l, s', hs', hend, ?_, fun c hc => ?_, fun b hb => ?_⟩
    · have hconsumed := hgoes.consumed
      rw [hend, List.append_nil] at hconsumed
      exact hconsumed
    · exact (hgoes.calls c hc).resolve_left List.not_mem_nil
    · exact (hgoes.blocks b hb).resolve_left List.not_mem_nil

end Parse

/-! ## Two comments -/

def plainFeatures : ParserFeatures where
  aliased := fun _ => false
  ignored := fun _ => false
  endCommand := fun _ => []
  aliasText := fun _ => []
  range := fun _ => none
  contents := fun _ => none

def command (name : String) : Token := ⟨.command, name.toList⟩

def word (text : String) : Token := ⟨.plainString, text.toList⟩

def lineEnd : Token := ⟨.endLine, ['\n']⟩

/-- `\if c \link x \endlink \else \endif`. -/
def nestedBlocks : List Token :=
  [command "if", word "c", command "link", word "x", command "endlink", command "else",
    command "endif", lineEnd]

theorem nestedBlocks_fits : Fits plainFeatures true [] nestedBlocks [[]] [] := by
  have hword : turnExtent plainFeatures false [] (nestedBlocks.drop 3) =
      some (.words (nestedBlocks.drop 4), []) := by decide +kernel
  have hlink : turnExtent plainFeatures false [] (nestedBlocks.drop 2) =
      some (⟨nestedBlocks.drop 3, [nestedBlocks.drop 4], nestedBlocks.drop 5⟩, []) := by
    decide +kernel
  have hline : turnExtent plainFeatures true [] [lineEnd] = some (.words [], []) := rfl
  have helse : turnExtent plainFeatures true [] (nestedBlocks.drop 5) =
      some (⟨nestedBlocks.drop 6, [nestedBlocks.drop 6], [lineEnd]⟩, []) := by decide +kernel
  have hif : turnExtent plainFeatures true [] nestedBlocks =
      some (⟨nestedBlocks.drop 2, [nestedBlocks.drop 5], nestedBlocks.drop 5⟩, []) := by
    decide +kernel
  have hinside : Fits plainFeatures false [] (nestedBlocks.drop 3) [nestedBlocks.drop 4] [] :=
    .turn (by decide) hword List.suffix_rfl .none (.reached .none)
  have hbranch : Fits plainFeatures false [] (nestedBlocks.drop 2) [nestedBlocks.drop 5] [] :=
    .turn (by decide) hlink List.suffix_rfl hinside (.reached .none)
  have hend : Fits plainFeatures true [] [lineEnd] [[]] [] :=
    .turn (by decide) hline List.suffix_rfl .none (.reached .none)
  have hother : Fits plainFeatures true [] (nestedBlocks.drop 5) [[]] [] :=
    .turn (by decide) helse List.nil_suffix (.reached .none) hend
  exact .turn (by decide) hif List.nil_suffix hbranch hother

/-- The condition and both branches are taken to their ends. -/
theorem nestedBlocks_consumed : ConsumedRight plainFeatures [] nestedBlocks :=
  (parse_consumes plainFeatures [] nestedBlocks).2 ⟨[], nestedBlocks_fits⟩

/-- `\name \c`, and the word on the next line. -/
def wordOnNextLine : List Token :=
  [command "name", command "c", lineEnd, word "really", lineEnd]

/-- `\link\endlink`, and one `\endlink` more on the next line. -/
def emptyLink : List Token :=
  [command "link", command "endlink", lineEnd, command "endlink", lineEnd]

/-- The line of `\name` is parsed up to the end of the comment; and the empty link is closed by
the other end command. -/
theorem line_overrun :
    (parse plainFeatures 20 true [] [] (.start [] wordOnNextLine)).map (fun r => r.2.calls) =
        some [⟨wordOnNextLine.drop 1, wordOnNextLine.drop 2, []⟩] ∧
      ¬ Call.Exact ⟨wordOnNextLine.drop 1, wordOnNextLine.drop 2, []⟩ ∧
      (parse plainFeatures 20 true [] [] (.start [] emptyLink)).map (fun r => r.2.blocks) =
        some [⟨.parsed "link".toList "endlink".toList, emptyLink.drop 1, some (emptyLink.drop 3)⟩] ∧
      ¬ Block.Closed ⟨.parsed "link".toList "endlink".toList, emptyLink.drop 1,
        some (emptyLink.drop 3)⟩ := by
  refine ⟨by decide +kernel, fun h => ?_, by decide +kernel, fun h => ?_⟩
  · exact absurd h.1 (by decide)
  · exact absurd h.2 (by decide)

end Swig4Ada.Doxygen

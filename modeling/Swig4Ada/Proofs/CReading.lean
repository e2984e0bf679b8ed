import Swig4Ada.Proofs.Reading
import Swig4Ada.Preprocessor.Groups

/-!
# The reading of C and that of the machine

Where C has spliced nothing that the machine reads apart, and begins its directives where the
machine does, the two readings of a text stay together (`agrees_next`), and a directive ends
in both at the same character (`agrees_ends`).
-/

namespace Swig4Ada.Preprocessor

variable {σ : Type} {W : FileWorld σ}

/-! ## The text as C reads it and as the machine does -/

/-- The reading that goes with a place. -/
def Matches (r : Reading) : Place → Prop
  | .line _ => r = .lineStart ∨ r = .text
  | .slash _ => r = .slash
  | .literal quote escaped => r = .literal quote escaped
  | .lineComment => r = .lineComment
  | .blockComment _ star => r = .blockComment star
  | .directive part => ∃ previous, r = .directive part previous

def Place.Quoted : Place → Prop
  | literal quote _ | directive (.literal quote _) => isQuote quote = true
  | _ => True

/-- Reading and place go together, and at the same backslash. -/
structure Agrees (r : Reading) (q : CReading) : Prop where
  place : Matches r q.here
  quoted : q.place.Quoted
  backslash : q.place.inDirective = true → (r.behindBackslash = true ↔ q.behindBackslash = true)

variable {r : Reading} {q : CReading} {place : Place} {c : Char}

theorem inDirective_of_matches (h : Matches r place) : r.inDirective = place.inDirective := by
  cases place with
  | line _ => rcases h with h | h <;> (subst h; rfl)
  | directive _ =>
      obtain ⟨previous, h⟩ := h
      subst h
      rfl
  | slash _ | literal _ _ | lineComment | blockComment _ _ =>
      subst h
      rfl

theorem isQuote_ne {quote : Char} (h : isQuote quote = true) : '\\' ≠ quote := by
  rintro rfl
  exact absurd h (by decide)

theorem lineNext_matches (blank : Bool) (hhash : c = '#' → blank = false) :
    Matches (Reading.textNext c) (Place.lineNext blank c) := by
  rw [Reading.textNext, Place.lineNext]
  by_cases hbreak : c = '\n'
  · rw [if_pos hbreak, if_pos hbreak]
    exact .inl rfl
  have hnot : ¬ (c = '#' ∧ blank = true) := by
    rintro ⟨hc, hblank⟩
    rw [hhash hc] at hblank
    exact Bool.false_ne_true hblank
  rw [if_neg hbreak, if_neg hbreak, if_neg hnot]
  split
  · rfl
  split
  · rfl
  · exact .inr rfl

/-- At a character that splices no line. -/
theorem next_matches (h : Matches r place)
    (hhash : c = '#' → ∀ blank, place = .line blank → (r = .lineStart ↔ blank = true))
    (hliteral : c = '\n' → place.inLiteral = false)
    (hends : r.ends c = place.ends c) : Matches (r.next c) (place.next c) := by
  cases place with
  | line blank =>
      rw [Place.next]
      by_cases hstart : r = .lineStart
      · subst hstart
        rw [Reading.next]
        by_cases hc : c = '#'
        · have hblank : blank = true := (hhash hc blank rfl).1 rfl
          rw [if_pos hc, Place.lineNext, if_neg (by rw [hc]; decide), if_pos ⟨hc, hblank⟩]
          exact ⟨c, rfl⟩
        rw [if_neg hc]
        by_cases hspace : isSpace c = true
        · rw [if_pos hspace, Place.lineNext]
          have hslash : c ≠ '/' := by rintro rfl; exact absurd hspace (by decide)
          have hquote : ¬ isQuote c = true := by
            rw [isQuote, Bool.or_eq_true, decide_eq_true_iff, decide_eq_true_iff]
            rintro (rfl | rfl) <;> exact absurd hspace (by decide)
          have hnot : ¬ (c = '#' ∧ blank = true) := fun hand => hc hand.1
          rw [if_neg hnot, if_neg hslash, if_neg hquote]
          split <;> exact .inl rfl
        · rw [if_neg hspace]
          exact lineNext_matches blank fun h => absurd h hc
      · obtain rfl := h.resolve_left hstart
        refine lineNext_matches blank fun hc => ?_
        rw [← Bool.not_eq_true]
        exact fun hblank => hstart ((hhash hc blank rfl).2 hblank)
  | slash blank =>
      obtain rfl := h
      rw [Reading.next, Place.next]
      split
      · rfl
      split
      · rfl
      · exact lineNext_matches false fun _ => rfl
  | literal quote escaped =>
      obtain rfl := h
      have hbreak : c ≠ '\n' := fun hc => Bool.noConfusion (hliteral hc)
      rw [Reading.next, Place.next, if_neg hbreak]
      split
      · rfl
      split
      · exact .inr rfl
      · rfl
  | lineComment =>
      obtain rfl := h
      rw [Reading.next, Place.next]
      split
      · exact .inl rfl
      · rfl
  | blockComment blank star =>
      obtain rfl := h
      rw [Reading.next, Place.next]
      split
      · exact .inr rfl
      · rfl
  | directive part =>
      obtain ⟨previous, rfl⟩ := h
      rw [Reading.next, Place.next, hends]
      split
      · exact .inl rfl
      · exact ⟨c, rfl⟩

theorem ends_of_matches (h : Matches r place)
    (hback : place.inDirective = true → c = '\n' → r.behindBackslash = false) :
    r.ends c = place.ends c := by
  have hout : place.inDirective = false → r.ends c = place.ends c := by
    intro hplace
    rw [Reading.not_ends_of_not_inDirective ((inDirective_of_matches h).trans hplace)]
    cases place with
    | directive _ => cases hplace
    | _ => rfl
  cases place with
  | directive part =>
      obtain ⟨previous, rfl⟩ := h
      rw [Reading.ends, Place.ends]
      by_cases hc : c = '\n'
      · have hprevious := hback rfl hc
        rw [Reading.behindBackslash, decide_eq_false_iff_not] at hprevious
        rw [decide_eq_true hprevious, Bool.and_true]
      · rw [decide_eq_false hc, Bool.false_and, Bool.false_and]
  | _ => exact hout rfl

/-- A backslash is no end of a directive and begins none. -/
theorem next_backslash_inDirective : (place.next '\\').inDirective = place.inDirective := by
  cases place with
  | line blank => rfl
  | slash blank => rfl
  | literal quote escaped =>
      rw [Place.next, if_neg (by decide)]
      repeat' split
      all_goals rfl
  | lineComment => rfl
  | blockComment blank star => cases star <;> rfl
  | directive part => rfl

theorem here_inDirective : q.here.inDirective = q.place.inDirective := by
  rw [CReading.here]
  split
  · exact next_backslash_inDirective
  · rfl

/-- A line is spliced. -/
theorem splice_matches (h : Matches r (place.next '\\')) (hquoted : place.Quoted)
    (hback : place.inDirective = true → r.behindBackslash = true) (hsplices : place.Splices) :
    Matches (r.next '\n') place := by
  cases place with
  | line blank =>
      have hline : r = .lineStart ∨ r = .text := h
      rcases hline with rfl | rfl <;> exact .inl rfl
  | slash blank => exact hsplices.elim
  | lineComment => exact hsplices.elim
  | literal quote escaped =>
      obtain rfl : escaped = false := hsplices
      rw [Place.next, if_neg (by decide), if_neg Bool.false_ne_true,
        if_neg (isQuote_ne hquoted)] at h
      obtain rfl : r = .literal quote true := h
      rfl
  | blockComment blank star =>
      obtain rfl : star = false := hsplices
      obtain rfl : r = .blockComment false := h
      rfl
  | directive part =>
      obtain ⟨previous, rfl⟩ : ∃ previous, r = .directive (part.next '\\') previous := h
      have hprevious : previous = '\\' := of_decide_eq_true (hback rfl)
      subst hprevious
      cases part with
      | plain => exact ⟨'\n', rfl⟩
      | slash => exact hsplices.elim
      | lineComment => exact ⟨'\n', rfl⟩
      | literal quote escaped =>
          obtain rfl : escaped = false := hsplices
          have hpart : (DirectivePart.literal quote false).next '\\' = .literal quote true := by
            rw [DirectivePart.next, if_neg Bool.false_ne_true, if_neg (isQuote_ne hquoted)]
            rfl
          rw [hpart]
          exact ⟨'\n', rfl⟩
      | blockComment star =>
          obtain rfl : star = false := hsplices
          exact ⟨'\n', rfl⟩

theorem plainNext_quoted (c : Char) :
    Place.Quoted (.directive (DirectivePart.plainNext c)) := by
  rw [DirectivePart.plainNext]
  split
  · exact trivial
  split
  · next hquote => exact hquote
  · exact trivial

theorem lineNext_quoted (blank : Bool) (c : Char) : (Place.lineNext blank c).Quoted := by
  rw [Place.lineNext]
  split
  · exact trivial
  split
  · exact trivial
  split
  · exact trivial
  split
  · next hquote => exact hquote
  · exact trivial

theorem next_quoted (h : place.Quoted) (c : Char) : (place.next c).Quoted := by
  cases place with
  | line blank => exact lineNext_quoted blank c
  | slash blank =>
      rw [Place.next]
      split
      · exact trivial
      split
      · exact trivial
      · exact lineNext_quoted false c
  | literal quote escaped =>
      rw [Place.next]
      split
      · exact trivial
      split
      · exact h
      split
      · exact trivial
      · exact h
  | lineComment =>
      rw [Place.next]
      split <;> exact trivial
  | blockComment blank star =>
      rw [Place.next]
      split <;> exact trivial
  | directive part =>
      rw [Place.next]
      split
      · exact trivial
      cases part with
      | plain => exact plainNext_quoted c
      | slash =>
          rw [DirectivePart.next]
          split
          · exact trivial
          split
          · exact trivial
          · exact plainNext_quoted c
      | literal quote escaped =>
          rw [DirectivePart.next]
          split
          · exact h
          split
          · exact trivial
          · exact h
      | lineComment => exact trivial
      | blockComment star =>
          rw [DirectivePart.next]
          split <;> exact trivial

/-- In a directive the character read last is known. -/
theorem next_inDirective (h : (r.next c).inDirective = true) :
    ∃ part, r.next c = .directive part c := by
  cases hr : r.inDirective with
  | false =>
      obtain ⟨rfl, rfl⟩ := (Reading.enters_iff hr).1 h
      exact ⟨.plain, rfl⟩
  | true =>
      cases r with
      | directive part previous =>
          rw [Reading.next] at h ⊢
          split at h
          · cases h
          · next hends => exact ⟨part.next c, if_neg hends⟩
      | _ => cases hr

theorem behindBackslash_next (h : (r.next c).inDirective = true) :
    (r.next c).behindBackslash = true ↔ c = '\\' := by
  obtain ⟨part, hnext⟩ := next_inDirective h
  rw [hnext]
  exact decide_eq_true_iff

theorem here_quoted (h : q.place.Quoted) : q.here.Quoted := by
  rw [CReading.here]
  split
  · exact next_quoted h _
  · exact h

/-- C and the machine's reading stay together. -/
theorem agrees_next (h : Agrees r q)
    (hhash : c = '#' → ∀ blank, q.here = .line blank → (r = .lineStart ↔ blank = true))
    (hliteral : c = '\n' → q.behindBackslash = false → q.place.inLiteral = false)
    (hsplice : c = '\n' → q.behindBackslash = true → q.place.Splices) :
    Agrees (r.next c) (q.next c) := by
  by_cases hjoin : q.behindBackslash = true ∧ c = '\n'
  · obtain ⟨hback, rfl⟩ := hjoin
    have hnext : q.next '\n' = ⟨q.place, false⟩ := if_pos ⟨hback, rfl⟩
    have hplace := h.place
    rw [CReading.here, if_pos hback] at hplace
    have hmatches : Matches (r.next '\n') q.place :=
      splice_matches hplace h.quoted (fun hin => (h.backslash hin).2 hback) (hsplice rfl hback)
    rw [hnext]
    refine ⟨hmatches, h.quoted, fun hin => ?_⟩
    rw [behindBackslash_next ((inDirective_of_matches hmatches).trans hin)]
    exact ⟨(by intro h; cases h), by intro h; cases h⟩
  -- The character is read from the place without a splice.
  have hbreak : c = '\n' → q.behindBackslash = false :=
    fun hc => Bool.eq_false_iff.2 fun hback => hjoin ⟨hback, hc⟩
  have hends : r.ends c = q.here.ends c := by
    refine ends_of_matches h.place fun hin hc => ?_
    rw [here_inDirective] at hin
    rw [Bool.eq_false_iff, ne_eq, h.backslash hin, hbreak hc]
    exact Bool.false_ne_true
  have hmatches : Matches (r.next c) (q.here.next c) := by
    refine next_matches h.place hhash (fun hc => ?_) hends
    rw [CReading.here, if_neg (by rw [hbreak hc]; exact Bool.false_ne_true)]
    exact hliteral hc (hbreak hc)
  by_cases hback : c = '\\'
  · subst hback
    have hnext : q.next '\\' = ⟨q.here, true⟩ := by rw [CReading.next, if_neg hjoin, if_pos rfl]
    rw [hnext]
    refine ⟨hmatches, here_quoted h.quoted, fun hin => ?_⟩
    rw [behindBackslash_next ((inDirective_of_matches hmatches).trans
      (next_backslash_inDirective.trans hin))]
    exact ⟨fun _ => rfl, fun _ => rfl⟩
  · have hnext : q.next c = ⟨q.here.next c, false⟩ := by
      rw [CReading.next, if_neg hjoin, if_neg hback]
    rw [hnext]
    refine ⟨hmatches, next_quoted (here_quoted h.quoted) c, fun hin => ?_⟩
    rw [behindBackslash_next ((inDirective_of_matches hmatches).trans hin)]
    exact ⟨fun h => absurd h hback, by intro h; cases h⟩

theorem agrees_ends (h : Agrees r q) : r.ends c = q.ends c := by
  rw [CReading.ends]
  cases hback : q.behindBackslash with
  | false =>
      have hhere : q.here = q.place := if_neg (by rw [hback]; exact Bool.false_ne_true)
      have hplace := h.place
      rw [hhere] at hplace
      refine (ends_of_matches hplace fun hin _ => ?_).trans (Bool.true_and _).symm
      rw [Bool.eq_false_iff, ne_eq, h.backslash hin, hback]
      exact Bool.false_ne_true
  | true =>
      rw [Bool.not_true, Bool.false_and]
      cases hin : q.place.inDirective with
      | false =>
          exact Reading.not_ends_of_not_inDirective
            ((inDirective_of_matches h.place).trans (here_inDirective.trans hin))
      | true => exact ends_backslash ((h.backslash hin).2 hback)

end Swig4Ada.Preprocessor

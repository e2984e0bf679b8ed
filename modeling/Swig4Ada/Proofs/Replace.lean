import Swig4Ada.Doh.Reference

/-!
# What the three ways to replace make of a text

In place, everything that the search for the next match looks at lies behind the last
character that has been written, when the replacement is shorter than the token. When it
is as long, the character before the place where the search begins has been written, and
the match functions for identifiers look at it. A text that grows is gone over twice, the
second time with what the first one knows about quotes.
-/

namespace Swig4Ada.Doh

/-! ## What the search looks at -/

/-- The two texts are the same from `b` on. -/
def SameFrom (b : Nat) (buf text : List Char) : Prop :=
  buf.length = text.length ∧ buf.drop b = text.drop b

namespace SameFrom

variable {b s : Nat} {buf text : List Char}

theorem mono {b' : Nat} (h : SameFrom b buf text) (hb : b ≤ b') : SameFrom b' buf text := by
  refine ⟨h.1, ?_⟩
  have hdrop := congrArg (List.drop (b' - b)) h.2
  rwa [List.drop_drop, List.drop_drop, Nat.add_sub_cancel' hb] at hdrop

theorem get (h : SameFrom b buf text) {i : Nat} (hi : b ≤ i) : buf[i]? = text[i]? := by
  have hget := congrArg (fun l => l[i - b]?) h.2
  simpa only [List.getElem?_drop, Nat.add_sub_cancel' hi] using hget

theorem findFrom_eq (h : SameFrom b buf text) (hs : b ≤ s) (p : Char → Bool) :
    findFrom p buf s = findFrom p text s := by
  rw [findFrom, findFrom, (h.mono hs).2]

theorem quoteFrom_eq (h : SameFrom b buf text) (hs : b ≤ s) :
    quoteFrom buf s = quoteFrom text s := h.findFrom_eq hs _

end SameFrom

theorem findFrom_ge {p : Char → Bool} {text : List Char} {s i : Nat}
    (h : findFrom p text s = some i) : s ≤ i := by
  rw [findFrom, Option.map_eq_some_iff] at h
  obtain ⟨k, -, rfl⟩ := h
  omega

theorem quoteFrom_ge {text : List Char} {s q : Nat} (h : quoteFrom text s = some q) : s ≤ q :=
  findFrom_ge h

theorem endQuoteLoop_ge {text : List Char} {quote fuel s q : Nat} (hs : quote ≤ s)
    (h : endQuoteLoop text quote fuel s = some q) : quote ≤ q := by
  induction fuel generalizing s with
  | zero => cases h
  | succ fuel ih =>
      rw [endQuoteLoop] at h
      split at h
      · next nl q' hnl hq =>
          have hge := findFrom_ge hnl
          have hge' := quoteFrom_ge hq
          split at h
          · split at h
            · exact ih (by omega) h
            · obtain rfl : quote = q := by simpa using h
              exact le_refl _
          · split at h
            · obtain rfl : q' = q := by simpa using h
              omega
            · exact ih (by omega) h
      · obtain rfl : quote = q := by simpa using h
        exact le_refl _
      · cases h
      · next q' _ hq =>
          have hge' := quoteFrom_ge hq
          split at h
          · obtain rfl : q' = q := by simpa using h
            omega
          · exact ih (by omega) h

theorem endQuote_ge {text : List Char} {quote q : Nat} (h : endQuote text quote = some q) :
    quote ≤ q := endQuoteLoop_ge (le_refl _) h

section Same

variable {mode : MatchMode} {token : List Char} {b : Nat} {buf text : List Char}

theorem endQuoteLoop_congr (h : SameFrom b buf text) {quote fuel s : Nat} (hb : b ≤ quote)
    (hs : quote ≤ s) : endQuoteLoop buf quote fuel s = endQuoteLoop text quote fuel s := by
  induction fuel generalizing s with
  | zero => rfl
  | succ fuel ih =>
      rw [endQuoteLoop, endQuoteLoop, h.quoteFrom_eq (by omega), h.findFrom_eq (by omega)]
      cases hnl : findFrom (· = '\n') text (s + 1) with
      | none =>
          cases hq : quoteFrom text (s + 1) with
          | none => rfl
          | some q =>
              have hge := quoteFrom_ge hq
              simp only
              rw [h.get (show b ≤ q by omega), h.get hb, h.get (show b ≤ q - 1 by omega),
                ih (by omega)]
      | some nl =>
          have hge := findFrom_ge hnl
          cases hq : quoteFrom text (s + 1) with
          | none => rfl
          | some q =>
              have hge' := quoteFrom_ge hq
              simp only
              rw [h.get (show b ≤ q by omega), h.get hb, h.get (show b ≤ q - 1 by omega),
                h.get (show b ≤ nl - 1 by omega), ih (show quote ≤ nl + 1 by omega),
                ih (show quote ≤ q by omega)]

theorem endQuote_congr (h : SameFrom b buf text) {quote : Nat} (hb : b ≤ quote) :
    endQuote buf quote = endQuote text quote := by
  rw [endQuote, endQuote, h.1]
  exact endQuoteLoop_congr h hb (le_refl _)

theorem rejects_congr (h : SameFrom b buf text) {s : Nat} (hs : b < s) (k : Nat) :
    mode.rejects buf s k = mode.rejects text s k := by
  have hbefore : identifierBefore buf s = identifierBefore text s := by
    rw [identifierBefore, identifierBefore, h.get (show b ≤ s - 1 by omega)]
  have hafter := h.get (show b ≤ s + k by omega)
  cases mode <;> simp only [MatchMode.rejects, hbefore, hafter]

theorem matchLoop_congr (h : SameFrom b buf text) {fuel s : Nat} (hs : b < s) :
    matchLoop mode token buf fuel s = matchLoop mode token text fuel s := by
  induction fuel generalizing s with
  | zero => rfl
  | succ fuel ih =>
      rw [matchLoop, matchLoop, (h.mono (Nat.le_of_lt hs)).2]
      cases strstr token (text.drop s) with
      | none => rfl
      | some k =>
          simp only
          rw [rejects_congr h (by omega), ih (by omega)]

theorem matchFrom_congr (h : SameFrom b buf text) {s : Nat} (hs : b < s) :
    matchFrom mode token buf s = matchFrom mode token text s := by
  rw [matchFrom, matchFrom, h.1]
  exact matchLoop_congr h hs

theorem skipQuotes_congr (h : SameFrom b buf text) {fuel : Nat} {q c : Option Nat}
    {noquote : Bool} (hq : ∀ i, q = some i → b ≤ i) :
    skipQuotes mode token buf fuel q c noquote = skipQuotes mode token text fuel q c noquote := by
  induction fuel generalizing q c noquote with
  | zero => rfl
  | succ fuel ih =>
      rw [skipQuotes.eq_def, skipQuotes.eq_def]
      cases q with
      | none => rfl
      | some q =>
          cases c with
          | none => rfl
          | some c =>
              have hb := hq q rfl
              simp only
              rw [endQuote_congr h hb]
              cases hend : endQuote text q with
              | none => rfl
              | some q2 =>
                  have hge := endQuote_ge hend
                  simp only
                  rw [matchFrom_congr h (show b < q2 + 1 by omega),
                    h.quoteFrom_eq (show b ≤ q2 + 1 by omega)]
                  split
                  · split
                    · rfl
                    · exact ih fun i hi => by have := quoteFrom_ge hi; omega
                  · rfl

/-- The next match is the same when the search itself finds the same. -/
theorem nextMatch_congr (h : SameFrom b buf text) {s : Nat} {noquote : Bool} (hs : b ≤ s)
    (hmatch : matchFrom mode token buf s = matchFrom mode token text s) :
    nextMatch mode token buf noquote s = nextMatch mode token text noquote s := by
  rw [nextMatch, nextMatch, hmatch, h.quoteFrom_eq hs, h.1]
  cases hq : quoteFrom text s with
  | none => rfl
  | some q =>
      simp only
      rw [skipQuotes_congr h fun i hi => by
        obtain rfl : q = i := by simpa using hi
        have := quoteFrom_ge hq
        omega]

end Same

/-! ## What the search finds -/

section Found

variable {mode : MatchMode} {token text : List Char} {s c : Nat}

theorem strstr_sound {k : Nat} {l : List Char} (h : strstr token l = some k) :
    token <+: l.drop k ∧ k + token.length ≤ l.length := by
  induction l generalizing k with
  | nil =>
      rw [strstr] at h
      split at h
      · next htoken =>
          obtain rfl : 0 = k := by simpa using h
          simp [htoken]
      · cases h
  | cons a l ih =>
      rw [strstr] at h
      split at h
      · next hprefix =>
          obtain rfl : 0 = k := by simpa using h
          have hp := List.isPrefixOf_iff_prefix.1 hprefix
          exact ⟨hp, by simpa using hp.length_le⟩
      · rw [Option.map_eq_some_iff] at h
        obtain ⟨k, hk, rfl⟩ := h
        obtain ⟨hp, hlen⟩ := ih hk
        exact ⟨hp, by rw [List.length_cons]; omega⟩

/-- Nothing is found before. -/
theorem strstr_first {k : Nat} {l : List Char} (h : strstr token l = some k) {i : Nat}
    (hi : i < k) : ¬ token <+: l.drop i := by
  induction l generalizing k i with
  | nil =>
      obtain ⟨-, hlen⟩ := strstr_sound h
      simp at hlen
      omega
  | cons a l ih =>
      rw [strstr] at h
      split at h
      · obtain rfl : 0 = k := by simpa using h
        omega
      · next hno =>
          rw [Option.map_eq_some_iff] at h
          obtain ⟨k, hk, rfl⟩ := h
          cases i with
          | zero => exact fun hp => hno (List.isPrefixOf_iff_prefix.2 hp)
          | succ i => exact ih hk (by omega)

theorem strstr_eq_none {l : List Char} : strstr token l = none ↔ ∀ i, ¬ token <+: l.drop i := by
  induction l with
  | nil =>
      rw [strstr]
      split
      · next htoken => simp [htoken]
      · next htoken => simpa using htoken
  | cons a l ih =>
      rw [strstr]
      split
      · next hprefix =>
          refine iff_of_false (by simp) fun h => h 0 (List.isPrefixOf_iff_prefix.1 hprefix)
      · next hno =>
          rw [Option.map_eq_none_iff, ih]
          constructor
          · intro h i
            cases i with
            | zero => exact fun hp => hno (List.isPrefixOf_iff_prefix.2 hp)
            | succ i => exact h i
          · exact fun h i => h (i + 1)

theorem matchLoop_sound {fuel : Nat} (h : matchLoop mode token text fuel s = some c) :
    s ≤ c ∧ token <+: text.drop c ∧ mode.rejects text c token.length = false ∧
      c + token.length ≤ max s text.length := by
  induction fuel generalizing s with
  | zero => cases h
  | succ fuel ih =>
      rw [matchLoop] at h
      cases hfind : strstr token (text.drop s) with
      | none =>
          rw [hfind] at h
          cases h
      | some k =>
          rw [hfind] at h
          simp only at h
          obtain ⟨hp, hlen⟩ := strstr_sound hfind
          rw [List.length_drop] at hlen
          split at h
          · obtain ⟨hge, hrest⟩ := ih h
            refine ⟨by omega, hrest.1, hrest.2.1, ?_⟩
            have := hrest.2.2
            omega
          · next hkeep =>
              obtain rfl : s + k = c := by simpa using h
              rw [List.drop_drop] at hp
              exact ⟨by omega, hp, by simpa using hkeep, by omega⟩

theorem matchFrom_sound (htoken : token ≠ []) (h : matchFrom mode token text s = some c) :
    s ≤ c ∧ token <+: text.drop c ∧ mode.rejects text c token.length = false ∧
      c + token.length ≤ text.length := by
  obtain ⟨hge, hp, hkeep, -⟩ := matchLoop_sound h
  refine ⟨hge, hp, hkeep, ?_⟩
  have hlen := hp.length_le
  have hpos := List.length_pos_of_ne_nil htoken
  rw [List.length_drop] at hlen
  omega

/-- The match is one that the search has found, and it is behind the last quote read. -/
theorem skipQuotes_sound {fuel : Nat} {q c' : Option Nat} {noquote : Bool} {s : Nat}
    (hc : ∀ c, c' = some c → ∃ s', s ≤ s' ∧ matchFrom mode token text s' = some c)
    (hq : ∀ i, q = some i → s ≤ i)
    (h : (skipQuotes mode token text fuel q c' noquote).1 = some c) :
    ∃ s', s ≤ s' ∧ matchFrom mode token text s' = some c := by
  induction fuel generalizing q c' noquote with
  | zero => exact hc c h
  | succ fuel ih =>
      rw [skipQuotes.eq_def] at h
      cases q with
      | none => exact hc c h
      | some q =>
          cases c' with
          | none => cases h
          | some c₁ =>
              simp only at h
              split at h
              · cases hend : endQuote text q with
                | none =>
                    rw [hend] at h
                    cases h
                | some q2 =>
                    rw [hend] at h
                    have hge := endQuote_ge hend
                    have hsq := hq q rfl
                    simp only at h
                    split at h
                    · cases h
                    · next c₂ hc₂ =>
                        refine ih (fun c hc₃ => ?_) (fun i hi => ?_) h
                        · obtain rfl : c₂ = c := by simpa using hc₃
                          split at hc₂
                          · exact ⟨q2 + 1, by omega, hc₂⟩
                          · exact hc c₂ hc₂
                        · have := quoteFrom_ge hi
                          omega
              · exact hc c h

theorem nextMatch_found {noquote : Bool} (h : (nextMatch mode token text noquote s).1 = some c) :
    ∃ s', s ≤ s' ∧ matchFrom mode token text s' = some c := by
  rw [nextMatch] at h
  have hself : ∀ c', matchFrom mode token text s = some c' →
      ∃ s', s ≤ s' ∧ matchFrom mode token text s' = some c' := fun c' hc' => ⟨s, le_refl s, hc'⟩
  split at h
  · split at h
    · exact hself c h
    · next q hq =>
        refine skipQuotes_sound hself (fun i hi => ?_) h
        obtain rfl : q = i := by simpa using hi
        exact quoteFrom_ge hq
  · exact hself c h

theorem nextMatch_sound (htoken : token ≠ []) {noquote : Bool}
    (h : (nextMatch mode token text noquote s).1 = some c) :
    s ≤ c ∧ token <+: text.drop c ∧ mode.rejects text c token.length = false ∧
      c + token.length ≤ text.length := by
  obtain ⟨s', hs', hmatch⟩ := nextMatch_found h
  obtain ⟨hge, hrest⟩ := matchFrom_sound htoken hmatch
  exact ⟨hs'.trans hge, hrest⟩

end Found

/-! ## The flag for quotes -/

theorem findFrom_eq_none {p : Char → Bool} {text : List Char} {s : Nat} :
    findFrom p text s = none ↔ ∀ i, s ≤ i → ∀ c, text[i]? = some c → p c = false := by
  rw [findFrom, Option.map_eq_none_iff, List.findIdx?_eq_none_iff]
  constructor
  · intro h i hi c hc
    refine h c (List.mem_iff_getElem?.2 ⟨i - s, ?_⟩)
    rw [List.getElem?_drop, Nat.add_sub_cancel' hi, hc]
  · intro h c hc
    obtain ⟨i, hi⟩ := List.mem_iff_getElem?.1 hc
    rw [List.getElem?_drop] at hi
    exact h (s + i) (by omega) c hi

theorem findFrom_get {p : Char → Bool} {text : List Char} {s i : Nat}
    (h : findFrom p text s = some i) : ∃ c, text[i]? = some c ∧ p c = true := by
  rw [findFrom, Option.map_eq_some_iff] at h
  obtain ⟨k, hk, rfl⟩ := h
  obtain ⟨hlt, hp, -⟩ := List.findIdx?_eq_some_iff_getElem.1 hk
  refine ⟨(text.drop s)[k], ?_, hp⟩
  rw [← List.getElem?_drop, List.getElem?_eq_getElem hlt]

theorem quoteFrom_none_mono {text : List Char} {s s' : Nat} (h : quoteFrom text s = none)
    (hs : s ≤ s') : quoteFrom text s' = none :=
  findFrom_eq_none.2 fun i hi => findFrom_eq_none.1 h i (by omega)

/-- A quote at or behind `s'` is found from there. -/
theorem quoteFrom_isSome {text : List Char} {s s' q : Nat} (h : quoteFrom text s = some q)
    (hs : s' ≤ q) : (quoteFrom text s').isSome := by
  cases hq : quoteFrom text s' with
  | some _ => rfl
  | none =>
      obtain ⟨c, hc, hp⟩ := findFrom_get h
      rw [findFrom_eq_none.1 hq q hs c hc] at hp
      cases hp

theorem quoteFrom_lt {text : List Char} {s q : Nat} (h : quoteFrom text s = some q) :
    q < text.length := by
  obtain ⟨c, hc, -⟩ := findFrom_get h
  exact (List.getElem?_eq_some_iff.1 hc).1

section Flag

variable {mode : MatchMode} {token text : List Char} {s c : Nat}

/-- When the flag is taken away there is no quote behind the match, and while it is there
one is at the match or behind it. -/
theorem skipQuotes_flag {fuel : Nat} {c₀ : Nat} {flag : Bool} (hs : s ≤ c₀ + 1)
    (hfuel : text.length < fuel + s)
    (h : skipQuotes mode token text fuel (quoteFrom text s) (some c₀) (quoteFrom text s).isSome =
      (some c, flag)) :
    (flag = false → quoteFrom text (c + 1) = none) ∧
      (flag = true → (quoteFrom text c).isSome) := by
  induction fuel generalizing s c₀ with
  | zero =>
      have hnone : quoteFrom text s = none := by
        cases hq : quoteFrom text s with
        | none => rfl
        | some q =>
            have := quoteFrom_lt hq
            have := quoteFrom_ge hq
            omega
      rw [hnone] at h
      obtain ⟨hc, rfl⟩ := Prod.mk.inj h
      obtain rfl : c₀ = c := by simpa using hc
      exact ⟨fun _ => quoteFrom_none_mono hnone hs, nofun⟩
  | succ fuel ih =>
      cases hq : quoteFrom text s with
      | none =>
          rw [hq, skipQuotes.eq_def] at h
          obtain ⟨hc, rfl⟩ := Prod.mk.inj h
          obtain rfl : c₀ = c := by simpa using hc
          exact ⟨fun _ => quoteFrom_none_mono hq hs, nofun⟩
      | some q =>
          rw [hq, skipQuotes.eq_def] at h
          simp only [Option.isSome_some] at h
          split at h
          · have hge := quoteFrom_ge hq
            cases hend : endQuote text q with
            | none =>
                rw [hend] at h
                cases h
            | some q2 =>
                rw [hend] at h
                have hge' := endQuote_ge hend
                simp only [Bool.true_and] at h
                split at h
                · cases h
                · next c₁ hc₁ =>
                    -- The match that is kept is not before the end of the quotes.
                    have hc : q2 + 1 ≤ c₁ + 1 := by
                      split at hc₁
                      · have := (matchLoop_sound hc₁).1
                        omega
                      · obtain rfl : c₀ = c₁ := by simpa using hc₁
                        omega
                    exact ih hc (by omega) h
          · next hqc =>
              obtain ⟨hc, rfl⟩ := Prod.mk.inj h
              obtain rfl : c₀ = c := by simpa using hc
              exact ⟨nofun, fun _ => quoteFrom_isSome hq (by omega)⟩

theorem nextMatch_false : nextMatch mode token text false s =
    (matchFrom mode token text s, false) := rfl

theorem nextMatch_noQuotes {noquote : Bool} (hs : quoteFrom text s = none) :
    nextMatch mode token text noquote s = (matchFrom mode token text s, false) := by
  cases noquote with
  | false => rfl
  | true =>
      rw [nextMatch, hs]
      rfl

theorem nextMatch_flag {flag : Bool} (h : nextMatch mode token text true s = (some c, flag)) :
    (flag = false → quoteFrom text (c + 1) = none) ∧
      (flag = true → (quoteFrom text c).isSome) := by
  cases hq : quoteFrom text s with
  | none =>
      rw [nextMatch_noQuotes hq] at h
      obtain ⟨hc, rfl⟩ := Prod.mk.inj h
      have hge := (matchLoop_sound hc).1
      exact ⟨fun _ => quoteFrom_none_mono hq (by omega), nofun⟩
  | some q =>
      rw [nextMatch] at h
      simp only [if_true, hq] at h
      cases hm : matchFrom mode token text s with
      | none =>
          rw [hm, skipQuotes.eq_def] at h
          cases h
      | some c₀ =>
          have hge := (matchLoop_sound hm).1
          rw [hm] at h
          have h' : skipQuotes mode token text (text.length + 1) (quoteFrom text s) (some c₀)
              (quoteFrom text s).isSome = (some c, flag) := by
            rw [hq]
            exact h
          exact skipQuotes_flag (by omega) (by omega) h'

/-- The flag as it may be at `s`: as it was given, or taken away where no quote is left. -/
def FlagAt (text : List Char) (noquote flag : Bool) (s : Nat) : Prop :=
  flag = noquote ∨ flag = false ∧ quoteFrom text s = none

theorem FlagAt.nextMatch {noquote flag : Bool} (h : FlagAt text noquote flag s) :
    (nextMatch mode token text flag s).1 = (nextMatch mode token text noquote s).1 := by
  rcases h with rfl | ⟨rfl, hs⟩
  · rfl
  · rw [nextMatch_noQuotes hs, nextMatch_noQuotes hs]

theorem FlagAt.next {noquote flag : Bool} (h : FlagAt text noquote flag s)
    (hc : (Doh.nextMatch mode token text flag s).1 = some c) {k : Nat} (hk : 0 < k) :
    FlagAt text noquote (Doh.nextMatch mode token text flag s).2 (c + k) := by
  rcases h with rfl | ⟨rfl, hs⟩
  · cases flag with
    | false => exact Or.inl rfl
    | true =>
        cases hflag : (Doh.nextMatch mode token text true s).2 with
        | true => exact Or.inl rfl
        | false =>
            have hpair : Doh.nextMatch mode token text true s = (some c, false) :=
              Prod.ext hc hflag
            exact Or.inr ⟨rfl, quoteFrom_none_mono ((nextMatch_flag hpair).1 rfl) (by omega)⟩
  · have hge := (matchLoop_sound hc).1
    exact Or.inr ⟨rfl, quoteFrom_none_mono hs (by omega)⟩

end Flag

/-! ## Places for the replacement -/

/-- The places are in the text from `s` on, one behind the other. -/
def Apart (tokenlen len : Nat) : Nat → List Nat → Prop
  | s, [] => s ≤ len
  | s, p :: ps => s ≤ p ∧ p + tokenlen ≤ len ∧ Apart tokenlen len (p + tokenlen) ps

section Places

variable {mode : MatchMode} {token rep text : List Char} {noquote : Bool} {s : Nat}

theorem matchPositions_apart (htoken : token ≠ []) {fuel : Nat} (hs : s ≤ text.length) :
    Apart token.length text.length s (matchPositions mode token text noquote fuel s) := by
  induction fuel generalizing s with
  | zero => exact hs
  | succ fuel ih =>
      rw [matchPositions]
      cases hc : (nextMatch mode token text noquote s).1 with
      | none => exact hs
      | some c =>
          obtain ⟨hge, -, -, hlen⟩ := nextMatch_sound htoken hc
          exact ⟨hge, hlen, ih hlen⟩

theorem splice_length_eq {ps : List Nat} (h : Apart token.length text.length s ps) :
    ((splice token.length rep text s ps).length : Int) =
      text.length - s + ps.length * ((rep.length : Int) - token.length) := by
  induction ps generalizing s with
  | nil =>
      have hs : s ≤ text.length := h
      rw [splice, List.length_drop, List.length_nil]
      omega
  | cons p ps ih =>
      obtain ⟨hsp, hp, hps⟩ := h
      have hrest := ih hps
      rw [splice, List.length_append, List.length_append, List.length_take, List.length_drop,
        List.length_cons, Nat.cast_succ, add_mul, one_mul]
      omega

theorem splice_length {ps : List Nat} (hle : rep.length ≤ token.length)
    (h : Apart token.length text.length s ps) :
    (splice token.length rep text s ps).length + ps.length * (token.length - rep.length) + s =
      text.length := by
  have hlen := @splice_length_eq token rep _ _ _ h
  rw [← neg_sub (token.length : Int), mul_neg, ← Nat.cast_sub hle, ← Nat.cast_mul] at hlen
  omega

/-- No match is behind the end of the text. -/
theorem matchPositions_end (htoken : token ≠ []) {fuel : Nat} (hs : text.length < s) :
    matchPositions mode token text noquote fuel s = [] := by
  cases fuel with
  | zero => rfl
  | succ fuel =>
      rw [matchPositions]
      cases hc : (nextMatch mode token text noquote s).1 with
      | none => rfl
      | some c =>
          obtain ⟨hge, -, -, hlen⟩ := nextMatch_sound htoken hc
          omega

/-- Enough fuel is as good as more. -/
theorem matchPositions_fuel (htoken : token ≠ []) {fuel fuel' : Nat}
    (hfuel : text.length < fuel + s) (hfuel' : text.length < fuel' + s) :
    matchPositions mode token text noquote fuel s =
      matchPositions mode token text noquote fuel' s := by
  induction fuel generalizing s fuel' with
  | zero => rw [matchPositions_end htoken (by omega), matchPositions_end htoken (by omega)]
  | succ fuel ih =>
      cases fuel' with
      | zero => rw [matchPositions_end htoken (by omega), matchPositions_end htoken (by omega)]
      | succ fuel' =>
          rw [matchPositions, matchPositions]
          cases hc : (nextMatch mode token text noquote s).1 with
          | none => rfl
          | some c =>
              obtain ⟨hge, -, -, hlen⟩ := nextMatch_sound htoken hc
              have := List.length_pos_of_ne_nil htoken
              exact congrArg (c :: ·) (ih (by omega) (by omega))

end Places

/-! ## Writing to the buffer -/

section Write

variable (buf seg : List Char) {t b : Nat}

theorem writeAt_length (h : t + seg.length ≤ buf.length) :
    (writeAt buf t seg).length = buf.length := by
  rw [writeAt, List.length_append, List.length_append, List.length_take, List.length_drop]
  omega

theorem writeAt_take (ht : t ≤ buf.length) :
    (writeAt buf t seg).take (t + seg.length) = buf.take t ++ seg := by
  have hlen : (buf.take t ++ seg).length = t + seg.length := by
    rw [List.length_append, List.length_take, Nat.min_eq_left ht]
  rw [writeAt, ← hlen, List.take_left]

theorem writeAt_drop (ht : t ≤ buf.length) (hb : t + seg.length ≤ b) :
    (writeAt buf t seg).drop b = buf.drop b := by
  have hlen : (buf.take t ++ seg).length = t + seg.length := by
    rw [List.length_append, List.length_take, Nat.min_eq_left ht]
  obtain ⟨d, rfl⟩ : ∃ d, b = t + seg.length + d := ⟨b - (t + seg.length), by omega⟩
  rw [writeAt, ← hlen, List.drop_length_add_append, hlen, List.drop_drop]

/-- What is written is there already. -/
theorem writeAt_self (n : Nat) : writeAt buf t ((buf.drop t).take n) = buf := by
  rw [writeAt, List.length_take, List.length_drop, List.append_assoc]
  conv_rhs => rw [← List.take_append_drop t buf, ← List.take_append_drop n (buf.drop t)]
  rw [List.drop_drop]
  congr 2
  rcases Nat.le_total n (buf.length - t) with h | h
  · rw [Nat.min_eq_left h]
  · rw [Nat.min_eq_right h, List.drop_eq_nil_of_le (by omega), List.drop_eq_nil_of_le (by omega)]

/-- What is before the place that is written is kept. -/
theorem writeAt_take_of_le (ht : t ≤ buf.length) (hb : b ≤ t) :
    (writeAt buf t seg).take b = buf.take b := by
  rw [writeAt, List.append_assoc, List.take_append_of_le_length, List.take_take,
    Nat.min_eq_left hb]
  rw [List.length_take]
  omega

end Write

/-! ## In place -/

section InPlace

variable {mode : MatchMode} {token rep buf text : List Char} {noquote : Bool} {s t : Nat}

/-- Behind a replacement of the same length only the character before is another one. -/
theorem rejects_eq (h : SameFrom s buf text)
    (hbuf : buf[s - 1]? = rep.getLast?) (htext : text[s - 1]? = token.getLast?)
    (hoccurs : token <+: text.drop s) (hund : ¬ mode.disturbed token text rep s) :
    mode.rejects buf s token.length = mode.rejects text s token.length := by
  have hafter := h.get (show s ≤ s + token.length by omega)
  have hends : ¬ (endsIdentifier token ≠ endsIdentifier rep) →
      identifierBefore buf s = identifierBefore text s := by
    intro hsame
    rw [identifierBefore, identifierBefore, hbuf, htext]
    have := not_not.1 hsame
    rw [endsIdentifier, endsIdentifier] at this
    rw [this]
  cases mode with
  | simple => rfl
  | identifierEnd => simp only [MatchMode.rejects, hafter]
  | numberEnd => simp only [MatchMode.rejects, hafter]
  | identifierBegin => exact hends fun hne => hund ⟨Or.inl rfl, hoccurs, hne⟩
  | identifier =>
      simp only [MatchMode.rejects, hafter]
      cases hid : text[s + token.length]?.any isIdentifierChar with
      | true => rw [Bool.or_true, Bool.or_true]
      | false => rw [hends fun hne => hund ⟨Or.inr ⟨rfl, hid⟩, hoccurs, hne⟩]

/-- A replacement that disturbs the match behind it changes what the search finds there. -/
theorem rejects_ne (h : SameFrom s buf text) (hs : 0 < s)
    (hbuf : buf[s - 1]? = rep.getLast?) (htext : text[s - 1]? = token.getLast?)
    (hdisturbed : mode.disturbed token text rep s) :
    mode.rejects buf s token.length = !mode.rejects text s token.length := by
  have hafter := h.get (show s ≤ s + token.length by omega)
  obtain ⟨hmode, -, hne⟩ := hdisturbed
  have hends : identifierBefore buf s = !identifierBefore text s := by
    rw [identifierBefore, identifierBefore, hbuf, htext]
    rw [endsIdentifier, endsIdentifier] at hne
    rw [decide_eq_true hs, Bool.true_and, Bool.true_and]
    exact Bool.eq_not.2 hne.symm
  rcases hmode with rfl | ⟨rfl, hid⟩
  · exact hends
  · simp only [MatchMode.rejects, hafter, hid, Bool.or_false]
    exact hends

theorem matchFrom_undisturbed (h : SameFrom s buf text) (htoken : token ≠ [])
    (hbuf : buf[s - 1]? = rep.getLast?) (htext : text[s - 1]? = token.getLast?)
    (hund : ¬ mode.disturbed token text rep s) :
    matchFrom mode token buf s = matchFrom mode token text s := by
  have hpos := List.length_pos_of_ne_nil htoken
  rw [matchFrom, matchFrom, h.1, matchLoop, matchLoop, h.2]
  cases hfind : strstr token (text.drop s) with
  | none => rfl
  | some k =>
      obtain ⟨hoccurs, -⟩ := strstr_sound hfind
      have hrejects : mode.rejects buf (s + k) token.length =
          mode.rejects text (s + k) token.length := by
        cases k with
        | zero => exact rejects_eq h hbuf htext hoccurs hund
        | succ k => exact rejects_congr h (by omega) _
      simp only
      rw [hrejects, matchLoop_congr h (by omega)]

/-- The buffer before the match at `s` is replaced: what has been made of the text stands
up to `t`, and from `s` on the text is as it was. -/
structure InPlace (token rep text buf : List Char) (t s : Nat) : Prop where
  length : buf.length = text.length
  same : buf.drop s = text.drop s
  before : t ≤ s
  atMatch : token <+: text.drop s
  inside : s + token.length ≤ text.length
  even : rep.length = token.length → t = s

namespace InPlace

theorem written (h : InPlace token rep text buf t s) (hle : rep.length ≤ token.length) :
    (writeAt buf t rep).length = text.length ∧
      (writeAt buf t rep).take (t + rep.length) = buf.take t ++ rep ∧
      SameFrom (s + token.length) (writeAt buf t rep) text := by
  have ⟨hlength, hsame, hbefore, _, hinside, _⟩ := h
  have hlen := writeAt_length buf rep (t := t) (by omega)
  refine ⟨hlen.trans hlength, writeAt_take _ _ (by omega), hlen.trans hlength, ?_⟩
  rw [writeAt_drop _ _ (by omega) (by omega), ← List.drop_drop, hsame, List.drop_drop]

/-- The characters before the place of the next search. -/
theorem lastChars (h : InPlace token rep text buf s s) (heq : rep.length = token.length)
    (hpos : 0 < token.length) :
    (writeAt buf s rep)[s + token.length - 1]? = rep.getLast? ∧
      text[s + token.length - 1]? = token.getLast? := by
  have ⟨hlength, _, _, hat, hinside, _⟩ := h
  refine ⟨?_, ?_⟩
  · rw [writeAt, List.append_assoc, List.getElem?_append_right (by
      rw [List.length_take]; omega), List.length_take, List.getElem?_append_left (by omega),
      List.getLast?_eq_getElem?]
    congr 1
    omega
  · obtain ⟨rest, hrest⟩ := hat
    rw [show s + token.length - 1 = s + (token.length - 1) by omega, ← List.getElem?_drop,
      ← hrest, List.getElem?_append_left (by omega), List.getLast?_eq_getElem?]

/-- The search for the next match is not disturbed. -/
theorem nextMatch_eq (h : InPlace token rep text buf t s) (htoken : token ≠ [])
    (hle : rep.length ≤ token.length)
    (hund : rep.length = token.length → ¬ mode.disturbed token text rep (s + token.length))
    (flag : Bool) :
    nextMatch mode token (writeAt buf t rep) flag (s + token.length) =
      nextMatch mode token text flag (s + token.length) := by
  have hpos := List.length_pos_of_ne_nil htoken
  have ⟨hlength, hsame, hbefore, hat, hinside, hexact⟩ := h
  obtain ⟨hlen, htake, hfrom⟩ := h.written hle
  refine nextMatch_congr hfrom (le_refl _) ?_
  rcases Nat.lt_or_ge rep.length token.length with hlt | hge
  · -- The character before the place of the search is still there.
    refine matchFrom_congr (b := s + token.length - 1) ⟨hlen, ?_⟩ (by omega)
    rw [writeAt_drop _ _ (by omega) (by omega), show s + token.length - 1 = s + (token.length - 1) by
      omega, ← List.drop_drop, hsame, List.drop_drop]
  · have heq : rep.length = token.length := by omega
    obtain rfl := hexact heq
    obtain ⟨hbuf, htext⟩ := h.lastChars heq hpos
    exact matchFrom_undisturbed hfrom htoken hbuf htext (hund heq)

/-- The text between two matches is moved, and the next match is at `c`. -/
theorem next (h : InPlace token rep text buf t s) (hle : rep.length ≤ token.length) {c : Nat}
    (hc : s + token.length ≤ c) (hoccurs : token <+: text.drop c)
    (hinside : c + token.length ≤ text.length) :
    InPlace token rep text
        (writeAt (writeAt buf t rep) (t + rep.length)
          (((writeAt buf t rep).drop (s + token.length)).take (c - (s + token.length))))
        (t + rep.length + (c - (s + token.length))) c ∧
      (writeAt (writeAt buf t rep) (t + rep.length)
          (((writeAt buf t rep).drop (s + token.length)).take (c - (s + token.length)))).take
          (t + rep.length + (c - (s + token.length))) =
        buf.take t ++ rep ++ (text.drop (s + token.length)).take (c - (s + token.length)) := by
  have ⟨hlength, hsame, hbefore, hat, _, hexact⟩ := h
  obtain ⟨hlen, htake, -, hdrop⟩ := h.written hle
  have hseg : (((writeAt buf t rep).drop (s + token.length)).take
      (c - (s + token.length))).length = c - (s + token.length) := by
    rw [List.length_take, List.length_drop]
    omega
  refine ⟨⟨?_, ?_, by omega, hoccurs, hinside, fun heq => ?_⟩, ?_⟩
  · rw [writeAt_length _ _ (by omega), hlen]
  · rw [writeAt_drop _ _ (by omega) (by omega),
      show c = s + token.length + (c - (s + token.length)) by omega, ← List.drop_drop, hdrop,
      List.drop_drop]
  · have := hexact heq
    omega
  · have hwritten := writeAt_take (writeAt buf t rep)
      (((writeAt buf t rep).drop (s + token.length)).take (c - (s + token.length)))
      (show t + rep.length ≤ _ by omega)
    rw [hseg] at hwritten
    rw [hwritten, htake, hdrop]

/-- What is left of the text is moved. -/
theorem last (h : InPlace token rep text buf t s) (hle : rep.length ≤ token.length) :
    (if rep.length < token.length then
        writeAt (writeAt buf t rep) (t + rep.length)
          (((writeAt buf t rep).drop (s + token.length)).take
            (text.length - (s + token.length)))
      else writeAt buf t rep).take (t + rep.length + (text.length - (s + token.length))) =
      buf.take t ++ rep ++ text.drop (s + token.length) := by
  have ⟨hlength, hsame, hbefore, hat, hinside, hexact⟩ := h
  obtain ⟨hlen, htake, -, hdrop⟩ := h.written hle
  have hseg : (((writeAt buf t rep).drop (s + token.length)).take
      (text.length - (s + token.length))).length = text.length - (s + token.length) := by
    rw [List.length_take, List.length_drop]
    omega
  have hall : ((writeAt buf t rep).drop (s + token.length)).take
      (text.length - (s + token.length)) = text.drop (s + token.length) := by
    rw [hdrop, List.take_of_length_le]
    rw [List.length_drop]
  split
  · have hwritten := writeAt_take (writeAt buf t rep)
      (((writeAt buf t rep).drop (s + token.length)).take (text.length - (s + token.length)))
      (show t + rep.length ≤ _ by omega)
    rw [hseg] at hwritten
    rw [hwritten, htake, hall]
  · have heq : rep.length = token.length := by omega
    obtain rfl := hexact heq
    rw [List.take_of_length_le (by omega), ← htake, ← hdrop, heq, List.take_append_drop]

end InPlace

/-- One match is replaced. -/
theorem replaceInPlace_one (h : InPlace token rep text buf t s)
    (hle : rep.length ≤ token.length) {fuel : Nat} (flag : Bool) (rcount : Nat) :
    let answer := replaceInPlace mode token rep text.length (fuel + 1) buf t s 1 flag rcount
    answer.2 = rcount + 1 ∧
      answer.1.take (t + rep.length + (splice token.length rep text (s + token.length) []).length) =
        buf.take t ++ rep ++ splice token.length rep text (s + token.length) [] := by
  rw [replaceInPlace, if_neg (by omega), if_pos rfl, splice, List.length_drop]
  exact ⟨rfl, h.last hle⟩

/-- All matches from the one at `s` on are replaced. -/
theorem replaceInPlace_all (htoken : token ≠ []) (hle : rep.length ≤ token.length)
    {fuel fuel' : Nat} {ic : Int} {flag : Bool} (rcount : Nat)
    (h : InPlace token rep text buf t s) (hic : ic < 0)
    (hflag : FlagAt text noquote flag (s + token.length))
    (hfuel : text.length < fuel + s) (hfuel' : text.length < fuel' + (s + token.length))
    (hund : rep.length = token.length →
      ∀ p ∈ s :: matchPositions mode token text noquote fuel' (s + token.length),
        ¬ mode.disturbed token text rep (p + token.length)) :
    let answer := replaceInPlace mode token rep text.length fuel buf t s ic flag rcount
    let ps := matchPositions mode token text noquote fuel' (s + token.length)
    answer.2 = rcount + (1 + ps.length) ∧
      answer.1.take (t + rep.length + (splice token.length rep text (s + token.length) ps).length) =
        buf.take t ++ rep ++ splice token.length rep text (s + token.length) ps := by
  have hpos := List.length_pos_of_ne_nil htoken
  induction fuel generalizing rcount buf t s ic flag fuel' with
  | zero =>
      have := h.inside
      omega
  | succ fuel ih =>
      obtain ⟨fuel', rfl⟩ : ∃ n, fuel' = n + 1 := ⟨fuel' - 1, by have := h.inside; omega⟩
      have hnext := h.nextMatch_eq htoken hle (fun heq => hund heq s List.mem_cons_self) flag
      rw [replaceInPlace, if_neg (by omega), if_neg (by omega), hnext, matchPositions,
        ← hflag.nextMatch]
      cases hc : (nextMatch mode token text flag (s + token.length)).1 with
      | none =>
          have hpair : nextMatch mode token text flag (s + token.length) =
              (none, (nextMatch mode token text flag (s + token.length)).2) := Prod.ext hc rfl
          rw [hpair]
          simp only [List.length_nil, splice, List.length_drop]
          exact ⟨trivial, h.last hle⟩
      | some c =>
          obtain ⟨hge, hoccurs, -, hinside⟩ := nextMatch_sound htoken hc
          have hpair : nextMatch mode token text flag (s + token.length) =
              (some c, (nextMatch mode token text flag (s + token.length)).2) := Prod.ext hc rfl
          obtain ⟨hnew, htake⟩ := h.next hle hge hoccurs hinside
          -- The part between the matches is moved, or stands where it should already.
          have hbuf : (if rep.length < token.length then
              writeAt (writeAt buf t rep) (t + rep.length)
                (((writeAt buf t rep).drop (s + token.length)).take (c - (s + token.length)))
              else writeAt buf t rep) =
              writeAt (writeAt buf t rep) (t + rep.length)
                (((writeAt buf t rep).drop (s + token.length)).take (c - (s + token.length))) := by
            split
            · rfl
            · have heq : rep.length = token.length := by omega
              obtain rfl := h.even heq
              rw [heq, writeAt_self]
          rw [hpair]
          simp only
          rw [hbuf]
          have hps : ∀ p ∈ c :: matchPositions mode token text noquote fuel' (c + token.length),
              p ∈ s :: matchPositions mode token text noquote (fuel' + 1) (s + token.length) := by
            intro p hp
            rw [matchPositions, ← hflag.nextMatch, hc]
            exact List.mem_cons_of_mem s hp
          have hrest := ih (rcount + 1) hnew (show ic - 1 < 0 by omega) (hflag.next hc hpos)
            (by omega) (by omega) fun heq p hp => hund heq p (hps p hp)
          obtain ⟨hcount, htext⟩ := hrest
          have hseg : ((text.drop (s + token.length)).take (c - (s + token.length))).length =
              c - (s + token.length) := by
            rw [List.length_take, List.length_drop]
            omega
          rw [htake] at htext
          rw [splice, List.length_append, List.length_append, hseg]
          refine ⟨by rw [hcount, List.length_cons]; omega, ?_⟩
          simp only [List.append_assoc] at htext ⊢
          rw [← htext]
          congr 1
          omega

/-! ## A disturbed match -/

/-- Going on behind quotes never goes back. -/
theorem skipQuotes_ge {fuel : Nat} {q : Option Nat} {c₀ c : Nat} {flag : Bool}
    (h : (skipQuotes mode token text fuel q (some c₀) flag).1 = some c) : c₀ ≤ c := by
  induction fuel generalizing q c₀ flag with
  | zero =>
      obtain rfl : c₀ = c := by simpa [skipQuotes] using h
      exact le_refl _
  | succ fuel ih =>
      rw [skipQuotes.eq_def] at h
      cases q with
      | none =>
          obtain rfl : c₀ = c := by simpa using h
          exact le_refl _
      | some q =>
          simp only at h
          split at h
          · cases hend : endQuote text q with
            | none =>
                rw [hend] at h
                cases h
            | some q2 =>
                rw [hend] at h
                simp only at h
                split at h
                · cases h
                · next c₁ hc₁ =>
                    have hle := ih h
                    split at hc₁
                    · have := (matchLoop_sound hc₁).1
                      omega
                    · obtain rfl : c₀ = c₁ := by simpa using hc₁
                      exact hle
          · obtain rfl : c₀ = c := by simpa using h
            exact le_refl _

/-- The next match is not before the one that the search finds. -/
theorem nextMatch_ge {flag : Bool} {c : Nat}
    (h : (nextMatch mode token text flag s).1 = some c) :
    ∃ c₀ ≤ c, matchFrom mode token text s = some c₀ := by
  rw [nextMatch] at h
  split at h
  · split at h
    · exact ⟨c, le_refl c, h⟩
    · cases hm : matchFrom mode token text s with
      | none =>
          rw [hm, skipQuotes.eq_def] at h
          cases h
      | some c₀ =>
          rw [hm] at h
          exact ⟨c₀, skipQuotes_ge h, rfl⟩
  · exact ⟨c, le_refl c, h⟩

/-- A match where the search begins is the next one. -/
theorem nextMatch_self {flag : Bool} (h : matchFrom mode token text s = some s) :
    (nextMatch mode token text flag s).1 = some s := by
  rw [nextMatch, h]
  split
  · split
    · rfl
    · next q hq =>
        have := quoteFrom_ge hq
        rw [skipQuotes.eq_def]
        simp only
        rw [if_neg (by omega)]
  · rfl

theorem strstr_zero (htoken : token ≠ []) (hoccurs : token <+: text.drop s) :
    strstr token (text.drop s) = some 0 := by
  cases hdrop : text.drop s with
  | nil =>
      rw [hdrop, List.prefix_nil] at hoccurs
      exact absurd hoccurs htoken
  | cons a l =>
      rw [hdrop] at hoccurs
      rw [strstr, if_pos (List.isPrefixOf_iff_prefix.2 hoccurs)]

theorem matchFrom_self (htoken : token ≠ []) (hoccurs : token <+: text.drop s)
    (hkeep : mode.rejects text s token.length = false) :
    matchFrom mode token text s = some s := by
  rw [matchFrom, matchLoop, strstr_zero htoken hoccurs]
  simp only [Nat.add_zero]
  rw [if_neg (by simp [hkeep])]

theorem matchFrom_rejected (htoken : token ≠ []) (hoccurs : token <+: text.drop s)
    (hreject : mode.rejects text s token.length = true) {c : Nat}
    (h : matchFrom mode token text s = some c) : s + token.length ≤ c := by
  rw [matchFrom, matchLoop, strstr_zero htoken hoccurs] at h
  simp only [Nat.add_zero] at h
  rw [if_pos hreject] at h
  exact (matchLoop_sound h).1

/-- The last turn of the loop with a replacement of the same length. -/
theorem replaceInPlace_none (heq : rep.length = token.length) {fuel : Nat} {ic : Int}
    (hic : ic < 0) (flag : Bool) (rcount : Nat)
    (hc : (nextMatch mode token (writeAt buf s rep) flag (s + token.length)).1 = none) :
    replaceInPlace mode token rep text.length (fuel + 1) buf s s ic flag rcount =
      (writeAt buf s rep, rcount + 1) := by
  have hpair : nextMatch mode token (writeAt buf s rep) flag (s + token.length) =
      (none, (nextMatch mode token (writeAt buf s rep) flag (s + token.length)).2) :=
    Prod.ext hc rfl
  rw [replaceInPlace, if_neg (by omega), if_neg (by omega), hpair]
  simp only
  rw [if_neg (by omega)]

/-- Another turn. -/
theorem replaceInPlace_some (heq : rep.length = token.length) {fuel : Nat} {ic : Int}
    (hic : ic < 0) (flag : Bool) (rcount : Nat) {c : Nat} (hge : s + token.length ≤ c)
    (hc : (nextMatch mode token (writeAt buf s rep) flag (s + token.length)).1 = some c) :
    replaceInPlace mode token rep text.length (fuel + 1) buf s s ic flag rcount =
      replaceInPlace mode token rep text.length fuel (writeAt buf s rep) c c (ic - 1)
        (nextMatch mode token (writeAt buf s rep) flag (s + token.length)).2 (rcount + 1) := by
  have hpair : nextMatch mode token (writeAt buf s rep) flag (s + token.length) =
      (some c, (nextMatch mode token (writeAt buf s rep) flag (s + token.length)).2) :=
    Prod.ext hc rfl
  rw [replaceInPlace, if_neg (by omega), if_neg (by omega), hpair]
  simp only
  rw [if_neg (by omega), show s + rep.length + (c - (s + token.length)) = c by omega]

/-- With a replacement of the same length nothing before the match is written again. -/
theorem replaceInPlace_keeps (htoken : token ≠ []) (heq : rep.length = token.length)
    {fuel : Nat} {ic : Int} (hic : ic < 0) (flag : Bool) (rcount : Nat) {b : Nat} (hb : b ≤ s)
    (hinside : s + token.length ≤ buf.length) :
    let made := (replaceInPlace mode token rep text.length fuel buf s s ic flag rcount).1
    made.take b = buf.take b ∧ made.length = buf.length := by
  induction fuel generalizing buf s ic flag rcount with
  | zero => exact ⟨rfl, rfl⟩
  | succ fuel ih =>
      have hkeep := writeAt_take_of_le buf rep (show s ≤ buf.length by omega) hb
      have hlen := writeAt_length buf rep (show s + rep.length ≤ buf.length by omega)
      cases hc : (nextMatch mode token (writeAt buf s rep) flag (s + token.length)).1 with
      | none =>
          rw [replaceInPlace_none heq hic flag rcount hc]
          exact ⟨hkeep, hlen⟩
      | some c =>
          obtain ⟨hge, -, -, hin⟩ := nextMatch_sound htoken hc
          rw [replaceInPlace_some heq hic flag rcount hge hc]
          obtain ⟨htake, hlater⟩ := @ih (writeAt buf s rep) c (ic - 1) (by omega) _ _ (by omega) hin
          exact ⟨htake.trans hkeep, hlater.trans hlen⟩

/-- The replacement at the match stands. -/
theorem replaceInPlace_writes (htoken : token ≠ []) (heq : rep.length = token.length)
    {fuel : Nat} {ic : Int} (hic : ic < 0) (flag : Bool) (rcount : Nat)
    (hinside : s + token.length ≤ buf.length) :
    (replaceInPlace mode token rep text.length (fuel + 1) buf s s ic flag rcount).1.take
      (s + token.length) = buf.take s ++ rep := by
  have htake := writeAt_take buf rep (show s ≤ buf.length by omega)
  have hlen := writeAt_length buf rep (show s + rep.length ≤ buf.length by omega)
  rw [heq] at htake
  cases hc : (nextMatch mode token (writeAt buf s rep) flag (s + token.length)).1 with
  | none =>
      rw [replaceInPlace_none heq hic flag rcount hc]
      exact htake
  | some c =>
      obtain ⟨hge, -, -, hin⟩ := nextMatch_sound htoken hc
      rw [replaceInPlace_some heq hic flag rcount hge hc,
        (replaceInPlace_keeps htoken heq (by omega) _ _ hge hin).1]
      exact htake

theorem take_drop_of_prefix {word l : List Char} (h : word <+: l.drop s) :
    (l.drop s).take word.length = word := by
  obtain ⟨rest, hrest⟩ := h
  rw [← hrest, List.take_left]

/-- An occurrence behind the match that is not one in the buffer stays. -/
theorem replaceInPlace_rejected (htoken : token ≠ []) (heq : rep.length = token.length)
    {fuel : Nat} {ic : Int} (hic : ic < 0) {flag : Bool} {rcount : Nat}
    (hoccurs : token <+: (writeAt buf s rep).drop (s + token.length))
    (hreject : mode.rejects (writeAt buf s rep) (s + token.length) token.length = true) :
    ((replaceInPlace mode token rep text.length (fuel + 1) buf s s ic flag rcount).1.drop
      (s + token.length)).take token.length = token := by
  cases hc : (nextMatch mode token (writeAt buf s rep) flag (s + token.length)).1 with
  | none =>
      rw [replaceInPlace_none heq hic flag rcount hc]
      exact take_drop_of_prefix hoccurs
  | some c =>
      obtain ⟨c₀, hc₀, hm⟩ := nextMatch_ge hc
      have hge := matchFrom_rejected htoken hoccurs hreject hm
      obtain ⟨-, -, -, hin⟩ := nextMatch_sound htoken hc
      have hkeeps : (replaceInPlace mode token rep text.length fuel (writeAt buf s rep) c c (ic - 1)
          (nextMatch mode token (writeAt buf s rep) flag (s + token.length)).2
          (rcount + 1)).1.take (s + token.length + token.length) = (writeAt buf s rep).take _ :=
        (replaceInPlace_keeps htoken heq (by omega) _ _ (hge.trans hc₀) hin).1
      have hword := congrArg (List.drop (s + token.length)) hkeeps
      rw [List.drop_take, List.drop_take, Nat.add_sub_cancel_left] at hword
      rw [replaceInPlace_some heq hic flag rcount (by omega) hc, hword]
      exact take_drop_of_prefix hoccurs

/-- An occurrence behind the match that is one in the buffer is replaced. -/
theorem replaceInPlace_accepted (htoken : token ≠ []) (heq : rep.length = token.length)
    {fuel : Nat} {ic : Int} (hic : ic < 0) {flag : Bool} {rcount : Nat}
    (hinside : s + token.length + token.length ≤ (writeAt buf s rep).length)
    (hoccurs : token <+: (writeAt buf s rep).drop (s + token.length))
    (hkeep : mode.rejects (writeAt buf s rep) (s + token.length) token.length = false)
    (hfuel : 0 < fuel) :
    ((replaceInPlace mode token rep text.length (fuel + 1) buf s s ic flag rcount).1.drop
      (s + token.length)).take token.length = rep := by
  obtain ⟨fuel, rfl⟩ : ∃ n, fuel = n + 1 := ⟨fuel - 1, by omega⟩
  have hself : (nextMatch mode token (writeAt buf s rep) flag (s + token.length)).1 =
      some (s + token.length) := nextMatch_self (matchFrom_self htoken hoccurs hkeep)
  have hwrites : (replaceInPlace mode token rep text.length (fuel + 1) (writeAt buf s rep)
      (s + token.length) (s + token.length) (ic - 1)
      (nextMatch mode token (writeAt buf s rep) flag (s + token.length)).2
      (rcount + 1)).1.take (s + token.length + token.length) = _ :=
    replaceInPlace_writes htoken heq (by omega) _ _ hinside
  have hword := congrArg (List.drop (s + token.length)) hwrites
  have htake : ((writeAt buf s rep).take (s + token.length)).length = s + token.length := by
    rw [List.length_take]
    omega
  rw [List.drop_take, Nat.add_sub_cancel_left, List.drop_left' htake] at hword
  rw [replaceInPlace_some heq hic flag rcount (le_refl _) hself]
  exact hword

/-- The same in the text that should be made. -/
theorem splice_accepted (htoken : token ≠ []) (hoccurs : token <+: text.drop s)
    (hkeep : mode.rejects text s token.length = false) (heq : rep.length = token.length)
    {fuel : Nat} :
    (splice token.length rep text s
      (matchPositions mode token text noquote (fuel + 1) s)).take token.length = rep := by
  rw [matchPositions, nextMatch_self (matchFrom_self htoken hoccurs hkeep), splice, Nat.sub_self,
    List.take_zero, List.nil_append, ← heq, List.take_left]

theorem splice_rejected (htoken : token ≠ []) (hoccurs : token <+: text.drop s)
    (hreject : mode.rejects text s token.length = true) {fuel : Nat} :
    (splice token.length rep text s
      (matchPositions mode token text noquote (fuel + 1) s)).take token.length = token := by
  have hword := take_drop_of_prefix hoccurs
  rw [matchPositions]
  cases hc : (nextMatch mode token text noquote s).1 with
  | none => exact hword
  | some c =>
      obtain ⟨c₀, hc₀, hm⟩ := nextMatch_ge hc
      have hge := matchFrom_rejected htoken hoccurs hreject hm
      obtain ⟨-, -, -, hin⟩ := nextMatch_sound htoken hc
      have hlen : ((text.drop s).take (c - s)).length = c - s := by
        rw [List.length_take, List.length_drop]
        omega
      rw [splice, List.append_assoc, List.take_append_of_le_length (by omega), List.take_take,
        Nat.min_eq_left (by omega)]
      exact hword

/-- Once a match is disturbed the text is not what it should be. -/
theorem replaceInPlace_disturbed (htoken : token ≠ []) (heq : rep.length = token.length)
    {fuel fuel' : Nat} {ic : Int} {flag : Bool} (rcount : Nat)
    (h : InPlace token rep text buf s s) (hic : ic < 0)
    (hflag : FlagAt text noquote flag (s + token.length))
    (hfuel : text.length < fuel + s) (hfuel' : text.length < fuel' + (s + token.length))
    (hdisturbed : ∃ p ∈ s :: matchPositions mode token text noquote fuel' (s + token.length),
      mode.disturbed token text rep (p + token.length)) :
    (replaceInPlace mode token rep text.length fuel buf s s ic flag rcount).1 ≠
      buf.take s ++ rep ++ splice token.length rep text (s + token.length)
        (matchPositions mode token text noquote fuel' (s + token.length)) := by
  have hpos := List.length_pos_of_ne_nil htoken
  induction fuel generalizing rcount buf s ic flag fuel' with
  | zero =>
      have := h.inside
      omega
  | succ fuel ih =>
      obtain ⟨fuel', rfl⟩ : ∃ n, fuel' = n + 1 := ⟨fuel' - 1, by have := h.inside; omega⟩
      by_cases hhere : mode.disturbed token text rep (s + token.length)
      · obtain ⟨hbuf, htext⟩ := h.lastChars heq hpos
        obtain ⟨hlen, htake, hfrom⟩ := h.written (by omega)
        have hoccurs := hhere.2.1
        have hoccurs' : token <+: (writeAt buf s rep).drop (s + token.length) := by
          rw [hfrom.2]
          exact hoccurs
        have hinside : s + token.length + token.length ≤ text.length := by
          have := hoccurs.length_le
          rw [List.length_drop] at this
          omega
        have hne : token ≠ rep := fun e => hhere.2.2 (by rw [e])
        have hrejects := rejects_ne hfrom (by omega) hbuf htext hhere
        have hs : (buf.take s ++ rep).length = s + token.length := by
          rw [← htake, List.length_take, hlen, heq]
          have := h.inside
          omega
        -- The words behind the replacement are not the same.
        intro hmade
        have hword := congrArg (fun l => (l.drop (s + token.length)).take token.length) hmade
        rw [← hs, List.drop_left, hs] at hword
        cases hkeep : mode.rejects text (s + token.length) token.length with
        | false =>
            rw [splice_accepted htoken hoccurs hkeep heq, replaceInPlace_rejected htoken heq hic
              hoccurs' (by rw [hrejects, hkeep]; rfl)] at hword
            exact hne hword
        | true =>
            rw [splice_rejected htoken hoccurs hkeep, replaceInPlace_accepted htoken heq hic
              (by rw [hlen]; exact hinside) hoccurs' (by rw [hrejects, hkeep]; rfl)
              (by omega)] at hword
            exact hne hword.symm
      · have hnext := h.nextMatch_eq htoken (by omega) (fun _ => hhere) flag
        obtain ⟨p, hp, hpd⟩ := hdisturbed
        have hp : p ∈ matchPositions mode token text noquote (fuel' + 1) (s + token.length) := by
          rcases List.mem_cons.1 hp with rfl | hp
          · exact absurd hpd hhere
          · exact hp
        rw [matchPositions, ← hflag.nextMatch] at hp ⊢
        cases hc : (nextMatch mode token text flag (s + token.length)).1 with
        | none =>
            rw [hc] at hp
            exact absurd hp List.not_mem_nil
        | some c =>
            rw [hc] at hp
            obtain ⟨hge, hoccurs, -, hinside⟩ := nextMatch_sound htoken hc
            obtain ⟨hnew, htake⟩ := h.next (by omega) hge hoccurs hinside
            rw [heq, writeAt_self, show s + token.length + (c - (s + token.length)) = c by omega]
              at hnew htake
            rw [replaceInPlace_some heq hic flag rcount hge ((congrArg Prod.fst hnext).trans hc),
              hnext, splice]
            have hrest := ih (rcount + 1) hnew (show ic - 1 < 0 by omega) (hflag.next hc hpos)
              (by omega) (show text.length < fuel' + (c + token.length) by omega) ⟨p, hp, hpd⟩
            rw [htake] at hrest
            simpa only [List.append_assoc] using hrest

end InPlace

/-! ## A longer replacement -/

section Expand

variable {mode : MatchMode} {token rep text : List Char} {noquote flag : Bool} {s : Nat}

theorem matchSteps_none {fuel : Nat} {flag' : Bool}
    (h : nextMatch mode token text flag s = (none, flag')) :
    matchSteps mode token text (fuel + 1) flag s = [] := by
  rw [matchSteps, h]

theorem matchSteps_some {fuel c : Nat} {flag' : Bool}
    (h : nextMatch mode token text flag s = (some c, flag')) :
    matchSteps mode token text (fuel + 1) flag s =
      (c, flag') :: matchSteps mode token text fuel flag' (c + token.length) := by
  rw [matchSteps, h]

/-- The matches are the same, whatever the flag says where no quotes are left. -/
theorem matchSteps_fst (htoken : token ≠ []) {fuel : Nat} (h : FlagAt text noquote flag s) :
    (matchSteps mode token text fuel flag s).map Prod.fst =
      matchPositions mode token text noquote fuel s := by
  induction fuel generalizing flag s with
  | zero => rfl
  | succ fuel ih =>
      rw [matchSteps, matchPositions, ← h.nextMatch]
      cases hc : nextMatch mode token text flag s with
      | mk c flag' =>
          cases c with
          | none => rfl
          | some c =>
              have hnext := h.next (congrArg Prod.fst hc) (List.length_pos_of_ne_nil htoken)
              rw [hc] at hnext
              exact congrArg (c :: ·) (ih hnext)

/-- Where a match is not found behind quotes, quotes are still looked for. -/
theorem skipQuotes_none {fuel : Nat} {q : Option Nat} {c : Nat}
    (h : skipQuotes mode token text fuel q (some c) q.isSome = (none, flag)) : flag = true := by
  induction fuel generalizing q c with
  | zero => exact absurd (congrArg Prod.fst h) nofun
  | succ fuel ih =>
      cases q with
      | none => exact absurd (congrArg Prod.fst h) nofun
      | some q =>
          rw [skipQuotes] at h
          simp only [Option.isSome_some, Bool.true_and] at h
          by_cases hlt : q < c
          · rw [if_pos hlt] at h
            cases hq : endQuote text q with
            | none =>
                rw [hq] at h
                exact (congrArg Prod.snd h).symm
            | some q2 =>
                rw [hq] at h
                simp only at h
                split at h
                · exact (congrArg Prod.snd h).symm
                · exact ih h
          · rw [if_neg hlt] at h
            exact absurd (congrArg Prod.fst h) nofun

theorem nextMatch_none (h : nextMatch mode token text noquote s = (none, flag))
    (hquote : noquote = true → (quoteFrom text s).isSome)
    (hmatch : matchFrom mode token text s ≠ none) : flag = noquote := by
  cases noquote with
  | false => exact (congrArg Prod.snd h).symm
  | true =>
      obtain ⟨q, hq⟩ := Option.isSome_iff_exists.1 (hquote rfl)
      obtain ⟨c, hc⟩ := Option.ne_none_iff_exists'.1 hmatch
      rw [nextMatch, hc, if_pos rfl, hq] at h
      exact skipQuotes_none (q := some q) h

/-- One turn of the pass that counts the matches. -/
theorem countMatches_succ {fuel : Nat} {ic : Int} (hic : ic < 0) {rcount : Nat} :
    countMatches mode token text (fuel + 1) s ic flag rcount =
      match nextMatch mode token text flag s with
      | (none, _) => (rcount, flag)
      | (some c, flag') =>
          if flag = true ∧ quoteFrom text s = none then (rcount, flag)
          else countMatches mode token text fuel (c + token.length) (ic - 1) flag' (rcount + 1) := by
  rw [countMatches]
  by_cases hm : matchFrom mode token text s = none
  · rw [if_pos (Or.inr hm)]
    cases hc : nextMatch mode token text flag s with
    | mk c flag' =>
        cases c with
        | none => rfl
        | some c =>
            obtain ⟨c₀, -, hm'⟩ := nextMatch_ge (congrArg Prod.fst hc)
            rw [hm] at hm'
            exact nomatch hm'
  · have hno : ¬ (ic = 0 ∨ matchFrom mode token text s = none) := by
      rintro (h | h)
      · omega
      · exact hm h
    rw [if_neg hno]
    by_cases hquote : flag = true ∧ quoteFrom text s = none
    · rw [if_pos hquote]
      cases nextMatch mode token text flag s with
      | mk c flag' =>
          cases c with
          | none => rfl
          | some c => exact (if_pos hquote).symm
    · rw [if_neg hquote]
      cases hc : nextMatch mode token text flag s with
      | mk c flag' =>
          cases c with
          | none =>
              have hflag := nextMatch_none hc (fun h => by
                cases hq : quoteFrom text s with
                | none => exact absurd ⟨h, hq⟩ hquote
                | some q => rfl) hm
              rw [hflag]
          | some c => exact (if_neg hquote).symm

theorem countMatches_ge {fuel rcount : Nat} {ic : Int} :
    rcount ≤ (countMatches mode token text fuel s ic flag rcount).1 := by
  induction fuel generalizing s rcount ic flag with
  | zero => exact Nat.le_refl _
  | succ fuel ih =>
      rw [countMatches]
      split
      · exact Nat.le_refl _
      · split
        · exact Nat.le_refl _
        · dsimp only
          split
          · exact Nat.le_refl _
          · exact (Nat.le_succ rcount).trans ih

/-- The pass counts the matches, and the flag it leaves is the one of the last. -/
theorem countMatches_all (htoken : token ≠ []) {fuel fuel' : Nat} {ic : Int} (hic : ic < 0)
    {rcount c : Nat} (hfuel : text.length < fuel + c)
    (hfuel' : text.length < fuel' + (c + token.length))
    (hquotes : ∀ q ∈ ((c, flag) :: matchSteps mode token text fuel' flag
        (c + token.length)).dropLast, q.2 = true → (quoteFrom text (q.1 + token.length)).isSome)
    (hinside : c + token.length ≤ text.length) :
    countMatches mode token text fuel (c + token.length) ic flag rcount =
      (rcount + (matchSteps mode token text fuel' flag (c + token.length)).length,
        (((c, flag) :: matchSteps mode token text fuel' flag (c + token.length)).getLast
          (List.cons_ne_nil _ _)).2) := by
  have hpos := List.length_pos_of_ne_nil htoken
  induction fuel generalizing c flag fuel' ic rcount with
  | zero => omega
  | succ fuel ih =>
      obtain ⟨fuel', rfl⟩ : ∃ n, fuel' = n + 1 := ⟨fuel' - 1, by omega⟩
      rw [countMatches_succ hic]
      cases hc : nextMatch mode token text flag (c + token.length) with
      | mk c' flag' =>
          cases c' with
          | none => simp only [matchSteps_none hc, List.length_nil, Nat.add_zero, List.getLast_singleton]
          | some c' =>
              simp only [matchSteps_some hc] at hquotes ⊢
              obtain ⟨hge, -, -, hin⟩ := nextMatch_sound htoken (congrArg Prod.fst hc)
              have hhere := hquotes (c, flag) List.mem_cons_self
              have hgoes : ¬ (flag = true ∧ quoteFrom text (c + token.length) = none) := by
                rintro ⟨hflag, hnone⟩
                have := hhere hflag
                rw [hnone] at this
                exact nomatch this
              rw [if_neg hgoes, ih (by omega) (by omega) (show text.length < fuel' + (c' + token.length) by omega)
                (fun q hq => hquotes q (List.mem_cons_of_mem _ hq)) hin, List.length_cons]
              refine Prod.ext ?_ rfl
              show rcount + 1 + _ = rcount + (_ + 1)
              omega

/-- It ends early where a match took the last quote with it. -/
theorem countMatches_less (htoken : token ≠ []) {fuel fuel' : Nat} {ic : Int} (hic : ic < 0)
    {rcount c : Nat} (hfuel : text.length < fuel + c)
    (hfuel' : text.length < fuel' + (c + token.length))
    (hquotes : ∃ q ∈ ((c, flag) :: matchSteps mode token text fuel' flag
        (c + token.length)).dropLast, q.2 = true ∧ quoteFrom text (q.1 + token.length) = none)
    (hinside : c + token.length ≤ text.length) :
    (countMatches mode token text fuel (c + token.length) ic flag rcount).1 <
      rcount + (matchSteps mode token text fuel' flag (c + token.length)).length := by
  have hpos := List.length_pos_of_ne_nil htoken
  induction fuel generalizing c flag fuel' ic rcount with
  | zero => omega
  | succ fuel ih =>
      obtain ⟨fuel', rfl⟩ : ∃ n, fuel' = n + 1 := ⟨fuel' - 1, by omega⟩
      rw [countMatches_succ hic]
      rw [matchSteps] at hquotes ⊢
      cases hc : nextMatch mode token text flag (c + token.length) with
      | mk c' flag' =>
          rw [hc] at hquotes
          cases c' with
          | none =>
              obtain ⟨q, hq, -⟩ := hquotes
              exact absurd hq List.not_mem_nil
          | some c' =>
              obtain ⟨hge, -, -, hin⟩ := nextMatch_sound htoken (congrArg Prod.fst hc)
              simp only [List.length_cons]
              by_cases hends : flag = true ∧ quoteFrom text (c + token.length) = none
              · rw [if_pos hends]
                show rcount < _
                omega
              · obtain ⟨q, hq, hflag, hnone⟩ := hquotes
                rcases List.mem_cons.1 hq with rfl | hq
                · exact absurd ⟨hflag, hnone⟩ hends
                · rw [if_neg hends]
                  refine (ih (by omega) (by omega)
                    (show text.length < fuel' + (c' + token.length) by omega)
                    ⟨q, hq, hflag, hnone⟩ hin).trans_le ?_
                  omega

/-- The pass that builds the text, where there are matches enough. -/
theorem buildText_eq (htoken : token ≠ []) {fuel n : Nat} {ns : List Char}
    (hflag : FlagAt text noquote flag (s + token.length))
    (hfuel : text.length < fuel + (s + token.length))
    (hinside : s + token.length ≤ text.length) :
    buildText mode token rep text (n + 1) s flag ns =
      let ps := (matchPositions mode token text noquote fuel (s + token.length)).take n
      if ps.length = n then some (ns ++ rep ++ splice token.length rep text (s + token.length) ps)
      else none := by
  have hpos := List.length_pos_of_ne_nil htoken
  induction n generalizing s flag ns fuel with
  | zero =>
      simp only [List.take_zero, List.length_nil, if_pos, splice]
      rw [buildText]
      exact if_pos rfl
  | succ n ih =>
      obtain ⟨fuel, rfl⟩ : ∃ m, fuel = m + 1 := ⟨fuel - 1, by omega⟩
      rw [buildText, matchPositions, ← hflag.nextMatch]
      cases hc : nextMatch mode token text flag (s + token.length) with
      | mk c flag' =>
          cases c with
          | none =>
              simp only [List.take_nil, List.length_nil]
              rw [if_neg (by omega), if_neg (by omega)]
          | some c =>
              obtain ⟨hge, -, -, hin⟩ := nextMatch_sound htoken (congrArg Prod.fst hc)
              have hnext := hflag.next (congrArg Prod.fst hc) hpos
              rw [hc] at hnext
              simp only [List.take_succ_cons, List.length_cons, Nat.add_right_cancel_iff, splice]
              rw [if_neg (by omega), ih hnext (show text.length < fuel + (c + token.length) by omega) hin]
              simp only [List.append_assoc]

end Expand

/-! ## The result -/

section Final

variable {mode : MatchMode} {token rep text : List Char} {noquote first : Bool}

/-- The replacement is what it should be. -/
def SimpleRight (mode : MatchMode) (token rep text : List Char) (noquote first : Bool) : Prop :=
  replaceSimple mode token rep text noquote (if first then 1 else -1) =
    some (referenceReplace mode token text rep noquote first)

theorem wantedPositions_none (h : (nextMatch mode token text noquote 0).1 = none) :
    wantedPositions mode token text noquote first = [] := by
  rw [wantedPositions, matchPositions, h]
  cases first with
  | false => rfl
  | true => rfl

theorem simpleRight_none (htoken : token ≠ [])
    (h : (nextMatch mode token text noquote 0).1 = none) :
    SimpleRight mode token rep text noquote first := by
  rw [SimpleRight, referenceReplace, wantedPositions_none h, replaceSimple, if_neg htoken]
  show _ = some (text.drop 0, 0)
  rw [List.drop_zero]
  cases hm : matchFrom mode token text 0 with
  | none => rfl
  | some c =>
      simp only
      rw [h]

/-- With a match the work is done by the loops. -/
theorem replaceSimple_some (htoken : token ≠ []) {c : Nat} {flag : Bool} {count : Int}
    (h : nextMatch mode token text noquote 0 = (some c, flag)) :
    replaceSimple mode token rep text noquote count =
      if rep.length ≤ token.length then
        let answer := replaceInPlace mode token rep text.length (text.length + 1) text c c count
          flag 0
        some (answer.1.take (text.length - answer.2 * (token.length - rep.length)), answer.2)
      else
        let answer := countMatches mode token text (text.length + 1) (c + token.length) (count - 1)
          flag 1
        (buildText mode token rep text answer.1 c answer.2 (text.take c)).map
          fun ns => (ns, answer.1) := by
  obtain ⟨c₀, -, hm⟩ := nextMatch_ge (congrArg Prod.fst h)
  rw [replaceSimple, if_neg htoken, hm, h]

theorem wantedPositions_some {c : Nat} {flag : Bool}
    (h : nextMatch mode token text noquote 0 = (some c, flag)) :
    wantedPositions mode token text noquote first =
      c :: if first then [] else
        matchPositions mode token text noquote text.length (c + token.length) := by
  rw [wantedPositions, matchPositions, h]
  cases first with
  | false => rfl
  | true => rfl

theorem referenceReplace_some {c : Nat} {flag : Bool}
    (h : nextMatch mode token text noquote 0 = (some c, flag)) :
    referenceReplace mode token text rep noquote first =
      let ps := if first then [] else
        matchPositions mode token text noquote text.length (c + token.length)
      (text.take c ++ rep ++ splice token.length rep text (c + token.length) ps,
        ps.length + 1) := by
  rw [referenceReplace, wantedPositions_some h, splice, List.drop_zero, Nat.sub_zero]
  rfl

/-- What the loops in place leave is cut to its length. -/
theorem cut_eq {answer : List Char × Nat} {c : Nat} {ps : List Nat}
    (hle : rep.length ≤ token.length)
    (hapart : Apart token.length text.length (c + token.length) ps)
    (hcount : answer.2 = ps.length + 1)
    (htext : answer.1.take
        (c + rep.length + (splice token.length rep text (c + token.length) ps).length) =
      text.take c ++ rep ++ splice token.length rep text (c + token.length) ps) :
    (answer.1.take (text.length - answer.2 * (token.length - rep.length)), answer.2) =
      (text.take c ++ rep ++ splice token.length rep text (c + token.length) ps,
        ps.length + 1) := by
  have hlen := splice_length hle hapart
  refine Prod.ext ?_ hcount
  show answer.1.take _ = _
  rw [← htext, hcount, Nat.add_mul, Nat.one_mul]
  congr 1
  omega

section Found

variable {c : Nat} {flag : Bool}

theorem inPlace_first (htoken : token ≠ [])
    (h : nextMatch mode token text noquote 0 = (some c, flag)) :
    InPlace token rep text text c c := by
  obtain ⟨-, hoccurs, -, hin⟩ := nextMatch_sound htoken (congrArg Prod.fst h)
  exact ⟨rfl, rfl, le_refl c, hoccurs, hin, fun _ => rfl⟩

theorem flagAt_first (htoken : token ≠ [])
    (h : nextMatch mode token text noquote 0 = (some c, flag)) :
    FlagAt text noquote flag (c + token.length) := by
  have hnext : FlagAt text noquote (nextMatch mode token text noquote 0).2 (c + token.length) :=
    FlagAt.next (Or.inl rfl) (congrArg Prod.fst h) (List.length_pos_of_ne_nil htoken)
  rwa [h] at hnext

end Found

/-- A replacement that is not longer than the token. -/
theorem simpleRight_inPlace (htoken : token ≠ []) (hle : rep.length ≤ token.length)
    (hund : Undisturbed mode token text rep noquote first) :
    SimpleRight mode token rep text noquote first := by
  cases hc : nextMatch mode token text noquote 0 with
  | mk c flag =>
      cases c with
      | none => exact simpleRight_none htoken (congrArg Prod.fst hc)
      | some c =>
          have hpos := List.length_pos_of_ne_nil htoken
          have hplace : InPlace token rep text text c c := inPlace_first htoken hc
          rw [SimpleRight, replaceSimple_some htoken hc, if_pos hle, referenceReplace_some hc]
          refine congrArg some ?_
          cases first with
          | true =>
              obtain ⟨hcount, htext⟩ : (replaceInPlace mode token rep text.length (text.length + 1)
                  text c c 1 flag 0).2 = 0 + 1 ∧ _ := replaceInPlace_one hplace hle flag 0
              exact cut_eq hle hplace.inside hcount htext
          | false =>
              rw [Undisturbed, wantedPositions_some hc] at hund
              obtain ⟨hcount, htext⟩ : _ ∧ _ := replaceInPlace_all htoken hle 0 hplace
                (show (-1 : Int) < 0 by omega) (flagAt_first htoken hc)
                (show text.length < text.length + 1 + c by omega)
                (show text.length < text.length + (c + token.length) by omega) fun heq => hund heq rfl
              exact cut_eq hle (matchPositions_apart htoken hplace.inside)
                (hcount.trans ((Nat.zero_add _).trans (Nat.add_comm _ _))) htext

/-- One of the same length, where a match is disturbed. -/
theorem undisturbed_of_right (htoken : token ≠ [])
    (hright : SimpleRight mode token rep text noquote first) :
    Undisturbed mode token text rep noquote first := by
  intro heq hfirst p hp hdisturbed
  subst hfirst
  cases hc : nextMatch mode token text noquote 0 with
  | mk c flag =>
      cases c with
      | none =>
          rw [wantedPositions_none (congrArg Prod.fst hc)] at hp
          exact absurd hp List.not_mem_nil
      | some c =>
          have hpos := List.length_pos_of_ne_nil htoken
          have hplace : InPlace token rep text text c c := inPlace_first htoken hc
          rw [wantedPositions_some hc] at hp
          rw [SimpleRight, replaceSimple_some htoken hc, if_pos (by omega),
            referenceReplace_some hc] at hright
          have hmade := congrArg Prod.fst (Option.some.inj hright)
          have hwrong : (replaceInPlace mode token rep text.length (text.length + 1) text c c (-1)
              flag 0).1 ≠ _ :=
            replaceInPlace_disturbed htoken heq 0 hplace (by omega) (flagAt_first htoken hc)
              (show text.length < text.length + 1 + c by omega)
              (show text.length < text.length + (c + token.length) by omega) ⟨p, hp, hdisturbed⟩
          have hlen : (replaceInPlace mode token rep text.length (text.length + 1) text c c (-1)
              flag 0).1.length = text.length :=
            (replaceInPlace_keeps htoken heq (by omega) flag 0 (Nat.zero_le _) hplace.inside).2
          refine hwrong (Eq.trans ?_ hmade)
          show _ = List.take _ _
          rw [heq, Nat.sub_self, Nat.mul_zero, Nat.sub_zero]
          exact (List.take_of_length_le (Nat.le_of_eq hlen)).symm

/-! ### With a new text -/

section Longer

variable {c : Nat} {flag : Bool}

theorem matchSteps_noFlag {fuel s : Nat} {q : Nat × Bool}
    (hq : q ∈ matchSteps mode token text fuel false s) : q.2 = false := by
  induction fuel generalizing s with
  | zero => exact absurd hq List.not_mem_nil
  | succ fuel ih =>
      cases hc : matchFrom mode token text s with
      | none =>
          rw [matchSteps_none (by rw [nextMatch_false, hc])] at hq
          exact absurd hq List.not_mem_nil
      | some c =>
          rw [matchSteps_some (by rw [nextMatch_false, hc])] at hq
          rcases List.mem_cons.1 hq with rfl | hq
          · rfl
          · exact ih hq

/-- The matches behind the first one. -/
def laterSteps (mode : MatchMode) (token text : List Char) (c : Nat) (flag : Bool) :
    List (Nat × Bool) :=
  matchSteps mode token text text.length flag (c + token.length)

/-- The flag that the pass that counts leaves. -/
def lastFlag (mode : MatchMode) (token text : List Char) (c : Nat) (flag : Bool) : Bool :=
  (((c, flag) :: laterSteps mode token text c flag).getLast (List.cons_ne_nil _ _)).2

theorem laterSteps_fst (htoken : token ≠ [])
    (h : nextMatch mode token text noquote 0 = (some c, flag)) :
    (laterSteps mode token text c flag).map Prod.fst =
      matchPositions mode token text noquote text.length (c + token.length) :=
  matchSteps_fst htoken (flagAt_first htoken h)

/-- All matches are counted, and the text is built with the flag that is left. -/
theorem simpleRight_counted (htoken : token ≠ []) (hlt : token.length < rep.length)
    (h : nextMatch mode token text noquote 0 = (some c, flag))
    (hquotes : ∀ q ∈ ((c, flag) :: laterSteps mode token text c flag).dropLast,
      q.2 = true → (quoteFrom text (q.1 + token.length)).isSome) :
    SimpleRight mode token rep text noquote false ↔
      let steps := laterSteps mode token text c flag
      let plain := (matchPositions mode token text (lastFlag mode token text c flag)
        text.length (c + token.length)).take steps.length
      plain.length = steps.length ∧
        splice token.length rep text (c + token.length) plain =
          splice token.length rep text (c + token.length) (steps.map Prod.fst) := by
  have hpos := List.length_pos_of_ne_nil htoken
  obtain ⟨-, -, -, hin⟩ := nextMatch_sound htoken (congrArg Prod.fst h)
  have hcount : countMatches mode token text (text.length + 1) (c + token.length) (-1 - 1) flag 1 =
      (1 + (laterSteps mode token text c flag).length, lastFlag mode token text c flag) :=
    countMatches_all htoken (by omega) (show text.length < text.length + 1 + c by omega)
      (show text.length < text.length + (c + token.length) by omega) hquotes hin
  have hbuild : buildText mode token rep text ((laterSteps mode token text c flag).length + 1) c
      (lastFlag mode token text c flag) (text.take c) = _ :=
    buildText_eq htoken (Or.inl rfl)
      (show text.length < text.length + (c + token.length) by omega) hin
  rw [SimpleRight, replaceSimple_some htoken h, if_neg (by omega), referenceReplace_some h,
    if_neg Bool.false_ne_true, if_neg Bool.false_ne_true, hcount]
  simp only
  rw [Nat.add_comm 1, hbuild, ← laterSteps_fst htoken h, List.length_map]
  by_cases henough : ((matchPositions mode token text (lastFlag mode token text c flag)
      text.length (c + token.length)).take (laterSteps mode token text c flag).length).length =
      (laterSteps mode token text c flag).length
  · simp only [henough, if_true, Option.map_some, Option.some.injEq, Prod.mk.injEq, and_true,
      List.append_cancel_left_eq, true_and]
  · simp only [henough, if_false, Option.map_none, reduceCtorEq, false_and]

/-- Matches are left out. -/
theorem not_simpleRight_of_less (htoken : token ≠ []) (hlt : token.length < rep.length)
    (h : nextMatch mode token text noquote 0 = (some c, flag))
    (hquotes : ∃ q ∈ ((c, flag) :: laterSteps mode token text c flag).dropLast,
      q.2 = true ∧ quoteFrom text (q.1 + token.length) = none) :
    ¬ SimpleRight mode token rep text noquote false := by
  have hpos := List.length_pos_of_ne_nil htoken
  obtain ⟨-, -, -, hin⟩ := nextMatch_sound htoken (congrArg Prod.fst h)
  have hless : (countMatches mode token text (text.length + 1) (c + token.length) (-1 - 1)
      flag 1).1 < 1 + (laterSteps mode token text c flag).length :=
    countMatches_less htoken (by omega) (show text.length < text.length + 1 + c by omega)
      (show text.length < text.length + (c + token.length) by omega) hquotes hin
  intro hright
  rw [SimpleRight, replaceSimple_some htoken h, if_neg (by omega), referenceReplace_some h,
    if_neg Bool.false_ne_true, if_neg Bool.false_ne_true, ← laterSteps_fst htoken h] at hright
  obtain ⟨ns, -, hns⟩ := Option.map_eq_some_iff.1 hright
  have hcount := congrArg Prod.snd hns
  simp only [List.length_map] at hcount
  omega

theorem plain_self (htoken : token ≠ [])
    (h : nextMatch mode token text noquote 0 = (some c, flag)) :
    (matchPositions mode token text noquote text.length (c + token.length)).take
        (laterSteps mode token text c flag).length =
      (laterSteps mode token text c flag).map Prod.fst := by
  rw [← laterSteps_fst htoken h, ← List.length_map, List.take_length]

/-- Only the first match is replaced. -/
theorem simpleRight_longer_first (htoken : token ≠ []) (hlt : token.length < rep.length)
    (h : nextMatch mode token text noquote 0 = (some c, flag)) :
    SimpleRight mode token rep text noquote true := by
  have hcount : countMatches mode token text (text.length + 1) (c + token.length)
      ((if true = true then 1 else -1) - 1) flag 1 = (1, flag) := by
    rw [countMatches]
    exact if_pos (Or.inl rfl)
  rw [SimpleRight, replaceSimple_some htoken h, if_neg (by omega), referenceReplace_some h, hcount]
  rfl

theorem lastFlag_false : lastFlag mode token text c false = false := by
  rw [lastFlag]
  rcases List.mem_cons.1 (List.getLast_mem (List.cons_ne_nil (c, false) (laterSteps mode token text c
    false))) with h | h
  · rw [h]
  · exact matchSteps_noFlag h

/-- All matches are replaced, and the quotes are not looked for. -/
theorem simpleRight_longer_plain (htoken : token ≠ []) (hlt : token.length < rep.length)
    (h : nextMatch mode token text false 0 = (some c, flag)) :
    SimpleRight mode token rep text false false := by
  obtain rfl : false = flag := congrArg Prod.snd h
  have hquotes : ∀ q ∈ ((c, false) :: laterSteps mode token text c false).dropLast,
      q.2 = true → (quoteFrom text (q.1 + token.length)).isSome := by
    intro q hq hflag
    rcases List.mem_cons.1 (List.mem_of_mem_dropLast hq) with rfl | hq
    · exact nomatch hflag
    · rw [matchSteps_noFlag hq] at hflag
      exact nomatch hflag
  rw [simpleRight_counted htoken hlt h hquotes, lastFlag_false]
  simp only [plain_self htoken h, List.length_map, and_self]

/-- All matches outside quotes are replaced. -/
theorem simpleRight_longer_quotes (htoken : token ≠ []) (hlt : token.length < rep.length)
    (h : nextMatch mode token text true 0 = (some c, flag)) :
    SimpleRight mode token rep text true false ↔ QuotesKept mode token text rep true false := by
  have hpos := List.length_pos_of_ne_nil htoken
  have hsteps : matchSteps mode token text (text.length + 1) true 0 =
      (c, flag) :: laterSteps mode token text c flag := matchSteps_some h
  have hfuel : matchPositions mode token text false (text.length + 1) (c + token.length) =
      matchPositions mode token text false text.length (c + token.length) :=
    matchPositions_fuel htoken (by omega) (by omega)
  by_cases hquotes : ∀ q ∈ ((c, flag) :: laterSteps mode token text c flag).dropLast,
      q.2 = true → (quoteFrom text (q.1 + token.length)).isSome
  · rw [simpleRight_counted htoken hlt h hquotes]
    constructor
    · intro hright _ _ _ step steps hs
      obtain ⟨rfl, rfl⟩ := List.cons.inj (hsteps.symm.trans hs)
      refine ⟨hquotes, ?_⟩
      cases hlast : lastFlag mode token text c flag with
      | true => exact Or.inl hlast
      | false =>
          rw [hlast] at hright
          simp only [hfuel]
          exact Or.inr hright
    · intro hkept
      obtain ⟨-, hlast⟩ := hkept hlt rfl rfl (c, flag) _ hsteps
      cases hflag : lastFlag mode token text c flag with
      | true => simp only [plain_self htoken h, List.length_map, and_self]
      | false =>
          rcases hlast with hlast | hplain
          · exact absurd (hflag.symm.trans hlast) Bool.false_ne_true
          · simp only [hfuel] at hplain
            exact hplain
  · refine ⟨fun hright => ?_, fun hkept => ?_⟩
    · push Not at hquotes
      obtain ⟨q, hq, hflag, hnone⟩ := hquotes
      exact absurd hright (not_simpleRight_of_less htoken hlt h
        ⟨q, hq, hflag, Option.not_isSome_iff_eq_none.1 hnone⟩)
    · exact absurd (hkept hlt rfl rfl (c, flag) _ hsteps).1 hquotes

/-- A replacement that is longer than the token. -/
theorem simpleRight_longer (htoken : token ≠ []) (hlt : token.length < rep.length) :
    SimpleRight mode token rep text noquote first ↔
      QuotesKept mode token text rep noquote first := by
  cases hc : nextMatch mode token text noquote 0 with
  | mk c flag =>
      cases c with
      | none =>
          refine ⟨fun _ _ _ _ step steps hsteps => ?_,
            fun _ => simpleRight_none htoken (congrArg Prod.fst hc)⟩
          rw [matchSteps_none hc] at hsteps
          exact nomatch hsteps
      | some c =>
          cases first with
          | true => exact ⟨fun _ _ _ => nofun, fun _ => simpleRight_longer_first htoken hlt hc⟩
          | false =>
              cases noquote with
              | false => exact ⟨fun _ _ => nofun, fun _ => simpleRight_longer_plain htoken hlt hc⟩
              | true => exact simpleRight_longer_quotes htoken hlt hc

end Longer

/-- The replacement is right where no match is disturbed and the quotes are kept, and only
there. -/
theorem replaceRight_iff (text token rep : List Char) (flags : ReplaceFlags) (htoken : token ≠ []) :
    ReplaceRight text token rep flags ↔
      Undisturbed flags.mode token text rep flags.noquote flags.first ∧
        QuotesKept flags.mode token text rep flags.noquote flags.first := by
  change SimpleRight flags.mode token rep text flags.noquote flags.first ↔ _
  rcases Nat.lt_or_ge token.length rep.length with hlt | hle
  · rw [simpleRight_longer htoken hlt]
    refine ⟨fun hkept => ⟨fun heq => ?_, hkept⟩, And.right⟩
    omega
  · refine ⟨fun hright => ⟨undisturbed_of_right htoken hright, fun hlt => ?_⟩,
      fun h => simpleRight_inPlace htoken hle h.1⟩
    omega

/-- A number behind a letter: nothing stands in the way. -/
theorem replaceRight_iff_number :
    ReplaceRight ['a', '1', 'a'] ['a'] ['b', 'c'] { numberEnd := true } ↔
      Undisturbed .numberEnd ['a'] ['a', '1', 'a'] ['b', 'c'] false false ∧
        QuotesKept .numberEnd ['a'] ['a', '1', 'a'] ['b', 'c'] false false :=
  replaceRight_iff ['a', '1', 'a'] ['a'] ['b', 'c'] { numberEnd := true } (by decide)

/-- The second `ab` begins an identifier once the first one is replaced. -/
theorem replace_disturbs :
    stringReplace ['a', 'b', 'a', 'b'] ['a', 'b'] ['a', '-'] { idBegin := true } =
        some (['a', '-', 'a', '-'], 2) ∧
      ¬ ReplaceRight ['a', 'b', 'a', 'b'] ['a', 'b'] ['a', '-'] { idBegin := true } := by
  have hgives : stringReplace ['a', 'b', 'a', 'b'] ['a', 'b'] ['a', '-'] { idBegin := true } =
      some (['a', '-', 'a', '-'], 2) := by decide
  refine ⟨hgives, fun hright => ?_⟩
  rw [ReplaceRight, hgives] at hright
  exact absurd hright (by decide)

end Final

/-! ## The first occurrence -/

section FirstOccurrence

variable {token text : List Char} {k : Nat}

theorem strstr_eq_some (hoccurs : token <+: text.drop k)
    (hbefore : ∀ i < k, ¬ token <+: text.drop i) : strstr token text = some k := by
  cases hfind : strstr token text with
  | none => exact absurd hoccurs (strstr_eq_none.1 hfind k)
  | some j =>
      rcases Nat.lt_trichotomy j k with hlt | heq | hlt
      · exact absurd (strstr_sound hfind).1 (hbefore j hlt)
      · rw [heq]
      · exact absurd hoccurs (strstr_first hfind hlt)

theorem matchFrom_simple : matchFrom .simple token text 0 = strstr token text := by
  rw [matchFrom, matchLoop, List.drop_zero]
  cases strstr token text with
  | none => rfl
  | some k => simp [MatchMode.rejects]

/-- A text without the first occurrence of a token. -/
def eraseFirst (token text : List Char) : List Char :=
  match strstr token text with
  | none => text
  | some k => text.take k ++ text.drop (k + token.length)

theorem stringReplace_first (htoken : token ≠ []) :
    (stringReplace text token [] { first := true }).map Prod.fst =
      some (eraseFirst token text) := by
  have hright : SimpleRight .simple token [] text false true := by
    refine simpleRight_inPlace htoken (Nat.zero_le _) fun heq => ?_
    exact absurd (List.length_eq_zero_iff.1 heq.symm) htoken
  rw [stringReplace]
  refine (congrArg (Option.map Prod.fst) hright).trans ?_
  rw [Option.map_some, eraseFirst, referenceReplace, wantedPositions, matchPositions,
    nextMatch_false, matchFrom_simple]
  cases strstr token text with
  | none => simp [splice]
  | some k => simp [splice]

end FirstOccurrence

/-! ## A token that occurs once -/

section OneOccurrence

variable {mode : MatchMode} {token rep text : List Char} {k s : Nat}

theorem strstr_behind (honly : ∀ i, token <+: text.drop i → i = k) (hs : k < s) :
    strstr token (text.drop s) = none := by
  rw [strstr_eq_none]
  intro i hi
  rw [List.drop_drop] at hi
  have hk := honly _ hi
  omega

theorem matchFrom_behind (honly : ∀ i, token <+: text.drop i → i = k) (hs : k < s) :
    matchFrom mode token text s = none := by
  rw [matchFrom, matchLoop, strstr_behind honly hs]

theorem matchFrom_once (htoken : token ≠ []) (hoccurs : token <+: text.drop k)
    (honly : ∀ i, token <+: text.drop i → i = k) :
    matchFrom mode token text 0 =
      if mode.rejects text k token.length then none else some k := by
  have hpos := List.length_pos_of_ne_nil htoken
  have hlen := hoccurs.length_le
  rw [List.length_drop] at hlen
  have hfirst : strstr token (text.drop 0) = some k :=
    strstr_eq_some hoccurs fun i hi h => absurd (honly i h) (by omega)
  rw [matchFrom, matchLoop, hfirst]
  simp only [Nat.zero_add]
  split
  · obtain ⟨n, hn⟩ : ∃ n, text.length = n + 1 := ⟨text.length - 1, by omega⟩
    rw [hn, matchLoop, strstr_behind honly (by omega)]
  · rfl

theorem matchPositions_behind (honly : ∀ i, token <+: text.drop i → i = k) (hs : k < s)
    (fuel : Nat) : matchPositions mode token text false fuel s = [] := by
  cases fuel with
  | zero => rfl
  | succ fuel => rw [matchPositions, nextMatch_false, matchFrom_behind honly hs]

/-- The token is replaced where it stands, or it is no match. -/
theorem replaceSimple_once (htoken : token ≠ []) (hoccurs : token <+: text.drop k)
    (honly : ∀ i, token <+: text.drop i → i = k) :
    replaceSimple mode token rep text false (-1) =
      some (if mode.rejects text k token.length then (text, 0)
        else (text.take k ++ rep ++ text.drop (k + token.length), 1)) := by
  have hpos := List.length_pos_of_ne_nil htoken
  have hmatch : matchFrom mode token text 0 = _ := matchFrom_once htoken hoccurs honly
  split
  · next hrejects =>
      rw [if_pos hrejects] at hmatch
      rw [replaceSimple, if_neg htoken, hmatch]
  · next hrejects =>
      rw [if_neg hrejects] at hmatch
      have hnext : nextMatch mode token text false 0 = (some k, false) := by
        rw [nextMatch_false, hmatch]
      have hlater : matchPositions mode token text false text.length (k + token.length) = [] :=
        matchPositions_behind honly (by omega) _
      have hright : SimpleRight mode token rep text false false := by
        rcases Nat.lt_or_ge token.length rep.length with hlt | hle
        · exact simpleRight_longer_plain htoken hlt hnext
        · refine simpleRight_inPlace htoken hle fun _ _ p hp hdisturbed => ?_
          rw [wantedPositions_some hnext, if_neg Bool.false_ne_true, hlater,
            List.mem_singleton] at hp
          have hagain := honly _ hdisturbed.2.1
          omega
      refine Eq.trans hright ?_
      rw [referenceReplace_some hnext, if_neg Bool.false_ne_true, hlater]
      rfl

end OneOccurrence

end Swig4Ada.Doh

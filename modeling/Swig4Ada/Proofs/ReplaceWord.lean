import Swig4Ada.Lib.Words
import Swig4Ada.Proofs.Replace

/-!
# `Replaceid` replaces the words of a text

The token is an identifier. A search that goes past a rejected occurrence goes past no
word, since a word does not begin inside of another one; so the matches are the words
that are the token.
-/

namespace Swig4Ada.Doh

open Swig4Ada.Lib

variable {name rep text : List Char} {s c : Nat}

/-- An identifier, but for its first character. -/
structure IsWord (name : List Char) : Prop where
  ne_nil : name ≠ []
  chars : AllWord isIdentifierChar name

/-- The name stands at the position as a word. -/
structure WordAt (name text : List Char) (c : Nat) : Prop where
  occurs : name <+: text.drop c
  before : Boundary isIdentifierChar (text.take c) name
  behind : Boundary isIdentifierChar name (text.drop (c + name.length))

theorem IsWord.head (h : IsWord name) : ∃ d, name.head? = some d ∧ isIdentifierChar d = true := by
  obtain ⟨d, ds, rfl⟩ := List.exists_cons_of_ne_nil h.ne_nil
  exact ⟨d, rfl, h.chars d List.mem_cons_self⟩

theorem IsWord.last (h : IsWord name) :
    ∃ d, name.getLast? = some d ∧ isIdentifierChar d = true :=
  ⟨name.getLast h.ne_nil, List.getLast?_eq_some_getLast h.ne_nil,
    h.chars _ (List.getLast_mem h.ne_nil)⟩

theorem IsWord.before_iff (h : IsWord name) (u : List Char) :
    Boundary isIdentifierChar u name ↔ u.getLast?.any isIdentifierChar = false := by
  obtain ⟨d, hd, hword⟩ := h.head
  cases hu : u.getLast? with
  | none => exact iff_of_true (fun a b ha => by rw [hu] at ha; cases ha) rfl
  | some a =>
      rw [Option.any_some]
      constructor
      · intro hb
        cases ha : isIdentifierChar a with
        | false => rfl
        | true =>
            rw [hb a d hu hd ha] at hword
            cases hword
      · intro ha a' b ha' _ hword'
        obtain rfl := Option.some.inj (hu.symm.trans ha')
        rw [ha] at hword'
        cases hword'

theorem IsWord.behind_iff (h : IsWord name) (v : List Char) :
    Boundary isIdentifierChar name v ↔ v.head?.any isIdentifierChar = false := by
  obtain ⟨d, hd, hword⟩ := h.last
  cases hv : v.head? with
  | none => exact iff_of_true (fun a b _ hb => by rw [hv] at hb; cases hb) rfl
  | some b =>
      rw [Option.any_some]
      constructor
      · exact fun hb => hb d b hd hv hword
      · intro hb a b' _ hb' _
        obtain rfl := Option.some.inj (hv.symm.trans hb')
        exact hb

theorem getLast?_take (hc : c ≤ text.length) :
    (text.take c).getLast? = if 0 < c then text[c - 1]? else none := by
  cases c with
  | zero => rfl
  | succ c =>
      rw [if_pos (Nat.succ_pos c), List.getLast?_eq_getElem?, List.length_take,
        Nat.min_eq_left hc, List.getElem?_take_of_lt (by omega)]

/-- An occurrence of the name that is not rejected is a word. -/
theorem IsWord.wordAt_iff (h : IsWord name) (hoccurs : name <+: text.drop c) :
    WordAt name text c ↔ MatchMode.identifier.rejects text c name.length = false := by
  have hc : c ≤ text.length := by
    have hlong := hoccurs.length_le
    have hpos := List.length_pos_of_ne_nil h.ne_nil
    rw [List.length_drop] at hlong
    omega
  have hbefore : identifierBefore text c = (text.take c).getLast?.any isIdentifierChar := by
    rw [getLast?_take hc, identifierBefore]
    by_cases hpos : 0 < c
    · rw [if_pos hpos, decide_eq_true hpos, Bool.true_and]
    · rw [if_neg hpos, decide_eq_false hpos]
      rfl
  rw [MatchMode.rejects, Bool.or_eq_false_iff, hbefore, ← h.before_iff, ← List.head?_drop,
    ← h.behind_iff]
  exact ⟨fun hw => ⟨hw.before, hw.behind⟩, fun hb => ⟨hoccurs, hb.1, hb.2⟩⟩

/-- No word begins inside of an occurrence. -/
theorem IsWord.not_inside (h : IsWord name) (hoccurs : name <+: text.drop s) (hlt : s < c)
    (hinside : c < s + name.length) : ¬ WordAt name text c := by
  intro hw
  obtain ⟨v, hv⟩ := hoccurs
  have hlong := congrArg List.length hv
  rw [List.length_append, List.length_drop] at hlong
  have hlast : (text.take c).getLast? = text[c - 1]? := by
    rw [getLast?_take (by omega), if_pos (by omega)]
  have hchar : text[c - 1]? = name[c - 1 - s]? := by
    have hget : (text.drop s)[c - 1 - s]? = text[c - 1]? := by
      rw [List.getElem?_drop, show s + (c - 1 - s) = c - 1 by omega]
    rw [← hget, ← hv, List.getElem?_append_left (by omega)]
  have hbefore := (h.before_iff _).1 hw.before
  rw [hlast, hchar, List.getElem?_eq_getElem (by omega), Option.any_some,
    h.chars _ (List.getElem_mem _)] at hbefore
  cases hbefore

/-! ## The matches -/

/-- The loop finds the first word. -/
theorem IsWord.matchLoop_first (h : IsWord name) {fuel : Nat} (hfuel : text.length < fuel + s)
    {i : Nat} (hi : s ≤ i)
    (hbefore : ∀ c, matchLoop .identifier name text fuel s = some c → i < c) :
    ¬ WordAt name text i := by
  intro hw
  have hpos := List.length_pos_of_ne_nil h.ne_nil
  have hlong := hw.occurs.length_le
  rw [List.length_drop] at hlong
  induction fuel generalizing s with
  | zero => omega
  | succ fuel ih =>
      rw [matchLoop] at hbefore
      cases hfind : strstr name (text.drop s) with
      | none =>
          have hno := strstr_eq_none.1 hfind (i - s)
          rw [List.drop_drop, show s + (i - s) = i by omega] at hno
          exact hno hw.occurs
      | some k =>
          rw [hfind] at hbefore
          dsimp only at hbefore
          have hge : s + k ≤ i := by
            rcases Nat.lt_or_ge i (s + k) with hlt | hge
            · have hno := strstr_first hfind (show i - s < k by omega)
              rw [List.drop_drop, show s + (i - s) = i by omega] at hno
              exact absurd hw.occurs hno
            · exact hge
          have hoccurs := (strstr_sound hfind).1
          rw [List.drop_drop] at hoccurs
          by_cases hreject : MatchMode.identifier.rejects text (s + k) name.length = true
          · rw [if_pos hreject] at hbefore
            rcases Nat.lt_or_ge i (s + k + name.length) with hlt | hge'
            · rcases Nat.eq_or_lt_of_le hge with rfl | hlt'
              · rw [(h.wordAt_iff hoccurs).1 hw] at hreject
                cases hreject
              · exact h.not_inside hoccurs hlt' hlt hw
            · exact ih (by omega) hge' hbefore
          · rw [if_neg hreject] at hbefore
            have hlt := hbefore _ rfl
            omega

theorem IsWord.matchFrom_wordAt (h : IsWord name)
    (hc : matchFrom .identifier name text s = some c) :
    s ≤ c ∧ WordAt name text c ∧ ∀ i, s ≤ i → i < c → ¬ WordAt name text i := by
  obtain ⟨hge, hoccurs, hkeep, -⟩ := matchFrom_sound h.ne_nil hc
  refine ⟨hge, (h.wordAt_iff hoccurs).2 hkeep, fun i hi hlt => ?_⟩
  refine h.matchLoop_first (show text.length < text.length + 1 + s by omega) hi fun c' hc' => ?_
  obtain rfl : c = c' := Option.some.inj (hc.symm.trans hc')
  exact hlt

theorem IsWord.matchFrom_none (h : IsWord name)
    (hc : matchFrom .identifier name text s = none) {i : Nat} (hi : s ≤ i) :
    ¬ WordAt name text i := by
  refine h.matchLoop_first (show text.length < text.length + 1 + s by omega) hi fun c' hc' => ?_
  cases hc.symm.trans hc'

/-- A word of the rest of a text is a word of the text. -/
theorem IsWord.mem_drop (h : IsWord name) (hs : s ≤ text.length)
    (hcut : Boundary isIdentifierChar (text.take s) (text.drop s)) {u v : List Char}
    (hsplit : text.drop s = u ++ (name ++ v)) (hu : Boundary isIdentifierChar u name)
    (hv : Boundary isIdentifierChar name v) : WordAt name text (s + u.length) := by
  have htext : text = text.take s ++ (u ++ (name ++ v)) := by
    rw [← hsplit, List.take_append_drop]
  have hlength : (text.take s).length = s := by
    rw [List.length_take]
    omega
  have htake : text.take (s + u.length) = text.take s ++ u := by
    conv_lhs => rw [htext, ← List.append_assoc]
    rw [List.take_left' (by rw [List.length_append, hlength])]
  have hdrop : text.drop (s + u.length) = name ++ v := by
    rw [← List.drop_drop, hsplit, List.drop_left]
  refine ⟨by rw [hdrop]; exact List.prefix_append name v, ?_, ?_⟩
  · rw [htake]
    cases u with
    | nil =>
        rw [List.append_nil]
        intro a b ha hb
        refine hcut a b ha ?_
        rw [hsplit, List.nil_append, List.head?_append_of_ne_nil name h.ne_nil]
        exact hb
    | cons d ds =>
        intro a b ha
        rw [List.getLast?_append_of_ne_nil _ (List.cons_ne_nil d ds)] at ha
        exact hu a b ha
  · rw [← List.drop_drop, hdrop, List.drop_left]
    exact hv

/-! ## The replacements -/

/-- The text from a cut on is split at the first match; the name is no word before it. -/
theorem IsWord.first_split (h : IsWord name) (hs : s ≤ text.length)
    (hcut : Boundary isIdentifierChar (text.take s) (text.drop s))
    (hc : matchFrom .identifier name text s = some c) :
    ∃ u, u = (text.drop s).take (c - s) ∧ text.drop s = u ++ (name ++ text.drop (c + name.length)) ∧
      Boundary isIdentifierChar u name ∧ name ∉ words isIdentifierChar u := by
  obtain ⟨hge, hword, hfirst⟩ := h.matchFrom_wordAt hc
  obtain ⟨u, hu⟩ : ∃ u, u = (text.drop s).take (c - s) := ⟨_, rfl⟩
  have hrest : text.drop c = name ++ text.drop (c + name.length) := by
    obtain ⟨v, hv⟩ := hword.occurs
    rw [← List.drop_drop, ← hv, List.drop_left]
  have hsplit : text.drop s = u ++ (name ++ text.drop (c + name.length)) := by
    have hcount := List.take_append_drop (c - s) (text.drop s)
    rw [List.drop_drop, show s + (c - s) = c by omega] at hcount
    rw [← hrest, hu, hcount]
  have hlength : u.length = c - s := by
    have hlong := (matchFrom_sound h.ne_nil hc).2.2.2
    rw [hu, List.length_take, List.length_drop]
    omega
  have htake : text.take c = text.take s ++ u := by
    rw [hu, ← List.take_add, show s + (c - s) = c by omega]
  have hbound : Boundary isIdentifierChar u name := by
    intro a b ha
    refine hword.before a b ?_
    have hne : u ≠ [] := by
      rintro rfl
      cases ha
    rw [htake, List.getLast?_append_of_ne_nil _ hne, ha]
  refine ⟨u, hu, hsplit, hbound, fun hmem => ?_⟩
  obtain ⟨u₁, u₂, hsplit', hu₁, hu₂⟩ := (mem_words_iff h.ne_nil h.chars).1 hmem
  have hlength' := congrArg List.length hsplit'
  have hpos := List.length_pos_of_ne_nil h.ne_nil
  rw [List.length_append, List.length_append] at hlength'
  have hsplit₂ : text.drop s = u₁ ++ (name ++ (u₂ ++ (name ++ text.drop (c + name.length)))) := by
    rw [hsplit, hsplit']
    simp only [List.append_assoc]
  refine hfirst (s + u₁.length) (Nat.le_add_right _ _) (by omega)
    (h.mem_drop hs hcut hsplit₂ hu₁ ?_)
  cases u₂ with
  | nil =>
      -- The name would end where it begins again.
      obtain ⟨d, hd, hdword⟩ := h.last
      obtain ⟨e, he, heword⟩ := h.head
      have hlast : u.getLast? = some d := by
        rw [hsplit', List.append_nil, List.getLast?_append_of_ne_nil _ h.ne_nil, hd]
      rw [hbound d e hlast he hdword] at heword
      cases heword
  | cons d ds => exact fun a b ha hb => hu₂ a b ha hb

/-- The words from a cut on are replaced one match after the other. -/
theorem IsWord.splice_eq (h : IsWord name) {fuel : Nat} (hfuel : text.length < fuel + s)
    (hs : s ≤ text.length) (hcut : Boundary isIdentifierChar (text.take s) (text.drop s)) :
    splice name.length rep text s (matchPositions .identifier name text false fuel s) =
      replaceWord isIdentifierChar name rep (text.drop s) := by
  have hpos := List.length_pos_of_ne_nil h.ne_nil
  induction fuel generalizing s with
  | zero => omega
  | succ fuel ih =>
      rw [matchPositions, nextMatch_false]
      cases hc : matchFrom .identifier name text s with
      | none =>
          refine (replaceWord_self fun hmem => ?_).symm
          obtain ⟨u, v, hsplit, hu, hv⟩ := (mem_words_iff h.ne_nil h.chars).1 hmem
          exact absurd (h.mem_drop hs hcut hsplit hu hv)
            (h.matchFrom_none hc (Nat.le_add_right s u.length))
      | some c =>
          obtain ⟨hge, hword, -⟩ := h.matchFrom_wordAt hc
          obtain ⟨u, hu, hsplit, hbound, hnot⟩ := h.first_split hs hcut hc
          have hlong := (matchFrom_sound h.ne_nil hc).2.2.2
          have hcut' : Boundary isIdentifierChar (text.take (c + name.length))
              (text.drop (c + name.length)) := by
            intro a b ha hb
            refine hword.behind a b ?_ hb
            obtain ⟨v, hv⟩ := hword.occurs
            rw [List.take_add, ← hv, List.take_left,
              List.getLast?_append_of_ne_nil _ h.ne_nil] at ha
            exact ha
          have hbound' : Boundary isIdentifierChar u
              (name ++ text.drop (c + name.length)) := by
            intro a b ha hb
            rw [List.head?_append_of_ne_nil name h.ne_nil] at hb
            exact hbound a b ha hb
          have hself : replaceWord isIdentifierChar name rep u = u :=
            replaceWord_self fun hmem => absurd hmem hnot
          have hih := ih (by omega) hlong hcut'
          show (text.drop s).take (c - s) ++ rep ++ splice name.length rep text (c + name.length)
            (matchPositions .identifier name text false fuel (c + name.length)) = _
          rw [hih, ← hu, hsplit, replaceWord_append hbound', replaceWord_append hword.behind,
            hself, replaceWord_name h.ne_nil h.chars, List.append_assoc]

theorem IsWord.undisturbed (h : IsWord name) :
    Undisturbed .identifier name text rep false false := by
  intro _ _ p hp hdisturbed
  obtain ⟨hmode, hoccurs, -⟩ := hdisturbed
  have hmem : ∀ {fuel s : Nat}, p ∈ matchPositions .identifier name text false fuel s →
      MatchMode.identifier.rejects text p name.length = false := by
    intro fuel
    induction fuel with
    | zero => exact nofun
    | succ fuel ih =>
        intro s hp
        rw [matchPositions] at hp
        cases hc : (nextMatch .identifier name text false s).1 with
        | none =>
            rw [hc] at hp
            cases hp
        | some c =>
            rw [hc] at hp
            rcases List.mem_cons.1 hp with rfl | hp
            · exact (nextMatch_sound h.ne_nil hc).2.2.1
            · exact ih hp
  have hkeep := hmem (show p ∈ matchPositions .identifier name text false (text.length + 1) 0
    from hp)
  rw [MatchMode.rejects, Bool.or_eq_false_iff] at hkeep
  obtain ⟨d, hd, hdword⟩ := h.head
  obtain ⟨v, hv⟩ := hoccurs
  have hget : text[p + name.length]? = some d := by
    rw [← List.head?_drop, ← hv, List.head?_append_of_ne_nil name h.ne_nil, hd]
  rw [hget, Option.any_some, hdword] at hkeep
  cases hkeep.2

/-- `Replaceid` of an identifier replaces the words that are the identifier. -/
theorem IsWord.replaceId_eq (h : IsWord name) (text rep : List Char) :
    ∃ n, replaceId text name rep = some (replaceWord isIdentifierChar name rep text, n) := by
  have hright : SimpleRight .identifier name rep text false false := by
    rcases Nat.lt_or_ge name.length rep.length with hlt | hle
    · exact (simpleRight_longer h.ne_nil hlt).2 fun _ hquote => absurd hquote Bool.false_ne_true
    · exact simpleRight_inPlace h.ne_nil hle h.undisturbed
  have hsplice := @IsWord.splice_eq name rep text 0 h (text.length + 1)
    (show text.length < text.length + 1 + 0 by omega) (Nat.zero_le _) (fun a b ha => by cases ha)
  rw [List.drop_zero] at hsplice
  refine ⟨(wantedPositions .identifier name text false false).length, ?_⟩
  rw [← hsplice]
  exact hright

end Swig4Ada.Doh

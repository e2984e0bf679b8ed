import Swig4Ada.Proofs.Scanner
import Swig4Ada.Swig.StringEscape

/-!
# Escaped strings are read back

The scanner takes for an escape as many digits as there are. So a character that is written
by its number takes in the digits of the string behind it, and the string that is read is
shorter by those; without such digits every character is read back.
-/

namespace Swig4Ada.Swig

open Swig4Ada.Doh (isDigit)

/-! ## Reading into other text -/

namespace Scanner

/-- The scanner behind the characters `cs` of its text, of which `rest` is left, when they
put `put` into the text of the token. -/
def reads (s : Scanner) (cs put rest : List Char) : Scanner :=
  { s.advance cs rest with text := s.text ++ put }

variable {s : Scanner} {c x : Char} {u v p q w z : List Char}

theorem reads_reads : (s.reads u p w).reads v q z = s.reads (u ++ v) (p ++ q) z := by
  have hread : (s.advance u w).advance v z = s.advance (u ++ v) z := advance_advance
  have h := congrArg (fun t : Scanner => { t with text := s.text ++ p ++ q }) hread
  exact h.trans (congrArg (fun t => { s.advance (u ++ v) z with text := t })
    (List.append_assoc s.text p q))

theorem rest_reads (hs : s.rest ≠ []) : (s.reads u p w).rest = w := rest_advance (u := u) hs

theorem reads_nil (hs : s.rest = w) (hne : w ≠ []) : s.reads [] p w = s.append p :=
  congrArg (fun t : Scanner => { t with text := s.text ++ p }) (advance_nil hs hne)

theorem delEnd_advance : (s.advance [c] w).delEnd = s.reads [c] [] w := by
  rw [delEnd, reads, List.append_nil]
  exact congrArg (fun t => { s.advance [c] w with text := t }) (List.dropLast_concat ..)

theorem append_reads : (s.reads u p w).append q = s.reads u (p ++ q) w :=
  congrArg (fun t => { s.advance u w with text := t }) (List.append_assoc s.text p q)

/-- A character is read and given back. -/
theorem retract_read (hs : s.rest = x :: w) : (s.advance [x] w).retract 1 = some s := by
  have h := retract_advance (s := s) (u := []) (v := []) (q := x) (w := w)
  simp only [recount_nil, List.nil_append] at h
  rw [advance_nil hs (by simp)] at h
  exact h

end Scanner

/-! ## Numbers -/

theorem digitChar_toDigits {b : Nat} (hb : 1 < b) (n : Nat) :
    ∀ c ∈ Nat.toDigits b n, ∃ d < b, c = Nat.digitChar d := by
  induction n using Nat.strong_induction_on with
  | _ n ih =>
      rcases Nat.lt_or_ge n b with hlt | hge
      · rw [Nat.toDigits_of_lt_base hlt]
        intro c hc
        exact ⟨n, hlt, List.mem_singleton.1 hc⟩
      · rw [Nat.toDigits_of_base_le hb hge]
        intro c hc
        rcases List.mem_append.1 hc with hc | hc
        · exact ih _ (Nat.div_lt_self (by omega) hb) c hc
        · exact ⟨n % b, Nat.mod_lt _ (by omega), List.mem_singleton.1 hc⟩

theorem toDigits_value {b : Nat} (hb : 1 < b) {value : Char → Nat}
    (hvalue : ∀ d < b, value (Nat.digitChar d) = d) (n : Nat) :
    (Nat.toDigits b n).foldl (fun r c => b * r + value c) 0 = n := by
  induction n using Nat.strong_induction_on with
  | _ n ih =>
      rcases Nat.lt_or_ge n b with hlt | hge
      · rw [Nat.toDigits_of_lt_base hlt, List.foldl_cons, List.foldl_nil, hvalue n hlt,
          Nat.mul_zero, Nat.zero_add]
      · rw [Nat.toDigits_of_base_le hb hge, List.foldl_append,
          ih _ (Nat.div_lt_self (by omega) hb), List.foldl_cons, List.foldl_nil,
          hvalue _ (Nat.mod_lt _ (by omega)), Nat.div_add_mod]

/-- A character that a number goes on with. -/
def isNumeral (hex : Bool) (c : Char) : Bool := if hex then isHexDigit c else isDigit c

def numeralValue (c : Char) : Nat :=
  if isDigit c then c.toNat - 48 else 10 + c.toLower.toNat - 97

/-- A number that goes on from `r`. -/
def numberValue (hex : Bool) (r : Nat) (ds : List Char) : Nat :=
  ds.foldl (fun r d => (if hex then 16 else 8) * r + numeralValue d) r

theorem octal_digits {c d : Char} (hd : d ∈ octal c) : isNumeral false d := by
  obtain ⟨k, hk, rfl⟩ := digitChar_toDigits (by decide) _ d hd
  have hall : ∀ k < 8, isNumeral false (Nat.digitChar k) := by decide
  exact hall k hk

theorem octal_simple {c d : Char} (hd : d ∈ octal c) : simpleEscape d = none := by
  obtain ⟨k, hk, rfl⟩ := digitChar_toDigits (by decide) _ d hd
  have hall : ∀ k < 8, simpleEscape (Nat.digitChar k) = none := by decide
  exact hall k hk

theorem octal_value (c : Char) : numberValue false 0 (octal c) = c.toNat :=
  toDigits_value (by decide) (by decide) c.toNat

theorem hexadecimal_digits {c d : Char} (hd : d ∈ (hexadecimal c).tail) : isNumeral true d := by
  obtain ⟨x, hx, rfl⟩ := List.mem_map.1 hd
  obtain ⟨k, hk, rfl⟩ := digitChar_toDigits (by decide) _ x hx
  have hall : ∀ k < 16, isNumeral true (Nat.digitChar k).toUpper := by decide
  exact hall k hk

theorem hexadecimal_value (c : Char) : numberValue true 0 (hexadecimal c).tail = c.toNat := by
  rw [hexadecimal, List.tail_cons, numberValue, List.foldl_map]
  exact toDigits_value (by decide) (by decide) c.toNat

section Reading

variable {s : Scanner} {c c' x : Char} {ds w : List Char} {hex : Bool} {r fuel : Nat}

theorem getNumber_reads (hds : ∀ d ∈ ds, isNumeral hex d) (hx : ¬ isNumeral hex x)
    (hnull : x ≠ '\x00') (hs : s.rest = ds ++ x :: w) (hfuel : ds.length < fuel) :
    getNumber hex fuel r s = some (s.reads ds [charOf (numberValue hex r ds)] (x :: w)) := by
  induction ds generalizing s r fuel with
  | nil =>
      obtain ⟨fuel, rfl⟩ : ∃ k, fuel = k + 1 := ⟨fuel - 1, by omega⟩
      rw [List.nil_append] at hs
      rw [getNumber, Scanner.nextchar_cons hs]
      simp only
      rw [if_neg hnull, if_pos (by simpa [isNumeral] using hx), Scanner.retract_read hs,
        Scanner.reads_nil hs (List.cons_ne_nil x w)]
      rfl
  | cons d ds ih =>
      obtain ⟨fuel, rfl⟩ : ∃ k, fuel = k + 1 := ⟨fuel - 1, by omega⟩
      obtain ⟨hd, hds⟩ := List.forall_mem_cons.1 hds
      have hdnull : d ≠ '\x00' := by
        rintro rfl
        cases hex <;> exact absurd hd (by decide)
      rw [List.cons_append] at hs
      rw [getNumber, Scanner.nextchar_cons hs]
      simp only
      rw [if_neg hdnull, if_neg (by simpa [isNumeral] using hd), Scanner.delEnd_advance,
        ih hds (Scanner.rest_reads (by rw [hs]; exact List.cons_ne_nil _ _))
          (by simpa using hfuel), Scanner.reads_reads]
      rfl

theorem getEscape_octal {d : Char} (hsimple : simpleEscape d = none)
    (hds : ∀ y ∈ d :: ds, isNumeral false y) (hx : ¬ isNumeral false x) (hnull : x ≠ '\x00')
    (hs : s.rest = d :: ds ++ x :: w) (hfuel : ds.length < fuel) :
    getEscape fuel s =
      some (s.reads (d :: ds) [charOf (numberValue false 0 (d :: ds))] (x :: w)) := by
  obtain ⟨hd, hds⟩ := List.forall_mem_cons.1 hds
  have hdigit : isDigit d := hd
  have hdnull : d ≠ '\x00' := by
    rintro rfl
    cases hdigit
  rw [List.cons_append] at hs
  rw [getEscape, Scanner.nextchar_cons hs]
  simp only [hsimple]
  rw [if_neg hdnull, if_pos hdigit, Scanner.delEnd_advance,
    getNumber_reads hds hx hnull
      (Scanner.rest_reads (by rw [hs]; exact List.cons_ne_nil _ _)) hfuel, Scanner.reads_reads]
  simp [numberValue, numeralValue, hdigit]

theorem getEscape_hex (hds : ∀ y ∈ ds, isNumeral true y) (hx : ¬ isNumeral true x)
    (hnull : x ≠ '\x00') (hs : s.rest = 'x' :: ds ++ x :: w) (hfuel : ds.length < fuel) :
    getEscape fuel s =
      some (s.reads ('x' :: ds) [charOf (numberValue true 0 ds)] (x :: w)) := by
  rw [List.cons_append] at hs
  rw [getEscape, Scanner.nextchar_cons hs]
  have hsimple : simpleEscape 'x' = none := by decide
  simp only [hsimple]
  rw [if_neg (by decide), if_neg (by decide), if_pos trivial, Scanner.delEnd_advance,
    getNumber_reads hds hx hnull
      (Scanner.rest_reads (by rw [hs]; exact List.cons_ne_nil _ _)) hfuel, Scanner.reads_reads]
  rfl

/-- What is written for a number behind the backslash. -/
def numberText (hex : Bool) (c : Char) : List Char := if hex then hexadecimal c else octal c

/-- An escaped number takes in the numerals behind it. -/
theorem getEscape_number {sw : List Char} (hsw : ∀ d ∈ sw, isNumeral hex d)
    (hx : ¬ isNumeral hex x) (hnull : x ≠ '\x00')
    (hs : s.rest = numberText hex c ++ sw ++ x :: w)
    (hfuel : (numberText hex c ++ sw).length < fuel) :
    getEscape fuel s = some (s.reads (numberText hex c ++ sw)
      [charOf (numberValue hex c.toNat sw)] (x :: w)) := by
  cases hex with
  | false =>
      obtain ⟨d, ds, hoct⟩ : ∃ d ds, octal c = d :: ds :=
        List.exists_cons_of_ne_nil Nat.toDigits_ne_nil
      have hnumber : numberText false c = d :: ds := hoct
      have hall : ∀ y ∈ d :: (ds ++ sw), isNumeral false y := by
        rw [← List.cons_append, ← hnumber]
        intro y hy
        exact (List.mem_append.1 hy).elim octal_digits (hsw y)
      have hvalue : numberValue false 0 (d :: (ds ++ sw)) = numberValue false c.toNat sw := by
        rw [← octal_value c, ← List.cons_append, numberValue, List.foldl_append]
        exact congrArg (fun l => numberValue false (numberValue false 0 l) sw) hoct.symm
      rw [hnumber, List.cons_append] at hs hfuel ⊢
      rw [← hvalue]
      exact getEscape_octal (octal_simple (hoct ▸ List.mem_cons_self)) hall hx hnull hs
        (Nat.lt_of_succ_lt hfuel)
  | true =>
      have hvalue : numberValue true 0 ((hexadecimal c).tail ++ sw) =
          numberValue true c.toNat sw := by
        rw [← hexadecimal_value c, numberValue, List.foldl_append]
        rfl
      rw [← hvalue]
      refine getEscape_hex (fun y hy => ?_) hx hnull hs (Nat.lt_of_succ_lt hfuel)
      exact (List.mem_append.1 hy).elim hexadecimal_digits (hsw y)

/-! ## Turns inside a string -/

theorem turns_escape {s' : Scanner} (hs : s.rest = '\\' :: w)
    (h : ∃ steps, ∀ fuel ≥ steps, getEscape fuel (s.reads ['\\'] [] w) = some s') :
    Turns ⟨.inString, c', none, s⟩ (.inl ⟨.inString, '\\', none, s'⟩) := by
  obtain ⟨steps, h⟩ := h
  refine ⟨steps, fun fuel hf => ?_⟩
  simp only [lookStep, lookInString]
  rw [Scanner.nextchar_cons hs]
  simp only
  rw [if_neg (by decide), if_neg (by decide), if_pos trivial, Scanner.delEnd_advance, h fuel hf]
  rfl

theorem turns_number {sw : List Char} (hsw : ∀ d ∈ sw, isNumeral hex d)
    (hx : ¬ isNumeral hex x) (hnull : x ≠ '\x00')
    (hs : s.rest = '\\' :: (numberText hex c ++ sw ++ x :: w)) :
    Turns ⟨.inString, c', none, s⟩ (.inl ⟨.inString, '\\', none,
      s.reads ('\\' :: (numberText hex c ++ sw)) [charOf (numberValue hex c.toNat sw)]
        (x :: w)⟩) := by
  refine turns_escape hs ⟨(numberText hex c ++ sw).length + 1, fun fuel hf => ?_⟩
  rw [getEscape_number hsw hx hnull (Scanner.rest_reads (by rw [hs]; exact List.cons_ne_nil _ _))
    hf, Scanner.reads_reads]
  rfl

theorem simpleEscape_letter (h : letterEscape c = some x) :
    x ≠ '\x00' ∧ simpleEscape x = some [c] := by
  unfold letterEscape at h
  repeat' split at h
  all_goals cases h
  all_goals subst c
  all_goals exact ⟨by decide, by decide⟩

theorem escapeChar_letter {number : Char → List Char} (h : letterEscape c = some x) :
    escapeChar number c = ['\\', x] := by
  rw [escapeChar, h]

/-- A character that is written as it is. -/
theorem escapeChar_plain {number : Char → List Char} (hletter : letterEscape c = none)
    (hnum : isNumbered c = false) : escapeChar number c = [c] ∧ c ≠ '\x00' := by
  rw [escapeChar, hletter]
  simp only
  by_cases hspace : c = ' '
  · subst hspace
    exact ⟨rfl, by decide⟩
  · have hgraph : isGraph c = true := by simpa [isNumbered, hletter, hspace] using hnum
    rw [if_neg hspace, if_neg (by simp [hgraph])]
    refine ⟨rfl, ?_⟩
    rintro rfl
    cases hgraph

/-- A character that is not written by its number. -/
theorem turns_single {number : Char → List Char} (hnum : isNumbered c = false)
    (hs : s.rest = escapeChar number c ++ w) :
    ∃ y, Turns ⟨.inString, c', none, s⟩
      (.inl ⟨.inString, y, none, s.reads (escapeChar number c) [c] w⟩) := by
  cases hletter : letterEscape c with
  | some x =>
      obtain ⟨hnull, hsimple⟩ := simpleEscape_letter hletter
      rw [escapeChar_letter hletter] at hs ⊢
      rw [List.cons_append, List.singleton_append] at hs
      refine ⟨'\\', turns_escape hs ⟨0, fun fuel _ => ?_⟩⟩
      have hrest : (s.reads ['\\'] [] (x :: w)).rest = x :: w :=
        Scanner.rest_reads (by rw [hs]; exact List.cons_ne_nil _ _)
      rw [getEscape, Scanner.nextchar_cons hrest]
      simp only [hsimple]
      rw [if_neg hnull, Scanner.delEnd_advance, Scanner.append_reads, Scanner.reads_reads]
      rfl
  | none =>
      obtain ⟨hplain, hnull⟩ : escapeChar number c = [c] ∧ c ≠ '\x00' :=
        escapeChar_plain hletter hnum
      have hne : c ≠ '"' ∧ c ≠ '\\' := by
        constructor
        · rintro rfl
          cases hletter
        · rintro rfl
          cases hletter
      rw [hplain] at hs ⊢
      refine ⟨c, 0, fun fuel _ => ?_⟩
      simp only [lookStep, lookInString]
      rw [Scanner.nextchar_cons hs]
      simp only
      rw [if_neg hnull, if_neg hne.1, if_neg hne.2]
      rfl

theorem turns_quote (hs : s.rest = '"' :: w) :
    Turns ⟨.inString, c', none, s⟩ (.inr (.string, s.reads ['"'] [] w)) := by
  refine ⟨0, fun fuel _ => ?_⟩
  simp only [lookStep, lookInString]
  rw [Scanner.nextchar_cons hs]
  simp only
  rw [if_neg (by decide), if_pos trivial, Scanner.delEnd_advance]

/-! ## A string -/

def escapeText (hex : Bool) (t : List Char) : List Char :=
  t.flatMap (escapeChar (numberText hex))

/-- What is read of a string. -/
def decoded (hex : Bool) : List Char → List Char
  | [] => []
  | c :: t =>
      if isNumbered c then
        charOf (numberValue hex c.toNat (t.takeWhile (isNumeral hex))) ::
          decoded hex (t.dropWhile (isNumeral hex))
      else c :: decoded hex t
termination_by t => t.length
decreasing_by
  · exact Nat.lt_succ_of_le (List.length_dropWhile_le _ t)
  · exact Nat.lt_succ_self _

theorem letterEscape_numeral (h : letterEscape c = some x) : isNumeral hex c = false := by
  unfold letterEscape at h
  repeat' split at h
  all_goals cases h
  all_goals subst c
  all_goals cases hex <;> decide

theorem isGraph_numeral (h : isNumeral hex c) : isGraph c := by
  have hdigit : isDigit c → isGraph c := by
    intro hd
    simp only [isDigit, decide_eq_true_eq] at hd
    have hlow : 48 ≤ c.toNat := hd.1
    have hhigh : c.toNat ≤ 57 := hd.2
    exact decide_eq_true ⟨by omega, by omega⟩
  cases hex with
  | false => exact hdigit h
  | true =>
      rcases Bool.or_eq_true_iff.1 h with hd | hletter
      · exact hdigit hd
      · simp only [decide_eq_true_eq] at hletter
        by_cases hupper : c.val ≥ 'A'.val ∧ c.val ≤ 'Z'.val
        · have hlow : 65 ≤ c.toNat := hupper.1
          have hhigh : c.toNat ≤ 90 := hupper.2
          exact decide_eq_true ⟨by omega, by omega⟩
        · rw [Char.toLower, dif_neg hupper] at hletter
          have hlow : 97 ≤ c.toNat := hletter.1
          have hhigh : c.toNat ≤ 102 := hletter.2
          exact decide_eq_true ⟨by omega, by omega⟩

theorem escapeChar_numeral {number : Char → List Char} (h : isNumeral hex c) :
    escapeChar number c = [c] ∧ c ≠ '\x00' := by
  have hletter : letterEscape c = none := by
    cases hl : letterEscape c with
    | none => rfl
    | some x =>
        rw [letterEscape_numeral hl] at h
        cases h
  exact escapeChar_plain hletter (by simp [isNumbered, isGraph_numeral h])

theorem escapeChar_number {number : Char → List Char} (h : isNumbered c) :
    escapeChar number c = '\\' :: number c := by
  simp only [isNumbered, decide_eq_true_eq] at h
  rw [escapeChar, h.1]
  simp only
  rw [if_neg h.2.1, if_pos h.2.2]

theorem escapeText_numerals {sw : List Char} (h : ∀ d ∈ sw, isNumeral hex d) :
    escapeText hex sw = sw := by
  induction sw with
  | nil => rfl
  | cons d sw ih =>
      obtain ⟨hd, hsw⟩ := List.forall_mem_cons.1 h
      rw [escapeText, List.flatMap_cons, (escapeChar_numeral hd).1]
      exact congrArg (d :: ·) (ih hsw)

/-- The character in front of which a number ends. -/
theorem escapeText_next {t : List Char} (h : ∀ y ∈ t.head?, ¬ isNumeral hex y) (w : List Char) :
    ∃ x v, escapeText hex t ++ '"' :: w = x :: v ∧ ¬ isNumeral hex x ∧ x ≠ '\x00' := by
  cases t with
  | nil => exact ⟨'"', w, rfl, by cases hex <;> decide, by decide⟩
  | cons y t =>
      rw [escapeText, List.flatMap_cons, List.append_assoc]
      have hback : ¬ isNumeral hex '\\' ∧ '\\' ≠ '\x00' := by
        cases hex <;> decide
      cases hnum : isNumbered y with
      | true =>
          rw [escapeChar_number hnum]
          exact ⟨'\\', _, rfl, hback⟩
      | false =>
          cases hletter : letterEscape y with
          | some x =>
              rw [escapeChar_letter hletter]
              exact ⟨'\\', _, rfl, hback⟩
          | none =>
              obtain ⟨hplain, hnull⟩ : escapeChar (numberText hex) y = [y] ∧ y ≠ '\x00' :=
                escapeChar_plain hletter hnum
              rw [hplain]
              exact ⟨y, _, rfl, h y rfl, hnull⟩

theorem separated_cons {digit : Char → Bool} {t : List Char} : Separated digit (c :: t) ↔
    (∀ y ∈ t.head?, isNumbered c → digit y = false) ∧ Separated digit t := by
  cases t with
  | nil => simp [Separated]
  | cons y t =>
      rw [Separated, Separated, List.isChain_cons_cons]
      simp

theorem decoded_length (t : List Char) : (decoded hex t).length ≤ t.length := by
  fun_induction decoded hex t with
  | case1 => exact Nat.le_refl _
  | case2 c t _ ih => exact Nat.succ_le_succ (ih.trans (List.length_dropWhile_le _ t))
  | case3 c t _ ih => exact Nat.succ_le_succ ih

theorem charOf_toNat (h : c.toNat < 256) : charOf c.toNat = c := by
  rw [charOf, Nat.mod_eq_of_lt h, Char.ofNat_toNat]

/-- What is read of a string is the string, or shorter. -/
theorem decoded_eq_iff {t : List Char} (ht : ∀ c ∈ t, c.toNat < 256) :
    decoded hex t = t ↔ Separated (isNumeral hex) t := by
  fun_induction decoded hex t with
  | case1 => exact iff_of_true rfl List.isChain_nil
  | case2 c t hnum ih =>
      obtain ⟨hc, ht⟩ := List.forall_mem_cons.1 ht
      rw [separated_cons]
      by_cases hhead : ∀ y ∈ t.head?, isNumeral hex y = false
      · have hdrop : t.dropWhile (isNumeral hex) = t := by
          cases t with
          | nil => rfl
          | cons y t => exact List.dropWhile_cons_of_neg (by simp [hhead y rfl])
        have htake : t.takeWhile (isNumeral hex) = [] := by
          cases t with
          | nil => rfl
          | cons y t => exact List.takeWhile_cons_of_neg (by simp [hhead y rfl])
        rw [hdrop] at ih
        rw [hdrop, htake, numberValue, List.foldl_nil, charOf_toNat hc, List.cons.injEq,
          and_iff_right rfl, ih ht, and_iff_right fun y hy _ => hhead y hy]
      · refine iff_of_false (fun heq => ?_) fun hsep => hhead fun y hy => hsep.1 y hy hnum
        have hle : (decoded hex (t.dropWhile (isNumeral hex))).length ≤ _ := decoded_length _
        rw [(List.cons.inj heq).2] at hle
        refine hhead fun y hy => Bool.eq_false_iff.2 fun hnumeral => ?_
        obtain ⟨t, rfl⟩ := List.head?_eq_some_iff.1 hy
        rw [List.dropWhile_cons_of_pos hnumeral, List.length_cons] at hle
        have hdrop := List.length_dropWhile_le (isNumeral hex) t
        omega
  | case3 c t hnum ih =>
      rw [separated_cons, List.cons.injEq, and_iff_right rfl,
        ih (List.forall_mem_cons.1 ht).2, and_iff_right fun y _ h => absurd h hnum]

theorem loops_escaped (t : List Char) {result : Token × Scanner}
    (hs : s.rest = escapeText hex t ++ '"' :: w) :
    Loops ⟨.inString, c', none, s⟩ result ↔
      result = (.string, s.reads (escapeText hex t ++ ['"']) (decoded hex t) w) := by
  fun_induction decoded hex t generalizing s c' with
  | case1 => exact (turns_quote hs).stops
  | case2 c t hnum ih =>
      have hsw : ∀ d ∈ t.takeWhile (isNumeral hex), isNumeral hex d := fun d hd =>
        List.mem_takeWhile_imp hd
      have hsplit : escapeText hex t = t.takeWhile (isNumeral hex) ++
          escapeText hex (t.dropWhile (isNumeral hex)) := by
        conv_lhs => rw [← List.takeWhile_append_dropWhile (p := isNumeral hex) (l := t)]
        rw [escapeText, List.flatMap_append]
        exact congrArg (· ++ _) (escapeText_numerals hsw)
      have hhead : ∀ y ∈ (t.dropWhile (isNumeral hex)).head?, ¬ isNumeral hex y := by
        intro y hy
        have hnot := List.head?_dropWhile_not (isNumeral hex) t
        rw [hy] at hnot
        exact Bool.eq_false_iff.1 hnot
      obtain ⟨x, v, hnext, hx, hnull⟩ := escapeText_next hhead w
      have htext : escapeText hex (c :: t) = '\\' :: (numberText hex c ++ escapeText hex t) := by
        rw [escapeText, List.flatMap_cons, escapeChar_number hnum]
        rfl
      rw [htext, hsplit] at hs ⊢
      have hnumber : s.rest =
          '\\' :: (numberText hex c ++ t.takeWhile (isNumeral hex) ++ x :: v) := by
        rw [hs, ← hnext]
        simp
      rw [(turns_number hsw hx hnull hnumber).goes, ih, Scanner.reads_reads]
      · simp
      · rw [Scanner.rest_reads (by rw [hnumber]; exact List.cons_ne_nil _ _), hnext]
  | case3 c t hnum ih =>
      have hnum' : isNumbered c = false := Bool.eq_false_iff.2 hnum
      have htext : escapeText hex (c :: t) = escapeChar (numberText hex) c ++ escapeText hex t :=
        List.flatMap_cons
      rw [htext, List.append_assoc] at hs ⊢
      obtain ⟨y, hturn⟩ : ∃ y, Turns ⟨.inString, c', none, s⟩ _ := turns_single hnum' hs
      have hne : s.rest ≠ [] := by
        rw [hs]
        simp
      rw [hturn.goes, ih (Scanner.rest_reads hne), Scanner.reads_reads]
      rfl

/-- The quote is read, given back and read again. -/
theorem looks_string {token : Token} {s' : Scanner} (hs : s.rest = '"' :: w) :
    Looks s token s' ↔
      Loops ⟨.inString, '"', none, (s.advance ['"'] w).startConstant⟩ (token, s') := by
  have hs₀ : s.startConstant.rest = '"' :: w := hs
  have hstart : Turns ⟨.start, '\x00', none, s.startConstant⟩
      (.inl ⟨.first, '"', none, s.startConstant⟩) := by
    refine ⟨0, fun fuel _ => ?_⟩
    simp only [lookStep, lookStart]
    rw [Scanner.nextchar_cons hs₀]
    simp only
    rw [if_neg (by decide), if_neg (by decide), if_pos (by decide), Scanner.retract_read hs₀]
    rfl
  have hfirst : Turns ⟨.first, '"', none, s.startConstant⟩
      (.inl ⟨.string, '"', none, (s.advance ['"'] w).startConstant⟩) := by
    refine ⟨0, fun fuel _ => ?_⟩
    simp only [lookStep, lookFirst]
    rw [Scanner.nextchar_cons hs₀]
    simp only
    rw [if_neg (by decide), if_neg (by decide), if_pos trivial]
    rfl
  have hstring : Turns ⟨.string, '"', none, (s.advance ['"'] w).startConstant⟩
      (.inl ⟨.inString, '"', none, (s.advance ['"'] w).startConstant⟩) :=
    ⟨0, fun fuel _ => rfl⟩
  exact hstart.goes.trans (hfirst.goes.trans hstring.goes)

end Reading

section Strings

variable (s : Scanner) (src : Source) (hex : Bool) {t rest : List Char}

theorem scansString_iff (ht : ∀ c ∈ t, c.toNat < 256) :
    ScansString s src (escapeText hex t) t rest ↔ Separated (isNumeral hex) t := by
  rw [← decoded_eq_iff ht]
  let begun : Scanner :=
    { s with str := some { src with after := quoted (escapeText hex t) ++ rest } }
  let inside := (begun.advance ['"'] (escapeText hex t ++ '"' :: rest)).startConstant
  have hbegun : begun.rest = '"' :: (escapeText hex t ++ '"' :: rest) := by
    simp [begun, Scanner.rest, quoted]
  have hinside : inside.rest = escapeText hex t ++ '"' :: rest := by
    show (begun.advance ['"'] (escapeText hex t ++ '"' :: rest)).rest = _
    exact Scanner.rest_advance (by rw [hbegun]; exact List.cons_ne_nil _ _)
  have hlooks (s' : Scanner) : Looks begun .string s' ↔
      s' = inside.reads (escapeText hex t ++ ['"']) (decoded hex t) rest := by
    rw [looks_string hbegun, loops_escaped t hinside, Prod.mk.injEq, and_iff_right rfl]
  constructor
  · rintro ⟨s', hs', htext, -⟩
    rw [(hlooks s').1 hs'] at htext
    exact htext
  · intro htext
    refine ⟨_, (hlooks _).2 rfl, htext, ?_, rfl⟩
    simp [inside, begun, Scanner.reads, Scanner.advance, Scanner.startConstant, quoted]

theorem byteChar_lt (b : UInt8) : (byteChar b).toNat < 256 := by
  have hb : b.toNat < 256 := b.toNat_lt
  have hvalid : b.toNat.isValidChar := .inl (by omega)
  rw [byteChar, Char.toNat_ofNat, if_pos hvalid]
  exact hb

/-- An escaped string is read back if and only if no number is followed by a numeral. -/
theorem stringEscape_scans_iff (bytes : List UInt8) (rest : List Char) :
    (ScansString s src (swigStringEscape (bytes.map byteChar)) (bytes.map byteChar) rest ↔
      Separated isDigit (bytes.map byteChar)) ∧
    (ScansString s src (swigStringHexescape (bytes.map byteChar)) (bytes.map byteChar) rest ↔
      Separated isHexDigit (bytes.map byteChar)) := by
  have hbytes : ∀ c ∈ bytes.map byteChar, c.toNat < 256 := by
    intro c hc
    obtain ⟨b, -, rfl⟩ := List.mem_map.1 hc
    exact byteChar_lt b
  exact ⟨scansString_iff s src false hbytes, scansString_iff s src true hbytes⟩

/-- The byte 1 in front of the digit 2 is written `\12` or `\x12`, and read as one byte. -/
theorem numberThenDigit_misread :
    let content := [(1 : UInt8), 50].map byteChar
    ¬ ScansString (scannerOf []) ⟨[], [], 1⟩ (swigStringEscape content) content [] ∧
      ¬ ScansString (scannerOf []) ⟨[], [], 1⟩ (swigStringHexescape content) content [] := by
  constructor
  · rintro ⟨s', ⟨steps, hlook⟩, htext, -⟩
    have hrun (n : Nat) : (look (n + 20) { scannerOf [] with
        str := some ⟨[], ['"', '\\', '1', '2', '"'], 1⟩ }).map (·.2.text) = some ['\n'] := rfl
    have hend := congrArg (Option.map (·.2.text)) (hlook (steps + 20) (by omega))
    have hread := hend.symm.trans (hrun steps)
    rw [Option.map_some, htext] at hread
    exact absurd hread (by decide)
  · rintro ⟨s', ⟨steps, hlook⟩, htext, -⟩
    have hrun (n : Nat) : (look (n + 20) { scannerOf [] with
        str := some ⟨[], ['"', '\\', 'x', '1', '2', '"'], 1⟩ }).map (·.2.text) =
          some ['\x12'] := rfl
    have hend := congrArg (Option.map (·.2.text)) (hlook (steps + 20) (by omega))
    have hread := hend.symm.trans (hrun steps)
    rw [Option.map_some, htext] at hread
    exact absurd hread (by decide)

end Strings

end Swig4Ada.Swig

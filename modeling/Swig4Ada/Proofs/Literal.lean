import Swig4Ada.Ada.CLiteral
import Swig4Ada.Proofs.ResolverReading

/-!
# Which literals are read as their value (`CLiteral.lean`)

A literal takes a turn for its digits and up to three for its suffix. The digits of every
base but the one behind `0x` are read in base ten, and behind `0X` the reading stops at the
`0`.
-/

namespace Swig4Ada.Ada

/-! ## The suffix -/

section Suffix

variable {α : Type} {D : Discrete α} {knownSymbols : SymbolMap α} {nameSpace rest : List Char}
  {elements : List (Element α)} {v : α} {q : String} {c : Char} {cs : List Char}

def isSuffixChar (c : Char) : Prop := toUpper c = 'U' ∨ toUpper c = 'L'

theorem isSuffixChar_symbol (h : isSuffixChar c) : isSymbolChar c = true := by
  by_cases hlower : 'a' ≤ c ∧ c ≤ 'z'
  · simp only [isSymbolChar, hlower, and_self, decide_true, Bool.or_true, Bool.true_or]
  · rw [isSuffixChar, toUpper, if_neg hlower] at h
    rcases h with rfl | rfl
    · decide
    · decide

theorem isSuffixChar_notHex (h : isSuffixChar c) : isHexLiteralChar c = false := by
  by_cases hlower : 'a' ≤ c ∧ c ≤ 'z'
  · have hc : 'a'.toNat ≤ c.toNat ∧ c.toNat ≤ 'z'.toNat := by
      simpa [Char.le_def, UInt32.le_iff_toNat_le] using hlower
    have hn : c.toNat ∈ List.range' 97 26 := by
      rw [List.mem_range'_1]
      exact ⟨hc.1, Nat.lt_of_le_of_lt hc.2 (by decide)⟩
    have hall : ∀ n ∈ List.range' 97 26, toUpper (Char.ofNat n) = 'U' ∨
        toUpper (Char.ofNat n) = 'L' → isHexLiteralChar (Char.ofNat n) = false := by decide
    have hthis := hall _ hn
    rw [Char.ofNat_toNat] at hthis
    exact hthis h
  · rw [isSuffixChar, toUpper, if_neg hlower] at h
    rcases h with rfl | rfl
    · decide
    · decide

theorem isHexLiteralChar_symbol (h : isHexLiteralChar c = true) : isSymbolChar c = true := by
  simp only [isHexLiteralChar, Bool.or_eq_true, decide_eq_true_eq] at h
  simp only [isSymbolChar, Bool.or_eq_true, decide_eq_true_eq]
  rcases h with ((h | rfl) | h) | h
  · exact Or.inr h
  · exact Or.inl (Or.inl (Or.inr (by decide)))
  · exact Or.inl (Or.inl (Or.inl ⟨h.1, h.2.trans (by decide)⟩))
  · exact Or.inl (Or.inl (Or.inr ⟨h.1, h.2.trans (by decide)⟩))

theorem resolveRecursive_qualifier {fuel : Nat} {qualifier : String} {pad : List Char}
    (h : findFirst false c cs = .ok (.qualifier qualifier, pad)) :
    resolveRecursive D knownSymbols nameSpace false (fuel + 1) (c :: cs)
        (elements ++ [.value v q]) =
      resolveRecursive D knownSymbols nameSpace false fuel pad
        (elements ++ [.value v qualifier]) := by
  have hlast : qualifyLast (elements ++ [.value v q]) qualifier =
      .ok (elements ++ [.value v qualifier]) := by
    simp only [qualifyLast, List.getLast?_append, List.getLast?_singleton, Option.some_or,
      List.dropLast_concat]
  rw [resolveRecursive, h]
  change (qualifyLast (elements ++ [.value v q]) qualifier >>= fun elements =>
    resolveRecursive D knownSymbols nameSpace false fuel pad elements) = _
  rw [hlast]
  rfl

theorem notSpace_of_suffix (h : isSuffixChar c) : c ≠ ' ' := by
  rintro rfl
  rcases h with h | h
  · exact absurd h (by decide)
  · exact absurd h (by decide)

theorem findFirst_l (h : toUpper c = 'L') : findFirst false c cs = .ok (.qualifier "L", cs) := by
  have hne : toUpper c ≠ 'U' := by
    rw [h]
    decide
  rw [findFirst, if_neg (notSpace_of_suffix (Or.inr h)), if_neg, if_neg, if_pos ⟨rfl, h⟩]
  · rintro ⟨-, htake⟩
    exact hne (List.cons.inj htake).1
  · rintro ⟨-, htake⟩
    exact hne (List.cons.inj htake).1

theorem findFirst_u (h : toUpper c = 'U') (hnext : ∀ d, cs.head? = some d → toUpper d ≠ 'L') :
    findFirst false c cs = .ok (.qualifier "U", cs) := by
  have hne : ¬ toUpper c = 'L' := by
    rw [h]
    decide
  rw [findFirst, if_neg (notSpace_of_suffix (Or.inl h)), if_neg, if_neg, if_neg fun hl => hne hl.2,
    if_pos ⟨rfl, h⟩]
  · rintro ⟨hlen, htake⟩
    cases cs with
    | nil => exact absurd hlen (by simp)
    | cons d ds =>
        have htail : [toUpper d] = ['L'] := (List.cons.inj htake).2
        exact hnext d rfl (List.cons.inj htail).1
  · rintro ⟨hlen, htake⟩
    cases cs with
    | nil => exact absurd hlen (by simp)
    | cons d ds =>
        have htail : toUpper d :: (ds.take 1).map toUpper = ['L', 'L'] := (List.cons.inj htake).2
        exact hnext d rfl (List.cons.inj htail).1

theorem findFirst_ul {d : Char} (h : toUpper c = 'U') (hd : toUpper d = 'L')
    (hnext : ∀ e, cs.head? = some e → toUpper e ≠ 'L') :
    findFirst false c (d :: cs) = .ok (.qualifier "UL", cs) := by
  rw [findFirst, if_neg (notSpace_of_suffix (Or.inl h)), if_neg, if_pos]
  · rfl
  · refine ⟨?_, ?_⟩
    · rw [List.length_cons, List.length_cons]
      omega
    · show [toUpper c, toUpper d] = _
      rw [h, hd]
  · rintro ⟨hlen, htake⟩
    cases cs with
    | nil => exact absurd hlen (by simp)
    | cons e es =>
        have htail : [toUpper d, toUpper e] = ['L', 'L'] := (List.cons.inj htake).2
        exact hnext e rfl (List.cons.inj (List.cons.inj htail).2).1

theorem findFirst_ull {d e : Char} (h : toUpper c = 'U') (hd : toUpper d = 'L')
    (he : toUpper e = 'L') :
    findFirst false c (d :: e :: cs) = .ok (.qualifier "ULL", cs) := by
  rw [findFirst, if_neg (notSpace_of_suffix (Or.inl h)), if_pos]
  · rfl
  · refine ⟨?_, ?_⟩
    · rw [List.length_cons, List.length_cons, List.length_cons]
      omega
    · show [toUpper c, toUpper d, toUpper e] = _
      rw [h, hd, he]

theorem BreaksWord.notL (hstop : BreaksWord rest) {d : Char} (hd : rest.head? = some d) :
    toUpper d ≠ 'L' := by
  intro hL
  have hsymbol := isSuffixChar_symbol (Or.inr hL)
  rw [hstop d hd] at hsymbol
  exact nomatch hsymbol

/-- A turn takes some of the letters of a suffix. -/
theorem findFirst_suffix (hw : ∀ d ∈ c :: cs, isSuffixChar d) (hstop : BreaksWord rest) :
    ∃ qualifier left, left.length ≤ cs.length ∧ (∀ d ∈ left, isSuffixChar d) ∧
      findFirst false c (cs ++ rest) = .ok (.qualifier qualifier, left ++ rest) := by
  have hne : ∀ {d : Char}, toUpper d = 'U' → toUpper d ≠ 'L' := by
    intro d hd
    rw [hd]
    decide
  have hcs : ∀ d ∈ cs, isSuffixChar d := fun d hd => hw d (List.mem_cons_of_mem c hd)
  rcases hw c List.mem_cons_self with hU | hL
  · cases cs with
    | nil => exact ⟨_, [], le_refl _, hcs, findFirst_u hU fun d hd => hstop.notL hd⟩
    | cons d ds =>
        have hds : ∀ e ∈ ds, isSuffixChar e := fun e he => hcs e (List.mem_cons_of_mem d he)
        rcases hcs d List.mem_cons_self with hdU | hdL
        · refine ⟨_, d :: ds, le_refl _, hcs, findFirst_u hU fun x hx => ?_⟩
          obtain rfl : d = x := Option.some.inj hx
          exact hne hdU
        · cases ds with
          | nil => exact ⟨_, [], Nat.zero_le _, hds, findFirst_ul hU hdL fun x hx => hstop.notL hx⟩
          | cons e es =>
              rcases hds e List.mem_cons_self with heU | heL
              · refine ⟨_, e :: es, by simp, hds, findFirst_ul hU hdL fun x hx => ?_⟩
                obtain rfl : e = x := Option.some.inj hx
                exact hne heU
              · exact ⟨_, es, by simp only [List.length_cons]; omega,
                  fun x hx => hds x (List.mem_cons_of_mem e hx), findFirst_ull hU hdL heL⟩
  · exact ⟨_, cs, le_refl _, hcs, findFirst_l hL⟩

/-- The letters of a suffix change the qualifier of the value and nothing else. -/
theorem resolveRecursive_suffix (hstop : BreaksWord rest) (n : Nat) :
    ∀ (suffix : List Char) (q : String), suffix.length ≤ n → (∀ d ∈ suffix, isSuffixChar d) →
      ∃ turns qualifier, ∀ fuel,
        resolveRecursive D knownSymbols nameSpace false (fuel + turns) (suffix ++ rest)
            (elements ++ [.value v q]) =
          resolveRecursive D knownSymbols nameSpace false fuel rest
            (elements ++ [.value v qualifier]) := by
  induction n with
  | zero =>
      intro suffix q hlen hw
      obtain rfl := List.eq_nil_of_length_eq_zero (Nat.le_zero.1 hlen)
      exact ⟨0, q, fun fuel => rfl⟩
  | succ n ih =>
      intro suffix q hlen hw
      cases suffix with
      | nil => exact ⟨0, q, fun fuel => rfl⟩
      | cons c cs =>
          obtain ⟨qualifier, left, hleft, hword, hfind⟩ := findFirst_suffix hw hstop
          rw [List.length_cons] at hlen
          obtain ⟨turns, q', hrest⟩ := ih left qualifier (by omega) hword
          refine ⟨turns + 1, q', fun fuel => ?_⟩
          rw [List.cons_append, ← Nat.add_assoc, resolveRecursive_qualifier hfind, hrest]

end Suffix

/-! ## The digits -/

section Digits

variable {α : Type} {D : Discrete α} {knownSymbols : SymbolMap α} {nameSpace rest : List Char}
  {elements : List (Element α)} {isSingle : Bool}

theorem resolveRecursive_found {c : Char} {cs pad : List Char} {v : Int} {fuel : Nat}
    (h : findFirst isSingle c cs = .ok (.literal v, pad)) :
    resolveRecursive D knownSymbols nameSpace isSingle (fuel + 1) (c :: cs) elements =
      resolveRecursive D knownSymbols nameSpace isSingle fuel pad
        (elements ++ [.value (D.ofInt v) defaultQualifier]) := by
  rw [resolveRecursive, h]
  rfl

/-- Any digits are read in base ten. -/
theorem findFirst_digits {c : Char} {cs : List Char} (hdigits : ∀ d ∈ c :: cs, isDigit d = true)
    (hstop : ∀ d, rest.head? = some d → isDigit d = false ∧ d ≠ 'x') :
    findFirst isSingle c (cs ++ rest) = .ok (.literal (CLiteral.number 10 (c :: cs)), rest) := by
  have hx : ¬ (c :: (cs ++ rest)).take 2 = ['0', 'x'] := by
    intro htake
    have htail : (cs ++ rest).take 1 = ['x'] := (List.cons.inj htake).2
    cases cs with
    | cons d ds =>
        obtain rfl : d = 'x' := (List.cons.inj htail).1
        exact absurd (hdigits 'x' (by simp)) (by decide)
    | nil =>
        cases rest with
        | nil => exact nomatch htail
        | cons d ds =>
            obtain rfl : d = 'x' := (List.cons.inj htail).1
            exact (hstop 'x' rfl).2 rfl
  have htoken : findToken isDigit (c :: (cs ++ rest)) = ([], c :: cs, rest) :=
    findToken_append (List.cons_ne_nil c cs) hdigits fun d hd => (hstop d hd).1
  have hvalue : toInt (c :: cs) = some ((CLiteral.number 10 (c :: cs) : Nat) : Int) := by
    rw [toInt, index_zero_x_digits hdigits]
    exact toIntDecimal_digits hdigits
  rw [findFirst_digit (hdigits c List.mem_cons_self), if_neg hx, findLiteral, htoken]
  simp only [hvalue, List.nil_append]

end Digits

/-! ## Literals -/

namespace CLiteral

variable {n : CLiteral} {rest : List Char}

theorem suffix_letters (n : CLiteral) : ∀ c ∈ n.suffix, isSuffixChar c := by
  intro c hc
  have hmem : toUpper c ∈ n.suffix.map toUpper := List.mem_map_of_mem hc
  have hletters : ∀ s ∈ literalSuffixes, ∀ d ∈ s, d = 'U' ∨ d = 'L' := by
    simp [literalSuffixes]
  exact hletters _ n.suffixValid _ hmem

/-- What is behind the digits is no part of them. -/
theorem behind_digits (n : CLiteral) (hstop : BreaksWord rest) : StopsLiteral (n.suffix ++ rest) := by
  intro c hc
  cases hsuffix : n.suffix with
  | nil =>
      rw [hsuffix] at hc
      have hsymbol := hstop c hc
      by_contra hhex
      rw [isHexLiteralChar_symbol (Bool.not_eq_false _ ▸ hhex)] at hsymbol
      exact nomatch hsymbol
  | cons d ds =>
      rw [hsuffix] at hc
      obtain rfl : d = c := Option.some.inj hc
      exact isSuffixChar_notHex (n.suffix_letters d (by rw [hsuffix]; exact List.mem_cons_self))

/-- A reading goes on behind a literal once its digits are found. -/
theorem readAs_of_found {v : Int} {D : Discrete Int} {knownSymbols : SymbolMap Int}
    {nameSpace : List Char} {isSingle : Bool} {elements : List (Element Int)} {c : Char}
    {cs : List Char} (htext : n.base.mark ++ n.digits = c :: cs) (hstop : BreaksWord rest)
    (hsingle : isSingle = true → (n.text ++ rest).length ≤ 1)
    (hfind : findFirst isSingle c (cs ++ (n.suffix ++ rest)) =
      .ok (.literal v, n.suffix ++ rest)) :
    ∃ turns qualifier, ∀ fuel,
      resolveRecursive D knownSymbols nameSpace isSingle (fuel + turns) (n.text ++ rest)
          elements =
        resolveRecursive D knownSymbols nameSpace isSingle fuel rest
          (elements ++ [.value (D.ofInt v) qualifier]) := by
  have hall : n.text ++ rest = c :: (cs ++ (n.suffix ++ rest)) := by
    rw [text, htext, List.cons_append, List.cons_append, List.append_assoc]
  rw [hall] at hsingle ⊢
  cases isSingle with
  | true =>
      -- A single character has no suffix.
      have hlen := hsingle rfl
      rw [List.length_cons, List.length_append] at hlen
      have hnil : n.suffix ++ rest = [] := List.eq_nil_of_length_eq_zero (by omega)
      obtain ⟨-, rfl⟩ := List.append_eq_nil_iff.1 hnil
      refine ⟨1, defaultQualifier, fun fuel => ?_⟩
      rw [resolveRecursive_found hfind, hnil]
  | false =>
      obtain ⟨turns, qualifier, hsuffix⟩ : ∃ turns qualifier, ∀ fuel,
          resolveRecursive D knownSymbols nameSpace false (fuel + turns) (n.suffix ++ rest)
              (elements ++ [.value (D.ofInt v) defaultQualifier]) = _ :=
        resolveRecursive_suffix hstop n.suffix.length n.suffix defaultQualifier (le_refl _)
          n.suffix_letters
      refine ⟨turns + 1, qualifier, fun fuel => ?_⟩
      rw [← Nat.add_assoc, resolveRecursive_found hfind, hsuffix]

theorem stopsDigits (hstop : StopsLiteral rest) {c : Char} (hc : rest.head? = some c) :
    isDigit c = false ∧ c ≠ 'x' := by
  have hhex := hstop c hc
  refine ⟨?_, ?_⟩
  · simp only [isHexLiteralChar, Bool.or_eq_false_iff] at hhex
    exact hhex.1.1.1
  · rintro rfl
    cases hhex

theorem isOctalDigit_digit {c : Char} (h : isOctalDigit c = true) : isDigit c = true := by
  simp only [isOctalDigit, decide_eq_true_eq] at h
  simp only [isDigit, decide_eq_true_eq]
  exact ⟨h.1, h.2.trans (by decide)⟩

/-- How the reading goes on behind a literal that is read as `v`. -/
def ReadAs (n : CLiteral) (v : Nat) : Prop :=
  ∀ (knownSymbols : SymbolMap Int) (nameSpace : List Char) (isSingle : Bool) (rest : List Char)
    (elements : List (Element Int)),
    BreaksWord rest → (isSingle = true → (n.text ++ rest).length ≤ 1) →
      ∃ turns qualifier, ∀ fuel,
        resolveRecursive gmp knownSymbols nameSpace isSingle (fuel + turns) (n.text ++ rest)
            elements =
          resolveRecursive gmp knownSymbols nameSpace isSingle fuel rest
            (elements ++ [.value (v : Int) qualifier])

theorem readAs_decimal (n : CLiteral) {c : Char} {cs : List Char}
    (htext : n.base.mark ++ n.digits = c :: cs) (hdigits : ∀ d ∈ c :: cs, isDigit d = true) :
    n.ReadAs (number 10 (c :: cs)) := by
  intro knownSymbols nameSpace isSingle rest elements hstop hsingle
  exact readAs_of_found htext hstop hsingle
    (findFirst_digits hdigits fun d hd => stopsDigits (n.behind_digits hstop) hd)

/-- Every digit of the other bases is read in base ten. -/
theorem readAs_digits (n : CLiteral) (hbase : n.base = .decimal ∨ n.base = .octal) :
    n.ReadAs (number 10 n.digits) := by
  have hvalid := n.digitsValid
  rcases hbase with hbase | hbase
  · rw [hbase] at hvalid
    obtain ⟨hne, -, hdigits⟩ := hvalid
    obtain ⟨c, cs, hcons⟩ := List.exists_cons_of_ne_nil hne
    have htext : n.base.mark ++ n.digits = c :: cs := by
      rw [hbase, hcons]
      rfl
    rw [hcons] at hdigits ⊢
    exact n.readAs_decimal htext hdigits
  · rw [hbase] at hvalid
    have htext : n.base.mark ++ n.digits = '0' :: n.digits := by
      rw [hbase]
      rfl
    have hdigits : ∀ d ∈ '0' :: n.digits, isDigit d = true := by
      intro d hd
      rcases List.mem_cons.1 hd with rfl | hd
      · decide
      · exact isOctalDigit_digit (hvalid d hd)
    exact n.readAs_decimal htext hdigits

theorem readAs_hexadecimal (n : CLiteral) (hbase : n.base = .hexadecimal false) :
    n.ReadAs n.value := by
  have hvalid := n.digitsValid
  rw [hbase] at hvalid
  obtain ⟨hne, hdigits⟩ := hvalid
  have htext : n.base.mark ++ n.digits = '0' :: 'x' :: n.digits := by
    rw [hbase]
    rfl
  have hvalue : n.value = (Literal.hexadecimal n.digits hne hdigits).value := by
    rw [value, hbase]
    rfl
  intro knownSymbols nameSpace isSingle rest elements hstop hsingle
  rw [hvalue]
  exact readAs_of_found htext hstop hsingle
    (findFirst_literal (Literal.hexadecimal n.digits hne hdigits) (n.behind_digits hstop) rfl)

/-! ### Octal literals -/

theorem number_lt {digits : List Char} {a b : Nat} (h : b < a) :
    digits.foldl (fun n c => n * 8 + digitValue c) b <
      digits.foldl (fun n c => n * 10 + digitValue c) a := by
  induction digits generalizing a b with
  | nil => exact h
  | cons c cs ih =>
      have hstep : b * 8 + digitValue c < a * 10 + digitValue c := by omega
      exact ih hstep

theorem number_zeros (radix : Nat) (digits : List Char) :
    number radix digits = number radix (digits.dropWhile (· = '0')) := by
  induction digits with
  | nil => rfl
  | cons c cs ih =>
      by_cases hc : c = '0'
      · subst hc
        have hzero : 0 * radix + digitValue '0' = 0 := by
          rw [Nat.zero_mul]
          rfl
        rw [List.dropWhile_cons_of_pos (by decide), ← ih, number, List.foldl_cons, hzero, number]
      · rw [List.dropWhile_cons_of_neg (by simp [hc])]

/-- Two digits or more stand for different numbers in the two bases. -/
theorem number_octal_iff {digits : List Char} (hdigits : ∀ c ∈ digits, isOctalDigit c = true) :
    number 10 digits = number 8 digits ↔ (digits.dropWhile (· = '0')).length ≤ 1 := by
  rw [number_zeros 10, number_zeros 8]
  cases hdrop : digits.dropWhile (· = '0') with
  | nil => exact ⟨fun _ => Nat.zero_le 1, fun _ => rfl⟩
  | cons c cs =>
      cases cs with
      | nil =>
          refine ⟨fun _ => le_refl _, fun _ => ?_⟩
          rw [number, number, List.foldl_cons, List.foldl_cons, Nat.zero_mul]
          rfl
      | cons d ds =>
          refine ⟨fun heq => ?_, fun hlen => ?_⟩
          · have hc : c ≠ '0' := by
              have hhead := List.head?_dropWhile_not (fun x => decide (x = '0')) digits
              rw [hdrop] at hhead
              simpa using hhead
            have hmem : c ∈ digits :=
              (List.dropWhile_sublist _).subset (by rw [hdrop]; exact List.mem_cons_self)
            have hpos : 0 < digitValue c := by
              have hcases := isDigit_cases (isOctalDigit_digit (hdigits c hmem))
              simp only [List.mem_cons, List.not_mem_nil, or_false] at hcases
              rcases hcases with rfl | rfl | rfl | rfl | rfl | rfl | rfl | rfl | rfl | rfl
              · exact absurd rfl hc
              all_goals decide
            have hless : number 8 (c :: d :: ds) < number 10 (c :: d :: ds) := by
              rw [number, number, List.foldl_cons, List.foldl_cons, List.foldl_cons,
                List.foldl_cons]
              exact number_lt (by omega)
            omega
          · rw [List.length_cons, List.length_cons] at hlen
            omega

/-! ### The result -/

theorem resolveRecursive_one (knownSymbols : SymbolMap Int) (nameSpace : List Char) (fuel : Nat)
    (v : Int) (q : String) :
    resolveRecursive gmp knownSymbols nameSpace false (fuel + 1) [] [.value v q] =
      .ok ((v, q), []) := by
  rw [resolveRecursive]
  rfl

/-- A literal is not read as two numbers. -/
theorem ReadAs.unique {n : CLiteral} {v w : Nat} (hv : n.ReadAs v) (hw : n.ReadAs w) : v = w := by
  obtain ⟨turns, q, hread⟩ := hv (fun _ => none) [] false [] [] nofun nofun
  obtain ⟨turns', q', hread'⟩ := hw (fun _ => none) [] false [] [] nofun nofun
  have hone := hread (turns' + 1)
  have htwo := hread' (turns + 1)
  rw [List.nil_append, resolveRecursive_one] at hone htwo
  rw [show turns' + 1 + turns = turns + 1 + turns' by omega] at hone
  have hsame := Except.ok.inj (hone.symm.trans htwo)
  exact Int.ofNat.inj (congrArg (fun r => r.1.1) hsame)

/-- Behind `0X` the digits are looked up as a name. -/
theorem not_readAs_upper {n : CLiteral} (hbase : n.base = .hexadecimal true) (v : Nat) :
    ¬ n.ReadAs v := by
  intro hread
  have hvalid := n.digitsValid
  rw [hbase] at hvalid
  obtain ⟨hne, hdigits⟩ := hvalid
  obtain ⟨d, ds, hcons⟩ := List.exists_cons_of_ne_nil hne
  have hspace : d ≠ ' ' := by
    rintro rfl
    rw [hcons] at hdigits
    exact absurd (hdigits ' ' List.mem_cons_self) (by decide)
  have htext : n.text ++ [] = '0' :: ([] ++ 'X' :: d :: (ds ++ n.suffix)) := by
    rw [List.append_nil, text, hbase, hcons]
    rfl
  have hzero : findFirst false '0' ([] ++ 'X' :: d :: (ds ++ n.suffix)) =
      .ok (.literal (number 10 ['0']), 'X' :: d :: (ds ++ n.suffix)) := by
    refine findFirst_digits (fun c hc => ?_) fun c hc => ?_
    · obtain rfl := List.mem_singleton.1 hc
      decide
    · obtain rfl : 'X' = c := Option.some.inj hc
      decide
  have hname : findFirst false 'X' (d :: (ds ++ n.suffix)) =
      let token := findToken isSymbolChar ('X' :: d :: (ds ++ n.suffix))
      .ok (.symbol token.2.1, token.1 ++ token.2.2) := by
    simp [findFirst, toUpper, isDigit, hspace]
  obtain ⟨turns, q, hturns⟩ := hread (fun _ => none) [] false [] [] (by intro c hc; cases hc) (by intro h; cases h)
  have hright := hturns 2
  rw [List.nil_append, resolveRecursive_one, htext, Nat.add_comm, show turns + 2 = turns + 1 + 1 from
    rfl, resolveRecursive_found hzero, resolveRecursive, hname] at hright
  cases hright

/-- A literal is read as its value in C if its digits say the same in base ten, or if it is
hexadecimal with `0x`, and only then. -/
theorem readAsInC_iff (n : CLiteral) : n.ReadAsInC ↔ n.Plain := by
  change n.ReadAs n.value ↔ _
  have hvalue : n.value = number n.base.radix n.digits := rfl
  have hvalid := n.digitsValid
  rw [Plain]
  cases hbase : n.base with
  | decimal =>
      refine ⟨fun _ => trivial, fun _ => ?_⟩
      rw [hvalue, hbase]
      exact n.readAs_digits (Or.inl hbase)
  | octal =>
      rw [hbase] at hvalid
      have hread := n.readAs_digits (Or.inr hbase)
      simp only
      rw [← number_octal_iff hvalid, hvalue, hbase]
      refine ⟨hread.unique, fun hsame => ?_⟩
      rw [show LiteralBase.octal.radix = 8 from rfl, ← hsame]
      exact hread
  | hexadecimal upper =>
      cases upper with
      | false => exact ⟨fun _ => rfl, fun _ => n.readAs_hexadecimal hbase⟩
      | true => exact ⟨fun hread => absurd hread (not_readAs_upper hbase _), nofun⟩

/-- `010`. -/
def octalTen : CLiteral where
  base := .octal
  digits := ['1', '0']
  suffix := []
  digitsValid := by
    intro c hc
    rcases List.mem_cons.1 hc with rfl | hc
    · decide
    · obtain rfl := List.mem_singleton.1 hc
      decide
  suffixValid := List.mem_cons_self

/-- `010` is read as ten. -/
theorem octalTen_not_read :
    resolvedCIntegerExpression gmp (fun _ => none) [] octalTen.text = .ok 10 ∧
      octalTen.value = 8 ∧ ¬ octalTen.ReadAsInC := by
  refine ⟨by decide, by decide, fun hread => ?_⟩
  have hdecimal := octalTen.readAs_digits (Or.inr rfl)
  exact absurd (ReadAs.unique hread hdecimal) (by decide)

end CLiteral

end Swig4Ada.Ada

import Swig4Ada.Proofs.ResolverTurns

/-!
# What the resolver finds at a word

A word is a run of the characters of names and literals. The tests of a turn that can
hold at one of its characters look at the word itself, and past it at one character: the
parenthesis behind `sizeof`, and the space behind a single character. `wordFinding` is
the list of these tests.
-/

namespace Swig4Ada.Ada

/-- What comes next is not part of a word before it. -/
def StopsWord (rest : List Char) : Prop :=
  ∀ x, rest.head? = some x → isSymbolChar x = false

theorem take_word {g : Char → Char} {pat w rest : List Char}
    (hrest : ∀ x, rest.head? = some x → g x ∉ pat) :
    ((w ++ rest).take pat.length).map g = pat ↔ (w.take pat.length).map g = pat := by
  rcases Nat.lt_or_ge w.length pat.length with hlt | hge
  · have hshort : (w.take pat.length).map g ≠ pat := by
      intro h
      have hlen := congrArg List.length h
      rw [List.length_map, List.length_take] at hlen
      omega
    refine ⟨fun h => ?_, fun h => absurd h hshort⟩
    cases rest with
    | nil => simpa using h
    | cons t rest =>
        -- The next character would be one of the pattern.
        have hmem : g t ∈ ((w ++ t :: rest).take pat.length).map g := by
          refine List.mem_map_of_mem ?_
          rw [List.take_append, List.take_of_length_le hlt.le, List.mem_append]
          right
          obtain ⟨k, hk⟩ : ∃ k, pat.length - w.length = k + 1 :=
            ⟨pat.length - w.length - 1, by omega⟩
          rw [hk, List.take_succ_cons]
          exact List.mem_cons_self
        rw [h] at hmem
        exact absurd hmem (hrest t rfl)
  · rw [List.take_append_of_le_length hge]

theorem takeWhile_word {set : Char → Bool} {w rest : List Char}
    (hrest : ∀ x, rest.head? = some x → set x = false) :
    (w ++ rest).takeWhile set = w.takeWhile set ∧
      (w ++ rest).dropWhile set = w.dropWhile set ++ rest := by
  induction w with
  | nil =>
      cases rest with
      | nil => exact ⟨rfl, rfl⟩
      | cons t rest => simp [hrest t rfl]
  | cons x w ih =>
      rw [List.cons_append]
      cases hx : set x with
      | true => simp [hx, ih.1, ih.2]
      | false => simp [hx]

theorem isSymbolChar_of_hex {c : Char} (h : isHexLiteralChar c = true) :
    isSymbolChar c = true := by
  simp only [isHexLiteralChar, isSymbolChar, isDigit, Bool.or_eq_true, decide_eq_true_eq,
    Bool.decide_and, Bool.and_eq_true, Char.le_def, UInt32.le_iff_toNat_le] at h ⊢
  rcases h with ((h | rfl) | h) | h
  · exact Or.inr h
  · exact Or.inl (Or.inl (Or.inr (by decide)))
  · refine Or.inl (Or.inl (Or.inl ⟨h.1, h.2.trans (by decide)⟩))
  · refine Or.inl (Or.inl (Or.inr ⟨h.1, h.2.trans (by decide)⟩))

theorem isSymbolChar_of_digit {c : Char} (h : isDigit c = true) : isSymbolChar c = true :=
  isSymbolChar_of_hex (by simp [isHexLiteralChar, h])

theorem toUpper_of_not_symbol {c : Char} (h : isSymbolChar c = false) : toUpper c = c := by
  rw [toUpper, if_neg]
  intro hc
  simp [isSymbolChar, hc.1, hc.2] at h

/-- A literal that a word begins with. -/
def literalInWord (set : Char → Bool) (c : Char) (w rest : List Char) :
    Except ResolverFault (Finding × List Char) :=
  match toInt (c :: w.takeWhile set) with
  | none => .error .constraintError
  | some n => .ok (.literal n, w.dropWhile set ++ rest)

theorem findLiteral_word {set : Char → Bool} {c : Char} {w rest : List Char}
    (hc : set c = true) (hrest : ∀ x, rest.head? = some x → set x = false) :
    findLiteral set (c :: (w ++ rest)) = literalInWord set c w rest := by
  obtain ⟨htake, hdrop⟩ := takeWhile_word (w := w) hrest
  rw [findLiteral, findToken_head hc, htake, hdrop, literalInWord]
  rfl

theorem sizeof_word {w rest : List Char} (hw : ∀ x ∈ w, isSymbolChar x = true)
    (hrest : StopsWord rest) :
    (w ++ rest).take 7 = ['s', 'i', 'z', 'e', 'o', 'f', '('] ↔
      w = ['s', 'i', 'z', 'e', 'o', 'f'] ∧ rest.head? = some '(' := by
  constructor
  · intro h
    rcases Nat.lt_or_ge w.length 7 with hlt | hge
    · rw [List.take_append, List.take_of_length_le (by omega)] at h
      cases rest with
      | nil =>
          have hlen := congrArg List.length h
          simp at hlen
          omega
      | cons t rest =>
          obtain ⟨k, hk⟩ : ∃ k, 7 - w.length = k + 1 := ⟨6 - w.length, by omega⟩
          rw [hk, List.take_succ_cons] at h
          have ht := hrest t rfl
          -- Of the pattern only the last character is none of a word.
          have hat : (['s', 'i', 'z', 'e', 'o', 'f', '('] : List Char)[w.length]? = some t := by
            rw [← h]
            simp
          have hsix : w.length = 6 := by
            have hcases : w.length = 0 ∨ w.length = 1 ∨ w.length = 2 ∨ w.length = 3 ∨
                w.length = 4 ∨ w.length = 5 ∨ w.length = 6 := by omega
            rcases hcases with h | h | h | h | h | h | h <;> rw [h] at hat <;>
              first
                | exact h
                | (obtain rfl := Option.some.inj hat; exact absurd ht (by decide))
          rw [hsix] at hat
          obtain rfl := Option.some.inj hat
          refine ⟨?_, rfl⟩
          have htake := congrArg (List.take 6) h
          rwa [List.take_left' hsix] at htake
    · rw [List.take_append_of_le_length hge] at h
      have hmem : '(' ∈ w := List.mem_of_mem_take (by rw [h]; simp)
      exact absurd (hw _ hmem) (by decide)
  · rintro ⟨rfl, hhead⟩
    cases rest with
    | nil => cases hhead
    | cons t rest =>
        obtain rfl : t = '(' := by simpa using hhead
        rfl

/-- Whether a word begins with some characters, in capitals, is not up to what follows it. -/
theorem upper_word {w rest : List Char} (hrest : StopsWord rest) (pat : List Char)
    (hpat : pat.all isSymbolChar = true) :
    ((w ++ rest).take pat.length).map toUpper = pat ↔ (w.take pat.length).map toUpper = pat := by
  refine take_word fun x hx hmem => ?_
  rw [toUpper_of_not_symbol (hrest x hx)] at hmem
  have hsymbol := List.all_eq_true.1 hpat x hmem
  rw [hrest x hx] at hsymbol
  cases hsymbol

theorem suffix_word {w : List Char} (pat rest : List Char)
    (h : (w.take pat.length).map toUpper = pat) : pat.length ≤ (w ++ rest).length ∧
      (w ++ rest).drop pat.length = w.drop pat.length ++ rest := by
  have hlen : pat.length ≤ w.length := by
    have hmin := congrArg List.length h
    rw [List.length_map, List.length_take] at hmin
    exact min_eq_left_iff.1 hmin
  exact ⟨by rw [List.length_append]; omega, List.drop_append_of_le_length hlen⟩

theorem hexPrefix_word {w rest : List Char} (hrest : StopsWord rest) :
    (w ++ rest).take 2 = ['0', 'x'] ↔ w.take 2 = ['0', 'x'] := by
  have hpat : ((w ++ rest).take ['0', 'x'].length).map id = ['0', 'x'] ↔
      (w.take ['0', 'x'].length).map id = ['0', 'x'] := by
    refine take_word fun x hx hmem => ?_
    have hx' := hrest x hx
    simp only [id, List.mem_cons, List.not_mem_nil, or_false] at hmem
    rcases hmem with rfl | rfl <;> exact absurd hx' (by decide)
  simpa using hpat

theorem single_word {c : Char} {w rest : List Char} (hw : ∀ x ∈ w, isSymbolChar x = true) :
    ((c :: (w ++ rest)).length = 1 ∨ (c :: (w ++ rest))[1]? = some ' ') ↔
      w = [] ∧ (rest = [] ∨ rest.head? = some ' ') := by
  cases w with
  | nil => cases rest <;> simp
  | cons x w =>
      have hx : x ≠ ' ' := by
        rintro rfl
        exact absurd (hw ' ' List.mem_cons_self) (by decide)
      simp [hx]

theorem StopsWord.stops {rest : List Char} (hrest : StopsWord rest) {set : Char → Bool}
    (hset : ∀ x, set x = true → isSymbolChar x = true) :
    ∀ x, rest.head? = some x → set x = false := by
  intro x hx
  by_contra hne
  have hsymbol := hset x (by simpa using hne)
  rw [hrest x hx] at hsymbol
  cases hsymbol

theorem findToken_word {c : Char} {w rest : List Char} (hc : isSymbolChar c = true)
    (hw : ∀ x ∈ w, isSymbolChar x = true) (hrest : StopsWord rest) :
    findToken isSymbolChar (c :: (w ++ rest)) = ([], c :: w, rest) := by
  obtain ⟨htake, hdrop⟩ := takeWhile_word (w := w) hrest
  rw [findToken_head hc, htake, hdrop, List.takeWhile_eq_self_iff.2 hw,
    List.dropWhile_eq_nil_iff.2 hw]
  rfl

/-- What the tests find at a character of a word, from the word and what follows it. -/
def wordFinding (c : Char) (w rest : List Char) : Except ResolverFault (Finding × List Char) :=
  if ((c :: w).take 3).map toUpper = ['U', 'L', 'L'] then
    .ok (.qualifier "ULL", (c :: w).drop 3 ++ rest)
  else if ((c :: w).take 2).map toUpper = ['U', 'L'] then
    .ok (.qualifier "UL", (c :: w).drop 2 ++ rest)
  else if toUpper c = 'L' then .ok (.qualifier "L", w ++ rest)
  else if toUpper c = 'U' then .ok (.qualifier "U", w ++ rest)
  else if c :: w = ['s', 'i', 'z', 'e', 'o', 'f'] ∧ rest.head? = some '(' then
    match index [')'] rest.tail with
    | none => .error .constraintError
    | some last => .ok (.sizeof (rest.tail.take last), rest.tail.drop (last + 1))
  else if (c :: w).take 2 = ['0', 'x'] then literalInWord isHexLiteralChar c w rest
  else if isDigit c then literalInWord isDigit c w rest
  else if w = [] ∧ (rest = [] ∨ rest.head? = some ' ') then .ok (.literal c.toNat, rest)
  else .ok (.symbol (c :: w), rest)

theorem findFirst_word {c : Char} {w rest : List Char} (hc : isSymbolChar c = true)
    (hw : ∀ x ∈ w, isSymbolChar x = true) (hrest : StopsWord rest) :
    findFirst false c (w ++ rest) = wordFinding c w rest := by
  have hmark : ∀ m, isSymbolChar m = false → ¬ c = m := by
    rintro m hm rfl
    rw [hc] at hm
    cases hm
  have htwo : ∀ a b, isSymbolChar a = false → ¬ (c :: (w ++ rest)).take 2 = [a, b] :=
    fun a b ha h => hmark a ha (List.cons.inj h).1
  have hall : ∀ x ∈ c :: w, isSymbolChar x = true := by
    intro x hx
    rcases List.mem_cons.1 hx with rfl | hx
    · exact hc
    · exact hw x hx
  have hthree : ((c :: (w ++ rest)).take 3).map toUpper = ['U', 'L', 'L'] ↔ _ :=
    upper_word (w := c :: w) hrest ['U', 'L', 'L'] (by decide)
  have hpair : ((c :: (w ++ rest)).take 2).map toUpper = ['U', 'L'] ↔ _ :=
    upper_word (w := c :: w) hrest ['U', 'L'] (by decide)
  have hzero := hexPrefix_word (w := c :: w) hrest
  have hsize := sizeof_word hall hrest
  rw [wordFinding, findFirst]
  refine (if_neg (hmark ' ' (by decide))).trans ?_
  by_cases h₁ : ((c :: w).take 3).map toUpper = ['U', 'L', 'L']
  · obtain ⟨hlong, hdrop⟩ := suffix_word ['U', 'L', 'L'] rest h₁
    refine (if_pos ⟨hlong, hthree.2 h₁⟩).trans ?_
    rw [if_pos h₁]
    exact congrArg (fun t => Except.ok (Finding.qualifier "ULL", t)) hdrop
  refine (if_neg fun h => h₁ (hthree.1 h.2)).trans ?_
  rw [if_neg h₁]
  by_cases h₂ : ((c :: w).take 2).map toUpper = ['U', 'L']
  · obtain ⟨hlong, hdrop⟩ := suffix_word ['U', 'L'] rest h₂
    refine (if_pos ⟨hlong, hpair.2 h₂⟩).trans ?_
    rw [if_pos h₂]
    exact congrArg (fun t => Except.ok (Finding.qualifier "UL", t)) hdrop
  refine (if_neg fun h => h₂ (hpair.1 h.2)).trans ?_
  rw [if_neg h₂]
  by_cases h₃ : toUpper c = 'L'
  · rw [if_pos h₃]
    exact if_pos ⟨rfl, h₃⟩
  refine (if_neg fun h => h₃ h.2).trans ?_
  rw [if_neg h₃]
  by_cases h₄ : toUpper c = 'U'
  · rw [if_pos h₄]
    exact if_pos ⟨rfl, h₄⟩
  refine (if_neg fun h => h₄ h.2).trans ?_
  rw [if_neg h₄]
  refine (if_neg (hmark '(' (by decide))).trans ?_
  refine (if_neg (hmark '!' (by decide))).trans ?_
  refine (if_neg (hmark '+' (by decide))).trans ?_
  refine (if_neg (hmark '-' (by decide))).trans ?_
  refine (if_neg (hmark '~' (by decide))).trans ?_
  refine (if_neg (hmark '*' (by decide))).trans ?_
  refine (if_neg (hmark '/' (by decide))).trans ?_
  refine (if_neg (htwo '|' '|' (by decide))).trans ?_
  refine (if_neg (hmark '|' (by decide))).trans ?_
  refine (if_neg (htwo '&' '&' (by decide))).trans ?_
  refine (if_neg (hmark '&' (by decide))).trans ?_
  refine (if_neg (hmark '^' (by decide))).trans ?_
  by_cases h₅ : c :: w = ['s', 'i', 'z', 'e', 'o', 'f'] ∧ rest.head? = some '('
  · refine (if_pos (hsize.2 h₅)).trans ?_
    rw [if_pos h₅]
    obtain ⟨rest, rfl⟩ : ∃ rest', rest = '(' :: rest' := by
      cases rest with
      | nil => cases h₅.2
      | cons t rest => exact ⟨rest, by rw [show t = '(' by simpa using h₅.2]⟩
    have hdrop : (c :: (w ++ '(' :: rest)).drop 7 = rest := by
      rw [← List.cons_append, h₅.1]
      rfl
    show (match index [')'] ((c :: (w ++ '(' :: rest)).drop 7) with
      | none => _
      | some last => _) = _
    rw [hdrop]
    rfl
  refine (if_neg fun h => h₅ (hsize.1 h)).trans ?_
  rw [if_neg h₅]
  refine (if_neg (htwo '<' '<' (by decide))).trans ?_
  refine (if_neg (htwo '>' '>' (by decide))).trans ?_
  refine (if_neg (hmark ')' (by decide))).trans ?_
  by_cases h₆ : (c :: w).take 2 = ['0', 'x']
  · refine (if_pos (hzero.2 h₆)).trans ?_
    rw [if_pos h₆]
    refine findLiteral_word ?_ (hrest.stops fun x => isSymbolChar_of_hex)
    rw [(List.cons.inj h₆).1]
    rfl
  refine (if_neg fun h => h₆ (hzero.1 h)).trans ?_
  rw [if_neg h₆]
  by_cases h₇ : isDigit c = true
  · refine (if_pos h₇).trans ?_
    rw [if_pos h₇]
    exact findLiteral_word h₇ (hrest.stops fun x => isSymbolChar_of_digit)
  refine (if_neg h₇).trans ?_
  rw [if_neg h₇]
  by_cases h₈ : w = [] ∧ (rest = [] ∨ rest.head? = some ' ')
  · refine (if_pos ((single_word hw).2 h₈)).trans ?_
    rw [if_pos h₈, h₈.1]
    rfl
  refine (if_neg fun h => h₈ ((single_word hw).1 h)).trans ?_
  rw [if_neg h₈]
  show (.ok (.symbol (findToken isSymbolChar (c :: (w ++ rest))).2.1,
    (findToken isSymbolChar (c :: (w ++ rest))).1 ++
      (findToken isSymbolChar (c :: (w ++ rest))).2.2) :
      Except ResolverFault (Finding × List Char)) = _
  rw [findToken_word hc hw hrest]
  rfl

end Swig4Ada.Ada

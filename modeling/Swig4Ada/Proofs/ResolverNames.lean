import Swig4Ada.Ada.Identifier
import Swig4Ada.Proofs.ResolverReading
import Swig4Ada.Proofs.ResolverWords

/-!
# Names and their values

A name is read as its value when the tests before it let it through: those for the
suffixes of literals take the first letter of a name that begins with `l` or `u`, and a
single letter that stands alone is read as a character. Then the reading of an
expression is the same when the name is replaced by its value in parentheses.

The loop is compared at the pads of the two texts. They begin with the same characters
up to the name, and these are read alike, because no test looks past a character that is
not one of a name. Behind the name and its value the pads are one text.
-/

namespace Swig4Ada.Ada

/-! ## Texts before a name -/

/-- A space, a parenthesis or a character that is an operator, alone or twice. -/
def isMark (c : Char) : Bool :=
  c = ' ' || c = '(' || c = ')' || c = '!' || c = '+' || c = '-' || c = '~' || c = '*' ||
    c = '/' || c = '|' || c = '&' || c = '^'

/-- `sizeof(`. -/
def sizeofText : List Char := ['s', 'i', 'z', 'e', 'o', 'f', '(']

/-- A sequence of the words, marks and shifts that the resolver knows, and of `sizeof`
with any type. -/
inductive Lexical : List Char → Prop
  | nil : Lexical []
  | mark {c : Char} {u : List Char} : isMark c = true → Lexical u → Lexical (c :: u)
  | shift {c : Char} {u : List Char} : c = '<' ∨ c = '>' → Lexical u → Lexical (c :: c :: u)
  | word {w u : List Char} : w ≠ [] → (∀ x ∈ w, isSymbolChar x = true) → StopsWord u →
      Lexical u → Lexical (w ++ u)
  | sizeof {type u : List Char} : ')' ∉ type → Lexical u →
      Lexical (sizeofText ++ (type ++ ')' :: u))

/-- A name may follow: it does not run on from a word, and is not in the parentheses of
a `sizeof`. -/
structure Ready (u : List Char) : Prop where
  lexical : Lexical u
  delimited : ∀ x, u.getLast? = some x → isSymbolChar x = false
  outside : ∀ a b, u = a ++ (sizeofText ++ b) → ')' ∈ b

theorem Ready.suffix {d u : List Char} (h : Ready (d ++ u)) (hu : Lexical u) : Ready u where
  lexical := hu
  delimited x hx := h.delimited x (by
    cases u with
    | nil => cases hx
    | cons y u => rw [List.getLast?_append, hx]; rfl)
  outside a b hab := h.outside (d ++ a) b (by rw [hab, List.append_assoc])

theorem isMark_not_symbol {c : Char} (h : isMark c = true) : isSymbolChar c = false := by
  simp only [isMark, Bool.or_eq_true, decide_eq_true_eq] at h
  rcases h with ((((((((((rfl | rfl) | rfl) | rfl) | rfl) | rfl) | rfl) | rfl) | rfl) | rfl) |
    rfl) | rfl <;> rfl

/-- The rest of a lexical text that begins with a mark. -/
theorem Lexical.tail {c : Char} {u : List Char} (hc : isMark c = true)
    (h : Lexical (c :: u)) : Lexical u := by
  obtain ⟨l, hl⟩ : ∃ l, l = c :: u := ⟨_, rfl⟩
  rw [← hl] at h
  cases h with
  | nil => cases hl
  | mark _ hu =>
      obtain ⟨-, rfl⟩ := List.cons.inj hl
      exact hu
  | shift hd _ =>
      obtain ⟨rfl, -⟩ := List.cons.inj hl
      rcases hd with rfl | rfl <;> cases hc
  | @word w u' hne hw _ _ =>
      obtain ⟨x, w, rfl⟩ := List.exists_cons_of_ne_nil hne
      obtain ⟨rfl, -⟩ := List.cons.inj hl
      have hsymbol := hw x List.mem_cons_self
      rw [isMark_not_symbol hc] at hsymbol
      cases hsymbol
  | sizeof _ _ =>
      obtain ⟨rfl, -⟩ := List.cons.inj hl
      cases hc

/-- Behind the first closing parenthesis a lexical text goes on as one. -/
theorem Lexical.after_close {l a u : List Char} (h : Lexical l) (hl : l = a ++ ')' :: u)
    (ha : ')' ∉ a) : Lexical u := by
  induction h generalizing a with
  | nil => exact absurd hl (by simp)
  | @mark c v hc hv ih =>
      cases a with
      | nil =>
          obtain ⟨-, rfl⟩ := List.cons.inj hl
          exact hv
      | cons x a =>
          obtain ⟨-, hv'⟩ := List.cons.inj hl
          exact ih hv' fun hmem => ha (List.mem_cons_of_mem _ hmem)
  | @shift c v hc _ ih =>
      have hne : c ≠ ')' := by rcases hc with rfl | rfl <;> decide
      cases a with
      | nil => exact absurd (List.cons.inj hl).1 hne
      | cons x a =>
          cases a with
          | nil => exact absurd (List.cons.inj (List.cons.inj hl).2).1 hne
          | cons y a =>
              exact ih (List.cons.inj (List.cons.inj hl).2).2 fun hmem =>
                ha (List.mem_cons_of_mem _ (List.mem_cons_of_mem _ hmem))
  | @word w v _ hw _ _ ih =>
      have hclose : ')' ∉ w := fun hmem => absurd (hw _ hmem) (by decide)
      rcases List.append_eq_append_iff.1 hl with ⟨a', rfl, hv⟩ | ⟨w', rfl, hv⟩
      · exact ih hv fun hmem => ha (List.mem_append_right _ hmem)
      · cases w' with
        | nil => exact ih (a := []) hv.symm List.not_mem_nil
        | cons x w' =>
            obtain ⟨rfl, -⟩ := List.cons.inj hv
            exact absurd (List.mem_append_right _ List.mem_cons_self) hclose
  | @sizeof type v htype hv _ =>
      have hhead : ')' ∉ sizeofText ++ type := by
        rw [List.mem_append]
        rintro (hmem | hmem)
        · exact absurd hmem (by decide)
        · exact htype hmem
      rw [← List.append_assoc] at hl
      -- The first closing parenthesis is at one place.
      have hsame : sizeofText ++ type = a ∧ ')' :: v = ')' :: u := by
        rcases List.append_eq_append_iff.1 hl with ⟨d, rfl, hd⟩ | ⟨d, hd, hd'⟩
        · cases d with
          | nil => exact ⟨by simp, hd⟩
          | cons x d =>
              obtain ⟨rfl, -⟩ := List.cons.inj hd
              exact absurd (List.mem_append_right _ List.mem_cons_self) ha
        · cases d with
          | nil => exact ⟨by simpa using hd, hd'.symm⟩
          | cons x d =>
              obtain ⟨rfl, -⟩ := List.cons.inj hd'
              rw [hd] at hhead
              exact absurd (List.mem_append_right _ List.mem_cons_self) hhead
      obtain ⟨-, rfl⟩ := List.cons.inj hsame.2
      exact hv

/-- A text that begins with a name or a parenthesis. -/
def StartsOperand (text : List Char) : Prop :=
  ∃ y rest, text = y :: rest ∧ (y = '(' ∨ isSymbolChar y = true)

theorem findFirst_mark {c : Char} (hc : isMark c = true) (hor : c ≠ '|') (hand : c ≠ '&') :
    ∃ f, ∀ cs, findFirst false c cs = .ok (f, cs) := by
  simp only [isMark, Bool.or_eq_true, decide_eq_true_eq] at hc
  rcases hc with ((((((((((rfl | rfl) | rfl) | rfl) | rfl) | rfl) | rfl) | rfl) | rfl) | h) |
    h) | rfl
  · exact ⟨.space, fun cs => by simp [findFirst]⟩
  · exact ⟨.openParen, fun cs => by simp [findFirst, toUpper]⟩
  · exact ⟨.closeParen, fun cs => by simp [findFirst, toUpper]⟩
  · exact ⟨.operator .not, fun cs => by simp [findFirst, toUpper]⟩
  · exact ⟨.operator .plus, fun cs => by simp [findFirst, toUpper]⟩
  · exact ⟨.operator .minus, fun cs => by simp [findFirst, toUpper]⟩
  · exact ⟨.operator .complement, fun cs => by simp [findFirst, toUpper]⟩
  · exact ⟨.operator .times, fun cs => by simp [findFirst, toUpper]⟩
  · exact ⟨.operator .divide, fun cs => by simp [findFirst, toUpper]⟩
  · exact absurd h hor
  · exact absurd h hand
  · exact ⟨.operator .xor, fun cs => by simp [findFirst, toUpper]⟩

theorem findFirst_twice {c : Char} (hc : c = '|' ∨ c = '&') :
    ∃ once twice, (∀ cs, findFirst false c (c :: cs) = .ok (twice, cs)) ∧
      ∀ d cs, d ≠ c → findFirst false c (d :: cs) = .ok (once, d :: cs) := by
  rcases hc with rfl | rfl
  · refine ⟨.operator .or, .operator .orElse, fun cs => ?_, fun d cs hd => ?_⟩
    · simp [findFirst, toUpper]
    · simp [findFirst, toUpper, hd]
  · refine ⟨.operator .and, .operator .andThen, fun cs => ?_, fun d cs hd => ?_⟩
    · simp [findFirst, toUpper]
    · simp [findFirst, toUpper, hd]

theorem findFirst_sizeof {type rest : List Char} (h : ')' ∉ type) :
    findFirst false 's' ('i' :: 'z' :: 'e' :: 'o' :: 'f' :: '(' :: (type ++ ')' :: rest)) =
      .ok (.sizeof type, rest) := by
  have hdrop : (type ++ ')' :: rest).drop (type.length + 1) = rest := by
    rw [← List.drop_drop, List.drop_left]
    rfl
  simp [findFirst, toUpper, index_char h, hdrop]

/-- Before a name or its value a turn finds the same, and leaves a text before it. -/
def FindsAlike (c : Char) (cs : List Char) : Prop :=
  (∃ fault, ∀ operand, StartsOperand operand →
    findFirst false c (cs ++ operand) = .error fault) ∨
  ∃ f u, Ready u ∧ ∀ operand, StartsOperand operand →
    findFirst false c (cs ++ operand) = .ok (f, u ++ operand)

theorem findsAlike_word {c : Char} {w u : List Char} (hc : isSymbolChar c = true)
    (hw : ∀ x ∈ w, isSymbolChar x = true) (hstop : StopsWord u) (hu : Lexical u)
    (h : Ready (c :: w ++ u)) : FindsAlike c (w ++ u) := by
  -- Something follows the word, or it would run on into the name.
  have hne : u ≠ [] := by
    rintro rfl
    rw [List.append_nil] at h
    have hlast := h.delimited _ (List.getLast?_eq_some_getLast (List.cons_ne_nil c w))
    have hmem := List.getLast_mem (List.cons_ne_nil c w)
    rcases List.mem_cons.1 hmem with heq | hmem
    · rw [heq, hc] at hlast
      cases hlast
    · rw [hw _ hmem] at hlast
      cases hlast
  obtain ⟨t, u, rfl⟩ := List.exists_cons_of_ne_nil hne
  have hfind : ∀ operand, findFirst false c (w ++ t :: u ++ operand) =
      wordFinding c w (t :: (u ++ operand)) := by
    intro operand
    rw [List.append_assoc, List.cons_append]
    exact findFirst_word hc hw fun x hx => hstop x hx
  -- What is left of a word is lexical before what follows it.
  have hpart : ∀ w' v : List Char, c :: w = v ++ w' → Ready (w' ++ t :: u) := by
    intro w' v hv
    have hsplit : Ready (v ++ (w' ++ t :: u)) := by
      rw [← List.append_assoc, ← hv]
      exact h
    refine hsplit.suffix ?_
    cases w' with
    | nil => exact hu
    | cons x w' =>
        refine .word (List.cons_ne_nil x w') (fun y hy => ?_) hstop hu
        have hmem : y ∈ c :: w := by
          rw [hv]
          exact List.mem_append_right _ hy
        rcases List.mem_cons.1 hmem with rfl | hmem
        · exact hc
        · exact hw y hmem
  have hfound : ∀ (f : Finding) (w' v : List Char), c :: w = v ++ w' →
      (∀ operand, wordFinding c w (t :: (u ++ operand)) = .ok (f, w' ++ t :: (u ++ operand))) →
      FindsAlike c (w ++ t :: u) := by
    intro f w' v hv heq
    refine Or.inr ⟨f, w' ++ t :: u, hpart w' v hv, fun operand _ => ?_⟩
    rw [hfind, heq, List.append_assoc, List.cons_append]
  have hliteral : ∀ set, (∀ operand, wordFinding c w (t :: (u ++ operand)) =
      literalInWord set c w (t :: (u ++ operand))) → FindsAlike c (w ++ t :: u) := by
    intro set heq
    cases hint : toInt (c :: w.takeWhile set) with
    | none =>
        refine Or.inl ⟨.constraintError, fun operand _ => ?_⟩
        rw [hfind, heq, literalInWord, hint]
    | some n =>
        refine hfound (.literal n) (w.dropWhile set) (c :: w.takeWhile set) ?_ fun operand => ?_
        · rw [List.cons_append, List.takeWhile_append_dropWhile]
        · rw [heq, literalInWord, hint]
  simp only [wordFinding] at hfound hliteral hfind
  by_cases h₁ : ((c :: w).take 3).map toUpper = ['U', 'L', 'L']
  · exact hfound _ _ _ (List.take_append_drop 3 (c :: w)).symm fun _ => if_pos h₁
  simp only [if_neg h₁] at hfound hliteral hfind
  by_cases h₂ : ((c :: w).take 2).map toUpper = ['U', 'L']
  · exact hfound _ _ _ (List.take_append_drop 2 (c :: w)).symm fun _ => if_pos h₂
  simp only [if_neg h₂] at hfound hliteral hfind
  by_cases h₃ : toUpper c = 'L'
  · exact hfound _ w [c] rfl fun _ => if_pos h₃
  simp only [if_neg h₃] at hfound hliteral hfind
  by_cases h₄ : toUpper c = 'U'
  · exact hfound _ w [c] rfl fun _ => if_pos h₄
  simp only [if_neg h₄] at hfound hliteral hfind
  by_cases h₅ : c :: w = ['s', 'i', 'z', 'e', 'o', 'f'] ∧ t = '('
  · obtain ⟨hsizeof, rfl⟩ := h₅
    have hclose := h.outside [] u (by rw [hsizeof]; rfl)
    obtain ⟨type, rest, rfl, htype⟩ := List.eq_append_cons_of_mem hclose
    have hrest : Lexical rest := (hu.tail (by decide)).after_close rfl htype
    have hready : Ready ((c :: w ++ '(' :: type ++ [')']) ++ rest) := by simpa using h
    obtain ⟨rfl, rfl⟩ := List.cons.inj hsizeof
    refine Or.inr ⟨.sizeof type, rest, hready.suffix hrest, fun operand _ => ?_⟩
    simpa using findFirst_sizeof htype
  simp only [List.head?_cons, Option.some.injEq, if_neg h₅] at hfound hliteral hfind
  by_cases h₆ : (c :: w).take 2 = ['0', 'x']
  · exact hliteral _ fun _ => if_pos h₆
  simp only [if_neg h₆] at hfound hliteral hfind
  by_cases h₇ : isDigit c = true
  · exact hliteral _ fun _ => if_pos h₇
  simp only [if_neg h₇] at hfound hliteral hfind
  by_cases h₈ : w = [] ∧ t = ' '
  · exact hfound (.literal c.toNat) w [c] rfl fun _ => by simp [h₈]
  · refine hfound (.symbol (c :: w)) [] (c :: w) (by simp) fun _ => ?_
    rw [if_neg (by simpa using h₈)]
    rfl

theorem findsAlike {c : Char} {cs : List Char} (h : Ready (c :: cs)) : FindsAlike c cs := by
  obtain ⟨l, hl⟩ : ∃ l, l = c :: cs := ⟨_, rfl⟩
  have hlexical := h.lexical
  rw [← hl] at hlexical
  cases hlexical with
  | nil => cases hl
  | @mark m u hm hu =>
      obtain ⟨rfl, rfl⟩ := List.cons.inj hl
      have hready : Ready u := Ready.suffix (d := [m]) h hu
      by_cases htwice : m = '|' ∨ m = '&'
      · obtain ⟨once, twice, htwo, hone⟩ := findFirst_twice htwice
        cases u with
        | nil =>
            refine Or.inr ⟨once, [], hready, fun operand hoperand => ?_⟩
            obtain ⟨y, rest, rfl, hy⟩ := hoperand
            refine hone y rest ?_
            rintro rfl
            rcases hy with rfl | hy
            · exact absurd htwice (by decide)
            · rw [isMark_not_symbol hm] at hy
              cases hy
        | cons d u =>
            by_cases hd : d = m
            · subst hd
              refine Or.inr ⟨twice, u, Ready.suffix (d := [d]) hready (hu.tail hm),
                fun operand _ => ?_⟩
              exact htwo (u ++ operand)
            · exact Or.inr ⟨once, d :: u, hready, fun operand _ => hone d (u ++ operand) hd⟩
      · obtain ⟨f, hf⟩ := findFirst_mark hm (fun h => htwice (Or.inl h))
          fun h => htwice (Or.inr h)
        exact Or.inr ⟨f, u, hready, fun operand _ => hf (u ++ operand)⟩
  | @shift m u hm hu =>
      obtain ⟨rfl, rfl⟩ := List.cons.inj hl
      have hready : Ready u := Ready.suffix (d := [m, m]) h hu
      rcases hm with rfl | rfl
      · exact Or.inr ⟨.operator .shiftLeft, u, hready, fun operand _ => by
          simp [findFirst, toUpper]⟩
      · exact Or.inr ⟨.operator .shiftRight, u, hready, fun operand _ => by
          simp [findFirst, toUpper]⟩
  | @word w u hne hw hstop hu =>
      obtain ⟨x, w, rfl⟩ := List.exists_cons_of_ne_nil hne
      obtain ⟨rfl, rfl⟩ := List.cons.inj hl
      exact findsAlike_word (hw x List.mem_cons_self)
        (fun y hy => hw y (List.mem_cons_of_mem _ hy)) hstop hu h
  | @sizeof type u htype hu =>
      obtain ⟨rfl, rfl⟩ := List.cons.inj hl
      have hready : Ready ((sizeofText ++ type ++ [')']) ++ u) := by
        simpa [sizeofText] using h
      refine Or.inr ⟨.sizeof type, u, hready.suffix hu, fun operand _ => ?_⟩
      simpa using findFirst_sizeof htype

/-! ## Readings up to a name -/

variable {D : Discrete Int} {knownSymbols : SymbolMap Int} {nameSpace : List Char}

/-- The readings of a text are those of what is behind its first operand, with a value
read. -/
def ReadsAs (knownSymbols : SymbolMap Int) (nameSpace text behind : List Char) (v : Int) :
    Prop :=
  StartsOperand text ∧ ∀ elements r,
    Reads gmp knownSymbols nameSpace false text elements r ↔
      Reads gmp knownSymbols nameSpace false behind
        (elements ++ [.value v defaultQualifier]) r

/-- What two readings leave: one text, or the two operands behind one text. -/
def LeavesAlike (a b left left' : List Char) : Prop :=
  left = left' ∨ ∃ u, Ready u ∧ left = u ++ a ∧ left' = u ++ b

theorem reads_alike {a b behind : List Char} {v : Int}
    (ha : ReadsAs knownSymbols nameSpace a behind v)
    (hb : ReadsAs knownSymbols nameSpace b behind v) {fuel : Nat} :
    ∀ {u : List Char} {elements : List (Element Int)} {r : Reading Int}, Ready u →
      resolveRecursive gmp knownSymbols nameSpace false fuel (u ++ a) elements = .ok r →
      ∃ left', Reads gmp knownSymbols nameSpace false (u ++ b) elements (r.1, left') ∧
        LeavesAlike a b r.2 left' := by
  induction fuel with
  | zero =>
      intro u elements r _ h
      rw [resolveRecursive] at h
      cases h
  | succ fuel ih =>
      intro u elements r hu h
      cases u with
      | nil =>
          have hbehind := (ha.2 elements r).1 ⟨_, h⟩
          exact ⟨r.2, (hb.2 elements r).2 hbehind, Or.inl rfl⟩
      | cons c cs =>
          rw [List.cons_append] at h
          obtain ⟨f, pad, hfind, hrest⟩ := resolveRecursive_cons.1 h
          rcases findsAlike hu with ⟨fault, herror⟩ | ⟨g, u', hu', hok⟩
          · rw [herror a ha.1] at hfind
            cases hfind
          rw [hok a ha.1] at hfind
          obtain ⟨rfl, rfl⟩ := Prod.mk.inj (Except.ok.inj hfind)
          -- The readings that follow, of the text behind the finding.
          have hread : ∀ elements',
              resolveRecursive gmp knownSymbols nameSpace false fuel (u' ++ a) elements' = .ok r →
              ∃ left', Reads gmp knownSymbols nameSpace false (u' ++ b) elements' (r.1, left') ∧
                LeavesAlike a b r.2 left' := fun elements' h => ih hu' h
          have hcons : ∀ left',
              Continues gmp knownSymbols nameSpace (Reads gmp knownSymbols nameSpace false)
                (Sizes gmp knownSymbols nameSpace) g (u' ++ b) elements (r.1, left') →
              Reads gmp knownSymbols nameSpace false (c :: cs ++ b) elements (r.1, left') :=
            fun left' h => Reads.cons (hok b hb.1) h
          cases g with
          | space =>
              obtain ⟨left', hreads, hleft⟩ := hread _ hrest
              exact ⟨left', hcons left' hreads, hleft⟩
          | qualifier q =>
              obtain ⟨elements', hq, hrest⟩ := hrest
              obtain ⟨left', hreads, hleft⟩ := hread _ hrest
              exact ⟨left', hcons left' ⟨elements', hq, hreads⟩, hleft⟩
          | openParen =>
              obtain ⟨inner, hinner, hrest⟩ := hrest
              obtain ⟨left₁, hreads₁, hleft₁⟩ := ih hu' hinner
              rcases hleft₁ with hsame | ⟨u'', hu'', hfirst, hsecond⟩
              · refine ⟨r.2, hcons r.2 ⟨(inner.1, left₁), hreads₁, fuel, ?_⟩, Or.inl rfl⟩
                rw [← hsame]
                exact hrest
              · rw [hfirst] at hrest
                obtain ⟨left', hreads, hleft⟩ := ih hu'' hrest
                refine ⟨left', hcons left' ⟨(inner.1, left₁), hreads₁, ?_⟩, hleft⟩
                rw [hsecond]
                exact hreads
          | closeParen =>
              obtain ⟨w, hw, rfl⟩ := hrest
              exact ⟨u' ++ b, hcons _ ⟨w, hw, rfl⟩, Or.inr ⟨u', hu', rfl, rfl⟩⟩
          | operator code =>
              obtain ⟨left', hreads, hleft⟩ := hread _ hrest
              exact ⟨left', hcons left' hreads, hleft⟩
          | sizeof slice =>
              obtain ⟨size, hsize, hrest⟩ := hrest
              obtain ⟨left', hreads, hleft⟩ := hread _ hrest
              exact ⟨left', hcons left' ⟨size, ⟨fuel, hsize⟩, hreads⟩, hleft⟩
          | literal n =>
              obtain ⟨left', hreads, hleft⟩ := hread _ hrest
              exact ⟨left', hcons left' hreads, hleft⟩
          | symbol s =>
              obtain ⟨w, hw, hrest⟩ := hrest
              obtain ⟨left', hreads, hleft⟩ := hread _ hrest
              exact ⟨left', hcons left' ⟨w, hw, hreads⟩, hleft⟩

/-! ## A name and its value -/

theorem decimal_digits (n : Nat) :
    (∀ c ∈ Nat.toDigits 10 n, isDigit c = true) ∧
      (Nat.toDigits 10 n).foldl (fun n c => n * 10 + digitValue c) 0 = n ∧
      ((Nat.toDigits 10 n).head? = some '0' → n = 0) := by
  have hone : ∀ d < 10, isDigit (Nat.digitChar d) = true ∧
      digitValue (Nat.digitChar d) = d ∧ (Nat.digitChar d = '0' → d = 0) := by decide
  induction n using Nat.strong_induction_on with
  | _ n ih =>
      rcases Nat.lt_or_ge n 10 with hlt | hge
      · rw [Nat.toDigits_of_lt_base hlt]
        obtain ⟨hdigit, hvalue, hzero⟩ := hone n hlt
        refine ⟨fun c hc => ?_, by simp [hvalue], fun hhead => hzero (by simpa using hhead)⟩
        rw [List.mem_singleton.1 hc]
        exact hdigit
      · rw [Nat.toDigits_of_base_le (by omega) hge]
        obtain ⟨hdigits, hvalue, hzero⟩ := ih (n / 10) (by omega)
        obtain ⟨hdigit, hlast, -⟩ := hone (n % 10) (by omega)
        refine ⟨fun c hc => ?_, ?_, fun hhead => ?_⟩
        · rcases List.mem_append.1 hc with hc | hc
          · exact hdigits c hc
          · rw [List.mem_singleton.1 hc]
            exact hdigit
        · rw [List.foldl_append, hvalue]
          simp only [List.foldl_cons, List.foldl_nil, hlast]
          omega
        · rw [List.head?_append_of_ne_nil _ Nat.toDigits_ne_nil] at hhead
          have := hzero hhead
          omega

/-- A number as a decimal literal. -/
def decimalLiteral (n : Nat) : Literal :=
  .decimal (Nat.toDigits 10 n) Nat.toDigits_ne_nil (decimal_digits n).1 fun hhead => by
    rw [(decimal_digits n).2.2 hhead, Nat.toDigits_zero]

theorem decimalLiteral_value (n : Nat) : (decimalLiteral n).value = n :=
  (decimal_digits n).2.1

/-- The decimal value, in parentheses. -/
def valueText : Int → List Char
  | .ofNat n => '(' :: (Nat.toDigits 10 n ++ [')'])
  | .negSucc n => '(' :: '-' :: (Nat.toDigits 10 (n + 1) ++ [')'])

theorem reads_mark {c : Char} {f : Finding} (hfind : ∀ cs, findFirst false c cs = .ok (f, cs))
    {cs : List Char} {elements : List (Element Int)} {r : Reading Int} :
    Reads gmp knownSymbols nameSpace false (c :: cs) elements r ↔
      Continues gmp knownSymbols nameSpace (Reads gmp knownSymbols nameSpace false)
        (Sizes gmp knownSymbols nameSpace) f cs elements r := by
  rw [reads_cons]
  constructor
  · rintro ⟨g, pad, hg, h⟩
    rw [hfind] at hg
    obtain ⟨rfl, rfl⟩ := Prod.mk.inj (Except.ok.inj hg)
    exact h
  · exact fun h => ⟨f, cs, hfind cs, h⟩

theorem reads_digits (n : Nat) {behind : List Char} {elements : List (Element Int)}
    {r : Reading Int} :
    Reads gmp knownSymbols nameSpace false (Nat.toDigits 10 n ++ ')' :: behind) elements r ↔
      ∃ v, resultOf gmp (elements ++ [.value (n : Int) defaultQualifier]) = some v ∧
        r = (v, behind) := by
  have hclose : ∀ cs, findFirst false ')' cs = .ok (.closeParen, cs) := fun cs => by
    simp [findFirst, toUpper]
  obtain ⟨c, cs, hcons⟩ := List.exists_cons_of_ne_nil
    (List.append_ne_nil_of_left_ne_nil (Nat.toDigits_ne_nil (n := n) (b := 10)) (')' :: behind))
  have hstop : StopsLiteral (')' :: behind) := by
    intro x hx
    obtain rfl : ')' = x := by simpa using hx
    rfl
  have hfind : findFirst false c cs = .ok (.literal (decimalLiteral n).value, ')' :: behind) :=
    findFirst_literal (decimalLiteral n) hstop hcons
  rw [decimalLiteral_value] at hfind
  rw [hcons, reads_cons]
  constructor
  · rintro ⟨f, pad, hf, h⟩
    rw [hfind] at hf
    obtain ⟨rfl, rfl⟩ := Prod.mk.inj (Except.ok.inj hf)
    exact (reads_mark hclose).1 h
  · exact fun h => ⟨_, _, hfind, (reads_mark hclose).2 h⟩

theorem readsAs_value (v : Int) (behind : List Char) :
    ReadsAs knownSymbols nameSpace (valueText v ++ behind) behind v := by
  have hopen : ∀ cs, findFirst false '(' cs = .ok (.openParen, cs) := fun cs => by
    simp [findFirst, toUpper]
  have hminus : ∀ cs, findFirst false '-' cs = .ok (.operator .minus, cs) := fun cs => by
    simp [findFirst, toUpper]
  -- In parentheses the reading ends with the value, and leaves what is behind them.
  have hparen : ∀ text, (∀ r, Reads gmp knownSymbols nameSpace false text [] r ↔
      r = ((v, defaultQualifier), behind)) →
      ReadsAs knownSymbols nameSpace ('(' :: text) behind v := by
    intro text htext
    refine ⟨⟨'(', text, rfl, Or.inl rfl⟩, fun elements r => ?_⟩
    rw [reads_mark hopen]
    constructor
    · rintro ⟨inner, hinner, h⟩
      rw [(htext inner).1 hinner] at h
      exact h
    · exact fun h => ⟨_, (htext _).2 rfl, h⟩
  cases v with
  | ofNat n =>
      have htext : valueText (.ofNat n) ++ behind =
          '(' :: (Nat.toDigits 10 n ++ ')' :: behind) := by simp [valueText]
      rw [htext]
      refine hparen _ fun r => ?_
      rw [reads_digits]
      constructor
      · rintro ⟨w, hw, rfl⟩
        obtain rfl : ((n : Int), defaultQualifier) = w := Option.some.inj hw
        rfl
      · exact fun h => ⟨_, rfl, h⟩
  | negSucc n =>
      have htext : valueText (.negSucc n) ++ behind =
          '(' :: '-' :: (Nat.toDigits 10 (n + 1) ++ ')' :: behind) := by simp [valueText]
      rw [htext]
      refine hparen _ fun r => ?_
      rw [reads_mark hminus]
      show Reads gmp knownSymbols nameSpace false _ _ r ↔ _
      rw [reads_digits]
      constructor
      · rintro ⟨w, hw, rfl⟩
        obtain rfl : (-((n + 1 : Nat) : Int), defaultQualifier) = w := Option.some.inj hw
        rfl
      · exact fun h => ⟨_, rfl, h⟩

/-- A name of C, which is no keyword that the resolver knows. -/
structure CName where
  text : List Char
  identifier : IsCIdentifier text
  notDigit : ∀ c, text.head? = some c → isDigit c = false
  notSizeof : text ≠ ['s', 'i', 'z', 'e', 'o', 'f']

/-- Its first letter is taken for the suffix of a literal. -/
def CName.TakenAsSuffix (s : CName) : Prop :=
  ∃ c, s.text.head? = some c ∧ (toUpper c = 'L' ∨ toUpper c = 'U')

/-- What is behind a name does not make it a single character that stands alone. -/
def CName.ReadBefore (s : CName) (behind : List Char) : Prop :=
  s.text.length = 1 → ∃ x, behind.head? = some x ∧ x ≠ ' '

theorem wordFinding_name {s : CName} (hletter : ¬ s.TakenAsSuffix) {c : Char} {w behind : List Char}
    (htext : s.text = c :: w) (hread : s.ReadBefore behind) :
    wordFinding c w behind = .ok (.symbol (c :: w), behind) := by
  have hhead : s.text.head? = some c := by rw [htext]; rfl
  have hl : toUpper c ≠ 'L' := fun h => hletter ⟨c, hhead, Or.inl h⟩
  have hu : toUpper c ≠ 'U' := fun h => hletter ⟨c, hhead, Or.inr h⟩
  have hdigit := s.notDigit c hhead
  have hzero : c ≠ '0' := by
    rintro rfl
    cases hdigit
  have halone : ¬ (w = [] ∧ (behind = [] ∨ behind.head? = some ' ')) := by
    rintro ⟨rfl, hbehind⟩
    obtain ⟨x, hx, hspace⟩ := hread (by rw [htext]; rfl)
    rcases hbehind with rfl | hbehind
    · cases hx
    · rw [hx] at hbehind
      exact hspace (Option.some.inj hbehind)
  have hthree : ((c :: w).take 3).map toUpper ≠ ['U', 'L', 'L'] := fun h =>
    hu (List.cons.inj h).1
  have htwo : ((c :: w).take 2).map toUpper ≠ ['U', 'L'] := fun h => hu (List.cons.inj h).1
  have hhex : (c :: w).take 2 ≠ ['0', 'x'] := fun h => hzero (List.cons.inj h).1
  rw [wordFinding, if_neg hthree, if_neg htwo, if_neg hl, if_neg hu, if_neg fun h => s.notSizeof (htext.trans h.1),
    if_neg hhex, if_neg (by simp [hdigit]), if_neg halone]

theorem CName.startsOperand (s : CName) (behind : List Char) :
    StartsOperand (s.text ++ behind) := by
  obtain ⟨c, w, htext⟩ := List.exists_cons_of_ne_nil s.identifier.1
  rw [htext]
  refine ⟨c, w ++ behind, rfl, Or.inr (s.identifier.2 c ?_)⟩
  rw [htext]
  exact List.mem_cons_self

theorem readsAs_name {s : CName} (hletter : ¬ s.TakenAsSuffix) {behind : List Char} {v : Int}
    (hstop : StopsWord behind) (hread : s.ReadBefore behind)
    (hv : symbolValue knownSymbols nameSpace s.text = some v) :
    ReadsAs knownSymbols nameSpace (s.text ++ behind) behind v := by
  refine ⟨s.startsOperand behind, fun elements r => ?_⟩
  obtain ⟨c, w, htext⟩ := List.exists_cons_of_ne_nil s.identifier.1
  have hsymbol := s.identifier.2
  rw [htext] at hsymbol hv ⊢
  have hfind : findFirst false c (w ++ behind) = .ok (.symbol (c :: w), behind) := by
    rw [findFirst_word (hsymbol c List.mem_cons_self)
      (fun x hx => hsymbol x (List.mem_cons_of_mem _ hx)) hstop]
    exact wordFinding_name hletter htext hread
  rw [List.cons_append, reads_cons]
  constructor
  · rintro ⟨f, pad, hf, h⟩
    rw [hfind] at hf
    obtain ⟨rfl, rfl⟩ := Prod.mk.inj (Except.ok.inj hf)
    obtain ⟨u, hu, h⟩ := h
    rw [hv] at hu
    obtain rfl := Option.some.inj hu
    exact h
  · exact fun h => ⟨_, _, hfind, v, hv, h⟩

/-! ## Expressions that mention a name -/

/-- A text with the name, or its value, before each of the parts but the first. -/
def mention (operand : List Char) : List Char → List (List Char) → List Char
  | first, [] => first
  | first, next :: others => first ++ (operand ++ mention operand next others)

/-- The parts of an expression between the occurrences of a name. -/
def Around (s : CName) : List Char → List (List Char) → Prop
  | _, [] => True
  | first, next :: others =>
      Ready first ∧ StopsWord (mention s.text next others) ∧ Around s next others

/-- No occurrence of the name is a single character that stands alone. -/
def ReadEverywhere (s : CName) : List (List Char) → Prop
  | [] => True
  | next :: others => s.ReadBefore (mention s.text next others) ∧ ReadEverywhere s others

/-- The resolver gives two expressions the same value, or none. -/
def SameValue (knownSymbols : SymbolMap Int) (nameSpace e e' : List Char) : Prop :=
  ∀ x, resolvedCIntegerExpression gmp knownSymbols nameSpace e = .ok x ↔
    resolvedCIntegerExpression gmp knownSymbols nameSpace e' = .ok x

theorem mention_append (operand u first : List Char) (others : List (List Char)) :
    mention operand (u ++ first) others = u ++ mention operand first others := by
  cases others with
  | nil => rfl
  | cons next others => rw [mention, mention, List.append_assoc]

theorem lexical_append {u u' : List Char} (hu : Lexical u) (hu' : Lexical u')
    (hstop : StopsWord u') : Lexical (u ++ u') := by
  induction hu with
  | nil => exact hu'
  | mark hc _ ih => exact .mark hc ih
  | shift hc _ ih => exact .shift hc ih
  | @word w v hne hw hv _ ih =>
      rw [List.append_assoc]
      refine .word hne hw (fun x hx => ?_) ih
      cases v with
      | nil => exact hstop x hx
      | cons y v => exact hv x hx
  | @sizeof type v htype _ ih =>
      have h := Lexical.sizeof htype ih
      simpa using h

/-- A value in parentheses is lexical, and what comes behind it is outside of it. -/
theorem Ready.behind_value {first next : List Char} (hfirst : Ready first) (v : Int)
    (hnext : Ready next) : Ready (first ++ (valueText v ++ next)) := by
  have hclose : ∀ n : Nat, Lexical (Nat.toDigits 10 n ++ ')' :: next) := by
    intro n
    refine .word Nat.toDigits_ne_nil (fun x hx => ?_) (fun x hx => ?_)
      (.mark (by decide) hnext.lexical)
    · exact isSymbolChar_of_digit ((decimal_digits n).1 x hx)
    · obtain rfl : ')' = x := by simpa using hx
      rfl
  have hvalue : ∃ m, valueText v = '(' :: (m ++ [')']) ∧ Lexical (valueText v ++ next) := by
    cases v with
    | ofNat n =>
        refine ⟨Nat.toDigits 10 n, rfl, ?_⟩
        simpa [valueText] using Lexical.mark (c := '(') (by decide) (hclose n)
    | negSucc n =>
        refine ⟨'-' :: Nat.toDigits 10 (n + 1), rfl, ?_⟩
        simpa [valueText] using Lexical.mark (c := '(') (by decide)
          (.mark (c := '-') (by decide) (hclose (n + 1)))
  obtain ⟨m, hm, hlexical⟩ := hvalue
  refine ⟨lexical_append hfirst.lexical hlexical ?_, fun x hx => ?_, fun a b hab => ?_⟩
  · rw [hm]
    intro x hx
    obtain rfl : '(' = x := by simpa using hx
    rfl
  · have hlast : (first ++ (valueText v ++ next)).getLast? = next.getLast?.or (some ')') := by
      rw [hm, show first ++ ('(' :: (m ++ [')']) ++ next) =
        (first ++ '(' :: m) ++ [')'] ++ next by simp, List.getLast?_append,
        List.getLast?_concat]
    rw [hlast] at hx
    cases hnext' : next.getLast? with
    | none =>
        rw [hnext'] at hx
        obtain rfl : ')' = x := by simpa using hx
        rfl
    | some y =>
        rw [hnext'] at hx
        obtain rfl : y = x := by simpa using hx
        exact hnext.delimited y hnext'
  · have hsplit : (first ++ '(' :: m) ++ ')' :: next = a ++ (sizeofText ++ b) := by
      rw [← hab, hm]
      simp
    rcases List.append_eq_append_iff.1 hsplit with ⟨d, rfl, hd⟩ | ⟨d, -, hd⟩
    · cases d with
      | nil => exact absurd (List.cons.inj hd).1 (by decide)
      | cons x d =>
          obtain ⟨-, hd⟩ := List.cons.inj hd
          exact hnext.outside d b hd
    · -- The closing parenthesis is behind the beginning of `sizeof(`.
      have hmem : ')' ∈ sizeofText ++ b := by
        rw [hd]
        exact List.mem_append_right _ List.mem_cons_self
      exact (List.mem_append.1 hmem).resolve_left (by decide)

/-- The values of the readings, occurrence by occurrence. -/
theorem reads_mention {s : CName} {v : Int} (hletter : ¬ s.TakenAsSuffix)
    (hv : symbolValue knownSymbols nameSpace s.text = some v) {others : List (List Char)} :
    ∀ {first : List Char}, Around s first others → ReadEverywhere s others → ∀ x,
      (∃ left, Reads gmp knownSymbols nameSpace false (mention s.text first others) []
        (x, left)) ↔
      ∃ left, Reads gmp knownSymbols nameSpace false (mention (valueText v) first others) []
        (x, left) := by
  induction others with
  | nil => exact fun _ _ x => Iff.rfl
  | cons next others ih =>
      intro first haround hread x
      obtain ⟨hfirst, hstop, hrest⟩ := haround
      have hname := readsAs_name hletter hstop hread.1 hv
      have hvalue : ReadsAs knownSymbols nameSpace
          (valueText v ++ mention s.text next others) (mention s.text next others) v :=
        readsAs_value v _
      -- The first occurrence.
      have hone : (∃ left, Reads gmp knownSymbols nameSpace false
            (first ++ (s.text ++ mention s.text next others)) [] (x, left)) ↔
          ∃ left, Reads gmp knownSymbols nameSpace false
            (first ++ (valueText v ++ mention s.text next others)) [] (x, left) := by
        constructor
        · rintro ⟨left, fuel, h⟩
          obtain ⟨left', hreads, -⟩ := reads_alike hname hvalue hfirst h
          exact ⟨left', hreads⟩
        · rintro ⟨left, fuel, h⟩
          obtain ⟨left', hreads, -⟩ := reads_alike hvalue hname hfirst h
          exact ⟨left', hreads⟩
      rw [mention, mention, hone]
      -- The text with its value is a part before the other occurrences.
      have hothers : Around s (first ++ (valueText v ++ next)) others := by
        cases others with
        | nil => trivial
        | cons next' others => exact ⟨hfirst.behind_value v hrest.1, hrest.2⟩
      have hmerge : ∀ operand, first ++ (valueText v ++ mention operand next others) =
          mention operand (first ++ (valueText v ++ next)) others := by
        intro operand
        rw [mention_append, mention_append]
      rw [hmerge, hmerge]
      exact ih hothers hread.2 x

theorem valueText_length (v : Int) : 2 ≤ (valueText v).length := by
  cases v <;> simp [valueText]

theorem sameValue_mention {s : CName} {v : Int} (hletter : ¬ s.TakenAsSuffix)
    (hv : symbolValue knownSymbols nameSpace s.text = some v) {first : List Char}
    {others : List (List Char)} (haround : Around s first others)
    (hread : ReadEverywhere s others) :
    SameValue knownSymbols nameSpace (mention s.text first others)
      (mention (valueText v) first others) := by
  cases others with
  | nil => exact fun x => Iff.rfl
  | cons next others =>
      -- Neither text is a single character.
      have hname : (mention s.text first (next :: others)).length ≠ 1 := by
        intro hlen
        simp only [mention, List.length_append] at hlen
        have hpos := List.length_pos_iff.2 s.identifier.1
        obtain ⟨x, hx, -⟩ := hread.1 (by omega)
        cases hbehind : mention s.text next others with
        | nil =>
            rw [hbehind] at hx
            cases hx
        | cons y behind =>
            rw [hbehind, List.length_cons] at hlen
            omega
      have hvalue : (mention (valueText v) first (next :: others)).length ≠ 1 := by
        intro hlen
        simp only [mention, List.length_append] at hlen
        have := valueText_length v
        omega
      intro x
      rw [resolvedCIntegerExpression_reads, resolvedCIntegerExpression_reads,
        decide_eq_false hname, decide_eq_false hvalue]
      exact exists_congr fun q => reads_mention hletter hv haround hread (x, q)

/-! ## The names that are read -/

/-- The name alone is worth zero in a map, and its text is not. -/
theorem not_sameValue_alone {s : CName} (h : s.TakenAsSuffix ∨ s.text.length < 2) :
    ¬ SameValue (fun key => if key = s.text then some 0 else none) []
      (mention s.text [] [[]]) (mention (valueText 0) [] [[]]) := by
  intro hsame
  have hzero : resolvedCIntegerExpression gmp
      (fun key => if key = s.text then some 0 else none) [] (mention (valueText 0) [] [[]]) =
      .ok 0 := rfl
  obtain ⟨c, w, htext⟩ := List.exists_cons_of_ne_nil s.identifier.1
  have hsymbol := s.identifier.2
  have hdigit := s.notDigit c (by rw [htext]; rfl)
  have hname := (hsame 0).2 hzero
  rw [show mention s.text [] [[]] = s.text by simp [mention],
    resolvedCIntegerExpression_reads] at hname
  obtain ⟨q, left, hreads⟩ := hname
  rw [htext] at hsymbol hreads
  obtain ⟨f, pad, hfind, hrest⟩ := reads_cons.1 hreads
  cases w with
  | nil =>
      -- The character itself is the value.
      have hsingle : findFirst true c [] = .ok (.literal c.toNat, []) := by
        have hc := hsymbol c List.mem_cons_self
        have hmark : ∀ m, isSymbolChar m = false → ¬ c = m := by
          rintro m hm rfl
          rw [hc] at hm
          cases hm
        simp [findFirst, hmark, hdigit, show isSymbolChar ' ' = false from rfl,
          show isSymbolChar '(' = false from rfl, show isSymbolChar '!' = false from rfl,
          show isSymbolChar '+' = false from rfl, show isSymbolChar '-' = false from rfl,
          show isSymbolChar '~' = false from rfl, show isSymbolChar '*' = false from rfl,
          show isSymbolChar '/' = false from rfl, show isSymbolChar '|' = false from rfl,
          show isSymbolChar '&' = false from rfl, show isSymbolChar '^' = false from rfl,
          show isSymbolChar ')' = false from rfl]
      rw [show decide (([c] : List Char).length = 1) = true from rfl] at hfind hrest
      rw [hsingle] at hfind
      obtain ⟨rfl, rfl⟩ := Prod.mk.inj (Except.ok.inj hfind)
      have hvalue := (reads_nil.1 hrest).1
      have hc : (c.toNat : Int) = 0 := by
        have := congrArg Prod.fst (Option.some.inj hvalue)
        exact this
      have hnul : c = Char.ofNat 0 := by
        rw [← Char.ofNat_toNat c]
        congr 1
        omega
      have hc' := hsymbol c List.mem_cons_self
      rw [hnul] at hc'
      cases hc'
  | cons x w =>
      -- The first letter qualifies an element that is not there.
      have hletter := h.resolve_right (by rw [htext]; simp)
      rw [show decide ((c :: x :: w).length = 1) = false by simp] at hfind hrest
      have hword : findFirst false c (x :: w ++ []) = wordFinding c (x :: w) [] :=
        findFirst_word (hsymbol c List.mem_cons_self)
          (fun y hy => hsymbol y (List.mem_cons_of_mem _ hy)) (fun y hy => by cases hy)
      rw [List.append_nil] at hword
      rw [hword] at hfind
      have hqualifier : ∃ q pad, wordFinding c (x :: w) [] = .ok (.qualifier q, pad) := by
        obtain ⟨d, hd, hupper⟩ := hletter
        rw [htext] at hd
        obtain rfl : c = d := by simpa using hd
        rw [wordFinding]
        split
        · exact ⟨_, _, rfl⟩
        split
        · exact ⟨_, _, rfl⟩
        split
        · exact ⟨_, _, rfl⟩
        split
        · exact ⟨_, _, rfl⟩
        · rename_i hl hu
          rcases hupper with hupper | hupper
          · exact absurd hupper hl
          · exact absurd hupper hu
      obtain ⟨q', pad', hq⟩ := hqualifier
      rw [hq] at hfind
      obtain ⟨rfl, rfl⟩ := Prod.mk.inj (Except.ok.inj hfind)
      obtain ⟨elements, helements, -⟩ := hrest
      cases helements

/-- An expression is worth the same with the value of a name for the name, in every
map and namespace in which the name is known, if the name does not begin like a suffix
and no occurrence is a single character that stands alone; and of all expressions this
holds for the names of two characters or more that do not begin like a suffix, and for
no others. -/
theorem sameValue_iff (s : CName) :
    (¬ s.TakenAsSuffix → ∀ first others, Around s first others → ReadEverywhere s others →
      ∀ (knownSymbols : SymbolMap Int) (nameSpace : List Char) (v : Int),
        symbolValue knownSymbols nameSpace s.text = some v →
        SameValue knownSymbols nameSpace (mention s.text first others)
          (mention (valueText v) first others)) ∧
    ((∀ first others, Around s first others →
      ∀ (knownSymbols : SymbolMap Int) (nameSpace : List Char) (v : Int),
        symbolValue knownSymbols nameSpace s.text = some v →
        SameValue knownSymbols nameSpace (mention s.text first others)
          (mention (valueText v) first others)) ↔
      ¬ s.TakenAsSuffix ∧ 2 ≤ s.text.length) := by
  refine ⟨fun hletter first others haround hread knownSymbols nameSpace v hv =>
    sameValue_mention hletter hv haround hread, ⟨fun h => ?_, ?_⟩⟩
  · by_contra hbad
    have hbad' : s.TakenAsSuffix ∨ s.text.length < 2 := by
      by_contra hgood
      exact hbad ⟨fun h => hgood (Or.inl h), by
        have := fun h => hgood (Or.inr h)
        omega⟩
    have hempty : Around s [] [[]] := by
      refine ⟨⟨.nil, (fun x hx => by cases hx), fun a b hab => ?_⟩, ?_, trivial⟩
      · exact absurd hab (by simp [sizeofText])
      · intro x hx
        cases hx
    have hknown : symbolValue (fun key => if key = s.text then some (0 : Int) else none) []
        s.text = some 0 := by simp [symbolValue]
    exact not_sameValue_alone hbad' (h [] [[]] hempty _ [] 0 hknown)
  · rintro ⟨hletter, hlen⟩ first others haround knownSymbols nameSpace v hv
    have hread : ∀ others, ReadEverywhere s others := by
      intro others
      induction others with
      | nil => trivial
      | cons next others ih => exact ⟨fun hone => by omega, ih⟩
    exact sameValue_mention hletter hv haround (hread others)

/-- `Limit+1`, where `Limit` is 10. -/
theorem resolvedCIntegerExpression_limit :
    let knownSymbols : SymbolMap Int := fun key => if key = "Limit".toList then some 10 else none
    resolvedCIntegerExpression gmp knownSymbols [] "Limit+1".toList = .error .constraintError ∧
      resolvedCIntegerExpression gmp knownSymbols [] "(10)+1".toList = .ok 11 :=
  ⟨rfl, rfl⟩

end Swig4Ada.Ada

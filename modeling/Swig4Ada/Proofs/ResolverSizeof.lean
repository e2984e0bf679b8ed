import Swig4Ada.Proofs.ResolverNames

/-!
# Which sizes `resolved_sizeof_Expression` gives

The references and the dimensions are taken from one copy of the text, but the constant
`sizeof_T` is looked for with another one, from which nothing has been taken, and it is not
multiplied. The address of a pointer is; its dimensions have lost their `&` by then.
-/

namespace Swig4Ada.Ada

variable {α : Type} {D : Discrete α} {knownSymbols : SymbolMap α} {nameSpace : List Char}

/-! ## Types with references and dimensions -/

/-- The words of a type name. -/
structure TypeWords where
  first : List Char
  others : List (List Char)
  word : ∀ w ∈ first :: others, w ≠ [] ∧ ∀ c ∈ w, isSymbolChar c = true

def TypeWords.words (t : TypeWords) : List (List Char) := t.first :: t.others

def TypeWords.text (t : TypeWords) : List Char := t.first ++ t.others.flatMap (' ' :: ·)

/-- The name of the constant that gives the size of the type. -/
def TypeWords.sizeofName (t : TypeWords) : List Char :=
  "sizeof_".toList ++ (t.first ++ t.others.flatMap ('_' :: ·))

/-- The resolver reads the text as a number. -/
def ReadsNumber (D : Discrete α) (knownSymbols : SymbolMap α) (nameSpace text : List Char)
    (number : Nat) : Prop :=
  ∃ r, Reads D knownSymbols nameSpace (text.length = 1) text [] r ∧
    D.natural r.1.1 = some number

/-- A dimension with its value. -/
structure SizeBound (D : Discrete α) (knownSymbols : SymbolMap α) (nameSpace : List Char) where
  text : List Char
  number : Nat
  positive : 0 < number
  reads : ReadsNumber D knownSymbols nameSpace text number

def boundText (text : List Char) : List Char := '[' :: text ++ [']']

inductive TypeTail (D : Discrete α) (knownSymbols : SymbolMap α) (nameSpace : List Char)
  | reference
  | bound (bound : SizeBound D knownSymbols nameSpace)

def TypeTail.text : TypeTail D knownSymbols nameSpace → List Char
  | .reference => ['&']
  | .bound b => boundText b.text

def TypeTail.factor : TypeTail D knownSymbols nameSpace → Nat
  | .reference => 1
  | .bound b => b.number

/-- The known symbols are names. -/
def KnownNames (knownSymbols : SymbolMap α) : Prop :=
  ∀ key v, knownSymbols key = some v → ∀ c ∈ key, isSymbolChar c = true

/-- `sizeof` of the text is read as one more value. -/
def Contributes (D : Discrete α) (knownSymbols : SymbolMap α) (nameSpace text : List Char)
    (size : Nat) : Prop :=
  ∀ rest elements r,
    Reads D knownSymbols nameSpace false (sizeofText ++ (text ++ ')' :: rest)) elements r ↔
      Reads D knownSymbols nameSpace false rest
        (elements ++ [.value (D.ofInt size) defaultQualifier]) r

/-- What is left of a text without its references. -/
def unreferenced (text : List Char) : List Char := text.filter (· ≠ '&')

/-! ## Sizes -/

/-- The sizes that the loop gives from a place on. -/
def SizesFrom (D : Discrete α) (knownSymbols : SymbolMap α)
    (nameSpace expressionType theTypeText : List Char) (multiplier n : Nat) : Prop :=
  ∃ fuel, resolvedSizeof D knownSymbols nameSpace expressionType fuel theTypeText multiplier =
    .ok n

theorem sizes_unique {text : List Char} {m n : Nat}
    (hm : Sizes D knownSymbols nameSpace text m) (hn : Sizes D knownSymbols nameSpace text n) :
    m = n := by
  obtain ⟨fuel₁, h₁⟩ := hm
  obtain ⟨fuel₂, h₂⟩ := hn
  have h₁ := resolvedSizeof_mono (le_max_left fuel₁ fuel₂) h₁
  have h₂ := resolvedSizeof_mono (le_max_right fuel₁ fuel₂) h₂
  exact Except.ok.inj (h₁.symm.trans h₂)

theorem inRange_ok {low n m : Nat} : inRange low n = .ok m ↔ (low ≤ n ∧ n < 2 ^ 31) ∧ n = m := by
  rw [inRange]
  by_cases h : low ≤ n ∧ n < 2 ^ 31
  · rw [if_pos h]
    exact ⟨fun heq => ⟨h, Except.ok.inj heq⟩, fun hm => congrArg Except.ok hm.2⟩
  · rw [if_neg h]
    exact ⟨fun heq => (nomatch heq), fun hm => absurd hm.1 h⟩

/-- A type without a closing parenthesis is read whole. -/
theorem contributes {text : List Char} {size : Nat} (h : ')' ∉ text)
    (hsize : Sizes D knownSymbols nameSpace text size) :
    Contributes D knownSymbols nameSpace text size := by
  intro rest elements r
  refine reads_cons.trans ⟨?_, fun hr => ⟨_, _, findFirst_sizeof h, size, hsize, hr⟩⟩
  rintro ⟨f, pad, hfind, hrest⟩
  rw [List.append_eq, List.cons_append, List.cons_append] at hfind
  obtain ⟨rfl, rfl⟩ := Prod.mk.inj (Except.ok.inj ((findFirst_sizeof h).symm.trans hfind))
  obtain ⟨size', hsize', hr⟩ := hrest
  rwa [sizes_unique hsize hsize']

/-! ## The last bracket -/

theorem splitAtLastBracket_append {bound : List Char} (h : '[' ∉ bound) (before : List Char) :
    splitAtLastBracket (before ++ '[' :: bound) = some (before, bound) := by
  have hback : index ['['] (before ++ '[' :: bound).reverse = some bound.length := by
    have hnot : '[' ∉ bound.reverse := fun hmem => h (List.mem_reverse.1 hmem)
    have hindex := index_char hnot before.reverse
    rw [List.length_reverse] at hindex
    rw [List.reverse_append, List.reverse_cons, List.append_assoc, List.singleton_append, hindex]
  rw [splitAtLastBracket, hback]
  have htake : (before ++ '[' :: bound).length - bound.length - 1 = before.length := by
    rw [List.length_append, List.length_cons]
    omega
  have hdrop : (before ++ '[' :: bound).length - bound.length = before.length + 1 := by
    rw [List.length_append, List.length_cons]
    omega
  dsimp only
  rw [htake, hdrop, List.take_left, ← List.drop_drop, List.drop_left]
  rfl

theorem splitAtLastBracket_eq {text before bound : List Char}
    (h : splitAtLastBracket text = some (before, bound)) : text = before ++ '[' :: bound := by
  rw [splitAtLastBracket] at h
  cases hback : index ['['] text.reverse with
  | none =>
      rw [hback] at h
      cases h
  | some back =>
      rw [hback] at h
      have heq := congrArg List.reverse (index_eq_some hback)
      rw [List.reverse_reverse, List.reverse_append, List.reverse_append, List.take_reverse,
        List.drop_reverse, List.reverse_reverse, List.reverse_reverse] at heq
      obtain ⟨rfl, rfl⟩ := Prod.mk.inj (Option.some.inj h)
      rw [List.length_singleton, List.append_assoc] at heq
      exact heq

/-! ## Pointers -/

theorem sizesFrom_pointer {expressionType type : List Char} {m n : Nat} :
    SizesFrom D knownSymbols nameSpace expressionType (type ++ ['*']) m n ↔
      8 * m < 2 ^ 31 ∧ 8 * m = n := by
  have hlast : (type ++ ['*']).getLast? = some '*' := List.getLast?_concat
  constructor
  · rintro ⟨fuel, h⟩
    rcases resolvedSizeof_succ.1 (resolvedSizeof_mono (Nat.le_succ fuel) h) with
      ⟨hclose, -⟩ | ⟨-, hrange⟩ | ⟨-, hstar, -⟩
    · exact absurd (hlast.symm.trans hclose) (by decide)
    · obtain ⟨⟨-, hlt⟩, heq⟩ := inRange_ok.1 hrange
      exact ⟨hlt, heq⟩
    · exact absurd hlast hstar
  · rintro ⟨hlt, heq⟩
    exact ⟨1, resolvedSizeof_succ.2 (.inr (.inl ⟨hlast, inRange_ok.2
      ⟨⟨Nat.zero_le _, hlt⟩, heq⟩⟩))⟩

theorem sizesFrom_bound {expressionType before bound : List Char} (hopen : '[' ∉ bound)
    {m n : Nat} :
    SizesFrom D knownSymbols nameSpace expressionType (before ++ boundText bound) m n ↔
      ∃ k, ReadsNumber D knownSymbols nameSpace bound k ∧ (1 ≤ m * k ∧ m * k < 2 ^ 31) ∧
        SizesFrom D knownSymbols nameSpace expressionType before (m * k) n := by
  have htext : before ++ boundText bound = before ++ '[' :: bound ++ [']'] :=
    (List.append_assoc before ('[' :: bound) [']']).symm
  have hlast : (before ++ boundText bound).getLast? = some ']' := by
    rw [htext]
    exact List.getLast?_concat
  have hsplit : splitAtLastBracket (before ++ boundText bound).dropLast =
      some (before, bound) := by
    rw [htext, List.dropLast_concat, splitAtLastBracket_append hopen]
  constructor
  · rintro ⟨fuel, h⟩
    rcases resolvedSizeof_succ.1 (resolvedSizeof_mono (Nat.le_succ fuel) h) with
      ⟨-, before', bound', r, k, m', hsplit', hr, hk, hrange, hrest⟩ | ⟨hstar, -⟩ | ⟨hclose, -⟩
    · obtain ⟨rfl, rfl⟩ := Prod.mk.inj (Option.some.inj (hsplit.symm.trans hsplit'))
      obtain ⟨hwithin, rfl⟩ := inRange_ok.1 hrange
      exact ⟨k, ⟨r, ⟨fuel, hr⟩, hk⟩, hwithin, fuel, hrest⟩
    · exact absurd (hlast.symm.trans hstar) (by decide)
    · exact absurd hlast hclose
  · rintro ⟨k, ⟨r, ⟨fuel₁, hr⟩, hk⟩, hrange, fuel₂, hrest⟩
    refine ⟨max fuel₁ fuel₂ + 1, resolvedSizeof_succ.2 (.inl ⟨hlast, before, bound, r, k, m * k,
      hsplit, ?_, hk, inRange_ok.2 ⟨hrange, rfl⟩, ?_⟩)⟩
    · exact resolveRecursive_mono (le_max_left fuel₁ fuel₂) hr
    · exact resolvedSizeof_mono (le_max_right fuel₁ fuel₂) hrest

/-- The dimensions are taken from the last one on, and their values multiplied. -/
theorem sizesFrom_bounds {expressionType type : List Char} {bounds : List (List Char)}
    (hopen : ∀ b ∈ bounds, '[' ∉ b) {m n : Nat} (hm : 1 ≤ m) :
    SizesFrom D knownSymbols nameSpace expressionType
        (type ++ ['*'] ++ bounds.flatMap boundText) m n ↔
      ∃ numbers, List.Forall₂ (ReadsNumber D knownSymbols nameSpace) bounds numbers ∧
        0 < numbers.prod ∧ n = 8 * (m * numbers.prod) ∧ n < 2 ^ 31 := by
  induction bounds using List.reverseRecOn generalizing m with
  | nil =>
      rw [List.flatMap_nil, List.append_nil, sizesFrom_pointer]
      constructor
      · rintro ⟨hlt, rfl⟩
        exact ⟨[], .nil, Nat.one_pos, by rw [List.prod_nil, Nat.mul_one], hlt⟩
      · rintro ⟨numbers, hall, -, heq, hlt⟩
        obtain rfl := List.forall₂_nil_left_iff.1 hall
        rw [List.prod_nil, Nat.mul_one] at heq
        exact ⟨heq ▸ hlt, heq.symm⟩
  | append_singleton bounds bound ih =>
      have hinit := fun b hb => hopen b (List.mem_append_left [bound] hb)
      have hbound := hopen bound (List.mem_append_right bounds List.mem_cons_self)
      rw [List.flatMap_append, List.flatMap_singleton, ← List.append_assoc,
        sizesFrom_bound hbound]
      constructor
      · rintro ⟨k, hk, ⟨hle, -⟩, hrest⟩
        obtain ⟨numbers, hall, hpos, heq, hlt⟩ := (ih hinit hle).1 hrest
        refine ⟨numbers ++ [k], List.rel_append hall (.cons hk .nil), ?_, ?_, hlt⟩
        · rw [List.prod_append, List.prod_singleton]
          exact Nat.mul_pos hpos (Nat.pos_of_mul_pos_left hle)
        · rw [heq, List.prod_append, List.prod_singleton]
          ring
      · rintro ⟨numbers, hall, hpos, heq, hlt⟩
        have hinits := (List.forall₂_take_append numbers bounds [bound] hall.flip).flip
        have hlast := (List.forall₂_drop_append numbers bounds [bound] hall.flip).flip
        obtain ⟨k, ks, hk, hnil, hdrop⟩ := List.forall₂_cons_left_iff.1 hlast
        obtain rfl := List.forall₂_nil_left_iff.1 hnil
        have hprod : numbers.prod = (numbers.take bounds.length).prod * k := by
          rw [← List.prod_singleton (x := k), ← hdrop, ← List.prod_append,
            List.take_append_drop]
        rw [hprod] at hpos heq
        have hk' : 0 < k := Nat.pos_of_mul_pos_left hpos
        have hinit' : 0 < (numbers.take bounds.length).prod := Nat.pos_of_mul_pos_right hpos
        have hmk : 1 ≤ m * k := Nat.mul_pos hm hk'
        have hn : n = 8 * (m * k * (numbers.take bounds.length).prod) := by
          rw [heq]
          ring
        have hle : m * k ≤ m * k * (numbers.take bounds.length).prod :=
          Nat.le_mul_of_pos_right _ hinit'
        exact ⟨k, hk, ⟨hmk, by omega⟩, (ih hinit hmk).2 ⟨_, hinits, hinit', hn, hlt⟩⟩

theorem unreferenced_append (s t : List Char) :
    unreferenced (s ++ t) = unreferenced s ++ unreferenced t := List.filter_append ..

theorem unreferenced_boundText (text : List Char) :
    unreferenced (boundText text) = boundText (unreferenced text) := by
  rw [boundText, List.cons_append, unreferenced, List.filter_cons_of_pos (by decide),
    List.filter_append]
  rfl

theorem unreferenced_bounds (bounds : List (List Char)) :
    unreferenced (bounds.flatMap boundText) = (bounds.map unreferenced).flatMap boundText := by
  induction bounds with
  | nil => rfl
  | cons b bounds ih =>
      rw [List.flatMap_cons, unreferenced_append, unreferenced_boundText, ih, List.map_cons,
        List.flatMap_cons]

/-- A pointer has its size exactly where its dimensions, without their `&`, are still read as
numbers with that product. -/
theorem sizes_pointer_iff {type : List Char}
    {bounds : List (SizeBound D knownSymbols nameSpace)} (hopen : ∀ b ∈ bounds, '[' ∉ b.text) :
    Sizes D knownSymbols nameSpace (type ++ '*' :: bounds.flatMap fun b => boundText b.text)
        (8 * (bounds.map SizeBound.number).prod) ↔
      8 * (bounds.map SizeBound.number).prod < 2 ^ 31 ∧
      ∃ numbers, List.Forall₂
          (fun (b : SizeBound D knownSymbols nameSpace) number =>
            ReadsNumber D knownSymbols nameSpace (unreferenced b.text) number) bounds numbers ∧
        numbers.prod = (bounds.map SizeBound.number).prod := by
  have hpos : 0 < (bounds.map SizeBound.number).prod := by
    refine List.prod_pos fun n hn => ?_
    obtain ⟨b, -, rfl⟩ := List.mem_map.1 hn
    exact b.positive
  have hfilter : (type ++ '*' :: bounds.flatMap fun b => boundText b.text).filter (· ≠ '&') =
      unreferenced type ++ ['*'] ++
        (bounds.map fun b => unreferenced b.text).flatMap boundText := by
    show unreferenced _ = _
    rw [List.append_cons, unreferenced_append, unreferenced_append, ← List.flatMap_map,
      unreferenced_bounds, List.map_map]
    rfl
  have hfree : ∀ t ∈ bounds.map fun b => unreferenced b.text, '[' ∉ t := by
    intro t ht
    obtain ⟨b, hb, rfl⟩ := List.mem_map.1 ht
    exact fun hmem => hopen b hb (List.mem_filter.1 hmem).1
  show (∃ fuel, resolvedSizeof D knownSymbols nameSpace _ fuel _ 1 = .ok _) ↔ _
  rw [hfilter]
  refine (sizesFrom_bounds hfree (Nat.le_refl 1)).trans ?_
  constructor
  · rintro ⟨numbers, hall, -, heq, hlt⟩
    refine ⟨hlt, numbers, List.forall₂_map_left_iff.1 hall, ?_⟩
    omega
  · rintro ⟨hlt, numbers, hall, heq⟩
    refine ⟨numbers, List.forall₂_map_left_iff.2 hall, heq ▸ hpos, ?_, hlt⟩
    rw [heq, Nat.one_mul]

/-! ## Types that are no pointers -/

theorem knownSizeof_ok {expressionType : List Char} {n : Nat} :
    knownSizeof D knownSymbols expressionType = .ok n ↔
      ∃ space v, index [' '] expressionType = some space ∧
        knownSymbols ("sizeof_".toList ++ expressionType.set space '_') = some v ∧
        D.natural v = some n := by
  rw [knownSizeof, except_bind_ok]
  constructor
  · rintro ⟨space, hspace, h⟩
    refine ⟨space, ?_⟩
    dsimp only at h
    cases hknown : knownSymbols ("sizeof_".toList ++ expressionType.set space '_') with
    | none =>
        rw [hknown] at h
        exact nomatch h
    | some v =>
        rw [hknown] at h
        exact ⟨v, orConstraintError_ok.1 hspace, rfl, orConstraintError_ok.1 h⟩
  · rintro ⟨space, v, hspace, hknown, hn⟩
    refine ⟨space, orConstraintError_ok.2 hspace, ?_⟩
    dsimp only
    rw [hknown]
    exact orConstraintError_ok.2 hn

/-- Without an array of pointers the loop ends at the known sizes. -/
theorem knownSizeof_of_sizesFrom {expressionType text : List Char} {m n : Nat}
    (h : SizesFrom D knownSymbols nameSpace expressionType text m n)
    (hpointers : ¬ ['*', '['] <:+: text) (hlast : text.getLast? ≠ some '*') :
    knownSizeof D knownSymbols expressionType = .ok n := by
  obtain ⟨fuel, h⟩ := h
  induction fuel generalizing text m with
  | zero =>
      rw [resolvedSizeof] at h
      cases h
  | succ fuel ih =>
      rcases resolvedSizeof_succ.1 h with
        ⟨-, before, bound, r, k, m', hsplit, -, -, -, hrest⟩ | ⟨hstar, -⟩ | ⟨-, -, hknown⟩
      · have hinit : before ++ '[' :: bound <+: text := by
          rw [← splitAtLastBracket_eq hsplit]
          exact List.dropLast_prefix text
        refine ih ?_ ?_ hrest
        · exact fun hin => hpointers
            (hin.trans ((List.prefix_append before ('[' :: bound)).trans hinit).isInfix)
        · intro hstar
          obtain ⟨before, rfl⟩ := List.getLast?_eq_some_iff.1 hstar
          have hin : ['*', '['] <:+: before ++ ['*'] ++ '[' :: bound :=
            ⟨before, bound, by simp⟩
          exact hpointers (hin.trans hinit.isInfix)
      · exact absurd hstar hlast
      · exact hknown

theorem mem_set_of_ne {l : List Char} {i : Nat} {x y z : Char} (hx : x ∈ l)
    (hy : l[i]? = some y) (hne : x ≠ y) : x ∈ l.set i z := by
  obtain ⟨k, hk⟩ := List.mem_iff_getElem?.1 hx
  have hki : i ≠ k := by
    intro heq
    rw [heq, hk] at hy
    exact hne (Option.some.inj hy)
  exact List.mem_iff_getElem?.2 ⟨k, by rw [List.getElem?_set_ne hki, hk]⟩

theorem TypeWords.char {t : TypeWords} {c : Char} (h : c ∈ t.text) :
    isSymbolChar c = true ∨ c = ' ' := by
  rcases List.mem_append.1 h with hfirst | hothers
  · exact .inl ((t.word _ List.mem_cons_self).2 c hfirst)
  · obtain ⟨w, hw, hc⟩ := List.mem_flatMap.1 hothers
    rcases List.mem_cons.1 hc with rfl | hc
    · exact .inr rfl
    · exact .inl ((t.word w (List.mem_cons_of_mem _ hw)).2 c hc)

theorem TypeWords.char_not_mem {t : TypeWords} {c : Char} (hc : isSymbolChar c = false)
    (hspace : c ≠ ' ') : c ∉ t.text := by
  intro h
  rcases t.char h with hsymbol | hblank
  · exact absurd (hsymbol.symm.trans hc) nofun
  · exact hspace hblank

def typeTailText (t : TypeWords) (tails : List (TypeTail D knownSymbols nameSpace)) :
    List Char :=
  t.text ++ tails.flatMap TypeTail.text

theorem typeTailText_last (t : TypeWords) (tails : List (TypeTail D knownSymbols nameSpace)) :
    (unreferenced (typeTailText t tails)).getLast? ≠ some '*' := by
  induction tails using List.reverseRecOn with
  | nil =>
      rw [typeTailText, List.flatMap_nil, List.append_nil]
      intro hlast
      have hmem := List.mem_filter.1 (List.mem_of_getLast? hlast)
      exact TypeWords.char_not_mem (by decide) (by decide) hmem.1
  | append_singleton tails last ih =>
      rw [typeTailText, List.flatMap_append, List.flatMap_singleton, ← List.append_assoc,
        unreferenced_append]
      cases last with
      | reference =>
          show (_ ++ []).getLast? ≠ _
          rw [List.append_nil]
          exact ih
      | bound b =>
          have htext : unreferenced (TypeTail.bound b).text =
              '[' :: unreferenced b.text ++ [']'] := unreferenced_boundText b.text
          rw [htext, ← List.append_assoc, List.getLast?_concat]
          decide

/-- A reference or a dimension has a character that no known name has. -/
theorem tails_mark {tails : List (TypeTail D knownSymbols nameSpace)} (h : tails ≠ []) :
    ∃ c ∈ tails.flatMap TypeTail.text, isSymbolChar c = false ∧ c ≠ ' ' := by
  obtain ⟨first, others, rfl⟩ := List.exists_cons_of_ne_nil h
  cases first with
  | reference => exact ⟨'&', List.mem_append_left _ List.mem_cons_self, by decide, by decide⟩
  | bound b => exact ⟨'[', List.mem_append_left _ List.mem_cons_self, by decide, by decide⟩

/-- Only a type of two words, without references and dimensions, has its known size. -/
theorem sizes_words_iff (hnames : KnownNames knownSymbols) {t : TypeWords}
    {tails : List (TypeTail D knownSymbols nameSpace)} {v : α} {size : Nat}
    (hv : knownSymbols t.sizeofName = some v) (hsize : D.natural v = some size)
    (hpointers : ¬ ['*', '['] <:+: unreferenced (typeTailText t tails)) :
    (Sizes D knownSymbols nameSpace (typeTailText t tails)
        (size * (tails.map TypeTail.factor).prod) ∧
      Contributes D knownSymbols nameSpace (typeTailText t tails)
        (size * (tails.map TypeTail.factor).prod)) ↔
      t.words.length = 2 ∧ tails = [] := by
  have hblank : ' ' ∉ t.first := fun h =>
    absurd ((t.word _ List.mem_cons_self).2 ' ' h) (by decide)
  constructor
  · rintro ⟨hright, -⟩
    obtain ⟨space, u, hspace, hu, -⟩ := knownSizeof_ok.1
      (knownSizeof_of_sizesFrom hright hpointers (typeTailText_last t tails))
    have hchars := fun c hc => hnames _ u hu c (List.mem_append_right _ hc)
    have hat : (typeTailText t tails)[space]? = some ' ' := index_getElem hspace
    have htails : tails = [] := by
      by_contra hne
      obtain ⟨c, hc, hmark, hnot⟩ := tails_mark hne
      have hmem : c ∈ typeTailText t tails := List.mem_append_right _ hc
      exact absurd ((hchars c (mem_set_of_ne hmem hat hnot)).symm.trans hmark) nofun
    refine ⟨?_, htails⟩
    rw [htails, typeTailText, List.flatMap_nil, List.append_nil, TypeWords.text] at hspace hchars
    cases hothers : t.others with
    | nil =>
        rw [hothers, List.flatMap_nil, List.append_nil] at hspace
        exact absurd (List.mem_of_getElem? (index_getElem hspace)) hblank
    | cons w others =>
        rw [hothers, List.flatMap_cons, List.cons_append, index_char hblank] at hspace
        obtain rfl := Option.some.inj hspace
        cases others with
        | nil => rw [TypeWords.words, hothers, List.length_cons, List.length_singleton]
        | cons w' others =>
            rw [hothers, List.flatMap_cons, List.cons_append, List.set_append_right _ _ le_rfl,
              Nat.sub_self, List.set_cons_zero, List.flatMap_cons] at hchars
            refine absurd (hchars ' ' ?_) (by decide)
            exact List.mem_append_right _ (List.mem_cons_of_mem _
              (List.mem_append_right _ List.mem_cons_self))
  · rintro ⟨hlen, rfl⟩
    obtain ⟨w, hw⟩ : ∃ w, t.others = [w] := List.length_eq_one_iff.1 (Nat.succ.inj hlen)
    have htext : typeTailText t ([] : List (TypeTail D knownSymbols nameSpace)) = t.text :=
      List.append_nil _
    have hsplit : t.text = t.first ++ ' ' :: w := by
      rw [TypeWords.text, hw, List.flatMap_singleton]
    have hset : t.text.set t.first.length '_' = t.first ++ t.others.flatMap ('_' :: ·) := by
      rw [hsplit, List.set_append_right _ _ le_rfl, Nat.sub_self, List.set_cons_zero, hw,
        List.flatMap_singleton]
    have hspace : index [' '] t.text = some t.first.length := by
      rw [hsplit, index_char hblank]
    have hknown : knownSizeof D knownSymbols t.text = .ok size := by
      refine knownSizeof_ok.2 ⟨t.first.length, v, hspace, ?_, hsize⟩
      rw [hset]
      exact hv
    have hsame : t.text.filter (· ≠ '&') = t.text := by
      refine List.filter_eq_self.2 fun c hc => decide_eq_true ?_
      rintro rfl
      exact TypeWords.char_not_mem (by decide) (by decide) hc
    have hends : ∀ c, isSymbolChar c = false → c ≠ ' ' → t.text.getLast? ≠ some c :=
      fun c hc hne hlast => TypeWords.char_not_mem hc hne (List.mem_of_getLast? hlast)
    have hright : Sizes D knownSymbols nameSpace t.text size := by
      refine ⟨1, ?_⟩
      rw [sizeWithin, hsame]
      exact resolvedSizeof_succ.2 (.inr (.inr
        ⟨hends ']' (by decide) (by decide), hends '*' (by decide) (by decide), hknown⟩))
    have hclose : ')' ∉ t.text := TypeWords.char_not_mem (by decide) (by decide)
    rw [htext, List.map_nil, List.prod_nil, Nat.mul_one]
    exact ⟨hright, contributes hclose hright⟩

/-- A type of words has its size where it has two words, no references and no dimensions; a
pointer where its dimensions have no brackets of their own and are read as numbers with that
product also without their `&`; and what is read of `sizeof` is the size where the type has no
closing parenthesis. -/
theorem resolvedSizeof_right (D : Discrete α) (knownSymbols : SymbolMap α)
    (nameSpace : List Char) :
    (KnownNames knownSymbols → ∀ (t : TypeWords)
      (tails : List (TypeTail D knownSymbols nameSpace)) (v : α) (size : Nat),
      knownSymbols t.sizeofName = some v → D.natural v = some size →
      ¬ ['*', '['] <:+: unreferenced (typeTailText t tails) →
      ((Sizes D knownSymbols nameSpace (typeTailText t tails)
          (size * (tails.map TypeTail.factor).prod) ∧
        Contributes D knownSymbols nameSpace (typeTailText t tails)
          (size * (tails.map TypeTail.factor).prod)) ↔
        t.words.length = 2 ∧ tails = [])) ∧
    (∀ (type : List Char) (bounds : List (SizeBound D knownSymbols nameSpace)),
      (∀ b ∈ bounds, '[' ∉ b.text) →
      (Sizes D knownSymbols nameSpace (type ++ '*' :: bounds.flatMap fun b => boundText b.text)
          (8 * (bounds.map SizeBound.number).prod) ↔
        8 * (bounds.map SizeBound.number).prod < 2 ^ 31 ∧
        ∃ numbers, List.Forall₂
            (fun (b : SizeBound D knownSymbols nameSpace) number =>
              ReadsNumber D knownSymbols nameSpace (unreferenced b.text) number) bounds numbers ∧
          numbers.prod = (bounds.map SizeBound.number).prod)) ∧
    ∀ (text : List Char) (size : Nat), ')' ∉ text → Sizes D knownSymbols nameSpace text size →
      Contributes D knownSymbols nameSpace text size :=
  ⟨fun hnames _ _ _ _ hv hsize hpointers => sizes_words_iff hnames hv hsize hpointers,
    fun _ _ hopen => sizes_pointer_iff hopen, fun _ _ h hsize => contributes h hsize⟩

def sizeofConstants : SymbolMap Int := fun key =>
  if key = ['s', 'i', 'z', 'e', 'o', 'f', '_', 'i', 'n', 't'] then some 4
  else if key = ['s', 'i', 'z', 'e', 'o', 'f', '_', 'l', 'o', 'n', 'g', '_', 'i', 'n', 't'] then
    some 8
  else none

theorem knownNames_sizeofConstants : KnownNames sizeofConstants := by
  intro key v hv
  rw [sizeofConstants] at hv
  split at hv
  · next hkey =>
      rw [hkey]
      exact List.all_eq_true.1 rfl
  · split at hv
    · next hkey =>
        rw [hkey]
        exact List.all_eq_true.1 rfl
    · exact nomatch hv

def longInt : TypeWords where
  first := ['l', 'o', 'n', 'g']
  others := [['i', 'n', 't']]
  word := by
    refine List.forall_mem_cons.2 ⟨⟨nofun, List.all_eq_true.1 rfl⟩, List.forall_mem_cons.2
      ⟨⟨nofun, List.all_eq_true.1 rfl⟩, nofun⟩⟩

theorem longInt_sized :
    Sizes gmp sizeofConstants [] ['l', 'o', 'n', 'g', ' ', 'i', 'n', 't'] 8 :=
  (((resolvedSizeof_right gmp sizeofConstants []).1 knownNames_sizeofConstants longInt [] 8 8
    rfl rfl (by decide)).2 ⟨rfl, rfl⟩).1

/-- A type of one word has no space for the underscore. -/
theorem int_raises : sizeofConstants ("sizeof_int".toList) = some 4 ∧
    ∀ n, ¬ Sizes gmp sizeofConstants [] ['i', 'n', 't'] n := by
  refine ⟨rfl, fun n h => ?_⟩
  obtain ⟨space, v, hspace, -⟩ := knownSizeof_ok.1
    (knownSizeof_of_sizesFrom h (by decide) (by decide))
  exact nomatch hspace

end Swig4Ada.Ada

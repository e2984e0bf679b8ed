import Swig4Ada.Proofs.TypeParts
import Swig4Ada.Swig.TypeDefault

/-!
# Deducing default types

A default type is a sequence of elements that are no functions and no member pointers, with
arrays of two kinds only, and one of four endings. On such types `SwigType_default_deduce` is
the function `next`, which looks at the element in front of the ending; it makes the rank
smaller, so from every default type it goes on to the last one, `SWIGTYPE`.
-/

namespace Swig4Ada.Swig

open Swig4Ada.Lib Swig4Ada.Ada

/-! ## The default form -/

/-- An element that is copied: no array, no function and no member pointer. -/
def isCopied (e : List Char) : Bool :=
  !swigTypeIsarray e && !swigTypeIsfunction e && !swigTypeIsmemberpointer e

inductive DefaultPart
  | array (sized : Bool)
  | other (e : TypePart) (h : isCopied (e.pushed true) = true)

inductive Ending
  | plain
  | enum
  | function
  | member
deriving DecidableEq, Repr

/-- A default type; its elements are listed from the ending on. -/
structure DefaultType where
  parts : List DefaultPart
  ending : Ending

def sizedPart : TypePart := ⟨['a', '(', 'A', 'N', 'Y', ')'], by decide, by decide⟩

def unsizedPart : TypePart := ⟨['a', '(', ')'], by decide, by decide⟩

def pointerPart : TypePart := ⟨['p'], by decide, by decide⟩

def functionPart : TypePart := ⟨['f', '(', 'A', 'N', 'Y', ')'], by decide, by decide⟩

def memberPart : TypePart := ⟨['m', '(', 'C', 'L', 'A', 'S', 'S', ')'], by decide, by decide⟩

def swigtypePart : TypePart := ⟨swigtypeText, by decide, by decide⟩

def enumPart : TypePart := ⟨enumText, by decide, by decide⟩

namespace DefaultPart

def part : DefaultPart → TypePart
  | array true => sizedPart
  | array false => unsizedPart
  | other e _ => e

def text (p : DefaultPart) : List Char := p.part.pushed true

def isQualifier (p : DefaultPart) : Bool := swigTypeIsqualifier p.text

def pointer : DefaultPart := other pointerPart (by decide)

/-- What a step counts of an element. -/
def rank : DefaultPart → Nat
  | array true => 3
  | array false => 2
  | other _ _ => 1

end DefaultPart

namespace Ending

/-- The elements of an ending: what is in front of the last one, and the last one. -/
def parts : Ending → List TypePart × TypePart
  | plain => ([], swigtypePart)
  | enum => ([], enumPart)
  | function => ([functionPart], swigtypePart)
  | member => ([memberPart], swigtypePart)

def rank : Ending → Nat
  | plain => 0
  | enum => 1
  | function => 1
  | member => 2

end Ending

namespace DefaultType

def elements (d : DefaultType) : List TypePart :=
  d.parts.reverse.map DefaultPart.part ++ d.ending.parts.1

def text (d : DefaultType) : List Char := partsText false (d.elements ++ [d.ending.parts.2])

def rank (d : DefaultType) : Nat := (d.parts.map DefaultPart.rank).sum + d.ending.rank

/-- What is deduced from a default type. -/
def next : DefaultType → Option DefaultType
  | ⟨ps, .function⟩ => some ⟨ps, .plain⟩
  | ⟨ps, .member⟩ => some ⟨.pointer :: ps, .plain⟩
  | ⟨[], .enum⟩ => some ⟨[], .plain⟩
  | ⟨p :: ps, .enum⟩ =>
      if swigTypeIsqualifier p.text then some ⟨ps, .enum⟩ else some ⟨p :: ps, .plain⟩
  | ⟨[], .plain⟩ => none
  | ⟨.array true :: ps, .plain⟩ => some ⟨.array false :: ps, .plain⟩
  | ⟨.array false :: ps, .plain⟩ => some ⟨.pointer :: ps, .plain⟩
  | ⟨.other _ _ :: ps, .plain⟩ => some ⟨ps, .plain⟩

end DefaultType

/-! ## Deduction of the text -/

theorem writtenParts_concat (es : List TypePart) (e : TypePart) (dotted : Bool) :
    writtenParts dotted (es ++ [e]) = es.map (·.pushed true) ++ [e.pushed dotted] := by
  induction es with
  | nil => rfl
  | cons f es ih =>
      obtain ⟨g, gs, hg⟩ : ∃ g gs, es ++ [e] = g :: gs :=
        List.exists_cons_of_ne_nil (List.append_ne_nil_of_right_ne_nil _ (List.cons_ne_nil _ _))
      rw [List.cons_append, hg, writtenParts, ← hg, ih]
      rfl

namespace DefaultType

variable {d d' : DefaultType}

/-- The elements as they stand in the text, from the last to the first. -/
def items (d : DefaultType) : List (List Char) :=
  d.ending.parts.2.text :: (d.ending.parts.1.reverse.map (·.pushed true) ++
    d.parts.map DefaultPart.text)

theorem items_reverse (d : DefaultType) :
    writtenParts false (d.elements ++ [d.ending.parts.2]) = d.items.reverse := by
  rw [writtenParts_concat, items, List.reverse_cons, List.reverse_append, ← List.map_reverse,
    ← List.map_reverse, List.reverse_reverse, elements, List.map_append, List.map_map]
  rfl

theorem text_items (d : DefaultType) : d.items.reverse.flatten = d.text := by
  rw [text, partsText, items_reverse]

theorem split_text (d : DefaultType) : (swigTypeSplit d.text.length d.text).reverse = d.items := by
  rw [text, swigTypeSplit_parts _ (Nat.le_refl _), items_reverse, List.reverse_reverse]

theorem text_ne_nil (d : DefaultType) : d.text ≠ [] :=
  partsText_ne_nil false (List.append_ne_nil_of_right_ne_nil _ (List.cons_ne_nil _ _))

/-- What `SwigType_default_deduce` makes of its list. -/
theorem put_together {front : List (List Char)} {back : List (List Char)}
    (h : d.items = back.reverse ++ front) :
    (some (if (front.reverse ++ back).flatten = [] then none
      else some (front.reverse ++ back).flatten) : Option (Option (List Char))) =
      some (some d.text) := by
  have hl : front.reverse ++ back = d.items.reverse := by
    rw [h, List.reverse_append, List.reverse_reverse]
  rw [hl, text_items, if_neg d.text_ne_nil]

theorem copied_not {e : TypePart} (h : isCopied (e.pushed true) = true) :
    swigTypeIsarray (e.pushed true) = false ∧ swigTypeIsmemberpointer (e.pushed true) = false := by
  rw [isCopied] at h
  cases ha : swigTypeIsarray (e.pushed true) <;>
    cases hm : swigTypeIsmemberpointer (e.pushed true) <;> simp_all

theorem deduce_text (d : DefaultType) :
    swigTypeDefaultDeduce d.text = some (d.next.map text) := by
  rw [swigTypeDefaultDeduce, split_text]
  obtain ⟨ps, ending⟩ := d
  cases ending with
  | function => exact @put_together ⟨ps, .plain⟩ _ [swigtypeText] rfl
  | member => exact @put_together ⟨.pointer :: ps, .plain⟩ _ [pointerText, swigtypeText] rfl
  | enum =>
      cases ps with
      | nil => exact @put_together ⟨[], .plain⟩ [] [swigtypeText] rfl
      | cons p ps =>
          cases p with
          | array sized =>
              cases sized with
              | true =>
                  exact @put_together ⟨.array true :: ps, .plain⟩ _ [arrayAnyText, swigtypeText] rfl
              | false =>
                  exact @put_together ⟨.array false :: ps, .plain⟩ _ [arrayText, swigtypeText] rfl
          | other e h =>
              obtain ⟨ha, hm⟩ := copied_not h
              change (if swigTypeIsarray (e.pushed true) = true then _ else
                if swigTypeIsmemberpointer (e.pushed true) = true then _ else
                if (swigTypeIsenum enumText && !swigTypeIsqualifier (e.pushed true)) = true then _
                else _) = some (Option.map text (if swigTypeIsqualifier (e.pushed true) = true
                  then some ⟨ps, .enum⟩ else some ⟨.other e h :: ps, .plain⟩))
              rw [if_neg (by rw [ha]; exact Bool.false_ne_true),
                if_neg (by rw [hm]; exact Bool.false_ne_true)]
              by_cases hq : swigTypeIsqualifier (e.pushed true) = true
              · rw [if_neg (by rw [hq]; decide), if_pos hq]
                exact @put_together ⟨ps, .enum⟩ _ [enumText] rfl
              · have hq' : swigTypeIsqualifier (e.pushed true) = false := by simpa using hq
                rw [if_pos (by rw [hq']; decide), if_neg hq]
                exact @put_together ⟨.other e h :: ps, .plain⟩ _ [e.pushed true, swigtypeText] rfl
  | plain =>
      cases ps with
      | nil => rfl
      | cons p ps =>
          cases p with
          | array sized =>
              cases sized with
              | true =>
                  exact @put_together ⟨.array false :: ps, .plain⟩ _ [arrayText, swigtypeText] rfl
              | false =>
                  exact @put_together ⟨.pointer :: ps, .plain⟩ _ [pointerText, swigtypeText] rfl
          | other e h =>
              obtain ⟨ha, hm⟩ := copied_not h
              change (if swigTypeIsarray (e.pushed true) = true then _ else
                if swigTypeIsmemberpointer (e.pushed true) = true then _ else _) = _
              rw [if_neg (by rw [ha]; exact Bool.false_ne_true),
                if_neg (by rw [hm]; exact Bool.false_ne_true)]
              exact @put_together ⟨ps, .plain⟩ _ [swigtypeText] rfl

theorem rank_next (h : d.next = some d') : d'.rank < d.rank := by
  obtain ⟨ps, ending⟩ := d
  cases ending with
  | function =>
      obtain rfl := Option.some.inj h
      exact Nat.lt_succ_self _
  | member =>
      obtain rfl := Option.some.inj h
      simp [rank, Ending.rank, DefaultPart.rank, DefaultPart.pointer]
      omega
  | enum =>
      cases ps with
      | nil =>
          obtain rfl := Option.some.inj h
          exact Nat.lt_succ_self _
      | cons p ps =>
          rw [next] at h
          by_cases hq : swigTypeIsqualifier p.text = true
          · rw [if_pos hq] at h
            obtain rfl := Option.some.inj h
            have hp : 0 < p.rank := by
              cases p with
              | array sized => cases sized <;> exact Nat.succ_pos _
              | other e he => exact Nat.succ_pos _
            simp only [rank, List.map_cons, List.sum_cons]
            omega
          · rw [if_neg hq] at h
            obtain rfl := Option.some.inj h
            exact Nat.lt_succ_self _
  | plain =>
      cases ps with
      | nil => cases h
      | cons p ps =>
          cases p with
          | array sized =>
              cases sized with
              | true =>
                  obtain rfl := Option.some.inj h
                  simp [rank, DefaultPart.rank]
              | false =>
                  obtain rfl := Option.some.inj h
                  simp [rank, DefaultPart.rank, DefaultPart.pointer]
          | other e he =>
              obtain rfl := Option.some.inj h
              simp [rank, DefaultPart.rank]

theorem next_none (h : d.next = none) : d = ⟨[], .plain⟩ := by
  obtain ⟨ps, ending⟩ := d
  cases ending with
  | function => cases h
  | member => cases h
  | enum =>
      cases ps with
      | nil => cases h
      | cons p ps =>
          rw [next] at h
          by_cases hq : swigTypeIsqualifier p.text = true
          · rw [if_pos hq] at h
            cases h
          · rw [if_neg hq] at h
            cases h
  | plain =>
      cases ps with
      | nil => rfl
      | cons p ps =>
          cases p with
          | array sized => cases sized <;> cases h
          | other e he => cases h

end DefaultType

/-! ## Chains of deductions -/

/-- The types that are deduced from a type one after the other, up to the null pointer. -/
inductive Deduction : List Char → List (List Char) → Prop
  | last {t : List Char} : swigTypeDefaultDeduce t = some none → Deduction t [t]
  | step {t u : List Char} {chain : List (List Char)} :
      swigTypeDefaultDeduce t = some (some u) → Deduction u chain → Deduction t (t :: chain)

def IsDefaultType (t : List Char) : Prop := ∃ d : DefaultType, d.text = t

theorem DefaultType.deduction (d : DefaultType) :
    ∃ chain, Deduction d.text chain ∧ (∀ t ∈ chain, IsDefaultType t) ∧
      ∃ front, chain = front ++ [swigtypeText] := by
  obtain ⟨n, hn⟩ : ∃ n, d.rank = n := ⟨_, rfl⟩
  induction n using Nat.strong_induction_on generalizing d with
  | _ n ih =>
      have hstep := d.deduce_text
      cases hnext : d.next with
      | none =>
          rw [hnext] at hstep
          refine ⟨[d.text], Deduction.last hstep, fun t ht => ?_, [], ?_⟩
          · exact ⟨d, (List.mem_singleton.1 ht).symm⟩
          · rw [next_none hnext]
            rfl
      | some d' =>
          rw [hnext] at hstep
          obtain ⟨chain, hchain, hdefault, front, rfl⟩ :=
            ih d'.rank (hn ▸ rank_next hnext) d' rfl
          refine ⟨d.text :: (front ++ [swigtypeText]), Deduction.step hstep hchain,
            fun t ht => ?_, d.text :: front, rfl⟩
          rcases List.mem_cons.1 ht with rfl | ht
          · exact ⟨d, rfl⟩
          · exact hdefault t ht

/-- The chain of a default type is that of the next one with the type in front. -/
theorem DefaultType.deduction_step {d d' : DefaultType} {chain : List (List Char)}
    (hnext : d.next = some d') (h : Deduction d.text chain) :
    ∃ l, chain = d.text :: l ∧ Deduction d'.text l := by
  have hstep := d.deduce_text
  rw [hnext] at hstep
  cases h with
  | last hlast =>
      rw [hlast] at hstep
      cases hstep
  | @step _ u l hu hl =>
      rw [hu] at hstep
      obtain rfl := Option.some.inj (Option.some.inj hstep)
      exact ⟨l, rfl, hl⟩

theorem Deduction.head {t : List Char} {chain : List (List Char)} (h : Deduction t chain) :
    ∃ l, chain = t :: l := by
  cases h with
  | last _ => exact ⟨[], rfl⟩
  | step _ _ => exact ⟨_, rfl⟩

/-- An enumeration loses the qualifiers in front of its base one by one, and then its name. -/
theorem deduction_enum {ps : List DefaultPart} {chain : List (List Char)}
    (h : Deduction (⟨ps, .enum⟩ : DefaultType).text chain) :
    ∃ qs front back, qs = ps.dropWhile DefaultPart.isQualifier ∧
      chain = front ++ (⟨qs, .enum⟩ : DefaultType).text :: (⟨qs, .plain⟩ : DefaultType).text ::
        back ∧ (qs = [] → back = []) := by
  induction ps generalizing chain with
  | nil =>
      obtain ⟨l, rfl, hl⟩ := DefaultType.deduction_step rfl h
      refine ⟨[], [], [], rfl, ?_, fun _ => rfl⟩
      cases hl with
      | last _ => rfl
      | step hu _ => cases hu
  | cons p ps ih =>
      by_cases hq : swigTypeIsqualifier p.text = true
      · have hnext : (⟨p :: ps, .enum⟩ : DefaultType).next = some ⟨ps, .enum⟩ := if_pos hq
        obtain ⟨l, rfl, hl⟩ := DefaultType.deduction_step hnext h
        obtain ⟨qs, front, back, hqs, rfl, hback⟩ := ih hl
        exact ⟨qs, _ :: front, back, by
          rw [List.dropWhile_cons_of_pos (p := DefaultPart.isQualifier) hq, hqs], rfl, hback⟩
      · have hnext : (⟨p :: ps, .enum⟩ : DefaultType).next = some ⟨p :: ps, .plain⟩ := if_neg hq
        obtain ⟨l, rfl, hl⟩ := DefaultType.deduction_step hnext h
        obtain ⟨back, rfl⟩ := hl.head
        exact ⟨p :: ps, [], back,
          (List.dropWhile_cons_of_neg (p := DefaultPart.isQualifier) hq).symm, rfl, nofun⟩

/-! ## Creating a default type -/

/-- An element in front of all others. -/
theorem DefaultType.text_outer (ps : List DefaultPart) (p : DefaultPart) (ending : Ending) :
    (⟨ps ++ [p], ending⟩ : DefaultType).text =
      p.text ++ (⟨ps, ending⟩ : DefaultType).text := by
  rw [← text_items, ← text_items, items, items, List.map_append, List.map_singleton,
    ← List.append_assoc, ← List.cons_append, List.reverse_append, List.reverse_singleton,
    List.flatten_append, List.flatten_singleton]

theorem letters_differ {c d : Char} {t : List Char} (hne : c ≠ d)
    (hc : [c, '('].isPrefixOf t = true) (hd : [d, '('].isPrefixOf t = true) : False := by
  cases t with
  | nil => cases hc
  | cons x t =>
      simp only [List.isPrefixOf, Bool.and_eq_true, beq_iff_eq] at hc hd
      exact hne (hc.1.trans hd.1.symm)

/-- The loop over elements that end in a dot and a last one that does not. -/
theorem createLoop_text (es : List TypePart) (isEnum : Bool) :
    ∃ d : DefaultType,
      createLoop (es.map (·.pushed true) ++ [if isEnum then enumText else swigtypeText]) =
        d.text ∧
      ((∀ e ∈ es, swigTypeIsqualifier (e.pushed true) = true ∧
          swigTypeIsfunction (e.pushed true) = false) → isEnum = true →
        d.ending = .enum ∧ ∀ p ∈ d.parts, p.isQualifier = true) := by
  induction es with
  | nil =>
      cases isEnum with
      | true => exact ⟨⟨[], .enum⟩, rfl, fun _ _ => ⟨rfl, nofun⟩⟩
      | false => exact ⟨⟨[], .plain⟩, rfl, nofun⟩
  | cons e es ih =>
      obtain ⟨⟨ps, ending⟩, hrest, henum⟩ := ih
      rw [List.map_cons, List.cons_append, createLoop, hrest]
      by_cases ha : swigTypeIsarray (e.pushed true) = true
      · have hnot : swigTypeIsqualifier (e.pushed true) = true → False :=
          fun hq => letters_differ (by decide) ha hq
        rw [if_pos ha]
        refine ⟨⟨ps ++ [.array (e.pushed true ≠ arrayText)], ending⟩, ?_,
          fun h _ => (hnot (h e List.mem_cons_self).1).elim⟩
        rw [DefaultType.text_outer]
        by_cases htext : e.pushed true = arrayText
        · rw [if_pos htext, decide_eq_false (not_not_intro htext)]
          rfl
        · rw [if_neg htext, decide_eq_true htext]
          rfl
      · rw [if_neg ha]
        by_cases hf : swigTypeIsfunction (e.pushed true) = true
        · rw [if_pos hf]
          refine ⟨⟨[], .function⟩, rfl, fun h _ => ?_⟩
          have hnot := (h e List.mem_cons_self).2
          rw [hf] at hnot
          cases hnot
        · rw [if_neg hf]
          by_cases hm : swigTypeIsmemberpointer (e.pushed true) = true
          · rw [if_pos hm]
            exact ⟨⟨[], .member⟩, rfl, fun h _ =>
              (letters_differ (by decide) hm (h e List.mem_cons_self).1).elim⟩
          · have hcopied : isCopied (e.pushed true) = true := by
              rw [isCopied, Bool.eq_false_iff.2 ha, Bool.eq_false_iff.2 hf, Bool.eq_false_iff.2 hm]
              rfl
            rw [if_neg hm]
            refine ⟨⟨ps ++ [.other e hcopied], ending⟩, ?_, fun h hb => ?_⟩
            · rw [DefaultType.text_outer]
              rfl
            · obtain ⟨hending, hparts⟩ := henum (fun f hf => h f (List.mem_cons_of_mem _ hf)) hb
              refine ⟨hending, fun p hp => ?_⟩
              rcases List.mem_append.1 hp with hp | hp
              · exact hparts p hp
              · rw [List.mem_singleton.1 hp]
                exact (h e List.mem_cons_self).1

/-- From the default type of a type that is not the variable arguments, deduction goes through
default types only and ends with `SWIGTYPE`; that of an enumeration, qualified or not, with
`enum SWIGTYPE` and `SWIGTYPE`. -/
theorem swigTypeDefaultCreate_deduced {typedefResolveAll : List Char → List Char}
    {ty : List Char} (hvarargs : swigTypeIsvarargs ty = false)
    (htype : IsTypeText (typedefResolveAll ty)) (hne : typedefResolveAll ty ≠ []) :
    ∃ t chain, swigTypeDefaultCreate typedefResolveAll ty = some t ∧ Deduction t chain ∧
      (∀ u ∈ chain, IsDefaultType u) ∧ (∃ front, chain = front ++ [swigtypeText]) ∧
      (∀ front base, swigTypeSplit (typedefResolveAll ty).length (typedefResolveAll ty) =
          front ++ [base] → swigTypeIsenum base = true →
        (∀ e ∈ front, swigTypeIsqualifier e = true ∧ swigTypeIsfunction e = false) →
        ∃ before, chain = before ++ [enumText, swigtypeText]) := by
  obtain ⟨dotted, parts, hparts⟩ := htype.parts
  have hnil : parts ≠ [] := fun h => hne (by rw [hparts, h]; rfl)
  obtain ⟨es, e, rfl⟩ : ∃ es e, parts = es ++ [e] :=
    ⟨_, _, (List.dropLast_append_getLast hnil).symm⟩
  have hsplit := swigTypeSplit_parts (es ++ [e]) (Nat.le_refl (partsText dotted (es ++ [e])).length)
  rw [writtenParts_concat, ← hparts] at hsplit
  obtain ⟨d, hcreated, henum⟩ := createLoop_text es (swigTypeIsenum (e.pushed dotted))
  obtain ⟨chain, hchain, hdefault, hlast⟩ := d.deduction
  refine ⟨d.text, chain, ?_, hchain, hdefault, hlast, fun front base hfront hbase hqualified => ?_⟩
  · rw [swigTypeDefaultCreate, if_neg (by rw [hvarargs]; exact Bool.false_ne_true)]
    dsimp only
    rw [hsplit, List.getLast?_concat]
    dsimp only
    rw [List.dropLast_concat, hcreated]
  · rw [hsplit] at hfront
    obtain ⟨rfl, hone⟩ := List.append_inj' hfront rfl
    obtain rfl := List.singleton_inj.1 hone
    obtain ⟨hending, hall⟩ := henum (fun f hf => hqualified _ (List.mem_map_of_mem hf)) hbase
    obtain ⟨ps, ending⟩ := d
    obtain rfl : ending = .enum := hending
    obtain ⟨qs, before, back, hqs, rfl, hback⟩ := deduction_enum hchain
    obtain rfl : qs = [] := hqs.trans (List.dropWhile_eq_nil_iff.2 hall)
    obtain rfl := hback rfl
    exact ⟨before, rfl⟩

/-- `q(const).enum E`. -/
theorem constEnum_deduced :
    ∃ t chain, swigTypeDefaultCreate id "q(const).enum E".toList = some t ∧ Deduction t chain ∧
      ∃ before, chain = before ++ [enumText, swigtypeText] := by
  have htype : IsTypeText "q(const).enum E".toList :=
    isTypeText_parts false [⟨['q', '(', 'c', 'o', 'n', 's', 't', ')'], by decide, by decide⟩,
      ⟨['e', 'n', 'u', 'm', ' ', 'E'], by decide, by decide⟩]
  obtain ⟨t, chain, hcreated, hchain, -, -, henum⟩ :=
    @swigTypeDefaultCreate_deduced id "q(const).enum E".toList (by decide) htype (by decide)
  refine ⟨t, chain, hcreated, hchain, henum ["q(const).".toList] "enum E".toList rfl rfl ?_⟩
  intro e he
  obtain rfl := List.mem_singleton.1 he
  exact ⟨rfl, rfl⟩

end Swig4Ada.Swig

import Swig4Ada.Ada.ExpressionResolver

/-!
# The resolver without its turns

The reading of a pad that ends goes on to end in the same way with more turns, and it
ends with as many turns as there are characters, and one. So what a reading gives is a
relation between a pad and a result, `Reads`, and one turn of the loop says how it
follows from the readings of shorter pads.
-/

namespace Swig4Ada.Ada

variable {α : Type} (D : Discrete α) (knownSymbols : SymbolMap α) (nameSpace : List Char)

theorem except_bind_ok {ε β γ : Type} {x : Except ε β} {f : β → Except ε γ} {c : γ} :
    (x >>= f) = .ok c ↔ ∃ b, x = .ok b ∧ f b = .ok c := by
  cases x with
  | error e =>
      constructor
      · intro h
        cases h
      · rintro ⟨b, hb, -⟩
        cases hb
  | ok b =>
      constructor
      · exact fun h => ⟨b, rfl, h⟩
      · rintro ⟨b', hb, h⟩
        cases hb
        exact h

theorem orConstraintError_ok {β : Type} {x : Option β} {b : β} :
    orConstraintError x = .ok b ↔ x = some b := by
  cases x with
  | none => simp [orConstraintError]
  | some a => simp [orConstraintError]

/-- The value and type of a reading, and the pad that it leaves. -/
abbrev Reading (α : Type) : Type := (α × String) × List Char

/-- How the reading goes on after a finding, in terms of the readings and the sizes of
other texts. -/
def Continues (reads : List Char → List (Element α) → Reading α → Prop)
    (sizes : List Char → Nat → Prop) :
    Finding → List Char → List (Element α) → Reading α → Prop
  | .space, pad, elements, r => reads pad elements r
  | .qualifier q, pad, elements, r =>
      ∃ elements', qualifyLast elements q = .ok elements' ∧ reads pad elements' r
  | .openParen, pad, elements, r =>
      ∃ inner, reads pad [] inner ∧
        reads inner.2 (elements ++ [.value inner.1.1 inner.1.2]) r
  | .closeParen, pad, elements, r => ∃ v, resultOf D elements = some v ∧ r = (v, pad)
  | .operator code, pad, elements, r => reads pad (elements ++ [.operator code]) r
  | .sizeof slice, pad, elements, r =>
      ∃ size, sizes slice size ∧
        reads pad (elements ++ [.value (D.ofInt size) defaultQualifier]) r
  | .literal n, pad, elements, r =>
      reads pad (elements ++ [.value (D.ofInt n) defaultQualifier]) r
  | .symbol theSymbol, pad, elements, r =>
      ∃ v, symbolValue knownSymbols nameSpace theSymbol = some v ∧
        reads pad (elements ++ [.value v defaultQualifier]) r

variable {D knownSymbols nameSpace}

theorem Continues.mono {reads reads' : List Char → List (Element α) → Reading α → Prop}
    {sizes sizes' : List Char → Nat → Prop} {f : Finding} {pad : List Char}
    {elements : List (Element α)} {r : Reading α}
    (h : Continues D knownSymbols nameSpace reads sizes f pad elements r)
    (hreads : ∀ pad elements r, reads pad elements r → reads' pad elements r)
    (hsizes : ∀ slice n, sizes slice n → sizes' slice n) :
    Continues D knownSymbols nameSpace reads' sizes' f pad elements r := by
  cases f with
  | space => exact hreads _ _ _ h
  | qualifier q =>
      obtain ⟨elements', hq, h⟩ := h
      exact ⟨elements', hq, hreads _ _ _ h⟩
  | openParen =>
      obtain ⟨inner, hinner, h⟩ := h
      exact ⟨inner, hreads _ _ _ hinner, hreads _ _ _ h⟩
  | closeParen => exact h
  | operator code => exact hreads _ _ _ h
  | sizeof slice =>
      obtain ⟨size, hsize, h⟩ := h
      exact ⟨size, hsizes _ _ hsize, hreads _ _ _ h⟩
  | literal n => exact hreads _ _ _ h
  | symbol s =>
      obtain ⟨v, hv, h⟩ := h
      exact ⟨v, hv, hreads _ _ _ h⟩

/-- The size of a type between the parentheses of `sizeof`. -/
def sizeWithin (D : Discrete α) (knownSymbols : SymbolMap α) (nameSpace : List Char)
    (fuel : Nat) (slice : List Char) : Except ResolverFault Nat :=
  resolvedSizeof D knownSymbols nameSpace slice fuel (slice.filter (· ≠ '&')) 1

theorem resolveRecursive_nil {isSingle : Bool} {fuel : Nat} {elements : List (Element α)}
    {r : Reading α} :
    resolveRecursive D knownSymbols nameSpace isSingle (fuel + 1) [] elements = .ok r ↔
      resultOf D elements = some r.1 ∧ r.2 = [] := by
  rw [resolveRecursive, except_bind_ok]
  simp only [orConstraintError_ok]
  constructor
  · rintro ⟨v, hv, hr⟩
    obtain rfl : (v, []) = r := Except.ok.inj hr
    exact ⟨hv, rfl⟩
  · rintro ⟨hv, hpad⟩
    exact ⟨r.1, hv, by rw [← hpad]; rfl⟩

/-- One turn of the loop. -/
theorem resolveRecursive_cons {isSingle : Bool} {fuel : Nat} {c : Char} {cs : List Char}
    {elements : List (Element α)} {r : Reading α} :
    resolveRecursive D knownSymbols nameSpace isSingle (fuel + 1) (c :: cs) elements = .ok r ↔
      ∃ f pad, findFirst isSingle c cs = .ok (f, pad) ∧
        Continues D knownSymbols nameSpace
          (fun pad elements r =>
            resolveRecursive D knownSymbols nameSpace isSingle fuel pad elements = .ok r)
          (fun slice n => sizeWithin D knownSymbols nameSpace fuel slice = .ok n)
          f pad elements r := by
  rw [resolveRecursive, except_bind_ok]
  constructor
  · rintro ⟨⟨f, pad⟩, hfind, h⟩
    refine ⟨f, pad, hfind, ?_⟩
    cases f with
    | space => exact h
    | qualifier q => exact except_bind_ok.1 h
    | openParen => exact except_bind_ok.1 h
    | closeParen =>
        obtain ⟨v, hv, hr⟩ := except_bind_ok.1 h
        exact ⟨v, orConstraintError_ok.1 hv, (Except.ok.inj hr).symm⟩
    | operator code => exact h
    | sizeof slice => exact except_bind_ok.1 h
    | literal n => exact h
    | symbol s =>
        obtain ⟨v, hv, hr⟩ := except_bind_ok.1 h
        exact ⟨v, orConstraintError_ok.1 hv, hr⟩
  · rintro ⟨f, pad, hfind, h⟩
    refine ⟨(f, pad), hfind, ?_⟩
    cases f with
    | space => exact h
    | qualifier q => exact except_bind_ok.2 h
    | openParen => exact except_bind_ok.2 h
    | closeParen =>
        obtain ⟨v, hv, rfl⟩ := h
        exact except_bind_ok.2 ⟨v, orConstraintError_ok.2 hv, rfl⟩
    | operator code => exact h
    | sizeof slice => exact except_bind_ok.2 h
    | literal n => exact h
    | symbol s =>
        obtain ⟨v, hv, hr⟩ := h
        exact except_bind_ok.2 ⟨v, orConstraintError_ok.2 hv, hr⟩

/-- One turn of the loop over the bounds of an array type. -/
theorem resolvedSizeof_succ {expressionType theTypeText : List Char} {fuel multiplier n : Nat} :
    resolvedSizeof D knownSymbols nameSpace expressionType (fuel + 1) theTypeText multiplier =
        .ok n ↔
      (theTypeText.getLast? = some ']' ∧ ∃ before arraySizeText reading arraySize multiplier',
        splitAtLastBracket theTypeText.dropLast = some (before, arraySizeText) ∧
          resolveRecursive D knownSymbols nameSpace (arraySizeText.length = 1) fuel
            arraySizeText [] = .ok reading ∧
          D.natural reading.1.1 = some arraySize ∧
          inRange 1 (multiplier * arraySize) = .ok multiplier' ∧
          resolvedSizeof D knownSymbols nameSpace expressionType fuel before multiplier' =
            .ok n) ∨
      (theTypeText.getLast? = some '*' ∧ inRange 0 (8 * multiplier) = .ok n) ∨
      (theTypeText.getLast? ≠ some ']' ∧ theTypeText.getLast? ≠ some '*' ∧
        knownSizeof D knownSymbols expressionType = .ok n) := by
  rw [resolvedSizeof]
  split
  · rename_i hlast
    simp only [except_bind_ok, orConstraintError_ok]
    constructor
    · rintro ⟨⟨before, text⟩, hsplit, reading, hreading, size, hsize, multiplier', hrange, h⟩
      exact Or.inl ⟨hlast, before, text, reading, size, multiplier', hsplit, hreading, hsize,
        hrange, h⟩
    · rintro (⟨-, before, text, reading, size, multiplier', hsplit, hreading, hsize, hrange, h⟩ |
        ⟨h, -⟩ | ⟨h, -⟩)
      · exact ⟨(before, text), hsplit, reading, hreading, size, hsize, multiplier', hrange, h⟩
      · rw [hlast] at h
        cases h
      · exact absurd hlast h
  · rename_i hlast
    rw [hlast]
    simp
  · rename_i h₁ h₂
    constructor
    · exact fun h => Or.inr (Or.inr ⟨fun hlast => h₁ hlast, fun hlast => h₂ hlast, h⟩)
    · rintro (⟨h, -⟩ | ⟨h, -⟩ | ⟨-, -, h⟩)
      · exact absurd h h₁
      · exact absurd h h₂
      · exact h

/-! ## More turns -/

theorem turns_succ (fuel : Nat) :
    (∀ isSingle pad elements (r : Reading α),
      resolveRecursive D knownSymbols nameSpace isSingle fuel pad elements = .ok r →
      resolveRecursive D knownSymbols nameSpace isSingle (fuel + 1) pad elements = .ok r) ∧
    (∀ expressionType theTypeText multiplier n,
      resolvedSizeof D knownSymbols nameSpace expressionType fuel theTypeText multiplier =
        .ok n →
      resolvedSizeof D knownSymbols nameSpace expressionType (fuel + 1) theTypeText
        multiplier = .ok n) := by
  induction fuel with
  | zero =>
      refine ⟨fun _ _ _ _ h => ?_, fun _ _ _ _ h => ?_⟩
      · rw [resolveRecursive] at h
        cases h
      · rw [resolvedSizeof] at h
        cases h
  | succ fuel ih =>
      refine ⟨fun isSingle pad elements r h => ?_, fun expressionType text multiplier n h => ?_⟩
      · cases pad with
        | nil => exact resolveRecursive_nil.2 (resolveRecursive_nil.1 h)
        | cons c cs =>
            obtain ⟨f, pad, hfind, hrest⟩ := resolveRecursive_cons.1 h
            refine resolveRecursive_cons.2 ⟨f, pad, hfind, hrest.mono ?_ ?_⟩
            · exact fun _ _ _ h => ih.1 _ _ _ _ h
            · exact fun _ _ h => ih.2 _ _ _ _ h
      · refine resolvedSizeof_succ.2 ((resolvedSizeof_succ.1 h).imp_left ?_)
        rintro ⟨hlast, before, bound, reading, size, multiplier', hsplit, hreading, hsize,
          hrange, hrest⟩
        exact ⟨hlast, before, bound, reading, size, multiplier', hsplit,
          ih.1 _ _ _ _ hreading, hsize, hrange, ih.2 _ _ _ _ hrest⟩

theorem resolveRecursive_mono {isSingle : Bool} {fuel fuel' : Nat} {pad : List Char}
    {elements : List (Element α)} {r : Reading α} (hle : fuel ≤ fuel')
    (h : resolveRecursive D knownSymbols nameSpace isSingle fuel pad elements = .ok r) :
    resolveRecursive D knownSymbols nameSpace isSingle fuel' pad elements = .ok r := by
  induction hle with
  | refl => exact h
  | step _ ih => exact (turns_succ _).1 _ _ _ _ ih

theorem resolvedSizeof_mono {expressionType theTypeText : List Char}
    {multiplier fuel fuel' n : Nat} (hle : fuel ≤ fuel')
    (h : resolvedSizeof D knownSymbols nameSpace expressionType fuel theTypeText multiplier =
      .ok n) :
    resolvedSizeof D knownSymbols nameSpace expressionType fuel' theTypeText multiplier =
      .ok n := by
  induction hle with
  | refl => exact h
  | step _ ih => exact (turns_succ _).2 _ _ _ _ ih

/-! ## Enough turns -/

theorem findToken_length (set : Char → Bool) (source : List Char) :
    (findToken set source).1.length + (findToken set source).2.1.length +
      (findToken set source).2.2.length = source.length := by
  have h₁ := congrArg List.length (List.takeWhile_append_dropWhile (p := (!set ·)) (l := source))
  have h₂ := congrArg List.length
    (List.takeWhile_append_dropWhile (p := set) (l := source.dropWhile (!set ·)))
  rw [List.length_append] at h₁ h₂
  simp only [findToken]
  omega

theorem findToken_head {set : Char → Bool} {c : Char} (hc : set c = true) (cs : List Char) :
    findToken set (c :: cs) = ([], c :: cs.takeWhile set, cs.dropWhile set) := by
  simp [findToken, hc]

theorem findToken_empty {set : Char → Bool} {source : List Char}
    (h : (findToken set source).2.1 = []) :
    (findToken set source).1 ++ (findToken set source).2.2 = source := by
  have hrun : (source.dropWhile (!set ·)).takeWhile set = [] := h
  have hrest := List.takeWhile_append_dropWhile (p := set) (l := source.dropWhile (!set ·))
  rw [hrun, List.nil_append] at hrest
  show source.takeWhile (!set ·) ++ (source.dropWhile (!set ·)).dropWhile set = source
  rw [hrest]
  exact List.takeWhile_append_dropWhile

/-- A turn takes characters away, if it does not look up the empty name. -/
theorem findFirst_shorter {isSingle : Bool} {c : Char} {cs pad : List Char} {f : Finding}
    (h : findFirst isSingle c cs = .ok (f, pad)) :
    (pad.length ≤ cs.length ∧ ∀ slice, f = .sizeof slice → slice.length ≤ cs.length) ∨
      (f = .symbol [] ∧ pad = c :: cs) := by
  have hliteral : ∀ set, set c = true → findLiteral set (c :: cs) = .ok (f, pad) →
      pad.length ≤ cs.length ∧ ∀ slice, f = .sizeof slice → slice.length ≤ cs.length := by
    intro set hc hfind
    rw [findLiteral, findToken_head hc] at hfind
    split at hfind
    · cases hfind
    · obtain ⟨rfl, rfl⟩ := Prod.mk.inj (Except.ok.inj hfind)
      refine ⟨?_, fun slice hf => by cases hf⟩
      rw [List.nil_append]
      exact List.length_dropWhile_le _ _
  -- What the other tests delete stands at the front.
  have hdrop : ∀ (g : Finding) (k : Nat), 0 < k → (∀ slice, g ≠ .sizeof slice) →
      (.ok (g, (c :: cs).drop k) : Except ResolverFault (Finding × List Char)) = .ok (f, pad) →
      pad.length ≤ cs.length ∧ ∀ slice, f = .sizeof slice → slice.length ≤ cs.length := by
    intro g k hk hg heq
    obtain ⟨rfl, rfl⟩ := Prod.mk.inj (Except.ok.inj heq)
    refine ⟨?_, fun slice hf => absurd hf (hg slice)⟩
    simp only [List.length_drop, List.length_cons]
    omega
  have hone : ∀ (g : Finding), (∀ slice, g ≠ .sizeof slice) →
      (.ok (g, cs) : Except ResolverFault (Finding × List Char)) = .ok (f, pad) →
      pad.length ≤ cs.length ∧ ∀ slice, f = .sizeof slice → slice.length ≤ cs.length :=
    fun g hg heq => hdrop g 1 (Nat.succ_pos 0) hg heq
  rw [findFirst] at h
  rcases ite_eq_iff.1 h with ⟨-, h⟩ | ⟨-, h⟩
  · exact Or.inl (hone _ (fun _ => by simp) h)
  rcases ite_eq_iff.1 h with ⟨-, h⟩ | ⟨-, h⟩
  · exact Or.inl (hdrop _ 3 (by omega) (fun _ => by simp) h)
  rcases ite_eq_iff.1 h with ⟨-, h⟩ | ⟨-, h⟩
  · exact Or.inl (hdrop _ 2 (by omega) (fun _ => by simp) h)
  iterate 9
    rcases ite_eq_iff.1 h with ⟨-, h⟩ | ⟨-, h⟩
    · exact Or.inl (hone _ (fun _ => by simp) h)
  rcases ite_eq_iff.1 h with ⟨-, h⟩ | ⟨-, h⟩
  · exact Or.inl (hdrop _ 2 (by omega) (fun _ => by simp) h)
  rcases ite_eq_iff.1 h with ⟨-, h⟩ | ⟨-, h⟩
  · exact Or.inl (hone _ (fun _ => by simp) h)
  rcases ite_eq_iff.1 h with ⟨-, h⟩ | ⟨-, h⟩
  · exact Or.inl (hdrop _ 2 (by omega) (fun _ => by simp) h)
  iterate 2
    rcases ite_eq_iff.1 h with ⟨-, h⟩ | ⟨-, h⟩
    · exact Or.inl (hone _ (fun _ => by simp) h)
  rcases ite_eq_iff.1 h with ⟨-, h⟩ | ⟨-, h⟩
  · cases hlast : index [')'] ((c :: cs).drop 7) with
    | none =>
        rw [hlast] at h
        cases h
    | some last =>
        rw [hlast] at h
        obtain ⟨rfl, rfl⟩ := Prod.mk.inj (Except.ok.inj h)
        refine Or.inl ⟨?_, fun slice hf => ?_⟩
        · simp only [List.length_drop, List.length_cons]
          omega
        · obtain rfl := Finding.sizeof.inj hf
          simp only [List.length_take, List.length_drop, List.length_cons]
          omega
  iterate 2
    rcases ite_eq_iff.1 h with ⟨-, h⟩ | ⟨-, h⟩
    · exact Or.inl (hdrop _ 2 (by omega) (fun _ => by simp) h)
  rcases ite_eq_iff.1 h with ⟨-, h⟩ | ⟨-, h⟩
  · exact Or.inl (hone _ (fun _ => by simp) h)
  rcases ite_eq_iff.1 h with ⟨hzero, h⟩ | ⟨-, h⟩
  · have hc : c = '0' := (List.cons.inj hzero).1
    exact Or.inl (hliteral _ (by rw [hc]; rfl) h)
  rcases ite_eq_iff.1 h with ⟨hdigit, h⟩ | ⟨-, h⟩
  · exact Or.inl (hliteral _ hdigit h)
  rcases ite_eq_iff.1 h with ⟨-, h⟩ | ⟨-, h⟩
  · exact Or.inl (hone _ (fun _ => by simp) h)
  · obtain ⟨rfl, rfl⟩ := Prod.mk.inj (Except.ok.inj h)
    have hlen := findToken_length isSymbolChar (c :: cs)
    cases hrun : (findToken isSymbolChar (c :: cs)).2.1 with
    | nil => exact Or.inr ⟨rfl, findToken_empty hrun⟩
    | cons x xs =>
        rw [hrun] at hlen
        refine Or.inl ⟨?_, fun slice hf => by cases hf⟩
        simp only [List.length_append, List.length_cons] at hlen ⊢
        omega

theorem resolveRecursive_stuck {isSingle : Bool} {c : Char} {cs : List Char}
    (h : findFirst isSingle c cs = .ok (.symbol [], c :: cs)) (fuel : Nat) :
    ∀ elements (r : Reading α),
      resolveRecursive D knownSymbols nameSpace isSingle fuel (c :: cs) elements ≠ .ok r := by
  induction fuel with
  | zero =>
      intro elements r hrun
      rw [resolveRecursive] at hrun
      cases hrun
  | succ fuel ih =>
      intro elements r hrun
      obtain ⟨f, pad, hfind, hrest⟩ := resolveRecursive_cons.1 hrun
      rw [h] at hfind
      obtain ⟨rfl, rfl⟩ := Prod.mk.inj (Except.ok.inj hfind)
      obtain ⟨v, -, hrest⟩ := hrest
      exact ih _ _ hrest

theorem splitAtLastBracket_length {text before bound : List Char}
    (h : splitAtLastBracket text = some (before, bound)) :
    before.length ≤ text.length ∧ bound.length ≤ text.length := by
  rw [splitAtLastBracket] at h
  cases hback : index ['['] text.reverse with
  | none =>
      rw [hback] at h
      cases h
  | some back =>
      rw [hback] at h
      obtain ⟨rfl, rfl⟩ := Prod.mk.inj (Option.some.inj h)
      simp only [List.length_take, List.length_drop]
      omega

theorem turns_enough (fuel : Nat) :
    (∀ isSingle pad elements (r : Reading α),
      resolveRecursive D knownSymbols nameSpace isSingle fuel pad elements = .ok r →
      r.2.length ≤ pad.length ∧
        resolveRecursive D knownSymbols nameSpace isSingle (pad.length + 1) pad elements =
          .ok r) ∧
    (∀ expressionType theTypeText multiplier n,
      resolvedSizeof D knownSymbols nameSpace expressionType fuel theTypeText multiplier =
        .ok n →
      resolvedSizeof D knownSymbols nameSpace expressionType (theTypeText.length + 1)
        theTypeText multiplier = .ok n) := by
  induction fuel with
  | zero =>
      refine ⟨fun _ _ _ _ h => ?_, fun _ _ _ _ h => ?_⟩
      · rw [resolveRecursive] at h
        cases h
      · rw [resolvedSizeof] at h
        cases h
  | succ fuel ih =>
      refine ⟨fun isSingle pad elements r h => ?_, fun expressionType text multiplier n h => ?_⟩
      · cases pad with
        | nil =>
            have hend := resolveRecursive_nil.1 h
            refine ⟨?_, resolveRecursive_nil.2 hend⟩
            rw [hend.2]
        | cons c cs =>
            obtain ⟨f, pad, hfind, hrest⟩ := resolveRecursive_cons.1 h
            rcases findFirst_shorter hfind with ⟨hpad, hslice⟩ | ⟨rfl, rfl⟩
            · -- A reading of a text no longer than the rest of the pad.
              have hread : ∀ (pad' : List Char) elements' (r' : Reading α),
                  pad'.length ≤ cs.length →
                  resolveRecursive D knownSymbols nameSpace isSingle fuel pad' elements' =
                    .ok r' →
                  r'.2.length ≤ pad'.length ∧
                  resolveRecursive D knownSymbols nameSpace isSingle (cs.length + 1) pad'
                    elements' = .ok r' := by
                intro pad' elements' r' hlen hrun
                obtain ⟨hshort, hrun'⟩ := ih.1 _ _ _ _ hrun
                exact ⟨hshort, resolveRecursive_mono (by omega) hrun'⟩
              have hsize : ∀ slice n, slice.length ≤ cs.length →
                  sizeWithin D knownSymbols nameSpace fuel slice = .ok n →
                  sizeWithin D knownSymbols nameSpace (cs.length + 1) slice = .ok n := by
                intro slice n hlen hrun
                refine resolvedSizeof_mono ?_ (ih.2 _ _ _ _ hrun)
                have := List.length_filter_le (fun c : Char => decide (c ≠ '&')) slice
                omega
              rw [List.length_cons]
              have hstep : r.2.length ≤ pad.length ∧
                  Continues D knownSymbols nameSpace
                    (fun pad elements r => resolveRecursive D knownSymbols nameSpace isSingle
                      (cs.length + 1) pad elements = .ok r)
                    (fun slice n =>
                      sizeWithin D knownSymbols nameSpace (cs.length + 1) slice = .ok n)
                    f pad elements r := by
                cases f with
                | space => exact hread _ _ _ hpad hrest
                | qualifier q =>
                    obtain ⟨elements', hq, hrest⟩ := hrest
                    obtain ⟨hlen, hrun⟩ := hread _ _ _ hpad hrest
                    exact ⟨hlen, elements', hq, hrun⟩
                | openParen =>
                    obtain ⟨inner, hinner, hrest⟩ := hrest
                    obtain ⟨hlen₁, hrun₁⟩ := hread _ _ _ hpad hinner
                    obtain ⟨hlen₂, hrun₂⟩ := hread _ _ _ (by omega) hrest
                    exact ⟨by omega, inner, hrun₁, hrun₂⟩
                | closeParen =>
                    obtain ⟨v, hv, rfl⟩ := hrest
                    exact ⟨le_refl _, v, hv, rfl⟩
                | operator code => exact hread _ _ _ hpad hrest
                | sizeof slice =>
                    obtain ⟨size, hsz, hrest⟩ := hrest
                    obtain ⟨hlen, hrun⟩ := hread _ _ _ hpad hrest
                    exact ⟨hlen, size, hsize _ _ (hslice slice rfl) hsz, hrun⟩
                | literal n => exact hread _ _ _ hpad hrest
                | symbol s =>
                    obtain ⟨v, hv, hrest⟩ := hrest
                    obtain ⟨hlen, hrun⟩ := hread _ _ _ hpad hrest
                    exact ⟨hlen, v, hv, hrun⟩
              exact ⟨by omega, resolveRecursive_cons.2 ⟨f, pad, hfind, hstep.2⟩⟩
            · exact absurd h (resolveRecursive_stuck hfind _ _ _)
      · refine resolvedSizeof_succ.2 ((resolvedSizeof_succ.1 h).imp_left ?_)
        rintro ⟨hlast, before, bound, reading, size, multiplier', hsplit, hreading, hsize,
          hrange, hrest⟩
        have hne : text ≠ [] := by
          rintro rfl
          cases hlast
        have hpos := List.length_pos_iff.2 hne
        obtain ⟨hbefore, hbound⟩ := splitAtLastBracket_length hsplit
        rw [List.length_dropLast] at hbefore hbound
        exact ⟨hlast, before, bound, reading, size, multiplier', hsplit,
          resolveRecursive_mono (by omega) (ih.1 _ _ _ _ hreading).2, hsize, hrange,
          resolvedSizeof_mono (by omega) (ih.2 _ _ _ _ hrest)⟩

/-! ## Readings -/

/-- The reading of a pad ends with a result. -/
def Reads (D : Discrete α) (knownSymbols : SymbolMap α) (nameSpace : List Char)
    (isSingle : Bool) (pad : List Char) (elements : List (Element α)) (r : Reading α) : Prop :=
  ∃ fuel, resolveRecursive D knownSymbols nameSpace isSingle fuel pad elements = .ok r

def Sizes (D : Discrete α) (knownSymbols : SymbolMap α) (nameSpace slice : List Char)
    (n : Nat) : Prop :=
  ∃ fuel, sizeWithin D knownSymbols nameSpace fuel slice = .ok n

theorem reads_nil {isSingle : Bool} {elements : List (Element α)} {r : Reading α} :
    Reads D knownSymbols nameSpace isSingle [] elements r ↔
      resultOf D elements = some r.1 ∧ r.2 = [] := by
  constructor
  · rintro ⟨fuel, h⟩
    exact resolveRecursive_nil.1 (resolveRecursive_mono (Nat.le_succ fuel) h)
  · exact fun h => ⟨1, resolveRecursive_nil.2 h⟩

theorem Reads.cons {isSingle : Bool} {c : Char} {cs pad : List Char} {f : Finding}
    {elements : List (Element α)} {r : Reading α}
    (hfind : findFirst isSingle c cs = .ok (f, pad))
    (h : Continues D knownSymbols nameSpace (Reads D knownSymbols nameSpace isSingle)
      (Sizes D knownSymbols nameSpace) f pad elements r) :
    Reads D knownSymbols nameSpace isSingle (c :: cs) elements r := by
  have hone : ∀ fuel, Continues D knownSymbols nameSpace
      (fun pad elements r =>
        resolveRecursive D knownSymbols nameSpace isSingle fuel pad elements = .ok r)
      (fun slice n => sizeWithin D knownSymbols nameSpace fuel slice = .ok n) f pad elements r →
      Reads D knownSymbols nameSpace isSingle (c :: cs) elements r :=
    fun fuel hrest => ⟨fuel + 1, resolveRecursive_cons.2 ⟨f, pad, hfind, hrest⟩⟩
  cases f with
  | space =>
      obtain ⟨fuel, h⟩ := h
      exact hone fuel h
  | qualifier q =>
      obtain ⟨elements', hq, fuel, h⟩ := h
      exact hone fuel ⟨elements', hq, h⟩
  | openParen =>
      obtain ⟨inner, ⟨fuel₁, h₁⟩, fuel₂, h₂⟩ := h
      exact hone (max fuel₁ fuel₂) ⟨inner, resolveRecursive_mono (le_max_left _ _) h₁,
        resolveRecursive_mono (le_max_right _ _) h₂⟩
  | closeParen => exact hone 0 h
  | operator code =>
      obtain ⟨fuel, h⟩ := h
      exact hone fuel h
  | sizeof slice =>
      obtain ⟨size, ⟨fuel₁, h₁⟩, fuel₂, h₂⟩ := h
      exact hone (max fuel₁ fuel₂) ⟨size, resolvedSizeof_mono (le_max_left _ _) h₁,
        resolveRecursive_mono (le_max_right _ _) h₂⟩
  | literal n =>
      obtain ⟨fuel, h⟩ := h
      exact hone fuel h
  | symbol s =>
      obtain ⟨v, hv, fuel, h⟩ := h
      exact hone fuel ⟨v, hv, h⟩

theorem reads_cons {isSingle : Bool} {c : Char} {cs : List Char} {elements : List (Element α)}
    {r : Reading α} :
    Reads D knownSymbols nameSpace isSingle (c :: cs) elements r ↔
      ∃ f pad, findFirst isSingle c cs = .ok (f, pad) ∧
        Continues D knownSymbols nameSpace (Reads D knownSymbols nameSpace isSingle)
          (Sizes D knownSymbols nameSpace) f pad elements r := by
  constructor
  · rintro ⟨fuel, h⟩
    obtain ⟨f, pad, hfind, hrest⟩ :=
      resolveRecursive_cons.1 (resolveRecursive_mono (Nat.le_succ fuel) h)
    exact ⟨f, pad, hfind, hrest.mono (fun _ _ _ h => ⟨fuel, h⟩) fun _ _ h => ⟨fuel, h⟩⟩
  · rintro ⟨f, pad, hfind, hrest⟩
    exact Reads.cons hfind hrest

theorem resolvedCIntegerExpression_reads {theExpression : List Char} {v : α} :
    resolvedCIntegerExpression D knownSymbols nameSpace theExpression = .ok v ↔
      ∃ q pad, Reads D knownSymbols nameSpace (theExpression.length = 1) theExpression []
        ((v, q), pad) := by
  rw [resolvedCIntegerExpression, except_bind_ok]
  constructor
  · rintro ⟨reading, hrun, hv⟩
    obtain rfl : reading.1.1 = v := Except.ok.inj hv
    exact ⟨reading.1.2, reading.2, _, hrun⟩
  · rintro ⟨q, pad, fuel, hrun⟩
    exact ⟨((v, q), pad), ((turns_enough fuel).1 _ _ _ _ hrun).2, rfl⟩

end Swig4Ada.Ada

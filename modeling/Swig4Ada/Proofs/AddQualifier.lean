import Swig4Ada.Proofs.TypeParts

/-!
# Adding qualifiers

The words of a text are what stands between its spaces. `DohSplit` gives them for every text
that does not end in a space, so adding qualifiers sorts the words of two texts and leaves out
what is repeated. Such a list is determined by its members: hence neither the order of two
calls nor the order, the repetitions and the spaces in their texts matter.
-/

namespace Swig4Ada.Swig

open Swig4Ada.Lib Swig4Ada.Ada

/-! ## Each member once, in order -/

section Once

variable {α : Type} {a b x : α} {l acc : List α}

theorem eraseRepsBy_loop (r : α → α → Bool) :
    List.eraseRepsBy.loop r a l acc = acc.reverse ++ List.eraseRepsBy.loop r a l [] := by
  induction l generalizing a acc with
  | nil =>
      rw [List.eraseRepsBy.loop, List.eraseRepsBy.loop, List.reverse_cons]
      rfl
  | cons b l ih =>
      rw [List.eraseRepsBy.loop, List.eraseRepsBy.loop]
      cases r a b with
      | true => exact ih
      | false =>
          have hone := @ih b [a]
          dsimp only
          rw [ih, hone, List.reverse_cons, List.append_assoc]
          rfl

theorem eraseReps_same [BEq α] [LawfulBEq α] :
    (a :: a :: l).eraseReps = (a :: l).eraseReps := by
  show List.eraseRepsBy.loop _ a (a :: l) [] = _
  rw [List.eraseRepsBy.loop, beq_self_eq_true]
  rfl

theorem eraseReps_other [BEq α] [LawfulBEq α] (h : a ≠ b) :
    (a :: b :: l).eraseReps = a :: (b :: l).eraseReps := by
  show List.eraseRepsBy.loop _ a (b :: l) [] = _
  rw [List.eraseRepsBy.loop, beq_false_of_ne h]
  dsimp only
  rw [eraseRepsBy_loop]
  rfl

theorem mem_eraseReps [BEq α] [LawfulBEq α] : x ∈ l.eraseReps ↔ x ∈ l := by
  cases l with
  | nil => rfl
  | cons a l =>
      induction l generalizing a with
      | nil => rfl
      | cons b l ih =>
          by_cases hab : a = b
          · rw [hab, eraseReps_same, ih, List.mem_cons, List.mem_cons, List.mem_cons, or_self_left]
          · rw [eraseReps_other hab, List.mem_cons, ih, ← List.mem_cons]

/-- What is in order with repetitions stays in order, and the repetitions go. -/
theorem sortedLT_eraseReps [LinearOrder α] [BEq α] [LawfulBEq α]
    (h : l.Pairwise (· ≤ ·)) : l.eraseReps.Pairwise (· < ·) := by
  cases l with
  | nil => exact List.Pairwise.nil
  | cons a l =>
      induction l generalizing a with
      | nil => exact List.pairwise_singleton _ a
      | cons b l ih =>
          obtain ⟨hle, hrest⟩ := List.pairwise_cons.1 h
          by_cases hab : a = b
          · rw [hab, eraseReps_same]
            exact ih b hrest
          · rw [eraseReps_other hab]
            refine List.pairwise_cons.2 ⟨fun x hx => ?_, ih b hrest⟩
            have hlt : a < b := lt_of_le_of_ne (hle b List.mem_cons_self) hab
            rcases List.mem_cons.1 (mem_eraseReps.1 hx) with rfl | hx
            · exact hlt
            · exact lt_of_lt_of_le hlt ((List.pairwise_cons.1 hrest).1 x hx)

end Once

/-- The list of the distinct members in ascending order, as `SwigType_add_qualifier` makes it. -/
def sortedOnce (ws : List (List Char)) : List (List Char) :=
  (ws.mergeSort fun a b => !(b < a)).eraseReps

theorem mem_sortedOnce {ws : List (List Char)} {w : List Char} :
    w ∈ sortedOnce ws ↔ w ∈ ws := by
  rw [sortedOnce, mem_eraseReps, List.mem_mergeSort]

theorem sortedOnce_lt (ws : List (List Char)) : (sortedOnce ws).Pairwise (· < ·) := by
  refine sortedLT_eraseReps ?_
  have htrans : ∀ a b c : List Char, (!(b < a : Bool)) = true → (!(c < b : Bool)) = true →
      (!(c < a : Bool)) = true := by
    intro a b c hab hbc
    simp only [Bool.not_eq_true', decide_eq_false_iff_not, not_lt] at hab hbc ⊢
    exact le_trans hab hbc
  have htotal : ∀ a b : List Char, ((!(b < a : Bool)) || (!(a < b : Bool))) = true := by
    intro a b
    rcases le_total a b with h | h
    · simp [not_lt.2 h]
    · simp [not_lt.2 h]
  refine (List.pairwise_mergeSort htrans htotal ws).imp fun {a b} hab => ?_
  simpa using hab

/-- The list is determined by its members. -/
theorem eq_sortedOnce {ws vs : List (List Char)} (hvs : vs.Pairwise (· < ·))
    (h : ∀ w, w ∈ vs ↔ w ∈ ws) : vs = sortedOnce ws :=
  hvs.eq_of_mem_iff (sortedOnce_lt ws) fun w => (h w).trans mem_sortedOnce.symm

/-! ## Words -/

/-- What stands between the spaces of a text. -/
def words (text : List Char) : List (List Char) := (text.splitOn ' ').filter (· ≠ [])

section Words

variable {l m w : List Char}

theorem words_append (l m : List Char) : words (l ++ ' ' :: m) = words l ++ words m := by
  rw [words, List.splitOn_append_cons_self, List.filter_append]
  rfl

theorem words_space : words (' ' :: l) = words l := words_append [] l

theorem words_spaces (n : Nat) : words (List.replicate n ' ' ++ l) = words l := by
  induction n with
  | zero => rfl
  | succ n ih => rw [List.replicate_succ, List.cons_append, words_space, ih]

theorem words_word (hne : w ≠ []) (hw : ' ' ∉ w) : words w = [w] := by
  rw [words, List.splitOn_eq_singleton hw, List.filter_cons_of_pos (by simpa using hne)]
  rfl

theorem words_intercalate {ws : List (List Char)} (h : ∀ w ∈ ws, w ≠ [] ∧ ' ' ∉ w) :
    words ([' '].intercalate ws) = ws := by
  by_cases hnil : ws = []
  · rw [hnil]
    rfl
  · rw [words, List.splitOn_intercalate ' ' (fun w hw => (h w hw).2) hnil]
    exact List.filter_eq_self.2 fun w hw => by simpa using (h w hw).1

theorem mem_words (h : w ∈ words l) : w ≠ [] ∧ ' ' ∉ w ∧ ∀ x ∈ w, x ∈ l := by
  obtain ⟨hmem, hne⟩ := List.mem_filter.1 h
  refine ⟨by simpa using hne, ?_⟩
  clear h hne
  induction l generalizing w with
  | nil =>
      obtain rfl := List.mem_singleton.1 hmem
      exact ⟨List.not_mem_nil, fun x hx => hx⟩
  | cons c l ih =>
      rw [List.splitOn_cons_eq_if_modifyHead] at hmem
      by_cases hc : (c == ' ') = true
      · rw [if_pos hc] at hmem
        rcases List.mem_cons.1 hmem with rfl | hmem
        · exact ⟨List.not_mem_nil, (by intro x hx; cases hx)⟩
        · obtain ⟨hspace, hin⟩ := ih hmem
          exact ⟨hspace, fun x hx => List.mem_cons_of_mem _ (hin x hx)⟩
      · rw [if_neg hc] at hmem
        cases hsplit : l.splitOn ' ' with
        | nil => exact absurd hsplit (List.splitOn_ne_nil _ _)
        | cons v vs =>
            rw [hsplit, List.modifyHead_cons] at hmem
            rcases List.mem_cons.1 hmem with rfl | hmem
            · obtain ⟨hspace, hin⟩ := @ih v (by rw [hsplit]; exact List.mem_cons_self)
              refine ⟨fun hx => ?_, fun x hx => ?_⟩
              · rcases List.mem_cons.1 hx with hx | hx
                · exact hc (by rw [← hx]; rfl)
                · exact hspace hx
              · rcases List.mem_cons.1 hx with rfl | hx
                · exact List.mem_cons_self
                · exact List.mem_cons_of_mem _ (hin x hx)
            · obtain ⟨hspace, hin⟩ := @ih w (by rw [hsplit]; exact List.mem_cons_of_mem _ hmem)
              exact ⟨hspace, fun x hx => List.mem_cons_of_mem _ (hin x hx)⟩

/-- The string that `DohSplit` begins at the end of the input. -/
def lastItem (l : List Char) : List (List Char) :=
  if l.getLast? = some ' ' then [[]] else []

theorem lastItem_cons (c : Char) (hl : l ≠ []) : lastItem (c :: l) = lastItem l := by
  rw [lastItem, lastItem, List.getLast?_cons_of_ne_nil hl]

theorem lastItem_append (hm : m ≠ []) : lastItem (l ++ m) = lastItem m := by
  rw [lastItem, lastItem, List.getLast?_append_of_ne_nil l hm]

theorem dohSplitLoop_words {str : Option (List Char)} {l : List Char}
    (hstr : ∀ w, str = some w → w ≠ [] ∧ ' ' ∉ w) (hne : str.getD [] ++ l ≠ []) :
    dohSplitLoop ' ' str l = words (str.getD [] ++ l) ++ lastItem (str.getD [] ++ l) := by
  induction l generalizing str with
  | nil =>
      cases str with
      | none => exact absurd rfl hne
      | some w =>
          obtain ⟨hw, hspace⟩ := hstr w rfl
          have hlast : w.getLast? ≠ some ' ' := fun h => hspace (List.mem_of_getLast? h)
          rw [dohSplitLoop, Option.getD_some, List.append_nil, words_word hw hspace, lastItem,
            if_neg hlast]
          rfl
  | cons c l ih =>
      cases str with
      | none =>
          rw [dohSplitLoop, Option.getD_none, List.nil_append]
          by_cases hc : c = ' '
          · rw [if_pos hc, hc, words_space]
            by_cases hl : l = []
            · rw [hl]
              rfl
            · rw [lastItem_cons _ hl]
              exact ih (by intro w h; cases h) hl
          · rw [if_neg hc]
            exact @ih (some [c]) (fun w hw => by
              obtain rfl := Option.some.inj hw
              exact ⟨List.cons_ne_nil _ _, by simpa using Ne.symm hc⟩) (List.cons_ne_nil _ _)
      | some w =>
          obtain ⟨hw, hspace⟩ := hstr w rfl
          rw [dohSplitLoop, Option.getD_some, lastItem_append (List.cons_ne_nil c l)]
          by_cases hc : c = ' '
          · rw [if_pos hc, hc, words_append, words_word hw hspace]
            by_cases hl : l = []
            · rw [hl]
              rfl
            · rw [lastItem_cons _ hl]
              exact congrArg (w :: ·) (ih (by intro w h; cases h) hl)
          · have hstep : w ++ c :: l = (w ++ [c]) ++ l := by
              rw [List.append_assoc]
              rfl
            rw [if_neg hc, ← lastItem_append (List.cons_ne_nil c l), hstep]
            refine @ih (some (w ++ [c])) (fun v hv => ?_)
              (List.append_ne_nil_of_left_ne_nil (List.append_ne_nil_of_left_ne_nil hw _) _)
            obtain rfl := Option.some.inj hv
            refine ⟨List.append_ne_nil_of_left_ne_nil hw _, fun hin => ?_⟩
            rcases List.mem_append.1 hin with hin | hin
            · exact hspace hin
            · exact hc (List.mem_singleton.1 hin).symm

/-- A text that does not end in a space is split into its words. -/
theorem dohSplit_words (hne : l ≠ []) (hlast : l.getLast? ≠ some ' ') :
    dohSplit ' ' l = words l := by
  have h := @dohSplitLoop_words none l (by intro w h; cases h) hne
  rw [Option.getD_none, List.nil_append, lastItem, if_neg hlast, List.append_nil] at h
  exact h

end Words

/-! ## Qualified types -/

/-- Qualifiers as they are added: one word at least, and spaces between words only. -/
structure QualifierList where
  text : List Char
  nonempty : text ≠ []
  head : text.head? ≠ some ' '
  last : text.getLast? ≠ some ' '
  plain : ∀ x ∈ text, x ≠ '(' ∧ x ≠ ')'

/-- A type: the text of its qualifier element, if it has one, and the rest. -/
structure QualifiedType where
  qualifiers : Option { l : List Char // ∀ x ∈ l, x ≠ '(' ∧ x ≠ ')' }
  rest : List Char
  unqualified : ['q', '('].isPrefixOf rest = false

/-- A qualifier element in front of a type. -/
def qualifiedText (qualifiers rest : List Char) : List Char :=
  ['q', '('] ++ qualifiers ++ [')', '.'] ++ rest

namespace QualifiedType

def text (t : QualifiedType) : List Char :=
  match t.qualifiers with
  | none => t.rest
  | some inside => qualifiedText inside.1 t.rest

def qualifierWords (t : QualifiedType) : List (List Char) :=
  (t.qualifiers.map fun inside => words inside.1).getD []

end QualifiedType

theorem balanced_plain {l : List Char} (h : ∀ x ∈ l, x ≠ '(' ∧ x ≠ ')') : Balanced '(' ')' l :=
  nesting_of_not_mem (fun ho => (h _ ho).1 rfl) (fun hc => (h _ hc).2 rfl)

theorem delElement_qualified {l : List Char} (rest : List Char)
    (h : ∀ x ∈ l, x ≠ '(' ∧ x ≠ ')') :
    delElement ((qualifiedText l rest).length + 1) (qualifiedText l rest) = rest := by
  have hends : DelEnds (['q'] ++ '(' :: (l ++ ')' :: '.' :: rest)) rest :=
    DelEnds.plain (by simp [isPlain]) (DelEnds.parens (balanced_plain h) (DelEnds.dot rest))
  have hwhole : qualifiedText l rest = ['q'] ++ '(' :: (l ++ ')' :: '.' :: rest) := by
    simp [qualifiedText]
  rw [hwhole]
  exact hends _ (Nat.lt_succ_self _)

theorem sortedOnce_single (w : List Char) : sortedOnce [w] = [w] := by
  rw [sortedOnce, List.mergeSort_singleton]
  rfl

/-- One call: the words of the type and of the list, sorted, each once. -/
theorem swigTypeAddQualifier_text (t : QualifiedType) (q : QualifierList) :
    swigTypeAddQualifier t.text q.text =
      qualifiedText ([' '].intercalate (sortedOnce (t.qualifierWords ++ words q.text)))
        t.rest := by
  obtain ⟨qualifiers, rest, hrest⟩ := t
  cases qualifiers with
  | none =>
      rw [QualifiedType.text, QualifiedType.qualifierWords, swigTypeAddQualifier]
      dsimp only
      rw [hrest]
      by_cases hspace : ' ' ∈ q.text
      · have hcontains : q.text.contains ' ' = true := by simpa using hspace
        rw [hcontains, if_neg (by decide), if_neg Bool.false_ne_true, if_neg Bool.false_ne_true,
          dohSplit_words q.nonempty q.last]
        rfl
      · have hcontains : q.text.contains ' ' = false := by simpa using hspace
        rw [hcontains, words_word q.nonempty hspace, if_pos (by decide)]
        rw [Option.map_none, Option.getD_none, List.nil_append, sortedOnce_single,
          List.intercalate_singleton]
        rfl
  | some inside =>
      have hsplit : dohSplit ' ' (inside.1 ++ ' ' :: q.text) =
          words inside.1 ++ words q.text := by
        rw [dohSplit_words (List.append_ne_nil_of_right_ne_nil _ (List.cons_ne_nil _ _)),
          words_append]
        rw [List.getLast?_append_of_ne_nil _ (List.cons_ne_nil _ _),
          List.getLast?_cons_of_ne_nil q.nonempty]
        exact q.last
      have hparm : parmText 0 ((qualifiedText inside.1 rest).drop 2) = inside.1 := by
        have hdrop : (qualifiedText inside.1 rest).drop 2 = inside.1 ++ ')' :: '.' :: rest := by
          simp [qualifiedText]
        rw [hdrop, parmText_balanced (balanced_plain inside.2)]
      have hqualified : ['q', '('].isPrefixOf (qualifiedText inside.1 rest) = true := rfl
      rw [QualifiedType.text, QualifiedType.qualifierWords, swigTypeAddQualifier]
      dsimp only
      rw [hqualified, if_neg (by simp), if_pos rfl, if_pos rfl, hparm, hsplit,
        delElement_qualified rest inside.2]
      rfl

theorem intercalate_plain {ws : List (List Char)}
    (h : ∀ w ∈ ws, ∀ x ∈ w, x ≠ '(' ∧ x ≠ ')') :
    ∀ x ∈ [' '].intercalate ws, x ≠ '(' ∧ x ≠ ')' := by
  induction ws with
  | nil => exact nofun
  | cons w ws ih =>
      have htail := ih fun v hv => h v (List.mem_cons_of_mem _ hv)
      intro x hx
      by_cases hnil : ws = []
      · rw [hnil, List.intercalate_singleton] at hx
        exact h w List.mem_cons_self x hx
      · rw [List.intercalate_cons_of_ne_nil hnil, List.mem_append, List.mem_append,
          List.mem_singleton] at hx
        rcases hx with (hx | rfl) | hx
        · exact h w List.mem_cons_self x hx
        · exact ⟨by decide, by decide⟩
        · exact htail x hx

namespace QualifiedType

variable (t : QualifiedType) (q r : QualifierList)

theorem word_plain {w : List Char} (hw : w ∈ t.qualifierWords ++ words q.text) :
    w ≠ [] ∧ ' ' ∉ w ∧ ∀ x ∈ w, x ≠ '(' ∧ x ≠ ')' := by
  rcases List.mem_append.1 hw with hw | hw
  · rw [qualifierWords] at hw
    cases hq : t.qualifiers with
    | none =>
        rw [hq] at hw
        cases hw
    | some inside =>
        rw [hq] at hw
        obtain ⟨hne, hspace, hin⟩ := mem_words hw
        exact ⟨hne, hspace, fun x hx => inside.2 x (hin x hx)⟩
  · obtain ⟨hne, hspace, hin⟩ := mem_words hw
    exact ⟨hne, hspace, fun x hx => q.plain x (hin x hx)⟩

/-- The type after a call. -/
def add : QualifiedType where
  qualifiers := some ⟨[' '].intercalate (sortedOnce (t.qualifierWords ++ words q.text)),
    intercalate_plain fun _ hw => (t.word_plain q (mem_sortedOnce.1 hw)).2.2⟩
  rest := t.rest
  unqualified := t.unqualified

theorem add_text : swigTypeAddQualifier t.text q.text = (t.add q).text :=
  swigTypeAddQualifier_text t q

theorem add_words : (t.add q).qualifierWords = sortedOnce (t.qualifierWords ++ words q.text) :=
  words_intercalate fun w hw => by
    have hplain := t.word_plain q (mem_sortedOnce.1 hw)
    exact ⟨hplain.1, hplain.2.1⟩

theorem add_add_text :
    swigTypeAddQualifier (swigTypeAddQualifier t.text q.text) r.text =
      qualifiedText ([' '].intercalate
        (sortedOnce (t.qualifierWords ++ words q.text ++ words r.text))) t.rest := by
  have hsame : sortedOnce ((t.add q).qualifierWords ++ words r.text) =
      sortedOnce (t.qualifierWords ++ words q.text ++ words r.text) := by
    refine eq_sortedOnce (sortedOnce_lt _) fun w => ?_
    rw [mem_sortedOnce, t.add_words q, List.mem_append, mem_sortedOnce, ← List.mem_append]
  rw [t.add_text q, swigTypeAddQualifier_text, hsame]
  rfl

end QualifiedType

/-- Two lists as one. -/
def QualifierList.join (q r : QualifierList) (n : Nat) : QualifierList where
  text := q.text ++ (List.replicate (n + 1) ' ' ++ r.text)
  nonempty := List.append_ne_nil_of_left_ne_nil q.nonempty _
  head := by
    rw [List.head?_append_of_ne_nil _ q.nonempty]
    exact q.head
  last := by
    rw [← List.append_assoc, List.getLast?_append_of_ne_nil _ r.nonempty]
    exact r.last
  plain := by
    intro x hx
    rcases List.mem_append.1 hx with hx | hx
    · exact q.plain x hx
    · rcases List.mem_append.1 hx with hx | hx
      · rw [List.eq_of_mem_replicate hx]
        exact ⟨by decide, by decide⟩
      · exact r.plain x hx

theorem QualifierList.join_words (q r : QualifierList) (n : Nat) :
    words (q.join r n).text = words q.text ++ words r.text := by
  show words (q.text ++ ' ' :: (List.replicate n ' ' ++ r.text)) = _
  rw [words_append, words_spaces]

/-- `v  c`, with two spaces. -/
def twoQualifiers : QualifierList :=
  ⟨['v', ' ', ' ', 'c'], by decide, by decide, by decide, by simp⟩

/-- `q(c).T` -/
def qualifiedName : QualifiedType := ⟨some ⟨['c'], by simp⟩, ['T'], by decide⟩

example : swigTypeAddQualifier qualifiedName.text twoQualifiers.text =
    qualifiedText ['c', ' ', 'v'] ['T'] := by
  have hsorted : [['c'], ['v']] =
      sortedOnce (qualifiedName.qualifierWords ++ words twoQualifiers.text) :=
    eq_sortedOnce (by decide) fun w => by
      rw [show qualifiedName.qualifierWords ++ words twoQualifiers.text = [['c'], ['v'], ['c']]
        from by decide]
      simp [or_comm]
  rw [swigTypeAddQualifier_text, ← hsorted]
  rfl

end Swig4Ada.Swig

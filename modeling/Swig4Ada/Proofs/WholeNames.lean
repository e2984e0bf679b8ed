import Swig4Ada.Proofs.TypenameReplace

/-!
# The occurrences that are not replaced

What the code writes is what replacing every whole name gives when the name is nowhere but in
the places where the code looks for it. A replacement without arguments that is another name
shows at each other place: a text that is written is read again as the tree that it is of.
-/

namespace Swig4Ada.Swig

open Lib Doh Ada

/-! ## Names where they are looked for -/

section Covered

variable {v : Writing}

theorem Writing.inClass_pat : v.inClass.pat = v.pat := by
  unfold Writing.inClass
  split
  · rfl
  · rfl

theorem Writing.inClass_rep : v.inClass.rep = v.rep := by
  unfold Writing.inClass
  split
  · rfl
  · rfl

theorem Writing.path_covered {leading : Bool} {first : ScopePart} {more : List ScopePart}
    (h : v.paths = false → ¬ v.IsName leading first) :
    v.path leading first more = (wholeNames v.pat v.rep).path leading first more := by
  by_cases hname : v.IsName leading first
  · have hpaths : v.paths = true := by
      cases hp : v.paths with
      | true => rfl
      | false => exact absurd hname (h hp)
    rw [path, path, if_pos ⟨hpaths, hname⟩, if_pos ⟨rfl, hname⟩]
    rfl
  · rw [path, path, if_neg fun hp => hname hp.2, if_neg fun hp => hname hp.2]

theorem Writing.templateName_covered {leading : Bool} {first : ScopePart} {more : List ScopePart}
    (h : v.templateNames = false → ¬ v.IsName leading first) :
    v.templateName leading first more =
      (wholeNames v.pat v.rep).templateName leading first more := by
  by_cases hname : v.IsName leading first
  · have hnames : v.templateNames = true := by
      cases hp : v.templateNames with
      | true => rfl
      | false => exact absurd hname (h hp)
    have hwhole : (wholeNames v.pat v.rep).templateNames = true ∧
        (wholeNames v.pat v.rep).IsName leading first := ⟨rfl, hname⟩
    exact (if_pos ⟨hnames, hname⟩).trans (if_pos hwhole).symm
  · rw [templateName, templateName, if_neg fun hp => hname hp.2, if_neg fun hp => hname hp.2]

theorem Writing.words_covered {replaced inLiterals : Bool} {text : List Char}
    (h : replaced = false → (v.pat, false) ∉ literalWords text)
    (hliterals : replaced = true → inLiterals = true → (v.pat, true) ∉ literalWords text) :
    v.words replaced inLiterals text = (wholeNames v.pat v.rep).words true false text := by
  refine List.flatMap_congr fun x hx => ?_
  obtain ⟨word, literal⟩ := x
  by_cases hword : word = v.pat
  · rw [hword] at hx ⊢
    refine if_congr (and_congr_left fun _ => ?_) rfl rfl
    cases literal with
    | false =>
        have hreplaced : replaced = true := by
          by_contra hno
          exact h (Bool.eq_false_of_not_eq_true hno) hx
        have hno : ∀ {p : Prop}, false = true → p := fun h => absurd h Bool.false_ne_true
        exact iff_of_true ⟨hreplaced, hno⟩ ⟨rfl, hno⟩
    | true =>
        refine iff_of_false (fun hboth => ?_) fun hboth => Bool.false_ne_true (hboth.2 rfl)
        exact hliterals hboth.1 (hboth.2 rfl) hx
  · rw [if_neg fun hboth => hword hboth.2, if_neg fun hboth => hword hboth.2]

theorem Writing.letter_covered (h : v.letters = true → v.pat ≠ ['a']) : v.letter = ['a'] :=
  if_neg fun ha => h ha.1 ha.2

mutual
theorem TypeTree.write_covered : ∀ (t : TypeTree) {v : Writing}, t.Covered v →
    t.write v = t.write (.wholeNames v.pat v.rep)
  | .nil, _, _ => rfl
  | .varargs, _, _ => rfl
  | .expr _, _, h => Writing.words_covered h fun _ hno => absurd hno Bool.false_ne_true
  | .other _, _, h => Writing.words_covered h fun _ hno => absurd hno Bool.false_ne_true
  | .base leading name, _, h => name.write_covered leading h
  | .fixed e t, _, h => congrArg (e.text ++ '.' :: ·) (t.write_covered h)
  | .array dim t, v, h => by
      show v.letter ++ '(' :: (v.words v.dims v.literals dim.text ++ ')' :: '.' :: t.write v) =
        ['a'] ++ '(' ::
          ((Writing.wholeNames v.pat v.rep).words true false dim.text ++ ')' :: '.' :: _)
      rw [Writing.letter_covered h.1, Writing.words_covered h.2.1 h.2.2.1,
        t.write_covered h.2.2.2]
  | .member leading name t, v, h => by
      have hname := name.write_covered leading h.1
      rw [Writing.inClass_pat, Writing.inClass_rep] at hname
      show 'm' :: '(' :: (name.write v.inClass leading ++ ')' :: '.' :: t.write v) =
        'm' :: '(' :: (name.write (.wholeNames v.pat v.rep) leading ++ ')' :: '.' :: _)
      rw [hname, t.write_covered h.2]
  | .function parms t, v, h => by
      show 'f' :: '(' :: (parms.write v ++ ')' :: '.' :: t.write v) = 'f' :: '(' :: (_ ++ _)
      rw [parms.write_covered h.1, t.write_covered h.2]

theorem NameTree.write_covered (leading : Bool) : ∀ (n : NameTree) {v : Writing},
    n.Covered v leading → n.write v leading = n.write (.wholeNames v.pat v.rep) leading
  | .path _ _, _, h => Writing.path_covered h
  | .template first more args, v, h => by
      show v.templateName leading first more ++ '<' :: '(' :: (args.write v ++ _) =
        _ ++ '<' :: '(' :: (_ ++ _)
      rw [Writing.templateName_covered h.1, args.write_covered h.2]
  | .nested first more args suffix, v, h => by
      show v.templateName leading first more ++
          '<' :: '(' :: (args.write v ++ ')' :: '>' :: suffix.write v true) =
        _ ++ '<' :: '(' :: (_ ++ ')' :: '>' :: _)
      rw [Writing.templateName_covered h.1, args.write_covered h.2.1,
        suffix.write_covered true h.2.2]

theorem TypeTrees.write_covered : ∀ (ts : TypeTrees) {v : Writing}, ts.Covered v →
    ts.write v = ts.write (.wholeNames v.pat v.rep)
  | .nil, _, _ => rfl
  | .cons t .nil, _, h => t.write_covered h.1
  | .cons t (.cons u us), v, h => by
      show t.write v ++ ',' :: (TypeTrees.cons u us).write v = _ ++ ',' :: _
      rw [t.write_covered h.1, TypeTrees.write_covered (.cons u us) h.2]
end

end Covered

/-! ## Replacing words between parentheses -/

section Words

variable {w : Writing}

/-- A character that types are taken apart at. -/
def isMark (c : Char) : Bool := c ∈ ['.', ',', '(', ')']

theorem NameText.filter_isMark {l : List Char} (h : NameText l) : l.filter isMark = [] := by
  refine List.filter_eq_nil_iff.2 fun c hc hmark => h c hc ?_
  have hmem : c ∈ ['.', ',', '(', ')'] := of_decide_eq_true hmark
  exact List.mem_append_left ['<', '>'] hmem

theorem word_nameText {word : List Char} (hword : AllWord isIdentifierChar word) :
    NameText word := by
  intro c hc hmem
  have hall : ['.', ',', '(', ')', '<', '>'].all (!isIdentifierChar ·) = true := by decide
  have hno := List.all_eq_true.1 hall c hmem
  rw [hword c hc] at hno
  cases hno

/-- A name is replaced by one, so that the marks stay. -/
theorem Writing.words_filter (hpat : IsWord w.pat) (hrep : NameText w.rep)
    (replaced inLiterals : Bool) (text : List Char) :
    (w.words replaced inLiterals text).filter isMark = text.filter isMark := by
  have hplain := congrArg (List.filter isMark) (w.words_plain inLiterals text)
  rw [← hplain, words, words, List.filter_flatMap, List.filter_flatMap]
  refine List.flatMap_congr fun x _ => ?_
  rw [if_neg fun h : (false = true ∧ _) ∧ _ => Bool.false_ne_true h.1.1]
  split
  · next h => rw [h.2, hrep.filter_isMark, (word_nameText hpat.chars).filter_isMark]
  · rfl

theorem Writing.words_unbroken (hpat : IsWord w.pat) (hrep : NameText w.rep) {sep : Char}
    (hsep : sep ∈ ['.', ',']) {text : List Char} (h : Unbroken sep '(' ')' text)
    (replaced inLiterals : Bool) : Unbroken sep '(' ')' (w.words replaced inLiterals text) := by
  have hmark : isMark sep = true ∧ sep ≠ '(' := by
    rcases List.mem_pair.1 hsep with rfl | rfl
    · exact ⟨rfl, by decide⟩
    · exact ⟨rfl, by decide⟩
  rw [← unbroken_filter (by decide) hmark.2 hmark.1 rfl rfl, words_filter hpat hrep,
    unbroken_filter (by decide) hmark.2 hmark.1 rfl rfl]
  exact h

theorem Writing.words_balanced (hpat : IsWord w.pat) (hrep : NameText w.rep) {text : List Char}
    (h : Lib.Balanced '(' ')' text) (replaced inLiterals : Bool) :
    Lib.Balanced '(' ')' (w.words replaced inLiterals text) := by
  have hmark : isMark '(' = true ∧ isMark ')' = true := ⟨rfl, rfl⟩
  rw [Lib.Balanced, ← nesting_filter hmark.1 hmark.2, words_filter hpat hrep,
    nesting_filter hmark.1 hmark.2]
  exact h

end Words

/-! ## Writings are sound -/

section Sound

variable {w : Writing}

theorem templateprefix_nameText {l : List Char} (h : NameText l) :
    swigTypeTemplateprefix l = l := by
  unfold swigTypeTemplateprefix
  rw [strstr_none_of_not_mem List.mem_cons_self (h.not_mem (by simp))]

theorem Writing.path_sound (hrep : PlainName w.rep) (leading : Bool) (first : ScopePart)
    (more : List ScopePart) :
    w.path leading first more ≠ [] ∧ NameText (w.path leading first more) := by
  unfold Writing.path
  split
  · exact ⟨List.append_ne_nil_of_left_ne_nil hrep.1 _, hrep.2.append (moreText_nameText more)⟩
  · exact ⟨pathText_ne_nil _ _ _, pathText_nameText _ _ _⟩

theorem Writing.templateName_sound (hrep : PlainName w.rep) (leading : Bool) (first : ScopePart)
    (more : List ScopePart) : NameText (w.templateName leading first more) := by
  unfold Writing.templateName
  rw [templateprefix_nameText hrep.2, ite_self]
  split
  · exact hrep.2.append (moreText_nameText more)
  · exact pathText_nameText _ _ _

theorem Writing.words_ne_nil (hrep : w.rep ≠ []) {text : List Char} (h : text ≠ [])
    (replaced inLiterals : Bool) : w.words replaced inLiterals text ≠ [] := by
  intro hnil
  have hnone : literalWords text = [] := by
    refine List.eq_nil_iff_forall_not_mem.2 fun x hx => ?_
    have hword : x.1 ∈ Lib.words isIdentifierChar text := by
      rw [← literalWords_map]
      exact List.mem_map_of_mem hx
    have hblock := List.flatMap_eq_nil_iff.1 hnil x hx
    split at hblock
    · exact hrep hblock
    · exact (words_head text).2 _ hword hblock
  refine h ?_
  rw [← @words_flatten _ isIdentifierChar text, ← literalWords_map, hnone]
  rfl

theorem Writing.sound (hpat : IsWord w.pat) (hrep : PlainName w.rep) : w.Sound where
  path := w.path_sound hrep
  templateName := w.templateName_sound hrep
  expr e := ⟨w.words_ne_nil hrep.1 e.text_ne_nil _ _,
    fun sep hsep => w.words_unbroken hpat hrep.2 hsep (e.unbroken_sep sep hsep) _ _⟩
  other e := ⟨w.words_ne_nil hrep.1 e.text_ne_nil _ _,
    w.words_unbroken hpat hrep.2 (by simp) e.unbroken _ _⟩
  dim d := w.words_balanced hpat hrep.2 d.balanced _ _
  letter := by
    unfold Writing.letter
    split
    · exact hrep.2
    · exact letter_nameText (by simp [NameChar])

end Sound

/-! ## Names where they are not looked for -/

section Shown

variable {v : Writing}

theorem pathText_first (first : ScopePart) (more : List ScopePart) :
    pathText false first more = first.text ++ moreText more := rfl

/-- A name that is replaced by one writing and not by the other. -/
theorem Writing.path_shown (hne : v.rep ≠ v.pat) {leading : Bool} {first : ScopePart}
    {more : List ScopePart}
    (h : v.path leading first more = (wholeNames v.pat v.rep).path leading first more) :
    v.paths = false → ¬ v.IsName leading first := by
  rintro hpaths ⟨rfl, hfirst⟩
  have hwhole : (wholeNames v.pat v.rep).path false first more = v.rep ++ moreText more :=
    if_pos ⟨rfl, rfl, hfirst⟩
  rw [hwhole, path, if_neg fun hp => Bool.false_ne_true (hpaths.symm.trans hp.1),
    pathText_first, hfirst] at h
  exact hne (List.append_cancel_right h).symm

theorem Writing.templateName_shown (hrep : NameText v.rep) (hne : v.rep ≠ v.pat) {leading : Bool}
    {first : ScopePart} {more : List ScopePart}
    (h : v.templateName leading first more =
      (wholeNames v.pat v.rep).templateName leading first more) :
    v.templateNames = false → ¬ v.IsName leading first := by
  rintro hnames ⟨rfl, hfirst⟩
  have hwhole : (wholeNames v.pat v.rep).templateName false first more = v.rep ++ moreText more := by
    refine (if_pos ⟨rfl, rfl, hfirst⟩).trans ?_
    show (if more = [] then swigTypeTemplateprefix v.rep else v.rep) ++ _ = _
    rw [templateprefix_nameText hrep, ite_self]
  rw [hwhole, templateName, if_neg fun hp => Bool.false_ne_true (hnames.symm.trans hp.1),
    pathText_first, hfirst] at h
  exact hne (List.append_cancel_right h).symm

/-- Where a name is replaced by another in more of some places the text shows it. -/
theorem replaced_shown {pat rep : List Char} {l : List (List Char × Bool)}
    {P Q : List Char × Bool → Prop} [DecidablePred P] [DecidablePred Q] (hne : rep ≠ pat)
    (hPQ : ∀ x, P x → Q x)
    (h : (l.flatMap fun x => if P x ∧ x.1 = pat then rep else x.1) =
      l.flatMap fun x => if Q x ∧ x.1 = pat then rep else x.1) :
    ∀ x ∈ l, x.1 = pat → Q x → P x := by
  have hcases : ∀ x : List Char × Bool,
      (if P x ∧ x.1 = pat then rep else x.1) = (if Q x ∧ x.1 = pat then rep else x.1) ∨
        (¬ P x ∧ Q x ∧ x.1 = pat) := by
    intro x
    by_cases hx : x.1 = pat
    · by_cases hP : P x
      · exact Or.inl ((if_pos ⟨hP, hx⟩).trans (if_pos ⟨hPQ x hP, hx⟩).symm)
      · by_cases hQ : Q x
        · exact Or.inr ⟨hP, hQ, hx⟩
        · exact Or.inl ((if_neg fun h => hP h.1).trans (if_neg fun h => hQ h.1).symm)
    · exact Or.inl ((if_neg fun h => hx h.2).trans (if_neg fun h => hx h.2).symm)
  have hblocks : ∀ x ∈ l,
      (if P x ∧ x.1 = pat then rep else x.1) = if Q x ∧ x.1 = pat then rep else x.1 := by
    rcases Nat.le_total pat.length rep.length with hle | hle
    · refine flatMap_inj (fun x _ => ?_) h
      rcases hcases x with heq | ⟨hP, hQ, hx⟩
      · rw [heq]
      · rw [if_neg fun h => hP h.1, if_pos ⟨hQ, hx⟩, hx]
        exact hle
    · refine fun x hx => (flatMap_inj (fun x _ => ?_) h.symm x hx).symm
      rcases hcases x with heq | ⟨hP, hQ, hx⟩
      · rw [heq]
      · rw [if_pos ⟨hQ, hx⟩, if_neg fun h => hP h.1, hx]
        exact hle
  intro x hmem hx hQ
  by_contra hP
  have hblock := hblocks x hmem
  rw [if_neg fun h => hP h.1, if_pos ⟨hQ, hx⟩, hx] at hblock
  exact hne hblock.symm

theorem Writing.words_shown (hne : v.rep ≠ v.pat) {replaced inLiterals : Bool} {text : List Char}
    (h : v.words replaced inLiterals text = (wholeNames v.pat v.rep).words true false text) :
    (replaced = false → (v.pat, false) ∉ literalWords text) ∧
      (replaced = true → inLiterals = true → (v.pat, true) ∉ literalWords text) := by
  constructor
  · rintro rfl hmem
    have hshown := replaced_shown hne (fun _ hP => absurd hP.1 Bool.false_ne_true) h _ hmem rfl
      ⟨rfl, fun hno => absurd hno Bool.false_ne_true⟩
    exact Bool.false_ne_true hshown.1
  · rintro rfl rfl hmem
    have hshown := replaced_shown hne (fun _ hP => ⟨rfl, fun _ => rfl⟩) h.symm _ hmem rfl
      ⟨rfl, fun _ => rfl⟩
    exact Bool.false_ne_true (hshown.2 rfl)

theorem nameText_cut {c : Char} (hc : c ∈ ['.', ',', '(', ')', '<', '>']) {l m rest tail : List Char}
    (hl : NameText l) (hm : NameText m) (h : l ++ c :: rest = m ++ c :: tail) :
    l = m ∧ rest = tail := by
  induction l generalizing m with
  | nil =>
      cases m with
      | nil => exact ⟨rfl, (List.cons.inj h).2⟩
      | cons y m => exact absurd ((List.cons.inj h).1 ▸ hc) (hm y List.mem_cons_self)
  | cons x l ih =>
      cases m with
      | nil => exact absurd ((List.cons.inj h).1.symm ▸ hc) (hl x List.mem_cons_self)
      | cons y m =>
          obtain ⟨rfl, hrest⟩ := List.cons.inj h
          obtain ⟨rfl, htail⟩ := ih (fun c hc => hl c (List.mem_cons_of_mem _ hc))
            (fun c hc => hm c (List.mem_cons_of_mem _ hc)) hrest
          exact ⟨rfl, htail⟩

theorem TypeTree.elements_of_write {w : Writing} (hv : v.Sound) (hw : w.Sound) {t : TypeTree}
    (hwf : t.Wf) (h : t.write v = t.write w) : t.elements v = t.elements w := by
  by_cases hother : t.IsOther
  · cases t with
    | other e => exact congrArg ([·]) h
    | nil | varargs | expr | base | fixed | array | member | function => exact absurd hother id
  · rw [← t.split_write hv hwf hother (le_refl _), ← t.split_write hw hwf hother (le_refl _), h]

theorem TypeTrees.texts_of_write {w : Writing} (hv : v.Sound) (hw : w.Sound) {ts : TypeTrees}
    (hwf : ts.Wf) (h : ts.write v = ts.write w) : ts.texts v = ts.texts w := by
  rw [← parmlistLoop_joined (ts.isParameter hv hwf) [], ts.intercalate_texts, h,
    ← ts.intercalate_texts w, parmlistLoop_joined (ts.isParameter hw hwf)]

/-- The name becomes another one without arguments. -/
structure Writing.Renames (w : Writing) : Prop where
  pat : IsWord w.pat
  rep : PlainName w.rep
  ne : w.rep ≠ w.pat

theorem Writing.Renames.sound (h : v.Renames) : v.Sound := Writing.sound h.pat h.rep

theorem Writing.Renames.whole (h : v.Renames) : (wholeNames v.pat v.rep).Renames :=
  ⟨h.pat, h.rep, h.ne⟩

theorem Writing.Renames.inClass (h : v.Renames) : v.inClass.Renames :=
  ⟨v.inClass_pat ▸ h.pat, v.inClass_rep ▸ h.rep, by
    rw [v.inClass_rep, v.inClass_pat]
    exact h.ne⟩

mutual
theorem TypeTree.elements_shown : ∀ (t : TypeTree) {v : Writing}, v.Renames → t.Wf →
    t.elements v = t.elements (.wholeNames v.pat v.rep) → t.Covered v
  | .nil, _, _, _, _ => trivial
  | .varargs, _, _, _, _ => trivial
  | .expr e, v, hv, _, h => (Writing.words_shown hv.ne (List.cons.inj h).1).1
  | .other e, v, hv, _, h => (Writing.words_shown hv.ne (List.cons.inj h).1).1
  | .base leading name, v, hv, hwf, h => name.write_shown leading hv hwf (List.cons.inj h).1
  | .fixed e t, v, hv, hwf, h => t.elements_shown hv hwf.2 (List.cons.inj h).2
  | .array dim t, v, hv, hwf, h => by
      obtain ⟨helement, hrest⟩ := List.cons.inj h
      obtain ⟨hletter, hdim⟩ := nameText_cut (by simp) hv.sound.letter hv.whole.sound.letter helement
      have hwords := Writing.words_shown hv.ne (List.append_cancel_right hdim)
      refine ⟨fun hletters ha => ?_, hwords.1, hwords.2, t.elements_shown hv hwf.2 hrest⟩
      rw [Writing.letter, if_pos ⟨hletters, ha⟩] at hletter
      exact hv.ne (hletter.trans ha.symm)
  | .member leading name t, v, hv, hwf, h => by
      obtain ⟨helement, hrest⟩ := List.cons.inj h
      have hname := List.append_cancel_right (List.cons.inj (List.cons.inj helement).2).2
      refine ⟨name.write_shown leading hv.inClass hwf.1 ?_, t.elements_shown hv hwf.2.2 hrest⟩
      rw [v.inClass_pat, v.inClass_rep]
      exact hname
  | .function parms t, v, hv, hwf, h => by
      obtain ⟨helement, hrest⟩ := List.cons.inj h
      have hparms := List.append_cancel_right (List.cons.inj (List.cons.inj helement).2).2
      exact ⟨parms.texts_shown hv hwf.1
        (parms.texts_of_write hv.sound hv.whole.sound hwf.1 hparms),
        t.elements_shown hv hwf.2.2 hrest⟩

theorem NameTree.write_shown (leading : Bool) : ∀ (n : NameTree) {v : Writing}, v.Renames → n.Wf →
    n.write v leading = n.write (.wholeNames v.pat v.rep) leading → n.Covered v leading
  | .path first more, v, hv, _, h => Writing.path_shown hv.ne h
  | .template first more args, v, hv, hwf, h => by
      obtain ⟨hname, hinside⟩ := nameText_cut (by simp) (hv.sound.templateName leading first more)
        (hv.whole.sound.templateName leading first more) h
      have hargs := List.append_cancel_right (List.cons.inj hinside).2
      exact ⟨Writing.templateName_shown hv.rep.2 hv.ne hname, args.texts_shown hv hwf
        (args.texts_of_write hv.sound hv.whole.sound hwf hargs)⟩
  | .nested first more args suffix, v, hv, hwf, h => by
      obtain ⟨hname, hinside⟩ := nameText_cut (by simp) (hv.sound.templateName leading first more)
        (hv.whole.sound.templateName leading first more) h
      obtain ⟨hargs, hsuffix⟩ := balanced_closing_unique (args.balanced hv.sound)
        (args.balanced hv.whole.sound) (List.cons.inj hinside).2
      exact ⟨Writing.templateName_shown hv.rep.2 hv.ne hname, args.texts_shown hv hwf.1
        (args.texts_of_write hv.sound hv.whole.sound hwf.1 hargs),
        suffix.write_shown true hv hwf.2 (List.cons.inj hsuffix).2⟩

theorem TypeTrees.texts_shown : ∀ (ts : TypeTrees) {v : Writing}, v.Renames → ts.Wf →
    ts.texts v = ts.texts (.wholeNames v.pat v.rep) → ts.Covered v
  | .nil, _, _, _, _ => trivial
  | .cons t ts, v, hv, hwf, h => by
      obtain ⟨ht, hts⟩ := List.cons.inj h
      exact ⟨t.elements_shown hv hwf.2.1 (t.elements_of_write hv.sound hv.whole.sound hwf.2.1 ht),
        ts.texts_shown hv hwf.2.2 hts⟩
end

end Shown

/-! ## The code -/

/-- Every whole name is replaced and nothing else is changed, where dimensions in arguments of
templates leave angle brackets in pairs, if the name is in no place where the code does not
look for it; and only if it is in none, when it becomes another name without arguments. -/
theorem typenameReplace_wholeNames {pat rep : List Char} {t : TypeTree} (hpat : IsWord pat)
    (hwf : t.Wf) (hq : t.Unqualified pat) (ha : pat <:+: t.text → t.AnglesNest pat) :
    (t.Covered (codeWriting pat rep) →
      swigTypeTypenameReplace pat rep t.text = some (t.write (.wholeNames pat rep))) ∧
    (PlainName rep → rep ≠ pat →
      swigTypeTypenameReplace pat rep t.text = some (t.write (.wholeNames pat rep)) →
      t.Covered (codeWriting pat rep)) := by
  rw [swigTypeTypenameReplace_text hpat hwf hq ha]
  constructor
  · exact fun h => congrArg some (t.write_covered h)
  · intro hrep hne h
    have hv : (codeWriting pat rep).Renames := ⟨hpat, hrep, hne⟩
    exact t.elements_shown hv hwf
      (t.elements_of_write hv.sound hv.whole.sound hwf (Option.some.inj h))

/-- A part of letters and digits. -/
def lettersPart (text : List Char) (h : text ≠ [] ∧ text.all isIdentifierChar = true ∧
    operatorAt text = none) : ScopePart :=
  ⟨text, h.1, fun c hc => Or.inl (List.all_eq_true.1 h.2.1 c hc), h.2.2⟩

def typeT : TypeTree := .base false (.path (lettersPart ['T'] (by decide)) [])

/-- `a(T).f(p.T).V<(T)>`. -/
def arrayOfFunctions : TypeTree :=
  .array ⟨['T'], by decide⟩ (.function (.cons (.fixed .pointer typeT) .nil)
    (.base false (.template (lettersPart ['V'] (by decide)) [] (.cons typeT .nil))))

theorem arrayOfFunctions_replaced :
    arrayOfFunctions.text = "a(T).f(p.T).V<(T)>".toList ∧
      swigTypeTypenameReplace ['T'] "int".toList arrayOfFunctions.text =
        some (arrayOfFunctions.write (.wholeNames ['T'] "int".toList)) ∧
      arrayOfFunctions.write (.wholeNames ['T'] "int".toList) =
        "a(int).f(p.int).V<(int)>".toList := by
  have hpat : IsWord ['T'] := by
    refine ⟨by decide, fun c hc => ?_⟩
    obtain rfl := List.mem_singleton.1 hc
    decide
  have hf : ¬ false = true := Bool.false_ne_true
  have ht : ¬ true = false := fun h => hf h.symm
  have hname : typeT.Unqualified ['T'] := ⟨fun h => absurd h hf, fun _ hp => nomatch hp⟩
  have hangles : typeT.AnglesNest ['T'] := ⟨trivial, trivial⟩
  have hcovered : typeT.Covered (codeWriting ['T'] "int".toList) := fun h => absurd h ht
  have hwf : arrayOfFunctions.Wf :=
    ⟨id, ⟨id, ⟨id, trivial⟩, trivial⟩, id, id, trivial, trivial⟩
  have hq : arrayOfFunctions.Unqualified ['T'] :=
    ⟨⟨hname, trivial⟩, fun h => absurd h hf, (fun _ hp => nomatch hp), hname, trivial⟩
  have ha : arrayOfFunctions.AnglesNest ['T'] :=
    ⟨⟨fun _ => hangles, trivial⟩, Option.some_ne_none 0, fun _ => hangles, trivial⟩
  refine ⟨by decide, (@typenameReplace_wholeNames ['T'] "int".toList arrayOfFunctions hpat hwf hq
    fun _ => ha).1 ?_, by decide⟩
  exact ⟨(fun _ => by decide), (fun h => absurd h ht), (fun _ _ => by decide),
    ⟨hcovered, trivial⟩,
    (fun _ hv => absurd hv.2 (by decide)), hcovered, trivial⟩

/-- `m(T).T`. -/
def memberPointer : TypeTree := .member false (.path (lettersPart ['T'] (by decide)) []) typeT

/-- The class of a member pointer keeps its name, and so does a template; a literal in a dimension
does not. -/
theorem memberPointer_keepsClass :
    memberPointer.text = "m(T).T".toList ∧ memberPointer.Wf ∧ memberPointer.Unqualified ['T'] ∧
      swigTypeTypenameReplace ['T'] "int".toList memberPointer.text =
        some "m(T).int".toList ∧
      memberPointer.write (.wholeNames ['T'] "int".toList) = "m(int).int".toList ∧
      swigTypeTypenameReplace ['T'] ['U'] "T<(int)>".toList = some "T<(int)>".toList ∧
      swigTypeTypenameReplace ['T'] "int".toList "a('T'+1).int".toList =
        some "a('int'+1).int".toList := by
  have hname : typeT.Unqualified ['T'] :=
    ⟨fun h => absurd h Bool.false_ne_true, fun _ hp => nomatch hp⟩
  exact ⟨by decide, ⟨trivial, id, trivial⟩, ⟨hname, hname⟩, by decide, by decide, by decide,
    by decide +kernel⟩

end Swig4Ada.Swig

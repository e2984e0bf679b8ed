import Swig4Ada.Preprocessor.BlockEnds

/-!
# When the end of a block is seen

Behind a percent sign the machine reads on as long as a keyword may begin so, and it does not
look again at the character that ends this. So a keyword counts exactly when its percent sign
is not such a character.
-/

namespace Swig4Ada.Preprocessor

variable {kind : BlockKind} {r : Option (List Char)} {n m : Nat} {c : Char}
  {t rest p : List Char} {closes : Bool} {which : Bool → Prop}

/-! ## The keywords that count -/

/-- The text behind the end of a block when only the keywords that are seen count. -/
def seenEnd (kind : BlockKind) : Option (List Char) → Nat → List Char → Option (List Char)
  | _, _, [] => none
  | r, n, c :: t =>
      match if r.isNone then keywordAt kind (c :: t) else none with
      | none => seenEnd kind (readKeyword kind r c) n t
      | some false => seenEnd kind (readKeyword kind r c) (n + 1) t
      | some true =>
          if n = 0 then some (t.drop (kind.closer.length + kind.spaces))
          else seenEnd kind (readKeyword kind r c) (n - 1) t

/-- `Seen` in a block with `n` open blocks, at a place where `r` has been read. -/
def SeenFrom (kind : BlockKind) (which : Bool → Prop) (r : Option (List Char)) (n : Nat)
    (t : List Char) : Prop :=
  ∀ before after closes, t = before ++ after → keywordAt kind after = some closes → which closes →
    (∀ rest, blockEnd kind n t = some rest → rest.length < after.length) →
      before.foldl (readKeyword kind) r = none

theorem blockEnd_none (h : keywordAt kind (c :: t) = none) :
    blockEnd kind n (c :: t) = blockEnd kind n t := by
  rw [blockEnd, h]

example : blockEnd .beginfile 0 "int i;".toList = none := by decide +kernel

theorem blockEnd_opener (h : keywordAt kind (c :: t) = some false) :
    blockEnd kind n (c :: t) = blockEnd kind (n + 1) t := by
  rw [blockEnd, h]

theorem blockEnd_closer (h : keywordAt kind (c :: t) = some true) :
    blockEnd kind (n + 1) (c :: t) = blockEnd kind n t := by
  simp only [blockEnd, h]
  exact if_neg (Nat.succ_ne_zero n)

theorem blockEnd_last (h : keywordAt kind (c :: t) = some true) :
    blockEnd kind 0 (c :: t) = some (t.drop (kind.closer.length + kind.spaces)) := by
  simp only [blockEnd, h, if_true]

theorem seenEnd_skip (h : r.isNone → keywordAt kind (c :: t) = none) :
    seenEnd kind r n (c :: t) = seenEnd kind (readKeyword kind r c) n t := by
  have hnone : (if r.isNone then keywordAt kind (c :: t) else none) = none := by
    split
    next hr => exact h hr
    next => rfl
  rw [seenEnd, hnone]

theorem seenEnd_opener (h : keywordAt kind (c :: t) = some false) :
    seenEnd kind none n (c :: t) = seenEnd kind (readKeyword kind none c) (n + 1) t := by
  simp only [seenEnd, Option.isNone_none, if_true, h]

theorem seenEnd_closer (h : keywordAt kind (c :: t) = some true) :
    seenEnd kind none (n + 1) (c :: t) = seenEnd kind (readKeyword kind none c) n t := by
  simp only [seenEnd, Option.isNone_none, if_true, h]
  exact if_neg (Nat.succ_ne_zero n)

theorem seenEnd_last (h : keywordAt kind (c :: t) = some true) :
    seenEnd kind none 0 (c :: t) = some (t.drop (kind.closer.length + kind.spaces)) := by
  simp only [seenEnd, Option.isNone_none, if_true, h]

theorem length_blockEnd (h : blockEnd kind n t = some rest) : rest.length < t.length := by
  induction t generalizing n with
  | nil => cases h
  | cons c t ih =>
      have htail : ∀ {m}, blockEnd kind m t = some rest → rest.length < (c :: t).length :=
        fun h => Nat.lt_succ_of_lt (ih h)
      cases hk : keywordAt kind (c :: t) with
      | none => exact htail (blockEnd_none hk ▸ h)
      | some closes =>
          cases closes with
          | false => exact htail (blockEnd_opener hk ▸ h)
          | true =>
              cases n with
              | zero =>
                  rw [blockEnd_last hk] at h
                  cases h
                  rw [List.length_drop, List.length_cons]
                  omega
              | succ n => exact htail (blockEnd_closer hk ▸ h)

theorem length_seenEnd (h : seenEnd kind r n t = some rest) : rest.length < t.length := by
  induction t generalizing r n with
  | nil => cases h
  | cons c t ih =>
      have htail : ∀ {r m}, seenEnd kind r m t = some rest → rest.length < (c :: t).length :=
        fun h => Nat.lt_succ_of_lt (ih h)
      rw [seenEnd] at h
      split at h
      next => exact htail h
      next => exact htail h
      next =>
        split at h
        next =>
          cases h
          rw [List.length_drop, List.length_cons]
          omega
        next => exact htail h

/-! ## Keywords and percent signs -/

theorem closer_plain (kind : BlockKind) : '%' ∉ kind.closer := by
  cases kind <;> decide

theorem keywordAt_percent (h : keywordAt kind (c :: t) = some closes) : c = '%' := by
  have hbegins : ∀ {word}, beginsWith kind word (c :: t) = true → c = '%' := by
    intro word hw
    have hp := List.isPrefixOf_iff_prefix.1 (Bool.and_eq_true_iff.1 hw).1
    exact (List.cons_prefix_cons.1 hp).1.symm
  rw [keywordAt] at h
  split at h
  next hw => exact hbegins hw
  next =>
    split at h
    next hw =>
      cases ho : kind.opener with
      | none =>
          rw [ho] at hw
          cases hw
      | some word =>
          rw [ho] at hw
          exact hbegins hw
    next => cases h

/-- The word that ends a block, with the blank behind it. -/
theorem closer_text (h : keywordAt kind (c :: t) = some true) :
    ∃ s u, t = s ++ u ∧ s.length = kind.closer.length + kind.spaces ∧ '%' ∉ s := by
  have hw : beginsWith kind kind.closer (c :: t) = true := by
    rw [keywordAt] at h
    split at h
    next hw => exact hw
    next => split at h <;> cases h
  rw [beginsWith, Bool.and_eq_true_iff] at hw
  obtain ⟨v, rfl⟩ := (List.cons_prefix_cons.1 (List.isPrefixOf_iff_prefix.1 hw.1)).2
  have hspace := hw.2
  rw [List.drop_succ_cons, List.drop_left] at hspace
  cases hk : kind.spaces with
  | zero =>
      exact ⟨kind.closer, v, rfl, rfl, closer_plain kind⟩
  | succ k =>
      obtain rfl : k = 0 := by cases kind <;> cases hk; rfl; rfl
      rw [hk] at hspace
      cases v with
      | nil => simp at hspace
      | cons x v =>
          have hx : isSpace x = true := by simpa using hspace
          refine ⟨kind.closer ++ [x], v, by simp, by simp, ?_⟩
          rw [List.mem_append, List.mem_singleton]
          rintro (hin | rfl)
          · exact closer_plain kind hin
          · cases hx

/-- Where there is no percent sign there is no end. -/
theorem seenEnd_plain {s : List Char} (hs : '%' ∉ s) :
    seenEnd kind r n (s ++ t) = seenEnd kind (s.foldl (readKeyword kind) r) n t := by
  induction s generalizing r with
  | nil => rfl
  | cons c s ih =>
      obtain ⟨hc, hs⟩ := not_or.1 fun hm => hs (List.mem_cons.2 hm)
      have hnone : keywordAt kind (c :: (s ++ t)) = none := by
        cases hk : keywordAt kind (c :: (s ++ t)) with
        | none => rfl
        | some closes => exact absurd (keywordAt_percent hk).symm hc
      rw [List.cons_append, seenEnd_skip fun _ => hnone, ih hs]
      rfl

/-- The end is behind a word that does not end the block. -/
theorem length_seenEnd_closer (hk : keywordAt kind (c :: t) = some true)
    (h : seenEnd kind r n t = some rest) :
    rest.length < (t.drop (kind.closer.length + kind.spaces)).length := by
  obtain ⟨s, u, rfl, hlen, hs⟩ := closer_text hk
  rw [seenEnd_plain hs] at h
  rw [← hlen, List.drop_left]
  exact length_seenEnd h

/-- Up to its end there is no keyword in the word that ends a block. -/
theorem seenFrom_last (hk : keywordAt kind (c :: t) = some true) :
    SeenFrom kind which none 0 (c :: t) := by
  rintro (_ | ⟨x, before⟩) after closes heq hafter hw hrest
  · rfl
  · have hlt := hrest _ (blockEnd_last hk)
    obtain ⟨s, u, rfl, hlen, hs⟩ := closer_text hk
    rw [← hlen, List.drop_left] at hlt
    rw [List.cons_append, List.cons.injEq] at heq
    cases after with
    | nil => cases hlt
    | cons y after =>
        obtain rfl := keywordAt_percent hafter
        -- The keyword would begin in the word.
        rcases List.append_eq_append_iff.1 heq.2 with ⟨v, rfl, hv⟩ | ⟨v, hv, hu⟩
        · have hle : ('%' :: after).length ≤ u.length := by
            rw [hv, List.length_append]
            omega
          omega
        · cases v with
          | nil =>
              rw [List.nil_append] at hu
              rw [← hu] at hlt
              exact absurd hlt (Nat.lt_irrefl _)
          | cons z v =>
              obtain rfl : '%' = z := by simpa using congrArg List.head? hu
              exact absurd (by rw [hv]; simp) hs

/-! ## Seen or not -/

/-- At a keyword in front. -/
theorem SeenFrom.head (h : SeenFrom kind which r n (c :: t))
    (hk : keywordAt kind (c :: t) = some closes) (hw : which closes) : r = none :=
  h [] (c :: t) closes rfl hk hw fun _ hrest => length_blockEnd hrest

/-- Behind a character, where the end of the block is the same. -/
theorem seenFrom_cons (hend : blockEnd kind n (c :: t) = blockEnd kind m t) :
    SeenFrom kind which r n (c :: t) ↔
      SeenFrom kind which (readKeyword kind r c) m t ∧
        (∀ closes, keywordAt kind (c :: t) = some closes → which closes → r = none) := by
  constructor
  · intro h
    refine ⟨fun before after closes heq hk hw hrest => ?_, fun closes hk hw => h.head hk hw⟩
    exact h (c :: before) after closes (congrArg (c :: ·) heq) hk hw (by rwa [hend])
  · rintro ⟨h, hhead⟩ (_ | ⟨x, before⟩) after closes heq hk hw hrest
    · rw [List.nil_append] at heq
      subst heq
      exact hhead closes hk hw
    · rw [List.cons_append, List.cons.injEq] at heq
      obtain ⟨rfl, heq⟩ := heq
      exact h before after closes heq hk hw (by rwa [← hend])

/-- Where all keywords are seen, the block ends at its end. -/
theorem seenEnd_eq (h : SeenFrom kind (fun _ => True) r n t) :
    seenEnd kind r n t = blockEnd kind n t := by
  induction t generalizing r n with
  | nil => rfl
  | cons c t ih =>
      cases hk : keywordAt kind (c :: t) with
      | none =>
          rw [seenEnd_skip fun _ => hk, blockEnd_none hk]
          exact ih ((seenFrom_cons (blockEnd_none hk)).1 h).1
      | some closes =>
          obtain rfl := h.head hk trivial
          cases closes with
          | false =>
              rw [seenEnd_opener hk, blockEnd_opener hk]
              exact ih ((seenFrom_cons (blockEnd_opener hk)).1 h).1
          | true =>
              cases n with
              | zero => rw [seenEnd_last hk, blockEnd_last hk]
              | succ n =>
                  rw [seenEnd_closer hk, blockEnd_closer hk]
                  exact ih ((seenFrom_cons (blockEnd_closer hk)).1 h).1

/-- Where the openers are seen, the end that is seen is at most too late, and it is so where
more blocks seem to be open or a keyword is not seen. -/
theorem seenEnd_late (hnm : n ≤ m) (hopen : SeenFrom kind (· = false) r n t)
    (h : seenEnd kind r m t = some rest) :
    ∃ rest', blockEnd kind n t = some rest' ∧ rest.length ≤ rest'.length ∧
      (n < m ∨ ¬ SeenFrom kind (fun _ => True) r n t → rest.length < rest'.length) := by
  induction t generalizing r n m with
  | nil => cases h
  | cons c t ih =>
      -- The keyword is seen, or there is none.
      have hseen : ∀ {n' m'}, n' ≤ m' → (n < m → n' < m') →
          blockEnd kind n (c :: t) = blockEnd kind n' t →
          seenEnd kind (readKeyword kind r c) m' t = some rest →
          (∀ closes, keywordAt kind (c :: t) = some closes → r = none) →
          ∃ rest', blockEnd kind n (c :: t) = some rest' ∧ rest.length ≤ rest'.length ∧
            (n < m ∨ ¬ SeenFrom kind (fun _ => True) r n (c :: t) →
              rest.length < rest'.length) := by
        intro n' m' hle hlt hend htail hhead
        obtain ⟨rest', hrest', hlate, hlost⟩ := ih hle ((seenFrom_cons hend).1 hopen).1 htail
        refine ⟨rest', hend.trans hrest', hlate, fun hor => hlost (hor.imp hlt fun hn hs => ?_)⟩
        exact hn ((seenFrom_cons hend).2 ⟨hs, fun closes hk _ => hhead closes hk⟩)
      cases hk : keywordAt kind (c :: t) with
      | none =>
          rw [seenEnd_skip fun _ => hk] at h
          refine hseen hnm id (blockEnd_none hk) h fun closes hc => ?_
          rw [hk] at hc
          cases hc
      | some closes =>
          cases closes with
          | false =>
              obtain rfl := hopen.head hk rfl
              rw [seenEnd_opener hk] at h
              exact hseen (by omega) (fun _ => by omega) (blockEnd_opener hk) h fun _ _ => rfl
          | true =>
              cases r with
              | none =>
                  cases n with
                  | succ n =>
                      obtain ⟨m, rfl⟩ : ∃ k, m = k + 1 := ⟨m - 1, by omega⟩
                      rw [seenEnd_closer hk] at h
                      exact hseen (by omega) (fun _ => by omega) (blockEnd_closer hk) h
                        fun _ _ => rfl
                  | zero =>
                      refine ⟨_, blockEnd_last hk, ?_⟩
                      cases m with
                      | zero =>
                          rw [seenEnd_last hk] at h
                          cases h
                          refine ⟨le_refl _, ?_⟩
                          rintro (hlt | hn)
                          · exact absurd hlt (Nat.lt_irrefl 0)
                          · exact absurd (seenFrom_last hk) hn
                      | succ m =>
                          rw [seenEnd_closer hk] at h
                          have hlt := length_seenEnd_closer hk h
                          exact ⟨le_of_lt hlt, fun _ => hlt⟩
              | some read =>
                  rw [seenEnd_skip (by simp)] at h
                  cases n with
                  | zero =>
                      have hlt := length_seenEnd_closer hk h
                      exact ⟨_, blockEnd_last hk, le_of_lt hlt, fun _ => hlt⟩
                  | succ n =>
                      have hend := blockEnd_closer (n := n) hk
                      obtain ⟨rest', hrest', hle, hlt⟩ :=
                        ih (n := n) (by omega) ((seenFrom_cons hend).1 hopen).1 h
                      exact ⟨rest', hend.trans hrest', hle, fun _ => hlt (Or.inl (by omega))⟩

/-! ## Reading a keyword -/

/-- No word is the beginning of another one. -/
theorem words_apart (kind : BlockKind) : ∀ word ∈ kind.opener,
    ¬ word <+: kind.closer ∧ ¬ kind.closer <+: word := by
  cases kind <;> decide

/-- A word that opens or ends a block. -/
def IsWord (kind : BlockKind) (w : List Char) : Prop := w = kind.closer ∨ w ∈ kind.opener

theorem isPartial_iff : isPartial kind p = true ↔ ∃ w, IsWord kind w ∧ p <+: w ∧ p ≠ w := by
  have hboth : ∀ w, (p ≠ w && p.isPrefixOf w) = true ↔ p <+: w ∧ p ≠ w := by
    intro w
    simp [and_comm]
  rw [isPartial, Bool.or_eq_true, hboth]
  constructor
  · rintro (h | h)
    · exact ⟨_, Or.inl rfl, h⟩
    · cases ho : kind.opener with
      | none =>
          rw [ho] at h
          cases h
      | some w =>
          rw [ho] at h
          exact ⟨w, Or.inr ho, (hboth w).1 h⟩
  · rintro ⟨w, rfl | ho, h⟩
    · exact Or.inl h
    · refine Or.inr ?_
      rw [ho]
      exact (hboth w).2 h

/-- Two words of which one begins the other are the same. -/
theorem IsWord.eq {w w' : List Char} (h : IsWord kind w) (h' : IsWord kind w') (hp : w <+: w') :
    w = w' := by
  rcases h with rfl | ho
  · rcases h' with rfl | ho'
    · rfl
    · exact absurd hp (words_apart kind _ ho').2
  · rcases h' with rfl | ho'
    · exact absurd hp (words_apart kind _ ho).1
    · exact Option.some.inj (ho.symm.trans ho')

theorem isPartial_shorter {q : List Char} (h : isPartial kind p = true) (hq : q <+: p) :
    isPartial kind q = true := by
  obtain ⟨w, hw, hp, hne⟩ := isPartial_iff.1 h
  refine isPartial_iff.2 ⟨w, hw, hq.trans hp, ?_⟩
  rintro rfl
  exact hne (hp.eq_of_length_le hq.length_le)

theorem not_isPartial_word {w : List Char} (h : IsWord kind w) : isPartial kind w = false := by
  cases hp : isPartial kind w with
  | false => rfl
  | true =>
      obtain ⟨w', hw', hpre, hne⟩ := isPartial_iff.1 hp
      exact absurd (h.eq hw' hpre) hne

theorem isPartial_of_word {w q : List Char} (h : IsWord kind w) (hq : q <+: w) (hne : q ≠ w) :
    isPartial kind q = true :=
  isPartial_iff.2 ⟨w, h, hq, hne⟩

/-- While a keyword may be read no other one is looked for. -/
theorem seenEnd_through {s q : List Char}
    (h : ∀ u, u <+: s → u ≠ s → isPartial kind (q ++ u) = true) :
    seenEnd kind (some q) n (s ++ t) =
      seenEnd kind (s.foldl (readKeyword kind) (some q)) n t := by
  induction s generalizing q with
  | nil => rfl
  | cons c s ih =>
      rw [List.cons_append, seenEnd_skip (by simp), List.foldl_cons]
      by_cases hs : s = []
      · rw [hs]
        rfl
      · have hc : isPartial kind (q ++ [c]) = true :=
          h [c] ⟨s, rfl⟩ fun heq => hs (List.cons.inj heq).2.symm
        have hread : readKeyword kind (some q) c = some (q ++ [c]) := if_pos hc
        rw [hread]
        refine ih fun u hu hne => ?_
        rw [List.append_assoc]
        exact h (c :: u) (List.cons_prefix_cons.2 ⟨rfl, hu⟩) fun heq => hne (List.cons.inj heq).2

theorem foldl_readKeyword (h : isPartial kind p = true) :
    p.foldl (readKeyword kind) (some []) = some p := by
  induction p using List.reverseRecOn with
  | nil => rfl
  | append_singleton p c ih =>
      rw [List.foldl_append, ih (isPartial_shorter h (List.prefix_append _ _))]
      exact if_pos h

/-- A character ends the reading. -/
theorem foldl_readKeyword_ends (h : isPartial kind p = true)
    (hc : isPartial kind (p ++ [c]) = false) :
    (p ++ [c]).foldl (readKeyword kind) (some []) = none := by
  rw [List.foldl_append, foldl_readKeyword h]
  exact if_neg (by rw [hc]; exact Bool.false_ne_true)

/-- A percent sign behind which no keyword comes. -/
theorem keywordAt_none (h : ∀ w, IsWord kind w → beginsWith kind w t = false) :
    keywordAt kind t = none := by
  rw [keywordAt, if_neg (by rw [h _ (Or.inl rfl)]; exact Bool.false_ne_true)]
  cases ho : kind.opener with
  | none => rfl
  | some w => exact if_neg (by rw [Option.any_some, h w (Or.inr ho)]; exact Bool.false_ne_true)

theorem not_beginsWith {w : List Char} (h : ¬ w <+: t) : beginsWith kind w ('%' :: t) = false := by
  refine Bool.and_eq_false_iff.2 (Or.inl ?_)
  rw [Bool.eq_false_iff, ne_eq, List.isPrefixOf_iff_prefix]
  exact fun hp => h (List.cons_prefix_cons.1 hp).2

/-- A beginning that does not go on as a word. -/
theorem seenEnd_broken (h : isPartial kind p = true) (hc : isPartial kind (p ++ [c]) = false)
    (hword : ¬ IsWord kind (p ++ [c])) :
    seenEnd kind none n ('%' :: (p ++ c :: t)) = seenEnd kind none n t := by
  have hnone : keywordAt kind ('%' :: (p ++ c :: t)) = none := by
    refine keywordAt_none fun w hw => not_beginsWith fun hp => ?_
    have hsplit : p ++ c :: t = (p ++ [c]) ++ t := by simp
    rw [hsplit] at hp
    rcases List.prefix_or_prefix_of_prefix hp (List.prefix_append _ _) with hin | hin
    · by_cases heq : w = p ++ [c]
      · exact hword (heq ▸ hw)
      · rcases List.prefix_concat_iff.1 hin with heq' | hin
        · exact heq heq'
        · have hpart := isPartial_shorter h hin
          rw [not_isPartial_word hw] at hpart
          cases hpart
    · by_cases heq : p ++ [c] = w
      · exact hword (heq ▸ hw)
      · rw [isPartial_of_word hw hin heq] at hc
        cases hc
  have hsplit : p ++ c :: t = (p ++ [c]) ++ t := by simp
  rw [seenEnd_skip fun _ => hnone, show readKeyword kind none '%' = some [] from rfl, hsplit,
    seenEnd_through, foldl_readKeyword_ends h hc]
  intro u hu hne
  rcases List.prefix_concat_iff.1 hu with heq | hu
  · exact absurd heq hne
  · exact isPartial_shorter h hu

theorem foldl_readKeyword_word {w : List Char} (h : IsWord kind w) :
    w.foldl (readKeyword kind) (some []) = none := by
  obtain ⟨p, c, rfl⟩ : ∃ p c, w = p ++ [c] := by
    have hne : w ≠ [] := by
      rcases h with rfl | ho
      · cases kind <;> decide
      · rintro rfl
        exact absurd List.nil_prefix (words_apart kind _ ho).1
    exact ⟨w.dropLast, w.getLast hne, (List.dropLast_append_getLast hne).symm⟩
  exact foldl_readKeyword_ends
    (isPartial_of_word h (List.prefix_append _ _) fun heq => by simpa using congrArg List.length heq)
    (not_isPartial_word h)

/-- Behind a percent sign and a word the reading is at an end. -/
theorem seenEnd_word {w : List Char} (h : IsWord kind w) :
    seenEnd kind (some []) n (w ++ t) = seenEnd kind none n t := by
  have hpart : ∀ u, u <+: w → u ≠ w → isPartial kind ([] ++ u) = true :=
    fun u hu hne => isPartial_of_word h hu hne
  rw [seenEnd_through hpart, foldl_readKeyword_word h]

/-- A word without the blank behind it. -/
theorem keywordAt_unspaced {w : List Char} (h : IsWord kind w) (hspaces : kind.spaces ≠ 0)
    (hblank : t.head?.any isSpace = false) : keywordAt kind ('%' :: (w ++ t)) = none := by
  refine keywordAt_none fun w' hw' => ?_
  by_cases hp : w' <+: w ++ t
  · have heq : w' = w := by
      rcases List.prefix_or_prefix_of_prefix hp (List.prefix_append _ _) with hin | hin
      · exact hw'.eq h hin
      · exact (h.eq hw' hin).symm
    subst heq
    refine Bool.and_eq_false_iff.2 (Or.inr ?_)
    rw [List.drop_succ_cons, List.drop_left, hblank]
    simpa using hspaces
  · exact not_beginsWith hp

theorem keywordAt_closer (kind : BlockKind) (hblank : kind.spaces = 0 ∨ t.head?.any isSpace = true) :
    keywordAt kind ('%' :: (kind.closer ++ t)) = some true := by
  refine if_pos (Bool.and_eq_true_iff.2 ⟨?_, ?_⟩)
  · exact List.isPrefixOf_iff_prefix.2 (List.cons_prefix_cons.2 ⟨rfl, List.prefix_append _ _⟩)
  · rw [List.drop_succ_cons, List.drop_left, Bool.or_eq_true, decide_eq_true_iff]
    exact hblank

theorem keywordAt_opener {w : List Char} (ho : kind.opener = some w)
    (hblank : t.head?.any isSpace = true) :
    keywordAt kind ('%' :: (w ++ t)) = some false := by
  have hcloser : beginsWith kind kind.closer ('%' :: (w ++ t)) = false := by
    refine not_beginsWith fun hp => ?_
    rcases List.prefix_or_prefix_of_prefix hp (List.prefix_append _ _) with hin | hin
    · exact (words_apart kind w ho).2 hin
    · exact (words_apart kind w ho).1 hin
  rw [keywordAt, if_neg (by rw [hcloser]; exact Bool.false_ne_true), ho]
  refine if_pos (Bool.and_eq_true_iff.2 ⟨?_, ?_⟩)
  · exact List.isPrefixOf_iff_prefix.2 (List.cons_prefix_cons.2 ⟨rfl, List.prefix_append _ _⟩)
  · rw [List.drop_succ_cons, List.drop_left, hblank]
    exact Bool.or_true _

/-! ## Leaving a block -/

section Machine

variable {σ : Type} {W : FileWorld σ} {fs fs' : FileState σ} {blank : List Char}
  {o o' : Option (List Char)} {part : BlockPart}

theorem fileRun_cons : fileRun W fs (c :: t) = fileRun W (readFileChar W 3 fs c) t := rfl

theorem Leaves.nil (h : InBlock kind fs) : Leaves W kind fs [] none := by
  intro u hu
  rw [List.prefix_nil.1 hu]
  exact h

/-- A character in a block. -/
theorem Leaves.cons (h : InBlock kind fs) (hstep : readFileChar W 3 fs c = fs')
    (hrest : Leaves W kind fs' t o) : Leaves W kind fs (c :: t) o := by
  subst hstep
  cases o with
  | none =>
      rintro (_ | ⟨x, u⟩) hu
      · exact h
      · obtain ⟨rfl, htail⟩ := List.cons_prefix_cons.1 hu
        exact hrest u htail
  | some rest =>
      obtain ⟨body, blank, rfl, hblank, hin, hout⟩ := hrest
      refine ⟨c :: body, blank, rfl, hblank, ?_, hout⟩
      rintro (_ | ⟨x, u⟩) hu hne
      · exact h
      · obtain ⟨rfl, htail⟩ := List.cons_prefix_cons.1 hu
        exact hin u htail fun heq => hne (congrArg (x :: ·) heq)

/-- The last character of a block. -/
theorem Leaves.last (body blank : List Char) (h : InBlock kind fs)
    (hchar : body ++ blank = [c]) (hblank : blank.length = kind.spaces)
    (hout : Ordinary blank (readFileChar W 3 fs c)) : Leaves W kind fs (c :: t) (some t) := by
  refine ⟨body, blank, by rw [hchar]; rfl, hblank, ?_, by rw [hchar]; exact hout⟩
  rw [hchar]
  intro u hu hne
  cases u with
  | nil => exact h
  | cons x u =>
      obtain ⟨rfl, htail⟩ := List.cons_prefix_cons.1 hu
      rw [List.prefix_nil.1 htail] at hne
      exact absurd rfl hne

/-- A blank in ordinary text. -/
theorem reads_blank (hmode : fs.line.mode = .start ∨ fs.line.mode = .text)
    (hchunk : fs.line.chunk = []) (hdlevel : fs.dlevel = 0) (hfilelevel : fs.filelevel = 0)
    (hc : isSpace c = true) (n : Nat) : Ordinary [c] (readFileChar W (n + 1) fs c) := by
  have hother : ∀ x, isSpace x = false → c ≠ x := by
    rintro x hx rfl
    rw [hc] at hx
    cases hx
  obtain ⟨mode, hput, hmode'⟩ : ∃ mode, parseStep W.toWorld fs.line c =
      (putChunk fs.line c mode, false) ∧ (mode = .start ∨ mode = .text) := by
    rcases hmode with hmode | hmode
    · refine ⟨.start, ?_, Or.inl rfl⟩
      rw [parseStep, hmode]
      simp only [hother '#' (by decide), hc, if_false, if_true]
    · rw [parseStep, hmode]
      simp only [hother '%' (by decide), hother '"' (by decide), hother '\'' (by decide),
        hother '/' (by decide), if_false, or_self]
      by_cases hline : c = '\n'
      · rw [if_pos hline]
        exact ⟨_, rfl, Or.inl rfl⟩
      · rw [if_neg hline]
        exact ⟨_, rfl, Or.inr rfl⟩
  have hstep : fileStep W fs c = (fs.withLine (putChunk fs.line c mode), false) := by
    rw [fileStep, if_neg (by rcases hmode with h | h <;> rw [h] <;> nofun), hput]
    refine if_neg ?_
    show mode ≠ .swigBlock
    rcases hmode' with rfl | rfl <;> nofun
  rw [readFileChar, hstep]
  exact ⟨hmode', by
    show fs.line.chunk ++ [c] = [c]
    rw [hchunk]
    rfl, hdlevel, hfilelevel⟩

theorem Ordinary.not_inBlock (h : Ordinary blank fs) : ¬ InBlock kind fs := by
  rw [InBlock]
  split
  next =>
    rintro (hin | hin)
    · rcases h.mode with hm | hm <;> rw [hm] at hin <;> cases hin
    · rcases h.mode with hm | hm <;> rw [hm] at hin <;> cases hin
  next =>
    intro hin
    rcases h.mode with hm | hm <;> rw [hm] at hin <;> cases hin

/-- The same character is read in another state. -/
theorem Leaves.again (h : InBlock kind fs) (h' : InBlock kind fs')
    (hread : readFileChar W 3 fs c = readFileChar W 3 fs' c)
    (hl : Leaves W kind fs' (c :: t) o) : Leaves W kind fs (c :: t) o := by
  have hrun : ∀ u, fileRun W fs (c :: u) = fileRun W fs' (c :: u) := by
    intro u
    rw [fileRun_cons, fileRun_cons, hread]
  have hin : ∀ u, u <+: c :: t → InBlock kind (fileRun W fs' u) → InBlock kind (fileRun W fs u) := by
    rintro (_ | ⟨x, u⟩) hu hin
    · exact h
    · obtain ⟨rfl, -⟩ := List.cons_prefix_cons.1 hu
      rw [hrun]
      exact hin
  cases o with
  | none => exact fun u hu => hin u hu (hl u hu)
  | some rest =>
      obtain ⟨body, blank, heq, hblank, hbefore, hout⟩ := hl
      refine ⟨body, blank, heq, hblank, fun u hu hne => ?_, ?_⟩
      · exact hin u (hu.trans ⟨rest, heq.symm⟩) (hbefore u hu hne)
      · cases hu : body ++ blank with
        | nil =>
            rw [hu] at hout
            exact absurd h' hout.not_inBlock
        | cons x u =>
            rw [hu] at hout heq
            obtain rfl : c = x := (List.cons.inj heq).1
            rw [hrun]
            exact hout

theorem EndsBefore.not_leaves (h : EndsBefore W kind fs t rest) : ¬ Leaves W kind fs t none := by
  obtain ⟨body, blank, rfl, -, -, hout⟩ := h
  exact fun hin => hout.not_inBlock (hin _ (List.prefix_append _ _))

/-- A block is left in one place. -/
theorem Leaves.unique (h : Leaves W kind fs t o) (h' : Leaves W kind fs t o') : o = o' := by
  cases o with
  | none =>
      cases o' with
      | none => rfl
      | some rest => exact absurd h (EndsBefore.not_leaves h')
  | some rest =>
      cases o' with
      | none => exact absurd h' (EndsBefore.not_leaves h)
      | some rest' =>
          obtain ⟨body, blank, heq, -, hin, hout⟩ := h
          obtain ⟨body', blank', heq', -, hin', hout'⟩ := h'
          have hsame : body ++ blank = body' ++ blank' := by
            rcases List.prefix_or_prefix_of_prefix ⟨rest, heq.symm⟩ ⟨rest', heq'.symm⟩ with hp | hp
            · by_contra hne
              exact hout.not_inBlock (hin' _ hp hne)
            · by_contra hne
              exact hout'.not_inBlock (hin _ hp (Ne.symm hne))
          rw [heq, hsame] at heq'
          exact congrArg some (List.append_cancel_left heq')

/-! ## The turns in a block -/

/-- In a macro or an included file, with the number of open blocks. -/
structure At (kind : BlockKind) (part : BlockPart) (level : Nat) (fs : FileState σ) : Prop where
  mode : fs.line.mode = .swigBlock
  part : fs.part = part
  decl : fs.line.decl = kind.decl
  chunk : kind = .define → fs.line.chunk = []
  dlevel : fs.dlevel = if kind = .define then level else 0
  filelevel : fs.filelevel = if kind = .beginfile then level else 0

namespace At

variable {level : Nat}

theorem inBlock (h : At kind part level fs) (hkind : kind ≠ .code) : InBlock kind fs := by
  rw [InBlock, if_neg hkind]
  exact h.mode

theorem inDefine (h : At kind part level fs) (hkind : kind ≠ .code) :
    fs.inDefine = decide (kind = .define) := by
  rw [FileState.inDefine, h.decl]
  cases kind with
  | code => exact absurd rfl hkind
  | define => rfl
  | beginfile => rfl

theorem closer (h : At kind part level fs) (hkind : kind ≠ .code) : fs.closer = kind.closer := by
  rw [FileState.closer, h.inDefine hkind]
  cases kind with
  | code => exact absurd rfl hkind
  | define => rfl
  | beginfile => rfl

theorem opener (h : At kind part level fs) (hkind : kind ≠ .code) :
    kind.opener = some fs.opener := by
  rw [FileState.opener, h.inDefine hkind]
  cases kind with
  | code => exact absurd rfl hkind
  | define => rfl
  | beginfile => rfl

theorem withPart (h : At kind part level fs) (part' : BlockPart) :
    At kind part' level { fs with part := part' } :=
  ⟨h.mode, rfl, h.decl, h.chunk, h.dlevel, h.filelevel⟩

theorem put (h : At kind part level fs) (hkind : kind ≠ .code) (c : Char) (part' : BlockPart) :
    At kind part' level (fs.putBlock c part') := by
  rw [FileState.putBlock, h.inDefine hkind]
  cases kind with
  | code => exact absurd rfl hkind
  | define => exact ⟨h.mode, rfl, h.decl, h.chunk, h.dlevel, h.filelevel⟩
  | beginfile => exact ⟨h.mode, rfl, h.decl, nofun, h.dlevel, h.filelevel⟩

theorem step (h : At kind part level fs) (c : Char) : fileStep W fs c = blockStep W fs c := by
  rw [fileStep, if_pos h.mode]

/-- A turn in which the character is not given back. -/
theorem reads (h : At kind part level fs) (hstep : blockStep W fs c = (fs', false))
    (n : Nat) : readFileChar W (n + 1) fs c = fs' := by
  rw [readFileChar, h.step, hstep]
  rfl

theorem step_body (h : At kind .body level fs) :
    blockStep W fs c = (fs.putBlock c (if c = '%' then .statement [] else .body), false) := by
  rw [blockStep, h.part]

theorem step_word {read : List Char} (h : At kind (.statement read) level fs)
    (hkind : kind ≠ .code) (hw : IsWord kind (read ++ [c])) :
    blockStep W fs c = (fs.putBlock c (.statementEnd (read ++ [c])), false) := by
  have hword : read ++ [c] = fs.closer ∨ read ++ [c] = fs.opener := by
    rcases hw with hw | ho
    · exact Or.inl (hw.trans (h.closer hkind).symm)
    · exact Or.inr (Option.some.inj (ho.symm.trans (h.opener hkind)))
  rw [blockStep, h.part]
  simp only [if_pos hword]

theorem step_statement {read : List Char} (h : At kind (.statement read) level fs)
    (hkind : kind ≠ .code) (hw : ¬ IsWord kind (read ++ [c])) :
    blockStep W fs c = (fs.putBlock c
      (if isPartial kind (read ++ [c]) then .statement (read ++ [c]) else .body), false) := by
  have hcloser : read ++ [c] ≠ kind.closer := fun heq => hw (Or.inl heq)
  have hopener : read ++ [c] ≠ fs.opener := fun heq => hw (Or.inr (heq ▸ h.opener hkind))
  have hbegun : isPartial kind (read ++ [c]) = true ↔
      ((read ++ [c]).isPrefixOf fs.closer ∨ (read ++ [c]).isPrefixOf fs.opener) := by
    rw [isPartial, h.opener hkind, h.closer hkind]
    simp [hcloser, hopener]
  rw [blockStep, h.part]
  simp only [h.closer hkind, if_neg (not_or.2 ⟨hcloser, hopener⟩)]
  rw [h.closer hkind] at hbegun
  by_cases hp : isPartial kind (read ++ [c]) = true
  · rw [if_pos hp, if_pos (hbegun.1 hp)]
  · rw [if_neg hp, if_neg fun hor => hp (hbegun.2 hor)]

/-- Behind a word the same character is read again. -/
theorem reads_again {w : List Char} {level' : Nat} (h : At kind (.statementEnd w) level fs)
    (hfs' : (if isSpace c then endStatement W fs w else { fs with part := .body }) = fs')
    (hbody : At kind .body level' fs') :
    readFileChar W 3 fs c = readFileChar W 3 fs' c := by
  subst hfs'
  rw [hbody.reads hbody.step_body, readFileChar, h.step, blockStep, h.part]
  simp only [if_true]
  exact hbody.reads hbody.step_body 1

theorem opened (h : At kind part level fs) (hkind : kind ≠ .code) :
    At kind .body (level + 1) (endStatement W fs fs.opener) := by
  have hdefine : ({ fs with part := .body } : FileState σ).inDefine = decide (kind = .define) :=
    h.inDefine hkind
  have hsame : fs.opener = ({ fs with part := .body } : FileState σ).opener := rfl
  have hdlevel := h.dlevel
  have hfilelevel := h.filelevel
  rw [endStatement]
  simp only [if_pos hsame, hdefine]
  cases kind with
  | code => exact absurd rfl hkind
  | define => exact ⟨h.mode, rfl, h.decl, h.chunk, congrArg (· + 1) hdlevel, hfilelevel⟩
  | beginfile => exact ⟨h.mode, rfl, h.decl, nofun, hdlevel, congrArg (· + 1) hfilelevel⟩

theorem closer_ne (h : At kind part level fs) (hkind : kind ≠ .code) : fs.closer ≠ fs.opener := by
  intro heq
  refine (words_apart kind _ (h.opener hkind)).1 ?_
  rw [← heq, h.closer hkind]

/-- The state with one block fewer. -/
def fewer (fs : FileState σ) : FileState σ :=
  if fs.inDefine then { fs with part := .body, dlevel := fs.dlevel - 1 }
  else { fs with part := .body, filelevel := fs.filelevel - 1 }

theorem fewer_at (h : At kind part (level + 1) fs) (hkind : kind ≠ .code) :
    At kind .body level (fewer fs) := by
  have hdlevel := h.dlevel
  have hfilelevel := h.filelevel
  rw [fewer, h.inDefine hkind]
  cases kind with
  | code => exact absurd rfl hkind
  | define =>
      exact ⟨h.mode, rfl, h.decl, h.chunk, congrArg (· - 1) hdlevel, hfilelevel⟩
  | beginfile =>
      exact ⟨h.mode, rfl, h.decl, nofun, hdlevel, congrArg (· - 1) hfilelevel⟩

/-- At a word that does not open a block, the innermost one ends. -/
theorem endStatement_closer {w : List Char} (h : At kind part (level + 1) fs)
    (hkind : kind ≠ .code) (hw : w ≠ fs.opener) :
    endStatement W fs w = if level = 0 then closeBlock W (fewer fs) else fewer fs := by
  have hne : w ≠ ({ fs with part := .body } : FileState σ).opener := hw
  have hfewer := h.fewer_at hkind
  have hcount : (if (fewer fs).inDefine then (fewer fs).dlevel else (fewer fs).filelevel) =
      level := by
    rw [hfewer.inDefine hkind, hfewer.dlevel, hfewer.filelevel]
    cases kind with
    | code => exact absurd rfl hkind
    | define => rfl
    | beginfile => rfl
  rw [endStatement]
  simp only [if_neg hne]
  change (if (if (fewer fs).inDefine then (fewer fs).dlevel else (fewer fs).filelevel) = 0 then
    closeBlock W (fewer fs) else fewer fs) = _
  rw [hcount]

theorem closeBlock_ordinary (h : At kind .body 0 fs) (hkind : kind ≠ .code) :
    ((closeBlock W fs).line.mode = .start ∨ (closeBlock W fs).line.mode = .text) ∧
      (closeBlock W fs).line.chunk = [] ∧ (closeBlock W fs).dlevel = 0 ∧
      (closeBlock W fs).filelevel = 0 := by
  have hd : fs.dlevel = 0 := h.dlevel.trans (ite_self 0)
  have hf : fs.filelevel = 0 := h.filelevel.trans (ite_self 0)
  rw [closeBlock, h.inDefine hkind]
  split
  next hdefine => exact ⟨Or.inl rfl, h.chunk (of_decide_eq_true hdefine), hd, hf⟩
  next => exact ⟨Or.inr rfl, rfl, hd, hf⟩

/-- The last block is closed, and the blank behind the word is ordinary text. -/
theorem closes_last {w : List Char} (h : At kind (.statementEnd w) 1 fs) (hkind : kind ≠ .code)
    (hw : w = kind.closer) (hc : isSpace c = true) :
    Ordinary [c] (readFileChar W 3 fs c) := by
  have hfewer := h.fewer_at hkind
  have hclose : readFileChar W 3 fs c = readFileChar W 2 (closeBlock W (fewer fs)) c := by
    rw [readFileChar, h.step, blockStep, h.part]
    simp only [hc, if_true]
    rw [hw, ← h.closer hkind, h.endStatement_closer hkind (h.closer_ne hkind), if_pos rfl]
  obtain ⟨hmode, hchunk, hd, hf⟩ := hfewer.closeBlock_ordinary (W := W) hkind
  rw [hclose]
  exact reads_blank hmode hchunk hd hf hc 1

end At

/-! ## The block -/

/-- In a macro or an included file the keywords that are seen count. -/
theorem leaves_at (hkind : kind ≠ .code) (t : List Char) :
    (∀ {fs : FileState σ} {n}, At kind .body (n + 1) fs →
      Leaves W kind fs t (seenEnd kind none n t)) ∧
    (∀ {fs : FileState σ} {n p}, isPartial kind p = true → At kind (.statement p) (n + 1) fs →
      Leaves W kind fs t (seenEnd kind none n ('%' :: (p ++ t)))) ∧
    (∀ {fs : FileState σ} {n w}, IsWord kind w → At kind (.statementEnd w) (n + 1) fs →
      Leaves W kind fs t (seenEnd kind none n ('%' :: (w ++ t)))) := by
  have hspaces : kind.spaces = 1 := by
    cases kind with
    | code => exact absurd rfl hkind
    | define => rfl
    | beginfile => rfl
  induction t with
  | nil =>
      refine ⟨fun h => Leaves.nil (h.inBlock hkind), fun {fs n p} hp h => ?_,
        fun {fs n w} hw h => ?_⟩
      · have hnone : seenEnd kind none n ('%' :: (p ++ [])) = none := by
          have hkey : keywordAt kind ('%' :: (p ++ [])) = none := by
            refine keywordAt_none fun w hw => not_beginsWith fun hin => ?_
            rw [List.append_nil] at hin
            have hpart := isPartial_shorter hp hin
            rw [not_isPartial_word hw] at hpart
            cases hpart
          have hread : ∀ u, u <+: p → u ≠ p → isPartial kind ([] ++ u) = true :=
            fun u hu _ => isPartial_shorter hp hu
          rw [seenEnd_skip fun _ => hkey, show readKeyword kind none '%' = some [] from rfl,
            seenEnd_through hread, foldl_readKeyword hp, seenEnd]
        rw [hnone]
        exact Leaves.nil (h.inBlock hkind)
      · have hnone : seenEnd kind none n ('%' :: (w ++ [])) = none := by
          rw [seenEnd_skip fun _ => keywordAt_unspaced hw (by omega) rfl]
          exact seenEnd_word hw
        rw [hnone]
        exact Leaves.nil (h.inBlock hkind)
  | cons c t ih =>
      have hbody : ∀ {fs : FileState σ} {n}, At kind .body (n + 1) fs →
          Leaves W kind fs (c :: t) (seenEnd kind none n (c :: t)) := by
        intro fs n h
        refine Leaves.cons (h.inBlock hkind) (h.reads h.step_body 2) ?_
        by_cases hc : c = '%'
        · subst hc
          rw [if_pos rfl]
          exact ih.2.1 (isPartial_of_word (Or.inl rfl) List.nil_prefix (by
            cases kind <;> decide)) (h.put hkind _ _)
        · have hnone : keywordAt kind (c :: t) = none := by
            cases hk : keywordAt kind (c :: t) with
            | none => rfl
            | some closes => exact absurd (keywordAt_percent hk) hc
          rw [if_neg hc, seenEnd_skip fun _ => hnone, readKeyword, if_neg hc]
          exact ih.1 (h.put hkind _ _)
      refine ⟨hbody, fun {fs n p} hp h => ?_, fun {fs n w} hw h => ?_⟩
      · have hsplit : p ++ c :: t = (p ++ [c]) ++ t := by simp
        by_cases hword : IsWord kind (p ++ [c])
        · rw [hsplit]
          exact Leaves.cons (h.inBlock hkind) (h.reads (h.step_word hkind hword) 2)
            (ih.2.2 hword (h.put hkind _ _))
        · refine Leaves.cons (h.inBlock hkind) (h.reads (h.step_statement hkind hword) 2) ?_
          by_cases hnext : isPartial kind (p ++ [c]) = true
          · rw [if_pos hnext, hsplit]
            exact ih.2.1 hnext (h.put hkind _ _)
          · rw [if_neg hnext, seenEnd_broken hp (Bool.eq_false_iff.2 hnext) hword]
            exact ih.1 (h.put hkind _ _)
      · cases hc : isSpace c with
        | false =>
            have hagain : readFileChar W 3 fs c = readFileChar W 3 { fs with part := .body } c :=
              h.reads_again (by rw [hc]; rfl) (h.withPart .body)
            rw [seenEnd_skip fun _ => keywordAt_unspaced (t := c :: t) hw (by omega) hc,
              show readKeyword kind none '%' = some [] from rfl, seenEnd_word hw]
            exact Leaves.again (h.inBlock hkind) ((h.withPart .body).inBlock hkind) hagain
              (hbody (h.withPart .body))
        | true =>
            have hblank : (c :: t).head?.any isSpace = true := hc
            rcases hw with rfl | ho
            · have hkey := keywordAt_closer kind (Or.inr hblank)
              cases n with
              | zero =>
                  have hrest : (kind.closer ++ c :: t).drop (kind.closer.length + kind.spaces) =
                      t := by
                    rw [hspaces, ← List.drop_drop, List.drop_left]
                    rfl
                  rw [seenEnd_last hkey, hrest]
                  exact Leaves.last [] [c] (h.inBlock hkind) rfl hspaces.symm
                    (h.closes_last hkind rfl hc)
              | succ n =>
                  have hclosed : At kind .body (n + 1) (endStatement W fs kind.closer) := by
                    rw [← h.closer hkind, h.endStatement_closer hkind (h.closer_ne hkind),
                      if_neg (Nat.succ_ne_zero n)]
                    exact h.fewer_at hkind
                  have hagain := h.reads_again (c := c) (if_pos hc) hclosed
                  rw [seenEnd_closer hkey, show readKeyword kind none '%' = some [] from rfl,
                    seenEnd_word (Or.inl rfl)]
                  exact Leaves.again (h.inBlock hkind) (hclosed.inBlock hkind) hagain
                    (hbody hclosed)
            · have hkey := keywordAt_opener ho hblank
              obtain rfl : w = fs.opener := Option.some.inj (ho.symm.trans (h.opener hkind))
              have hopened := h.opened (W := W) hkind
              have hagain := h.reads_again (c := c) (if_pos hc) hopened
              rw [seenEnd_opener hkey, show readKeyword kind none '%' = some [] from rfl,
                seenEnd_word (Or.inr ho)]
              exact Leaves.again (h.inBlock hkind) (hopened.inBlock hkind) hagain (hbody hopened)

/-- A turn in a block of code. -/
theorem reads_code (hmode : fs.line.mode = .code ∨ fs.line.mode = .codePercent)
    {line : ParseState σ} (hline : parseStep W.toWorld fs.line c = (line, false))
    (hblock : line.mode ≠ .swigBlock) (n : Nat) :
    readFileChar W (n + 1) fs c = fs.withLine line := by
  have hstep : fileStep W fs c = (fs.withLine line, false) := by
    rw [fileStep, if_neg (by rcases hmode with h | h <;> rw [h] <;> nofun), hline]
    exact if_neg hblock
  rw [readFileChar, hstep]
  rfl

/-- In a block of code a percent sign and a brace count when the percent sign is seen. -/
theorem leaves_code (t : List Char) :
    (∀ {fs : FileState σ}, fs.line.mode = .code → fs.dlevel = 0 → fs.filelevel = 0 →
      Leaves W .code fs t (seenEnd .code none 0 t)) ∧
    (∀ {fs : FileState σ}, fs.line.mode = .codePercent → fs.dlevel = 0 → fs.filelevel = 0 →
      Leaves W .code fs t (seenEnd .code none 0 ('%' :: t))) := by
  induction t with
  | nil =>
      refine ⟨fun h _ _ => Leaves.nil (Or.inl h), fun h _ _ => ?_⟩
      exact Leaves.nil (Or.inr h)
  | cons c t ih =>
      refine ⟨fun {fs} h hd hf => ?_, fun {fs} h hd hf => ?_⟩
      · have hline : parseStep W.toWorld fs.line c =
            (putChunk fs.line c (if c = '%' then .codePercent else .code), false) := by
          rw [parseStep, h]
        refine Leaves.cons (Or.inl h) (reads_code (Or.inl h) hline ?_ 2) ?_
        · show (if c = '%' then Mode.codePercent else .code) ≠ .swigBlock
          split <;> nofun
        · by_cases hc : c = '%'
          · subst hc
            exact ih.2 rfl hd hf
          · have hnone : keywordAt .code (c :: t) = none := by
              cases hk : keywordAt .code (c :: t) with
              | none => rfl
              | some closes => exact absurd (keywordAt_percent hk) hc
            rw [if_neg hc, seenEnd_skip fun _ => hnone, readKeyword, if_neg hc]
            exact ih.1 rfl hd hf
      · by_cases hc : c = '}'
        · subst hc
          have hkey : keywordAt .code ('%' :: (['}'] ++ t)) = some true :=
            keywordAt_closer .code (Or.inl rfl)
          have hline : parseStep W.toWorld fs.line '}' =
              ({ putChunk fs.line '}' .code with
                ns := addLine fs.line.ns (fs.line.chunk ++ ['}']) fs.line.cond.allow
                chunk := []
                mode := .text }, false) := by
            rw [parseStep, h]
            rfl
          rw [show '%' :: '}' :: t = '%' :: (['}'] ++ t) from rfl, seenEnd_last hkey]
          refine Leaves.last ['}'] [] (Or.inr h) rfl rfl ?_
          rw [reads_code (Or.inr h) hline nofun 2]
          exact ⟨Or.inr rfl, rfl, hd, hf⟩
        · have hline : parseStep W.toWorld fs.line c = (putChunk fs.line c .code, false) := by
            rw [parseStep, h]
            exact if_neg hc
          refine Leaves.cons (Or.inr h) (reads_code (Or.inr h) hline nofun 2) ?_
          have hbroken : seenEnd .code none 0 ('%' :: ([] ++ c :: t)) = seenEnd .code none 0 t := by
            refine seenEnd_broken (by decide) ?_ ?_
            · rw [Bool.eq_false_iff, ne_eq, isPartial_iff]
              rintro ⟨w, rfl | h, hp, -⟩
              · exact hc (List.cons_prefix_cons.1 hp).1
              · cases h
            · rintro (h | h)
              · exact hc (List.cons.inj h).1
              · cases h
          rw [List.nil_append] at hbroken
          rw [hbroken]
          exact ih.1 rfl hd hf

end Machine

/-! ## The law -/

variable {σ : Type} {W : FileWorld σ}

theorem leaves_block (b : OpenBlock σ) (t : List Char) :
    Leaves W b.kind b.state t (seenEnd b.kind none 0 t) := by
  obtain ⟨kind, fs, hmode, hpart, hdecl, hchunk, hdlevel, hfilelevel⟩ := b
  by_cases hkind : kind = .code
  · subst hkind
    exact (leaves_code t).1 hmode hdlevel hfilelevel
  · rw [if_neg hkind] at hmode
    exact (leaves_at hkind t).1 ⟨hmode, hpart hkind, hdecl hkind, hchunk, hdlevel, hfilelevel⟩

/-- A block ends where it should when each keyword up to there is seen; and where those that
open blocks are seen, only then, unless it does not end at all. -/
theorem blockEnds_iff (W : FileWorld σ) (b : OpenBlock σ) (t : List Char) :
    (Seen b.kind (fun _ => True) t → BlockEnds W b t) ∧
      (Seen b.kind (· = false) t →
        (BlockEnds W b t ↔ (blockEnd b.kind 0 t ≠ none → Seen b.kind (fun _ => True) t))) := by
  have hseen : Seen b.kind (fun _ => True) t → BlockEnds W b t := by
    intro h
    rw [BlockEnds, ← seenEnd_eq (r := none) h]
    exact leaves_block b t
  refine ⟨hseen, fun hopen => ⟨fun hends hsome => ?_, fun h => ?_⟩⟩
  · obtain ⟨rest, hrest⟩ := Option.ne_none_iff_exists'.1 hsome
    have hsame := (leaves_block b t).unique hends
    obtain ⟨rest', hrest', -, hlost⟩ := seenEnd_late (le_refl 0) hopen (hsame.trans hrest)
    rw [hrest] at hrest'
    by_contra hn
    have hlt := hlost (Or.inr hn)
    rw [← Option.some.inj hrest'] at hlt
    exact Nat.lt_irrefl _ hlt
  · cases hend : blockEnd b.kind 0 t with
    | none =>
        have hnone : seenEnd b.kind none 0 t = none := by
          cases hs : seenEnd b.kind none 0 t with
          | none => rfl
          | some rest =>
              obtain ⟨rest', hrest', -⟩ := seenEnd_late (le_refl 0) hopen hs
              rw [hend] at hrest'
              cases hrest'
        rw [BlockEnds, hend, ← hnone]
        exact leaves_block b t
    | some rest => exact hseen (h (by rw [hend]; simp))

/-! ## A percent sign before the end -/

/-- A preprocessor that does nothing but find blocks. -/
def blocksOnly : FileWorld Unit where
  replace _ _ s := s
  isDefined _ _ := false
  expr _ := .ok 0
  define s _ _ := (s, none)
  undef s _ := s
  includeFile s _ := (s, [])
  includeDirective s _ _ _ _ _ := (s, none)
  defineMacro s _ := s

/-- Behind `%{`. -/
def openCode : OpenBlock Unit where
  kind := .code
  state := { fileStart () with line := { parseStart () with mode := .code } }
  mode := rfl
  part := nofun
  decl := nofun
  chunk := nofun
  dlevel := rfl
  filelevel := rfl

/-- `%%}`, of which the second percent sign is not looked at. -/
theorem percentEnd_missed :
    ¬ ∀ (σ : Type) (W : FileWorld σ) (b : OpenBlock σ) (t : List Char), BlockEnds W b t := by
  intro h
  have hends : Leaves blocksOnly .code openCode.state ['%', '%', '}'] (some []) :=
    h Unit blocksOnly openCode ['%', '%', '}']
  have hsame := (leaves_block (W := blocksOnly) openCode ['%', '%', '}']).unique hends
  have hnone : seenEnd .code none 0 ['%', '%', '}'] = none := by decide
  rw [show openCode.kind = .code from rfl, hnone] at hsame
  cases hsame

end Swig4Ada.Preprocessor

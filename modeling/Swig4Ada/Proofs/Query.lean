import Swig4Ada.Runtime.Query

/-!
# Names are found where they do not end in spaces

The comparison of two names is followed from one character that is no space to the next.
What is left at the end decides: where only spaces are left of a text, the comparison reads
the character behind it, and where nothing is left of it, spaces that are left of the other
one count as a difference.
-/

namespace Swig4Ada.Runtime

open Swig4Ada.Lib

/-! ## The spaces before a character -/

theorem spaceless_cons_space (t : List Char) : spaceless (' ' :: t) = spaceless t := by
  unfold spaceless
  rw [List.filter_cons_of_neg (by decide)]

theorem spaceless_cons {c : Char} (hc : c ≠ ' ') (t : List Char) :
    spaceless (c :: t) = c :: spaceless t := by
  unfold spaceless
  rw [List.filter_cons_of_pos (by simpa using hc)]

theorem endsInSpace_cons {c : Char} {t : List Char} (ht : t ≠ []) :
    EndsInSpace (c :: t) ↔ EndsInSpace t := by
  unfold EndsInSpace
  obtain ⟨d, t, rfl⟩ := List.exists_cons_of_ne_nil ht
  rw [List.getLast?_cons_cons]

theorem not_endsInSpace_nil : ¬ EndsInSpace [] := nofun

/-- What is left of a text is spaces. -/
structure AllSpaces (t : List Char) : Prop where
  nonempty : t ≠ []
  spaceless : spaceless t = []
  ends : EndsInSpace t
  skips : ∀ x rest, skipSpaces (t ++ x :: rest) t.length = some (x :: rest, 0)
  runs : skipSpaces t t.length = none
  skipsPast : ∀ x rest (n : Int), x ≠ ' ' → n < 0 →
    skipSpaces (t ++ x :: rest) n = some (x :: rest, n - t.length)

/-- What is left of a text begins, but for spaces, with the character `c`. -/
structure NextChar (t : List Char) (c : Char) (t' : List Char) : Prop where
  char : c ≠ ' '
  mem : c ∈ t
  sub : ∀ x ∈ t', x ∈ t
  shorter : t'.length < t.length
  spaceless : spaceless t = c :: Swig4Ada.Runtime.spaceless t'
  ends : EndsInSpace t ↔ EndsInSpace t'
  skips : ∀ rest, skipSpaces (t ++ rest) t.length = some (c :: (t' ++ rest), (t'.length : Int) + 1)
  skipsPast : ∀ rest (n : Int), n < 0 →
    ∃ m : Int, m < 0 ∧ skipSpaces (t ++ rest) n = some (c :: (t' ++ rest), m)

theorem nextChar_cons {c : Char} (hc : c ≠ ' ') (t : List Char) : NextChar (c :: t) c t where
  char := hc
  mem := List.mem_cons_self
  sub := fun _ => List.mem_cons_of_mem c
  shorter := Nat.lt_succ_self _
  spaceless := spaceless_cons hc t
  ends := by
    by_cases ht : t = []
    · subst ht
      unfold EndsInSpace
      simp [hc]
    · exact endsInSpace_cons ht
  skips := by
    intro rest
    rw [List.cons_append, skipSpaces, if_neg fun h => hc h.1, List.length_cons]
    rfl
  skipsPast := by
    intro rest n hn
    refine ⟨n, hn, ?_⟩
    rw [List.cons_append, skipSpaces, if_neg fun h => hc h.1]

/-- A text is empty, or spaces, or has a next character. -/
theorem text_cases (t : List Char) :
    t = [] ∨ AllSpaces t ∨ ∃ c t', NextChar t c t' := by
  induction t with
  | nil => exact Or.inl rfl
  | cons c t ih =>
      refine Or.inr ?_
      by_cases hc : c = ' '
      · subst hc
        have hstep : ∀ rest, skipSpaces (' ' :: t ++ rest) ((' ' :: t).length : Nat) =
            skipSpaces (t ++ rest) t.length := by
          intro rest
          rw [List.cons_append, skipSpaces, if_pos ⟨rfl, by rw [List.length_cons]; omega⟩,
            List.length_cons]
          congr 1
          omega
        have hpast : ∀ rest (n : Int), n < 0 → skipSpaces (' ' :: t ++ rest) n =
            skipSpaces (t ++ rest) (n - 1) := by
          intro rest n hn
          rw [List.cons_append, skipSpaces, if_pos ⟨rfl, by omega⟩]
        rcases ih with rfl | hspaces | ⟨c, t', hnext⟩
        · refine Or.inl ⟨List.cons_ne_nil _ _, rfl, rfl, ?_, rfl, ?_⟩
          · intro x rest
            rw [hstep, List.nil_append, skipSpaces, if_neg fun h => h.2 rfl]
            rfl
          · intro x rest n hx hn
            rw [hpast _ _ hn, List.nil_append, skipSpaces, if_neg fun h => hx h.1]
            rfl
        · refine Or.inl ⟨List.cons_ne_nil _ _, ?_, ?_, ?_, ?_, ?_⟩
          · rw [spaceless_cons_space, hspaces.spaceless]
          · exact (endsInSpace_cons hspaces.nonempty).2 hspaces.ends
          · exact fun x rest => (hstep _).trans (hspaces.skips x rest)
          · have hrun := hstep []
            rw [List.append_nil, List.append_nil] at hrun
            exact hrun.trans hspaces.runs
          · intro x rest n hx hn
            rw [hpast _ _ hn, hspaces.skipsPast x rest (n - 1) hx (by omega), List.length_cons]
            congr 2
            omega
        · refine Or.inr ⟨c, t', hnext.char, List.mem_cons_of_mem _ hnext.mem,
            fun x hx => List.mem_cons_of_mem _ (hnext.sub x hx), ?_, ?_, ?_, ?_, ?_⟩
          · rw [List.length_cons]
            exact hnext.shorter.trans (Nat.lt_succ_self _)
          · rw [spaceless_cons_space, hnext.spaceless]
          · exact (endsInSpace_cons (List.ne_nil_of_mem hnext.mem)).trans hnext.ends
          · exact fun rest => (hstep rest).trans (hnext.skips rest)
          · intro rest n hn
            rw [hpast _ _ hn]
            exact hnext.skipsPast rest (n - 1) (by omega)
      · exact Or.inr ⟨c, t, nextChar_cons hc t⟩

/-! ## Two names -/

/-- One turn in which both texts have a next character. -/
theorem typeNameCompLoop_next {fuel : Nat} {f1 f2 f1' f2' : List Char} {n1 n2 m1 m2 : Int}
    {c1 c2 : Char} {outside : Bool} (h1 : n1 ≠ 0) (h2 : n2 ≠ 0)
    (hskip1 : skipSpaces f1 n1 = some (c1 :: f1', m1))
    (hskip2 : skipSpaces f2 n2 = some (c2 :: f2', m2)) :
    typeNameCompLoop (fuel + 1) f1 n1 f2 n2 outside =
      let outside := outside || decide (m1 ≤ 0) || decide (m2 ≤ 0)
      if c1 ≠ c2 then some (if c2 < c1 then 1 else -1, outside)
      else typeNameCompLoop fuel f1' (m1 - 1) f2' (m2 - 1) outside := by
  rw [typeNameCompLoop, if_pos ⟨h1, h2⟩, hskip1, hskip2]

theorem typeNameCompLoop_end {fuel : Nat} {f1 f2 : List Char} {n1 n2 : Int} {outside : Bool}
    (h : ¬ (n1 ≠ 0 ∧ n2 ≠ 0)) :
    typeNameCompLoop (fuel + 1) f1 n1 f2 n2 outside = some (n1 - n2, outside) := by
  rw [typeNameCompLoop, if_neg h]

theorem endsApart_next {t1 t2 t1' t2' : List Char} {c : Char} (h1 : NextChar t1 c t1')
    (h2 : NextChar t2 c t2') : EndsApart t1 t2 ↔ EndsApart t1' t2' := by
  unfold EndsApart
  rw [h1.spaceless, h2.spaceless, List.cons_prefix_cons, List.cons_prefix_cons, h1.ends, h2.ends]
  simp only [true_and]

/-- What was read outside is not forgotten. -/
theorem typeNameCompLoop_outside {fuel : Nat} {f1 f2 : List Char} {n1 n2 r : Int} {b : Bool}
    (h : typeNameCompLoop fuel f1 n1 f2 n2 true = some (r, b)) : b = true := by
  induction fuel generalizing f1 f2 n1 n2 with
  | zero => exact nomatch h
  | succ fuel ih =>
      rw [typeNameCompLoop] at h
      split at h
      · split at h
        · dsimp only at h
          rw [Bool.true_or, Bool.true_or] at h
          split at h
          · exact (Prod.mk.inj (Option.some.inj h)).2.symm
          · exact ih h
        · exact nomatch h
      · exact (Prod.mk.inj (Option.some.inj h)).2.symm

/-- A turn that reads at or behind an end. -/
theorem typeNameCompLoop_reads {fuel : Nat} {f1 f2 : List Char} {n1 n2 r : Int} {b outside : Bool}
    (h1 : n1 ≠ 0) (h2 : n2 ≠ 0)
    (hend : ∀ f1' m1 f2' m2, skipSpaces f1 n1 = some (f1', m1) → skipSpaces f2 n2 = some (f2', m2) →
      m1 ≤ 0 ∨ m2 ≤ 0)
    (h : typeNameCompLoop (fuel + 1) f1 n1 f2 n2 outside = some (r, b)) : b = true := by
  rw [typeNameCompLoop, if_pos ⟨h1, h2⟩] at h
  split at h
  · rename_i c1 f1' m1 c2 f2' m2 hskip1 hskip2
    have hread : (outside || decide (m1 ≤ 0) || decide (m2 ≤ 0)) = true := by
      rcases hend _ _ _ _ hskip1 hskip2 with hm | hm
      · rw [decide_eq_true hm, Bool.or_true, Bool.true_or]
      · rw [decide_eq_true hm, Bool.or_true]
    dsimp only at h
    rw [hread] at h
    split at h
    · exact (Prod.mk.inj (Option.some.inj h)).2.symm
    · exact typeNameCompLoop_outside h
  · exact nomatch h

theorem endsApart_comm {t1 t2 : List Char} : EndsApart t1 t2 ↔ EndsApart t2 t1 := And.comm

theorem length_ne_zero {t : List Char} (h : t ≠ []) : (t.length : Int) ≠ 0 := by
  have := List.length_pos_of_ne_nil h
  omega

/-- Where spaces are left the character behind them is read. -/
theorem AllSpaces.reads {t behind f : List Char} {m : Int} (h : AllSpaces t)
    (hskip : skipSpaces (t ++ behind) t.length = some (f, m)) : m ≤ 0 := by
  cases behind with
  | nil =>
      rw [List.append_nil, h.runs] at hskip
      exact nomatch hskip
  | cons x rest =>
      rw [h.skips] at hskip
      exact le_of_eq (Prod.mk.inj (Option.some.inj hskip)).2.symm

/-- Nothing is left of a text. -/
theorem endsApart_nil (t : List Char) : EndsApart [] t ↔ (t = [] ↔ spaceless t = []) := by
  rcases text_cases t with rfl | hspaces | ⟨c, t', hnext⟩
  · exact ⟨fun _ => ⟨fun _ => rfl, fun _ => rfl⟩, fun _ =>
      ⟨fun _ => not_endsInSpace_nil, fun _ => not_endsInSpace_nil⟩⟩
  · constructor
    · intro h
      refine absurd hspaces.ends (h.2 ?_)
      rw [hspaces.spaceless]
      exact List.nil_prefix
    · exact fun h => absurd (h.2 hspaces.spaceless) hspaces.nonempty
  · constructor
    · intro _
      refine ⟨fun h => absurd h (List.ne_nil_of_mem hnext.mem), fun h => ?_⟩
      rw [hnext.spaceless] at h
      exact nomatch h
    · intro _
      refine ⟨fun _ => not_endsInSpace_nil, fun h => ?_⟩
      rw [hnext.spaceless] at h
      exact absurd (List.prefix_nil.1 h) (List.cons_ne_nil _ _)

theorem AllSpaces.not_endsApart {t1 t2 : List Char} (h : AllSpaces t1) : ¬ EndsApart t1 t2 := by
  intro hends
  refine hends.1 ?_ h.ends
  rw [h.spaceless]
  exact List.nil_prefix

/-- From two places in the texts on. -/
theorem nameComp_right_iff {behind1 behind2 : List Char} {fuel : Nat} {t1 t2 : List Char}
    (hfuel : t1.length < fuel) :
    (∃ r, typeNameCompLoop fuel (t1 ++ behind1) t1.length (t2 ++ behind2) t2.length false =
        some (r, false) ∧ (r = 0 ↔ spaceless t1 = spaceless t2)) ↔ EndsApart t1 t2 := by
  induction fuel generalizing t1 t2 with
  | zero => omega
  | succ fuel ih =>
      have hempty : t1 = [] ∨ t2 = [] →
          ((∃ r, typeNameCompLoop (fuel + 1) (t1 ++ behind1) t1.length (t2 ++ behind2) t2.length
              false = some (r, false) ∧ (r = 0 ↔ spaceless t1 = spaceless t2)) ↔
            (t1.length = t2.length ↔ spaceless t1 = spaceless t2)) := by
        intro h
        have hstop : ¬ ((t1.length : Int) ≠ 0 ∧ (t2.length : Int) ≠ 0) := by
          rcases h with rfl | rfl <;> simp
        rw [typeNameCompLoop_end hstop]
        constructor
        · rintro ⟨r, hr, hiff⟩
          rw [← hiff, ← (Prod.mk.inj (Option.some.inj hr)).1]
          omega
        · intro hiff
          refine ⟨_, rfl, ?_⟩
          rw [← hiff]
          omega
      rcases text_cases t1 with rfl | hspaces1 | ⟨c1, t1', hnext1⟩
      · rw [hempty (Or.inl rfl), endsApart_nil]
        exact iff_congr (eq_comm.trans List.length_eq_zero_iff) eq_comm
      · by_cases hnil : t2 = []
        · subst hnil
          rw [hempty (Or.inr rfl), endsApart_comm, endsApart_nil]
          exact iff_congr List.length_eq_zero_iff Iff.rfl
        · refine ⟨fun ⟨r, hr, _⟩ => ?_, fun h => absurd h hspaces1.not_endsApart⟩
          have hread := typeNameCompLoop_reads (length_ne_zero hspaces1.nonempty)
            (length_ne_zero hnil) (fun _ _ _ _ hskip _ => Or.inl (hspaces1.reads hskip)) hr
          exact absurd hread Bool.false_ne_true
      · rcases text_cases t2 with rfl | hspaces2 | ⟨c2, t2', hnext2⟩
        · rw [hempty (Or.inr rfl), endsApart_comm, endsApart_nil]
          exact iff_congr List.length_eq_zero_iff Iff.rfl
        · refine ⟨fun ⟨r, hr, _⟩ => ?_, fun h =>
            absurd (endsApart_comm.1 h) hspaces2.not_endsApart⟩
          have hread := typeNameCompLoop_reads (length_ne_zero (List.ne_nil_of_mem hnext1.mem))
            (length_ne_zero hspaces2.nonempty)
            (fun _ _ _ _ _ hskip => Or.inr (hspaces2.reads hskip)) hr
          exact absurd hread Bool.false_ne_true
        · rw [typeNameCompLoop_next (length_ne_zero (List.ne_nil_of_mem hnext1.mem))
            (length_ne_zero (List.ne_nil_of_mem hnext2.mem)) (hnext1.skips behind1)
            (hnext2.skips behind2)]
          have hinside : (false || decide ((t1'.length : Int) + 1 ≤ 0) ||
              decide ((t2'.length : Int) + 1 ≤ 0)) = false := by
            rw [decide_eq_false (by omega), decide_eq_false (by omega)]
            rfl
          dsimp only
          rw [hinside]
          by_cases hc : c1 = c2
          · subst hc
            have hshorter := hnext1.shorter
            rw [if_neg (fun h => h rfl), Int.add_sub_cancel, Int.add_sub_cancel,
              endsApart_next hnext1 hnext2, ← ih (by omega), hnext1.spaceless, hnext2.spaceless]
            simp only [List.cons.injEq, true_and]
          · rw [if_pos hc]
            have hne : spaceless t1 ≠ spaceless t2 := by
              rw [hnext1.spaceless, hnext2.spaceless]
              exact fun h => hc (List.cons.inj h).1
            constructor
            · intro _
              refine ⟨fun h => ?_, fun h => ?_⟩
              · rw [hnext1.spaceless, hnext2.spaceless, List.cons_prefix_cons] at h
                exact absurd h.1 hc
              · rw [hnext1.spaceless, hnext2.spaceless, List.cons_prefix_cons] at h
                exact absurd h.1.symm hc
            · intro _
              refine ⟨_, rfl, fun h => ?_, fun h => absurd h hne⟩
              split at h <;> omega

/-! ## A name in a list of names -/

/-- What a comparison answers: it may run past both texts, and is zero for what is the same. -/
def Answers (answer : Option (Int × Bool)) (lost same : Prop) : Prop :=
  (lost → answer = none) ∧ (¬ lost → ∃ r b, answer = some (r, b) ∧ (r = 0 ↔ same))

theorem answers_some {r : Int} {b : Bool} {lost same : Prop} (hlost : ¬ lost)
    (h : r = 0 ↔ same) : Answers (some (r, b)) lost same :=
  ⟨fun hl => absurd hl hlost, fun _ => ⟨r, b, rfl, h⟩⟩

theorem Answers.congr {answer : Option (Int × Bool)} {lost lost' same same' : Prop}
    (h : Answers answer lost same) (hlost : lost' ↔ lost) (hsame : same' ↔ same) :
    Answers answer lost' same' := by
  refine ⟨fun hl => h.1 (hlost.1 hl), fun hl => ?_⟩
  obtain ⟨r, b, hr, hiff⟩ := h.2 fun hl' => hl (hlost.2 hl')
  exact ⟨r, b, hr, hiff.trans hsame.symm⟩

theorem sign_ne_zero {p : Prop} [Decidable p] : (if p then (1 : Int) else -1) ≠ 0 := by
  split <;> omega

/-- Behind the two null characters. -/
theorem typeNameCompLoop_ran {fuel : Nat} {n1 n2 : Int} {b : Bool} (h1 : n1 ≠ 0) (h2 : n2 ≠ 0) :
    typeNameCompLoop fuel [] n1 [] n2 b = none := by
  cases fuel with
  | zero => rfl
  | succ fuel =>
      rw [typeNameCompLoop, if_pos ⟨h1, h2⟩]
      rfl

/-- What a pointer meets next in a text that it runs over without looking at its end: the null
character or a character that is no space. -/
theorem skipsPast_text (t : List Char) {n : Int} (hn : n < 0) :
    (spaceless t = [] ∧ ∃ m : Int, m < 0 ∧ skipSpaces (t ++ ['\x00']) n = some (['\x00'], m)) ∨
      ∃ c t', NextChar t c t' := by
  rcases text_cases t with rfl | hspaces | hnext
  · refine Or.inl ⟨rfl, n, hn, ?_⟩
    rw [List.nil_append, skipSpaces, if_neg fun h => absurd h.1 (by decide)]
  · exact Or.inl ⟨hspaces.spaceless, n - t.length, by omega,
      hspaces.skipsPast _ _ n (by decide) hn⟩
  · exact Or.inr hnext

/-- Once the comparison has gone past the end of a name it runs to the null character. -/
theorem nameComp_past {fuel : Nat} {f t : List Char} {n : Int} {b : Bool} (hn : n < 0)
    (hf : '\x00' ∉ f) (ht : '\x00' ∉ t) (hfuel : f.length + 1 < fuel) :
    Answers (typeNameCompLoop fuel (f ++ ['\x00']) n (t ++ ['\x00']) t.length b)
      (EndsInSpace t ∧ spaceless f = spaceless t) False := by
  induction fuel generalizing f t n b with
  | zero => omega
  | succ fuel ih =>
      have hn0 : n ≠ 0 := by omega
      rcases text_cases t with rfl | hspaces | ⟨c2, t', hnext2⟩
      · have hstop : ¬ (n ≠ 0 ∧ ((([] : List Char).length : Nat) : Int) ≠ 0) := fun h => h.2 rfl
        rw [typeNameCompLoop_end hstop]
        refine answers_some (fun h => not_endsInSpace_nil h.1) ⟨fun h => ?_, False.elim⟩
        rw [List.length_nil] at h
        omega
      · have ht0 := length_ne_zero hspaces.nonempty
        rcases skipsPast_text f hn with ⟨hempty, m, hm, hskip⟩ | ⟨c1, f', hnext1⟩
        · rw [typeNameCompLoop_next hn0 ht0 hskip (hspaces.skips _ _)]
          dsimp only
          rw [if_neg (fun h => h rfl), typeNameCompLoop_ran (by omega) (by omega)]
          exact ⟨fun _ => rfl, fun h => absurd ⟨hspaces.ends, hempty.trans hspaces.spaceless.symm⟩ h⟩
        · obtain ⟨m, hm, hskip⟩ := hnext1.skipsPast ['\x00'] n hn
          rw [typeNameCompLoop_next hn0 ht0 hskip (hspaces.skips _ _)]
          dsimp only
          have hc : c1 ≠ '\x00' := fun h => hf (h ▸ hnext1.mem)
          rw [if_pos hc]
          refine answers_some (fun h => ?_) ⟨fun h => absurd h sign_ne_zero, False.elim⟩
          rw [hnext1.spaceless, hspaces.spaceless] at h
          exact nomatch h.2
      · have ht0 := length_ne_zero (List.ne_nil_of_mem hnext2.mem)
        rcases skipsPast_text f hn with ⟨hempty, m, hm, hskip⟩ | ⟨c1, f', hnext1⟩
        · rw [typeNameCompLoop_next hn0 ht0 hskip (hnext2.skips _)]
          dsimp only
          have hc : '\x00' ≠ c2 := fun h => ht (h ▸ hnext2.mem)
          rw [if_pos hc]
          refine answers_some (fun h => ?_) ⟨fun h => absurd h sign_ne_zero, False.elim⟩
          rw [hempty, hnext2.spaceless] at h
          exact nomatch h.2
        · obtain ⟨m, hm, hskip⟩ := hnext1.skipsPast ['\x00'] n hn
          rw [typeNameCompLoop_next hn0 ht0 hskip (hnext2.skips _)]
          dsimp only
          by_cases hc : c1 = c2
          · subst hc
            have hshorter := hnext1.shorter
            rw [if_neg (fun h => h rfl), Int.add_sub_cancel]
            refine (ih (by omega) (fun h => hf (hnext1.sub _ h)) (fun h => ht (hnext2.sub _ h))
              (by omega)).congr ?_ Iff.rfl
            rw [hnext2.ends, hnext1.spaceless, hnext2.spaceless, List.cons.injEq]
            simp only [true_and]
          · rw [if_pos hc]
            refine answers_some (fun h => ?_) ⟨fun h => absurd h sign_ne_zero, False.elim⟩
            rw [hnext1.spaceless, hnext2.spaceless] at h
            exact hc (List.cons.inj h.2).1

theorem spaceless_append (t t' : List Char) : spaceless (t ++ t') = spaceless t ++ spaceless t' :=
  List.filter_append ..

theorem spaceless_eq_nil {t : List Char} : spaceless t = [] ∧ ¬ EndsInSpace t ↔ t = [] := by
  rcases text_cases t with rfl | hspaces | ⟨c, t', hnext⟩
  · exact ⟨fun _ => rfl, fun _ => ⟨rfl, not_endsInSpace_nil⟩⟩
  · exact ⟨fun h => absurd hspaces.ends h.2, fun h => absurd h hspaces.nonempty⟩
  · refine ⟨fun h => ?_, fun h => absurd h (List.ne_nil_of_mem hnext.mem)⟩
    rw [hnext.spaceless] at h
    exact nomatch h.1

/-- Where the name has nothing but spaces left. -/
theorem nameComp_spaces {fuel : Nat} {name rest t : List Char} {b : Bool}
    (hspaces1 : AllSpaces name) (hrest : '\x00' ∉ rest)
    (hhead : rest = [] ∨ ∃ rest', rest = '|' :: rest') (ht : '\x00' ∉ t)
    (hfuel : (name ++ rest).length < fuel) :
    Answers (typeNameCompLoop (fuel + 1) (name ++ (rest ++ ['\x00'])) name.length
        (t ++ ['\x00']) t.length b)
      (EndsInSpace name ∧ EndsInSpace t ∧ spaceless (name ++ rest) = spaceless t)
      (spaceless name = spaceless t ∧ ¬ EndsInSpace name ∧ ¬ EndsInSpace t) := by
  have hn0 := length_ne_zero hspaces1.nonempty
  have hnotsame : ¬ (spaceless name = spaceless t ∧ ¬ EndsInSpace name ∧ ¬ EndsInSpace t) :=
    fun h => h.2.1 hspaces1.ends
  rcases text_cases t with rfl | hspaces2 | ⟨c2, t', hnext2⟩
  · have hstop : ¬ ((name.length : Int) ≠ 0 ∧ ((([] : List Char).length : Nat) : Int) ≠ 0) :=
      fun h => h.2 rfl
    rw [typeNameCompLoop_end hstop]
    refine answers_some (fun h => not_endsInSpace_nil h.2.1)
      ⟨fun h => absurd h ?_, fun h => absurd h hnotsame⟩
    rw [List.length_nil]
    omega
  · have ht0 := length_ne_zero hspaces2.nonempty
    rcases hhead with rfl | ⟨rest', rfl⟩
    · rw [List.nil_append, typeNameCompLoop_next hn0 ht0 (hspaces1.skips _ _)
        (hspaces2.skips _ _)]
      dsimp only
      rw [if_neg (fun h => h rfl), typeNameCompLoop_ran (by omega) (by omega)]
      refine ⟨fun _ => rfl, fun h => absurd ⟨hspaces1.ends, hspaces2.ends, ?_⟩ h⟩
      rw [List.append_nil, hspaces1.spaceless, hspaces2.spaceless]
    · rw [List.cons_append, typeNameCompLoop_next hn0 ht0 (hspaces1.skips _ _)
        (hspaces2.skips _ _)]
      dsimp only
      have hc : '|' ≠ '\x00' := by decide
      rw [if_pos hc]
      refine answers_some (fun h => ?_)
        ⟨fun h => absurd h sign_ne_zero, fun h => absurd h hnotsame⟩
      have hsame := h.2.2
      rw [spaceless_append, hspaces1.spaceless, hspaces2.spaceless,
        spaceless_cons (by decide)] at hsame
      exact nomatch hsame
  · have ht0 := length_ne_zero (List.ne_nil_of_mem hnext2.mem)
    rcases hhead with rfl | ⟨rest', rfl⟩
    · rw [List.nil_append, typeNameCompLoop_next hn0 ht0 (hspaces1.skips _ _)
        (hnext2.skips _)]
      dsimp only
      have hc : '\x00' ≠ c2 := fun h => ht (h ▸ hnext2.mem)
      rw [if_pos hc]
      refine answers_some (fun h => ?_)
        ⟨fun h => absurd h sign_ne_zero, fun h => absurd h hnotsame⟩
      have hsame := h.2.2
      rw [List.append_nil, hspaces1.spaceless, hnext2.spaceless] at hsame
      exact nomatch hsame
    · rw [List.cons_append, typeNameCompLoop_next hn0 ht0 (hspaces1.skips _ _)
        (hnext2.skips _)]
      dsimp only
      by_cases hc : '|' = c2
      · subst hc
        rw [if_neg (fun h => h rfl), Int.add_sub_cancel]
        rw [List.length_append, List.length_cons] at hfuel
        refine (nameComp_past (by omega) (fun h => hrest (List.mem_cons_of_mem _ h))
          (fun h => ht (hnext2.sub _ h)) (by omega)).congr ?_ ?_
        · rw [spaceless_append, hspaces1.spaceless, spaceless_cons (by decide),
            hnext2.spaceless, hnext2.ends, List.nil_append, List.cons.injEq]
          simp only [hspaces1.ends, true_and]
        · exact ⟨fun h => absurd h hnotsame, False.elim⟩
      · rw [if_pos hc]
        refine answers_some (fun h => ?_)
          ⟨fun h => absurd h sign_ne_zero, fun h => absurd h hnotsame⟩
        have hsame := h.2.2
        rw [spaceless_append, hspaces1.spaceless, spaceless_cons (by decide),
          hnext2.spaceless] at hsame
        exact hc (List.cons.inj hsame).1

/-- The name that is compared and what stands behind it. -/
theorem nameComp_listed {fuel : Nat} {name rest t : List Char} {b : Bool}
    (hname : '\x00' ∉ name) (hrest : '\x00' ∉ rest)
    (hhead : rest = [] ∨ ∃ rest', rest = '|' :: rest') (ht : '\x00' ∉ t)
    (hfuel : (name ++ rest).length + 1 < fuel) :
    Answers (typeNameCompLoop fuel (name ++ (rest ++ ['\x00'])) name.length
        (t ++ ['\x00']) t.length b)
      (EndsInSpace name ∧ EndsInSpace t ∧ spaceless (name ++ rest) = spaceless t)
      (spaceless name = spaceless t ∧ ¬ EndsInSpace name ∧ ¬ EndsInSpace t) := by
  induction fuel generalizing name t b with
  | zero => omega
  | succ fuel ih =>
      rcases text_cases name with rfl | hspaces1 | ⟨c1, name', hnext1⟩
      · have hstop : ¬ (((([] : List Char).length : Nat) : Int) ≠ 0 ∧ (t.length : Int) ≠ 0) :=
          fun h => h.1 rfl
        rw [typeNameCompLoop_end hstop]
        refine answers_some (fun h => not_endsInSpace_nil h.1) ?_
        have hnil := @spaceless_eq_nil t
        rw [List.length_nil]
        constructor
        · intro h
          have htnil : t = [] := List.length_eq_zero_iff.1 (by omega)
          subst htnil
          exact ⟨rfl, not_endsInSpace_nil, not_endsInSpace_nil⟩
        · intro h
          rw [hnil.1 ⟨h.1.symm, h.2.2⟩]
          rfl
      · exact nameComp_spaces hspaces1 hrest hhead ht (by omega)
      · have hn0 := length_ne_zero (List.ne_nil_of_mem hnext1.mem)
        have hspaceless : spaceless (name ++ rest) = c1 :: spaceless (name' ++ rest) := by
          rw [spaceless_append, spaceless_append, hnext1.spaceless, List.cons_append]
        rcases text_cases t with rfl | hspaces2 | ⟨c2, t', hnext2⟩
        · have hstop : ¬ ((name.length : Int) ≠ 0 ∧ ((([] : List Char).length : Nat) : Int) ≠ 0) :=
            fun h => h.2 rfl
          rw [typeNameCompLoop_end hstop]
          refine answers_some (fun h => not_endsInSpace_nil h.2.1)
            ⟨fun h => absurd h ?_, fun h => ?_⟩
          · rw [List.length_nil]
            omega
          · rw [hnext1.spaceless] at h
            exact nomatch h.1
        · rw [typeNameCompLoop_next hn0 (length_ne_zero hspaces2.nonempty) (hnext1.skips _)
            (hspaces2.skips _ _)]
          dsimp only
          have hc : c1 ≠ '\x00' := fun h => hname (h ▸ hnext1.mem)
          rw [if_pos hc]
          refine answers_some (fun h => ?_) ⟨fun h => absurd h sign_ne_zero, fun h => ?_⟩
          · have hsame := h.2.2
            rw [hspaceless, hspaces2.spaceless] at hsame
            exact nomatch hsame
          · exact absurd hspaces2.ends h.2.2
        · rw [typeNameCompLoop_next hn0 (length_ne_zero (List.ne_nil_of_mem hnext2.mem))
            (hnext1.skips _) (hnext2.skips _)]
          dsimp only
          by_cases hc : c1 = c2
          · subst hc
            have hshorter := hnext1.shorter
            rw [List.length_append] at hfuel
            rw [if_neg (fun h => h rfl), Int.add_sub_cancel, Int.add_sub_cancel]
            refine (ih (fun h => hname (hnext1.sub _ h))
              (fun h => ht (hnext2.sub _ h)) (by rw [List.length_append]; omega)).congr ?_ ?_
            · rw [hspaceless, hnext1.ends, hnext2.ends, hnext2.spaceless, List.cons.injEq]
              simp only [true_and]
            · rw [hnext1.spaceless, hnext1.ends, hnext2.ends, hnext2.spaceless, List.cons.injEq]
              simp only [true_and]
          · rw [if_pos hc]
            refine answers_some (fun h => ?_) ⟨fun h => absurd h sign_ne_zero, fun h => ?_⟩
            · have hsame := h.2.2
              rw [hspaceless, hnext2.spaceless] at hsame
              exact hc (List.cons.inj hsame).1
            · rw [hnext1.spaceless, hnext2.spaceless] at h
              exact absurd (List.cons.inj h.1).1 hc

/-! ## The list of names -/

theorem separatedNames_of_not_mem {nb : List Char} (h : '|' ∉ nb) : separatedNames nb = [nb] :=
  List.splitOn_eq_singleton h

theorem separatedNames_bar {name : List Char} (h : '|' ∉ name) (rest : List Char) :
    separatedNames (name ++ '|' :: rest) = name :: separatedNames rest :=
  List.splitOn_append_cons_self_of_not_mem h ..

theorem separatedNames_ne_nil (nb : List Char) : separatedNames nb ≠ [] :=
  List.splitOn_ne_nil _ _

theorem mem_separatedNames {name nb : List Char} (h : name ∈ comparedNames nb) :
    name ∈ separatedNames nb := by
  unfold comparedNames at h
  split at h
  · exact List.mem_of_mem_dropLast h
  · exact h

theorem comparedNames_bar {name : List Char} (h : '|' ∉ name) (rest : List Char) :
    comparedNames (name ++ '|' :: rest) = name :: comparedNames rest := by
  unfold comparedNames
  rw [separatedNames_bar h, List.getLast?_cons_of_ne_nil (separatedNames_ne_nil rest),
    List.dropLast_cons_of_ne_nil (separatedNames_ne_nil rest)]
  split <;> rfl

/-- A list of names is one name, or a name before a bar. -/
theorem names_cases (nb : List Char) :
    '|' ∉ nb ∧ nb.takeWhile (· ≠ '|') = nb ∨
      ∃ name rest, nb = name ++ '|' :: rest ∧ '|' ∉ name ∧ nb.takeWhile (· ≠ '|') = name := by
  induction nb with
  | nil => exact Or.inl ⟨List.not_mem_nil, rfl⟩
  | cons c nb ih =>
      by_cases hc : c = '|'
      · subst hc
        exact Or.inr ⟨[], nb, rfl, List.not_mem_nil, rfl⟩
      · have htake : (c :: nb).takeWhile (· ≠ '|') = c :: nb.takeWhile (· ≠ '|') :=
          List.takeWhile_cons_of_pos (by simpa using hc)
        rw [htake]
        rcases ih with ⟨hbar, htake'⟩ | ⟨name, rest, rfl, hbar, htake'⟩
        · refine Or.inl ⟨fun h => ?_, congrArg (c :: ·) htake'⟩
          rcases List.mem_cons.1 h with h | h
          · exact hc h.symm
          · exact hbar h
        · refine Or.inr ⟨c :: name, rest, rfl, fun h => ?_, congrArg (c :: ·) htake'⟩
          rcases List.mem_cons.1 h with h | h
          · exact hc h.symm
          · exact hbar h

theorem lost_one {nb tb : List Char} (h : '|' ∉ nb) :
    Lost nb tb ↔ EndsInSpace nb ∧ EndsInSpace tb ∧ spaceless nb = spaceless tb := by
  have hinter : ['|'].intercalate [nb] = nb := by
    rw [← separatedNames_of_not_mem h]
    exact List.intercalate_splitOn _
  unfold Lost
  rw [separatedNames_of_not_mem h]
  constructor
  · rintro ⟨before, name, others, hsplit, hends, htb, hsame⟩
    cases before with
    | nil =>
        obtain ⟨rfl, rfl⟩ := List.cons.inj hsplit
        exact ⟨hends, htb, hinter ▸ hsame⟩
    | cons x before => exact absurd (List.cons.inj hsplit).2.symm (by simp)
  · rintro ⟨hends, htb, hsame⟩
    exact ⟨[], nb, [], rfl, hends, htb, by rw [hinter, hsame]⟩

theorem lost_bar {name rest tb : List Char} (h : '|' ∉ name) :
    Lost (name ++ '|' :: rest) tb ↔
      (EndsInSpace name ∧ EndsInSpace tb ∧ spaceless (name ++ '|' :: rest) = spaceless tb) ∨
        Lost rest tb := by
  have hinter : ['|'].intercalate (name :: separatedNames rest) = name ++ '|' :: rest := by
    rw [← separatedNames_bar h]
    exact List.intercalate_splitOn _
  unfold Lost
  rw [separatedNames_bar h]
  constructor
  · rintro ⟨before, name', others, hsplit, hends, htb, hsame⟩
    cases before with
    | nil =>
        obtain ⟨rfl, rfl⟩ := List.cons.inj hsplit
        exact Or.inl ⟨hends, htb, hinter ▸ hsame⟩
    | cons x before =>
        exact Or.inr ⟨before, name', others, (List.cons.inj hsplit).2, hends, htb, hsame⟩
  · rintro (⟨hends, htb, hsame⟩ | ⟨before, name', others, hsplit, hends, htb, hsame⟩)
    · exact ⟨[], name, _, rfl, hends, htb, by rw [hinter, hsame]⟩
    · exact ⟨name :: before, name', others, by rw [hsplit]; rfl, hends, htb, hsame⟩

theorem typeCmpLoop_stop {tb : CText} {fuel : Nat} {ne : List Char} {equiv : Int}
    (hfuel : 0 < fuel) (h : equiv = 0 ∨ ne = []) : typeCmpLoop tb fuel ne equiv = some equiv := by
  obtain ⟨fuel, rfl⟩ : ∃ k, fuel = k + 1 := ⟨fuel - 1, by omega⟩
  rw [typeCmpLoop, if_neg]
  exact fun hne => h.elim hne.1 hne.2

theorem typeCmpLoop_names (tb : CText) {fuel : Nat} {ne : List Char} {equiv : Int}
    (hne : '\x00' ∉ ne) (hequiv : equiv ≠ 0) (hfuel : ne.length < fuel) :
    (Lost ne tb.1 → typeCmpLoop tb fuel ne equiv = none) ∧
      (¬ Lost ne tb.1 → ∃ r, typeCmpLoop tb fuel ne equiv = some r ∧ (r = 0 ↔ Found ne tb.1)) := by
  induction fuel generalizing ne equiv with
  | zero => omega
  | succ fuel ih =>
      by_cases hnil : ne = []
      · subst hnil
        have hlost : ¬ Lost [] tb.1 := by
          rw [lost_one List.not_mem_nil]
          exact fun h => not_endsInSpace_nil h.1
        refine ⟨fun h => absurd h hlost, fun _ => ⟨equiv, typeCmpLoop_stop (by omega) (Or.inr rfl),
          fun h => absurd h hequiv, ?_⟩⟩
        rintro ⟨name, hname, -⟩
        exact absurd hname List.not_mem_nil
      · rcases names_cases ne with ⟨hbar, htake⟩ | ⟨name, rest, rfl, hbar, htake⟩
        · have hanswer := @nameComp_listed ((ne ++ ['\x00']).length + 1) ne [] tb.1 false hne
            List.not_mem_nil (Or.inl rfl) tb.2
            (by rw [List.append_nil, List.length_append, List.length_singleton]; omega)
          rw [List.append_nil, List.nil_append] at hanswer
          have hpos := List.length_pos_of_ne_nil hnil
          have hcompared : comparedNames ne = [ne] := by
            unfold comparedNames
            have hlast : [ne].getLast? ≠ some [] := fun h => hnil (Option.some.inj h)
            rw [separatedNames_of_not_mem hbar, if_neg hlast]
          have hfound : Found ne tb.1 ↔
              spaceless ne = spaceless tb.1 ∧ ¬ EndsInSpace ne ∧ ¬ EndsInSpace tb.1 := by
            unfold Found
            rw [hcompared]
            simp only [List.mem_singleton, exists_eq_left]
          rw [typeCmpLoop, if_pos ⟨hequiv, hnil⟩, htake, lost_one hbar, hfound]
          unfold typeNameComp
          dsimp only
          refine ⟨fun hlost => ?_, fun hlost => ?_⟩
          · rw [CText.buffer, hanswer.1 ⟨hlost.1, hlost.2.1, hlost.2.2⟩]
          · obtain ⟨r, b, hr, hiff⟩ := hanswer.2 hlost
            rw [CText.buffer, hr]
            refine ⟨r, typeCmpLoop_stop (by omega) (Or.inr ?_), hiff⟩
            exact List.drop_of_length_le (by omega)
        · have hanswer := @nameComp_listed ((name ++ '|' :: rest ++ ['\x00']).length + 1) name
            ('|' :: rest) tb.1 false (fun h => hne (List.mem_append_left _ h))
            (fun h => hne (List.mem_append_right _ h)) (Or.inr ⟨rest, rfl⟩) tb.2
            (by simp only [List.length_append, List.length_cons]; omega)
          have hdrop : (name ++ '|' :: rest).drop (name.length + 1) = rest := by
            rw [← List.drop_drop, List.drop_left]
            rfl
          have hfound : Found (name ++ '|' :: rest) tb.1 ↔
              (spaceless name = spaceless tb.1 ∧ ¬ EndsInSpace name ∧ ¬ EndsInSpace tb.1) ∨
                Found rest tb.1 := by
            unfold Found
            rw [comparedNames_bar hbar]
            simp only [List.mem_cons, exists_eq_or_imp]
          rw [List.length_append, List.length_cons] at hfuel
          rw [typeCmpLoop, if_pos ⟨hequiv, hnil⟩, htake, lost_bar hbar, hfound]
          unfold typeNameComp
          dsimp only
          rw [hdrop, CText.buffer, List.append_assoc, List.cons_append]
          rw [List.append_assoc, List.cons_append] at hanswer
          have hrest : '\x00' ∉ rest := fun h =>
            hne (List.mem_append_right _ (List.mem_cons_of_mem _ h))
          by_cases hhere : EndsInSpace name ∧ EndsInSpace tb.1 ∧
              spaceless (name ++ '|' :: rest) = spaceless tb.1
          · rw [hanswer.1 hhere]
            exact ⟨fun _ => rfl, fun h => absurd (Or.inl hhere) h⟩
          · obtain ⟨r, b, hr, hiff⟩ := hanswer.2 hhere
            rw [hr]
            dsimp only
            by_cases hzero : r = 0
            · have hsame := hiff.1 hzero
              have hlost : ¬ Lost rest tb.1 := fun ⟨_, _, _, _, _, htb, _⟩ => hsame.2.2 htb
              refine ⟨fun h => absurd h (not_or.2 ⟨hhere, hlost⟩), fun _ => ?_⟩
              refine ⟨r, typeCmpLoop_stop (by omega) (Or.inl hzero), fun _ => Or.inl hsame,
                fun _ => hzero⟩
            · obtain ⟨hlostRest, hfoundRest⟩ := @ih rest r hrest hzero (by omega)
              refine ⟨fun h => hlostRest (h.resolve_left hhere), fun h => ?_⟩
              obtain ⟨r', hr', hiff'⟩ := hfoundRest fun hl => h (Or.inr hl)
              refine ⟨r', hr', hiff'.trans ⟨Or.inr, fun h => ?_⟩⟩
              exact h.resolve_left fun hsame => hzero (hiff.2 hsame)

/-! ## The results -/

theorem typeCmp_right_iff (nb tb : CText) : TypeCmpRight nb tb ↔ NamesEndApart nb.1 tb.1 := by
  obtain ⟨hlost, hfound⟩ := typeCmpLoop_names tb nb.2 (show (1 : Int) ≠ 0 by omega)
    (Nat.lt_succ_self nb.1.length)
  constructor
  · rintro ⟨r, hr, hiff⟩
    have hnot : ¬ Lost nb.1 tb.1 := fun h => by
      rw [typeCmp, hlost h] at hr
      exact nomatch hr
    obtain ⟨r', hr', hiff'⟩ := hfound hnot
    obtain rfl : r = r' := Option.some.inj (hr.symm.trans hr')
    refine ⟨fun h => ?_, fun htb before name others hsplit hname hsame =>
      hnot ⟨before, name, others, hsplit, hname, htb, hsame⟩⟩
    obtain ⟨name, hname, hsame, hends, htb⟩ := hiff'.1 (hiff.2 h)
    exact ⟨htb, name, hname, hsame, hends⟩
  · rintro ⟨hnames, hrests⟩
    have hnot : ¬ Lost nb.1 tb.1 := fun ⟨before, name, others, hsplit, hname, htb, hsame⟩ =>
      hrests htb before name others hsplit hname hsame
    obtain ⟨r, hr, hiff⟩ := hfound hnot
    refine ⟨r, hr, hiff.trans ⟨?_, fun h => ?_⟩⟩
    · rintro ⟨name, hname, hsame, -⟩
      exact ⟨name, mem_separatedNames hname, hsame⟩
    · obtain ⟨htb, name, hname, hsame, hends⟩ := hnames h
      exact ⟨name, hname, hsame, hends, htb⟩

/-- The comparison of two names, and of a name with the names in a list. -/
theorem typeNames_compared (t1 t2 behind1 behind2 : List Char) (nb tb : CText) :
    (NameCompRight t1 t2 behind1 behind2 ↔ EndsApart t1 t2) ∧
      (TypeCmpRight nb tb ↔ NamesEndApart nb.1 tb.1) :=
  ⟨nameComp_right_iff (by rw [List.length_append]; omega), typeCmp_right_iff nb tb⟩

/-- A space at the end of the name that is looked for is a difference, and one at the end of
the name in the list is gone past with the bar behind it. -/
theorem trailing_space_differs :
    ¬ TypeCmpRight ⟨['a'], by decide⟩ ⟨['a', ' '], by decide⟩ ∧
      ¬ NameCompRight ['a', ' '] ['a', 'b'] ['|'] [] := by
  refine ⟨fun ⟨r, hr, hiff⟩ => ?_, fun ⟨r, hr, _⟩ => ?_⟩
  · have hminus : typeCmp ⟨['a'], by decide⟩ ⟨['a', ' '], by decide⟩ = some (-1) := by decide
    obtain rfl : -1 = r := Option.some.inj (hminus.symm.trans hr)
    have hzero : (-1 : Int) = 0 := hiff.2 ⟨['a'], by decide, by decide⟩
    omega
  · have hread : typeNameComp ['a', ' ', '|'] 2 ['a', 'b'] 2 = some (1, true) := by decide
    exact absurd (Prod.mk.inj (Option.some.inj (hread.symm.trans hr))).2 (by decide)

/-! ## Round the circle -/

namespace ModuleRing

variable (ring : ModuleRing)

/-- How many modules come after this one. -/
def later (iter stop : ring.Iter) : Nat :=
  if iter.1 < stop.1 then stop.1 - iter.1 - 1 else stop.1 + ring.modules.length - iter.1 - 1

theorem later_eq (iter stop : ring.Iter) :
    (stop.1 + ring.modules.length - iter.1 - 1) % ring.modules.length = ring.later iter stop := by
  have hiter := iter.2
  have hstop := stop.2
  unfold later
  by_cases h : iter.1 < stop.1
  · rw [if_pos h, show stop.1 + ring.modules.length - iter.1 - 1 =
      stop.1 - iter.1 - 1 + ring.modules.length by omega, Nat.add_mod_right,
      Nat.mod_eq_of_lt (by omega)]
  · rw [if_neg h, Nat.mod_eq_of_lt (by omega)]

theorem next_val (iter : ring.Iter) :
    (ring.next iter).1 = if iter.1 + 1 < ring.modules.length then iter.1 + 1 else 0 := by
  unfold next
  by_cases h : iter.1 + 1 < ring.modules.length
  · rw [dif_pos h, if_pos h]
  · rw [dif_neg h, if_neg h]

theorem later_next (iter stop : ring.Iter) :
    (ring.next iter = stop ∧ ring.later iter stop = 0) ∨
      (ring.next iter ≠ stop ∧ ring.later iter stop = ring.later (ring.next iter) stop + 1) := by
  have hiter := iter.2
  have hstop := stop.2
  have hnext := ring.next_val iter
  unfold later
  by_cases h : ring.next iter = stop
  · refine Or.inl ⟨h, ?_⟩
    rw [h] at hnext
    by_cases hwrap : iter.1 + 1 < ring.modules.length
    · rw [if_pos hwrap] at hnext
      rw [if_pos (by omega)]
      omega
    · rw [if_neg hwrap] at hnext
      rw [if_neg (by omega)]
      omega
  · refine Or.inr ⟨h, ?_⟩
    have hne : (ring.next iter).1 ≠ stop.1 := fun he => h (Fin.ext he)
    by_cases hwrap : iter.1 + 1 < ring.modules.length
    · rw [if_pos hwrap] at hnext
      by_cases hlt : iter.1 < stop.1
      · rw [if_pos hlt, if_pos (by omega)]
        omega
      · rw [if_neg hlt, if_neg (by omega)]
        omega
    · rw [if_neg hwrap] at hnext
      rw [if_neg (by omega), if_pos (by omega)]
      omega

theorem visited_eq (iter stop : ring.Iter) :
    ring.visited iter stop =
      iter :: if ring.next iter = stop then [] else ring.visited (ring.next iter) stop := by
  have hiter := iter.2
  have hplace : ∀ d, (iter.1 + (d + 1)) % ring.modules.length =
      ((ring.next iter).1 + d) % ring.modules.length := by
    intro d
    rw [next_val]
    by_cases hwrap : iter.1 + 1 < ring.modules.length
    · rw [if_pos hwrap, show iter.1 + (d + 1) = iter.1 + 1 + d by omega]
    · rw [if_neg hwrap, show iter.1 + (d + 1) = 0 + d + ring.modules.length by omega,
        Nat.add_mod_right]
  unfold visited
  dsimp only
  rw [later_eq, later_eq, List.range_succ_eq_map, List.map_cons, List.map_map]
  refine congrArg₂ List.cons (Fin.ext ?_) ?_
  · exact Nat.mod_eq_of_lt hiter
  · rcases ring.later_next iter stop with ⟨hnext, hlater⟩ | ⟨hnext, hlater⟩
    · rw [if_pos hnext, hlater]
      rfl
    · rw [if_neg hnext, hlater]
      exact List.map_congr_left fun d _ => Fin.ext (hplace d)

end ModuleRing

/-- The searches in some modules one after the other. -/
def firstIn {ring : ModuleRing} (search : List TypeNames → Option (Option Nat)) :
    List ring.Iter → Option (Option (ring.Iter × Nat))
  | [] => some none
  | iter :: iters =>
      match search (ring.types iter) with
      | none => none
      | some (some i) => some (some (iter, i))
      | some none => firstIn search iters

theorem searchModules_eq {ring : ModuleRing} (search : List TypeNames → Option (Option Nat))
    {stop iter : ring.Iter} {fuel : Nat} (hfuel : ring.later iter stop < fuel) :
    searchModules ring search stop fuel iter = firstIn search (ring.visited iter stop) := by
  induction fuel generalizing iter with
  | zero => omega
  | succ fuel ih =>
      rw [searchModules, ring.visited_eq iter stop, firstIn]
      cases search (ring.types iter) with
      | none => rfl
      | some found =>
          cases found with
          | some i => rfl
          | none =>
              dsimp only
              rcases ring.later_next iter stop with ⟨hnext, -⟩ | ⟨hnext, hlater⟩
              · rw [if_pos hnext, if_pos hnext, firstIn]
              · rw [if_neg hnext, if_neg hnext, ih (by omega)]

theorem later_lt (ring : ModuleRing) (iter stop : ring.Iter) :
    ring.later iter stop < ring.modules.length := by
  have hiter := iter.2
  have hstop := stop.2
  unfold ModuleRing.later
  split <;> omega

/-! ## The mangled names -/

theorem searchNames_spec {types : List TypeNames} (name : CText)
    (hsorted : (types.map fun t => t.name.1).Pairwise (· ≤ ·)) :
    ∃ answer, searchNames types name = some answer ∧
      (answer = none ↔ ¬ HasMangledName types name) ∧
      ∀ i, answer = some i → (types[i]?.map fun t => t.name.1) = some name.1 := by
  have hhas : HasMangledName types name ↔
      ∃ j : Nat, (types.map fun t => t.name.1)[j]? = some name.1 := by
    rw [← List.mem_iff_getElem?, List.mem_map]
    rfl
  unfold searchNames
  by_cases hempty : types.length = 0
  · rw [if_pos hempty]
    refine ⟨none, rfl, ⟨fun _ h => ?_, fun _ => rfl⟩, (by intro k h; cases h)⟩
    obtain ⟨t, ht, -⟩ := h
    rw [List.length_eq_zero_iff.1 hempty] at ht
    exact absurd ht List.not_mem_nil
  · rw [if_neg hempty]
    obtain ⟨answer, hrun, hfound, hnone⟩ := @bisectIn_spec _ _ name.1 _ hsorted types.length 0
      (types.length - 1) (Nat.zero_le _) (by rw [List.length_map]; omega) (by omega)
    refine ⟨answer, hrun, ?_, fun i hi => by rw [← List.getElem?_map]; exact hfound i hi⟩
    rw [hhas]
    constructor
    · rintro h ⟨j, hj⟩
      obtain ⟨hlt, -⟩ := List.getElem?_eq_some_iff.1 hj
      rw [List.length_map] at hlt
      exact hnone h j (Nat.zero_le _) (by omega) hj
    · intro h
      cases answer with
      | none => rfl
      | some i => exact absurd ⟨i, hfound i rfl⟩ h

theorem ModuleRing.types_sorted (ring : ModuleRing) (iter : ring.Iter) :
    ((ring.types iter).map fun t => t.name.1).Pairwise (· ≤ ·) :=
  ring.sorted _ (List.getElem_mem _)

theorem firstIn_mangled {ring : ModuleRing} (name : CText) (iters : List ring.Iter) :
    ∃ answer, firstIn (searchNames · name) iters = some answer ∧
      (answer = none ↔ ∀ iter ∈ iters, ¬ HasMangledName (ring.types iter) name) ∧
      ∀ iter i, answer = some (iter, i) →
        ((ring.types iter)[i]?.map fun t => t.name.1) = some name.1 ∧
          ∃ before behind, iters = before ++ iter :: behind ∧
            ∀ iter' ∈ before, ¬ HasMangledName (ring.types iter') name := by
  induction iters with
  | nil =>
      exact ⟨none, rfl, ⟨fun _ _ h => absurd h List.not_mem_nil, fun _ => rfl⟩, nofun⟩
  | cons iter iters ih =>
      obtain ⟨here, hrun, hnone, hsome⟩ := searchNames_spec name (ring.types_sorted iter)
      rw [firstIn, hrun]
      cases here with
      | some i =>
          have hhas : HasMangledName (ring.types iter) name := by
            by_contra h
            exact nomatch hnone.2 h
          refine ⟨_, rfl, ⟨nofun, fun h => absurd hhas (h iter List.mem_cons_self)⟩, ?_⟩
          rintro _ _ ⟨⟩
          exact ⟨hsome i rfl, [], iters, rfl, fun _ h => absurd h List.not_mem_nil⟩
      | none =>
          obtain ⟨answer, hrest, hnone', hsome'⟩ := ih
          have hnot := hnone.1 rfl
          refine ⟨answer, hrest, ?_, fun iter' i h => ?_⟩
          · rw [hnone']
            simp only [List.mem_cons, forall_eq_or_imp, hnot, not_false_eq_true, true_and]
          · obtain ⟨hname, before, behind, hsplit, hbefore⟩ := hsome' iter' i h
            refine ⟨hname, iter :: before, behind, by rw [hsplit]; rfl, fun k hk => ?_⟩
            rcases List.mem_cons.1 hk with rfl | hk
            · exact hnot
            · exact hbefore k hk

theorem mangledTypeQuery_eq (ring : ModuleRing) (start stop : ring.Iter) (name : CText) :
    mangledTypeQuery ring start stop name =
      firstIn (searchNames · name) (ring.visited start stop) :=
  searchModules_eq _ (later_lt ring start stop)

theorem mangledQuery_right (ring : ModuleRing) (start stop : ring.Iter) (name : CText) :
    MangledQueryRight ring start stop name := by
  unfold MangledQueryRight
  rw [mangledTypeQuery_eq]
  exact firstIn_mangled name _

/-! ## The human-readable names -/

theorem Found.not_lost {nb nb' tb : List Char} (h : Found nb tb) : ¬ Lost nb' tb := by
  obtain ⟨_, _, _, _, htb⟩ := h
  rintro ⟨_, _, _, _, _, htb', _⟩
  exact htb htb'

theorem typeEquiv_cases (nb tb : CText) :
    (Lost nb.1 tb.1 → typeEquiv nb tb = none) ∧
      (Found nb.1 tb.1 → typeEquiv nb tb = some true) ∧
      (¬ Lost nb.1 tb.1 → ¬ Found nb.1 tb.1 → typeEquiv nb tb = some false) := by
  obtain ⟨hlost, hanswer⟩ := typeCmpLoop_names tb nb.2 (show (1 : Int) ≠ 0 by omega)
    (Nat.lt_succ_self nb.1.length)
  unfold typeEquiv typeCmp
  refine ⟨fun h => by rw [hlost h]; rfl, fun h => ?_, fun h hfound => ?_⟩
  · obtain ⟨r, hr, hiff⟩ := hanswer h.not_lost
    rw [hr, hiff.2 h]
    rfl
  · obtain ⟨r, hr, hiff⟩ := hanswer h
    rw [hr, Option.map_some, decide_eq_false fun h0 => hfound (hiff.1 h0)]

/-- What a search in some texts answers: one may be found, or a comparison may run behind both
texts; both do not happen for one name. -/
structure Decides {α : Type} (answer : Option (Option α)) (strs : List CText) (name : CText) :
    Prop where
  found : (∃ str ∈ strs, Found str.1 name.1) → ∃ ret, answer = some (some ret)
  lost : (∃ str ∈ strs, Lost str.1 name.1) → answer = none
  neither : (∀ str ∈ strs, ¬ Lost str.1 name.1 ∧ ¬ Found str.1 name.1) → answer = some none

theorem decides_nil {α : Type} (name : CText) : Decides (some (none : Option α)) [] name :=
  ⟨fun ⟨_, h, _⟩ => absurd h List.not_mem_nil, fun ⟨_, h, _⟩ => absurd h List.not_mem_nil,
    fun _ => rfl⟩

/-- One search after another. -/
theorem Decides.append {α β : Type} {f : α → β} {strs strs' : List CText} {name : CText}
    {first : Option (Option α)} {second answer : Option (Option β)}
    (h : Decides first strs name) (h' : Decides second strs' name)
    (hlost : first = none → answer = none)
    (hfound : ∀ ret, first = some (some ret) → answer = some (some (f ret)))
    (hneither : first = some none → answer = second) : Decides answer (strs ++ strs') name := by
  by_cases hl : ∃ str ∈ strs, Lost str.1 name.1
  · obtain ⟨str, hstr, hl'⟩ := hl
    refine ⟨fun ⟨_, _, hf⟩ => absurd hl' hf.not_lost, fun _ => hlost (h.lost ⟨str, hstr, hl'⟩),
      fun hn => absurd hl' (hn str (List.mem_append_left _ hstr)).1⟩
  · by_cases hf : ∃ str ∈ strs, Found str.1 name.1
    · obtain ⟨ret, hret⟩ := h.found hf
      obtain ⟨str, hstr, hf'⟩ := hf
      refine ⟨fun _ => ⟨f ret, hfound ret hret⟩, fun ⟨_, _, hl'⟩ => absurd hl' hf'.not_lost,
        fun hn => absurd hf' (hn str (List.mem_append_left _ hstr)).2⟩
    · have hnone := hneither (h.neither fun str hstr =>
        ⟨fun hl' => hl ⟨str, hstr, hl'⟩, fun hf' => hf ⟨str, hstr, hf'⟩⟩)
      rw [hnone]
      refine ⟨fun ⟨str, hstr, hf'⟩ => h'.found ⟨str, ?_, hf'⟩,
        fun ⟨str, hstr, hl'⟩ => h'.lost ⟨str, ?_, hl'⟩,
        fun hn => h'.neither fun str hstr => hn str (List.mem_append_right _ hstr)⟩
      · exact (List.mem_append.1 hstr).resolve_left fun hs => hf ⟨str, hs, hf'⟩
      · exact (List.mem_append.1 hstr).resolve_left fun hs => hl ⟨str, hs, hl'⟩

theorem searchStrs_decides (name : CText) (types : List TypeNames) (i : Nat) :
    Decides (searchStrs name i types) (types.filterMap TypeNames.str) name := by
  induction types generalizing i with
  | nil => exact decides_nil name
  | cons t types ih =>
      rw [searchStrs]
      cases hstr : t.str with
      | none =>
          rw [List.filterMap_cons_none hstr]
          exact ih (i + 1)
      | some str =>
          obtain ⟨hlost, hfound, hneither⟩ := typeEquiv_cases str name
          rw [List.filterMap_cons_some hstr]
          simp only
          by_cases hl : Lost str.1 name.1
          · rw [hlost hl]
            exact ⟨fun ⟨_, _, hf⟩ => absurd hl hf.not_lost, fun _ => rfl,
              fun h => absurd hl (h str List.mem_cons_self).1⟩
          · by_cases hf : Found str.1 name.1
            · rw [hfound hf]
              exact ⟨fun _ => ⟨i, rfl⟩, fun ⟨_, _, hl'⟩ => absurd hl' hf.not_lost,
                fun h => absurd hf (h str List.mem_cons_self).2⟩
            · rw [hneither hl hf]
              obtain ⟨ihfound, ihlost, ihnone⟩ := ih (i + 1)
              refine ⟨fun h => ihfound ?_, fun h => ihlost ?_,
                fun h => ihnone fun str' h' => h str' (List.mem_cons_of_mem _ h')⟩
              · obtain ⟨str', h', hf'⟩ := h
                exact ⟨str', (List.mem_cons.1 h').resolve_left fun e => hf (e ▸ hf'), hf'⟩
              · obtain ⟨str', h', hl'⟩ := h
                exact ⟨str', (List.mem_cons.1 h').resolve_left fun e => hl (e ▸ hl'), hl'⟩

theorem firstIn_decides {ring : ModuleRing} (name : CText) (iters : List ring.Iter) :
    Decides (firstIn (searchStrs name 0) iters)
      (iters.flatMap fun iter => (ring.types iter).filterMap TypeNames.str) name := by
  induction iters with
  | nil => exact decides_nil name
  | cons iter iters ih =>
      rw [List.flatMap_cons]
      refine (searchStrs_decides name (ring.types iter) 0).append (f := fun i => (iter, i)) ih
        ?_ ?_ ?_
      · intro h
        rw [firstIn, h]
      · intro ret h
        rw [firstIn, h]
      · intro h
        rw [firstIn, h]

/-! ## The query -/

theorem typeQuery_right_iff (ring : ModuleRing) (start stop : ring.Iter) (name : CText) :
    TypeQueryRight ring start stop name ↔ NameReadable ring start stop name := by
  have hdecides : Decides (searchModules ring (searchStrs name 0) stop ring.modules.length start)
      (strsOf ring start stop) name := by
    rw [searchModules_eq _ (later_lt ring start stop)]
    exact firstIn_decides name _
  have hmangled := mangledQuery_right ring start stop name
  obtain ⟨ret, hret, hnone, -⟩ := id hmangled
  unfold TypeQueryRight typeQuery NameReadable
  rw [hret]
  cases ret with
  | some ret =>
      have hsome : ∃ iter ∈ ring.visited start stop, HasMangledName (ring.types iter) name := by
        by_contra h
        exact nomatch hnone.2 fun iter hiter hhas => h ⟨iter, hiter, hhas⟩
      exact ⟨fun _ => Or.inl hsome, fun _ => ⟨hmangled, _, rfl, nofun⟩⟩
  | none =>
      have hnot := hnone.1 rfl
      dsimp only
      constructor
      · rintro ⟨-, answer, hanswer, hnull⟩
        right
        by_cases hf : ∃ str ∈ strsOf ring start stop, Found str.1 name.1
        · exact Or.inl hf
        · have hlost : ∀ str ∈ strsOf ring start stop, ¬ Lost str.1 name.1 := by
            intro str hstr hl
            rw [hdecides.lost ⟨str, hstr, hl⟩] at hanswer
            exact nomatch hanswer
          rw [hdecides.neither fun str hstr => ⟨hlost str hstr, fun h => hf ⟨str, hstr, h⟩⟩]
            at hanswer
          have hreadable := (hnull (Option.some.inj hanswer).symm).2
          exact Or.inr fun str hstr => ⟨hreadable str hstr, hlost str hstr⟩
      · rintro (⟨iter, hiter, hhas⟩ | hf | hneither)
        · exact absurd hhas (hnot iter hiter)
        · obtain ⟨ret, hanswer⟩ := hdecides.found hf
          exact ⟨hmangled, _, hanswer, nofun⟩
        · refine ⟨hmangled, none, hdecides.neither fun str hstr => ?_, fun _ =>
            ⟨hnot, fun str hstr => (hneither str hstr).1⟩⟩
          obtain ⟨hunread, hlost⟩ := hneither str hstr
          refine ⟨hlost, fun ⟨readable, hreadable, hsame, _⟩ => hunread ⟨readable, ?_, hsame⟩⟩
          exact mem_separatedNames hreadable

/-- A module with one type, and its human-readable name with a space behind it. -/
def onePointer : ModuleRing where
  modules := [[⟨⟨['_', 'p'], by decide⟩, some ⟨['T', ' ', '*'], by decide⟩⟩]]
  nonempty := by decide
  sorted := by decide

theorem trailing_space_unknown :
    ¬ TypeQueryRight onePointer ⟨0, by decide⟩ ⟨0, by decide⟩ ⟨['T', ' ', '*', ' '], by decide⟩ := by
  rintro ⟨-, answer, hanswer, hnull⟩
  have hnone : typeQuery onePointer ⟨0, by decide⟩ ⟨0, by decide⟩ ⟨['T', ' ', '*', ' '], by decide⟩ =
      some none := by decide
  obtain rfl : none = answer := Option.some.inj (hnone.symm.trans hanswer)
  refine (hnull rfl).2 ⟨['T', ' ', '*'], by decide⟩ ?_ ⟨['T', ' ', '*'], by decide, by decide⟩
  exact List.mem_flatMap.2 ⟨⟨0, by decide⟩, List.mem_cons_self, List.mem_cons_self⟩

end Swig4Ada.Runtime

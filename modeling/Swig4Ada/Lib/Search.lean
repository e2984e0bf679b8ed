import Mathlib

/-!
# Depth-first search without a record of what was visited

A search that goes down into the children of a node in their order, stops at the first
node that it looks for, and does not know where it has been. It may also be cut off at
some nodes, with the answer true. Such a search ends if and only if what it looks at
before it finds something is without endless paths (`Bounded`, `Met`), and its answer
is then that of reachability, except where it was cut off for nothing (`right_iff`).
-/

namespace Swig4Ada.Lib

/-- The first of some tests that is true; those behind it are not made. -/
def firstTrue {N : Type} (test : N → Option Bool) : List N → Option Bool
  | [] => some false
  | x :: xs =>
      match test x with
      | none => none
      | some true => some true
      | some false => firstTrue test xs

section FirstTrue

variable {N N' : Type} {test : N → Option Bool}

theorem firstTrue_eq_false {l : List N} :
    firstTrue test l = some false ↔ ∀ x ∈ l, test x = some false := by
  induction l with
  | nil => simp [firstTrue]
  | cons x xs ih =>
      rw [firstTrue, List.forall_mem_cons]
      rcases hx : test x with _ | _ | _
      · simp
      · simp [ih]
      · simp

example : firstTrue (fun n => if n < 3 then some (n == 2) else none) [1, 2, 3] = some true := by
  decide +kernel

theorem firstTrue_eq_true {l : List N} :
    firstTrue test l = some true ↔ ∃ before x after, l = before ++ x :: after ∧
      (∀ y ∈ before, test y = some false) ∧ test x = some true := by
  induction l with
  | nil => simp [firstTrue]
  | cons x xs ih =>
      rw [firstTrue]
      rcases hx : test x with _ | _ | _
      · refine iff_of_false (by simp) ?_
        rintro ⟨before, y, after, hl, hbefore, hy⟩
        match before with
        | [] =>
            obtain rfl := (List.cons.inj hl).1
            rw [hx] at hy
            cases hy
        | z :: before =>
            obtain rfl := (List.cons.inj hl).1
            have hz := hbefore x List.mem_cons_self
            rw [hx] at hz
            cases hz
      · rw [ih]
        constructor
        · rintro ⟨before, y, after, rfl, hbefore, hy⟩
          refine ⟨x :: before, y, after, rfl, ?_, hy⟩
          rw [List.forall_mem_cons]
          exact ⟨hx, hbefore⟩
        · rintro ⟨before, y, after, hl, hbefore, hy⟩
          match before with
          | [] =>
              obtain rfl := (List.cons.inj hl).1
              rw [hx] at hy
              cases hy
          | z :: before =>
              exact ⟨before, y, after, (List.cons.inj hl).2,
                fun w hw => hbefore w (List.mem_cons_of_mem _ hw), hy⟩
      · exact iff_of_true rfl ⟨[], x, xs, rfl, by simp, hx⟩

/-- Tests that have their answers give the answer of the first that is true. -/
theorem firstTrue_of_tests {l : List N} (h : ∀ x ∈ l, ∃ b, test x = some b) :
    ∃ b, firstTrue test l = some b := by
  induction l with
  | nil => exact ⟨false, rfl⟩
  | cons x xs ih =>
      rw [List.forall_mem_cons] at h
      obtain ⟨b, hb⟩ := h.1
      rw [firstTrue, hb]
      cases b with
      | true => exact ⟨true, rfl⟩
      | false => exact ih h.2

theorem firstTrue_singleton (x : N) : firstTrue test [x] = test x := by
  rw [firstTrue]
  rcases test x with _ | _ | _ <;> rfl

theorem firstTrue_append (l l' : List N) :
    firstTrue test (l ++ l') =
      match firstTrue test l with
      | some false => firstTrue test l'
      | answer => answer := by
  induction l with
  | nil => rfl
  | cons x l ih =>
      rw [List.cons_append, firstTrue, firstTrue]
      rcases test x with _ | _ | _
      · rfl
      · exact ih
      · rfl

theorem firstTrue_filter (p : N → Bool) (l : List N) :
    firstTrue (fun x => if p x = true then some false else test x) l =
      firstTrue test (l.filter fun x => !p x) := by
  induction l with
  | nil => rfl
  | cons x l ih =>
      rw [firstTrue, List.filter_cons]
      by_cases hx : p x = true
      · rw [if_pos hx, if_neg (by simp [hx])]
        exact ih
      · rw [if_neg hx, if_pos (by simpa using hx), firstTrue]
        rcases test x with _ | _ | _
        · rfl
        · exact ih
        · rfl

theorem firstTrue_map (f : N' → N) (l : List N') :
    firstTrue test (l.map f) = firstTrue (fun x => test (f x)) l := by
  induction l with
  | nil => rfl
  | cons x l ih =>
      rw [List.map_cons, firstTrue, firstTrue, ih]

theorem firstTrue_flatMap (f : N' → List N) (l : List N') :
    firstTrue test (l.flatMap f) = firstTrue (fun x => firstTrue test (f x)) l := by
  induction l with
  | nil => rfl
  | cons x l ih =>
      rw [List.flatMap_cons, firstTrue_append, firstTrue, ih]
      rcases firstTrue test (f x) with _ | _ | _ <;> rfl

end FirstTrue

structure Search (N : Type) where
  children : N → List N
  /-- What is looked for. -/
  hit : N → Bool
  /-- Where the search is cut off. -/
  stop : N → Bool

namespace Search

variable {N : Type} (S : Search N)

def run : Nat → N → Option Bool
  | 0, _ => none
  | fuel + 1, x =>
      if S.stop x then some true
      else firstTrue (fun y => if S.hit y then some true else run fuel y) (S.children x)

/-- A child is what is looked for, or something below it is. -/
def test (fuel : Nat) (y : N) : Option Bool := if S.hit y then some true else S.run fuel y

/-- The search goes on with the nodes of a list. -/
def among (fuel : Nat) (l : List N) : Option Bool := firstTrue (S.test fuel) l

theorem run_succ (fuel : Nat) (x : N) :
    S.run (fuel + 1) x = if S.stop x then some true else S.among fuel (S.children x) := rfl

/-- The search among the nodes of a list ends with an answer. -/
def Answers (l : List N) (b : Bool) : Prop := ∃ n, ∀ fuel ≥ n, S.among fuel l = some b

/-- There are no endless paths down from the node that are not cut off. -/
inductive Bounded : N → Prop
  | stop {x : N} : S.stop x = true → Bounded x
  | down {x : N} : (∀ y ∈ S.children x, Bounded y) → Bounded x

/-- Something is found or the search is cut off below the node, with no endless paths
before. -/
inductive Met : N → Prop
  | stop {x : N} : S.stop x = true → Met x
  | hit {x y : N} {before after : List N} : S.children x = before ++ y :: after →
      (∀ z ∈ before, S.Bounded z) → S.hit y = true → Met x
  | down {x y : N} {before after : List N} : S.children x = before ++ y :: after →
      (∀ z ∈ before, S.Bounded z) → Met y → Met x

/-- The same among the nodes of a list, which may be what is looked for themselves. -/
def MetAmong (l : List N) : Prop :=
  ∃ before y after, l = before ++ y :: after ∧ (∀ z ∈ before, S.Bounded z) ∧
    (S.hit y = true ∨ S.Met y)

/-- The nodes of the list and what is below them. -/
def Below (l : List N) (z : N) : Prop :=
  ∃ y ∈ l, Relation.ReflTransGen (fun a b => b ∈ S.children a) y z

/-- Something below the nodes of the list is found or cut off. -/
def SeenAmong (l : List N) : Prop := ∃ z, S.Below l z ∧ (S.hit z = true ∨ S.stop z = true)

variable {S} {x y : N} {l : List N} {fuel : Nat} {b : Bool}

theorem met_of_metAmong (h : S.MetAmong (S.children x)) : S.Met x := by
  obtain ⟨before, y, after, hl, hbefore, hy | hy⟩ := h
  · exact .hit hl hbefore hy
  · exact .down hl hbefore hy

/-! ## More fuel -/

theorem test_mono {fuel fuel' : Nat} (h : fuel ≤ fuel') :
    ∀ {x : N} {b : Bool}, S.test fuel x = some b → S.test fuel' x = some b := by
  induction fuel generalizing fuel' with
  | zero =>
      intro x b hx
      rw [test, run] at hx
      rw [test]
      split at hx
      · rename_i hhit
        rw [if_pos hhit]
        exact hx
      · cases hx
  | succ fuel ih =>
      intro x b hx
      obtain ⟨fuel', rfl⟩ : ∃ k, fuel' = k + 1 := ⟨fuel' - 1, by omega⟩
      have hstep : ∀ {y : N} {b : Bool}, S.test fuel y = some b → S.test fuel' y = some b :=
        ih (by omega)
      rw [test] at hx ⊢
      by_cases hhit : S.hit x = true
      · rw [if_pos hhit] at hx ⊢
        exact hx
      rw [if_neg hhit, run_succ] at hx ⊢
      by_cases hstop : S.stop x = true
      · rw [if_pos hstop] at hx ⊢
        exact hx
      rw [if_neg hstop] at hx ⊢
      cases b with
      | false =>
          rw [among, firstTrue_eq_false] at hx ⊢
          exact fun y hy => hstep (hx y hy)
      | true =>
          rw [among, firstTrue_eq_true] at hx ⊢
          obtain ⟨before, y, after, hl, hbefore, hy⟩ := hx
          exact ⟨before, y, after, hl, fun z hz => hstep (hbefore z hz), hstep hy⟩

theorem among_mono {fuel fuel' : Nat} (h : fuel ≤ fuel') (hl : S.among fuel l = some b) :
    S.among fuel' l = some b := by
  cases b with
  | false =>
      rw [among, firstTrue_eq_false] at hl ⊢
      exact fun y hy => test_mono h (hl y hy)
  | true =>
      rw [among, firstTrue_eq_true] at hl ⊢
      obtain ⟨before, y, after, hsplit, hbefore, hy⟩ := hl
      exact ⟨before, y, after, hsplit, fun z hz => test_mono h (hbefore z hz), test_mono h hy⟩

theorem answers_of_among (hl : S.among fuel l = some b) : S.Answers l b :=
  ⟨fuel, fun _ h => among_mono h hl⟩

/-! ## What an answer says -/

theorem seenAmong_of_mem (hy : y ∈ l) (h : S.hit y = true ∨ S.stop y = true ∨
    S.SeenAmong (S.children y)) : S.SeenAmong l := by
  rcases h with h | h | ⟨z, ⟨w, hw, hz⟩, hend⟩
  · exact ⟨y, ⟨y, hy, .refl⟩, .inl h⟩
  · exact ⟨y, ⟨y, hy, .refl⟩, .inr h⟩
  · exact ⟨z, ⟨y, hy, Relation.ReflTransGen.head hw hz⟩, hend⟩

theorem test_false : ∀ {fuel : Nat} {x : N}, S.test fuel x = some false →
    S.Bounded x ∧ ¬ S.SeenAmong [x] := by
  intro fuel
  induction fuel with
  | zero =>
      intro x h
      rw [test, run] at h
      split at h <;> cases h
  | succ fuel ih =>
      intro x h
      rw [test] at h
      by_cases hhit : S.hit x = true
      · rw [if_pos hhit] at h
        cases h
      rw [if_neg hhit, run_succ] at h
      by_cases hstop : S.stop x = true
      · rw [if_pos hstop] at h
        cases h
      rw [if_neg hstop, among, firstTrue_eq_false] at h
      refine ⟨.down fun y hy => (ih (h y hy)).1, ?_⟩
      rintro ⟨z, ⟨y, hy, hz⟩, hend⟩
      obtain rfl := List.mem_singleton.1 hy
      rcases hz.cases_head with rfl | ⟨w, hw, hz⟩
      · rcases hend with hend | hend
        · exact hhit hend
        · exact hstop hend
      · exact (ih (h w hw)).2 ⟨z, ⟨w, List.mem_singleton_self _, hz⟩, hend⟩

theorem test_true : ∀ {fuel : Nat} {x : N}, S.test fuel x = some true →
    (S.hit x = true ∨ S.Met x) ∧ S.SeenAmong [x] := by
  intro fuel
  induction fuel with
  | zero =>
      intro x h
      rw [test, run] at h
      split at h
      · rename_i hhit
        exact ⟨.inl hhit, seenAmong_of_mem List.mem_cons_self (.inl hhit)⟩
      · cases h
  | succ fuel ih =>
      intro x h
      rw [test] at h
      by_cases hhit : S.hit x = true
      · exact ⟨.inl hhit, seenAmong_of_mem List.mem_cons_self (.inl hhit)⟩
      rw [if_neg hhit, run_succ] at h
      by_cases hstop : S.stop x = true
      · exact ⟨.inr (.stop hstop), seenAmong_of_mem List.mem_cons_self (.inr (.inl hstop))⟩
      rw [if_neg hstop, among, firstTrue_eq_true] at h
      obtain ⟨before, y, after, hl, hbefore, hy⟩ := h
      obtain ⟨hmet, z, ⟨w, hw, hz⟩, hend⟩ := ih hy
      obtain rfl := List.mem_singleton.1 hw
      have hchild : w ∈ S.children x := by
        rw [hl]
        simp
      refine ⟨.inr (met_of_metAmong ⟨before, w, after, hl, fun z hz => ?_, hmet⟩),
        z, ⟨x, List.mem_cons_self, Relation.ReflTransGen.head hchild hz⟩, hend⟩
      exact (test_false (hbefore z hz)).1

/-! ## When there is an answer -/

/-- One amount of fuel for all nodes of a list. -/
theorem exists_fuel (h : ∀ y ∈ l, ∃ fuel b, S.test fuel y = some b) :
    ∃ fuel, ∀ y ∈ l, ∃ b, S.test fuel y = some b := by
  induction l with
  | nil => exact ⟨0, by simp⟩
  | cons x xs ih =>
      rw [List.forall_mem_cons] at h
      obtain ⟨fuel, b, hx⟩ := h.1
      obtain ⟨fuel', hxs⟩ := ih h.2
      refine ⟨max fuel fuel', ?_⟩
      rw [List.forall_mem_cons]
      refine ⟨⟨b, test_mono (by omega) hx⟩, fun y hy => ?_⟩
      obtain ⟨b', hb⟩ := hxs y hy
      exact ⟨b', test_mono (by omega) hb⟩

theorem Bounded.test (h : S.Bounded x) : ∃ fuel b, S.test fuel x = some b := by
  induction h with
  | @stop x hstop =>
      refine ⟨1, true, ?_⟩
      rw [Search.test, run_succ, if_pos hstop]
      split <;> rfl
  | @down x _ ih =>
      obtain ⟨fuel, hall⟩ := exists_fuel ih
      obtain ⟨b, hb⟩ := firstTrue_of_tests hall
      by_cases hhit : S.hit x = true
      · exact ⟨0, true, if_pos hhit⟩
      by_cases hstop : S.stop x = true
      · refine ⟨1, true, ?_⟩
        rw [Search.test, if_neg hhit, run_succ, if_pos hstop]
      · refine ⟨fuel + 1, b, ?_⟩
        rw [Search.test, if_neg hhit, run_succ, if_neg hstop]
        exact hb

/-- A list is searched up to what is met in it. -/
theorem among_of_met {before : List N} (after : List N) (hbefore : ∀ z ∈ before, S.Bounded z)
    (hy : ∃ fuel, S.test fuel y = some true) :
    ∃ fuel, S.among fuel (before ++ y :: after) = some true := by
  obtain ⟨fuel, hfuel⟩ := hy
  obtain ⟨fuel', hall⟩ := exists_fuel fun z hz => (hbefore z hz).test
  refine ⟨max fuel fuel', ?_⟩
  have hhere : S.test (max fuel fuel') y = some true := test_mono (by omega) hfuel
  have hall' : ∀ z ∈ before, ∃ b, S.test (max fuel fuel') z = some b := by
    intro z hz
    obtain ⟨b, hb⟩ := hall z hz
    exact ⟨b, test_mono (by omega) hb⟩
  clear hall hbefore
  induction before with
  | nil => rw [List.nil_append, among, firstTrue, hhere]
  | cons z before ih =>
      rw [List.forall_mem_cons] at hall'
      obtain ⟨b, hb⟩ := hall'.1
      rw [List.cons_append, among, firstTrue, hb]
      cases b with
      | true => rfl
      | false => exact ih hall'.2

theorem Met.test (h : S.Met x) : ∃ fuel, S.test fuel x = some true := by
  have hdown : ∀ {x : N}, (∃ fuel, S.among fuel (S.children x) = some true) →
      ∃ fuel, S.test fuel x = some true := by
    rintro x ⟨fuel, hfuel⟩
    refine ⟨fuel + 1, ?_⟩
    rw [Search.test, run_succ, hfuel]
    split
    · rfl
    · split <;> rfl
  induction h with
  | @stop x hstop =>
      refine ⟨1, ?_⟩
      rw [Search.test, run_succ, if_pos hstop]
      split <;> rfl
  | @hit x y before after hl hbefore hhit =>
      refine hdown ?_
      rw [hl]
      exact among_of_met after hbefore ⟨0, if_pos hhit⟩
  | @down x y before after hl hbefore _ ih =>
      refine hdown ?_
      rw [hl]
      exact among_of_met after hbefore ih

/-- The search ends if and only if there are no endless paths, or something is met before
them; the answer is then whether something is found or cut off. -/
theorem answers_iff : S.Answers l b ↔
    ((∀ y ∈ l, S.Bounded y) ∨ S.MetAmong l) ∧ (b = true ↔ S.SeenAmong l) := by
  have hsound : ∀ {fuel : Nat} {b : Bool}, S.among fuel l = some b →
      ((∀ y ∈ l, S.Bounded y) ∨ S.MetAmong l) ∧ (b = true ↔ S.SeenAmong l) := by
    intro fuel b h
    cases b with
    | false =>
        rw [among, firstTrue_eq_false] at h
        refine ⟨.inl fun y hy => (test_false (h y hy)).1, iff_of_false (by simp) ?_⟩
        rintro ⟨z, ⟨y, hy, hz⟩, hend⟩
        exact (test_false (h y hy)).2 ⟨z, ⟨y, List.mem_singleton_self _, hz⟩, hend⟩
    | true =>
        rw [among, firstTrue_eq_true] at h
        obtain ⟨before, y, after, hl, hbefore, hy⟩ := h
        obtain ⟨hmet, z, ⟨w, hw, hz⟩, hend⟩ := test_true hy
        obtain rfl := List.mem_singleton.1 hw
        refine ⟨.inr ⟨before, w, after, hl, fun z hz => (test_false (hbefore z hz)).1, hmet⟩,
          iff_of_true rfl ⟨z, ⟨w, ?_, hz⟩, hend⟩⟩
        rw [hl]
        simp
  constructor
  · rintro ⟨n, hn⟩
    exact hsound (hn n le_rfl)
  · rintro ⟨hends, hb⟩
    have hany : ∃ fuel b, S.among fuel l = some b := by
      rcases hends with hall | ⟨before, y, after, rfl, hbefore, hy⟩
      · obtain ⟨fuel, hfuel⟩ := exists_fuel fun y hy => (hall y hy).test
        obtain ⟨b, hb⟩ := firstTrue_of_tests hfuel
        exact ⟨fuel, b, hb⟩
      · obtain ⟨fuel, hfuel⟩ := among_of_met after hbefore (hy.elim
          (fun hhit => ⟨0, if_pos hhit⟩) Met.test)
        exact ⟨fuel, true, hfuel⟩
    obtain ⟨fuel, b', h⟩ := hany
    have hbb : b = b' := by
      have h' := (hsound h).2
      rw [Bool.eq_iff_iff, hb, h']
    rw [hbb]
    exact answers_of_among h

/-- The search ends with the answer of reachability. -/
def Right (S : Search N) (l : List N) : Prop :=
  ∃ b, S.Answers l b ∧ (b = true ↔ ∃ z, S.Below l z ∧ S.hit z = true)

/-- A search is right when it ends and is only cut off where there is something to be
found anyway. -/
theorem right_iff : S.Right l ↔
    ((∀ y ∈ l, S.Bounded y) ∨ S.MetAmong l) ∧
      ((∃ z, S.Below l z ∧ S.stop z = true) → ∃ z, S.Below l z ∧ S.hit z = true) := by
  have hseen : S.SeenAmong l ↔ (∃ z, S.Below l z ∧ S.hit z = true) ∨
      ∃ z, S.Below l z ∧ S.stop z = true := by
    constructor
    · rintro ⟨z, hz, h | h⟩
      · exact .inl ⟨z, hz, h⟩
      · exact .inr ⟨z, hz, h⟩
    · rintro (⟨z, hz, h⟩ | ⟨z, hz, h⟩)
      · exact ⟨z, hz, .inl h⟩
      · exact ⟨z, hz, .inr h⟩
  constructor
  · rintro ⟨b, hb, hright⟩
    rw [answers_iff, hright, hseen] at hb
    exact ⟨hb.1, fun hstop => hb.2.2 (.inr hstop)⟩
  · rintro ⟨hends, hstop⟩
    classical
    refine ⟨decide (S.SeenAmong l), answers_iff.2 ⟨hends, by simp⟩, ?_⟩
    rw [decide_eq_true_iff, hseen]
    exact ⟨fun h => h.elim id hstop, .inl⟩

end Search

end Swig4Ada.Lib

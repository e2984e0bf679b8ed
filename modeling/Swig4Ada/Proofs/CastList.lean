import Swig4Ada.Runtime.CastList

/-!
# What the history of queries does to a cast list

A query finds the entry where the list has one and moves it to the top, which is a
permutation; so it is answered from the entries of the list and not from their order.
-/

namespace Swig4Ada.Runtime

open Swig4Ada.Lib

variable {T C Name : Type} [DecidableEq T] [DecidableEq C] [DecidableEq Name]

/-- The list of a type, by its links in both directions. -/
structure WellLinked (s : Links T C) (ty : T) (l : List C) : Prop where
  head : s.head ty = l.head?
  chain : Chain s.next s.prev l

section Query

variable {s : Links T C} {ty : T} {l : List C} {fuel : Nat}

omit [DecidableEq C] in
theorem castLoop_eq {next prev : C → Option C} {before : Option C} {test : C → Bool} {l : List C}
    (hl : Chained next prev before l none) (hfuel : l.length < fuel) :
    castLoop next test fuel l.head? = some (l.find? test) := by
  induction l generalizing before fuel with
  | nil =>
      obtain ⟨fuel, rfl⟩ : ∃ n, fuel = n + 1 := ⟨fuel - 1, by omega⟩
      rfl
  | cons c l ih =>
      rw [List.length_cons] at hfuel
      obtain ⟨fuel, rfl⟩ : ∃ n, fuel = n + 1 := ⟨fuel - 1, by omega⟩
      rw [List.head?_cons, castLoop, List.find?_cons]
      cases test c with
      | true => rfl
      | false =>
          have hnext : next c = l.head? := by simpa using hl.2.1
          rw [if_neg (by simp), hnext]
          exact ih hl.2.2 (by omega)

/-- The entry before the one that is moved is another one, so its new link does not get in the
way. -/
theorem moveToTop_eq (h : WellLinked s ty l) {iter : C} (hmem : iter ∈ l)
    (htop : s.head ty ≠ some iter) : moveToTop s ty iter = some (s.moveToFront ty iter) := by
  obtain ⟨front, p, back, hl, hprev, -, -⟩ := Links.split h.chain h.head hmem htop
  have hne : iter ≠ p := by
    intro he
    have hnodup := h.chain.nodup
    rw [hl, he, List.nodup_append] at hnodup
    exact hnodup.2.2 p (List.mem_append_right front List.mem_cons_self) p List.mem_cons_self rfl
  unfold moveToTop Links.moveToFront
  have hlink : Function.update s.next p (s.next iter) iter = s.next iter :=
    Function.update_of_ne hne _ _
  rw [hprev]
  show some _ = some _
  generalize Function.update s.next p (s.next iter) iter = link at hlink ⊢
  subst hlink
  rfl

theorem WellLinked.moveToFront (h : WellLinked s ty l) {iter : C} (hmem : iter ∈ l)
    (htop : s.head ty ≠ some iter) :
    WellLinked (s.moveToFront ty iter) ty (iter :: l.erase iter) := by
  refine ⟨?_, (Links.moveToFront_chain h.chain h.head hmem htop).1⟩
  show Function.update s.head ty (some iter) ty = some iter
  exact Function.update_self ..

/-- One query: what it answers, and the list it leaves. -/
theorem typeCheckBy_spec (h : WellLinked s ty l) (test : C → Bool) (hfuel : l.length < fuel) :
    ∃ s' l', typeCheckBy test fuel s (some ty) = some (l.find? test, s') ∧ l'.Perm l ∧
      WellLinked s' ty l' := by
  have hloop : castLoop s.next test fuel (s.head ty) = some (l.find? test) := by
    rw [h.head]
    exact castLoop_eq h.chain hfuel
  unfold typeCheckBy
  simp only [hloop, Option.bind_eq_bind, Option.bind_some]
  cases hfound : l.find? test with
  | none => exact ⟨s, l, rfl, List.Perm.refl l, h⟩
  | some iter =>
      have hmem := List.mem_of_find?_eq_some hfound
      by_cases htop : s.head ty = some iter
      · exact ⟨s, l, if_pos htop, List.Perm.refl l, h⟩
      · refine ⟨s.moveToFront ty iter, iter :: l.erase iter, (if_neg htop).trans ?_,
          (List.perm_cons_erase hmem).symm, h.moveToFront hmem htop⟩
        rw [moveToTop_eq h hmem htop]
        rfl

end Query

section Queries

variable {castType : C → T} {name : T → Name}

/-- The entries of the list are of different types with different names. -/
structure Distinct (castType : C → T) (name : T → Name) (l : List C) : Prop where
  types : (l.map castType).Nodup
  names : (l.map fun c => name (castType c)).Nodup

omit [DecidableEq T] [DecidableEq C] [DecidableEq Name] in
/-- At most one entry is asked for. -/
theorem Distinct.unique {l : List C} (h : Distinct castType name l) (q : CastQuery T Name)
    {a b : C} (ha : a ∈ l) (hb : b ∈ l) (hqa : q.Asks castType name a)
    (hqb : q.Asks castType name b) : a = b := by
  cases q with
  | typeCheck c => exact List.inj_on_of_nodup_map h.names ha hb (hqa.trans hqb.symm)
  | typeCheckStruct source => exact List.inj_on_of_nodup_map h.types ha hb (hqa.trans hqb.symm)

omit [DecidableEq T] [DecidableEq C] [DecidableEq Name] in
theorem Distinct.perm {l l' : List C} (h : Distinct castType name l) (hperm : l'.Perm l) :
    Distinct castType name l' :=
  ⟨(hperm.map _).nodup_iff.2 h.types, (hperm.map _).nodup_iff.2 h.names⟩

/-- The answer to a query is the entry that the list has for it. -/
theorem CastQuery.answer_spec {s : Links T C} {ty : T} {l : List C} {fuel : Nat}
    (h : WellLinked s ty l) (hdistinct : Distinct castType name l) (hfuel : l.length < fuel)
    (q : CastQuery T Name) :
    ∃ found s' l', q.answer castType name fuel s (some ty) = some (found, s') ∧ l'.Perm l ∧
      WellLinked s' ty l' ∧ ∀ c, found = some c ↔ c ∈ l ∧ q.Asks castType name c := by
  obtain ⟨test, htest, hanswer⟩ : ∃ test : C → Bool,
      (∀ c, test c = true ↔ q.Asks castType name c) ∧
        q.answer castType name fuel s (some ty) = typeCheckBy test fuel s (some ty) := by
    cases q with
    | typeCheck c => exact ⟨fun iter => name (castType iter) = c, fun _ => decide_eq_true_iff, rfl⟩
    | typeCheckStruct source =>
        exact ⟨fun iter => castType iter = source, fun _ => decide_eq_true_iff, rfl⟩
  obtain ⟨s', l', hcheck, hperm, hlinked⟩ := typeCheckBy_spec h test hfuel
  refine ⟨l.find? test, s', l', hanswer.trans hcheck, hperm, hlinked, fun c => ⟨fun hc => ?_, ?_⟩⟩
  · exact ⟨List.mem_of_find?_eq_some hc, (htest c).1 (List.find?_some hc)⟩
  · rintro ⟨hmem, hasks⟩
    cases hfind : l.find? test with
    | none => exact absurd ((htest c).2 hasks) (List.find?_eq_none.1 hfind c hmem)
    | some d =>
        have hd := (htest d).1 (List.find?_some hfind)
        rw [hdistinct.unique q (List.mem_of_find?_eq_some hfind) hmem hd hasks]

/-- After any queries the list is a permutation of what it was and is well linked, and each
query was answered with the entry of the type it asked for, where there is one. -/
theorem answerAll_spec {s : Links T C} {ty : T} {l : List C} {fuel : Nat}
    (h : WellLinked s ty l) (hdistinct : Distinct castType name l) (hfuel : l.length < fuel)
    (queries : List (CastQuery T Name)) :
    ∃ answers s' l', answerAll castType name fuel (some ty) queries s = some (answers, s') ∧
      l'.Perm l ∧ WellLinked s' ty l' ∧
      List.Forall₂ (fun q found => ∀ c, found = some c ↔ c ∈ l ∧ q.Asks castType name c)
        queries answers := by
  induction queries generalizing s l with
  | nil => exact ⟨[], s, l, rfl, List.Perm.refl l, h, List.Forall₂.nil⟩
  | cons q queries ih =>
      obtain ⟨found, s₁, l₁, hanswer, hperm₁, hlinked₁, hfound⟩ :=
        q.answer_spec h hdistinct hfuel
      obtain ⟨answers, s', l', hrest, hperm, hlinked, hanswers⟩ :=
        ih hlinked₁ (hdistinct.perm hperm₁) (by rw [hperm₁.length_eq]; exact hfuel)
      refine ⟨found :: answers, s', l', ?_, hperm.trans hperm₁, hlinked,
        List.Forall₂.cons hfound (hanswers.imp fun q' found' hq c => ?_)⟩
      · simp only [answerAll, hanswer, hrest, Option.bind_eq_bind, Option.bind_some]
        rfl
      · rw [hq c, hperm₁.mem_iff]

/-- The casts 0, 1 and 2, each of the type of the same number. -/
def threeCasts : Links Nat Nat where
  head _ := some 0
  next c := if c < 2 then some (c + 1) else none
  prev c := if c = 0 then none else some (c - 1)

theorem threeCasts_answered : WellLinked threeCasts 0 [0, 1, 2] ∧ Distinct id id [0, 1, 2] ∧
    ∃ answers s' l', answerAll id id 4 (some 0)
        [.typeCheck 2, .typeCheckStruct 1, .typeCheck 7] threeCasts = some (answers, s') ∧
      l'.Perm [0, 1, 2] ∧ WellLinked s' 0 l' ∧
      List.Forall₂ (fun (q : CastQuery Nat Nat) found =>
          ∀ c, found = some c ↔ c ∈ [0, 1, 2] ∧ q.Asks id id c)
        [.typeCheck 2, .typeCheckStruct 1, .typeCheck 7] answers := by
  have hlinked : WellLinked threeCasts 0 [0, 1, 2] :=
    ⟨rfl, rfl, rfl, rfl, rfl, rfl, rfl, trivial⟩
  have hdistinct : Distinct id id [0, 1, 2] := ⟨by decide, by decide⟩
  exact ⟨hlinked, hdistinct, answerAll_spec hlinked hdistinct (by decide) _⟩

end Queries

end Swig4Ada.Runtime

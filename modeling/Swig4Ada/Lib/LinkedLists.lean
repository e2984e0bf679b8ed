import Swig4Ada.Lib.Chain

/-!
# Doubly linked lists that share one heap

Every owner has the head of a list of cells; the cells have links to the next and to the
previous one. A cell is put at the front of a list, or looked for in it and brought to the
front. The lists are those of a function from owners to lists of cells (`Represents`), on
which the operations are those of lists.
-/

namespace Swig4Ada.Lib

/-- The heads of the lists and the links of the cells. -/
structure Links (T C : Type) where
  head : T → Option C
  next : C → Option C
  prev : C → Option C

variable {T C : Type} [DecidableEq T] [DecidableEq C]

namespace Links

/-- No lists. -/
def empty : Links T C := ⟨fun _ => none, fun _ => none, fun _ => none⟩

/-- A new cell at the front of a list. -/
def push (L : Links T C) (t : T) (c : C) : Links T C :=
  match L.head t with
  | none => { L with head := Function.update L.head t (some c) }
  | some h =>
      { head := Function.update L.head t (some c)
        next := Function.update L.next c (some h)
        prev := Function.update L.prev h (some c) }

/-- The cell that is linked to the previous one is taken out and put at the front. -/
def moveToFront (L : Links T C) (t : T) (c : C) : Links T C :=
  let next :=
    match L.prev c with
    | some p => Function.update L.next p (L.next c)
    | none => L.next
  let prev :=
    match L.next c with
    | some n => Function.update L.prev n (L.prev c)
    | none => L.prev
  let prev := Function.update prev c none
  { head := Function.update L.head t (some c)
    next := Function.update next c (L.head t)
    prev :=
      match L.head t with
      | some h => Function.update prev h (some c)
      | none => prev }

/-- The first cell from here on that passes the test. -/
def findFrom (L : Links T C) (test : C → Bool) : Nat → Option C → Option C
  | 0, _ => none
  | _ + 1, none => none
  | fuel + 1, some c => if test c then some c else findFrom L test fuel (L.next c)

/-- The first cell of a list that passes the test; it is brought to the front. -/
def check (L : Links T C) (test : C → Bool) (fuel : Nat) (t : T) : Option C × Links T C :=
  match L.findFrom test fuel (L.head t) with
  | none => (none, L)
  | some c => if L.head t = some c then (some c, L) else (some c, L.moveToFront t c)

end Links

/-- A cell in front of a chain that it is not in. -/
theorem Chained.push {next prev : C → Option C} {l : List C} {c : C} (h : Chain next prev l)
    (hc : c ∉ l) :
    Chain (Function.update next c l.head?)
      (match l.head? with
        | some a => Function.update (Function.update prev c none) a (some c)
        | none => Function.update prev c none) (c :: l) := by
  cases l with
  | nil => simp [Chained]
  | cons a l =>
      have hac : a ≠ c := fun e => hc (e ▸ List.mem_cons_self)
      have hcl : c ∉ l := fun h => hc (List.mem_cons_of_mem a h)
      have hal : a ∉ l := (List.nodup_cons.1 h.nodup).1
      obtain ⟨-, hnext, hl⟩ := h
      refine ⟨?_, by simp, by simp, ?_, ?_⟩
      · simp only [List.head?_cons]
        rw [Function.update_of_ne hac.symm, Function.update_self]
      · rw [Function.update_of_ne hac]
        exact hnext
      · refine hl.congr (fun b hb => ?_) fun b hb => ?_
        · exact Function.update_of_ne (ne_of_mem_of_not_mem hb hcl) _ _
        · simp only [List.head?_cons]
          rw [Function.update_of_ne (ne_of_mem_of_not_mem hb hal),
            Function.update_of_ne (ne_of_mem_of_not_mem hb hcl)]

/-! ## One list -/

namespace Links

variable {L : Links T C} {t : T} {l : List C} {c : C}

omit [DecidableEq T] [DecidableEq C] in
/-- A cell that is not the first of its list has one before it. -/
theorem split (hchain : Chain L.next L.prev l) (hfirst : L.head t = l.head?) (hc : c ∈ l)
    (hhead : L.head t ≠ some c) :
    ∃ front p back, l = front ++ [p] ++ c :: back ∧ L.prev c = some p ∧
      L.next c = back.head? ∧ L.head t = (front ++ [p] ++ back).head? := by
  obtain ⟨l₁, back, hl⟩ := List.append_of_mem hc
  rw [hl] at hchain
  obtain ⟨-, hprev, hnext, -⟩ := Chained.append_iff.1 hchain
  rcases List.eq_nil_or_concat l₁ with rfl | ⟨front, p, rfl⟩
  · rw [hfirst, hl] at hhead
    exact absurd rfl hhead
  · rw [List.concat_eq_append] at hl hprev
    refine ⟨front, p, back, hl, by simpa using hprev, by simpa using hnext, ?_⟩
    rw [hfirst, hl]
    cases front <;> rfl

/-- A cell of a list is brought to its front; a cell of another list, or of none, keeps its
links. -/
theorem moveToFront_chain (hchain : Chain L.next L.prev l) (hfirst : L.head t = l.head?)
    (hc : c ∈ l) (hhead : L.head t ≠ some c) :
    Chain (L.moveToFront t c).next (L.moveToFront t c).prev (c :: l.erase c) ∧
      ∀ a ∉ l, (L.moveToFront t c).next a = L.next a ∧
        (L.moveToFront t c).prev a = L.prev a := by
  obtain ⟨front, p, back, hl, hprev, hnext, hfirst⟩ := split hchain hfirst hc hhead
  have hnodup := hchain.nodup
  rw [hl] at hnodup hchain
  have hcfront : c ∉ front ++ [p] := fun hmem => by
    rw [List.nodup_append] at hnodup
    exact hnodup.2.2 c hmem c List.mem_cons_self rfl
  have hcback : c ∉ back := by
    rw [List.nodup_append] at hnodup
    exact (List.nodup_cons.1 hnodup.2.1).1
  have hcrest : c ∉ front ++ [p] ++ back := fun hmem =>
    (List.mem_append.1 hmem).elim hcfront hcback
  have herase : l.erase c = front ++ [p] ++ back := by
    rw [hl, List.erase_append_right _ hcfront, List.erase_cons_head]
  have hlast : (front ++ [p]).getLast? = some p := by simp
  -- The links without `c`.
  set next' := Function.update L.next p (L.next c) with hnext'
  set prev' := (match L.next c with
    | some n => Function.update L.prev n (L.prev c)
    | none => L.prev) with hprev'
  have hprevKeep : ∀ a, back.head? ≠ some a → prev' a = L.prev a := by
    intro a ha
    rw [hprev', hnext]
    cases hb : back.head? with
    | none => rfl
    | some n =>
        have hne : a ≠ n := fun e => ha (by rw [hb, e])
        exact Function.update_of_ne hne _ _
  have hrest : Chain next' prev' (front ++ [p] ++ back) := by
    refine Chained.unlink hchain (fun a ha => ?_) (fun a _ ha => ?_) (fun a ha => ?_)
      fun a _ ha => hprevKeep a ha
    · obtain rfl : p = a := by simpa [hlast] using ha
      rw [hnext', Function.update_self, hnext]
    · have hne : a ≠ p := fun e => ha (by rw [hlast, e])
      exact Function.update_of_ne hne _ _
    · rw [hprev', hnext, ha, hlast, ← hprev]
      exact Function.update_self ..
  have hmoved : (L.moveToFront t c).next =
        Function.update next' c (front ++ [p] ++ back).head? ∧
      (L.moveToFront t c).prev = (match (front ++ [p] ++ back).head? with
        | some a => Function.update (Function.update prev' c none) a (some c)
        | none => Function.update prev' c none) := by
    rw [← hfirst, hnext', hprev']
    unfold Links.moveToFront
    simp only [hprev, and_self]
  obtain ⟨hn, hp⟩ := hmoved
  refine ⟨?_, fun a ha => ?_⟩
  · rw [herase, hn, hp]
    exact hrest.push hcrest
  · rw [hl] at ha
    have hac : a ≠ c := fun e => ha (by rw [e]; simp)
    have hap : a ≠ p := fun e => ha (by rw [e]; simp)
    have haback : back.head? ≠ some a := fun e => ha (by
      have := List.mem_of_head? e
      simp [this])
    rw [hn, hp]
    refine ⟨?_, ?_⟩
    · rw [Function.update_of_ne hac, hnext', Function.update_of_ne hap]
    · cases hf : (front ++ [p] ++ back).head? with
      | none => simp at hf
      | some b =>
          have hab : a ≠ b := fun e => ha (by
            have hmem := List.mem_of_head? hf
            rw [← e] at hmem
            rcases List.mem_append.1 hmem with hmem | hmem
            · exact List.mem_append_left _ hmem
            · exact List.mem_append_right _ (List.mem_cons_of_mem c hmem))
          show Function.update (Function.update prev' c none) b (some c) a = _
          rw [Function.update_of_ne hab, Function.update_of_ne hac, hprevKeep a haback]

end Links

/-! ## All lists -/

/-- The heap holds these lists and nothing else. -/
structure Represents (L : Links T C) (lists : T → List C) : Prop where
  head : ∀ t, L.head t = (lists t).head?
  chain : ∀ t, Chain L.next L.prev (lists t)
  apart : ∀ {t t' c}, c ∈ lists t → c ∈ lists t' → t = t'
  free : ∀ {c}, (∀ t, c ∉ lists t) → L.next c = none ∧ L.prev c = none

/-- The lists after the cell of one of them has been brought to its front. -/
def toFront (lists : T → List C) (t : T) (c : C) : T → List C :=
  Function.update lists t (c :: (lists t).erase c)

theorem toFront_perm {lists : T → List C} {t : T} {c : C} (hc : c ∈ lists t) (t' : T) :
    (toFront lists t c t').Perm (lists t') := by
  by_cases ht : t' = t
  · subst ht
    rw [toFront, Function.update_self]
    exact (List.perm_cons_erase hc).symm
  · rw [toFront, Function.update_of_ne ht]

namespace Represents

variable {L : Links T C} {lists : T → List C}

omit [DecidableEq T] [DecidableEq C] in
theorem empty : Represents (Links.empty : Links T C) fun _ => [] :=
  ⟨fun _ => rfl, fun _ => trivial, fun h => absurd h List.not_mem_nil, fun _ => ⟨rfl, rfl⟩⟩

theorem push (h : Represents L lists) {t : T} {c : C} (hc : ∀ t, c ∉ lists t) :
    Represents (L.push t c) (Function.update lists t (c :: lists t)) := by
  obtain ⟨hnext, hprev⟩ := h.free hc
  have hlinks : (L.push t c).next = Function.update L.next c (lists t).head? ∧
      (L.push t c).prev = (match (lists t).head? with
        | some a => Function.update (Function.update L.prev c none) a (some c)
        | none => Function.update L.prev c none) ∧
      (L.push t c).head = Function.update L.head t (some c) := by
    have hnone : Function.update L.prev c none = L.prev := Function.update_eq_self_iff.2 hprev.symm
    have hkeep : Function.update L.next c none = L.next := Function.update_eq_self_iff.2 hnext.symm
    unfold Links.push
    rw [h.head t]
    cases (lists t).head? with
    | none => exact ⟨hkeep.symm, hnone.symm, rfl⟩
    | some a => exact ⟨rfl, by simp only [hnone], rfl⟩
  obtain ⟨hn, hp, hh⟩ := hlinks
  -- A cell outside of the list of `t` and other than `c` keeps its links.
  have hother : ∀ a, a ≠ c → a ∉ lists t →
      (L.push t c).next a = L.next a ∧ (L.push t c).prev a = L.prev a := by
    intro a hac hat
    rw [hn, hp]
    refine ⟨Function.update_of_ne hac _ _, ?_⟩
    cases hhead : (lists t).head? with
    | none => exact Function.update_of_ne hac _ _
    | some b =>
        have hab : a ≠ b := fun e => hat (e ▸ List.mem_of_head? hhead)
        show Function.update (Function.update L.prev c none) b (some c) a = _
        rw [Function.update_of_ne hab, Function.update_of_ne hac]
  refine ⟨fun t' => ?_, fun t' => ?_, fun {t₁ t₂ a} h₁ h₂ => ?_, fun {a} ha => ?_⟩
  · rw [hh]
    by_cases ht : t' = t
    · subst ht
      simp
    · rw [Function.update_of_ne ht, Function.update_of_ne ht]
      exact h.head t'
  · by_cases ht : t' = t
    · subst ht
      rw [Function.update_self, hn, hp]
      exact (h.chain t').push (hc t')
    · rw [Function.update_of_ne ht]
      have hkept : ∀ a ∈ lists t',
          (L.push t c).next a = L.next a ∧ (L.push t c).prev a = L.prev a := fun a ha =>
        hother a (ne_of_mem_of_not_mem ha (hc t')) fun hat => ht (h.apart ha hat)
      exact (h.chain t').congr (fun a ha => (hkept a ha).1) fun a ha => (hkept a ha).2
  · have hmem : ∀ t', a ∈ Function.update lists t (c :: lists t) t' →
        t' = t ∧ a = c ∨ a ∈ lists t' := by
      intro t' ha
      by_cases ht : t' = t
      · subst ht
        rw [Function.update_self] at ha
        rcases List.mem_cons.1 ha with rfl | ha
        · exact Or.inl ⟨rfl, rfl⟩
        · exact Or.inr ha
      · rw [Function.update_of_ne ht] at ha
        exact Or.inr ha
    rcases hmem t₁ h₁ with ⟨ht₁, hac⟩ | hin₁ <;> rcases hmem t₂ h₂ with ⟨ht₂, hac'⟩ | hin₂
    · exact ht₁.trans ht₂.symm
    · exact absurd (hac ▸ hin₂) (hc t₂)
    · exact absurd (hac' ▸ hin₁) (hc t₁)
    · exact h.apart hin₁ hin₂
  · have hne : a ≠ c := by
      rintro rfl
      exact ha t (by rw [Function.update_self]; exact List.mem_cons_self)
    have hout : ∀ t', a ∉ lists t' := by
      intro t' hmem
      refine ha t' ?_
      by_cases ht : t' = t
      · subst ht
        rw [Function.update_self]
        exact List.mem_cons_of_mem c hmem
      · rwa [Function.update_of_ne ht]
    obtain ⟨hn', hp'⟩ := hother a hne (hout t)
    rw [hn', hp']
    exact h.free hout

theorem moveToFront (h : Represents L lists) {t : T} {c : C} (hc : c ∈ lists t)
    (hhead : L.head t ≠ some c) : Represents (L.moveToFront t c) (toFront lists t c) := by
  obtain ⟨hmoved, hother⟩ := Links.moveToFront_chain (h.chain t) (h.head t) hc hhead
  have hh : (L.moveToFront t c).head = Function.update L.head t (some c) := rfl
  refine ⟨fun t' => ?_, fun t' => ?_, fun {t₁ t₂ a} h₁ h₂ => ?_, fun {a} ha => ?_⟩
  · rw [hh, toFront]
    by_cases ht : t' = t
    · subst ht
      simp
    · rw [Function.update_of_ne ht, Function.update_of_ne ht]
      exact h.head t'
  · rw [toFront]
    by_cases ht : t' = t
    · subst ht
      rw [Function.update_self]
      exact hmoved
    · rw [Function.update_of_ne ht]
      have hkept : ∀ a ∈ lists t', (L.moveToFront t c).next a = L.next a ∧
          (L.moveToFront t c).prev a = L.prev a := fun a ha =>
        hother a fun hat => ht (h.apart ha hat)
      exact (h.chain t').congr (fun a ha => (hkept a ha).1) fun a ha => (hkept a ha).2
  · exact h.apart ((toFront_perm hc t₁).mem_iff.1 h₁) ((toFront_perm hc t₂).mem_iff.1 h₂)
  · have hout : ∀ t', a ∉ lists t' := fun t' hmem => ha t' ((toFront_perm hc t').mem_iff.2 hmem)
    obtain ⟨hn', hp'⟩ := hother a (hout t)
    rw [hn', hp']
    exact h.free hout

omit [DecidableEq T] [DecidableEq C] in
theorem findFrom_eq {before : Option C} {test : C → Bool} {l : List C} {fuel : Nat}
    (hl : Chained L.next L.prev before l none) (hfuel : l.length < fuel) :
    L.findFrom test fuel l.head? = l.find? test := by
  induction l generalizing before fuel with
  | nil =>
      obtain ⟨fuel, rfl⟩ : ∃ n, fuel = n + 1 := ⟨fuel - 1, by omega⟩
      rfl
  | cons c l ih =>
      rw [List.length_cons] at hfuel
      obtain ⟨fuel, rfl⟩ : ∃ n, fuel = n + 1 := ⟨fuel - 1, by omega⟩
      rw [List.head?_cons, Links.findFrom, List.find?_cons]
      cases test c with
      | true => rfl
      | false =>
          have hnext : L.next c = l.head? := by simpa using hl.2.1
          rw [if_neg (by simp), hnext]
          exact ih hl.2.2 (by omega)

/-- What a look up answers and what it does to the lists. -/
theorem check (h : Represents L lists) (test : C → Bool) {fuel : Nat} {t : T}
    (hfuel : (lists t).length < fuel) :
    (L.check test fuel t).1 = (lists t).find? test ∧
      ∃ lists', Represents (L.check test fuel t).2 lists' ∧ ∀ t', (lists' t').Perm (lists t') := by
  have hfind : L.findFrom test fuel (L.head t) = (lists t).find? test := by
    rw [h.head t]
    exact findFrom_eq (h.chain t) hfuel
  unfold Links.check
  rw [hfind]
  cases hf : (lists t).find? test with
  | none => exact ⟨rfl, lists, h, fun _ => List.Perm.refl _⟩
  | some c =>
      simp only
      split
      · exact ⟨rfl, lists, h, fun _ => List.Perm.refl _⟩
      · next hhead =>
          have hc : c ∈ lists t := List.mem_of_find?_eq_some hf
          exact ⟨rfl, toFront lists t c, h.moveToFront hc hhead, toFront_perm hc⟩

end Represents

end Swig4Ada.Lib

import Mathlib

/-!
# Doubly linked chains

A chain is a list of nodes that two link functions spell out: `next` leads from
each node to the following one, and `prev` back. `Chained` says it for a segment,
with the node before the segment and the node behind it, so that segments can be
put together. A whole chain has nothing before it and nothing behind it; it is
then determined by any one of its nodes, and no node is in it twice.
-/

namespace Swig4Ada.Lib

variable {N : Type} {next prev : N → Option N}

/-- The links spell out the list, from the node before it to the one behind. -/
def Chained (next prev : N → Option N) : Option N → List N → Option N → Prop
  | _, [], _ => True
  | before, a :: l, behind =>
      prev a = before ∧ next a = l.head?.or behind ∧ Chained next prev (some a) l behind

/-- A whole chain. -/
abbrev Chain (next prev : N → Option N) (l : List N) : Prop := Chained next prev none l none

namespace Chained

theorem append_iff {before behind : Option N} {l m : List N} :
    Chained next prev before (l ++ m) behind ↔
      Chained next prev before l (m.head?.or behind) ∧
        Chained next prev (l.getLast?.or before) m behind := by
  induction l generalizing before with
  | nil => simp [Chained]
  | cons a l ih =>
      have hhead : (l ++ m).head?.or behind = l.head?.or (m.head?.or behind) := by
        cases l <;> simp
      have hlast : (a :: l).getLast?.or before = l.getLast?.or (some a) := by
        cases l <;> simp [List.getLast?_cons_cons]
        cases h : (_ :: _ : List N).getLast? <;> simp_all
      rw [List.cons_append, Chained, Chained, ih, hhead, hlast]
      tauto

/-- Only the links of the chain's own nodes matter. -/
theorem congr {next' prev' : N → Option N} {before behind : Option N} {l : List N}
    (h : Chained next prev before l behind) (hnext : ∀ a ∈ l, next' a = next a)
    (hprev : ∀ a ∈ l, prev' a = prev a) : Chained next' prev' before l behind := by
  induction l generalizing before with
  | nil => trivial
  | cons a l ih =>
      obtain ⟨hp, hn, hl⟩ := h
      refine ⟨(hprev a List.mem_cons_self).trans hp, (hnext a List.mem_cons_self).trans hn, ?_⟩
      exact ih hl (fun b hb => hnext b (List.mem_cons_of_mem a hb))
        fun b hb => hprev b (List.mem_cons_of_mem a hb)

theorem prev_head {before behind : Option N} {a : N} {l : List N}
    (h : Chained next prev before l behind) (ha : l.head? = some a) : prev a = before := by
  cases l with
  | nil => cases ha
  | cons b l =>
      obtain rfl : b = a := by simpa using ha
      exact h.1

theorem next_last {before behind : Option N} {a : N} {l : List N}
    (h : Chained next prev before l behind) (ha : l.getLast? = some a) : next a = behind := by
  obtain ⟨l', rfl⟩ := List.getLast?_eq_some_iff.1 ha
  obtain ⟨-, hlast⟩ := append_iff.1 h
  simpa [Chained] using hlast.2.1

/-- A chain is read off from its first node, so one is a beginning of another
that starts where it does. -/
theorem prefix_of_head {before before' : Option N} {l m : List N}
    (hl : Chained next prev before l none) (hm : Chained next prev before' m none)
    (hhead : l.head? = m.head?) : l = m := by
  induction l generalizing m before before' with
  | nil =>
      cases m with
      | nil => rfl
      | cons b m => cases hhead
  | cons a l ih =>
      cases m with
      | nil => cases hhead
      | cons b m =>
          obtain rfl : a = b := by simpa using hhead
          have htail : l.head? = m.head? := by
            have h := hl.2.1.symm.trans hm.2.1
            simpa using h
          rw [ih hl.2.2 hm.2.2 htail]

/-- Every node of a chain but the first has one before it. -/
theorem prev_eq_none_iff {a : N} {l : List N} (h : Chain next prev l) (ha : a ∈ l) :
    prev a = none ↔ l.head? = some a := by
  obtain ⟨l₁, l₂, rfl⟩ := List.append_of_mem ha
  obtain ⟨-, hmid⟩ := append_iff.1 h
  cases hlast : l₁.getLast? with
  | none =>
      obtain rfl := List.getLast?_eq_none_iff.1 hlast
      simp [hmid.1]
  | some b =>
      have hp : prev a = some b := by simpa [hlast] using hmid.1
      cases l₁ with
      | nil => cases hlast
      | cons c l₁ =>
          -- The first node `c` has nothing before it, and `a` has `b`.
          have hc : prev c = none := prev_head h rfl
          have hne : c ≠ a := by
            rintro rfl
            rw [hc] at hp
            cases hp
          simp [hp, hne]

/-- Two chains with a common node are one. -/
theorem eq_of_mem {a : N} {l m : List N} (hl : Chain next prev l) (hm : Chain next prev m)
    (hal : a ∈ l) (ham : a ∈ m) : l = m := by
  obtain ⟨l₁, l₂, rfl⟩ := List.append_of_mem hal
  induction l₁ using List.reverseRecOn generalizing a l₂ with
  | nil =>
      refine prefix_of_head hl hm ?_
      have hp : prev a = none := prev_head hl rfl
      exact ((prev_eq_none_iff hm ham).1 hp).symm
  | append_singleton l₁ b ih =>
      have hp : prev a = some b := by
        obtain ⟨-, h⟩ := append_iff.1 hl
        simpa using h.1
      -- The node before `a` is in both as well.
      have hbm : b ∈ m := by
        obtain ⟨m₁, m₂, rfl⟩ := List.append_of_mem ham
        obtain ⟨-, h⟩ := append_iff.1 hm
        have hlast : m₁.getLast? = some b := by
          have h' := h.1.symm.trans hp
          simpa using h'
        exact List.mem_append_left _ (List.mem_of_getLast? hlast)
      have hlist : l₁ ++ [b] ++ a :: l₂ = l₁ ++ b :: (a :: l₂) := by simp
      rw [hlist] at hl ⊢
      exact ih hbm (a :: l₂) hl (by simp)

theorem eq_singleton {a : N} {l : List N} (h : Chain next prev l) (ha : a ∈ l)
    (hprev : prev a = none) (hnext : next a = none) : l = [a] := by
  have hone : Chain next prev [a] := ⟨hprev, by simpa using hnext, trivial⟩
  exact eq_of_mem h hone ha List.mem_cons_self

theorem nodup {l : List N} (h : Chain next prev l) : l.Nodup := by
  suffices ∀ {before : Option N} {m : List N}, Chained next prev before m none → m.Nodup from
    this h
  intro before m hm
  induction m generalizing before with
  | nil => exact List.nodup_nil
  | cons a m ih =>
      refine List.nodup_cons.2 ⟨fun hmem => ?_, ih hm.2.2⟩
      -- The same node further on would start the same, longer, rest again.
      obtain ⟨m₁, m₂, rfl⟩ := List.append_of_mem hmem
      obtain ⟨-, hrest⟩ := append_iff.1 hm.2.2
      have heq := prefix_of_head hm hrest rfl
      have hlen := congrArg List.length heq
      simp at hlen
      omega

/-- A node of a chain and what follows it. -/
theorem next_mem {before : Option N} {a b : N} {l : List N}
    (h : Chained next prev before l none) (ha : a ∈ l) (hab : next a = some b) : b ∈ l := by
  obtain ⟨l₁, l₂, rfl⟩ := List.append_of_mem ha
  obtain ⟨-, hmid⟩ := append_iff.1 h
  have hhead : l₂.head? = some b := by
    have h' := hmid.2.1.symm.trans hab
    simpa using h'
  exact List.mem_append_right _ (List.mem_cons_of_mem a (List.mem_of_head? hhead))

/-- A node of a chain and what stands before it. -/
theorem prev_mem {a b : N} {l : List N} (h : Chain next prev l) (ha : a ∈ l)
    (hab : prev a = some b) : b ∈ l := by
  obtain ⟨l₁, l₂, rfl⟩ := List.append_of_mem ha
  obtain ⟨-, hmid⟩ := append_iff.1 h
  have hlast : l₁.getLast? = some b := by
    have h' := hmid.1.symm.trans hab
    simpa using h'
  exact List.mem_append_left _ (List.mem_of_getLast? hlast)

/-- A chain without one of its nodes, when its neighbours are linked to each other. -/
theorem unlink {next' prev' : N → Option N} {x : N} {l m : List N}
    (h : Chain next prev (l ++ x :: m))
    (hlast : ∀ a, l.getLast? = some a → next' a = m.head?)
    (hnext : ∀ a ∈ l ++ m, l.getLast? ≠ some a → next' a = next a)
    (hhead : ∀ a, m.head? = some a → prev' a = l.getLast?)
    (hprev : ∀ a ∈ l ++ m, m.head? ≠ some a → prev' a = prev a) :
    Chain next' prev' (l ++ m) := by
  have hnodup : (l ++ x :: m).Nodup := h.nodup
  obtain ⟨hl, hxm⟩ := append_iff.1 h
  obtain ⟨-, -, hm⟩ := hxm
  refine append_iff.2 ⟨?_, ?_⟩
  · cases l using List.reverseRecOn with
    | nil => trivial
    | append_singleton l p =>
        obtain ⟨hl, hp, -⟩ := append_iff.1 hl
        have hpl : p ∉ l ∧ ∀ a ∈ l ++ [p], a ∉ m := by
          rw [List.nodup_append, List.nodup_append] at hnodup
          refine ⟨fun hmem => hnodup.1.2.2 p hmem p List.mem_cons_self rfl, fun a ha hm => ?_⟩
          exact hnodup.2.2 a ha a (List.mem_cons_of_mem x hm) rfl
        have hfree : ∀ a ∈ l ++ [p], m.head? ≠ some a := fun a ha hsome =>
          hpl.2 a ha (List.mem_of_head? hsome)
        have hmem : ∀ a ∈ l ++ [p], a ∈ l ++ [p] ++ m := fun a ha => List.mem_append_left _ ha
        refine append_iff.2 ⟨hl.congr (fun a ha => hnext a ?_ ?_) fun a ha => hprev a ?_ ?_, ?_⟩
        · exact hmem a (List.mem_append_left _ ha)
        · have hne : p ≠ a := fun e => hpl.1 (e ▸ ha)
          simpa using hne
        · exact hmem a (List.mem_append_left _ ha)
        · exact hfree a (List.mem_append_left _ ha)
        · refine ⟨?_, by simpa using hlast p (by simp), trivial⟩
          have hpmem : p ∈ l ++ [p] := List.mem_append_right _ List.mem_cons_self
          exact (hprev p (hmem p hpmem) (hfree p hpmem)).trans hp
  · cases m with
    | nil => trivial
    | cons c m =>
        have hcm : c ∉ m ∧ ∀ a ∈ l, a ∉ c :: m := by
          rw [List.nodup_append] at hnodup
          refine ⟨(List.nodup_cons.1 (List.nodup_cons.1 hnodup.2.1).2).1, fun a ha hm => ?_⟩
          exact hnodup.2.2 a ha a (List.mem_cons_of_mem x hm) rfl
        have hfree : ∀ a ∈ c :: m, l.getLast? ≠ some a := fun a ha hsome =>
          hcm.2 a (List.mem_of_getLast? hsome) ha
        have hmem : ∀ a ∈ c :: m, a ∈ l ++ c :: m := fun a ha => List.mem_append_right _ ha
        refine ⟨by simpa using hhead c rfl, ?_, hm.2.2.congr (fun a ha => hnext a ?_ ?_)
          fun a ha => hprev a ?_ ?_⟩
        · exact (hnext c (hmem c List.mem_cons_self) (hfree c List.mem_cons_self)).trans hm.2.1
        · exact hmem a (List.mem_cons_of_mem c ha)
        · exact hfree a (List.mem_cons_of_mem c ha)
        · exact hmem a (List.mem_cons_of_mem c ha)
        · have hne : c ≠ a := fun e => hcm.1 (e ▸ ha)
          simpa using hne

section Update

variable [DecidableEq N]

/-- Links of other nodes can change. -/
theorem update {before behind v w : Option N} {x y : N} {l : List N}
    (h : Chained next prev before l behind) (hx : x ∉ l) (hy : y ∉ l) :
    Chained (Function.update next x v) (Function.update prev y w) before l behind := by
  refine h.congr (fun a ha => ?_) fun a ha => ?_
  · exact Function.update_of_ne (ne_of_mem_of_not_mem ha hx) _ _
  · exact Function.update_of_ne (ne_of_mem_of_not_mem ha hy) _ _

/-- One chain behind another, by the two links between them. -/
theorem join {z c : N} {l m : List N} (hl : Chain next prev l) (hm : Chain next prev m)
    (hz : l.getLast? = some z) (hc : m.head? = some c) (hdisjoint : ∀ a ∈ l, a ∉ m) :
    Chain (Function.update next z (some c)) (Function.update prev c (some z)) (l ++ m) := by
  obtain ⟨l', rfl⟩ := List.getLast?_eq_some_iff.1 hz
  obtain ⟨m', rfl⟩ := List.head?_eq_some_iff.1 hc
  have hnodup := hl.nodup
  have hzl : z ∉ l' := fun h => by
    rw [List.nodup_append] at hnodup
    exact hnodup.2.2 z h z List.mem_cons_self rfl
  have hcl : c ∉ l' ++ [z] := fun h => hdisjoint c h List.mem_cons_self
  have hcm : c ∉ m' := (List.nodup_cons.1 hm.nodup).1
  have hzm : z ∉ c :: m' := hdisjoint z (List.mem_append_right _ List.mem_cons_self)
  obtain ⟨hl', hlast⟩ := append_iff.1 hl
  refine append_iff.2 ⟨append_iff.2 ⟨?_, ?_⟩, ?_⟩
  · exact hl'.update hzl fun h => hcl (List.mem_append_left _ h)
  · have hne : z ≠ c := fun e => hcl (e ▸ List.mem_append_right _ List.mem_cons_self)
    refine ⟨?_, by simp, trivial⟩
    rw [Function.update_of_ne hne]
    exact hlast.1
  · have hne : c ≠ z := fun e => hzm (e ▸ List.mem_cons_self)
    refine ⟨by simp, ?_, ?_⟩
    · rw [Function.update_of_ne hne]
      exact hm.2.1
    · exact hm.2.2.update (fun h => hzm (List.mem_cons_of_mem c h)) hcm

end Update

end Chained

/-! ## What is reached by following `next` -/

/-- `b` is `a`, or it is met when `next` is followed from `a`. -/
def Reaches (next : N → Option N) : N → N → Prop :=
  Relation.ReflTransGen fun a b => next a = some b

theorem Reaches.mono {next' : N → Option N} {a b : N} (h : Reaches next a b)
    (hnext : ∀ x y, next x = some y → next' x = some y) : Reaches next' a b :=
  Relation.ReflTransGen.mono hnext _ _ h

theorem Chained.mem_of_reaches {before : Option N} {a b : N} {l : List N}
    (h : Chained next prev before l none) (ha : a ∈ l) (hab : Reaches next a b) : b ∈ l := by
  induction hab with
  | refl => exact ha
  | tail _ hstep ih => exact h.next_mem ih hstep

theorem Chained.reaches {before : Option N} {a b : N} {l : List N}
    (h : Chained next prev before l none) (hhead : l.head? = some a) (hb : b ∈ l) :
    Reaches next a b := by
  induction l generalizing before a with
  | nil => cases hb
  | cons c l ih =>
      obtain rfl : c = a := by simpa using hhead
      rcases List.mem_cons.1 hb with rfl | hb
      · exact Relation.ReflTransGen.refl
      · cases l with
        | nil => cases hb
        | cons d l =>
            have hstep : next c = some d := by simpa using h.2.1
            exact Relation.ReflTransGen.head hstep (ih h.2.2 rfl hb)

/-- Following `next` from the node comes to an end. -/
def Terminates (next : N → Option N) (a : N) : Prop := ∃ e, Reaches next a e ∧ next e = none

theorem Reaches.of_next_none {a b : N} (h : Reaches next a b) (ha : next a = none) : b = a := by
  cases h using Relation.ReflTransGen.head_induction_on with
  | refl => rfl
  | head hstep _ =>
      rw [ha] at hstep
      cases hstep

section Update

variable [DecidableEq N]

/-- A link from the end `e` of some chains to a node `c` from which `e` is not reached. -/
theorem Reaches.link_iff {e c a b : N} (he : next e = none) (hce : ¬ Reaches next c e) :
    Reaches (Function.update next e (some c)) a b ↔
      Reaches next a b ∨ Reaches next a e ∧ Reaches next c b := by
  have hold : ∀ {x y}, Reaches next x y → Reaches (Function.update next e (some c)) x y := by
    intro x y h
    refine h.mono fun u v huv => ?_
    have hne : u ≠ e := by
      rintro rfl
      rw [he] at huv
      cases huv
    rwa [Function.update_of_ne hne]
  constructor
  · intro h
    induction h with
    | refl => exact Or.inl Relation.ReflTransGen.refl
    | @tail x y _ hstep ih =>
        by_cases hx : x = e
        · subst hx
          obtain rfl : c = y := by simpa using hstep
          rcases ih with h | ⟨-, h⟩
          · exact Or.inr ⟨h, Relation.ReflTransGen.refl⟩
          · exact absurd h hce
        · rw [Function.update_of_ne hx] at hstep
          rcases ih with h | ⟨hae, h⟩
          · exact Or.inl (h.tail hstep)
          · exact Or.inr ⟨hae, h.tail hstep⟩
  · rintro (h | ⟨hae, h⟩)
    · exact hold h
    · have hstep : Reaches (Function.update next e (some c)) e c :=
        Relation.ReflTransGen.single (by simp)
      exact ((hold hae).trans hstep).trans (hold h)

theorem Terminates.link {e c a : N} (he : next e = none) (hce : ¬ Reaches next c e)
    (hc : Terminates next c) (ha : Terminates next a) :
    Terminates (Function.update next e (some c)) a := by
  have hkeep : ∀ d, d ≠ e → next d = none → Function.update next e (some c) d = none :=
    fun d hne hd => by rwa [Function.update_of_ne hne]
  obtain ⟨d, had, hd⟩ := ha
  by_cases hde : d = e
  · subst hde
    obtain ⟨f, hcf, hf⟩ := hc
    refine ⟨f, (Reaches.link_iff he hce).2 (Or.inr ⟨had, hcf⟩), hkeep f ?_ hf⟩
    rintro rfl
    exact hce hcf
  · exact ⟨d, (Reaches.link_iff he hce).2 (Or.inl had), hkeep d hde hd⟩

/-- Without the link of a node nothing new is reached. -/
theorem Reaches.of_cut {x a b : N} (h : Reaches (Function.update next x none) a b) :
    Reaches next a b := by
  refine h.mono fun u v huv => ?_
  by_cases hux : u = x
  · subst hux
    simp at huv
  · rwa [Function.update_of_ne hux] at huv

theorem Reaches.cut {x a b : N} (h : Reaches next a b) (hxb : Reaches next x b → b = x) :
    Reaches (Function.update next x none) a b := by
  induction h using Relation.ReflTransGen.head_induction_on with
  | refl => exact Relation.ReflTransGen.refl
  | @head a c hstep hcb ih =>
      by_cases hax : a = x
      · subst hax
        rw [hxb (Relation.ReflTransGen.head hstep hcb)]
        exact Relation.ReflTransGen.refl
      · refine Relation.ReflTransGen.head ?_ ih
        rwa [Function.update_of_ne hax]

theorem Terminates.cut {x a : N} (h : Terminates next a) :
    Terminates (Function.update next x none) a := by
  obtain ⟨e, hae, he⟩ := h
  induction hae using Relation.ReflTransGen.head_induction_on with
  | refl =>
      refine ⟨e, Relation.ReflTransGen.refl, ?_⟩
      by_cases hex : e = x
      · simp [hex]
      · rwa [Function.update_of_ne hex]
  | @head a c hstep _ ih =>
      by_cases hax : a = x
      · exact ⟨a, Relation.ReflTransGen.refl, by simp [hax]⟩
      · obtain ⟨d, hcd, hd⟩ := ih
        refine ⟨d, Relation.ReflTransGen.head ?_ hcd, hd⟩
        rwa [Function.update_of_ne hax]

end Update

end Swig4Ada.Lib

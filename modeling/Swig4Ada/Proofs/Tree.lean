import Swig4Ada.Swig.Tree

/-!
# Runs of tree operations stay well linked

A step that joins a chain to the children of a node is one fact, `adopted_wellLinked`,
whichever of the three insertions makes it; the walks along siblings are closed
forms over chains (`setParents_chain`, `lastSibling_chain`). Two slips of the code
break the links: `prependChild` neither follows the inserted chain to its end nor
sets `lastChild`, and `removeNode` keeps the link to the previous sibling. The
sequences that stay well linked are exactly those which avoid both.
-/

namespace Swig4Ada.Swig

open Swig4Ada.Lib

variable {N : Type} {t t' : Tree N}

/-! ## The chains of a well linked tree -/

namespace WellLinked

theorem below_iff (h : WellLinked t) {p n : N} : Below t p n ↔ t.parentNode n = some p := by
  obtain ⟨l, hl, hfirst, -, hmem⟩ := h.children p
  rw [← hmem]
  constructor
  · rintro ⟨first, hf, hreach⟩
    rw [hfirst] at hf
    exact hl.mem_of_reaches (List.mem_of_head? hf) hreach
  · intro hn
    cases hhead : l.head? with
    | none => simp_all
    | some first => exact ⟨first, hfirst.trans hhead, hl.reaches hhead hn⟩

/-- The chain that an insertion is given. -/
theorem detached_chain (h : WellLinked t) {c : N} (hc : Detached t c) :
    ∃ l, Chain t.nextSibling t.previousSibling l ∧ l.head? = some c ∧
      ∀ m ∈ l, t.parentNode m = none := by
  obtain ⟨l, hl, hmem, hparent⟩ := h.detached c hc.1
  exact ⟨l, hl, (hl.prev_eq_none_iff hmem).1 hc.2, hparent⟩

/-- The siblings of a node, whether it has a parent or not. -/
theorem siblings (h : WellLinked t) (n : N) :
    ∃ l, Chain t.nextSibling t.previousSibling l ∧ n ∈ l ∧
      ∀ m ∈ l, t.parentNode m = t.parentNode n := by
  cases hn : t.parentNode n with
  | none => exact h.detached n hn
  | some p =>
      obtain ⟨l, hl, -, -, hmem⟩ := h.children p
      exact ⟨l, hl, (hmem n).2 hn, fun m hm => (hmem m).1 hm⟩

end WellLinked

/-- Children that keep their parents are not lost. -/
theorem below_mono (h : WellLinked t) (h' : WellLinked t')
    (hkeep : ∀ m, t.parentNode m ≠ none → t'.parentNode m = t.parentNode m) :
    ∀ p n, Below t p n → Below t' p n := by
  intro p n hn
  rw [h.below_iff] at hn
  rw [h'.below_iff, hkeep n (by rw [hn]; exact Option.some_ne_none p), hn]

/-- Of two chains whose nodes have different parents none is in the other. -/
theorem not_mem_of_parent {l m : List N} {p q : Option N} (hl : ∀ a ∈ l, t.parentNode a = p)
    (hm : ∀ a ∈ m, t.parentNode a = q) (hne : p ≠ q) : ∀ a ∈ l, a ∉ m := fun a hal ham =>
  hne ((hl a hal).symm.trans (hm a ham))

/-! ## The walks along siblings -/

theorem lastSibling_chain {a z : N} {l : List N} {before : Option N} {fuel : Nat}
    (h : Chained t.nextSibling t.previousSibling before l none) (ha : l.head? = some a)
    (hz : l.getLast? = some z) (hfuel : l.length ≤ fuel) : lastSibling fuel t a = some z := by
  induction l generalizing a before fuel with
  | nil => cases ha
  | cons b l ih =>
      obtain rfl : b = a := by simpa using ha
      obtain ⟨fuel, rfl⟩ : ∃ f, fuel = f + 1 := ⟨fuel - 1, by simp at hfuel; omega⟩
      have hnext : t.nextSibling b = l.head? := by simpa using h.2.1
      rw [lastSibling, hnext]
      cases l with
      | nil => simpa using hz
      | cons c l =>
          rw [List.getLast?_cons_cons] at hz
          exact ih h.2.2 rfl hz (by simp at hfuel ⊢; omega)

variable [DecidableEq N]

/-- Every node of the list gets the parent. -/
def Tree.adopt (t : Tree N) (node : N) (l : List N) : Tree N :=
  { t with parentNode := fun m => if m ∈ l then some node else t.parentNode m }

theorem setParents_chain {node : N} {l : List N} {before : Option N} (lc : Option N) {fuel : Nat}
    (h : Chained t.nextSibling t.previousSibling before l none) (hfuel : l.length < fuel) :
    setParents node fuel t l.head? lc = some (t.adopt node l, l.getLast?.or lc) := by
  induction l generalizing t before lc fuel with
  | nil =>
      obtain ⟨fuel, rfl⟩ : ∃ f, fuel = f + 1 := ⟨fuel - 1, by simp at hfuel; omega⟩
      simp [setParents, Tree.adopt]
  | cons a l ih =>
      obtain ⟨fuel, rfl⟩ : ∃ f, fuel = f + 1 := ⟨fuel - 1, by simp at hfuel; omega⟩
      have hnext : t.nextSibling a = l.head? := by simpa using h.2.1
      have hrest := ih (t := t.setParentNode a (some node)) (some a) h.2.2
        (show l.length < fuel by simp at hfuel; omega)
      rw [List.head?_cons, setParents, hnext, hrest]
      have hlast : (a :: l).getLast?.or lc = l.getLast?.or (some a) := by
        cases l with
        | nil => rfl
        | cons b l => rw [List.getLast?_cons_cons]; simp [List.getLast?_cons]
      rw [hlast]
      have hparents : (fun m => if m ∈ l then some node else
          (t.setParentNode a (some node)).parentNode m) =
            fun m => if m ∈ a :: l then some node else t.parentNode m := by
        funext m
        by_cases hm : m ∈ l
        · rw [if_pos hm, if_pos (List.mem_cons_of_mem a hm)]
        · by_cases hma : m = a
          · simp [hma, Tree.setParentNode]
          · simp [hm, hma, Tree.setParentNode]
      simp only [Tree.adopt, hparents]
      rfl

/-! ## Insertions -/

/-- A node takes in a detached chain: its children are then a chain of the nodes
of both, and the other chains are as before. -/
theorem adopted_wellLinked (h : WellLinked t) {node : N} (lp lc l' : List N)
    (hlp : ∀ n, n ∈ lp ↔ t.parentNode n = some node)
    (hlc : Chain t.nextSibling t.previousSibling lc) (hdetached : ∀ m ∈ lc, t.parentNode m = none)
    (hmem : ∀ n, n ∈ l' ↔ n ∈ lp ∨ n ∈ lc)
    (hchain : Chain t'.nextSibling t'.previousSibling l')
    (hparent : ∀ n, t'.parentNode n = if n ∈ lc then some node else t.parentNode n)
    (hfirst : ∀ p, t'.firstChild p = if p = node then l'.head? else t.firstChild p)
    (hlast : ∀ p, t'.lastChild p = if p = node then l'.getLast? else t.lastChild p)
    (hframe : ∀ l, Chain t.nextSibling t.previousSibling l → (∀ a ∈ l, a ∉ lp) →
      (∀ a ∈ l, a ∉ lc) → Chain t'.nextSibling t'.previousSibling l) :
    WellLinked t' := by
  have hlp' : ∀ a ∈ lp, t.parentNode a = some node := fun a ha => (hlp a).1 ha
  refine ⟨fun p => ?_, fun n hn => ?_⟩
  · by_cases hp : p = node
    · refine ⟨l', hchain, by rw [hfirst, if_pos hp], by rw [hlast, if_pos hp], fun n => ?_⟩
      rw [hmem, hparent, hp, hlp]
      by_cases hn : n ∈ lc <;> simp [hn]
    · obtain ⟨l, hl, hf, hz, hn⟩ := h.children p
      have hl' : ∀ a ∈ l, t.parentNode a = some p := fun a ha => (hn a).1 ha
      have hnotlc := not_mem_of_parent hl' hdetached (by simp)
      refine ⟨l, hframe l hl (not_mem_of_parent hl' hlp' (by simpa using hp)) hnotlc, ?_, ?_, ?_⟩
      · rw [hfirst, if_neg hp, hf]
      · rw [hlast, if_neg hp, hz]
      · intro n
        rw [hn, hparent]
        by_cases hc : n ∈ lc
        · rw [if_pos hc, hdetached n hc]
          simpa using fun e => hp e.symm
        · rw [if_neg hc]
  · rw [hparent] at hn
    have hc : n ∉ lc := fun hc => by rw [if_pos hc] at hn; cases hn
    rw [if_neg hc] at hn
    obtain ⟨l, hl, hnl, hnone⟩ := h.detached n hn
    have hnotlc : ∀ a ∈ l, a ∉ lc := fun a hal hac => hc (hl.eq_of_mem hlc hal hac ▸ hnl)
    refine ⟨l, hframe l hl (not_mem_of_parent hnone hlp' (by simp)) hnotlc, hnl, fun m hm => ?_⟩
    rw [hparent, if_neg (hnotlc m hm), hnone m hm]

theorem TreeOp.Ends.unique {op : TreeOp N} {t₁ t₂ : Tree N} (h₁ : op.Ends t t₁)
    (h₂ : op.Ends t t₂) : t₁ = t₂ := by
  obtain ⟨n₁, h₁⟩ := h₁
  obtain ⟨n₂, h₂⟩ := h₂
  have h := (h₁ (max n₁ n₂) (le_max_left _ _)).symm.trans (h₂ (max n₁ n₂) (le_max_right _ _))
  exact Option.some.inj h

/-- The links of the joined chain, and what is left of the others. -/
theorem join_frame {z c : N} {l m k : List N} (hk : Chain t.nextSibling t.previousSibling k)
    (hz : l.getLast? = some z) (hc : m.head? = some c) (hkl : ∀ a ∈ k, a ∉ l)
    (hkm : ∀ a ∈ k, a ∉ m) :
    Chain (Function.update t.nextSibling z (some c))
      (Function.update t.previousSibling c (some z)) k :=
  hk.update (fun h => hkl z h (List.mem_of_getLast? hz))
    fun h => hkm c h (List.mem_of_head? hc)

theorem appendChild_ends (h : WellLinked t) (node : N) {c : N} (hc : Detached t c) :
    ∃ t', (TreeOp.appendChild node (some c)).Ends t t' ∧ WellLinked t' ∧
      (∀ m, t.parentNode m ≠ none → t'.parentNode m = t.parentNode m) ∧
      ∀ n, Reaches t.nextSibling c n → t'.parentNode n = some node := by
  obtain ⟨lc, hlc, hhead, hdetached⟩ := h.detached_chain hc
  obtain ⟨lp, hlp, hfirst, hlast, hmem⟩ := h.children node
  have hreach : ∀ n, Reaches t.nextSibling c n → n ∈ lc := fun n hn =>
    hlc.mem_of_reaches (List.mem_of_head? hhead) hn
  have hold : ∀ {s : Tree N}, s.parentNode = t.parentNode → ∀ m, t.parentNode m ≠ none →
      (s.adopt node lc).parentNode m = t.parentNode m := by
    intro s hs m hm
    have hnot : m ∉ lc := fun hm' => hm (hdetached m hm')
    show (if m ∈ lc then some node else s.parentNode m) = _
    rw [if_neg hnot, hs]
  have hnew : ∀ (s : Tree N) (n : N), Reaches t.nextSibling c n →
      (s.adopt node lc).parentNode n = some node := fun s n hn => if_pos (hreach n hn)
  have hnot : ∀ a ∈ lp, a ∉ lc :=
    not_mem_of_parent (fun a ha => (hmem a).1 ha) hdetached (by simp)
  cases hz : lp.getLast? with
  | none =>
      obtain rfl := List.getLast?_eq_none_iff.1 hz
      have hwalk : ∀ fuel ≥ lc.length + 1, setParents node fuel
          (t.setFirstChild node (some c)) (some c) none =
            some ((t.setFirstChild node (some c)).adopt node lc, lc.getLast?) := by
        intro fuel hfuel
        rw [← hhead, setParents_chain (t := t.setFirstChild node lc.head?) none hlc (by omega)]
        simp
      refine ⟨((t.setFirstChild node (some c)).adopt node lc).setLastChild node lc.getLast?,
        ⟨lc.length + 1, fun fuel hfuel => ?_⟩, ?_, hold rfl, hnew _⟩
      · simp only [TreeOp.run, appendChild, hlast, hz, hwalk fuel hfuel]
        rfl
      · refine adopted_wellLinked h [] lc lc hmem hlc hdetached (by simp)
          hlc (fun n => rfl) (fun p => ?_) (fun p => ?_) fun l hl _ _ => hl
        · rw [hhead]
          by_cases hp : p = node
          · simp [hp, Tree.setLastChild, Tree.adopt, Tree.setFirstChild]
          · simp [hp, Tree.setLastChild, Tree.adopt, Tree.setFirstChild]
        · by_cases hp : p = node
          · simp [hp, Tree.setLastChild, Tree.adopt, Tree.setFirstChild]
          · simp [hp, Tree.setLastChild, Tree.adopt, Tree.setFirstChild]
  | some z =>
      let s := (t.setNextSibling z (some c)).setPreviousSibling c (some z)
      have hjoin := hlp.join hlc hz hhead hnot
      have hwalk : ∀ fuel ≥ lc.length + 1, setParents node fuel s (some c) (some z) =
          some (s.adopt node lc, lc.getLast?) := by
        intro fuel hfuel
        have hafter := (Chained.append_iff.1 hjoin).2
        rw [← hhead, setParents_chain (t := s) _ hafter (by omega)]
        cases hlc' : lc.getLast? <;> simp_all
      refine ⟨(s.adopt node lc).setLastChild node lc.getLast?,
        ⟨lc.length + 1, fun fuel hfuel => ?_⟩, ?_, hold rfl, hnew _⟩
      · simp only [TreeOp.run, appendChild, hlast, hz]
        rw [hwalk fuel hfuel]
        rfl
      · refine adopted_wellLinked h lp lc (lp ++ lc) hmem hlc hdetached
          (fun n => List.mem_append) hjoin (fun n => rfl) (fun p => ?_) (fun p => ?_)
          fun l hl hkl hkm => join_frame hl hz hhead hkl hkm
        · by_cases hp : p = node
          · have hne : lp ≠ [] := by rintro rfl; cases hz
            simp [hp, Tree.setLastChild, Tree.adopt, s, Tree.setPreviousSibling,
              Tree.setNextSibling, hfirst, List.head?_append, List.head?_eq_some_head hne]
          · simp [hp, Tree.setLastChild, Tree.adopt, s, Tree.setPreviousSibling,
              Tree.setNextSibling]
        · by_cases hp : p = node
          · have hne : lc ≠ [] := by rintro rfl; cases hhead
            simp [hp, Tree.setLastChild, Tree.adopt, List.getLast?_append,
              List.getLast?_eq_some_getLast hne]
          · simp [hp, Tree.setLastChild, Tree.adopt, s, Tree.setPreviousSibling,
              Tree.setNextSibling]

/-- The prepended node alone: the walk of the parents runs over it and the whole
old list. -/
theorem prependChild_ends (h : WellLinked t) {node c : N} (hc : Detached t c)
    (hchildren : t.firstChild node ≠ none) (halone : t.nextSibling c = none) :
    ∃ t', (TreeOp.prependChild node (some c)).Ends t t' ∧ WellLinked t' ∧
      (∀ m, t.parentNode m ≠ none → t'.parentNode m = t.parentNode m) ∧
      ∀ n, Reaches t.nextSibling c n → t'.parentNode n = some node := by
  obtain ⟨fc, hfc⟩ := Option.ne_none_iff_exists'.1 hchildren
  obtain ⟨lc, hlc, hhead, hdetached⟩ := h.detached_chain hc
  obtain rfl : lc = [c] := hlc.eq_singleton (List.mem_of_head? hhead) hc.2 halone
  obtain ⟨lp, hlp, hfirst, hlast, hmem⟩ := h.children node
  have hlphead : lp.head? = some fc := hfirst.symm.trans hfc
  have hnot : ∀ a ∈ [c], a ∉ lp :=
    not_mem_of_parent hdetached (fun a ha => (hmem a).1 ha) (by simp)
  have hjoin := hlc.join hlp rfl hlphead hnot
  let s := (t.setNextSibling c (some fc)).setPreviousSibling fc (some c)
  let s' := s.setFirstChild node (some c)
  have hwalk : ∀ fuel ≥ lp.length + 2, setParents node fuel s' (some c) none =
      some (s'.adopt node (c :: lp), (c :: lp).getLast?) := by
    intro fuel hfuel
    have hlen : (c :: lp).length < fuel := by
      rw [List.length_cons]
      omega
    simpa using setParents_chain (t := s') none hjoin hlen
  have hparent : ∀ n, (s'.adopt node (c :: lp)).parentNode n =
      if n ∈ [c] then some node else t.parentNode n := by
    intro n
    show (if n ∈ c :: lp then some node else t.parentNode n) = _
    by_cases hn : n ∈ [c]
    · rw [if_pos hn, if_pos (by simp_all)]
    · rw [if_neg hn]
      by_cases hn' : n ∈ c :: lp
      · rw [if_pos hn', (hmem n).1 (by simp_all)]
      · rw [if_neg hn']
  refine ⟨s'.adopt node (c :: lp), ⟨lp.length + 2, fun fuel hfuel => ?_⟩, ?_, ?_, ?_⟩
  · simp only [TreeOp.run, prependChild, hfc]
    rw [hwalk fuel hfuel]
    rfl
  · refine adopted_wellLinked h lp [c] (c :: lp) hmem hlc hdetached
      (fun n => by simp [or_comm]) hjoin hparent (fun p => ?_) (fun p => ?_)
      fun l hl hkl hkc => join_frame hl (l := [c]) rfl hlphead hkc hkl
    · by_cases hp : p = node
      · simp [hp, Tree.adopt, s', Tree.setFirstChild]
      · simp [hp, Tree.adopt, s', s, Tree.setFirstChild, Tree.setPreviousSibling,
          Tree.setNextSibling]
    · have hne : lp ≠ [] := by rintro rfl; cases hlphead
      by_cases hp : p = node
      · rw [if_pos hp, List.getLast?_cons, hp]
        show t.lastChild node = _
        rw [hlast]
        cases hz : lp.getLast? with
        | none => exact absurd (List.getLast?_eq_none_iff.1 hz) hne
        | some z => rfl
      · rw [if_neg hp]
        rfl
  · intro m hm
    rw [hparent, if_neg fun hm' => hm (hdetached m hm')]
  · intro n hn
    rw [hparent, if_pos (hlc.mem_of_reaches List.mem_cons_self hn)]

/-- Links that were there are there after a join at the end of a chain. -/
theorem join_keeps {z c x y : N} (hz : t.nextSibling z = none) (h : t.nextSibling x = some y) :
    Function.update t.nextSibling z (some c) x = some y := by
  have hne : x ≠ z := by
    rintro rfl
    rw [hz] at h
    cases h
  rw [Function.update_of_ne hne, h]

theorem appendSibling_ends (h : WellLinked t) {node c : N} (hc : Detached t c)
    (hapart : ¬ Reaches t.nextSibling c node) :
    ∃ t', (TreeOp.appendSibling node c).Ends t t' ∧ WellLinked t' ∧
      (∀ m, t.parentNode m ≠ none → t'.parentNode m = t.parentNode m) ∧
      ∀ n, Reaches t.nextSibling node n ∨ Reaches t.nextSibling c n →
        Reaches t'.nextSibling node n := by
  obtain ⟨lc, hlc, hhead, hdetached⟩ := h.detached_chain hc
  obtain ⟨ln, hln, hnode, hparents⟩ := h.siblings node
  have hnot : ∀ a ∈ ln, a ∉ lc := by
    intro a ha hac
    have heq := hln.eq_of_mem hlc ha hac
    rw [heq] at hnode
    exact hapart (hlc.reaches hhead hnode)
  obtain ⟨l₁, l₂, hsplit⟩ := List.append_of_mem hnode
  cases hz : ln.getLast? with
  | none => simp_all
  | some z =>
  let s := (t.setNextSibling z (some c)).setPreviousSibling c (some z)
  have hjoin := hln.join hlc hz hhead hnot
  have hwalk : ∀ fuel ≥ ln.length, lastSibling fuel t node = some z := by
    intro fuel hfuel
    rw [hsplit] at hln hz hfuel
    obtain ⟨-, hafter⟩ := Chained.append_iff.1 hln
    refine lastSibling_chain hafter rfl ?_ (by simp at hfuel ⊢; omega)
    simpa [List.getLast?_append] using hz
  have hreaches : ∀ n, Reaches t.nextSibling node n ∨ Reaches t.nextSibling c n →
      Reaches (Function.update t.nextSibling z (some c)) node n := by
    rintro n (hn | hn)
    · exact hn.mono fun x y hxy => join_keeps (hln.next_last hz) hxy
    · have hnlc := hlc.mem_of_reaches (List.mem_of_head? hhead) hn
      rw [hsplit, List.append_assoc] at hjoin
      obtain ⟨-, hafter⟩ := Chained.append_iff.1 hjoin
      exact hafter.reaches rfl (by simp [hnlc])
  cases hp : t.parentNode node with
  | none =>
      refine ⟨s, ⟨ln.length, fun fuel hfuel => ?_⟩, ⟨fun p => ?_, fun n hn => ?_⟩,
        fun m _ => rfl, hreaches⟩
      · simp only [TreeOp.run, appendSibling, hwalk fuel hfuel]
        have hps : s.parentNode node = none := hp
        simp only [Option.bind_eq_bind, Option.bind_some]
        split
        next => rfl
        next parent hparent => cases hps.symm.trans hparent
      · obtain ⟨l, hl, hf, hlast, hmem⟩ := h.children p
        have hl' : ∀ a ∈ l, t.parentNode a = some p := fun a ha => (hmem a).1 ha
        refine ⟨l, join_frame hl hz hhead ?_ ?_, hf, hlast, hmem⟩
        · exact not_mem_of_parent hl' hparents (by simp [hp])
        · exact not_mem_of_parent hl' hdetached (by simp)
      · by_cases hj : n ∈ ln ++ lc
        · refine ⟨ln ++ lc, hjoin, hj, fun m hm => ?_⟩
          rcases List.mem_append.1 hm with hm | hm
          · exact (hparents m hm).trans hp
          · exact hdetached m hm
        · obtain ⟨l, hl, hnl, hnone⟩ := h.detached n hn
          rw [List.mem_append, not_or] at hj
          refine ⟨l, join_frame hl hz hhead (fun a hal ha => hj.1 ?_) fun a hal ha => hj.2 ?_,
            hnl, hnone⟩
          · exact hl.eq_of_mem hln hal ha ▸ hnl
          · exact hl.eq_of_mem hlc hal ha ▸ hnl
  | some p =>
      obtain ⟨lp, hlp, hfirst, hlast, hmem⟩ := h.children p
      obtain rfl : ln = lp := hln.eq_of_mem hlp hnode ((hmem node).2 hp)
      have hwalk' : ∀ fuel ≥ lc.length + 1, setParents p fuel s (some c) (some z) =
          some (s.adopt p lc, lc.getLast?) := by
        intro fuel hfuel
        have hafter := (Chained.append_iff.1 hjoin).2
        rw [← hhead, setParents_chain (t := s) _ hafter (by omega)]
        cases hlc' : lc.getLast? <;> simp_all
      refine ⟨(s.adopt p lc).setLastChild p lc.getLast?,
        ⟨ln.length + lc.length + 1, fun fuel hfuel => ?_⟩, ?_, fun m hm => ?_, hreaches⟩
      · have hps : s.parentNode node = some p := hp
        simp only [TreeOp.run, appendSibling, hwalk fuel (by omega), Option.bind_eq_bind,
          Option.bind_some]
        split
        next hnone => cases hps.symm.trans hnone
        next parent hparent =>
        obtain rfl := Option.some.inj (hps.symm.trans hparent)
        show (setParents p fuel s (some c) (some z)).bind _ = _
        rw [hwalk' fuel (by omega)]
        rfl
      · refine adopted_wellLinked h ln lc (ln ++ lc) hmem hlc hdetached
          (fun n => List.mem_append) hjoin (fun n => rfl) (fun q => ?_) (fun q => ?_)
          fun l hl hkl hkm => join_frame hl hz hhead hkl hkm
        · by_cases hq : q = p
          · have hne : ln ≠ [] := by rintro rfl; cases hz
            simp [hq, Tree.setLastChild, Tree.adopt, s, Tree.setPreviousSibling,
              Tree.setNextSibling, hfirst, List.head?_append, List.head?_eq_some_head hne]
          · simp [hq, Tree.setLastChild, Tree.adopt, s, Tree.setPreviousSibling,
              Tree.setNextSibling]
        · by_cases hq : q = p
          · have hne : lc ≠ [] := by rintro rfl; cases hhead
            simp [hq, Tree.setLastChild, Tree.adopt, List.getLast?_append,
              List.getLast?_eq_some_getLast hne]
          · simp [hq, Tree.setLastChild, Tree.adopt, s, Tree.setPreviousSibling,
              Tree.setNextSibling]
      · show (if m ∈ lc then some p else t.parentNode m) = _
        rw [if_neg fun hm' => hm (hdetached m hm')]

/-! ## Removals -/

theorem removeNode_root {n : N} (h : t.parentNode n = none) : removeNode t n = t := by
  rw [removeNode, h]

/-- The first child is taken off its chain and is a chain of its own. -/
theorem removeNode_first (h : WellLinked t) {n p : N} (hp : t.parentNode n = some p)
    (hprev : t.previousSibling n = none) :
    WellLinked (removeNode t n) ∧ (removeNode t n).parentNode n = none ∧
      (removeNode t n).previousSibling n = none ∧ (removeNode t n).nextSibling n = none := by
  obtain ⟨lp, hlp, hfirst, hlast, hmem⟩ := h.children p
  have hn : n ∈ lp := (hmem n).2 hp
  obtain ⟨rest, rfl⟩ := List.head?_eq_some_iff.1 ((hlp.prev_eq_none_iff hn).1 hprev)
  have hnext : t.nextSibling n = rest.head? := by simpa using hlp.2.1
  have hnrest : n ∉ rest := (List.nodup_cons.1 hlp.nodup).1
  -- What the removal leaves of each table.
  have hresult : (removeNode t n).parentNode = Function.update t.parentNode n none ∧
      (removeNode t n).nextSibling = Function.update t.nextSibling n none ∧
      (∀ q, (removeNode t n).firstChild q = if q = p then rest.head? else t.firstChild q) ∧
      (∀ q, (removeNode t n).lastChild q = if q = p then rest.getLast? else t.lastChild q) ∧
      ∀ m, (removeNode t n).previousSibling m =
        if rest.head? = some m then none else t.previousSibling m := by
    cases rest with
    | nil =>
        simp only [removeNode, hp, hprev, hnext]
        refine ⟨rfl, rfl, fun q => ?_, fun q => ?_, fun m => rfl⟩
        · by_cases hq : q = p <;>
            simp [hq, Tree.setNextSibling, Tree.setParentNode, Tree.setLastChild,
              Tree.setFirstChild]
        · by_cases hq : q = p <;>
            simp [hq, Tree.setNextSibling, Tree.setParentNode, Tree.setLastChild,
              Tree.setFirstChild]
    | cons a rest =>
        simp only [removeNode, hp, hprev, hnext]
        refine ⟨rfl, rfl, fun q => ?_, fun q => ?_, fun m => ?_⟩
        · by_cases hq : q = p <;>
            simp [hq, Tree.setNextSibling, Tree.setParentNode, Tree.setPreviousSibling,
              Tree.setFirstChild]
        · by_cases hq : q = p
          · rw [if_pos hq, hq]
            show t.lastChild p = _
            rw [hlast, List.getLast?_cons_cons]
          · rw [if_neg hq]
            rfl
        · by_cases hm : a = m
          · simp [hm, Tree.setNextSibling, Tree.setParentNode, Tree.setPreviousSibling]
          · simp [hm, Ne.symm hm, Tree.setNextSibling, Tree.setParentNode,
              Tree.setPreviousSibling, Tree.setFirstChild]
  obtain ⟨hparent', hnext', hfirst', hlast', hprev'⟩ := hresult
  have hframe : ∀ l, Chain t.nextSibling t.previousSibling l → (∀ a ∈ l, a ∉ n :: rest) →
      Chain (removeNode t n).nextSibling (removeNode t n).previousSibling l := by
    intro l hl hout
    refine hl.congr (fun a ha => ?_) fun a ha => ?_
    · have hne : a ≠ n := fun e => hout a ha (e ▸ List.mem_cons_self)
      rw [hnext', Function.update_of_ne hne]
    · have hne : rest.head? ≠ some a := fun e =>
        hout a ha (List.mem_cons_of_mem n (List.mem_of_head? e))
      rw [hprev', if_neg hne]
  have hrest : Chain (removeNode t n).nextSibling (removeNode t n).previousSibling rest := by
    cases rest with
    | nil => trivial
    | cons a rest =>
        obtain ⟨-, hna, hchain⟩ := hlp.2.2
        have harest : a ∉ rest := (List.nodup_cons.1 (List.nodup_cons.1 hlp.nodup).2).1
        refine ⟨by simp [hprev'], ?_, hchain.congr (fun b hb => ?_) fun b hb => ?_⟩
        · have hne : a ≠ n := fun e => hnrest (e ▸ List.mem_cons_self)
          rw [hnext', Function.update_of_ne hne, hna]
        · have hne : b ≠ n := fun e => hnrest (e ▸ List.mem_cons_of_mem a hb)
          rw [hnext', Function.update_of_ne hne]
        · have hne : (a :: rest).head? ≠ some b := fun e => by
            obtain rfl : a = b := by simpa using e
            exact harest hb
          rw [hprev', if_neg hne]
  have hnprev : (removeNode t n).previousSibling n = none := by
    have hne : rest.head? ≠ some n := fun e => hnrest (List.mem_of_head? e)
    rw [hprev', if_neg hne, hprev]
  refine ⟨⟨fun q => ?_, fun m hm => ?_⟩, by simp [hparent'], hnprev, by simp [hnext']⟩
  · by_cases hq : q = p
    · refine ⟨rest, hrest, by rw [hfirst', if_pos hq], by rw [hlast', if_pos hq], fun m => ?_⟩
      rw [hparent', hq]
      by_cases hm : m = n
      · simp [hm, hnrest]
      · have hmem' := hmem m
        rw [List.mem_cons, or_iff_right hm] at hmem'
        rw [Function.update_of_ne hm, hmem']
    · obtain ⟨l, hl, hf, hz, hml⟩ := h.children q
      have hout := not_mem_of_parent (fun a ha => (hml a).1 ha) (fun a ha => (hmem a).1 ha)
        (by simpa using hq)
      refine ⟨l, hframe l hl hout, by rw [hfirst', if_neg hq, hf], by rw [hlast', if_neg hq, hz],
        fun m => ?_⟩
      rw [hparent', hml]
      by_cases hm : m = n
      · simpa [hm, hp] using Ne.symm hq
      · rw [Function.update_of_ne hm]
  · by_cases hmn : m = n
    · refine ⟨[n], ⟨hnprev, by simp [hnext'], trivial⟩, by simp [hmn], fun a ha => ?_⟩
      obtain rfl : a = n := by simpa using ha
      simp [hparent']
    · rw [hparent', Function.update_of_ne hmn] at hm
      obtain ⟨l, hl, hml, hnone⟩ := h.detached m hm
      have hout := not_mem_of_parent hnone (fun a ha => (hmem a).1 ha) (by simp)
      refine ⟨l, hframe l hl hout, hml, fun a ha => ?_⟩
      have hne : a ≠ n := fun e => hout a ha (e ▸ List.mem_cons_self)
      rw [hparent', Function.update_of_ne hne, hnone a ha]

/-! ## The two slips -/

theorem removeNode_keeps_previous (h : WellLinked t) {n p x : N} (hp : t.parentNode n = some p)
    (hx : t.previousSibling n = some x) : (removeNode t n).previousSibling n = some x := by
  obtain ⟨l, hl, hn, -⟩ := h.siblings n
  have hprev : ∀ next, t.nextSibling n = some next → n ≠ next := by
    rintro next hnext rfl
    obtain ⟨l₁, l₂, rfl⟩ := List.append_of_mem hn
    obtain ⟨-, hmid⟩ := Chained.append_iff.1 hl
    have hhead : l₂.head? = some n := by
      have h' := hmid.2.1.symm.trans hnext
      simpa using h'
    have hnodup := (List.nodup_append.1 hl.nodup).2.1
    exact (List.nodup_cons.1 hnodup).1 (List.mem_of_head? hhead)
  simp only [removeNode, hp, hx]
  cases hnext : t.nextSibling n with
  | none => exact hx
  | some next =>
      show Function.update t.previousSibling next (some x) n = some x
      rw [Function.update_of_ne (hprev next hnext), hx]

theorem prependChild_childless (h : WellLinked t) {node c : N} (hc : Detached t c)
    (hchildless : t.firstChild node = none)
    (hends : (TreeOp.prependChild node (some c)).Ends t t') : ¬ WellLinked t' := by
  obtain ⟨lc, hlc, hhead, -⟩ := h.detached_chain hc
  obtain ⟨lp, -, hfirst, hlast, -⟩ := h.children node
  obtain rfl : lp = [] := List.head?_eq_none_iff.1 (hfirst.symm.trans hchildless)
  have hrun : (TreeOp.prependChild node (some c)).Ends t
      ((t.setFirstChild node (some c)).adopt node lc) := by
    refine ⟨lc.length + 1, fun fuel hfuel => ?_⟩
    have hwalk : setParents node fuel (t.setFirstChild node (some c)) lc.head? none =
        some ((t.setFirstChild node (some c)).adopt node lc, lc.getLast?.or none) :=
      setParents_chain none hlc (by omega)
    rw [hhead] at hwalk
    simp only [TreeOp.run, prependChild, hchildless]
    rw [hwalk]
    rfl
  rw [hends.unique hrun]
  intro h'
  obtain ⟨l, -, hf, hz, -⟩ := h'.children node
  have hf' : l.head? = some c := by
    rw [← hf]
    exact Function.update_self node (some c) t.firstChild
  have hz' : l.getLast? = none := hz.symm.trans hlast
  obtain rfl := List.getLast?_eq_none_iff.1 hz'
  cases hf'

/-- The second node of the inserted chain still points back to the first, which
no longer points to it. -/
theorem prependChild_chain (h : WellLinked t) {node c fc r : N} (hc : Detached t c)
    (hfc : t.firstChild node = some fc) (hr : t.nextSibling c = some r)
    (hends : (TreeOp.prependChild node (some c)).Ends t t') : ¬ WellLinked t' := by
  obtain ⟨lc, hlc, hhead, hdetached⟩ := h.detached_chain hc
  obtain ⟨rest, rfl⟩ := List.head?_eq_some_iff.1 hhead
  obtain ⟨lp, hlp, hfirst, -, hmem⟩ := h.children node
  have hlphead : lp.head? = some fc := hfirst.symm.trans hfc
  have hrest : rest.head? = some r := by
    have h' := hlc.2.1.symm.trans hr
    simpa using h'
  have hrmem : r ∈ c :: rest := List.mem_cons_of_mem c (List.mem_of_head? hrest)
  have hrc : r ≠ c := fun e =>
    (List.nodup_cons.1 hlc.nodup).1 (e ▸ List.mem_of_head? hrest)
  have hclp : c ∉ lp := fun hm => by
    have hp := (hmem c).1 hm
    rw [hc.1] at hp
    cases hp
  let s := ((t.setNextSibling c (some fc)).setPreviousSibling fc (some c)).setFirstChild node
    (some c)
  have hchain : Chain s.nextSibling s.previousSibling (c :: lp) := by
    obtain ⟨lp', rfl⟩ := List.head?_eq_some_iff.1 hlphead
    have hfclp : fc ∉ lp' := (List.nodup_cons.1 hlp.nodup).1
    have hne : c ≠ fc := fun e => hclp (e ▸ List.mem_cons_self)
    have hcnext : Function.update t.nextSibling c (some fc) fc = t.nextSibling fc :=
      Function.update_of_ne hne.symm _ _
    refine ⟨(Function.update_of_ne hne _ _).trans hc.2, Function.update_self _ _ _,
      Function.update_self _ _ _, hcnext.trans hlp.2.1, ?_⟩
    exact hlp.2.2.update (fun hm => hclp (List.mem_cons_of_mem fc hm)) hfclp
  have hrun : (TreeOp.prependChild node (some c)).Ends t (s.adopt node (c :: lp)) := by
    refine ⟨lp.length + 2, fun fuel hfuel => ?_⟩
    have hwalk : setParents node fuel s (c :: lp).head? none =
        some (s.adopt node (c :: lp), (c :: lp).getLast?.or none) :=
      setParents_chain none hchain (by simp; omega)
    simp only [TreeOp.run, prependChild, hfc]
    show (setParents node fuel s (some c) none).bind _ = _
    rw [List.head?_cons] at hwalk
    rw [hwalk]
    rfl
  rw [hends.unique hrun]
  intro h'
  have hrparent : (s.adopt node (c :: lp)).parentNode r = none := by
    have hnot : r ∉ c :: lp := by
      rintro hm
      rcases List.mem_cons.1 hm with e | hm
      · exact hrc e
      · have hp := (hmem r).1 hm
        rw [hdetached r hrmem] at hp
        cases hp
    show (if r ∈ c :: lp then some node else t.parentNode r) = none
    rw [if_neg hnot, hdetached r hrmem]
  obtain ⟨l, hl, hrl, hnone⟩ := h'.detached r hrparent
  have hrprev : (s.adopt node (c :: lp)).previousSibling r = some c := by
    have hne : r ≠ fc := by
      rintro rfl
      have hp := (hmem r).1 (List.mem_of_head? hlphead)
      rw [hdetached r hrmem] at hp
      cases hp
    show Function.update t.previousSibling fc (some c) r = some c
    rw [Function.update_of_ne hne]
    exact hlc.2.2.prev_head hrest
  have hcparent := hnone c (hl.prev_mem hrl hrprev)
  have hsome : (s.adopt node (c :: lp)).parentNode c = some node := if_pos List.mem_cons_self
  rw [hsome] at hcparent
  cases hcparent

/-! ## Sequences -/

/-- The operation meets neither slip: only a single node is prepended, to a node
that has children, and a node is removed only as the first of its siblings. -/
def AvoidsSlips (t : Tree N) : TreeOp N → Prop
  | .prependChild node chd => ∀ c, chd = some c →
      t.firstChild node ≠ none ∧ t.nextSibling c = none
  | .removeNode n => t.parentNode n = none ∨ t.previousSibling n = none
  | _ => True

/-- Every operation of the sequence avoids them. -/
def AllAvoidSlips : Tree N → List (TreeOp N) → Prop
  | _, [] => True
  | t, op :: ops => Allowed t op →
      AvoidsSlips t op ∧ ∀ t', op.Ends t t' → AllAvoidSlips t' ops

/-- What one operation must do. -/
def OpLinked (t t' : Tree N) (op : TreeOp N) : Prop :=
  op.Ends t t' ∧ WellLinked t' ∧ NothingLost t t' op ∧ RemovedClean t t' op

theorem opLinked_of_avoids (h : WellLinked t) {op : TreeOp N} (hallowed : Allowed t op)
    (havoids : AvoidsSlips t op) : ∃ t', OpLinked t t' op := by
  cases op with
  | appendChild node chd =>
      cases chd with
      | none => exact ⟨t, ⟨0, fun _ _ => rfl⟩, h, ⟨fun _ _ hn => hn, by simp⟩, trivial⟩
      | some c =>
          obtain ⟨t', hends, h', hkeep, hnew⟩ := appendChild_ends h node (hallowed c rfl)
          refine ⟨t', hends, h', ⟨below_mono h h' hkeep, fun d hd n hn => ?_⟩, trivial⟩
          obtain rfl : c = d := by simpa using hd
          exact h'.below_iff.2 (hnew n hn)
  | prependChild node chd =>
      cases chd with
      | none => exact ⟨t, ⟨0, fun _ _ => rfl⟩, h, ⟨fun _ _ hn => hn, by simp⟩, trivial⟩
      | some c =>
          obtain ⟨hchildren, halone⟩ := havoids c rfl
          obtain ⟨t', hends, h', hkeep, hnew⟩ := prependChild_ends h (hallowed c rfl) hchildren
            halone
          refine ⟨t', hends, h', ⟨below_mono h h' hkeep, fun d hd n hn => ?_⟩, trivial⟩
          obtain rfl : c = d := by simpa using hd
          exact h'.below_iff.2 (hnew n hn)
  | appendSibling node c =>
      obtain ⟨t', hends, h', hkeep, hreach⟩ := appendSibling_ends h hallowed.1 hallowed.2
      exact ⟨t', hends, h', ⟨below_mono h h' hkeep, hreach⟩, trivial⟩
  | removeNode n =>
      refine ⟨removeNode t n, ⟨0, fun _ _ => rfl⟩, ?_⟩
      cases hp : t.parentNode n with
      | none =>
          rw [removeNode_root hp]
          exact ⟨h, trivial, fun hne => absurd hp hne⟩
      | some p =>
          have hprev : t.previousSibling n = none := by
            rcases havoids with hnone | hprev
            · rw [hp] at hnone
              cases hnone
            · exact hprev
          obtain ⟨h', hclean⟩ := removeNode_first h hp hprev
          exact ⟨h', trivial, fun _ => hclean⟩

theorem avoids_of_opLinked (h : WellLinked t) {op : TreeOp N} (hallowed : Allowed t op)
    (hop : OpLinked t t' op) : AvoidsSlips t op := by
  obtain ⟨hends, h', -, hclean⟩ := hop
  cases op with
  | appendChild node chd => trivial
  | appendSibling node c => trivial
  | prependChild node chd =>
      rintro c rfl
      cases hfc : t.firstChild node with
      | none => exact absurd h' (prependChild_childless h (hallowed c rfl) hfc hends)
      | some fc =>
          refine ⟨Option.some_ne_none fc, ?_⟩
          cases hr : t.nextSibling c with
          | none => rfl
          | some r => exact absurd h' (prependChild_chain h (hallowed c rfl) hfc hr hends)
  | removeNode n =>
      cases hp : t.parentNode n with
      | none => exact Or.inl hp
      | some p =>
          refine Or.inr ?_
          have hresult : (TreeOp.removeNode n).Ends t (removeNode t n) := ⟨0, fun _ _ => rfl⟩
          obtain rfl := hends.unique hresult
          have hnone := (hclean (by rw [hp]; exact Option.some_ne_none p)).2.1
          cases hx : t.previousSibling n with
          | none => rfl
          | some x =>
              rw [removeNode_keeps_previous h hp hx] at hnone
              cases hnone

/-- The sequences of operations that leave every parse tree well linked are those
that avoid the two slips at every step. -/
theorem treeOps_stayLinked_iff (T : ParseTree N) (ops : List (TreeOp N)) :
    StaysLinked T.tree ops ↔ AllAvoidSlips T.tree ops := by
  suffices ∀ t : Tree N, WellLinked t → (StaysLinked t ops ↔ AllAvoidSlips t ops) from
    this T.tree T.linked
  induction ops with
  | nil => intro t _; exact Iff.rfl
  | cons op ops ih =>
      intro t h
      constructor
      · intro hstays hallowed
        obtain ⟨t', hends, h', hlost, hclean, hrest⟩ := hstays hallowed
        refine ⟨avoids_of_opLinked h hallowed ⟨hends, h', hlost, hclean⟩, fun u hu => ?_⟩
        rw [hu.unique hends]
        exact (ih t' h').1 hrest
      · intro havoid hallowed
        obtain ⟨havoids, hrest⟩ := havoid hallowed
        obtain ⟨t', hends, h', hlost, hclean⟩ := opLinked_of_avoids h hallowed havoids
        exact ⟨t', hends, h', hlost, hclean, (ih t' h').2 (hrest t' hends)⟩

/-- Nodes without any links. -/
def looseNodes : ParseTree Nat where
  tree := ⟨fun _ => none, fun _ => none, fun _ => none, fun _ => none, fun _ => none⟩
  linked := by
    refine ⟨fun p => ⟨[], trivial, rfl, rfl, by simp⟩, fun n _ => ⟨[n], ?_, ?_, ?_⟩⟩
    · exact ⟨rfl, rfl, trivial⟩
    · exact List.mem_cons_self
    · exact fun _ _ => rfl

/-- The second of two children still has its previous sibling after its removal. -/
theorem removeNode_second_child : ¬ StaysLinked looseNodes.tree
    [.appendChild 0 (some 1), .appendChild 0 (some 2), .removeNode 2] := by
  intro h
  obtain ⟨t₁, ⟨n₁, h₁⟩, -, -, -, h⟩ := h fun c hc => ⟨rfl, rfl⟩
  obtain rfl := Option.some.inj (h₁ (n₁ + 3) (by omega))
  obtain ⟨t₂, ⟨n₂, h₂⟩, -, -, -, h⟩ := h fun c hc => by
    obtain rfl : 2 = c := by simpa using hc
    exact ⟨rfl, rfl⟩
  obtain rfl := Option.some.inj (h₂ (n₂ + 3) (by omega))
  obtain ⟨t₃, ⟨n₃, h₃⟩, -, -, hclean, -⟩ := h trivial
  obtain rfl := Option.some.inj (h₃ n₃ le_rfl)
  obtain ⟨-, hprevious, -⟩ := hclean (Option.some_ne_none 0)
  have hstill : some 1 = none := hprevious
  cases hstill

end Swig4Ada.Swig

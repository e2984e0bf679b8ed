import Mathlib

/-!
# Tables that only grow

Entries are put into a table in batches, and a key that is there already is an error.
A batch is put in either because it is declared, or because its key was asked for and
found missing. When one batch is declared and some are asked for, the outcome is the
same for every order if and only if no two of the batches have a key in common.
-/

namespace Swig4Ada.Lib

variable {K V X : Type} [DecidableEq K]

abbrev Table (K V : Type) := K → Option V

/-- The second table has all the entries of the first. -/
def Within (t t' : Table K V) : Prop := ∀ k v, t k = some v → t' k = some v

/-- All entries of a batch, each under a new key. -/
def insertAll (t : Table K V) : List (K × V) → Option (Table K V)
  | [] => some t
  | (k, v) :: l =>
      if t k = none then insertAll (Function.update t k (some v)) l else none

/-- The keys of the batch are all different, and none is in the table. -/
def Fresh (t : Table K V) (l : List (K × V)) : Prop :=
  (l.map Prod.fst).Nodup ∧ ∀ p ∈ l, t p.1 = none

/-- The table has the entries of the first one and those of the batch. -/
def Grown (t : Table K V) (l : List (K × V)) (t' : Table K V) : Prop :=
  ∀ k v, t' k = some v ↔ t k = some v ∨ (k, v) ∈ l

theorem insertAll_eq_some {t t' : Table K V} {l : List (K × V)} (h : insertAll t l = some t') :
    Fresh t l ∧ Grown t l t' := by
  induction l generalizing t with
  | nil =>
      obtain rfl : t = t' := Option.some.inj h
      exact ⟨⟨List.nodup_nil, by simp⟩, by simp [Grown]⟩
  | cons p l ih =>
      obtain ⟨k, v⟩ := p
      by_cases hk : t k = none
      · rw [insertAll, if_pos hk] at h
        obtain ⟨⟨hnodup, hnew⟩, hgrown⟩ := ih h
        have hne : ∀ p ∈ l, p.1 ≠ k := by
          intro p hp e
          have := hnew p hp
          rw [e] at this
          simp at this
        refine ⟨⟨?_, fun p hp => ?_⟩, fun a w => ?_⟩
        · rw [List.map_cons, List.nodup_cons]
          refine ⟨fun hmem => ?_, hnodup⟩
          obtain ⟨p, hp, e⟩ := List.mem_map.1 hmem
          exact hne p hp e
        · rcases List.mem_cons.1 hp with rfl | hp
          · exact hk
          · have hp' := hnew p hp
            rwa [Function.update_of_ne (hne p hp)] at hp'
        · rw [hgrown a w]
          by_cases ha : a = k
          · subst ha
            have hout : ∀ u, (a, u) ∉ l := fun u hu => hne (a, u) hu rfl
            simp [hk, hout, eq_comm]
          · simp [ha]
      · rw [insertAll, if_neg hk] at h
        cases h

theorem insertAll_of_fresh {t : Table K V} {l : List (K × V)} (h : Fresh t l) :
    ∃ t', insertAll t l = some t' := by
  induction l generalizing t with
  | nil => exact ⟨t, rfl⟩
  | cons p l ih =>
      obtain ⟨k, v⟩ := p
      obtain ⟨hnodup, hnew⟩ := h
      rw [List.map_cons, List.nodup_cons] at hnodup
      have hk : t k = none := hnew (k, v) List.mem_cons_self
      have hfresh : Fresh (Function.update t k (some v)) l := by
        refine ⟨hnodup.2, fun p hp => ?_⟩
        have hne : p.1 ≠ k := fun e => hnodup.1 (List.mem_map.2 ⟨p, hp, e⟩)
        rw [Function.update_of_ne hne]
        exact hnew p (List.mem_cons_of_mem _ hp)
      obtain ⟨t', h'⟩ := ih hfresh
      exact ⟨t', by rw [insertAll, if_pos hk, h']⟩

theorem insertAll_append (t : Table K V) (l l' : List (K × V)) :
    insertAll t (l ++ l') = (insertAll t l).bind fun t' => insertAll t' l' := by
  induction l generalizing t with
  | nil => rfl
  | cons p l ih =>
      obtain ⟨k, v⟩ := p
      rw [List.cons_append, insertAll, insertAll]
      by_cases hk : t k = none
      · rw [if_pos hk, if_pos hk, ih]
      · rw [if_neg hk, if_neg hk]
        rfl

/-! ## Batches that are asked for -/

/-- What is put into the table when `x` is asked for and its key is missing. The
batch has an entry of its own under that key, and no other batch has that entry's
value. -/
structure OnDemand (K V X : Type) where
  key : X → K
  own : X → V
  batch : X → List (K × V)
  own_mem : ∀ x, (key x, own x) ∈ batch x
  own_ne : ∀ x y, x ≠ y → ∀ p ∈ batch y, p.2 ≠ own x

def OnDemand.demand (D : OnDemand K V X) (t : Table K V) (x : X) : Option (Table K V) :=
  if t (D.key x) = none then insertAll t (D.batch x) else some t

inductive TableOp (X : Type)
  | declare
  | demand (x : X)
deriving DecidableEq, Repr

def TableOp.run (declare : Table K V → Option (Table K V)) (D : OnDemand K V X)
    (t : Table K V) : TableOp X → Option (Table K V)
  | .declare => declare t
  | .demand x => D.demand t x

/-- Every order of the one declaration and the demands ends, in the same table. -/
def OrderFree (declare : Table K V → Option (Table K V)) (D : OnDemand K V X) (t : Table K V)
    (xs : List X) : Prop :=
  ∃ t', ∀ ops : List (TableOp X), ops.Perm (.declare :: xs.map .demand) →
    ops.foldlM (TableOp.run declare D) t = some t'

/-- No two of the batches have a key in common. -/
structure Separate (D : OnDemand K V X) (t : Table K V) (b : List (K × V)) (xs : List X) :
    Prop where
  declared : Fresh t b
  demanded : ∀ x ∈ xs, t (D.key x) = none → Fresh t (D.batch x)
  fromDeclared : ∀ x ∈ xs, t (D.key x) = none → ∀ p ∈ b, ∀ q ∈ D.batch x, p.1 ≠ q.1
  fromEachOther : ∀ x ∈ xs, t (D.key x) = none → ∀ y ∈ xs, t (D.key y) = none → x ≠ y →
    ∀ p ∈ D.batch x, ∀ q ∈ D.batch y, p.1 ≠ q.1

section Orders

variable {declare : Table K V → Option (Table K V)} {D : OnDemand K V X} {t t' t₁ : Table K V}
  {b : List (K × V)} {xs : List X}

/-- What the table holds after some of the operations. -/
def Holding (D : OnDemand K V X) (t : Table K V) (b : List (K × V)) (done : List (TableOp X))
    (t' : Table K V) : Prop :=
  ∀ k v, t' k = some v ↔ t k = some v ∨ TableOp.declare ∈ done ∧ (k, v) ∈ b ∨
    ∃ x, TableOp.demand x ∈ done ∧ t (D.key x) = none ∧ (k, v) ∈ D.batch x

omit [DecidableEq K] in
theorem Holding.unique {done : List (TableOp X)} (h : Holding D t b done t')
    (h₁ : Holding D t b done t₁) : t' = t₁ := by
  funext k
  apply Option.ext
  intro v
  exact (h k v).trans (h₁ k v).symm

omit [DecidableEq K] in
theorem Holding.perm {done done' : List (TableOp X)} (h : Holding D t b done t')
    (hperm : done.Perm done') : Holding D t b done' t' := by
  intro k v
  rw [h k v]
  simp only [hperm.mem_iff]

theorem Holding.declared (hsep : Separate D t b xs) {done : List (TableOp X)}
    (h : Holding D t b done t') (hnew : TableOp.declare ∉ done)
    (hdone : ∀ x, TableOp.demand x ∈ done → x ∈ xs) :
    ∃ t'', insertAll t' b = some t'' ∧ Holding D t b (.declare :: done) t'' := by
  have hfresh : Fresh t' b := by
    refine ⟨hsep.declared.1, fun p hp => ?_⟩
    cases hv : t' p.1 with
    | none => rfl
    | some v =>
        rcases (h p.1 v).1 hv with ht | ⟨hdec, -⟩ | ⟨x, hx, hkey, hmem⟩
        · rw [hsep.declared.2 p hp] at ht
          cases ht
        · exact absurd hdec hnew
        · exact absurd rfl (hsep.fromDeclared x (hdone x hx) hkey p hp (p.1, v) hmem)
  obtain ⟨t'', h''⟩ := insertAll_of_fresh hfresh
  refine ⟨t'', h'', fun k v => ?_⟩
  rw [(insertAll_eq_some h'').2 k v, h k v]
  simp only [List.mem_cons, reduceCtorEq, false_or, true_or, true_and, hnew, false_and]
  exact or_right_comm.trans or_assoc

theorem Holding.demanded (hsep : Separate D t b xs) {done : List (TableOp X)}
    (h : Holding D t b done t') {x : X} (hx : x ∈ xs)
    (hdone : ∀ y, TableOp.demand y ∈ done → y ∈ xs) :
    ∃ t'', D.demand t' x = some t'' ∧ Holding D t b (.demand x :: done) t'' := by
  -- A key of a batch that is still to come is in the table only if the batch is `x`'s.
  have hother : ∀ p ∈ D.batch x, t (D.key x) = none → ∀ v, t' p.1 = some v →
      TableOp.demand x ∈ done := by
    intro p hp hkey v hv
    rcases (h p.1 v).1 hv with ht | ⟨-, hmem⟩ | ⟨y, hy, hykey, hmem⟩
    · rw [(hsep.demanded x hx hkey).2 p hp] at ht
      cases ht
    · exact absurd rfl (hsep.fromDeclared x hx hkey (p.1, v) hmem p hp)
    · by_cases hxy : x = y
      · exact hxy ▸ hy
      · exact absurd rfl (hsep.fromEachOther x hx hkey y (hdone y hy) hykey hxy p hp (p.1, v) hmem)
  by_cases hmissing : t' (D.key x) = none
  · have hkey : t (D.key x) = none := by
      cases hv : t (D.key x) with
      | none => rfl
      | some v =>
          rw [(h (D.key x) v).2 (Or.inl hv)] at hmissing
          cases hmissing
    have hnew : TableOp.demand x ∉ done := by
      intro hmem
      rw [(h (D.key x) (D.own x)).2 (Or.inr (Or.inr ⟨x, hmem, hkey, D.own_mem x⟩))] at hmissing
      cases hmissing
    have hfresh : Fresh t' (D.batch x) := by
      refine ⟨(hsep.demanded x hx hkey).1, fun p hp => ?_⟩
      cases hv : t' p.1 with
      | none => rfl
      | some v => exact absurd (hother p hp hkey v hv) hnew
    obtain ⟨t'', h''⟩ := insertAll_of_fresh hfresh
    refine ⟨t'', (if_pos hmissing).trans h'', fun k v => ?_⟩
    rw [(insertAll_eq_some h'').2 k v, h k v]
    simp only [List.mem_cons, TableOp.demand.injEq, reduceCtorEq, false_or]
    constructor
    · rintro ((ht | hd | ⟨y, hy, hrest⟩) | hmem)
      · exact Or.inl ht
      · exact Or.inr (Or.inl hd)
      · exact Or.inr (Or.inr ⟨y, Or.inr hy, hrest⟩)
      · exact Or.inr (Or.inr ⟨x, Or.inl rfl, hkey, hmem⟩)
    · rintro (ht | hd | ⟨y, rfl | hy, hkey', hmem⟩)
      · exact Or.inl (Or.inl ht)
      · exact Or.inl (Or.inr (Or.inl hd))
      · exact Or.inr hmem
      · exact Or.inl (Or.inr (Or.inr ⟨y, hy, hkey', hmem⟩))
  · obtain ⟨v, hv⟩ := Option.ne_none_iff_exists'.1 hmissing
    refine ⟨t', if_neg hmissing, fun k w => ?_⟩
    rw [h k w]
    simp only [List.mem_cons, TableOp.demand.injEq, reduceCtorEq, false_or]
    constructor
    · rintro (ht | hd | ⟨y, hy, hrest⟩)
      · exact Or.inl ht
      · exact Or.inr (Or.inl hd)
      · exact Or.inr (Or.inr ⟨y, Or.inr hy, hrest⟩)
    · rintro (ht | hd | ⟨y, rfl | hy, hkey, hmem⟩)
      · exact Or.inl ht
      · exact Or.inr (Or.inl hd)
      · have hold := hother (D.key y, D.own y) (D.own_mem y) hkey v hv
        exact Or.inr (Or.inr ⟨y, hold, hkey, hmem⟩)
      · exact Or.inr (Or.inr ⟨y, hy, hkey, hmem⟩)

/-- From every point of an order the rest of it ends. -/
theorem Separate.run (hdeclare : ∀ t', Within t t' →
      declare t' = insertAll t' b) (hsep : Separate D t b xs)
    (rest done : List (TableOp X)) (h : Holding D t b done t')
    (hperm : (rest ++ done).Perm (.declare :: xs.map .demand)) :
    ∃ t'', rest.foldlM (TableOp.run declare D) t' = some t'' ∧
      Holding D t b (.declare :: xs.map .demand) t'' := by
  induction rest generalizing done t' with
  | nil => exact ⟨t', rfl, h.perm hperm⟩
  | cons op rest ih =>
      have hmem : ∀ y, TableOp.demand y ∈ op :: rest ++ done → y ∈ xs := by
        intro y hy
        simpa using hperm.mem_iff.1 hy
      have hdone : ∀ y, TableOp.demand y ∈ done → y ∈ xs := fun y hy =>
        hmem y (List.mem_append_right _ hy)
      have hstep : ∃ t₁, TableOp.run declare D t' op = some t₁ ∧
          Holding D t b (op :: done) t₁ := by
        cases op with
        | declare =>
            have hnew : TableOp.declare ∉ done := by
              intro hin
              have hcons : (rest ++ done).Perm (xs.map .demand) := List.Perm.cons_inv hperm
              have htwice := hcons.mem_iff.1 (List.mem_append_right rest hin)
              simp at htwice
            obtain ⟨t₁, hrun, h₁⟩ := h.declared hsep hnew hdone
            refine ⟨t₁, ?_, h₁⟩
            show declare t' = some t₁
            rw [hdeclare t' fun k v hv => (h k v).2 (Or.inl hv), hrun]
        | demand x => exact h.demanded hsep (hmem x List.mem_cons_self) hdone
      obtain ⟨t₁, hrun, h₁⟩ := hstep
      obtain ⟨t'', hrest, h''⟩ := ih (op :: done) h₁ (List.perm_middle.trans hperm)
      exact ⟨t'', by rw [List.foldlM_cons, hrun]; exact hrest, h''⟩

theorem Separate.orderFree (hdeclare : ∀ t', Within t t' →
      declare t' = insertAll t' b) (hsep : Separate D t b xs) : OrderFree declare D t xs := by
  have hstart : Holding D t b [] t := by simp [Holding]
  obtain ⟨t', -, h'⟩ := hsep.run hdeclare (.declare :: xs.map .demand) [] hstart (by simp)
  refine ⟨t', fun ops hops => ?_⟩
  obtain ⟨t'', hrun, h''⟩ := hsep.run hdeclare ops [] hstart (by simpa using hops)
  rw [hrun, h''.unique h']

theorem TableOp.run_within (hdeclare : ∀ t', Within t t' → declare t' = insertAll t' b)
    {op : TableOp X} (ht : Within t t') (h : op.run declare D t' = some t₁) : Within t' t₁ := by
  have hinsert : ∀ l, insertAll t' l = some t₁ → Within t' t₁ := fun l hl k v hv =>
    ((insertAll_eq_some hl).2 k v).2 (Or.inl hv)
  cases op with
  | declare => exact hinsert b ((hdeclare t' ht).symm.trans h)
  | demand x =>
      have hdemand : (if t' (D.key x) = none then insertAll t' (D.batch x) else some t') =
          some t₁ := h
      by_cases hmissing : t' (D.key x) = none
      · rw [if_pos hmissing] at hdemand
        exact hinsert _ hdemand
      · rw [if_neg hmissing] at hdemand
        obtain rfl := Option.some.inj hdemand
        exact fun _ _ hv => hv

theorem foldlM_within (hdeclare : ∀ t', Within t t' → declare t' = insertAll t' b)
    {ops : List (TableOp X)} (ht : Within t t')
    (h : ops.foldlM (TableOp.run declare D) t' = some t₁) : Within t' t₁ := by
  induction ops generalizing t' with
  | nil =>
      obtain rfl := Option.some.inj h
      exact fun _ _ hv => hv
  | cons op ops ih =>
      rw [List.foldlM_cons] at h
      obtain ⟨t₂, hrun, hrest⟩ := Option.bind_eq_some_iff.1 h
      have hgrow := TableOp.run_within hdeclare ht hrun
      have htwo : Within t t₂ := fun k v hv => hgrow k v (ht k v hv)
      exact fun k v hv => ih htwo hrest k v (hgrow k v hv)

/-- Two operations with which an order begins. -/
theorem OrderFree.begins (hdeclare : ∀ t', Within t t' → declare t' = insertAll t' b)
    (h : ∀ ops : List (TableOp X), ops.Perm (.declare :: xs.map .demand) →
      ops.foldlM (TableOp.run declare D) t = some t')
    {op₁ op₂ : TableOp X} {rest : List (TableOp X)}
    (hperm : (op₁ :: op₂ :: rest).Perm (.declare :: xs.map .demand)) :
    ∃ t₁ t₂, op₁.run declare D t = some t₁ ∧ op₂.run declare D t₁ = some t₂ ∧ Within t t₁ ∧
      Within t₁ t' := by
  have hrun := h _ hperm
  rw [List.foldlM_cons] at hrun
  obtain ⟨t₁, h₁, hrun⟩ := Option.bind_eq_some_iff.1 hrun
  have ht₁ := TableOp.run_within hdeclare (fun _ _ hv => hv) h₁
  have hin := foldlM_within hdeclare ht₁ hrun
  rw [List.foldlM_cons] at hrun
  obtain ⟨t₂, h₂, -⟩ := Option.bind_eq_some_iff.1 hrun
  exact ⟨t₁, t₂, h₁, h₂, ht₁, hin⟩

theorem OrderFree.separate (hdeclare : ∀ t', Within t t' → declare t' = insertAll t' b)
    (h : OrderFree declare D t xs) : Separate D t b xs := by
  obtain ⟨t', h⟩ := h
  have hrefl : Within t t := fun _ _ hv => hv
  -- A demanded batch whose key is missing goes in when it is asked for first.
  have hfirst : ∀ {x : X} {t₁ : Table K V}, t (D.key x) = none →
      (TableOp.demand x).run declare D t = some t₁ → insertAll t (D.batch x) = some t₁ := by
    intro x t₁ hkey hrun
    exact (if_pos hkey).symm.trans hrun
  have hdeclared : ∃ t₁, insertAll t b = some t₁ := by
    have hrun := h _ (List.Perm.refl _)
    rw [List.foldlM_cons] at hrun
    obtain ⟨t₁, h₁, -⟩ := Option.bind_eq_some_iff.1 hrun
    exact ⟨t₁, (hdeclare t hrefl).symm.trans h₁⟩
  have hbegin : ∀ x ∈ xs, ∃ t₁ t₂, (TableOp.demand x).run declare D t = some t₁ ∧
      insertAll t₁ b = some t₂ ∧ Within t t₁ := by
    intro x hx
    obtain ⟨l₁, l₂, rfl⟩ := List.append_of_mem hx
    have hperm : (TableOp.demand x :: .declare :: (l₁ ++ l₂).map .demand).Perm
        (.declare :: (l₁ ++ x :: l₂).map .demand) := by
      refine (List.Perm.swap _ _ _).trans (List.Perm.cons _ ?_)
      simpa using List.perm_middle.symm
    obtain ⟨t₁, t₂, h₁, h₂, hin, -⟩ := OrderFree.begins hdeclare h hperm
    exact ⟨t₁, t₂, h₁, (hdeclare t₁ hin).symm.trans h₂, hin⟩
  refine ⟨?_, fun x hx hkey => ?_, fun x hx hkey p hp q hq e => ?_,
    fun x hx hxkey y hy hykey hne p hp q hq e => ?_⟩
  · obtain ⟨t₁, h₁⟩ := hdeclared
    exact (insertAll_eq_some h₁).1
  · obtain ⟨t₁, t₂, h₁, -, -⟩ := hbegin x hx
    exact (insertAll_eq_some (hfirst hkey h₁)).1
  · obtain ⟨t₁, t₂, h₁, h₂, -⟩ := hbegin x hx
    have hpnone := (insertAll_eq_some h₂).1.2 p hp
    have hqsome := ((insertAll_eq_some (hfirst hkey h₁)).2 q.1 q.2).2 (Or.inr hq)
    rw [e, hqsome] at hpnone
    cases hpnone
  · have hpair : ∀ x ∈ xs, ∀ y ∈ xs, x ≠ y → ∃ t₁ t₂, (TableOp.demand x).run declare D t = some t₁ ∧
        (TableOp.demand y).run declare D t₁ = some t₂ ∧ Within t₁ t' := by
      intro x hx y hy hne
      obtain ⟨l₁, l₂, rfl⟩ := List.append_of_mem hx
      have hy' : y ∈ l₁ ++ l₂ := by
        simp only [List.mem_append, List.mem_cons] at hy ⊢
        rcases hy with hy | rfl | hy
        · exact Or.inl hy
        · exact absurd rfl hne
        · exact Or.inr hy
      obtain ⟨m₁, m₂, hm⟩ := List.append_of_mem hy'
      have hperm : (TableOp.demand x :: .demand y :: .declare :: (m₁ ++ m₂).map .demand).Perm
          (.declare :: (l₁ ++ x :: l₂).map .demand) := by
        have hlist : (l₁ ++ x :: l₂).Perm (x :: y :: (m₁ ++ m₂)) := by
          refine List.perm_middle.trans (List.Perm.cons x ?_)
          rw [hm]
          exact List.perm_middle
        refine List.Perm.trans ?_ (List.Perm.cons _ (hlist.map TableOp.demand).symm)
        exact (List.Perm.cons _ (List.Perm.swap _ _ _)).trans (List.Perm.swap _ _ _)
      obtain ⟨t₁, t₂, h₁, h₂, -, hin⟩ := OrderFree.begins hdeclare h hperm
      exact ⟨t₁, t₂, h₁, h₂, hin⟩
    obtain ⟨t₁, t₂, h₁, h₂, hin⟩ := hpair x hx y hy hne
    obtain ⟨u₁, u₂, g₁, g₂, gin⟩ := hpair y hy x hx (Ne.symm hne)
    obtain ⟨-, hgrown⟩ := insertAll_eq_some (hfirst hxkey h₁)
    obtain ⟨-, ggrown⟩ := insertAll_eq_some (hfirst hykey g₁)
    by_cases hmissing : t₁ (D.key y) = none
    · have hqnone := (insertAll_eq_some ((if_pos hmissing).symm.trans h₂)).1.2 q hq
      rw [← e, (hgrown p.1 p.2).2 (Or.inr hp)] at hqnone
      cases hqnone
    · by_cases gmissing : u₁ (D.key x) = none
      · have hpnone := (insertAll_eq_some ((if_pos gmissing).symm.trans g₂)).1.2 p hp
        rw [e, (ggrown q.1 q.2).2 (Or.inr hq)] at hpnone
        cases hpnone
      · -- Each has the key of the other, and the last table would hold two values.
        obtain ⟨v, hv⟩ := Option.ne_none_iff_exists'.1 gmissing
        have hmem : (D.key x, v) ∈ D.batch y := by
          rcases (ggrown (D.key x) v).1 hv with ht | hmem
          · rw [hxkey] at ht
            cases ht
          · exact hmem
        have hown := hin _ _ ((hgrown (D.key x) (D.own x)).2 (Or.inr (D.own_mem x)))
        rw [gin _ _ hv] at hown
        exact D.own_ne x y hne _ hmem (Option.some.inj hown)

/-- When the declaration puts in a batch, whatever the table has gained before it, the
outcome depends on no order if and only if the batches are separate. -/
theorem orderFree_iff (hdeclare : ∀ t', Within t t' → declare t' = insertAll t' b) :
    OrderFree declare D t xs ↔ Separate D t b xs :=
  ⟨OrderFree.separate hdeclare, Separate.orderFree hdeclare⟩

end Orders

end Swig4Ada.Lib

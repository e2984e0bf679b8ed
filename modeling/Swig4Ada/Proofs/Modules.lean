import Swig4Ada.Runtime.Sharing

/-!
# What the module initialiser makes of the types

While a module is loaded the arrays of the other modules do not change, and a name is
either in none of them or stands for one structure (`query_eq_some`). So the array that the
module will have is known from the start, and with it the list that every cast belongs to.
The casts are then gone through one by one (`Held`): a cast is left out when its list has
one from a type of the same name, and put in front otherwise. Only in one case is the
pointer in it not the shared one: the two types are known and the cast is new.
-/

namespace Swig4Ada.Runtime

open Swig4Ada.Lib

variable {M Name D : Type} [DecidableEq M] [LinearOrder Name] {tables : M → TypeTable Name D}

/-! ## Arrays and queries -/

/-- The arrays of the loaded modules share their structures, each of which is in the array
of its own module. -/
structure Arrays (tables : M → TypeTable Name D) (modules : List M)
    (types : M → List (TypeInfo M)) : Prop where
  length : ∀ m ∈ modules, (types m).length = (tables m).size
  name : ∀ m ∈ modules, ∀ i t, (types m)[i]? = some t → nameOf tables t = (tables m).name i
  own : ∀ m ∈ modules, ∀ t ∈ types m, t.module ∈ modules ∧ (types t.module)[t.index]? = some t
  shared : ∀ m ∈ modules, ∀ t ∈ types m, ∀ m' ∈ modules, ∀ t' ∈ types m',
    nameOf tables t = nameOf tables t' → t = t'

theorem TypeTable.name_inj (table : TypeTable Name D) {i j : Nat} (hi : i < table.size)
    (hj : j < table.size) (h : table.name i = table.name j) : i = j := by
  rcases lt_trichotomy i j with hij | hij | hij
  · exact absurd h (table.sorted i j hij hj).ne
  · exact hij
  · exact absurd h (table.sorted j i hij hi).ne'

namespace Arrays

omit [DecidableEq M]

variable {modules : List M} {types : M → List (TypeInfo M)}

theorem get (h : Arrays tables modules types) {m : M} (hm : m ∈ modules) {i : Nat}
    (hi : i < (tables m).size) :
    ∃ t, (types m)[i]? = some t ∧ t ∈ types m ∧ nameOf tables t = (tables m).name i := by
  have hlt : i < (types m).length := by rw [h.length m hm]; exact hi
  have hget : (types m)[i]? = some (types m)[i] := List.getElem?_eq_getElem hlt
  exact ⟨(types m)[i], hget, List.getElem_mem hlt, h.name m hm i _ hget⟩

theorem index (h : Arrays tables modules types) {m : M} (hm : m ∈ modules) {t : TypeInfo M}
    (ht : t ∈ types m) : ∃ i < (tables m).size, (types m)[i]? = some t := by
  obtain ⟨i, hi, hget⟩ := List.mem_iff_getElem.1 ht
  refine ⟨i, by rw [← h.length m hm]; exact hi, ?_⟩
  rw [List.getElem?_eq_getElem hi, hget]

/-- What a module lists is what its array has. -/
theorem lists_iff (h : Arrays tables modules types) {n : Name} :
    Lists tables modules n ↔ ∃ m ∈ modules, ∃ t ∈ types m, nameOf tables t = n := by
  constructor
  · intro ⟨m, hm, i, hi, hn⟩
    obtain ⟨t, -, ht, hname⟩ := h.get hm hi
    exact ⟨m, hm, t, ht, hname.trans hn⟩
  · intro ⟨m, hm, t, ht, hn⟩
    obtain ⟨i, hi, hget⟩ := h.index hm ht
    exact ⟨m, hm, i, hi, (h.name m hm i t hget).symm.trans hn⟩

end Arrays

omit [DecidableEq M] in
theorem queryTypes_eq_some {s : Interpreter M D} {modules : List M}
    (h : Arrays tables modules s.types) {m : M} (hm : m ∈ modules) {n : Name}
    {t : TypeInfo M} :
    s.queryTypes tables n m = some t ↔ t ∈ s.types m ∧ nameOf tables t = n := by
  have hkey : ∀ i < (tables m).size,
      ((s.types m)[i]?.map (nameOf tables)).getD n = (tables m).name i := by
    intro i hi
    obtain ⟨t, hget, -, hname⟩ := h.get hm hi
    rw [hget]
    exact hname
  have hsorted : ∀ i j, i < j → j < (tables m).size →
      ((s.types m)[i]?.map (nameOf tables)).getD n <
        ((s.types m)[j]?.map (nameOf tables)).getD n := by
    intro i j hij hj
    rw [hkey i (by omega), hkey j hj]
    exact (tables m).sorted i j hij hj
  unfold Interpreter.queryTypes
  rw [Option.bind_eq_some_iff]
  constructor
  · intro ⟨i, hi, hget⟩
    obtain ⟨hlt, hn⟩ := (bisect_eq_some hsorted).1 hi
    refine ⟨List.mem_of_getElem? hget, ?_⟩
    rw [h.name m hm i t hget, ← hkey i hlt, hn]
  · intro ⟨ht, hn⟩
    obtain ⟨i, hi, hget⟩ := h.index hm ht
    refine ⟨i, (bisect_eq_some hsorted).2 ⟨hi, ?_⟩, hget⟩
    rw [hkey i hi, ← h.name m hm i t hget, hn]

omit [DecidableEq M] in
/-- A name stands for the one structure that the modules share. -/
theorem query_eq_some {s : Interpreter M D} {modules others : List M}
    (h : Arrays tables modules s.types) (hothers : ∀ m, m ∈ others ↔ m ∈ modules) {n : Name}
    {t : TypeInfo M} :
    s.mangledTypeQueryModule tables others n = some t ↔
      ∃ m ∈ modules, t ∈ s.types m ∧ nameOf tables t = n := by
  unfold Interpreter.mangledTypeQueryModule
  constructor
  · intro hfind
    obtain ⟨m, hm, hquery⟩ := List.exists_of_findSome?_eq_some hfind
    have hm := (hothers m).1 hm
    exact ⟨m, hm, (queryTypes_eq_some h hm).1 hquery⟩
  · intro ⟨m, hm, ht, hn⟩
    cases hfind : others.findSome? (s.queryTypes tables n) with
    | none =>
        rw [List.findSome?_eq_none_iff] at hfind
        have hnone := hfind m ((hothers m).2 hm)
        rw [(queryTypes_eq_some h hm).2 ⟨ht, hn⟩] at hnone
        cases hnone
    | some t' =>
        obtain ⟨m', hm', hquery⟩ := List.exists_of_findSome?_eq_some hfind
        have hm' := (hothers m').1 hm'
        obtain ⟨ht', hn'⟩ := (queryTypes_eq_some h hm').1 hquery
        exact congrArg some (h.shared m' hm' t' ht' m hm t ht (hn'.trans hn.symm))

omit [DecidableEq M] in
theorem query_eq_none {s : Interpreter M D} {modules others : List M}
    (h : Arrays tables modules s.types) (hothers : ∀ m, m ∈ others ↔ m ∈ modules) {n : Name} :
    s.mangledTypeQueryModule tables others n = none ↔ ¬ Lists tables modules n := by
  rw [h.lists_iff, Option.eq_none_iff_forall_ne_some]
  constructor
  · intro hnone ⟨m, hm, t, ht, hn⟩
    exact hnone t ((query_eq_some h hothers).2 ⟨m, hm, ht, hn⟩)
  · intro hno t ht
    obtain ⟨m, hm, ht, hn⟩ := (query_eq_some h hothers).1 ht
    exact hno ⟨m, hm, t, ht, hn⟩

/-! ## The casts gone through so far -/

/-- The name of the type that a cast is from. -/
def sourceName (tables : M → TypeTable Name D) (c : CastInfo M) : Name :=
  (tables c.module).name (castSource tables c)

omit [DecidableEq M] in
theorem mem_casts {modules : List M} {c : CastInfo M} :
    c ∈ casts tables modules ↔ c.module ∈ modules ∧ c.row < (tables c.module).size ∧
      c.column < ((tables c.module).castInitial c.row).length := by
  simp only [casts, List.mem_flatMap, List.mem_map, List.mem_range]
  constructor
  · rintro ⟨m, hm, i, hi, column, hcolumn, rfl⟩
    exact ⟨hm, hi, hcolumn⟩
  · intro ⟨hm, hi, hcolumn⟩
    exact ⟨c.module, hm, c.row, hi, c.column, hcolumn, rfl⟩

omit [DecidableEq M] in
theorem castSource_mem {modules : List M} {c : CastInfo M} (hc : c ∈ casts tables modules) :
    castSource tables c ∈ (tables c.module).castInitial c.row ∧
      castSource tables c < (tables c.module).size := by
  obtain ⟨-, hrow, hcolumn⟩ := mem_casts.1 hc
  have hmem : castSource tables c ∈ (tables c.module).castInitial c.row := by
    rw [castSource, List.getD_eq_getElem _ _ hcolumn]
    exact List.getElem_mem hcolumn
  exact ⟨hmem, (tables c.module).castInitial_lt c.row hrow _ hmem⟩

/-- The lists hold, for the casts that have been seen, one of each name; and all pointers
to source types are to shared structures if and only if `P`. -/
structure Held (tables : M → TypeTable Name D) (types : M → List (TypeInfo M))
    (seen : CastInfo M → Prop) (P : Prop) (s : Interpreter M D)
    (lists : TypeInfo M → List (CastInfo M)) : Prop where
  links : Represents s.links lists
  known : ∀ {c}, seen c → c ∈ casts tables s.ring
  owned : ∀ {t c}, c ∈ lists t → seen c ∧ (types c.module)[c.row]? = some t
  named : ∀ {t c}, c ∈ lists t → nameOf tables (s.castType c) = sourceName tables c
  once : ∀ {t c c'}, c ∈ lists t → c' ∈ lists t →
    sourceName tables c = sourceName tables c' → c = c'
  declared : ∀ {c}, seen c → ∃ t, (types c.module)[c.row]? = some t ∧
    ∃ c' ∈ lists t, sourceName tables c' = sourceName tables c
  fresh : ∀ {c}, ¬ seen c → s.castType c = ⟨c.module, castSource tables c⟩
  pointed : (∀ t, ∀ c ∈ lists t,
    (types c.module)[castSource tables c]? = some (s.castType c)) ↔ P

namespace Held

variable {types : M → List (TypeInfo M)} {seen : CastInfo M → Prop} {P : Prop}
  {s s' : Interpreter M D} {lists lists' : TypeInfo M → List (CastInfo M)}

omit [DecidableEq M] in
theorem perm (h : Held tables types seen P s lists) (hlinks : Represents s'.links lists')
    (hperm : ∀ t, (lists' t).Perm (lists t)) (hring : s'.ring = s.ring)
    (htype : s'.castType = s.castType) : Held tables types seen P s' lists' := by
  have hmem : ∀ {t c}, c ∈ lists' t ↔ c ∈ lists t := (hperm _).mem_iff
  refine ⟨hlinks, fun hc => by rw [hring]; exact h.known hc, fun hc => h.owned (hmem.1 hc),
    fun hc => ?_, fun hc hc' => h.once (hmem.1 hc) (hmem.1 hc'), fun hc => ?_, fun hc => ?_, ?_⟩
  · rw [htype]
    exact h.named (hmem.1 hc)
  · obtain ⟨t, ht, c', hc', hname⟩ := h.declared hc
    exact ⟨t, ht, c', hmem.2 hc', hname⟩
  · rw [htype]
    exact h.fresh hc
  · rw [htype, ← h.pointed]
    exact forall_congr' fun t => forall_congr' fun c => by rw [hmem]

/-- What a look up in a list answers; it leaves the lists with the same casts. -/
theorem typeCheckBy (h : Held tables types seen P s lists) (test : TypeInfo M → Bool)
    (ty : TypeInfo M) :
    (s.typeCheckBy tables test ty).1 = (lists ty).find? (fun c => test (s.castType c)) ∧
      ∃ lists', Held tables types seen P (s.typeCheckBy tables test ty).2 lists' ∧
        ∀ t, (lists' t).Perm (lists t) := by
  have hsub : lists ty ⊆ casts tables s.ring := fun c hc => h.known (h.owned hc).1
  have hlen := ((h.links.chain ty).nodup.subperm hsub).length_le
  obtain ⟨hfind, lists', hlinks, hperm⟩ :=
    h.links.check (fun c => test (s.castType c)) (t := ty) (Nat.lt_succ_of_le hlen)
  exact ⟨hfind, lists', h.perm hlinks hperm rfl rfl, hperm⟩

omit [DecidableEq M] in
/-- A cast whose name its list has already is left out. -/
theorem skip (h : Held tables types seen P s lists) {c c' : CastInfo M} {t : TypeInfo M}
    (hc : c ∈ casts tables s.ring) (ht : (types c.module)[c.row]? = some t)
    (hc' : c' ∈ lists t) (hname : sourceName tables c' = sourceName tables c) :
    Held tables types (fun a => seen a ∨ a = c) P s lists := by
  refine ⟨h.links, fun {a} ha => ?_, fun ha => ⟨Or.inl (h.owned ha).1, (h.owned ha).2⟩, h.named,
    h.once, fun {a} ha => ?_, fun ha => h.fresh fun hseen => ha (Or.inl hseen), h.pointed⟩
  · rcases ha with ha | rfl
    · exact h.known ha
    · exact hc
  · rcases ha with ha | rfl
    · exact h.declared ha
    · exact ⟨t, ht, c', hc', hname⟩

/-- A cast of a new name is put in front of its list. -/
theorem add (h : Held tables types seen P s lists) (s' : Interpreter M D) {c : CastInfo M}
    {t : TypeInfo M} (source : TypeInfo M)
    (hseen : ¬ seen c) (hc : c ∈ casts tables s.ring)
    (ht : (types c.module)[c.row]? = some t)
    (hsource : nameOf tables source = sourceName tables c)
    (hnew : ∀ c' ∈ lists t, sourceName tables c' ≠ sourceName tables c)
    (hlinks : s'.links = s.links.push t c) (hring : s'.ring = s.ring)
    (htype : s'.castType = Function.update s.castType c source) :
    Held tables types (fun a => seen a ∨ a = c)
      (P ∧ (types c.module)[castSource tables c]? = some source) s'
      (Function.update lists t (c :: lists t)) := by
  have hout : ∀ t', c ∉ lists t' := fun t' hmem => hseen (h.owned hmem).1
  have hmem : ∀ {t' a}, a ∈ Function.update lists t (c :: lists t) t' ↔
      a ∈ lists t' ∨ t' = t ∧ a = c := by
    intro t' a
    by_cases ht' : t' = t
    · subst ht'
      rw [Function.update_self, List.mem_cons]
      tauto
    · rw [Function.update_of_ne ht']
      tauto
  have hold : ∀ {t' a}, a ∈ lists t' → s'.castType a = s.castType a := by
    intro t' a ha
    rw [htype]
    exact Function.update_of_ne (ne_of_mem_of_not_mem ha (hout t')) _ _
  have hself : s'.castType c = source := by rw [htype, Function.update_self]
  refine ⟨?_, fun {a} ha => ?_, fun {t' a} ha => ?_, fun {t' a} ha => ?_, fun {t' a b} ha hb => ?_,
    fun {a} ha => ?_, fun {a} ha => ?_, ?_⟩
  · rw [hlinks]
    exact h.links.push hout
  · rw [hring]
    rcases ha with ha | rfl
    · exact h.known ha
    · exact hc
  · rcases hmem.1 ha with ha | ⟨rfl, rfl⟩
    · exact ⟨Or.inl (h.owned ha).1, (h.owned ha).2⟩
    · exact ⟨Or.inr rfl, ht⟩
  · rcases hmem.1 ha with ha | ⟨rfl, rfl⟩
    · rw [hold ha]
      exact h.named ha
    · rw [hself]
      exact hsource
  · intro hab
    rcases hmem.1 ha with hina | ⟨hta, hac⟩ <;> rcases hmem.1 hb with hinb | ⟨htb, hbc⟩
    · exact h.once hina hinb hab
    · exact absurd (hab.trans (congrArg _ hbc)) (hnew a (htb ▸ hina))
    · exact absurd (hab.symm.trans (congrArg _ hac)) (hnew b (hta ▸ hinb))
    · exact hac.trans hbc.symm
  · rcases ha with ha | rfl
    · obtain ⟨t', ht', c', hc', hname⟩ := h.declared ha
      exact ⟨t', ht', c', hmem.2 (Or.inl hc'), hname⟩
    · exact ⟨t, ht, a, hmem.2 (Or.inr ⟨rfl, rfl⟩), rfl⟩
  · have hne : a ≠ c := fun e => ha (Or.inr e)
    rw [htype, Function.update_of_ne hne]
    exact h.fresh fun hseen => ha (Or.inl hseen)
  · rw [← h.pointed]
    constructor
    · intro hall
      refine ⟨fun t' a ha => ?_, ?_⟩
      · rw [← hold ha]
        exact hall t' a (hmem.2 (Or.inl ha))
      · rw [← hself]
        exact hall t c (hmem.2 (Or.inr ⟨rfl, rfl⟩))
    · intro ⟨hall, hsrc⟩ t' a ha
      rcases hmem.1 ha with ha | ⟨-, rfl⟩
      · rw [hold ha]
        exact hall t' a ha
      · rw [hself]
        exact hsrc

end Held

/-! ## Loading a module -/

/-- While `m` is loaded behind `modules`, `types` are the arrays as they will be. -/
structure Loading (tables : M → TypeTable Name D) (modules others : List M) (m : M)
    (types : M → List (TypeInfo M)) (s : Interpreter M D) : Prop where
  loaded : Arrays tables modules s.types
  same : ∀ m', m' ∈ others ↔ m' ∈ modules
  new : m ∉ modules
  ring : ∀ m', m' ∈ s.ring ↔ m' = m ∨ m' ∈ modules
  after : Arrays tables (m :: modules) types
  kept : ∀ m' ∈ modules, types m' = s.types m'
  row : ∀ i < (tables m).size, (types m)[i]? =
    some ((s.mangledTypeQueryModule tables others ((tables m).name i)).getD ⟨m, i⟩)

/-- The cast is not a new one between two types that `modules` know. -/
def Known (tables : M → TypeTable Name D) (modules : List M) (c : CastInfo M) : Prop :=
  Lists tables modules ((tables c.module).name c.row) →
  Lists tables modules (sourceName tables c) →
  Declares tables modules (sourceName tables c) ((tables c.module).name c.row)

namespace Loading

variable {modules others : List M} {m : M} {types : M → List (TypeInfo M)}
  {s s' : Interpreter M D} {seen : CastInfo M → Prop} {P : Prop}
  {lists : TypeInfo M → List (CastInfo M)}

omit [DecidableEq M] in
theorem congr (L : Loading tables modules others m types s) (htypes : ∀ m' ∈ modules,
    s'.types m' = s.types m') (hring : s'.ring = s.ring) :
    Loading tables modules others m types s' := by
  have hloaded : Arrays tables modules s'.types := by
    refine ⟨fun m' hm' => ?_, fun m' hm' => ?_, fun m' hm' t ht => ?_,
      fun m₁ h₁ t₁ ht₁ m₂ h₂ t₂ ht₂ => ?_⟩
    · rw [htypes m' hm']
      exact L.loaded.length m' hm'
    · rw [htypes m' hm']
      exact L.loaded.name m' hm'
    · rw [htypes m' hm'] at ht
      obtain ⟨hin, hget⟩ := L.loaded.own m' hm' t ht
      exact ⟨hin, by rw [htypes _ hin]; exact hget⟩
    · rw [htypes m₁ h₁] at ht₁
      rw [htypes m₂ h₂] at ht₂
      exact L.loaded.shared m₁ h₁ t₁ ht₁ m₂ h₂ t₂ ht₂
  refine ⟨hloaded, L.same, L.new, fun m' => by rw [hring]; exact L.ring m', L.after,
    fun m' hm' => (L.kept m' hm').trans (htypes m' hm').symm, fun i hi => ?_⟩
  -- The query answers the same, since it is determined by the arrays.
  have hquery : s'.mangledTypeQueryModule tables others ((tables m).name i) =
      s.mangledTypeQueryModule tables others ((tables m).name i) := by
    refine Option.ext fun t => ?_
    rw [query_eq_some hloaded L.same, query_eq_some L.loaded L.same]
    refine exists_congr fun m' => and_congr_right fun hm' => ?_
    rw [htypes m' hm']
  rw [hquery]
  exact L.row i hi

omit [DecidableEq M] in
/-- What a query answers is in the arrays of the modules loaded before. -/
theorem query (L : Loading tables modules others m types s) {n : Name} {t : TypeInfo M}
    (h : s.mangledTypeQueryModule tables others n = some t) :
    (∃ m' ∈ modules, t ∈ types m') ∧ nameOf tables t = n ∧ t.module ∈ modules ∧
      Lists tables modules n := by
  obtain ⟨m', hm', ht, hn⟩ := (query_eq_some L.loaded L.same).1 h
  refine ⟨⟨m', hm', by rw [L.kept m' hm']; exact ht⟩, hn, (L.loaded.own m' hm' t ht).1, ?_⟩
  exact L.loaded.lists_iff.2 ⟨m', hm', t, ht, hn⟩

omit [DecidableEq M] in
theorem not_lists (L : Loading tables modules others m types s) {n : Name}
    (h : s.mangledTypeQueryModule tables others n = none) : ¬ Lists tables modules n :=
  (query_eq_none L.loaded L.same).1 h

omit [DecidableEq M] in
/-- The casts of a list are of rows with the name of the type. -/
theorem row_name (L : Loading tables modules others m types s)
    (h : Held tables types seen P s lists) {t : TypeInfo M} {c : CastInfo M} (hc : c ∈ lists t) :
    nameOf tables t = (tables c.module).name c.row := by
  have hin : c.module ∈ m :: modules :=
    List.mem_cons.2 ((L.ring c.module).1 (mem_casts.1 (h.known (h.owned hc).1)).1)
  exact L.after.name c.module hin c.row t (h.owned hc).2

omit [DecidableEq M] in
theorem nameOf_row (L : Loading tables modules others m types s) {i : Nat} {t : TypeInfo M}
    (ht : (types m)[i]? = some t) : nameOf tables t = (tables m).name i :=
  L.after.name m List.mem_cons_self i t ht

/-! ### One turn of the loop over the casts -/

/-- After a turn of the loop over the casts `c` has been seen too, and the pointers are right as
long as they were and the cast is a known one. -/
def Turned (tables : M → TypeTable Name D) (modules others : List M) (types : M → List (TypeInfo M))
    (s : Interpreter M D) (seen : CastInfo M → Prop) (P : Prop) (c : CastInfo M)
    (s' : Interpreter M D) : Prop :=
  Loading tables modules others c.module types s' ∧ s'.types = s.types ∧
    ∃ lists', Held tables types (fun a => seen a ∨ a = c) (P ∧ Known tables modules c) s' lists'

section Turn

variable {c : CastInfo M} {t : TypeInfo M}

omit [DecidableEq M] in
/-- A cast of the list with the same source comes from a module loaded before. -/
theorem source_module (L : Loading tables modules others c.module types s)
    (h : Held tables types seen P s lists) (hc : c ∈ casts tables s.ring)
    (ht : (types c.module)[c.row]? = some t)
    (hrow : ∀ {c'}, seen c' → c'.module = c.module → c'.row = c.row →
      sourceName tables c' ≠ sourceName tables c) :
    ∀ c' ∈ lists t, sourceName tables c' = sourceName tables c → c'.module ∈ modules := by
  intro c' hc' hn
  rcases (L.ring c'.module).1 (mem_casts.1 (h.known (h.owned hc').1)).1 with hm | hm
  · -- A cast of this module in the list of `t` is of the same row.
    have hname := (L.row_name h hc').symm.trans (L.nameOf_row ht)
    have hlt := (mem_casts.1 (h.known (h.owned hc').1)).2.1
    rw [hm] at hname hlt
    exact absurd hn (hrow (h.owned hc').1 hm
      ((tables c.module).name_inj hlt (mem_casts.1 hc).2.1 hname))
  · exact hm

/-- The source is a type that no module before has. -/
theorem turned_unknown (L : Loading tables modules others c.module types s)
    (h : Held tables types seen P s lists) (hc : c ∈ casts tables s.ring) (hseen : ¬ seen c)
    (ht : (types c.module)[c.row]? = some t)
    (hmod : ∀ c' ∈ lists t, sourceName tables c' = sourceName tables c → c'.module ∈ modules)
    (hquery : s.mangledTypeQueryModule tables others (sourceName tables c) = none) :
    Turned tables modules others types s seen P c (s.addCast t c) := by
  have hfresh := h.fresh hseen
  have hname : nameOf tables (s.castType c) = sourceName tables c := by rw [hfresh]; rfl
  have hunknown := L.not_lists hquery
  have hnew : ∀ c' ∈ lists t, sourceName tables c' ≠ sourceName tables c := by
    -- A cast of that name would make the name known.
    intro c' hc' hn
    have hcast := h.known (h.owned hc').1
    exact hunknown ⟨c'.module, hmod c' hc' hn, castSource tables c', (castSource_mem hcast).2, hn⟩
  have hright : (types c.module)[castSource tables c]? = some (s.castType c) := by
    rw [L.row (castSource tables c) (castSource_mem hc).2, show s.mangledTypeQueryModule tables
      others ((tables c.module).name (castSource tables c)) = none from hquery, hfresh]
    rfl
  have hknown : Known tables modules c := fun _ hs => absurd hs hunknown
  have hadd := h.add (s.addCast t c) (s.castType c) hseen hc ht hname hnew rfl rfl
    (Function.update_eq_self c s.castType).symm
  rw [propext (and_congr_right_iff.2 fun _ : P => iff_of_true hright hknown)] at hadd
  exact ⟨L.congr (fun _ _ => rfl) rfl, rfl, _, hadd⟩

omit [DecidableEq M] in
/-- The array has what the query answers for the source. -/
theorem source_row (L : Loading tables modules others c.module types s)
    (hc : c ∈ casts tables s.ring) {ret : TypeInfo M}
    (hquery : s.mangledTypeQueryModule tables others (sourceName tables c) = some ret) :
    (types c.module)[castSource tables c]? = some ret := by
  rw [L.row (castSource tables c) (castSource_mem hc).2, show s.mangledTypeQueryModule tables
    others ((tables c.module).name (castSource tables c)) = some ret from hquery]
  rfl

/-- The source is one that a module before has, and the type of the cast is new. -/
theorem turned_newType (L : Loading tables modules others c.module types s)
    (h : Held tables types seen P s lists) (hc : c ∈ casts tables s.ring) (hseen : ¬ seen c)
    (ht : (types c.module)[c.row]? = some t)
    (hmod : ∀ c' ∈ lists t, sourceName tables c' = sourceName tables c → c'.module ∈ modules)
    {ret : TypeInfo M}
    (hquery : s.mangledTypeQueryModule tables others (sourceName tables c) = some ret)
    (hself : t = ⟨c.module, c.row⟩)
    (hown : s.mangledTypeQueryModule tables others ((tables c.module).name c.row) = none) :
    Turned tables modules others types s seen P c
      (({ s with castType := Function.update s.castType c ret }).addCast t c) := by
  have hnew : ∀ c' ∈ lists t, sourceName tables c' ≠ sourceName tables c := by
    -- The structures of the modules before are not this one.
    intro c' hc' hn
    have hm := hmod c' hc' hn
    have hget := (h.owned hc').2
    rw [L.kept _ hm] at hget
    have hin := (L.loaded.own _ hm t (List.mem_of_getElem? hget)).1
    rw [hself] at hin
    exact L.new hin
  have hcond : Known tables modules c := fun ht' _ => absurd ht' (L.not_lists hown)
  have hadd := h.add (({ s with castType := Function.update s.castType c ret }).addCast t c) ret
    hseen hc ht (L.query hquery).2.1 hnew rfl rfl rfl
  rw [propext (and_congr_right_iff.2 fun _ : P =>
    iff_of_true (L.source_row hc hquery) hcond)] at hadd
  exact ⟨L.congr (fun _ _ => rfl) rfl, rfl, _, hadd⟩

omit [DecidableEq M] in
/-- The list has a cast for the conversion already. -/
theorem turned_found (L : Loading tables modules others c.module types s)
    (h : Held tables types seen P s lists) (hc : c ∈ casts tables s.ring)
    (ht : (types c.module)[c.row]? = some t)
    (hmod : ∀ c' ∈ lists t, sourceName tables c' = sourceName tables c → c'.module ∈ modules)
    (hown : s.mangledTypeQueryModule tables others ((tables c.module).name c.row) = some t)
    {ocast : CastInfo M} (hin : ocast ∈ lists t)
    (hn : nameOf tables (s.castType ocast) = sourceName tables c) :
    Turned tables modules others types s seen P c s := by
  have hname : sourceName tables ocast = sourceName tables c := (h.named hin).symm.trans hn
  have hcond : Known tables modules c := fun _ _ =>
    ⟨ocast.module, hmod ocast hin hname, ocast.row, (mem_casts.1 (h.known (h.owned hin).1)).2.1,
      (L.row_name h hin).symm.trans (L.query hown).2.1, castSource tables ocast,
      (castSource_mem (h.known (h.owned hin).1)).1, hname⟩
  have hskip := h.skip hc ht hin hname
  rw [← propext (and_iff_left (a := P) hcond)] at hskip
  exact ⟨L, rfl, lists, hskip⟩

/-- Both types are known, and there is no cast for the conversion. -/
theorem turned_missing (L : Loading tables modules others c.module types s)
    (h : Held tables types seen P s lists) (hc : c ∈ casts tables s.ring) (hseen : ¬ seen c)
    (ht : (types c.module)[c.row]? = some t) (hold : ∀ {c'}, c' ∈ casts tables modules → seen c')
    {ret : TypeInfo M}
    (hquery : s.mangledTypeQueryModule tables others (sourceName tables c) = some ret)
    (hown : s.mangledTypeQueryModule tables others ((tables c.module).name c.row) = some t)
    (hnew : ∀ c' ∈ lists t, sourceName tables c' ≠ sourceName tables c) :
    Turned tables modules others types s seen P c (s.addCast t c) := by
  obtain ⟨-, -, hretmod, hretknown⟩ := L.query hquery
  obtain ⟨⟨m', hm', hin⟩, htname, -, htknown⟩ := L.query hown
  have hfresh := h.fresh hseen
  have hname : nameOf tables (s.castType c) = sourceName tables c := by rw [hfresh]; rfl
  have hcond : ¬ Known tables modules c := by
    intro hk
    -- The list has a cast for the conversion, and that one was not found.
    obtain ⟨m₁, hm₁, i, hi, hi', j, hj, hj'⟩ := hk htknown hretknown
    obtain ⟨k, hk, hkj⟩ := List.mem_iff_getElem.1 hj
    have hcast : (⟨m₁, i, k⟩ : CastInfo M) ∈ casts tables modules := mem_casts.2 ⟨hm₁, hi, hk⟩
    have hsrc : sourceName tables (⟨m₁, i, k⟩ : CastInfo M) = sourceName tables c := by
      rw [← hj', ← hkj]
      exact congrArg _ (List.getD_eq_getElem _ _ hk)
    obtain ⟨t₁, ht₁, c', hc', hn⟩ := h.declared (hold hcast)
    have htt : t₁ = t := by
      refine L.after.shared m₁ (List.mem_cons_of_mem _ hm₁) t₁
        (List.mem_of_getElem? ht₁) m' (List.mem_cons_of_mem _ hm') t hin ?_
      rw [L.after.name m₁ (List.mem_cons_of_mem _ hm₁) i t₁ ht₁, htname]
      exact hi'
    rw [htt] at hc'
    exact hnew c' hc' (hn.trans hsrc)
  have hwrong : ¬ (types c.module)[castSource tables c]? = some (s.castType c) := by
    rw [L.source_row hc hquery, hfresh]
    intro e
    rw [Option.some.inj e] at hretmod
    exact L.new hretmod
  have hadd := h.add (s.addCast t c) (s.castType c) hseen hc ht hname hnew rfl rfl
    (Function.update_eq_self c s.castType).symm
  rw [propext (and_congr_right_iff.2 fun _ : P => iff_of_false hwrong hcond)] at hadd
  exact ⟨L.congr (fun _ _ => rfl) rfl, rfl, _, hadd⟩

end Turn

/-- One turn of the loop over the casts. -/
theorem insertCast (L : Loading tables modules others m types s)
    (h : Held tables types seen P s lists) {c : CastInfo M} {t : TypeInfo M}
    (hmodule : c.module = m) (hc : c ∈ casts tables s.ring) (hseen : ¬ seen c)
    (ht : (types m)[c.row]? = some t)
    (hold : ∀ {c'}, c' ∈ casts tables modules → seen c')
    (hrow : ∀ {c'}, seen c' → c'.module = m → c'.row = c.row →
      sourceName tables c' ≠ sourceName tables c) :
    Loading tables modules others m types (s.insertCast tables others t c) ∧
      (s.insertCast tables others t c).types = s.types ∧
      ∃ lists', Held tables types (fun a => seen a ∨ a = c) (P ∧ Known tables modules c)
        (s.insertCast tables others t c) lists' := by
  subst hmodule
  have hmod := L.source_module h hc ht hrow
  have htrow := L.row c.row (mem_casts.1 hc).2.1
  rw [ht] at htrow
  have htrow := Option.some.inj htrow
  have hname : nameOf tables (s.castType c) = sourceName tables c := by rw [h.fresh hseen]; rfl
  unfold Interpreter.insertCast
  rw [hname]
  cases hquery : s.mangledTypeQueryModule tables others (sourceName tables c) with
  | none => exact L.turned_unknown h hc hseen ht hmod hquery
  | some ret =>
      cases hown : s.mangledTypeQueryModule tables others ((tables c.module).name c.row) with
      | none =>
          rw [hown, Option.getD_none] at htrow
          simp only
          rw [if_pos htrow]
          exact L.turned_newType h hc hseen ht hmod hquery htrow hown
      | some t' =>
          rw [hown] at htrow
          obtain rfl : t = t' := htrow
          have hne : t ≠ ⟨c.module, c.row⟩ := by
            intro e
            have hin := (L.query hown).2.2.1
            rw [e] at hin
            exact L.new hin
          simp only
          rw [if_neg hne]
          -- The query moves what it finds to the front of the list.
          obtain ⟨hfind, lists', hheld, hperm⟩ :=
            h.typeCheckBy (fun iterType => nameOf tables iterType = nameOf tables ret) t
          rcases hcheck : s.typeCheck tables (nameOf tables ret) t with ⟨ocast, s₁⟩
          have hs₁ : (s.typeCheck tables (nameOf tables ret) t).2 = s₁ := congrArg Prod.snd hcheck
          have hocast := (congrArg Prod.fst hcheck).symm.trans hfind
          rw [(L.query hquery).2.1] at hocast
          have hheld : Held tables types seen P s₁ lists' := by
            rw [← hs₁]
            exact hheld
          have hsame : s₁.types = s.types ∧ s₁.ring = s.ring := by
            rw [← hs₁]
            exact ⟨rfl, rfl⟩
          have hL : Loading tables modules others c.module types s₁ :=
            L.congr (fun m' _ => by rw [hsame.1]) hsame.2
          have hc₁ : c ∈ casts tables s₁.ring := by
            rw [hsame.2]
            exact hc
          have hquery₁ : ∀ n, s₁.mangledTypeQueryModule tables others n =
              s.mangledTypeQueryModule tables others n := by
            intro n
            rw [← hs₁]
            rfl
          have hmod₁ := hL.source_module hheld hc₁ ht hrow
          cases ocast with
          | some ocast =>
              have hn : nameOf tables (s.castType ocast) = sourceName tables c := by
                simpa using List.find?_some hocast.symm
              have hcast : s₁.castType ocast = s.castType ocast := by
                rw [← hs₁]
                rfl
              obtain ⟨hafter, htypes, hlists⟩ := hL.turned_found hheld hc₁ ht hmod₁
                ((hquery₁ _).trans hown)
                ((hperm t).mem_iff.2 (List.mem_of_find?_eq_some hocast.symm)) (by rw [hcast, hn])
              exact ⟨hafter, htypes.trans hsame.1, hlists⟩
          | none =>
              have hnew : ∀ c' ∈ lists' t, sourceName tables c' ≠ sourceName tables c := by
                intro c' hc' hn
                have hin := (hperm t).mem_iff.1 hc'
                have hnone := List.find?_eq_none.1 hocast.symm c' hin
                rw [h.named hin] at hnone
                exact hnone (by simpa using hn)
              obtain ⟨hafter, htypes, hlists⟩ := hL.turned_missing hheld hc₁ hseen ht hold
                ((hquery₁ _).trans hquery) ((hquery₁ _).trans hown) hnew
              exact ⟨hafter, htypes.trans hsame.1, hlists⟩

end Loading

/-! ## The loops -/

/-- The casts gone through when the loop over the rows of `m` is at a row and a column. -/
def SeenUpTo (tables : M → TypeTable Name D) (modules : List M) (m : M) (row column : Nat)
    (c : CastInfo M) : Prop :=
  c ∈ casts tables (m :: modules) ∧
    (c.module = m → c.row < row ∨ c.row = row ∧ c.column < column)

/-- The casts of `m` up to there are known ones. -/
def KnownUpTo (tables : M → TypeTable Name D) (modules : List M) (m : M) (row column : Nat) :
    Prop :=
  ∀ c, c.module = m → SeenUpTo tables modules m row column c → Known tables modules c

section Loops

variable {modules others : List M} {m : M} {types : M → List (TypeInfo M)}
  {s : Interpreter M D} {P : Prop} {lists : TypeInfo M → List (CastInfo M)}

omit [DecidableEq M] in
theorem Held.congr {seen seen' : CastInfo M → Prop} {P' : Prop}
    (h : Held tables types seen P s lists) (hseen : ∀ c, seen c ↔ seen' c) (hP : P ↔ P') :
    Held tables types seen' P' s lists := by
  obtain rfl : seen = seen' := funext fun c => propext (hseen c)
  obtain rfl : P = P' := propext hP
  exact h

omit [DecidableEq M] in
theorem seenUpTo_succ {row column : Nat}
    (hc : (⟨m, row, column⟩ : CastInfo M) ∈ casts tables (m :: modules)) (c : CastInfo M) :
    SeenUpTo tables modules m row column c ∨ c = ⟨m, row, column⟩ ↔
      SeenUpTo tables modules m row (column + 1) c := by
  constructor
  · intro h
    rcases h with ⟨hin, h⟩ | rfl
    · exact ⟨hin, fun hm => by have := h hm; omega⟩
    · exact ⟨hc, fun _ => Or.inr ⟨rfl, Nat.lt_succ_self column⟩⟩
  · intro ⟨hin, h⟩
    by_cases hat : c.module = m ∧ c.row = row ∧ c.column = column
    · obtain ⟨rfl, rfl, rfl⟩ := hat
      exact Or.inr rfl
    · refine Or.inl ⟨hin, fun hm => ?_⟩
      have := h hm
      have : ¬ (c.row = row ∧ c.column = column) := fun e => hat ⟨hm, e⟩
      omega

omit [DecidableEq M] in
theorem knownUpTo_succ {row column : Nat}
    (hc : (⟨m, row, column⟩ : CastInfo M) ∈ casts tables (m :: modules)) :
    KnownUpTo tables modules m row column ∧ Known tables modules (⟨m, row, column⟩ : CastInfo M) ↔
      KnownUpTo tables modules m row (column + 1) := by
  constructor
  · intro ⟨hold, hnew⟩ c hm hseen
    rcases (seenUpTo_succ hc c).2 hseen with h | rfl
    · exact hold c hm h
    · exact hnew
  · intro h
    exact ⟨fun c hm hseen => h c hm ((seenUpTo_succ hc c).1 (Or.inl hseen)),
      h _ rfl ((seenUpTo_succ hc _).1 (Or.inr rfl))⟩

omit [DecidableEq M] in
/-- The end of a row is the beginning of the next one. -/
theorem seenUpTo_row {row column : Nat}
    (hcolumn : column = ((tables m).castInitial row).length) (c : CastInfo M) :
    SeenUpTo tables modules m row column c ↔ SeenUpTo tables modules m (row + 1) 0 c := by
  refine and_congr_right fun hin => forall_congr' fun hm => ?_
  have hlt := (mem_casts.1 hin).2.2
  rw [hm] at hlt
  constructor
  · intro h
    omega
  · intro h
    by_cases hrow : c.row = row
    · rw [hrow] at hlt
      omega
    · omega

omit [DecidableEq M] in
theorem knownUpTo_row {row column : Nat}
    (hcolumn : column = ((tables m).castInitial row).length) :
    KnownUpTo tables modules m row column ↔ KnownUpTo tables modules m (row + 1) 0 :=
  forall_congr' fun c => imp_congr_right fun _ => by rw [seenUpTo_row hcolumn c]

omit [DecidableEq M] in
theorem seenUpTo_zero (hm : m ∉ modules) (c : CastInfo M) :
    c ∈ casts tables modules ↔ SeenUpTo tables modules m 0 0 c := by
  rw [SeenUpTo, mem_casts, mem_casts, List.mem_cons]
  constructor
  · intro ⟨hin, h⟩
    exact ⟨⟨Or.inr hin, h⟩, fun e => absurd (e ▸ hin) hm⟩
  · intro ⟨⟨hin, h⟩, hno⟩
    rcases hin with hin | hin
    · have := hno hin
      omega
    · exact ⟨hin, h⟩

omit [DecidableEq M] in
theorem seenUpTo_size (c : CastInfo M) :
    SeenUpTo tables modules m (tables m).size 0 c ↔ c ∈ casts tables (m :: modules) := by
  refine and_iff_left_of_imp fun hin hm => Or.inl ?_
  have hlt := (mem_casts.1 hin).2.1
  rwa [hm] at hlt

/-- The loop over the casts of a row. -/
theorem Loading.insertCasts {row : Nat} {t : TypeInfo M} {sources : List Nat} {column : Nat}
    (L : Loading tables modules others m types s) (hrow : row < (tables m).size)
    (ht : (types m)[row]? = some t)
    (hsources : sources = ((tables m).castInitial row).drop column)
    (hcolumn : column ≤ ((tables m).castInitial row).length)
    (h : Held tables types (SeenUpTo tables modules m row column)
      (P ∧ KnownUpTo tables modules m row column) s lists) :
    Loading tables modules others m types
        (Interpreter.insertCasts tables others t m row sources column s) ∧
      (Interpreter.insertCasts tables others t m row sources column s).types = s.types ∧
      ∃ lists', Held tables types (SeenUpTo tables modules m (row + 1) 0)
        (P ∧ KnownUpTo tables modules m (row + 1) 0)
        (Interpreter.insertCasts tables others t m row sources column s) lists' := by
  induction sources generalizing column s lists with
  | nil =>
      have hend : column = ((tables m).castInitial row).length := by
        have := List.drop_eq_nil_iff.1 hsources.symm
        omega
      exact ⟨L, rfl, lists, h.congr (seenUpTo_row hend)
        (and_congr_right fun _ => knownUpTo_row hend)⟩
  | cons j sources ih =>
      have hlt : column < ((tables m).castInitial row).length := by
        by_contra hge
        rw [List.drop_eq_nil_of_le (by omega)] at hsources
        cases hsources
      have hc : (⟨m, row, column⟩ : CastInfo M) ∈ casts tables (m :: modules) :=
        mem_casts.2 ⟨List.mem_cons_self, hrow, hlt⟩
      have hring : (⟨m, row, column⟩ : CastInfo M) ∈ casts tables s.ring :=
        mem_casts.2 ⟨(L.ring m).2 (Or.inl rfl), hrow, hlt⟩
      have hseen : ¬ SeenUpTo tables modules m row column ⟨m, row, column⟩ := by
        intro ⟨_, hbefore⟩
        have := hbefore rfl
        simp at this
      have hold : ∀ {c'}, c' ∈ casts tables modules → SeenUpTo tables modules m row column c' := by
        intro c' hc'
        obtain ⟨hin, hno⟩ := (seenUpTo_zero L.new c').1 hc'
        exact ⟨hin, fun hm => by have := hno hm; omega⟩
      have hdiffer : ∀ {c'}, SeenUpTo tables modules m row column c' → c'.module = m →
          c'.row = row → sourceName tables c' ≠ sourceName tables ⟨m, row, column⟩ := by
        rintro ⟨_, _, column'⟩ ⟨hin, hbefore⟩ rfl rfl hname
        have hless : column' < column := by
          have := hbefore rfl
          simp only at this
          omega
        have hsource := (tables _).name_inj (castSource_mem hin).2 (castSource_mem hc).2 hname
        rw [castSource, castSource, List.getD_eq_getElem _ _ (mem_casts.1 hin).2.2,
          List.getD_eq_getElem _ _ hlt] at hsource
        have heq : column' = column :=
          ((tables _).castInitial_nodup _ hrow).getElem_inj_iff.1 hsource
        omega
      obtain ⟨L', htypes, lists', h'⟩ := L.insertCast h rfl hring hseen ht hold hdiffer
      have hdrop : sources = ((tables m).castInitial row).drop (column + 1) := by
        rw [List.drop_eq_getElem_cons hlt] at hsources
        exact (List.cons.inj hsources).2
      have hstep := h'.congr (seenUpTo_succ hc)
        (and_assoc.trans (and_congr_right fun _ => knownUpTo_succ hc))
      obtain ⟨L'', htypes', lists'', h''⟩ := ih L' hdrop hlt hstep
      exact ⟨L'', htypes'.trans htypes, lists'', h''⟩

/-- One turn of the loop over the types. -/
theorem Loading.insertType {row : Nat} (L : Loading tables modules others m types s)
    (hrow : row < (tables m).size) (hdone : s.types m = (types m).take row)
    (h : Held tables types (SeenUpTo tables modules m row 0)
      (P ∧ KnownUpTo tables modules m row 0) s lists) :
    Loading tables modules others m types (s.insertType tables others m row) ∧
      (s.insertType tables others m row).types m = (types m).take (row + 1) ∧
      (∀ m', m' ≠ m → (s.insertType tables others m row).types m' = s.types m') ∧
      ∃ lists', Held tables types (SeenUpTo tables modules m (row + 1) 0)
        (P ∧ KnownUpTo tables modules m (row + 1) 0)
        (s.insertType tables others m row) lists' := by
  have ht := L.row row hrow
  set t := (s.mangledTypeQueryModule tables others ((tables m).name row)).getD ⟨m, row⟩ with htdef
  -- The client data is not looked at.
  obtain ⟨s₀, hs₀, hlinks₀, hring₀, htypes₀, hcast₀⟩ : ∃ s₀ : Interpreter M D,
      s.insertType tables others m row =
        { Interpreter.insertCasts tables others t m row ((tables m).castInitial row) 0 s₀ with
          types := Function.update
            (Interpreter.insertCasts tables others t m row ((tables m).castInitial row) 0 s₀).types
            m ((Interpreter.insertCasts tables others t m row
              ((tables m).castInitial row) 0 s₀).types m ++ [t]) } ∧
      s₀.links = s.links ∧ s₀.ring = s.ring ∧ s₀.types = s.types ∧ s₀.castType = s.castType := by
    unfold Interpreter.insertType
    simp only
    split
    · exact ⟨_, rfl, rfl, rfl, rfl, rfl⟩
    · exact ⟨_, rfl, rfl, rfl, rfl, rfl⟩
  have L₀ : Loading tables modules others m types s₀ := L.congr (fun _ _ => by rw [htypes₀]) hring₀
  have h₀ : Held tables types (SeenUpTo tables modules m row 0)
      (P ∧ KnownUpTo tables modules m row 0) s₀ lists :=
    h.perm (by rw [hlinks₀]; exact h.links) (fun _ => List.Perm.refl _) hring₀ hcast₀
  have hsources : (tables m).castInitial row = ((tables m).castInitial row).drop 0 :=
    List.drop_zero.symm
  obtain ⟨L₁, htypes₁, lists₁, h₁⟩ := L₀.insertCasts hrow ht hsources (Nat.zero_le _) h₀
  have hkeep : ∀ m', m' ≠ m → (s.insertType tables others m row).types m' = s.types m' := by
    intro m' hm'
    rw [hs₀]
    show Function.update _ m _ m' = _
    rw [Function.update_of_ne hm', htypes₁, htypes₀]
  refine ⟨?_, ?_, hkeep, lists₁, ?_⟩
  · rw [hs₀]
    refine L₁.congr (fun m' hm' => ?_) rfl
    exact Function.update_of_ne (ne_of_mem_of_not_mem hm' L.new) _ _
  · rw [hs₀]
    show Function.update _ m _ m = _
    rw [Function.update_self, htypes₁, htypes₀, hdone, List.take_add_one, ht]
    rfl
  · rw [hs₀]
    exact h₁.perm h₁.links (fun _ => List.Perm.refl _) rfl rfl

/-- The loop over the types. -/
theorem Loading.insertTypes {n : Nat} (L : Loading tables modules others m types s)
    (hn : n ≤ (tables m).size) (hempty : s.types m = [])
    (h : Held tables types (SeenUpTo tables modules m 0 0)
      (P ∧ KnownUpTo tables modules m 0 0) s lists) :
    let s' := (List.range n).foldl (fun s i => s.insertType tables others m i) s
    Loading tables modules others m types s' ∧ s'.types m = (types m).take n ∧
      (∀ m', m' ≠ m → s'.types m' = s.types m') ∧
      ∃ lists', Held tables types (SeenUpTo tables modules m n 0)
        (P ∧ KnownUpTo tables modules m n 0) s' lists' := by
  induction n with
  | zero => exact ⟨L, by simpa using hempty, fun _ _ => rfl, lists, h⟩
  | succ n ih =>
      obtain ⟨L', hdone, hkeep, lists', h'⟩ := ih (by omega)
      rw [List.range_succ, List.foldl_append]
      obtain ⟨L'', hdone', hkeep', lists'', h''⟩ := L'.insertType (by omega) hdone h'
      exact ⟨L'', hdone', fun m' hm' => (hkeep' m' hm').trans (hkeep m' hm'), lists'', h''⟩

end Loops

/-! ## A module is loaded -/

/-- The state when these modules are loaded; the pointers in the casts are to shared
structures if and only if `P`. -/
structure Loaded (tables : M → TypeTable Name D) (modules : List M) (P : Prop)
    (s : Interpreter M D) : Prop where
  ring : ∀ m, m ∈ s.ring ↔ m ∈ modules
  arrays : Arrays tables modules s.types
  unloaded : ∀ m, m ∉ modules → s.types m = []
  held : ∃ lists, Held tables s.types (fun c => c ∈ casts tables modules) P s lists

section Load

variable {modules others : List M} {m : M} {s s₁ : Interpreter M D} {P : Prop}

omit [DecidableEq M] in
theorem Held.types_congr {types types' : M → List (TypeInfo M)} {seen : CastInfo M → Prop}
    {lists : TypeInfo M → List (CastInfo M)} (h : Held tables types seen P s lists)
    (htypes : ∀ c, seen c → types' c.module = types c.module) :
    Held tables types' seen P s lists := by
  refine ⟨h.links, h.known, fun hc => ⟨(h.owned hc).1, ?_⟩, h.named, h.once, fun hc => ?_,
    h.fresh, ?_⟩
  · rw [htypes _ (h.owned hc).1]
    exact (h.owned hc).2
  · rw [htypes _ hc]
    exact h.declared hc
  · rw [← h.pointed]
    refine forall_congr' fun t => forall_congr' fun c => imp_congr_right fun hc => ?_
    rw [htypes _ (h.owned hc).1]

omit [DecidableEq M] in
theorem Arrays.congr {modules' : List M} {types : M → List (TypeInfo M)}
    (h : Arrays tables modules types) (hmem : ∀ m, m ∈ modules ↔ m ∈ modules') :
    Arrays tables modules' types :=
  ⟨fun m hm => h.length m ((hmem m).2 hm), fun m hm => h.name m ((hmem m).2 hm),
    fun m hm t ht => by
      obtain ⟨hin, hget⟩ := h.own m ((hmem m).2 hm) t ht
      exact ⟨(hmem _).1 hin, hget⟩,
    fun m hm t ht m' hm' => h.shared m ((hmem m).2 hm) t ht m' ((hmem m').2 hm')⟩

omit [DecidableEq M] in
theorem Loaded.congr {modules' : List M} {P' : Prop} (h : Loaded tables modules P s)
    (hmem : ∀ m, m ∈ modules ↔ m ∈ modules') (hP : P ↔ P') : Loaded tables modules' P' s := by
  obtain ⟨lists, hheld⟩ := h.held
  refine ⟨fun m => (h.ring m).trans (hmem m), h.arrays.congr hmem,
    fun m hm => h.unloaded m fun hin => hm ((hmem m).1 hin), lists, hheld.congr (fun c => ?_) hP⟩
  rw [mem_casts, mem_casts, hmem]

/-- The array that the module will have. -/
def newTypes (tables : M → TypeTable Name D) (others : List M) (m : M)
    (s : Interpreter M D) : List (TypeInfo M) :=
  (List.range (tables m).size).map fun i =>
    (s.mangledTypeQueryModule tables others ((tables m).name i)).getD ⟨m, i⟩

/-- The arrays with the one of the new module. -/
theorem Arrays.extend (h : Arrays tables modules s.types)
    (hothers : ∀ m', m' ∈ others ↔ m' ∈ modules) (hm : m ∉ modules) :
    Arrays tables (m :: modules) (Function.update s.types m (newTypes tables others m s)) := by
  have hold : ∀ m' ∈ modules,
      Function.update s.types m (newTypes tables others m s) m' = s.types m' :=
    fun m' hm' => Function.update_of_ne (ne_of_mem_of_not_mem hm' hm) _ _
  have hself : Function.update s.types m (newTypes tables others m s) m =
      newTypes tables others m s := Function.update_self ..
  -- An entry of the new array is an old structure, or the module's own.
  have hentry : ∀ t ∈ newTypes tables others m s, ∃ i < (tables m).size,
      nameOf tables t = (tables m).name i ∧
      ((∃ m' ∈ modules, t ∈ s.types m') ∨
        t = ⟨m, i⟩ ∧ ¬ Lists tables modules ((tables m).name i)) := by
    intro t ht
    obtain ⟨i, hi, rfl⟩ := List.mem_map.1 ht
    refine ⟨i, List.mem_range.1 hi, ?_⟩
    cases hquery : s.mangledTypeQueryModule tables others ((tables m).name i) with
    | none => exact ⟨rfl, Or.inr ⟨rfl, (query_eq_none h hothers).1 hquery⟩⟩
    | some t =>
        obtain ⟨m', hm', hin, hn⟩ := (query_eq_some h hothers).1 hquery
        exact ⟨hn, Or.inl ⟨m', hm', hin⟩⟩
  have hget : ∀ i t, (newTypes tables others m s)[i]? = some t → i < (tables m).size ∧
      t = (s.mangledTypeQueryModule tables others ((tables m).name i)).getD ⟨m, i⟩ := by
    intro i t ht
    rw [newTypes, List.getElem?_map, Option.map_eq_some_iff] at ht
    obtain ⟨j, hj, rfl⟩ := ht
    obtain ⟨hlt, rfl⟩ := List.getElem?_eq_some_iff.1 hj
    rw [List.length_range] at hlt
    simp [hlt]
  -- Two entries of one name, the first of which is new.
  have hshared : ∀ t ∈ newTypes tables others m s, ∀ m' ∈ modules, ∀ t' ∈ s.types m',
      nameOf tables t = nameOf tables t' → t = t' := by
    intro t ht m' hm' t' ht' hn
    obtain ⟨i, -, hname, ⟨m₁, hm₁, hin⟩ | ⟨-, hno⟩⟩ := hentry t ht
    · exact h.shared m₁ hm₁ t hin m' hm' t' ht' hn
    · exact absurd (h.lists_iff.2 ⟨m', hm', t', ht', hn.symm.trans hname⟩) hno
  refine ⟨fun m' hm' => ?_, fun m' hm' i t ht => ?_, fun m' hm' t ht => ?_,
    fun m₁ h₁ t₁ ht₁ m₂ h₂ t₂ ht₂ hn => ?_⟩
  · rcases List.mem_cons.1 hm' with rfl | hm'
    · rw [hself, newTypes, List.length_map, List.length_range]
    · rw [hold m' hm']
      exact h.length m' hm'
  · rcases List.mem_cons.1 hm' with rfl | hm'
    · rw [hself] at ht
      obtain ⟨-, rfl⟩ := hget i t ht
      cases hquery : s.mangledTypeQueryModule tables others ((tables m').name i) with
      | none => rfl
      | some t => exact ((query_eq_some h hothers).1 hquery).choose_spec.2.2
    · rw [hold m' hm'] at ht
      exact h.name m' hm' i t ht
  · rcases List.mem_cons.1 hm' with rfl | hm'
    · rw [hself] at ht
      obtain ⟨i, hi, -, ⟨m₁, hm₁, hin⟩ | ⟨rfl, hno⟩⟩ := hentry t ht
      · obtain ⟨hmod, hown⟩ := h.own m₁ hm₁ t hin
        exact ⟨List.mem_cons_of_mem _ hmod, by rw [hold _ hmod]; exact hown⟩
      · refine ⟨List.mem_cons_self, ?_⟩
        rw [hself, newTypes, List.getElem?_map, List.getElem?_range hi]
        show some (Option.getD _ _) = _
        rw [(query_eq_none h hothers).2 hno]
        rfl
    · rw [hold m' hm'] at ht
      obtain ⟨hmod, hown⟩ := h.own m' hm' t ht
      exact ⟨List.mem_cons_of_mem _ hmod, by rw [hold _ hmod]; exact hown⟩
  · rcases List.mem_cons.1 h₁ with e₁ | hin₁ <;> rcases List.mem_cons.1 h₂ with e₂ | hin₂
    · rw [e₁, hself] at ht₁
      rw [e₂, hself] at ht₂
      obtain ⟨i, hi, hname, hcase⟩ := hentry t₁ ht₁
      obtain ⟨j, hj, hname', hcase'⟩ := hentry t₂ ht₂
      have hij : i = j := (tables m).name_inj hi hj (hname.symm.trans (hn.trans hname'))
      rcases hcase with ⟨m₁, hm₁, hin⟩ | ⟨hown, -⟩
      · exact (hshared _ ht₂ m₁ hm₁ t₁ hin hn.symm).symm
      · rcases hcase' with ⟨m₂, hm₂, hin'⟩ | ⟨hown', -⟩
        · exact hshared _ ht₁ m₂ hm₂ t₂ hin' hn
        · rw [hown, hown', hij]
    · rw [e₁, hself] at ht₁
      rw [hold m₂ hin₂] at ht₂
      exact hshared t₁ ht₁ m₂ hin₂ t₂ ht₂ hn
    · rw [e₂, hself] at ht₂
      rw [hold m₁ hin₁] at ht₁
      exact (hshared t₂ ht₂ m₁ hin₁ t₁ ht₁ hn.symm).symm
    · rw [hold m₁ hin₁] at ht₁
      rw [hold m₂ hin₂] at ht₂
      exact h.shared m₁ hin₁ t₁ ht₁ m₂ hin₂ t₂ ht₂ hn

/-- The state with the module in the ring is ready for the loops. -/
theorem Loaded.loading (h : Loaded tables modules P s)
    (hothers : ∀ m', m' ∈ others ↔ m' ∈ modules) (hm : m ∉ modules)
    (hring : ∀ m', m' ∈ s₁.ring ↔ m' = m ∨ m' ∈ modules) (htypes : s₁.types = s.types)
    (hlinks : s₁.links = s.links) (hcast : s₁.castType = s.castType) :
    Loading tables modules others m
        (Function.update s.types m (newTypes tables others m s₁)) s₁ ∧
      ∃ lists, Held tables (Function.update s.types m (newTypes tables others m s₁))
        (SeenUpTo tables modules m 0 0) (P ∧ KnownUpTo tables modules m 0 0) s₁ lists := by
  have harrays : Arrays tables modules s₁.types := by
    rw [htypes]
    exact h.arrays
  obtain ⟨lists, hheld⟩ := h.held
  have hmod : ∀ c, c ∈ casts tables modules → c.module ≠ m := fun c hc =>
    ne_of_mem_of_not_mem (mem_casts.1 hc).1 hm
  refine ⟨⟨harrays, hothers, hm, hring, ?_, fun m' hm' => ?_, fun i hi => ?_⟩, lists, ?_⟩
  · rw [← htypes]
    exact harrays.extend hothers hm
  · rw [htypes]
    exact Function.update_of_ne (ne_of_mem_of_not_mem hm' hm) _ _
  · rw [Function.update_self, newTypes, List.getElem?_map, List.getElem?_range hi]
    rfl
  · have hknown : KnownUpTo tables modules m 0 0 := fun c hc hseen =>
      absurd hc (hmod c ((seenUpTo_zero hm c).2 hseen))
    have hstart : Held tables s.types (fun c => c ∈ casts tables modules) P s₁ lists := by
      refine ⟨?_, fun {c} hc => ?_, hheld.owned, ?_, hheld.once, hheld.declared, ?_, ?_⟩
      · rw [hlinks]
        exact hheld.links
      · obtain ⟨hin, hrow⟩ := mem_casts.1 hc
        exact mem_casts.2 ⟨(hring _).2 (Or.inr hin), hrow⟩
      · rw [hcast]
        exact hheld.named
      · rw [hcast]
        exact hheld.fresh
      · rw [hcast]
        exact hheld.pointed
    have htypes' := hstart.types_congr fun c hc =>
      Function.update_of_ne (hmod c hc) (newTypes tables others m s₁) s.types
    exact htypes'.congr (seenUpTo_zero hm) (and_iff_left hknown).symm

/-- What the loops make of it. -/
theorem Loaded.insertTypes (h : Loaded tables modules P s)
    (hothers : ∀ m', m' ∈ others ↔ m' ∈ modules) (hm : m ∉ modules)
    (hring : ∀ m', m' ∈ s₁.ring ↔ m' = m ∨ m' ∈ modules) (htypes : s₁.types = s.types)
    (hlinks : s₁.links = s.links) (hcast : s₁.castType = s.castType) :
    Loaded tables (m :: modules) (P ∧ KnownUpTo tables modules m (tables m).size 0)
      ((List.range (tables m).size).foldl (fun s i => s.insertType tables others m i) s₁) := by
  obtain ⟨L, lists, hheld⟩ := h.loading hothers hm hring htypes hlinks hcast
  have hempty : s₁.types m = [] := by rw [htypes, h.unloaded m hm]
  obtain ⟨L', hdone, hkeep, lists', hheld'⟩ := L.insertTypes (le_refl _) hempty hheld
  have hall : (List.foldl (fun s i => s.insertType tables others m i) s₁
      (List.range (tables m).size)).types =
      Function.update s.types m (newTypes tables others m s₁) := by
    funext m'
    by_cases hm' : m' = m
    · subst hm'
      rw [hdone, ← L.after.length m' List.mem_cons_self, List.take_length]
    · rw [hkeep m' hm', htypes, Function.update_of_ne hm']
  refine ⟨fun m' => (L'.ring m').trans List.mem_cons.symm, ?_, fun m' hm' => ?_, lists', ?_⟩
  · rw [hall]
    exact L.after
  · rw [List.mem_cons, not_or] at hm'
    rw [hkeep m' hm'.1, htypes]
    exact h.unloaded m' hm'.2
  · rw [hall]
    exact hheld'.congr seenUpTo_size Iff.rfl

/-- `SWIG_InitializeModule`. -/
theorem Loaded.initializeModule (h : Loaded tables modules P s) (m : M) :
    Loaded tables (m :: modules)
      (P ∧ (m ∉ modules → KnownUpTo tables modules m (tables m).size 0))
      (s.initializeModule tables m) := by
  unfold Interpreter.initializeModule
  by_cases hin : m ∈ s.ring
  · rw [if_pos hin]
    have hm := (h.ring m).1 hin
    refine h.congr (fun m' => ?_) (and_iff_left fun hno => absurd hm hno).symm
    rw [List.mem_cons]
    exact ⟨Or.inr, fun hor => hor.elim (fun e => e ▸ hm) id⟩
  · rw [if_neg hin]
    have hm : m ∉ modules := fun hm => hin ((h.ring m).2 hm)
    have hP : (P ∧ KnownUpTo tables modules m (tables m).size 0) ↔
        (P ∧ (m ∉ modules → KnownUpTo tables modules m (tables m).size 0)) :=
      and_congr_right fun _ => (imp_iff_right hm).symm
    have hring := h.ring
    cases hs : s.ring with
    | nil =>
        rw [hs] at hring
        have htypes : ({ s with ring := [m] } : Interpreter M D).types = s.types := rfl
        refine (h.insertTypes (fun m' => hring m') hm (fun m' => ?_) htypes rfl rfl).congr
          (fun _ => Iff.rfl) hP
        rw [List.mem_singleton, ← hring m']
        simp
    | cons head rest =>
        rw [hs] at hring
        have htypes : ({ s with ring := head :: m :: rest } : Interpreter M D).types = s.types :=
          rfl
        refine (h.insertTypes (fun m' => ?_) hm (fun m' => ?_) htypes rfl rfl).congr
          (fun _ => Iff.rfl) hP
        · rw [← hring m', List.mem_append, List.mem_singleton, List.mem_cons]
          tauto
        · rw [← hring m', List.mem_cons, List.mem_cons, List.mem_cons]
          tauto

end Load

/-! ## The shared types -/

section Types

variable {modules : List M} {s : Interpreter M D} {P : Prop}

omit [DecidableEq M] in
/-- The structure that a cast of the module should point to. -/
theorem Arrays.source {types : M → List (TypeInfo M)} (h : Arrays tables modules types)
    {c : CastInfo M} (hc : c ∈ casts tables modules) :
    ∃ t, (types c.module)[castSource tables c]? = some t ∧ t ∈ types c.module ∧
      nameOf tables t = sourceName tables c :=
  h.get (mem_casts.1 hc).1 (castSource_mem hc).2

omit [DecidableEq M] in
/-- A pointer to a structure of the arrays is the shared one. -/
theorem Arrays.source_iff {types : M → List (TypeInfo M)} (h : Arrays tables modules types)
    {c : CastInfo M} (hc : c ∈ casts tables modules) {t : TypeInfo M}
    (hname : nameOf tables t = sourceName tables c) :
    (types c.module)[castSource tables c]? = some t ↔ ∃ m ∈ modules, t ∈ types m := by
  have hmod := (mem_casts.1 hc).1
  constructor
  · intro hget
    exact ⟨c.module, hmod, List.mem_of_getElem? hget⟩
  · intro ⟨m, hm, ht⟩
    obtain ⟨t', hget, hin, hname'⟩ := h.source hc
    rw [hget]
    exact congrArg some (h.shared c.module hmod t' hin m hm t ht (hname'.trans hname.symm))

theorem Loaded.typeCheck_agree (h : Loaded tables modules P s)
    {lists : TypeInfo M → List (CastInfo M)}
    (hheld : Held tables s.types (fun c => c ∈ casts tables modules) P s lists)
    (hpointed : ∀ t, ∀ c ∈ lists t,
      (s.types c.module)[castSource tables c]? = some (s.castType c))
    {m : M} (hm : m ∈ modules) {source : TypeInfo M} (hsource : source ∈ s.types m)
    (t : TypeInfo M) :
    (s.typeCheck tables (nameOf tables source) t).1.isSome =
      (s.typeCheckStruct tables source t).1.isSome := by
  have hfind := (hheld.typeCheckBy
    (fun iterType => decide (nameOf tables iterType = nameOf tables source)) t).1
  have hfind' := (hheld.typeCheckBy (fun iterType => decide (iterType = source)) t).1
  -- Within the list the two tests are the same.
  have htest : ∀ c ∈ lists t,
      decide (nameOf tables (s.castType c) = nameOf tables source) =
        decide (s.castType c = source) := by
    intro c hc
    have hcast := (hheld.owned hc).1
    obtain ⟨m', hm', hin⟩ :=
      (h.arrays.source_iff hcast (hheld.named hc)).1 (hpointed t c hc)
    refine decide_eq_decide.2 ⟨fun hn => ?_, fun e => by rw [e]⟩
    exact h.arrays.shared m' hm' _ hin m hm source hsource hn
  unfold Interpreter.typeCheck Interpreter.typeCheckStruct
  rw [hfind, hfind', Bool.eq_iff_iff, List.find?_isSome, List.find?_isSome]
  exact exists_congr fun c => and_congr_right fun hc => by rw [htest c hc]

/-- The types are right exactly when the pointers are. -/
theorem Loaded.typesRight_iff (h : Loaded tables modules P s) :
    TypesRight tables modules s ↔ P := by
  obtain ⟨lists, hheld⟩ := h.held
  have hcastList : ∀ t, CastList s t (lists t) := fun t =>
    ⟨hheld.links.head t, hheld.links.chain t⟩
  constructor
  · intro hright
    refine hheld.pointed.1 fun t c hc => ?_
    obtain ⟨hcast, hget⟩ := hheld.owned hc
    obtain ⟨l, hl, -, hin⟩ := hright.cast c.module (mem_casts.1 hcast).1 t
      (List.mem_of_getElem? hget)
    obtain rfl : l = lists t := Chained.prefix_of_head hl.2 (hcastList t).2
      (hl.1.symm.trans (hcastList t).1)
    exact (h.arrays.source_iff hcast (hheld.named hc)).2 (hin c hc)
  · intro hP
    have hpointed := hheld.pointed.2 hP
    refine ⟨fun m hm => ?_, h.arrays.shared, fun m hm t ht => ?_, fun m hm i hi j hj => ?_,
      fun m hm t ht m' hm' source hsource => ?_⟩
    · refine List.ext_getElem? fun i => ?_
      rw [List.getElem?_map, List.getElem?_map]
      by_cases hi : i < (tables m).size
      · obtain ⟨t, hget, -, hname⟩ := h.arrays.get hm hi
        rw [hget, List.getElem?_range hi]
        exact congrArg some hname
      · rw [List.getElem?_eq_none (by rw [h.arrays.length m hm]; omega),
          List.getElem?_eq_none (by rw [List.length_range]; omega)]
        rfl
    · refine ⟨lists t, hcastList t, ?_, fun c hc => ?_⟩
      · refine List.Nodup.map_on (fun c hc c' hc' hn => ?_) (hheld.links.chain t).nodup
        rw [hheld.named hc, hheld.named hc'] at hn
        exact hheld.once hc hc' hn
      · exact (h.arrays.source_iff (hheld.owned hc).1 (hheld.named hc)).1 (hpointed t c hc)
    · obtain ⟨k, hk, hkj⟩ := List.mem_iff_getElem.1 hj
      have hcast : (⟨m, i, k⟩ : CastInfo M) ∈ casts tables modules := mem_casts.2 ⟨hm, hi, hk⟩
      obtain ⟨t, hget, c, hc, hn⟩ := hheld.declared hcast
      refine ⟨t, lists t, hget, hcastList t, c, hc, ?_⟩
      rw [hheld.named hc, hn, ← hkj]
      exact congrArg _ (List.getD_eq_getElem _ _ hk)
    · exact h.typeCheck_agree hheld hpointed hm' hsource t

end Types

/-! ## Runs -/

omit [DecidableEq M] in
theorem knownUpTo_size_iff {modules : List M} {m : M} :
    KnownUpTo tables modules m (tables m).size 0 ↔
      ∀ i < (tables m).size, ∀ j ∈ (tables m).castInitial i,
        Lists tables modules ((tables m).name i) → Lists tables modules ((tables m).name j) →
        Declares tables modules ((tables m).name j) ((tables m).name i) := by
  constructor
  · intro h i hi j hj
    obtain ⟨k, hk, rfl⟩ := List.mem_iff_getElem.1 hj
    have hcast : (⟨m, i, k⟩ : CastInfo M) ∈ casts tables (m :: modules) :=
      mem_casts.2 ⟨List.mem_cons_self, hi, hk⟩
    have hknown := h ⟨m, i, k⟩ rfl ((seenUpTo_size _).2 hcast)
    have hsource : sourceName tables (⟨m, i, k⟩ : CastInfo M) =
        (tables m).name ((tables m).castInitial i)[k] :=
      congrArg _ (List.getD_eq_getElem _ _ hk)
    rw [Known, hsource] at hknown
    exact hknown
  · intro h c hm hseen
    subst hm
    have hcast := (seenUpTo_size c).1 hseen
    exact h c.row (mem_casts.1 hcast).2.1 _ (castSource_mem hcast).1

omit [DecidableEq M] [LinearOrder Name] in
theorem loaded_append (events events' : List (Event M Name)) :
    loaded (events ++ events') = loaded events ++ loaded events' := List.filterMap_append ..

omit [DecidableEq M] in
/-- A run is extended by one event. -/
theorem linksKnown_append (events : List (Event M Name)) (e : Event M Name) :
    LinksKnown tables (events ++ [e]) ↔ LinksKnown tables events ∧
      ∀ m, e = Event.load m → m ∉ loaded events →
        KnownUpTo tables (loaded events) m (tables m).size 0 := by
  constructor
  · intro h
    refine ⟨fun before m after hevents => ?_, fun m he hm => ?_⟩
    · refine h before m (after ++ [e]) ?_
      rw [hevents, List.append_assoc, List.cons_append]
    · exact knownUpTo_size_iff.2 (h events m [] (by rw [he]) hm)
  · intro ⟨h, hlast⟩ before m after hevents hm
    rcases List.eq_nil_or_concat after with rfl | ⟨after', e', rfl⟩
    · obtain ⟨rfl, he⟩ := List.append_inj' hevents rfl
      exact knownUpTo_size_iff.1 (hlast m (List.cons.inj he).1 hm)
    · refine h before m after' ?_ hm
      rw [List.concat_eq_append, ← List.cons_append, ← List.append_assoc] at hevents
      exact (List.append_inj' hevents rfl).1

/-- What holds in the states of a run. -/
theorem loaded_run (events : List (Event M Name)) :
    Loaded tables (loaded events) (LinksKnown tables events)
      (Interpreter.run tables events) := by
  induction events using List.reverseRecOn with
  | nil =>
      have hknown : LinksKnown tables ([] : List (Event M Name)) := by
        intro before m after hevents
        simp at hevents
      refine ⟨fun m => Iff.rfl, ⟨nofun, nofun, nofun, nofun⟩, fun _ _ => rfl, fun _ => [],
        Represents.empty, fun hc => absurd hc List.not_mem_nil, nofun, nofun, nofun,
        fun hc => absurd hc List.not_mem_nil, fun _ => rfl, iff_of_true nofun hknown⟩
  | append_singleton events e ih =>
      have hrun : Interpreter.run tables (events ++ [e]) =
          (Interpreter.run tables events).event tables e := by
        rw [Interpreter.run, List.foldl_append]
        rfl
      -- A look up loads nothing.
      have hcheck : ∀ (test : TypeInfo M → Bool) (ty : TypeInfo M),
          (∀ m, e ≠ Event.load m) → loaded [e] = [] →
          Loaded tables (loaded (events ++ [e])) (LinksKnown tables (events ++ [e]))
            ((Interpreter.run tables events).typeCheckBy tables test ty).2 := by
        intro test ty he hnone
        obtain ⟨lists, hheld⟩ := ih.held
        obtain ⟨-, lists', hheld', -⟩ := hheld.typeCheckBy test ty
        have hstate : Loaded tables (loaded events) (LinksKnown tables events)
            ((Interpreter.run tables events).typeCheckBy tables test ty).2 :=
          ⟨ih.ring, ih.arrays, ih.unloaded, lists', hheld'⟩
        refine hstate.congr (fun m => ?_) ?_
        · rw [loaded_append, hnone, List.append_nil]
        · rw [linksKnown_append]
          exact (and_iff_left fun m hm => absurd hm (he m)).symm
      rw [hrun]
      cases e with
      | load m =>
          refine (ih.initializeModule m).congr (fun m' => ?_) ?_
          · rw [loaded_append, List.mem_append, List.mem_cons]
            exact Or.comm.trans (or_congr_right List.mem_singleton.symm)
          · rw [linksKnown_append]
            refine and_congr_right fun _ => ⟨fun h m' he hm' => ?_, fun h => h m rfl⟩
            obtain rfl := (Event.load.inj he)
            exact h hm'
      | typeCheck c ty => exact hcheck _ ty (fun _ => nofun) rfl
      | typeCheckStruct source ty => exact hcheck _ ty (fun _ => nofun) rfl

/-- After any events the types are right if and only if no module that was loaded had a new
conversion between two types that were both known. -/
theorem modulesRight_iff (events : List (Event M Name)) :
    ModulesRight tables events ↔ LinksKnown tables events :=
  (loaded_run events).typesRight_iff

/-- Three modules: one with the type `T`, one with the type `S`, and one that makes `T` out
of `S`. -/
def threeTables : Nat → TypeTable (List Char) Unit
  | 0 => ⟨1, fun _ => ['T'], fun _ => none, fun _ => [0], fun _ _ _ _ => by omega,
      fun _ _ => by simp, fun _ _ => by simp⟩
  | 1 => ⟨1, fun _ => ['S'], fun _ => none, fun _ => [0], fun _ _ _ _ => by omega,
      fun _ _ => by simp, fun _ _ => by simp⟩
  | _ => ⟨2, fun i => if i = 0 then ['S'] else ['T'], fun _ => none,
      fun i => if i = 0 then [0] else [1, 0],
      fun i j hij hj => by
        obtain ⟨rfl, rfl⟩ : i = 0 ∧ j = 1 := by omega
        decide,
      fun i hi j hj => by
        split at hj <;> simp at hj <;> omega,
      fun i hi => by split <;> simp⟩

/-- The cast is found by the name `S`, but not by the structure that the modules share. -/
theorem newConversion_not_right :
    ¬ ModulesRight threeTables [Event.load 0, Event.load 1, Event.load 2] := by
  intro h
  have hT : (⟨0, 0⟩ : TypeInfo Nat) ∈ (Interpreter.run threeTables
      [Event.load 0, Event.load 1, Event.load 2]).types 0 := by decide
  have hS : (⟨1, 0⟩ : TypeInfo Nat) ∈ (Interpreter.run threeTables
      [Event.load 0, Event.load 1, Event.load 2]).types 1 := by decide
  have hagree := h.agree 0 (by decide) _ hT 1 (by decide) _ hS
  exact absurd hagree (by decide)

end Swig4Ada.Runtime

import Swig4Ada.Swig.NameInherit

/-!
# What a derived class inherits, and when a second call adds nothing

An entry that was there is changed while the table is gone through, so that a later turn can
find it changed; one that was not is put in behind the loop, so that a later call can find it.
Either counts only where the name for the derived class is again one of the base class.
-/

namespace Swig4Ada.Swig

open Doh

variable {V : Type} {order : IterOrder V} {b d : List Char} {table : HashTable (HashTable V)}

/-! ## The names -/

theorem derivedKey_behind {key : List Char} : d <+: derivedKey b d key := List.prefix_append _ _

theorem derivedKey_back {key : List Char} (h : b <+: key) :
    derivedKey d b (derivedKey b d key) = key := by
  obtain ⟨rest, rfl⟩ := h
  rw [derivedKey, derivedKey, List.drop_left, List.drop_left]

/-! ## One hash of declarators -/

/-- The declarators of a name; there are none where the table has no entry. -/
def entry (table : HashTable (HashTable V)) (key : List Char) : HashTable V :=
  (table.lookup key).getD ∅

theorem entry_some {key : List Char} {n : HashTable V} (h : table.lookup key = some n) :
    entry table key = n := by
  rw [entry, h]
  rfl

theorem entry_none {key : List Char} (h : table.lookup key = none) : entry table key = ∅ := by
  rw [entry, h]
  rfl

theorem lookup_copyMissing (n : HashTable V) (keys : List (List Char)) (newh : HashTable V)
    (j : List Char) : (copyMissing n keys newh).lookup j =
      match newh.lookup j with
      | some v => some v
      | none => if j ∈ keys then n.lookup j else none := by
  induction keys generalizing newh with
  | nil =>
      rw [copyMissing, List.foldl_nil]
      cases newh.lookup j <;> rfl
  | cons key keys ih =>
      have hfold : copyMissing n (key :: keys) newh =
          copyMissing n keys (copyMissing n [key] newh) := by
        rw [copyMissing, List.foldl_cons]
        rfl
      have hsame : ∀ {t : HashTable V} {x : Option V}, n.lookup key = x → t = newh →
          (key = j → newh.lookup j = none → x = none) →
          (match t.lookup j with
            | some v => some v
            | none => if j ∈ keys then n.lookup j else none) =
          match newh.lookup j with
            | some v => some v
            | none => if j ∈ key :: keys then n.lookup j else none := by
        rintro t x hx rfl hnone
        cases hj : t.lookup j with
        | some v => rfl
        | none =>
            by_cases he : key = j
            · have hn : n.lookup j = none := by rw [← he, hx, hnone he hj]
              simp only [hn, ite_self]
            · have hin : j ∈ key :: keys ↔ j ∈ keys :=
                ⟨fun hm => (List.mem_cons.1 hm).resolve_left (Ne.symm he), List.mem_cons_of_mem _⟩
              simp only [hin]
      rw [hfold, ih]
      rw [copyMissing, List.foldl_cons, List.foldl_nil]
      cases hn : n.lookup key with
      | none => exact hsame hn rfl fun _ _ => rfl
      | some item =>
          cases hk : newh.lookup key with
          | some v => exact hsame hn rfl fun he hj => by rw [← he, hk] at hj; cases hj
          | none =>
              dsimp only
              by_cases he : j = key
              · rw [he, Finmap.lookup_insert, hk]
                simp only [List.mem_cons_self, if_true, hn]
              · rw [Finmap.lookup_insert_of_ne _ he]
                have hin : j ∈ key :: keys ↔ j ∈ keys :=
                  ⟨fun hm => (List.mem_cons.1 hm).resolve_left he, List.mem_cons_of_mem _⟩
                simp only [hin]

theorem copyMissing_eq {n newh : HashTable V} {keys : List (List Char)}
    (h : ∀ k, k ∈ keys ↔ k ∈ n) : copyMissing n keys newh = newh ∪ n := by
  refine Finmap.ext_lookup fun j => ?_
  rw [lookup_copyMissing]
  cases hj : newh.lookup j with
  | some v =>
      rw [Finmap.lookup_union_left (Finmap.mem_iff.2 ⟨v, hj⟩), hj]
  | none =>
      rw [Finmap.lookup_union_right (Finmap.lookup_eq_none.1 hj)]
      by_cases hin : j ∈ keys
      · simp only [if_pos hin]
      · simp only [if_neg hin]
        exact (Finmap.lookup_eq_none.2 fun hm => hin ((h j).2 hm)).symm

/-- Declarators that are there already add nothing. -/
theorem union_absorb {s t u : HashTable V} (h : ∀ k ∈ u, k ∈ s ∨ k ∈ t) :
    s ∪ (t ∪ u) = s ∪ t := by
  refine Finmap.ext_lookup fun k => ?_
  by_cases hs : k ∈ s
  · rw [Finmap.lookup_union_left hs, Finmap.lookup_union_left hs]
  · rw [Finmap.lookup_union_right hs, Finmap.lookup_union_right hs]
    by_cases ht : k ∈ t
    · rw [Finmap.lookup_union_left ht]
    · have hu : k ∉ u := fun hm => (h k hm).elim hs ht
      rw [Finmap.lookup_union_right ht, Finmap.lookup_eq_none.2 hu, Finmap.lookup_eq_none.2 ht]

theorem union_covered {s t : HashTable V} (h : ∀ k ∈ t, k ∈ s) : s ∪ t = s := by
  have habsorb := @union_absorb V s ∅ t fun k hk => Or.inl (h k hk)
  rwa [Finmap.empty_union, Finmap.union_empty] at habsorb

/-! ## One turn -/

theorem inheritTurn_other {state : HashTable (HashTable V) × HashTable (HashTable V)}
    {key : List Char} (h : ¬ b <+: key) : inheritTurn order b d state key = state := by
  rw [inheritTurn, if_neg fun hp => h (List.isPrefixOf_iff_prefix.1 hp)]

theorem inheritTurn_there {namehash derh : HashTable (HashTable V)} {key : List Char}
    {n newh : HashTable V} (h : b <+: key) (hn : namehash.lookup key = some n)
    (hnewh : namehash.lookup (derivedKey b d key) = some newh) :
    inheritTurn order b d (namehash, derh) key =
      (namehash.insert (derivedKey b d key) (newh ∪ n), derh) := by
  rw [inheritTurn, if_pos (List.isPrefixOf_iff_prefix.2 h)]
  simp only [hn, hnewh, copyMissing_eq fun _ => (order.decls _).mem]

theorem inheritTurn_new {namehash derh : HashTable (HashTable V)} {key : List Char}
    {n : HashTable V} (h : b <+: key) (hn : namehash.lookup key = some n)
    (hnewh : namehash.lookup (derivedKey b d key) = none) :
    inheritTurn order b d (namehash, derh) key =
      (namehash, derh.insert (derivedKey b d key) n) := by
  rw [inheritTurn, if_pos (List.isPrefixOf_iff_prefix.2 h)]
  simp only [hn, hnewh, copyMissing_eq fun _ => (order.decls _).mem, Finmap.empty_union]

theorem entry_insert_self (key : List Char) (n : HashTable V) :
    entry (table.insert key n) key = n := entry_some (Finmap.lookup_insert table)

theorem entry_insert_other {key other : List Char} (n : HashTable V) (h : other ≠ key) :
    entry (table.insert key n) other = entry table other := by
  rw [entry, Finmap.lookup_insert_of_ne _ h]
  rfl

theorem entry_of_mem {key : List Char} (h : key ∈ table) :
    table.lookup key = some (entry table key) := by
  obtain ⟨n, hn⟩ := Finmap.mem_iff.1 h
  rw [hn, entry_some hn]

/-! ## What every call does at least -/

/-- What holds when some of the names have been returned. -/
structure Enlarged (b d : List Char) (table : HashTable (HashTable V)) (returned : List (List Char))
    (state : HashTable (HashTable V) × HashTable (HashTable V)) : Prop where
  keys : ∀ key, key ∈ state.1 ↔ key ∈ table
  grows : ∀ key, ∀ decl ∈ entry table key, decl ∈ entry state.1 key
  covered : ∀ k ∈ returned, b <+: k → derivedKey b d k ∈ table →
    ∀ decl ∈ entry table k, decl ∈ entry state.1 (derivedKey b d k)
  collected : ∀ k ∈ returned, b <+: k → derivedKey b d k ∉ table → derivedKey b d k ∈ state.2
  apart : ∀ key ∈ state.2, key ∉ table

theorem enlarged_turn {returned : List (List Char)} {key : List Char}
    {state : HashTable (HashTable V) × HashTable (HashTable V)}
    (h : Enlarged b d table returned state) (hkey : key ∈ table) :
    Enlarged b d table (returned ++ [key]) (inheritTurn order b d state key) := by
  obtain ⟨namehash, derh⟩ := state
  by_cases hp : b <+: key
  · have hn : namehash.lookup key = some (entry namehash key) := entry_of_mem ((h.keys key).2 hkey)
    cases hnewh : namehash.lookup (derivedKey b d key) with
    | some newh =>
        have hthere : derivedKey b d key ∈ namehash := Finmap.mem_iff.2 ⟨_, hnewh⟩
        have hgrows : ∀ k, ∀ decl ∈ entry namehash k, decl ∈ entry
            (namehash.insert (derivedKey b d key) (newh ∪ entry namehash key)) k := by
          intro k decl hdecl
          by_cases he : k = derivedKey b d key
          · rw [he, entry_insert_self]
            rw [he, entry_some hnewh] at hdecl
            exact Finmap.mem_union.2 (Or.inl hdecl)
          · rwa [entry_insert_other _ he]
        rw [inheritTurn_there hp hn hnewh]
        refine ⟨fun k => ?_, fun k decl hdecl => hgrows k decl (h.grows k decl hdecl),
          fun k hk hb htable decl hdecl => ?_, fun k hk hb htable => ?_, h.apart⟩
        · rw [Finmap.mem_insert, ← h.keys]
          exact or_iff_right_of_imp fun he => he ▸ hthere
        · rcases List.mem_append.1 hk with hk | hk
          · exact hgrows _ decl (h.covered k hk hb htable decl hdecl)
          · obtain rfl := List.mem_singleton.1 hk
            rw [entry_insert_self]
            exact Finmap.mem_union.2 (Or.inr (h.grows k decl hdecl))
        · rcases List.mem_append.1 hk with hk | hk
          · exact h.collected k hk hb htable
          · obtain rfl := List.mem_singleton.1 hk
            exact absurd ((h.keys _).1 hthere) htable
    | none =>
        have hnot : derivedKey b d key ∉ table :=
          fun hm => Finmap.lookup_eq_none.1 hnewh ((h.keys _).2 hm)
        rw [inheritTurn_new hp hn hnewh]
        refine ⟨h.keys, h.grows, fun k hk hb htable => ?_, fun k hk hb htable => ?_,
          fun k hk => ?_⟩
        · rcases List.mem_append.1 hk with hk | hk
          · exact h.covered k hk hb htable
          · obtain rfl := List.mem_singleton.1 hk
            exact absurd htable hnot
        · rcases List.mem_append.1 hk with hk | hk
          · exact Finmap.mem_insert.2 (Or.inr (h.collected k hk hb htable))
          · obtain rfl := List.mem_singleton.1 hk
            exact Finmap.mem_insert.2 (Or.inl rfl)
        · rcases Finmap.mem_insert.1 hk with rfl | hk
          · exact hnot
          · exact h.apart k hk
  · rw [inheritTurn_other hp]
    refine ⟨h.keys, h.grows, fun k hk hb => ?_, fun k hk hb => ?_, h.apart⟩
    · rcases List.mem_append.1 hk with hk | hk
      · exact h.covered k hk hb
      · exact absurd (List.mem_singleton.1 hk ▸ hb) hp
    · rcases List.mem_append.1 hk with hk | hk
      · exact h.collected k hk hb
      · exact absurd (List.mem_singleton.1 hk ▸ hb) hp

theorem enlarged_run {keys returned : List (List Char)}
    {state : HashTable (HashTable V) × HashTable (HashTable V)}
    (h : Enlarged b d table returned state) (hkeys : ∀ k ∈ keys, k ∈ table) :
    Enlarged b d table (returned ++ keys) (keys.foldl (inheritTurn order b d) state) := by
  induction keys generalizing returned state with
  | nil =>
      rw [List.append_nil]
      exact h
  | cons key keys ih =>
      rw [List.append_cons, List.foldl_cons]
      exact ih (enlarged_turn h (hkeys key List.mem_cons_self))
        fun k hk => hkeys k (List.mem_cons_of_mem _ hk)

/-! ## When a call changes nothing -/

/-- Every entry of the base class is one of the derived class too. -/
def Closed (b d : List Char) (table : HashTable (HashTable V)) : Prop :=
  ∀ k ∈ table, b <+: k → derivedKey b d k ∈ table ∧
    ∀ decl ∈ entry table k, decl ∈ entry table (derivedKey b d k)

/-- The call, for the two prefixes. -/
def inheritAll (order : IterOrder V) (b d : List Char) (table : HashTable (HashTable V)) :
    HashTable (HashTable V) :=
  let state := (order.names.keys table).foldl (inheritTurn order b d) (table, ∅)
  setAll (order.names.keys state.2) state.2 state.1

theorem lookup_inheritAll (key : List Char) : (inheritAll order b d table).lookup key =
    (((order.names.keys table).foldl (inheritTurn order b d) (table, ∅)).2.lookup key).or
      (((order.names.keys table).foldl (inheritTurn order b d) (table, ∅)).1.lookup key) := by
  rw [inheritAll, lookup_setAll fun _ => order.names.mem]

theorem closed_of_unchanged (h : inheritAll order b d table = table) : Closed b d table := by
  intro k hk hb
  have hstart : Enlarged b d table [] (table, ∅) :=
    ⟨fun _ => Iff.rfl, fun _ _ hd => hd, fun _ hr => (nomatch hr), fun _ hr => (nomatch hr),
      fun _ hin => absurd hin (Finmap.notMem_empty)⟩
  have hrun := @enlarged_run V order b d table (order.names.keys table) [] _ hstart
    fun _ hm => order.names.mem.1 hm
  obtain ⟨state, hstate⟩ :
      ∃ s, (order.names.keys table).foldl (inheritTurn order b d) (table, ∅) = s := ⟨_, rfl⟩
  have hlookup := @lookup_inheritAll V order b d table (derivedKey b d k)
  rw [hstate] at hrun hlookup
  rw [h] at hlookup
  have hreturned : k ∈ [] ++ order.names.keys table := order.names.mem.2 hk
  have hthere : derivedKey b d k ∈ table := by
    by_contra hnot
    obtain ⟨item, hitem⟩ := Finmap.mem_iff.1 (hrun.collected k hreturned hb hnot)
    rw [hitem, Option.some_or] at hlookup
    exact hnot (Finmap.mem_iff.2 ⟨item, hlookup⟩)
  have hnone : state.2.lookup (derivedKey b d k) = none :=
    Finmap.lookup_eq_none.2 fun hm => hrun.apart _ hm hthere
  have hsame : table.lookup (derivedKey b d k) = state.1.lookup (derivedKey b d k) := by
    rwa [hnone, Option.none_or] at hlookup
  refine ⟨hthere, fun decl hdecl => ?_⟩
  have hcovered := hrun.covered k hreturned hb hthere decl hdecl
  rwa [entry, ← hsame] at hcovered

theorem unchanged_of_closed (h : Closed b d table) (order : IterOrder V) :
    inheritAll order b d table = table := by
  have hturn : ∀ k ∈ order.names.keys table, inheritTurn order b d (table, ∅) k = (table, ∅) := by
    intro k hk
    have hmem : k ∈ table := order.names.mem.1 hk
    by_cases hp : b <+: k
    · obtain ⟨hthere, hdecls⟩ := h k hmem hp
      rw [inheritTurn_there hp (entry_of_mem hmem) (entry_of_mem hthere), union_covered hdecls,
        insert_lookup (entry_of_mem hthere)]
    · exact inheritTurn_other hp
  have hfixed : ∀ keys : List (List Char), (∀ k ∈ keys, k ∈ order.names.keys table) →
      keys.foldl (inheritTurn order b d) (table, ∅) = (table, ∅) := by
    intro keys
    induction keys with
    | nil => exact fun _ => rfl
    | cons k keys ih =>
        intro hkeys
        rw [List.foldl_cons, hturn k (hkeys k List.mem_cons_self)]
        exact ih fun k' hk' => hkeys k' (List.mem_cons_of_mem _ hk')
  refine Finmap.ext_lookup fun key => ?_
  rw [lookup_inheritAll, hfixed _ fun _ hk => hk]
  dsimp only
  rw [Finmap.lookup_empty, Option.none_or]

/-! ## What a call should do -/

/-- An entry for a member of the derived class has what it had, and for other declarators what
the entry of the base class has; every other entry is what it was. -/
def inheritedEntry (b d : List Char) (table : HashTable (HashTable V)) (key : List Char) :
    Option (HashTable V) :=
  if d.isPrefixOf key then
    match table.lookup (derivedKey d b key) with
    | some n => some (entry table key ∪ n)
    | none => table.lookup key
  else table.lookup key

theorem inheritedEntry_derived {k : List Char} (hk : k ∈ table) (hb : b <+: k) :
    inheritedEntry b d table (derivedKey b d k) =
      some (entry table (derivedKey b d k) ∪ entry table k) := by
  rw [inheritedEntry, if_pos (List.isPrefixOf_iff_prefix.2 derivedKey_behind), derivedKey_back hb,
    entry_of_mem hk]

theorem inheritedEntry_other {key : List Char}
    (h : ∀ k ∈ table, b <+: k → key ≠ derivedKey b d k) :
    inheritedEntry b d table key = table.lookup key := by
  rw [inheritedEntry]
  by_cases hd : d <+: key
  · rw [if_pos (List.isPrefixOf_iff_prefix.2 hd)]
    cases hn : table.lookup (derivedKey d b key) with
    | none => rfl
    | some n =>
        exact absurd (derivedKey_back hd).symm
          (h _ (Finmap.mem_iff.2 ⟨n, hn⟩) derivedKey_behind)
  · rw [if_neg fun hp => hd (List.isPrefixOf_iff_prefix.1 hp)]

/-- Where the name of a base entry for the derived class is one of the base class again, there
is an entry for it or for the next name, and these two have the declarators of the first. -/
def Settles (b d : List Char) (table : HashTable (HashTable V)) : Prop :=
  ∀ k ∈ table, b <+: k → b <+: derivedKey b d k →
    (derivedKey b d k ∈ table ∨ derivedKey b d (derivedKey b d k) ∈ table) ∧
    ∀ decl ∈ entry table k, decl ∈ entry table (derivedKey b d k) ∨
      decl ∈ entry table (derivedKey b d (derivedKey b d k))

/-! ## The first call -/

/-- What the two hashes are when some of the names have been returned. -/
structure Inherited (b d : List Char) (table : HashTable (HashTable V))
    (returned : List (List Char)) (state : HashTable (HashTable V) × HashTable (HashTable V)) :
    Prop where
  changed : ∀ k ∈ returned, b <+: k → derivedKey b d k ∈ table →
    state.1.lookup (derivedKey b d k) = some (entry table (derivedKey b d k) ∪ entry table k)
  kept : ∀ key, (∀ k ∈ returned, b <+: k → derivedKey b d k ∈ table → key ≠ derivedKey b d k) →
    state.1.lookup key = table.lookup key
  collected : ∀ k ∈ returned, b <+: k → derivedKey b d k ∉ table →
    state.2.lookup (derivedKey b d k) = some (entry table k)
  apart : ∀ key, (∀ k ∈ returned, b <+: k → derivedKey b d k ∉ table → key ≠ derivedKey b d k) →
    state.2.lookup key = none

/-- What a turn finds for a name is as good as the entry of the table. -/
theorem found_entry (hsettles : Settles b d table) {returned : List (List Char)} {key : List Char}
    {state : HashTable (HashTable V) × HashTable (HashTable V)}
    (h : Inherited b d table returned state) (hreturned : ∀ k ∈ returned, k ∈ table)
    (hkey : key ∈ table) (hp : b <+: key) : ∃ n, state.1.lookup key = some n ∧
      entry table (derivedKey b d key) ∪ n =
        entry table (derivedKey b d key) ∪ entry table key := by
  by_cases hchanged : ∃ k ∈ returned, b <+: k ∧ derivedKey b d k ∈ table ∧ key = derivedKey b d k
  · obtain ⟨k, hk, hb, hthere, rfl⟩ := hchanged
    refine ⟨_, h.changed k hk hb hthere, union_absorb fun decl hdecl => ?_⟩
    exact ((hsettles k (hreturned k hk) hb hp).2 decl hdecl).symm
  · refine ⟨entry table key, ?_, rfl⟩
    rw [h.kept key fun k hk hb hthere he => hchanged ⟨k, hk, hb, hthere, he⟩, entry_of_mem hkey]

theorem derivedKey_inj {k k' : List Char} (h : b <+: k) (h' : b <+: k')
    (he : derivedKey b d k = derivedKey b d k') : k = k' := by
  rw [← @derivedKey_back b d k h, ← @derivedKey_back b d k' h', he]

theorem inherited_turn (hsettles : Settles b d table) {returned : List (List Char)}
    {key : List Char} {state : HashTable (HashTable V) × HashTable (HashTable V)}
    (h : Inherited b d table returned state) (hreturned : ∀ k ∈ returned, k ∈ table)
    (hkey : key ∈ table) (hnew : key ∉ returned) :
    Inherited b d table (returned ++ [key]) (inheritTurn order b d state key) := by
  by_cases hp : b <+: key
  · obtain ⟨n, hn, hsame⟩ := found_entry hsettles h hreturned hkey hp
    have hfresh : ∀ k ∈ returned, b <+: k → derivedKey b d key ≠ derivedKey b d k :=
      fun k hk hb he => hnew (derivedKey_inj hp hb he ▸ hk)
    have hold : state.1.lookup (derivedKey b d key) = table.lookup (derivedKey b d key) :=
      h.kept _ fun k hk hb _ => hfresh k hk hb
    obtain ⟨namehash, derh⟩ := state
    cases hnewh : table.lookup (derivedKey b d key) with
    | some newh =>
        have hthere : derivedKey b d key ∈ table := Finmap.mem_iff.2 ⟨_, hnewh⟩
        rw [inheritTurn_there hp hn (hold.trans hnewh)]
        rw [entry_some hnewh] at hsame
        refine ⟨fun k hk hb htable => ?_, fun k hk => ?_, fun k hk hb htable => ?_,
          fun k hk => h.apart k fun k' hk' => hk k' (List.mem_append_left _ hk')⟩
        · rcases List.mem_append.1 hk with hk | hk
          · show Finmap.lookup _ (Finmap.insert _ _ _) = _
            rw [Finmap.lookup_insert_of_ne _ (hfresh k hk hb).symm]
            exact h.changed k hk hb htable
          · obtain rfl := List.mem_singleton.1 hk
            show Finmap.lookup _ (Finmap.insert _ _ _) = _
            rw [Finmap.lookup_insert, hsame, entry_some hnewh]
        · have hne := hk key (List.mem_append_right _ (List.mem_singleton.2 rfl)) hp hthere
          show Finmap.lookup _ (Finmap.insert _ _ _) = _
          rw [Finmap.lookup_insert_of_ne _ hne]
          exact h.kept k fun k' hk' => hk k' (List.mem_append_left _ hk')
        · rcases List.mem_append.1 hk with hk | hk
          · exact h.collected k hk hb htable
          · obtain rfl := List.mem_singleton.1 hk
            exact absurd hthere htable
    | none =>
        have hnot : derivedKey b d key ∉ table := Finmap.lookup_eq_none.1 hnewh
        rw [inheritTurn_new hp hn (hold.trans hnewh)]
        rw [entry_none hnewh, Finmap.empty_union, Finmap.empty_union] at hsame
        refine ⟨fun k hk hb htable => ?_,
          fun k hk => h.kept k fun k' hk' => hk k' (List.mem_append_left _ hk'),
          fun k hk hb htable => ?_, fun k hk => ?_⟩
        · rcases List.mem_append.1 hk with hk | hk
          · exact h.changed k hk hb htable
          · obtain rfl := List.mem_singleton.1 hk
            exact absurd htable hnot
        · rcases List.mem_append.1 hk with hk | hk
          · show Finmap.lookup _ (Finmap.insert _ _ _) = _
            rw [Finmap.lookup_insert_of_ne _ (hfresh k hk hb).symm]
            exact h.collected k hk hb htable
          · obtain rfl := List.mem_singleton.1 hk
            show Finmap.lookup _ (Finmap.insert _ _ _) = _
            rw [Finmap.lookup_insert, hsame]
        · have hne := hk key (List.mem_append_right _ (List.mem_singleton.2 rfl)) hp hnot
          show Finmap.lookup _ (Finmap.insert _ _ _) = _
          rw [Finmap.lookup_insert_of_ne _ hne]
          exact h.apart k fun k' hk' => hk k' (List.mem_append_left _ hk')
  · rw [inheritTurn_other hp]
    have hback : ∀ {k}, k ∈ returned ++ [key] → b <+: k → k ∈ returned := by
      intro k hk hb
      refine (List.mem_append.1 hk).resolve_right fun he => hp ?_
      rwa [← List.mem_singleton.1 he]
    exact ⟨fun k hk hb => h.changed k (hback hk hb) hb,
      fun k hk => h.kept k fun k' hk' => hk k' (List.mem_append_left _ hk'),
      fun k hk hb => h.collected k (hback hk hb) hb,
      fun k hk => h.apart k fun k' hk' => hk k' (List.mem_append_left _ hk')⟩

theorem inherited_run (hsettles : Settles b d table) {keys returned : List (List Char)}
    {state : HashTable (HashTable V) × HashTable (HashTable V)}
    (h : Inherited b d table returned state) (hreturned : ∀ k ∈ returned, k ∈ table)
    (hkeys : ∀ k ∈ keys, k ∈ table) (honce : (returned ++ keys).Nodup) :
    Inherited b d table (returned ++ keys) (keys.foldl (inheritTurn order b d) state) := by
  induction keys generalizing returned state with
  | nil =>
      rw [List.append_nil]
      exact h
  | cons key keys ih =>
      have hkey := hkeys key List.mem_cons_self
      rw [List.append_cons] at honce ⊢
      have hnew : key ∉ returned := by
        have hfront := (List.nodup_append.1 honce).1
        exact fun hm => (List.nodup_append.1 hfront).2.2 key hm key (List.mem_singleton.2 rfl) rfl
      rw [List.foldl_cons]
      refine ih (inherited_turn hsettles h hreturned hkey hnew) (fun k hk => ?_)
        (fun k hk => hkeys k (List.mem_cons_of_mem _ hk)) honce
      rcases List.mem_append.1 hk with hk | hk
      · exact hreturned k hk
      · exact List.mem_singleton.1 hk ▸ hkey

/-- The call, for every order of the loops. -/
theorem inheritAll_lookup (hsettles : Settles b d table) (order : IterOrder V) (key : List Char) :
    (inheritAll order b d table).lookup key = inheritedEntry b d table key := by
  have hstart : Inherited b d table [] (table, ∅) :=
    ⟨fun _ hr => (nomatch hr), fun _ _ => rfl, fun _ hr => (nomatch hr),
      fun _ _ => Finmap.lookup_empty _⟩
  have hrun := @inherited_run V order b d table hsettles (order.names.keys table) [] _ hstart
    (fun _ hr => nomatch hr) (fun _ hm => order.names.mem.1 hm) (order.names.nodup table)
  have hlookup := @lookup_inheritAll V order b d table key
  obtain ⟨state, hstate⟩ :
      ∃ s, (order.names.keys table).foldl (inheritTurn order b d) (table, ∅) = s := ⟨_, rfl⟩
  rw [hstate] at hrun hlookup
  rw [hlookup]
  by_cases hderived : ∃ k ∈ table, b <+: k ∧ key = derivedKey b d k
  · obtain ⟨k, hk, hb, rfl⟩ := hderived
    have hreturned : k ∈ [] ++ order.names.keys table := order.names.mem.2 hk
    rw [inheritedEntry_derived hk hb]
    by_cases hthere : derivedKey b d k ∈ table
    · rw [hrun.apart _ fun k' _ hb' hnot he => hnot (he ▸ hthere),
        Option.none_or, hrun.changed k hreturned hb hthere]
    · rw [hrun.collected k hreturned hb hthere, Option.some_or, entry_none (Finmap.lookup_eq_none.2 hthere),
        Finmap.empty_union]
  · have hother : ∀ k ∈ table, b <+: k → key ≠ derivedKey b d k :=
      fun k hk hb he => hderived ⟨k, hk, hb, he⟩
    have hreturned : ∀ k ∈ [] ++ order.names.keys table, k ∈ table := fun k hk => order.names.mem.1 hk
    rw [inheritedEntry_other hother, hrun.apart key fun k hk hb _ => hother k (hreturned k hk) hb,
      Option.none_or]
    exact hrun.kept key fun k hk hb _ => hother k (hreturned k hk) hb

/-! ## The second call -/

section Second

variable {after : HashTable (HashTable V)}

/-- The name behind a name for the derived class that the table has no entry for. -/
theorem next_kept (hafter : ∀ key, after.lookup key = inheritedEntry b d table key)
    {k : List Char} (hb : b <+: k) (hnot : k ∉ table) :
    after.lookup (derivedKey b d k) = table.lookup (derivedKey b d k) := by
  rw [hafter]
  refine inheritedEntry_other fun k' hk' hb' he => hnot ?_
  rwa [derivedKey_inj hb hb' he]

theorem derived_after (hafter : ∀ key, after.lookup key = inheritedEntry b d table key)
    {k : List Char} (hk : k ∈ table) (hb : b <+: k) : after.lookup (derivedKey b d k) =
      some (entry table (derivedKey b d k) ∪ entry table k) := by
  rw [hafter, inheritedEntry_derived hk hb]

theorem settles_of_closed (hafter : ∀ key, after.lookup key = inheritedEntry b d table key)
    (hclosed : Closed b d after) : Settles b d table := by
  intro k hk hb hagain
  have hfirst := derived_after hafter hk hb
  obtain ⟨hthere, hdecls⟩ := hclosed _ (Finmap.mem_iff.2 ⟨_, hfirst⟩) hagain
  rw [entry_some hfirst] at hdecls
  by_cases hmem : derivedKey b d k ∈ table
  · refine ⟨Or.inl hmem, fun decl hdecl => ?_⟩
    have hin := hdecls decl (Finmap.mem_union.2 (Or.inr hdecl))
    rw [entry_some (derived_after hafter hmem hagain)] at hin
    exact (Finmap.mem_union.1 hin).symm
  · have hkept := next_kept hafter hagain hmem
    obtain ⟨n, hn⟩ := Finmap.mem_iff.1 hthere
    refine ⟨Or.inr (Finmap.mem_iff.2 ⟨n, hkept ▸ hn⟩), fun decl hdecl => Or.inr ?_⟩
    have hin := hdecls decl (Finmap.mem_union.2 (Or.inr hdecl))
    rwa [entry, hkept] at hin

theorem closed_of_settles (hafter : ∀ key, after.lookup key = inheritedEntry b d table key)
    (hsettles : Settles b d table) : Closed b d after := by
  intro k hk hb
  by_cases hderived : ∃ k' ∈ table, b <+: k' ∧ k = derivedKey b d k'
  · obtain ⟨k', hk', hb', rfl⟩ := hderived
    obtain ⟨hone, hdecls⟩ := hsettles k' hk' hb' hb
    rw [entry_some (derived_after hafter hk' hb')]
    by_cases hmem : derivedKey b d k' ∈ table
    · have hnext := derived_after hafter hmem hb
      refine ⟨Finmap.mem_iff.2 ⟨_, hnext⟩, fun decl hdecl => ?_⟩
      rw [entry_some hnext, Finmap.mem_union]
      rcases Finmap.mem_union.1 hdecl with hin | hin
      · exact Or.inr hin
      · exact (hdecls decl hin).symm
    · have hkept := next_kept hafter hb hmem
      have hempty := entry_none (Finmap.lookup_eq_none.2 hmem)
      refine ⟨?_, fun decl hdecl => ?_⟩
      · rw [Finmap.mem_iff, hkept]
        exact Finmap.mem_iff.1 (hone.resolve_left hmem)
      · rw [hempty, Finmap.empty_union] at hdecl
        rw [entry, hkept]
        refine (hdecls decl hdecl).resolve_left fun hin => ?_
        rw [hempty] at hin
        exact Finmap.notMem_empty hin
  · have hsame : after.lookup k = table.lookup k := by
      rw [hafter]
      exact inheritedEntry_other fun k' hk' hb' he => hderived ⟨k', hk', hb', he⟩
    have hmem : k ∈ table := by
      obtain ⟨n, hn⟩ := Finmap.mem_iff.1 hk
      exact Finmap.mem_iff.2 ⟨n, hsame ▸ hn⟩
    have hnext := derived_after hafter hmem hb
    refine ⟨Finmap.mem_iff.2 ⟨_, hnext⟩, fun decl hdecl => ?_⟩
    rw [entry, hsame] at hdecl
    rw [entry_some hnext, Finmap.mem_union]
    exact Or.inr hdecl

end Second

/-! ## Both calls -/

/-- One order for all loops. -/
noncomputable def listedOrder : IterOrder V := ⟨listedKeys, fun _ => listedKeys⟩

/-- For every order of the loops a call gives the members of the derived class what the base
class has, and a second one changes nothing. -/
def InheritsRight (table : HashTable (HashTable V)) (base derived : List Char) : Prop :=
  ∃ after, (∀ order, swigNameObjectInherit order table base derived = after) ∧
    (∀ key, after.lookup key =
      inheritedEntry (base ++ [':', ':']) (derived ++ [':', ':']) table key) ∧
    ∀ order, swigNameObjectInherit order after base derived = after

theorem inheritsRight_iff (table : HashTable (HashTable V)) (base derived : List Char) :
    InheritsRight table base derived ↔
      Settles (base ++ [':', ':']) (derived ++ [':', ':']) table := by
  constructor
  · rintro ⟨after, -, hafter, hagain⟩
    exact settles_of_closed hafter (closed_of_unchanged (hagain listedOrder))
  · intro hsettles
    have hlookup := inheritAll_lookup hsettles
    refine ⟨inheritAll listedOrder _ _ table, fun order => ?_, hlookup listedOrder, fun order => ?_⟩
    · refine Finmap.ext_lookup fun key => ?_
      rw [hlookup listedOrder]
      exact hlookup order key
    · exact unchanged_of_closed (closed_of_settles (hlookup listedOrder) hsettles) order

/-- `A::B` is derived from `A`, in which it is nested, and `A` has an entry for a member. -/
theorem nested_not_right :
    ¬ InheritsRight (Finmap.singleton ['A', ':', ':', 'x'] (Finmap.singleton [] ()))
      ['A'] ['A', ':', ':', 'B'] := by
  rintro ⟨after, -, hafter, hagain⟩
  have hsettles := settles_of_closed hafter (closed_of_unchanged (hagain listedOrder))
  obtain ⟨hthere, -⟩ := hsettles ['A', ':', ':', 'x'] ((Finmap.mem_singleton _ _ _).2 rfl)
    ⟨['x'], rfl⟩ ⟨['B', ':', ':', 'x'], rfl⟩
  rcases hthere with hin | hin
  · exact absurd ((Finmap.mem_singleton _ _ _).1 hin) (by decide)
  · exact absurd ((Finmap.mem_singleton _ _ _).1 hin) (by decide)

end Swig4Ada.Swig

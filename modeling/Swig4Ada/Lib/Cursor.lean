import Swig4Ada.Lib.Buckets

/-!
# A cursor in a table of chained buckets

A cursor has the index of a bucket and the key of the entry there that comes next, if any.
What it has before it is the chain from that entry on and the buckets behind (`pending`).
Dropping and changing other entries, key by key, leaves it where it is.
-/

namespace Swig4Ada.Lib

variable {ν κ : Type} [DecidableEq κ] (key : ν → κ)

/-- The chain from the entry with a key on. -/
def fromKey (k : κ) (chain : List ν) : List ν := chain.dropWhile fun n => key n ≠ k

structure Cursor (κ : Type) where
  index : Nat
  current : Option κ

/-- The entries that a cursor has before it. -/
def pending (table : List (List ν)) (c : Cursor κ) : List ν :=
  (match c.current with
    | some k => fromKey key k (bucket table c.index)
    | none => []) ++ (table.drop (c.index + 1)).flatten

/-- The cursor points to an entry of its bucket, or to none. -/
def Points (table : List (List ν)) (c : Cursor κ) : Prop :=
  ∀ k, c.current = some k → ∃ n ∈ bucket table c.index, key n = k

/-- The first bucket from `i` on that is not empty. -/
def nextSlot (table : List (List ν)) (i : Nat) : Nat :=
  i + ((table.drop i).takeWhile List.isEmpty).length

variable {key} {table : List (List ν)} {chain pre rest : List ν} {n : ν} {k : κ} {c : Cursor κ}

theorem fromKey_split (hpre : ∀ m ∈ pre, key m ≠ key n) :
    fromKey key (key n) (pre ++ n :: rest) = n :: rest := by
  rw [fromKey, List.dropWhile_append_of_pos fun m hm => by simpa using hpre m hm,
    List.dropWhile_cons_of_neg (by simp)]

/-- Behind an entry its chain goes on with the next one. -/
theorem fromKey_next {m : ν} (hnodup : (chain.map key).Nodup)
    (h : fromKey key k chain = n :: m :: rest) : fromKey key (key m) chain = m :: rest := by
  have hsplit := List.takeWhile_append_dropWhile (p := fun n => decide (key n ≠ k)) (l := chain)
  rw [fromKey] at h
  rw [h] at hsplit
  rw [← hsplit, List.map_append, List.map_cons, List.map_cons] at hnodup
  have hother := List.nodup_append.1 hnodup
  rw [← hsplit, List.append_cons]
  refine fromKey_split fun a ha heq => ?_
  rcases List.mem_append.1 ha with ha | ha
  · exact hother.2.2 _ (List.mem_map_of_mem ha) _
      (List.mem_cons_of_mem _ List.mem_cons_self) heq
  · obtain rfl := List.mem_singleton.1 ha
    exact (List.nodup_cons.1 hother.2.1).1 (by rw [heq]; exact List.mem_cons_self)

theorem fromKey_mem (h : ∃ n ∈ chain, key n = k) :
    ∃ n rest, fromKey key k chain = n :: rest ∧ key n = k := by
  induction chain with
  | nil =>
      obtain ⟨n, hn, -⟩ := h
      cases hn
  | cons m chain ih =>
      by_cases hm : key m = k
      · exact ⟨m, chain, List.dropWhile_cons_of_neg (by simpa using hm), hm⟩
      · obtain ⟨n, hn, hk⟩ := h
        have hn' : n ∈ chain := (List.mem_cons.1 hn).resolve_left fun he => hm (he ▸ hk)
        obtain ⟨n', rest, hfrom, hk'⟩ := ih ⟨n, hn', hk⟩
        refine ⟨n', rest, ?_, hk'⟩
        rw [fromKey, List.dropWhile_cons_of_pos (by simpa using hm)]
        exact hfrom

/-- What is behind a bucket, up to the next one that is not empty. -/
theorem nextSlot_spec (table : List (List ν)) (i : Nat) :
    (bucket table (nextSlot table i) = [] ∧ (table.drop i).flatten = []) ∨
      ∃ n chain, bucket table (nextSlot table i) = n :: chain ∧
        (table.drop i).flatten = (n :: chain) ++ (table.drop (nextSlot table i + 1)).flatten := by
  have hbucket : ∀ j, bucket table (i + j) = ((table.drop i)[j]?).getD [] := by
    intro j
    rw [bucket, List.getD_eq_getElem?_getD, List.getElem?_drop]
  have hdrop : table.drop (nextSlot table i + 1) =
      (table.drop i).drop (((table.drop i).takeWhile List.isEmpty).length + 1) := by
    rw [List.drop_drop]
    rfl
  rw [nextSlot, hbucket, ← nextSlot, hdrop]
  induction table.drop i with
  | nil => exact Or.inl ⟨rfl, rfl⟩
  | cons b table ih =>
      cases b with
      | nil =>
          rw [List.takeWhile_cons_of_pos rfl, List.length_cons, List.getElem?_cons_succ,
            List.flatten_cons, List.drop_succ_cons]
          exact ih
      | cons n chain =>
          rw [List.takeWhile_cons_of_neg (by simp)]
          exact Or.inr ⟨n, chain, rfl, rfl⟩

/-! ## Changes to the table -/

/-- The chain without some entries, and with others changed. -/
def edited (p : ν → Bool) (f : ν → ν) (chain : List ν) : List ν := (chain.filter p).map f

variable {p : ν → Bool} {f : ν → ν}

theorem edited_append (l m : List ν) :
    edited p f (l ++ m) = edited p f l ++ edited p f m := by
  rw [edited, edited, edited, List.filter_append, List.map_append]

theorem fromKey_edited (hkey : ∀ n, key (f n) = key n)
    (hp : ∀ n ∈ fromKey key k chain, p n = true) :
    fromKey key k (edited p f chain) = (fromKey key k chain).map f := by
  induction chain with
  | nil => rfl
  | cons m chain ih =>
      by_cases hm : key m = k
      · have hself : fromKey key k (m :: chain) = m :: chain :=
          List.dropWhile_cons_of_neg (by simpa using hm)
        rw [hself] at hp ⊢
        rw [edited, List.filter_eq_self.2 hp]
        exact List.dropWhile_cons_of_neg (by simpa using (hkey m).trans hm)
      · have hrest : fromKey key k (m :: chain) = fromKey key k chain :=
          List.dropWhile_cons_of_pos (by simpa using hm)
        rw [hrest] at hp ⊢
        rw [← ih hp, edited]
        cases hpm : p m with
        | false =>
            rw [List.filter_cons_of_neg (by rw [hpm]; exact Bool.false_ne_true)]
            rfl
        | true =>
            rw [List.filter_cons_of_pos hpm]
            refine List.dropWhile_cons_of_pos ?_
            rw [hkey]
            simpa using hm

theorem bucket_edited (i : Nat) :
    bucket (table.map (edited p f)) i = edited p f (bucket table i) := by
  rw [bucket, bucket, List.getD_eq_getElem?_getD, List.getD_eq_getElem?_getD, List.getElem?_map]
  cases table[i]? with
  | none => rfl
  | some b => rfl

theorem flatten_edited (table : List (List ν)) :
    (table.map (edited p f)).flatten = edited p f table.flatten := by
  induction table with
  | nil => rfl
  | cons b table ih =>
      rw [List.map_cons, List.flatten_cons, ih, List.flatten_cons, edited_append]

/-- Where the entries before the cursor are kept, they stay before it. -/
theorem pending_edited (hkey : ∀ n, key (f n) = key n)
    (hp : ∀ n ∈ pending key table c, p n = true) :
    pending key (table.map (edited p f)) c = (pending key table c).map f := by
  have hlater : ∀ l : List ν, (∀ n ∈ l, p n = true) → edited p f l = l.map f := by
    intro l hl
    rw [edited, List.filter_eq_self.2 hl]
  obtain ⟨index, current⟩ := c
  have htail : ((table.map (edited p f)).drop (index + 1)).flatten =
      ((table.drop (index + 1)).flatten).map f := by
    rw [← List.map_drop, flatten_edited, hlater]
    exact fun n hn => hp n (List.mem_append_right _ hn)
  cases current with
  | none => exact htail
  | some k =>
      rw [pending, pending, List.map_append, ← htail]
      dsimp only
      rw [bucket_edited, fromKey_edited hkey]
      exact fun n hn => hp n (List.mem_append_left _ hn)

theorem Points.edited (hc : Points key table c) (hkey : ∀ n, key (f n) = key n)
    (hp : ∀ n ∈ pending key table c, p n = true) : Points key (table.map (edited p f)) c := by
  intro k hk
  obtain ⟨n, rest, hfrom, hn⟩ := fromKey_mem (hc k hk)
  have hsuffix : fromKey key k (bucket table c.index) <:+ bucket table c.index :=
    List.dropWhile_suffix _
  have hmem : n ∈ bucket table c.index := hsuffix.mem (by rw [hfrom]; exact List.mem_cons_self)
  have hkeep : p n = true := by
    refine hp n ?_
    rw [pending, hk]
    dsimp only
    rw [hfrom]
    exact List.mem_cons_self
  refine ⟨f n, ?_, (hkey n).trans hn⟩
  rw [bucket_edited]
  exact List.mem_map_of_mem (List.mem_filter.2 ⟨hmem, hkeep⟩)

/-- A change of one bucket is one of the table when it leaves the other buckets alone. -/
theorem set_eq_map {g : List ν → List ν} {i : Nat} (hi : i < table.length)
    (hother : ∀ j b, j ≠ i → table[j]? = some b → g b = b) :
    table.set i (g (bucket table i)) = table.map g := by
  refine List.ext_getElem? fun j => ?_
  rw [List.getElem?_set, List.getElem?_map]
  by_cases hij : i = j
  · rw [if_pos hij, if_pos hi, ← hij, getElem?_bucket hi]
    rfl
  · rw [if_neg hij]
    cases hj : table[j]? with
    | none => rfl
    | some b => rw [Option.map_some, hother j b (Ne.symm hij) hj]

theorem map_eq_self {g : List ν → List ν} (h : ∀ b ∈ table, g b = b) : table.map g = table := by
  rw [List.map_congr_left h, List.map_id']

end Swig4Ada.Lib

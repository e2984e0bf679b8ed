import Mathlib

/-!
# Tables of chained buckets

A table is a list of buckets, and `slot` says in which bucket an entry belongs. When
every entry is where it belongs (`Placed`), looking into one bucket is looking into the
whole table, and an operation on one bucket is described by what it does to that one
(`exists_rest`). `scatter` fills a new table from the entries of an old one.
-/

namespace Swig4Ada.Lib

variable {ν : Type}

/-- Every entry is in the bucket of its slot. -/
def Placed (slot : ν → Nat) (table : List (List ν)) : Prop :=
  ∀ i b, table[i]? = some b → ∀ n ∈ b, slot n = i

def bucket (table : List (List ν)) (i : Nat) : List ν := table.getD i []

theorem getElem?_bucket {table : List (List ν)} {i : Nat} (hi : i < table.length) :
    table[i]? = some (bucket table i) := by
  unfold bucket
  rw [List.getD_eq_getElem?_getD, List.getElem?_eq_getElem hi]
  rfl

theorem placed_replicate (slot : ν → Nat) (size : Nat) :
    Placed slot (List.replicate size []) := by
  intro i b hb n hn
  rw [List.getElem?_replicate] at hb
  split at hb
  · injection hb with hb
    subst hb
    exact absurd hn List.not_mem_nil
  · exact absurd hb (by simp)

theorem Placed.mem_bucket_iff {slot : ν → Nat} {table : List (List ν)} {n : ν}
    (h : Placed slot table) : n ∈ bucket table (slot n) ↔ n ∈ table.flatten := by
  rw [List.mem_flatten]
  constructor
  · intro hn
    by_cases hi : slot n < table.length
    · exact ⟨_, List.mem_of_getElem? (getElem?_bucket hi), hn⟩
    · unfold bucket at hn
      rw [List.getD_eq_getElem?_getD, List.getElem?_eq_none (by omega)] at hn
      exact absurd hn List.not_mem_nil
  · rintro ⟨b, hb, hn⟩
    obtain ⟨i, hi⟩ := List.mem_iff_getElem?.1 hb
    have hslot := h i b hi n hn
    have hlt : i < table.length := (List.getElem?_eq_some_iff.1 hi).1
    rw [hslot]
    rw [getElem?_bucket hlt] at hi
    injection hi with hi
    exact hi ▸ hn

theorem Placed.set {slot : ν → Nat} {table : List (List ν)} {i : Nat} {b : List ν}
    (h : Placed slot table) (hb : ∀ n ∈ b, slot n = i) : Placed slot (table.set i b) := by
  intro j b' hb' n hn
  rw [List.getElem?_set] at hb'
  split at hb'
  · rename_i hij
    split at hb'
    · injection hb' with hb'
      subst hb'
      rw [← hij]
      exact hb n hn
    · exact absurd hb' (by simp)
  · exact h j b' hb' n hn

/-- The entries of a table are those of one bucket and the rest, and the rest stays
when that bucket is replaced. -/
theorem exists_rest {table : List (List ν)} {i : Nat} (hi : i < table.length) :
    ∃ rest, table.flatten.Perm (bucket table i ++ rest) ∧
      ∀ b, (table.set i b).flatten.Perm (b ++ rest) := by
  refine ⟨(table.take i).flatten ++ (table.drop (i + 1)).flatten, ?_, ?_⟩
  · have hsplit : table = table.take i ++ bucket table i :: table.drop (i + 1) := by
      have hget : bucket table i = table[i] := by
        have hsome := getElem?_bucket hi
        rw [List.getElem?_eq_getElem hi] at hsome
        exact (Option.some.inj hsome).symm
      rw [hget, ← List.drop_eq_getElem_cons hi, List.take_append_drop]
    have hflat := congrArg List.flatten hsplit
    rw [List.flatten_append, List.flatten_cons] at hflat
    rw [hflat, ← List.append_assoc, ← List.append_assoc]
    exact List.perm_append_comm.append_right _
  · intro b
    rw [List.set_eq_take_append_cons_drop, if_pos hi, List.flatten_append, List.flatten_cons,
      ← List.append_assoc, ← List.append_assoc]
    exact List.perm_append_comm.append_right _

/-! ## Filling a new table -/

/-- An entry goes to the front of its bucket. -/
def pushFront (slot : ν → Nat) (table : List (List ν)) (n : ν) : List (List ν) :=
  table.set (slot n) (n :: bucket table (slot n))

def scatter (slot : ν → Nat) (size : Nat) (entries : List ν) : List (List ν) :=
  entries.foldl (pushFront slot) (List.replicate size [])

theorem foldl_pushFront {slot : ν → Nat} {entries : List ν} : ∀ {table : List (List ν)},
    (∀ n ∈ entries, slot n < table.length) → Placed slot table →
    (entries.foldl (pushFront slot) table).length = table.length ∧
      Placed slot (entries.foldl (pushFront slot) table) ∧
      (entries.foldl (pushFront slot) table).flatten.Perm (entries ++ table.flatten) := by
  induction entries with
  | nil =>
      intro table _ h
      exact ⟨rfl, h, List.Perm.refl _⟩
  | cons n entries ih =>
      intro table hslot h
      have hlength : (pushFront slot table n).length = table.length := List.length_set
      have hn := hslot n List.mem_cons_self
      have hplaced : Placed slot (pushFront slot table n) := by
        refine h.set ?_
        intro m hm
        rcases List.mem_cons.1 hm with rfl | hm
        · rfl
        · exact h _ _ (getElem?_bucket hn) m hm
      obtain ⟨rest, hperm, hset⟩ := exists_rest hn
      have hslot' : ∀ m ∈ entries, slot m < (pushFront slot table n).length := by
        intro m hm
        rw [hlength]
        exact hslot m (List.mem_cons_of_mem _ hm)
      obtain ⟨hlen, hplaced', hperm'⟩ := ih hslot' hplaced
      refine ⟨hlen.trans hlength, hplaced', hperm'.trans ?_⟩
      have hpush : (pushFront slot table n).flatten.Perm (n :: table.flatten) :=
        (hset _).trans (hperm.symm.cons n)
      exact (hpush.append_left entries).trans List.perm_middle

theorem scatter_spec {slot : ν → Nat} {size : Nat} {entries : List ν}
    (hslot : ∀ n ∈ entries, slot n < size) :
    (scatter slot size entries).length = size ∧ Placed slot (scatter slot size entries) ∧
      (scatter slot size entries).flatten.Perm entries := by
  obtain ⟨hlength, hplaced, hperm⟩ := foldl_pushFront
    (fun n hn => by
      rw [List.length_replicate]
      exact hslot n hn) (placed_replicate slot size)
  refine ⟨hlength.trans List.length_replicate, hplaced, hperm.trans ?_⟩
  rw [List.flatten_replicate_nil, List.append_nil]

end Swig4Ada.Lib

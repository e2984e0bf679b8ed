import Mathlib.Data.Finmap

/-!
# Hashes as finite maps, and loops over them

Where nothing depends on the buckets a hash is a finite map. A loop goes through its keys in
an order that is given with it.
-/

namespace Swig4Ada.Doh

/-- A hash. -/
abbrev HashTable (V : Type) := Finmap fun _ : List Char => V

/-- An order in which a loop goes through hashes. -/
structure HashOrder (V : Type) where
  keys : HashTable V → List (List Char)
  nodup : ∀ h, (keys h).Nodup
  mem : ∀ {h k}, k ∈ keys h ↔ k ∈ h

variable {V : Type}

/-- The loop that sets every entry of one hash in another. -/
def setAll (keys : List (List Char)) (source target : HashTable V) : HashTable V :=
  keys.foldl
    (fun target key =>
      match source.lookup key with
      | none => target
      | some item => target.insert key item)
    target

theorem lookup_setAll {keys : List (List Char)} {source : HashTable V}
    (h : ∀ k, k ∈ keys ↔ k ∈ source) (target : HashTable V) (j : List Char) :
    (setAll keys source target).lookup j = (source.lookup j).or (target.lookup j) := by
  have hwalk : ∀ keys' (t : HashTable V), (setAll keys' source t).lookup j =
      if j ∈ keys' ∧ j ∈ source then source.lookup j else t.lookup j := by
    intro keys'
    induction keys' with
    | nil =>
        intro t
        rw [if_neg fun h => nomatch h.1]
        rfl
    | cons key keys' ih =>
        intro t
        have hfold : setAll (key :: keys') source t =
            setAll keys' source (setAll [key] source t) := rfl
        rw [hfold, ih]
        by_cases hin : j ∈ keys' ∧ j ∈ source
        · rw [if_pos hin, if_pos ⟨List.mem_cons_of_mem _ hin.1, hin.2⟩]
        · rw [if_neg hin, setAll, List.foldl_cons, List.foldl_nil]
          cases hk : source.lookup key with
          | none =>
              have hnot : ¬ (j ∈ key :: keys' ∧ j ∈ source) := by
                rintro ⟨hm, hd⟩
                rcases List.mem_cons.1 hm with rfl | hm
                · exact Finmap.lookup_eq_none.1 hk hd
                · exact hin ⟨hm, hd⟩
              rw [if_neg hnot]
          | some item =>
              dsimp only
              by_cases he : j = key
              · rw [he, Finmap.lookup_insert, if_pos ⟨List.mem_cons_self, Finmap.mem_iff.2 ⟨_, hk⟩⟩,
                  hk]
              · have hnot : ¬ (j ∈ key :: keys' ∧ j ∈ source) := fun hm =>
                  hin ⟨(List.mem_cons.1 hm.1).resolve_left he, hm.2⟩
                rw [Finmap.lookup_insert_of_ne _ he, if_neg hnot]
  rw [hwalk]
  cases hj : source.lookup j with
  | some item =>
      have hin : j ∈ source := Finmap.mem_iff.2 ⟨_, hj⟩
      rw [if_pos ⟨(h j).2 hin, hin⟩, Option.some_or]
  | none => rw [if_neg fun hm => Finmap.lookup_eq_none.1 hj hm.2, Option.none_or]

theorem insert_lookup {table : HashTable V} {key : List Char} {n : V}
    (h : table.lookup key = some n) : table.insert key n = table := by
  refine Finmap.ext_lookup fun k => ?_
  by_cases he : k = key
  · rw [he, Finmap.lookup_insert, h]
  · rw [Finmap.lookup_insert_of_ne _ he]

/-- The keys in a list of them. -/
noncomputable def listedKeys : HashOrder V where
  keys h := h.keys.toList
  nodup _ := Finset.nodup_toList _
  mem := by simp [Finmap.mem_keys]

end Swig4Ada.Doh

import Mathlib

/-!
# Counting what a family of owners holds

The owners are the numbers below `n`, and each holds a list. `slotCount` is how often
something is held by all of them together; it changes with what one owner holds by just
that much.
-/

namespace Swig4Ada.Lib

variable {ω : Type} [DecidableEq ω]

def slotCount (held : Nat → List ω) (n : Nat) (x : ω) : Nat :=
  ∑ id ∈ Finset.range n, (held id).count x

theorem slotCount_congr {held held' : Nat → List ω} {n : Nat} (h : ∀ id < n, held id = held' id)
    (x : ω) : slotCount held n x = slotCount held' n x :=
  Finset.sum_congr rfl fun id hid => by rw [h id (Finset.mem_range.1 hid)]

/-- One owner holds something else. -/
theorem slotCount_move {held held' : Nat → List ω} {n id : Nat} (hid : id < n)
    (h : ∀ id' < n, id' ≠ id → held id' = held' id') (x : ω) :
    slotCount held n x + (held' id).count x = slotCount held' n x + (held id).count x := by
  have hmem : id ∈ Finset.range n := Finset.mem_range.2 hid
  have hrest : ∑ id' ∈ (Finset.range n).erase id, (held id').count x =
      ∑ id' ∈ (Finset.range n).erase id, (held' id').count x := by
    refine Finset.sum_congr rfl fun id' hid' => ?_
    obtain ⟨hne, hlt⟩ := Finset.mem_erase.1 hid'
    rw [h id' (Finset.mem_range.1 hlt) hne]
  unfold slotCount
  rw [← Finset.add_sum_erase _ _ hmem, ← Finset.add_sum_erase _ _ hmem, hrest]
  omega

/-- A new owner. -/
theorem slotCount_succ (held : Nat → List ω) (n : Nat) (x : ω) :
    slotCount held (n + 1) x = slotCount held n x + (held n).count x :=
  Finset.sum_range_succ _ _

theorem slotCount_pos {held : Nat → List ω} {n id : Nat} {x : ω} (hid : id < n)
    (hx : x ∈ held id) : 0 < slotCount held n x := by
  have hle := Finset.single_le_sum (f := fun id => (held id).count x)
    (fun _ _ => Nat.zero_le _) (Finset.mem_range.2 hid)
  exact Nat.lt_of_lt_of_le (List.count_pos_iff.2 hx) hle

theorem exists_of_slotCount_pos {held : Nat → List ω} {n : Nat} {x : ω}
    (h : 0 < slotCount held n x) : ∃ id < n, x ∈ held id := by
  obtain ⟨id, hid, hpos⟩ := Finset.exists_ne_zero_of_sum_ne_zero (Nat.ne_of_gt h)
  exact ⟨id, Finset.mem_range.1 hid, List.count_pos_iff.1 (Nat.pos_of_ne_zero hpos)⟩

end Swig4Ada.Lib

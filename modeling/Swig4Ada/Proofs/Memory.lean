import Swig4Ada.Lib.Slots
import Swig4Ada.Doh.Memory
import Swig4Ada.Proofs.Hash

/-!
# Reference counts are what they should be

A count is the references held outside, the slots that hold the object, the references to
an interned string that `Delete` was given for nothing, and in the middle of an operation
the references that are still to be given up (`pending`): `Balanced`. `Delete` takes one reference from the last part, and when it frees a
container it moves that container's slots there, so it keeps the balance and never
meets a count of zero, cycles or not.

An operation that gives up slots of a container while it goes on to use the container
needs more: the container must not be freed by that. Its slots are then seen without
those that are given up (`View`), and a set of objects that keep each other and the
container (`Guarded`) says that it stays. This is what a caller of `Setattr` and the
others has to see to, and what is not promised where only slots that are about to be
given up hold the container or the new value.
-/

namespace Swig4Ada.Doh

open Lib

/-! ## The balance -/

/-- The slots that some containers are to be seen with in place of their own. -/
abbrev View := Nat → Option (List Obj)

def noView : View := fun _ => none

def viewOf (lo : Nat) (kept : List Obj) : View := fun id => if id = lo then some kept else none

/-- The slots of a container, none when it has been freed or is being freed. -/
def heldIn (m : Memory) (view : View) (id : Nat) : List Obj :=
  match view id with
  | some kept => kept
  | none => if m.refcount (.object id) = 0 then [] else refsOf m (.object id)

def slots (m : Memory) (view : View) (x : Obj) : Nat :=
  slotCount (heldIn m view) m.containers.length x

/-- What is counted besides the slots. -/
def rests (m : Memory) (x : Obj) : Nat := m.outside x + m.ignored x

def Balanced (m : Memory) (view : View) (pending : List Obj) : Prop :=
  ∀ x, m.refcount x = rests m x + slots m view x + pending.count x

/-- Every object of `guard` is counted besides the slots or held by a container of `guard`, and so
are the containers that are seen with other slots. -/
structure Guarded (m : Memory) (view : View) (guard : Obj → Prop) : Prop where
  seen : ∀ id, view id ≠ none → guard (.object id)
  inside : ∀ id, guard (.object id) → id < m.containers.length
  held : ∀ x, guard x → 0 < rests m x ∨ ∃ id, guard (.object id) ∧ x ∈ heldIn m view id

/-- What giving up references leaves as it was. -/
structure Quiet (m m' : Memory) : Prop where
  containers : m'.containers = m.containers
  root : m'.root = m.root
  serial : m'.serial = m.serial
  interned : m'.interned = m.interned
  outside : m'.outside = m.outside
  ignored : ∀ x, m.ignored x ≤ m'.ignored x
  counted : ∀ x, m.interned x = false → m'.ignored x = m.ignored x
  refcount : ∀ x, m'.refcount x ≤ m.refcount x
  freed : ∀ x ∈ m'.freed, x ∈ m.freed ∨ (m'.refcount x = 0 ∧ 0 < m.refcount x)

variable {m m' m'' : Memory} {view : View} {guard : Obj → Prop} {pending : List Obj} {x : Obj}

theorem Quiet.refl (m : Memory) : Quiet m m where
  containers := rfl
  root := rfl
  serial := rfl
  interned := rfl
  outside := rfl
  ignored := fun _ => Nat.le_refl _
  counted := fun _ _ => rfl
  refcount := fun _ => Nat.le_refl _
  freed := fun _ hx => .inl hx

theorem Quiet.rests (h : Quiet m m') (x : Obj) : rests m x ≤ rests m' x := by
  unfold Doh.rests
  rw [h.outside]
  exact Nat.add_le_add_left (h.ignored x) _

theorem Quiet.trans (h : Quiet m m') (h' : Quiet m' m'') : Quiet m m'' where
  containers := h'.containers.trans h.containers
  root := h'.root.trans h.root
  serial := h'.serial.trans h.serial
  interned := h'.interned.trans h.interned
  outside := h'.outside.trans h.outside
  ignored := fun x => Nat.le_trans (h.ignored x) (h'.ignored x)
  counted := by
    intro x hx
    exact (h'.counted x (h.interned ▸ hx)).trans (h.counted x hx)
  refcount := fun x => Nat.le_trans (h'.refcount x) (h.refcount x)
  freed := by
    intro x hx
    have hle := h.refcount x
    have hle' := h'.refcount x
    rcases h'.freed x hx with hx | ⟨hzero, hpos⟩
    · rcases h.freed x hx with hx | ⟨hzero, hpos⟩
      · exact .inl hx
      · exact .inr ⟨by omega, hpos⟩
    · exact .inr ⟨hzero, by omega⟩

/-- A guarded object has a reference that is not pending. -/
theorem Guarded.alive (hg : Guarded m view guard) (hb : Balanced m view pending)
    (hx : guard x) : pending.count x < m.refcount x := by
  have hsum := hb x
  rcases hg.held x hx with hout | ⟨id, hid, hmem⟩
  · omega
  · have hpos : 0 < slots m view x := slotCount_pos (hg.inside id hid) hmem
    omega

theorem heldIn_congr {id : Nat} (hcontainers : m'.containers = m.containers)
    (hcount : m'.refcount (.object id) = 0 ↔ m.refcount (.object id) = 0) :
    heldIn m' view id = heldIn m view id := by
  unfold heldIn refsOf
  rw [hcontainers]
  cases view id with
  | some kept => rfl
  | none =>
      by_cases hzero : m.refcount (.object id) = 0
      · rw [if_pos hzero, if_pos (hcount.2 hzero)]
      · rw [if_neg hzero, if_neg fun h => hzero (hcount.1 h)]

theorem slots_congr (hcontainers : m'.containers = m.containers)
    (hcount : ∀ id < m.containers.length,
      (m'.refcount (.object id) = 0 ↔ m.refcount (.object id) = 0)) (y : Obj) :
    slots m' view y = slots m view y := by
  unfold slots
  rw [hcontainers]
  exact slotCount_congr (fun id hid => heldIn_congr hcontainers (hcount id hid)) y

theorem Guarded.quiet (hg : Guarded m view guard) (hb : Balanced m view pending)
    (hq : Quiet m m') (hlive : ∀ x, guard x → 0 < m'.refcount x) :
    Guarded m' view guard where
  seen := hg.seen
  inside := by
    rw [hq.containers]
    exact hg.inside
  held := by
    intro x hx
    rcases hg.held x hx with hout | ⟨id, hid, hmem⟩
    · exact .inl (Nat.lt_of_lt_of_le hout (hq.rests x))
    · refine .inr ⟨id, hid, ?_⟩
      have hnow := hlive _ hid
      have hbefore := hg.alive hb hid
      rw [heldIn_congr hq.containers (by omega)]
      exact hmem

/-! ## Deleting -/

/-- The containers that can still be freed. -/
def liveContainers (m : Memory) : Nat :=
  (List.range m.containers.length).countP fun id => 0 < m.refcount (.object id)

theorem liveContainers_le (m : Memory) : liveContainers m ≤ m.containers.length := by
  have h := List.countP_le_length (l := List.range m.containers.length)
    (p := fun id => decide (0 < m.refcount (.object id)))
  rwa [List.length_range] at h

theorem countP_live_mono (hle : ∀ x, m'.refcount x ≤ m.refcount x) (l : List Nat) :
    l.countP (fun id => decide (0 < m'.refcount (.object id))) ≤
      l.countP fun id => decide (0 < m.refcount (.object id)) := by
  refine List.countP_mono_left fun id _ h => ?_
  have := hle (.object id)
  simp only [decide_eq_true_eq] at h ⊢
  omega

theorem liveContainers_mono (hq : Quiet m m') : liveContainers m' ≤ liveContainers m := by
  unfold liveContainers
  rw [hq.containers]
  exact countP_live_mono hq.refcount _

theorem liveContainers_lt {id : Nat} (hcontainers : m'.containers = m.containers)
    (hle : ∀ x, m'.refcount x ≤ m.refcount x) (hid : id < m.containers.length)
    (hbefore : 0 < m.refcount (.object id)) (hnow : m'.refcount (.object id) = 0) :
    liveContainers m' < liveContainers m := by
  unfold liveContainers
  rw [hcontainers]
  obtain ⟨before, after, hsplit⟩ := List.append_of_mem (List.mem_range.2 hid)
  rw [hsplit, List.countP_append, List.countP_append, List.countP_cons_of_neg (by simpa using hnow),
    List.countP_cons_of_pos (by simpa using hbefore)]
  have h₁ := countP_live_mono hle before
  have h₂ := countP_live_mono hle after
  omega

theorem decref_refcount_self (m : Memory) (x : Obj) :
    (decref m x).refcount x = m.refcount x - 1 := Function.update_self _ _ _

theorem decref_refcount_ne {y : Obj} (h : y ≠ x) : (decref m x).refcount y = m.refcount y :=
  Function.update_of_ne h _ _

theorem quiet_decref (m : Memory) (x : Obj) : Quiet m (decref m x) where
  containers := rfl
  root := rfl
  serial := rfl
  interned := rfl
  outside := rfl
  ignored := fun _ => Nat.le_refl _
  counted := fun _ _ => rfl
  refcount := by
    intro y
    by_cases hy : y = x
    · rw [hy, decref_refcount_self]
      omega
    · rw [decref_refcount_ne hy]
  freed := fun _ hx => .inl hx

theorem holdOutside_self (m : Memory) (x : Obj) :
    (holdOutside m x).outside x = m.outside x + 1 := Function.update_self _ _ _

theorem holdOutside_ne {y : Obj} (h : y ≠ x) : (holdOutside m x).outside y = m.outside y :=
  Function.update_of_ne h _ _

theorem holdOutside_le (m : Memory) (x y : Obj) : m.outside y ≤ (holdOutside m x).outside y := by
  by_cases hy : y = x
  · rw [hy, holdOutside_self]
    omega
  · rw [holdOutside_ne hy]

theorem ignore_self (m : Memory) (x : Obj) : (ignore m x).ignored x = m.ignored x + 1 :=
  Function.update_self _ _ _

theorem ignore_ne {y : Obj} (h : y ≠ x) : (ignore m x).ignored y = m.ignored y :=
  Function.update_of_ne h _ _

theorem quiet_ignore (hx : m.interned x = true) : Quiet m (ignore m x) where
  containers := rfl
  root := rfl
  serial := rfl
  interned := rfl
  outside := rfl
  ignored := by
    intro y
    by_cases hy : y = x
    · rw [hy, ignore_self]
      omega
    · rw [ignore_ne hy]
  counted := by
    intro y hy
    refine ignore_ne ?_
    rintro rfl
    exact absurd (hx.symm.trans hy) Bool.noConfusion
  refcount := fun _ => Nat.le_refl _
  freed := fun _ hx => .inl hx

/-- The reference to an interned string is not counted down. -/
theorem balanced_interned (hb : Balanced m view (x :: pending)) :
    Balanced (ignore m x) view pending := by
  intro y
  have hsum := hb y
  have hslots : slots (ignore m x) view y = slots m view y := rfl
  rw [hslots]
  show m.refcount y = m.outside y + (ignore m x).ignored y + slots m view y + pending.count y
  unfold rests at hsum
  by_cases hy : y = x
  · subst hy
    rw [List.count_cons_self] at hsum
    rw [ignore_self]
    omega
  · rw [List.count_cons_of_ne (Ne.symm hy)] at hsum
    rw [ignore_ne hy]
    exact hsum

/-- The counts after one reference that was not the last one has been given up. -/
theorem balanced_decref (hb : Balanced m view (x :: pending)) (hlast : m.refcount x ≠ 1) :
    Balanced (decref m x) view pending := by
  intro y
  have hsum := hb y
  have hslots : slots (decref m x) view y = slots m view y := by
    refine slots_congr (show (decref m x).containers = m.containers from rfl) (fun id _ => ?_) y
    have hx := hb x
    rw [List.count_cons_self] at hx
    by_cases hid : Value.object id = x
    · rw [hid, decref_refcount_self]
      omega
    · rw [decref_refcount_ne hid]
  rw [hslots]
  show (decref m x).refcount y = rests m y + slots m view y + pending.count y
  by_cases hy : y = x
  · subst hy
    rw [List.count_cons_self] at hsum
    rw [decref_refcount_self]
    omega
  · rw [List.count_cons_of_ne (Ne.symm hy)] at hsum
    rw [decref_refcount_ne hy]
    exact hsum

/-- The counts after the last reference has been given up: the slots of a container are
now to be given up too. -/
theorem balanced_decref_last (hb : Balanced m view (x :: pending)) (hlast : m.refcount x = 1)
    (hview : ∀ id, x = .object id → view id = none) :
    Balanced (decref m x) view (refsOf m x ++ pending) := by
  have hzero : (decref m x).refcount x = 0 := by
    rw [decref_refcount_self, hlast]
  have hslots : ∀ y, slots (decref m x) view y + (refsOf m x).count y = slots m view y := by
    intro y
    cases x with
    | string s =>
        have hsame : (decref m (.string s)).containers = m.containers := rfl
        refine slots_congr hsame (fun id _ => ?_) y
        rw [decref_refcount_ne (show Value.object id ≠ Value.string s from nofun)]
    | object id =>
        by_cases hid : id < m.containers.length
        · have hother : ∀ id' < m.containers.length, id' ≠ id →
              heldIn (decref m (.object id)) view id' = heldIn m view id' := by
            intro id' _ hne
            refine heldIn_congr rfl ?_
            rw [decref_refcount_ne fun h => hne (Value.object.inj h)]
          have hmove := slotCount_move hid hother y
          have hnow : heldIn (decref m (.object id)) view id = [] := by
            unfold heldIn
            rw [hview id rfl]
            exact if_pos hzero
          have hbefore : heldIn m view id = refsOf m (.object id) := by
            unfold heldIn
            rw [hview id rfl]
            exact if_neg (by omega)
          rw [hnow, hbefore, List.count_nil] at hmove
          exact hmove
        · have hnone : refsOf m (.object id) = [] := by
            show ((m.containers[id]?).map Container.held).getD [] = []
            rw [List.getElem?_eq_none (by omega)]
            rfl
          rw [hnone, List.count_nil, Nat.add_zero]
          have hsame : (decref m (.object id)).containers = m.containers := rfl
          refine slots_congr hsame (fun id' hid' => ?_) y
          have hne : Value.object id' ≠ Value.object id := by
            intro h
            have := Value.object.inj h
            omega
          rw [decref_refcount_ne hne]
  intro y
  have hsum := hb y
  have hmove := hslots y
  show (decref m x).refcount y = rests m y + _ + _
  rw [List.count_append]
  by_cases hy : y = x
  · subst hy
    rw [List.count_cons_self] at hsum
    omega
  · rw [List.count_cons_of_ne (Ne.symm hy)] at hsum
    rw [decref_refcount_ne hy]
    omega

/-- Giving up a reference to `x`. -/
def Deletes (depth : Nat) (view : View) (guard : Obj → Prop) : Prop :=
  ∀ {m : Memory} {x : Obj} {pending : List Obj}, Balanced m view (x :: pending) →
    Guarded m view guard → liveContainers m < depth →
    ∃ m', deleteIn depth m x = some m' ∧ Balanced m' view pending ∧
      Guarded m' view guard ∧ Quiet m m'

theorem deletes_all {depth : Nat} (h : Deletes depth view guard) :
    ∀ {xs : List Obj} {m : Memory} {pending : List Obj}, Balanced m view (xs ++ pending) →
      Guarded m view guard → liveContainers m < depth →
      ∃ m', xs.foldlM (deleteIn depth) m = some m' ∧ Balanced m' view pending ∧
        Guarded m' view guard ∧ Quiet m m' := by
  intro xs
  induction xs with
  | nil => exact fun {m} _ hb hg _ => ⟨m, rfl, hb, hg, Quiet.refl m⟩
  | cons x xs ih =>
      intro m pending hb hg hdepth
      obtain ⟨m₁, hrun, hb₁, hg₁, hq₁⟩ := h hb hg hdepth
      have hless := liveContainers_mono hq₁
      obtain ⟨m₂, hrest, hb₂, hg₂, hq₂⟩ := ih hb₁ hg₁ (by omega)
      refine ⟨m₂, ?_, hb₂, hg₂, hq₁.trans hq₂⟩
      rw [List.foldlM_cons, hrun]
      exact hrest

theorem objFree_refcount (hzero : m.refcount x = 0) : (objFree m x).refcount = m.refcount := by
  funext y
  by_cases hy : y = x
  · rw [hy, hzero]
    exact Function.update_self _ _ _
  · exact Function.update_of_ne hy _ _

/-- An object is freed after its last reference has been given up. -/
theorem Quiet.objFree (hq : Quiet m m') (hbefore : 0 < m.refcount x)
    (hzero : m'.refcount x = 0) : Quiet m (objFree m' x) where
  containers := hq.containers
  root := hq.root
  serial := hq.serial
  interned := hq.interned
  outside := hq.outside
  ignored := hq.ignored
  counted := hq.counted
  refcount := by
    rw [objFree_refcount hzero]
    exact hq.refcount
  freed := by
    rw [objFree_refcount hzero]
    intro y hy
    rcases List.mem_cons.1 hy with rfl | hy
    · exact .inr ⟨hzero, hbefore⟩
    · exact hq.freed y hy

theorem balanced_objFree (hb : Balanced m view pending) (hzero : m.refcount x = 0) :
    Balanced (objFree m x) view pending := by
  intro y
  have hsame : (objFree m x).containers = m.containers := rfl
  rw [slots_congr hsame (fun id _ => by rw [objFree_refcount hzero]) y, objFree_refcount hzero]
  exact hb y

theorem deleteIn_spec : ∀ depth, Deletes depth view guard := by
  intro depth
  induction depth with
  | zero =>
      intro m x pending _ _ hdepth
      omega
  | succ depth ih =>
      intro m x pending hb hg hdepth
      have hx := hb x
      rw [List.count_cons_self] at hx
      unfold deleteIn
      by_cases hinterned : m.interned x = true
      · rw [if_pos hinterned]
        refine ⟨_, rfl, balanced_interned hb, hg.quiet hb (quiet_ignore hinterned) fun y hy => ?_,
          quiet_ignore hinterned⟩
        exact Nat.lt_of_le_of_lt (Nat.zero_le _) (hg.alive hb hy)
      rw [if_neg hinterned, if_neg (by omega : m.refcount x ≠ 0)]
      dsimp only
      have hguard : ∀ y, guard y → 0 < (decref m x).refcount y := by
        intro y hy
        have halive := hg.alive hb hy
        by_cases hyx : y = x
        · rw [hyx] at halive ⊢
          rw [List.count_cons_self] at halive
          rw [decref_refcount_self]
          omega
        · rw [decref_refcount_ne hyx]
          omega
      have hg₁ : Guarded (decref m x) view guard := hg.quiet hb (quiet_decref m x) hguard
      by_cases hlast : m.refcount x = 1
      · have hzero : (decref m x).refcount x = 0 := by
          rw [decref_refcount_self, hlast]
        rw [if_pos hzero]
        have hview : ∀ id, x = .object id → view id = none := by
          intro id hid
          by_contra hseen
          have := hguard _ (hg.seen id hseen)
          rw [← hid] at this
          omega
        have hb₁ := balanced_decref_last hb hlast hview
        -- a container that is not there has nothing to go through
        obtain ⟨m', hrun, hb', hg', hq'⟩ : ∃ m', (refsOf m x).foldlM (deleteIn depth)
            (decref m x) = some m' ∧ Balanced m' view pending ∧ Guarded m' view guard ∧
            Quiet (decref m x) m' := by
          cases hrefs : refsOf m x with
          | nil =>
              rw [hrefs] at hb₁
              exact ⟨_, rfl, hb₁, hg₁, Quiet.refl _⟩
          | cons y ys =>
              rw [hrefs] at hb₁
              refine deletes_all ih hb₁ hg₁ ?_
              cases x with
              | string s => exact absurd hrefs nofun
              | object id =>
                  have hid : id < m.containers.length := by
                    by_contra hid
                    have hnone : refsOf m (.object id) = [] := by
                      show ((m.containers[id]?).map Container.held).getD [] = []
                      rw [List.getElem?_eq_none (by omega)]
                      rfl
                    rw [hnone] at hrefs
                    exact absurd hrefs nofun
                  have hsame : (decref m (.object id)).containers = m.containers := rfl
                  have hless := liveContainers_lt hsame (quiet_decref m _).refcount hid
                    (by omega) hzero
                  omega
        have hzero' : m'.refcount x = 0 := by
          have := hq'.refcount x
          omega
        have hrefs : refsOf (decref m x) x = refsOf m x := rfl
        rw [hrefs, hrun]
        have hqf : Quiet m (objFree m' x) :=
          ((quiet_decref m x).trans hq').objFree (by omega) hzero'
        refine ⟨_, rfl, balanced_objFree hb' hzero', hg.quiet hb hqf fun y hy => ?_, hqf⟩
        rw [objFree_refcount hzero']
        exact Nat.lt_of_le_of_lt (Nat.zero_le _) (hg'.alive hb' hy)
      · have hmore : (decref m x).refcount x ≠ 0 := by
          rw [decref_refcount_self]
          omega
        rw [if_neg hmore]
        exact ⟨_, rfl, balanced_decref hb hlast, hg₁, quiet_decref m x⟩

theorem delete_spec (hb : Balanced m view (x :: pending)) (hg : Guarded m view guard) :
    ∃ m', delete m x = some m' ∧ Balanced m' view pending ∧ Guarded m' view guard ∧ Quiet m m' :=
  deleteIn_spec _ hb hg (Nat.lt_succ_of_le (liveContainers_le m))

theorem deleteAll_spec : ∀ {xs : List Obj} {m : Memory} {pending : List Obj},
    Balanced m view (xs ++ pending) → Guarded m view guard →
    ∃ m', xs.foldlM delete m = some m' ∧ Balanced m' view pending ∧ Guarded m' view guard ∧
      Quiet m m' := by
  intro xs
  induction xs with
  | nil => exact fun {m} _ hb hg => ⟨m, rfl, hb, hg, Quiet.refl m⟩
  | cons x xs ih =>
      intro m pending hb hg
      obtain ⟨m₁, hrun, hb₁, hg₁, hq₁⟩ := delete_spec hb hg
      obtain ⟨m₂, hrest, hb₂, hg₂, hq₂⟩ := ih hb₁ hg₁
      refine ⟨m₂, ?_, hb₂, hg₂, hq₁.trans hq₂⟩
      rw [List.foldlM_cons, hrun]
      exact hrest

theorem guarded_nothing (m : Memory) : Guarded m noView fun _ => False where
  seen := fun _ h => absurd rfl h
  inside := fun _ h => h.elim
  held := fun _ h => h.elim

/-! ## What holds besides the balance -/

/-- All string objects of the tree. -/
def KeyTree.All (p : StringObject → Prop) : KeyTree → Prop
  | .none => True
  | .node _ sstr left right => p sstr ∧ left.All p ∧ right.All p

theorem KeyTree.All.mono {p q : StringObject → Prop} (h : ∀ s, p s → q s) :
    ∀ {t : KeyTree}, t.All p → t.All q
  | .none, _ => trivial
  | .node _ _ _ _, ⟨hs, hl, hr⟩ => ⟨h _ hs, hl.mono h, hr.mono h⟩

/-- An object that has been made. -/
def Made (m : Memory) : Obj → Prop
  | .string s => s.serial < m.serial
  | .object id => id < m.containers.length

/-- The strings of the tree are interned, and the tree holds them. -/
def TreeHolds (m : Memory) (s : StringObject) : Prop :=
  s.serial < m.serial ∧ m.interned (.string s) = true ∧ 0 < rests m (.string s)

structure Sane (m : Memory) : Prop where
  freed : ∀ x ∈ m.freed, m.refcount x = 0 ∧ Made m x
  made : ∀ x, ¬ Made m x → m.refcount x = 0
  texts : m.root.Texts
  tree : m.root.All (TreeHolds m)
  ignored : ∀ x, m.interned x = false → m.ignored x = 0
  bounded : ∀ x, m.refcount x < countLimit
  hashes : ∀ (id : Nat) (h : Hash Obj), m.containers[id]? = some (.hash h) → h.Stored

/-- What holds between two operations. -/
structure Memory.Kept (m : Memory) : Prop extends Sane m where
  balanced : Balanced m noView []

/-- An object with a count is there. -/
theorem Sane.notFreed (hs : Sane m) (hx : 0 < m.refcount x) : x ∉ m.freed := by
  intro hmem
  have := (hs.freed x hmem).1
  omega

theorem Sane.madeOf (hs : Sane m) (hx : 0 < m.refcount x) : Made m x := by
  by_contra hnot
  have := hs.made x hnot
  omega

theorem made_congr (hcontainers : m'.containers.length = m.containers.length)
    (hserial : m'.serial = m.serial) : Made m' x ↔ Made m x := by
  cases x with
  | string s =>
      show s.serial < m'.serial ↔ s.serial < m.serial
      rw [hserial]
  | object id =>
      show id < m'.containers.length ↔ id < m.containers.length
      rw [hcontainers]

theorem Sane.quiet (hs : Sane m) (hq : Quiet m m') : Sane m' where
  freed := by
    intro x hx
    have hmade := made_congr (x := x) (congrArg List.length hq.containers) hq.serial
    rcases hq.freed x hx with hx | ⟨hzero, hpos⟩
    · have hle := hq.refcount x
      have hbefore := hs.freed x hx
      exact ⟨by omega, hmade.2 hbefore.2⟩
    · exact ⟨hzero, hmade.2 (hs.madeOf hpos)⟩
  made := by
    intro x hx
    have hmade := made_congr (x := x) (congrArg List.length hq.containers) hq.serial
    have hle := hq.refcount x
    have hbefore := hs.made x fun h => hx (hmade.2 h)
    omega
  texts := by
    rw [hq.root]
    exact hs.texts
  tree := by
    rw [hq.root]
    refine hs.tree.mono fun s hold => ?_
    refine ⟨?_, ?_, Nat.lt_of_lt_of_le hold.2.2 (hq.rests _)⟩
    · rw [hq.serial]
      exact hold.1
    · rw [hq.interned]
      exact hold.2.1
  ignored := by
    intro x hx
    rw [hq.interned] at hx
    exact (hq.counted x hx).trans (hs.ignored x hx)
  bounded := fun x => Nat.lt_of_le_of_lt (hq.refcount x) (hs.bounded x)
  hashes := by
    rw [hq.containers]
    exact hs.hashes

theorem getList_of {lo : Nat} {items : List Obj} (hs : Sane m)
    (hc : m.containers[lo]? = some (.list items)) (hlive : 0 < m.refcount (.object lo)) :
    getList m lo = some items := by
  unfold getList
  rw [if_neg (hs.notFreed hlive), hc]

theorem getHash_of {ho : Nat} {h : Hash Obj} (hs : Sane m)
    (hc : m.containers[ho]? = some (.hash h)) (hlive : 0 < m.refcount (.object ho)) :
    getHash m ho = some h := by
  unfold getHash
  rw [if_neg (hs.notFreed hlive), hc]

/-! ## Seeing a container with other slots -/

theorem lt_of_container {lo : Nat} {c : Container} (hc : m.containers[lo]? = some c) :
    lo < m.containers.length := (List.getElem?_eq_some_iff.1 hc).1

theorem refsOf_container {lo : Nat} {c : Container} (hc : m.containers[lo]? = some c) :
    refsOf m (.object lo) = c.held := by
  show ((m.containers[lo]?).map Container.held).getD [] = _
  rw [hc]
  rfl

theorem heldIn_noView {lo : Nat} (hlive : 0 < m.refcount (.object lo)) :
    heldIn m noView lo = refsOf m (.object lo) := if_neg (by omega)

theorem heldIn_viewOf_self (m : Memory) (lo : Nat) (kept : List Obj) :
    heldIn m (viewOf lo kept) lo = kept := by
  unfold heldIn viewOf
  rw [if_pos rfl]

theorem heldIn_viewOf_ne {lo id : Nat} (kept : List Obj) (hne : id ≠ lo) :
    heldIn m (viewOf lo kept) id = heldIn m noView id := by
  unfold heldIn viewOf noView
  rw [if_neg hne]

/-- Slots that are to be given up are taken out of sight. -/
theorem Balanced.toView {lo : Nat} {c : Container} {kept given : List Obj}
    (hb : Balanced m noView pending) (hc : m.containers[lo]? = some c)
    (hlive : 0 < m.refcount (.object lo))
    (hcount : ∀ y, c.held.count y = given.count y + kept.count y) :
    Balanced m (viewOf lo kept) (given ++ pending) := by
  intro y
  have hsum := hb y
  have hmove := @slotCount_move _ _ (heldIn m noView) (heldIn m (viewOf lo kept)) _ _
    (lt_of_container hc) (fun id _ hne => (heldIn_viewOf_ne kept hne).symm) y
  rw [heldIn_viewOf_self, heldIn_noView hlive, refsOf_container hc, hcount] at hmove
  rw [List.count_append]
  unfold slots at hsum ⊢
  omega

theorem incref_self (h : m.refcount x + 1 < countLimit) :
    (incref m x).refcount x = m.refcount x + 1 :=
  (Function.update_self _ _ _).trans (Nat.mod_eq_of_lt h)

theorem incref_ne {y : Obj} (h : y ≠ x) : (incref m x).refcount y = m.refcount y :=
  Function.update_of_ne h _ _

theorem incref_bounded (h : ∀ y, m.refcount y < countLimit) (y : Obj) :
    (incref m x).refcount y < countLimit := by
  by_cases hy : y = x
  · have hpos : 0 < countLimit := by decide
    rw [hy]
    show Function.update m.refcount x _ x < _
    rw [Function.update_self]
    exact Nat.mod_lt _ hpos
  · rw [incref_ne hy]
    exact h y

/-- More references than a count can hold do not come. -/
def Fits (m : Memory) (xs : List Obj) : Prop := ∀ y, m.refcount y + xs.count y < countLimit

theorem Fits.quiet {xs : List Obj} (h : Fits m xs) (hq : Quiet m m') : Fits m' xs := fun y =>
  Nat.lt_of_le_of_lt (Nat.add_le_add_right (hq.refcount y) _) (h y)

theorem foldl_incref_refcount {xs : List Obj} : ∀ {m : Memory}, Fits m xs → ∀ y,
    (xs.foldl incref m).refcount y = m.refcount y + xs.count y := by
  induction xs with
  | nil => exact fun _ _ => rfl
  | cons x xs ih =>
      intro m h
      have hone : ∀ y, (incref m x).refcount y + xs.count y = m.refcount y + (x :: xs).count y := by
        intro y
        have hy := h y
        by_cases he : y = x
        · subst he
          rw [List.count_cons_self] at hy ⊢
          rw [incref_self (by omega)]
          omega
        · rw [List.count_cons_of_ne (Ne.symm he), incref_ne he]
      intro y
      rw [List.foldl_cons, ih (fun z => (hone z).symm ▸ h z)]
      exact hone y

/-- `Incref` changes nothing but counts. -/
theorem foldl_incref_eq (xs : List Obj) (m : Memory) :
    xs.foldl incref m = { m with refcount := (xs.foldl incref m).refcount } := by
  induction xs generalizing m with
  | nil => rfl
  | cons x xs ih =>
      rw [List.foldl_cons, ih]
      rfl

/-- Objects that can be put into a slot: what has a count, and strings. -/
def Storable (m : Memory) (x : Obj) : Prop := 0 < m.refcount x ∨ ∃ s, x = .string s

/-- A container gets new slots, which are counted up: the ones that it was seen with,
and some more. -/
theorem Balanced.fill {lo : Nat} {c : Container} {kept extra : List Obj}
    (hb : Balanced m (viewOf lo kept) pending) (hid : lo < m.containers.length)
    (hlive : 0 < m.refcount (.object lo))
    (hcount : ∀ y, c.held.count y = kept.count y + extra.count y)
    (hextra : ∀ y ∈ extra, Storable m y) (hfits : Fits m extra) :
    Balanced (extra.foldl incref (setContainer m lo c)) noView pending := by
  intro y
  have hsum := hb y
  have hrefcount := foldl_incref_refcount (m := setContainer m lo c) hfits
  have hcontainers : (extra.foldl incref (setContainer m lo c)).containers =
      m.containers.set lo c := by rw [foldl_incref_eq]; rfl
  have hrests : ∀ x, rests (extra.foldl incref (setContainer m lo c)) x = rests m x := by
    intro x
    rw [foldl_incref_eq]
    rfl
  have hold : ∀ id, (setContainer m lo c).refcount (.object id) = m.refcount (.object id) :=
    fun _ => rfl
  have hother : ∀ id < m.containers.length, id ≠ lo →
      heldIn m (viewOf lo kept) id = heldIn (extra.foldl incref (setContainer m lo c)) noView id := by
    intro id _ hne
    rw [heldIn_viewOf_ne kept hne]
    unfold heldIn refsOf noView
    dsimp only
    rw [hcontainers, List.getElem?_set_ne (Ne.symm hne), hrefcount, hold]
    by_cases hzero : m.refcount (.object id) = 0
    · have hnot : (Value.object id : Obj) ∉ extra := by
        intro hmem
        rcases hextra _ hmem with hpos | ⟨s, hs⟩
        · omega
        · exact absurd hs nofun
      rw [List.count_eq_zero_of_not_mem hnot, if_pos hzero, if_pos (by omega)]
    · rw [if_neg hzero, if_neg (by omega)]
  have hself : heldIn (extra.foldl incref (setContainer m lo c)) noView lo = c.held := by
    have hpos : 0 < (extra.foldl incref (setContainer m lo c)).refcount (.object lo) := by
      rw [hrefcount, hold]
      omega
    have hget : (extra.foldl incref (setContainer m lo c)).containers[lo]? = some c := by
      rw [hcontainers, List.getElem?_set_self hid]
    rw [heldIn_noView hpos, refsOf_container hget]
  have hmove := slotCount_move hid hother y
  rw [hself, heldIn_viewOf_self, hcount] at hmove
  rw [hrefcount, hrests]
  show m.refcount y + _ = _
  unfold slots at hsum ⊢
  rw [hcontainers, List.length_set]
  omega

/-- What the caller's checks and the operation itself do not lose. -/
theorem Sane.fill {lo : Nat} {c : Container} {extra : List Obj} (hs : Sane m)
    (hextra : ∀ y ∈ extra, y ∉ m.freed ∧ Made m y)
    (hc : ∀ h, c = .hash h → h.Stored) (hfits : Fits m extra) :
    Sane (extra.foldl incref (setContainer m lo c)) := by
  have hrefcount := foldl_incref_refcount (m := setContainer m lo c) hfits
  have hmade : ∀ y, Made (extra.foldl incref (setContainer m lo c)) y ↔ Made m y := by
    intro y
    refine made_congr ?_ ?_
    · rw [foldl_incref_eq]
      exact List.length_set
    · rw [foldl_incref_eq]
      rfl
  have hsame : ∀ y, y ∉ extra →
      (extra.foldl incref (setContainer m lo c)).refcount y = m.refcount y := by
    intro y hy
    rw [hrefcount, List.count_eq_zero_of_not_mem hy]
    rfl
  refine ⟨?_, ?_, ?_, ?_, ?_, ?_, ?_⟩
  · intro y hy
    rw [foldl_incref_eq] at hy
    have hnot : y ∉ extra := fun hmem => (hextra y hmem).1 hy
    rw [hsame y hnot, hmade]
    exact hs.freed y hy
  · intro y hy
    rw [hmade] at hy
    have hnot : y ∉ extra := fun hmem => hy (hextra y hmem).2
    rw [hsame y hnot]
    exact hs.made y hy
  · rw [foldl_incref_eq]
    exact hs.texts
  · rw [foldl_incref_eq]
    exact hs.tree
  · rw [foldl_incref_eq]
    exact hs.ignored
  · intro y
    rw [hrefcount]
    exact hfits y
  · intro id h hget
    rw [foldl_incref_eq] at hget
    replace hget : (m.containers.set lo c)[id]? = some (.hash h) := hget
    rw [List.getElem?_set] at hget
    split at hget
    · split at hget
      · exact hc h (Option.some.inj hget)
      · exact absurd hget nofun
    · exact hs.hashes id h hget

/-- An object that an operation may put into a slot. -/
structure Usable (m : Memory) (x : Obj) : Prop where
  storable : Storable m x
  notFreed : x ∉ m.freed
  made : Made m x

theorem Sane.usable (hs : Sane m) (hx : 0 < m.refcount x) : Usable m x :=
  ⟨.inl hx, hs.notFreed hx, hs.madeOf hx⟩

/-- The operation on a container, from the moment at which its slots have been given
up. -/
theorem Memory.Kept.fill {lo : Nat} {c : Container} {kept extra : List Obj} (hs : Sane m)
    (hb : Balanced m (viewOf lo kept) []) (hid : lo < m.containers.length)
    (hlive : 0 < m.refcount (.object lo))
    (hcount : ∀ y, c.held.count y = kept.count y + extra.count y)
    (hextra : ∀ y ∈ extra, Usable m y) (hc : ∀ h, c = .hash h → h.Stored)
    (hfits : Fits m extra) : Memory.Kept (extra.foldl incref (setContainer m lo c)) where
  toSane := hs.fill (fun y hy => ⟨(hextra y hy).notFreed, (hextra y hy).made⟩) hc hfits
  balanced := hb.fill hid hlive hcount (fun y hy => (hextra y hy).storable) hfits

theorem Sane.setContainer {lo : Nat} {c : Container} (hs : Sane m)
    (hc : ∀ h, c = .hash h → h.Stored) : Sane (setContainer m lo c) := by
  have h : Sane (([] : List Obj).foldl incref (Doh.setContainer m lo c)) :=
    hs.fill (fun y hy => absurd hy List.not_mem_nil) hc hs.bounded
  exact h

/-- The container keeps just the slots that it was seen with. -/
theorem kept_setContainer {lo : Nat} {c : Container} {kept : List Obj} (hs : Sane m)
    (hb : Balanced m (viewOf lo kept) []) (hid : lo < m.containers.length)
    (hlive : 0 < m.refcount (.object lo)) (hcount : ∀ y, c.held.count y = kept.count y)
    (hc : ∀ h, c = .hash h → h.Stored) : (setContainer m lo c).Kept := by
  have h : Memory.Kept (([] : List Obj).foldl incref (Doh.setContainer m lo c)) :=
    Memory.Kept.fill hs hb hid hlive hcount (fun y hy => absurd hy List.not_mem_nil) hc hs.bounded
  exact h

/-! ## New objects -/

/-- What making objects leaves as it was. -/
structure Extends (m m' : Memory) : Prop where
  containers : m'.containers = m.containers
  freed : m'.freed = m.freed
  serial : m.serial ≤ m'.serial
  rests : ∀ x, rests m x ≤ rests m' x
  refcount : ∀ x, m.refcount x ≤ m'.refcount x
  few : ∀ x, m'.refcount x ≤ max (m.refcount x) 1
  object : ∀ id, m'.refcount (.object id) = m.refcount (.object id)

theorem Extends.refl (m : Memory) : Extends m m :=
  ⟨rfl, rfl, Nat.le_refl _, fun _ => Nat.le_refl _, fun _ => Nat.le_refl _,
    fun _ => Nat.le_max_left _ _, fun _ => rfl⟩

theorem Extends.trans (h : Extends m m') (h' : Extends m' m'') : Extends m m'' where
  containers := h'.containers.trans h.containers
  freed := h'.freed.trans h.freed
  serial := Nat.le_trans h.serial h'.serial
  rests := fun x => Nat.le_trans (h.rests x) (h'.rests x)
  refcount := fun x => Nat.le_trans (h.refcount x) (h'.refcount x)
  few := by
    intro x
    have hfirst := h.few x
    have hsecond := h'.few x
    omega
  object := fun id => (h'.object id).trans (h.object id)

theorem Guarded.extend (hg : Guarded m view guard) (he : Extends m m') :
    Guarded m' view guard where
  seen := hg.seen
  inside := by
    rw [he.containers]
    exact hg.inside
  held := by
    intro x hx
    rcases hg.held x hx with hout | ⟨id, hid, hmem⟩
    · exact .inl (Nat.lt_of_lt_of_le hout (he.rests x))
    · refine .inr ⟨id, hid, ?_⟩
      rw [heldIn_congr he.containers (by rw [he.object])]
      exact hmem

theorem rests_hold (x y : Obj) : rests m y ≤ rests (holdOutside (incref m x) x) y :=
  Nat.add_le_add_right (holdOutside_le (incref m x) x y) _

/-- A reference that is held outside from now on. -/
theorem balanced_hold (hb : Balanced m noView pending) (hx : Storable m x)
    (hfits : m.refcount x + 1 < countLimit) :
    Balanced (holdOutside (incref m x) x) noView pending := by
  intro y
  have hsum := hb y
  have hsame : (holdOutside (incref m x) x).containers = m.containers := rfl
  rw [slots_congr hsame (fun id _ => ?_) y]
  · show (incref m x).refcount y =
      (holdOutside (incref m x) x).outside y + m.ignored y + _ + _
    unfold rests at hsum
    by_cases hy : y = x
    · rw [hy] at hsum ⊢
      rw [incref_self hfits, holdOutside_self]
      show _ = m.outside x + 1 + m.ignored x + _ + _
      omega
    · rw [incref_ne hy, holdOutside_ne hy]
      exact hsum
  · show (incref m x).refcount (.object id) = 0 ↔ _
    by_cases hid : Value.object id = x
    · rcases hx with hpos | ⟨s, hs⟩
      · rw [hid, incref_self hfits]
        omega
      · exact absurd (hid.trans hs) nofun
    · rw [incref_ne hid]

/-- A string object that has not been there. -/
theorem Sane.freshString {s : StringObject} {interned : Obj → Bool} {root : KeyTree} (hs : Sane m)
    (hserial : s.serial = m.serial) (hmore : ∀ y, interned y = false → m.interned y = false)
    (htexts : root.Texts) (htree : root.All (TreeHolds { holdOutside (incref m (.string s)) (.string s) with
      interned := interned, root := root, serial := m.serial + 1 })) :
    Sane { holdOutside (incref m (.string s)) (.string s) with
      interned := interned, root := root, serial := m.serial + 1 } where
  freed := by
    intro y hy
    obtain ⟨hzero, hmade⟩ := hs.freed y hy
    have hne : y ≠ .string s := by
      rintro rfl
      replace hmade : s.serial < m.serial := hmade
      omega
    refine ⟨(incref_ne hne).trans hzero, ?_⟩
    cases y with
    | string s' => exact Nat.lt_succ_of_lt hmade
    | object id => exact hmade
  made := by
    intro y hy
    have hne : y ≠ .string s := by
      rintro rfl
      exact hy (hserial ▸ Nat.lt_succ_self m.serial)
    refine (incref_ne hne).trans (hs.made y fun hmade => hy ?_)
    cases y with
    | string s' => exact Nat.lt_succ_of_lt hmade
    | object id => exact hmade
  texts := htexts
  tree := htree
  ignored := fun y hy => hs.ignored y (hmore y hy)
  bounded := incref_bounded hs.bounded
  hashes := hs.hashes

theorem Sane.fits_one (hs : Sane m) (hx : m.refcount x + 1 < countLimit) : Fits m [x] := by
  intro y
  rw [List.count_singleton]
  split
  · rename_i hy
    rw [← show x = y by simpa using hy]
    exact hx
  · exact hs.bounded y

/-- A count that is none can be counted up. -/
theorem Sane.fits_new (hs : Sane m) (hx : ¬ Made m x) : m.refcount x + 1 < countLimit := by
  rw [hs.made x hx]
  decide

theorem treeHolds_mono {s : StringObject} (h : TreeHolds m s) (hserial : m.serial ≤ m'.serial)
    (hinterned : ∀ s', s'.serial < m.serial → m'.interned (.string s') = m.interned (.string s'))
    (hrests : ∀ x, rests m x ≤ rests m' x) : TreeHolds m' s :=
  ⟨Nat.lt_of_lt_of_le h.1 hserial, (hinterned s h.1).trans h.2.1,
    Nat.lt_of_lt_of_le h.2.2 (hrests _)⟩

theorem newString_kept (hk : m.Kept) (c : List Char) :
    Memory.Kept (holdOutside (allocString m c).1 (allocString m c).2) where
  toSane := by
    refine hk.toSane.freshString rfl (fun _ h => h) hk.texts (hk.tree.mono fun s hold => ?_)
    exact treeHolds_mono hold (Nat.le_succ _) (fun _ _ => rfl) (rests_hold _)
  balanced := balanced_hold hk.balanced (.inr ⟨_, rfl⟩)
    (hk.toSane.fits_new (x := .string (newString m.serial c)) (Nat.lt_irrefl m.serial))

/-- A further reference to an object. -/
theorem hold_kept (hk : m.Kept) (hx : 0 < m.refcount x) (hfits : m.refcount x + 1 < countLimit) :
    (holdOutside (incref m x) x).Kept where
  freed := by
    intro y hy
    have hne : y ≠ x := by
      rintro rfl
      exact hk.notFreed hx hy
    exact ⟨(incref_ne hne).trans (hk.freed y hy).1, (hk.freed y hy).2⟩
  made := by
    intro y hy
    have hne : y ≠ x := by
      rintro rfl
      exact hy (hk.madeOf hx)
    exact (incref_ne hne).trans (hk.made y hy)
  texts := hk.texts
  tree := by
    exact hk.tree.mono fun s hold =>
      ⟨hold.1, hold.2.1, Nat.lt_of_lt_of_le hold.2.2 (rests_hold x _)⟩
  ignored := hk.ignored
  bounded := incref_bounded hk.bounded
  hashes := hk.hashes
  balanced := balanced_hold hk.balanced (.inl hx) hfits

theorem findKey_all {p : StringObject → Prop} {serial : Nat} {c : List Char} {t : KeyTree}
    (ht : t.All p) (hnew : p (newString serial c)) :
    (findKey serial c t).1.All p ∧ p (findKey serial c t).2 := by
  induction t with
  | none => exact ⟨⟨hnew, trivial, trivial⟩, hnew⟩
  | node cstr sstr left right ihl ihr =>
      obtain ⟨hs, hl, hr⟩ := ht
      unfold findKey
      dsimp only
      split
      · exact ⟨⟨hs, hl, hr⟩, hs⟩
      · split
        · exact ⟨⟨hs, (ihl hl).1, hr⟩, (ihl hl).2⟩
        · exact ⟨⟨hs, hl, (ihr hr).1⟩, (ihr hr).2⟩

theorem internKey_spec (hk : m.Kept) (c : List Char) :
    (internKey m c).1.Kept ∧ Extends m (internKey m c).1 ∧
      0 < (internKey m c).1.refcount (.string (internKey m c).2) ∧ (internKey m c).2.text = c := by
  have htext := (@findKey_texts m.serial c _ hk.texts).2.1
  obtain ⟨hall, hfound⟩ := @findKey_all _ m.serial c _
    (hk.tree.mono fun s hs => (Or.inl hs : TreeHolds m s ∨ s = newString m.serial c)) (.inr rfl)
  unfold internKey
  dsimp only
  by_cases hserial : (findKey m.serial c m.root).2.serial = m.serial
  · rw [if_pos hserial]
    have hnew : (findKey m.serial c m.root).2 = newString m.serial c := by
      rcases hfound with hold | hnew
      · have := hold.1
        omega
      · exact hnew
    rw [hnew]
    have hfits := hk.toSane.fits_new (x := .string (newString m.serial c)) (Nat.lt_irrefl m.serial)
    have hzero := hk.made (.string (newString m.serial c)) (Nat.lt_irrefl m.serial)
    refine ⟨⟨?_, balanced_hold hk.balanced (.inr ⟨_, rfl⟩) hfits⟩,
      ⟨rfl, rfl, Nat.le_succ _, rests_hold _, ?_, ?_, ?_⟩, ?_, rfl⟩
    · refine hk.toSane.freshString rfl (fun y hy => ?_) (findKey_texts hk.texts).1
        (hall.mono fun s hs => ?_)
      · by_cases hnew : y = .string (newString m.serial c)
        · rw [hnew, Function.update_self] at hy
          cases hy
        · rwa [Function.update_of_ne hnew] at hy
      rcases hs with hold | rfl
      · refine treeHolds_mono hold (Nat.le_succ _) (fun s' hs' => ?_) (rests_hold _)
        refine Function.update_of_ne ?_ _ _
        intro heq
        have := congrArg StringObject.serial (Value.string.inj heq)
        replace this : s'.serial = m.serial := this
        omega
      · refine ⟨Nat.lt_succ_self _, Function.update_self _ _ _, ?_⟩
        show 0 < (holdOutside _ _).outside _ + m.ignored _
        rw [holdOutside_self]
        omega
    · intro y
      show m.refcount y ≤ (incref m _).refcount y
      by_cases hy : y = .string (newString m.serial c)
      · rw [hy, incref_self hfits]
        omega
      · rw [incref_ne hy]
    · intro y
      show (incref m _).refcount y ≤ _
      by_cases hy : y = .string (newString m.serial c)
      · rw [hy, incref_self hfits]
        omega
      · rw [incref_ne hy]
        exact Nat.le_max_left _ _
    · intro id
      have hne : (Value.object id : Obj) ≠ .string (newString m.serial c) := nofun
      exact incref_ne (m := m) hne
    · show 0 < (incref m _).refcount _
      rw [incref_self hfits]
      omega
  · rw [if_neg hserial]
    refine ⟨hk, Extends.refl m, ?_, htext⟩
    rcases hfound with hold | hnew
    · have := hk.balanced (.string (findKey m.serial c m.root).2)
      have := hold.2.2
      show 0 < m.refcount (.string (findKey m.serial c m.root).2)
      omega
    · exact absurd (congrArg StringObject.serial hnew) hserial

/-! ## What a caller has to see to -/

/-- A list that is there. -/
def IsList (m : Memory) (lo : Nat) (items : List Obj) : Prop :=
  m.containers[lo]? = some (.list items) ∧ 0 < m.refcount (.object lo)

def IsHash (m : Memory) (ho : Nat) (h : Hash Obj) : Prop :=
  m.containers[ho]? = some (.hash h) ∧ 0 < m.refcount (.object ho)

/-- An object that is given as an argument is there. -/
def ValueArg.Live (m : Memory) : ValueArg Nat → Prop
  | .object x => 0 < m.refcount x
  | _ => True

def KeyArg.Live (m : Memory) : KeyArg → Prop
  | .object k => 0 < m.refcount (.string k)
  | .cstring _ => True

theorem keyOf_spec (hk : m.Kept) {k : KeyArg} (hlive : k.Live m) :
    (keyOf m k).1.Kept ∧ Extends m (keyOf m k).1 ∧
      0 < (keyOf m k).1.refcount (.string (keyOf m k).2) ∧ (keyOf m k).2.text = k.text := by
  cases k with
  | object k => exact ⟨hk, Extends.refl m, hlive, rfl⟩
  | cstring c => exact internKey_spec hk c

theorem valueOf_cstring (hs : Sane m) (c : List Char) :
    valueOf m (.cstring c) =
      ({ m with serial := m.serial + 1 }, some (.string (newString m.serial c))) := by
  have hsame : (decref (allocString m c).1 (allocString m c).2).refcount = m.refcount := by
    funext y
    by_cases hy : y = .string (newString m.serial c)
    · rw [hy]
      refine (decref_refcount_self _ _).trans ?_
      show (incref m (.string (newString m.serial c))).refcount
        (.string (newString m.serial c)) - 1 = _
      rw [incref_self (hs.fits_new (x := .string (newString m.serial c)) (Nat.lt_irrefl m.serial))]
      omega
    · exact (decref_refcount_ne hy).trans (incref_ne hy)
  show (decref (allocString m c).1 (allocString m c).2, _) = _
  refine Prod.ext ?_ rfl
  show { decref (allocString m c).1 (allocString m c).2 with
    refcount := (decref (allocString m c).1 (allocString m c).2).refcount } = _
  rw [hsame]
  rfl

/-- The value is there to be used, and one that was given as an object is that object. -/
theorem valueOf_spec (hk : m.Kept) {arg : ValueArg Nat} (hlive : arg.Live m) :
    (valueOf m arg).1.Kept ∧ Extends m (valueOf m arg).1 ∧
      ∀ x, (valueOf m arg).2 = some x → Usable (valueOf m arg).1 x ∧
        (arg = .object x ∨ ∃ s, x = .string s ∧ (valueOf m arg).1.refcount x = 0) := by
  cases arg with
  | null => exact ⟨hk, Extends.refl m, nofun⟩
  | object x =>
      refine ⟨hk, Extends.refl m, fun y hy => ?_⟩
      rw [← Option.some.inj hy]
      exact ⟨hk.toSane.usable hlive, .inl rfl⟩
  | cstring c =>
      rw [valueOf_cstring hk.toSane]
      have hmade : ∀ y, Made m y → Made { m with serial := m.serial + 1 } y := by
        intro y hy
        cases y with
        | string s => exact Nat.lt_succ_of_lt hy
        | object id => exact hy
      refine ⟨⟨⟨?_, ?_, hk.texts, ?_, hk.ignored, hk.bounded, hk.hashes⟩, hk.balanced⟩,
        ⟨rfl, rfl, Nat.le_succ _, fun _ => Nat.le_refl _, fun _ => Nat.le_refl _,
          fun _ => Nat.le_max_left _ _, fun _ => rfl⟩, ?_⟩
      · exact fun y hy => ⟨(hk.freed y hy).1, hmade y (hk.freed y hy).2⟩
      · exact fun y hy => hk.made y fun h => hy (hmade y h)
      · exact hk.tree.mono fun s hold => ⟨Nat.lt_succ_of_lt hold.1, hold.2⟩
      · intro x hx
        rw [← Option.some.inj hx]
        refine ⟨⟨.inr ⟨_, rfl⟩, ?_, Nat.lt_succ_self _⟩, .inr ⟨_, rfl, ?_⟩⟩
        rotate_left
        · exact hk.made _ (Nat.lt_irrefl m.serial)
        intro hmem
        exact absurd (hk.freed _ hmem).2 (Nat.lt_irrefl m.serial)

/-! ## The operations on lists -/

/-- Giving up some slots of a container does not free what is `needed`: it is kept by
objects that are held outside or by each other, the slots apart that are given up. -/
def Survives (m : Memory) (lo : Nat) (kept : List Obj) (needed : List Obj) : Prop :=
  ∃ guard : Obj → Prop, Guarded m (viewOf lo kept) guard ∧ ∀ x ∈ needed, guard x

/-- The counts of a container that is seen as it is. -/
theorem Balanced.toView_held {lo : Nat} {c : Container} (hb : Balanced m noView pending)
    (hc : m.containers[lo]? = some c) (hlive : 0 < m.refcount (.object lo)) :
    Balanced m (viewOf lo c.held) pending := by
  have h : Balanced m (viewOf lo c.held) ([] ++ pending) :=
    hb.toView hc hlive fun y => by rw [List.count_nil, Nat.zero_add]
  exact h

theorem listInsert_kept (hk : m.Kept) {lo : Nat} {items : List Obj} {pos : Int}
    {item : ValueArg Nat} (hlist : IsList m lo items) (hlive : item.Live m)
    (hfits : ∀ x, item = .object x → m.refcount x + 1 < countLimit) :
    ∃ m', listInsert m lo pos item = some m' ∧ m'.Kept := by
  obtain ⟨hk₁, he, hvalue⟩ := valueOf_spec hk hlive
  unfold listInsert
  rw [getList_of hk.toSane hlist.1 hlist.2]
  cases hitem : valueOf m item with
  | mk m₁ x =>
      rw [hitem] at hk₁ he hvalue
      cases x with
      | none => exact ⟨m₁, rfl, hk₁⟩
      | some x =>
          obtain ⟨husable, hgiven⟩ := hvalue x rfl
          have hone : m₁.refcount x + 1 < countLimit := by
            rcases hgiven with hgiven | ⟨s, _, hzero⟩
            · have hcount : m₁.refcount x ≤ max (m.refcount x) 1 := he.few x
              have hmany := hfits x hgiven
              have hlimit : 2 < countLimit := by decide
              omega
            · rw [show m₁.refcount x = 0 from hzero]
              decide
          have hget : m₁.containers[lo]? = some (.list items) := by
            rw [he.containers]
            exact hlist.1
          have hpos : 0 < m₁.refcount (.object lo) := Nat.lt_of_lt_of_le hlist.2 (he.refcount _)
          have hfill : Memory.Kept ([x].foldl incref (setContainer m₁ lo
              (.list (items.insertIdx (insertPos pos items.length) x)))) := by
            refine Memory.Kept.fill hk₁.toSane (hk₁.balanced.toView_held hget hpos)
              (lt_of_container hget) hpos ?_ (fun y hy => ?_) nofun (hk₁.toSane.fits_one hone)
            · intro y
              have hle : insertPos pos items.length ≤ items.length := by
                unfold insertPos
                split
                · exact Nat.le_refl _
                · exact Nat.min_le_right _ _
              show (items.insertIdx _ x).count y = items.count y + [x].count y
              rw [(List.perm_insertIdx x items hle).count_eq, ← List.singleton_append,
                List.count_append, Nat.add_comm]
            · exact List.mem_singleton.1 hy ▸ husable
          exact ⟨_, rfl, hfill⟩

/-- Slots are given up, and the container and what else is needed is still there. -/
theorem giveUp_seen (hs : Sane m) {lo : Nat} {kept given needed : List Obj}
    (hb : Balanced m (viewOf lo kept) given) (hspared : Survives m lo kept needed) :
    ∃ m', given.foldlM delete m = some m' ∧ Sane m' ∧ Balanced m' (viewOf lo kept) [] ∧
      Quiet m m' ∧ ∀ x ∈ needed, 0 < m'.refcount x := by
  obtain ⟨guard, hg, hneeded⟩ := hspared
  have hb₀ : Balanced m (viewOf lo kept) (given ++ []) := by
    rw [List.append_nil]
    exact hb
  obtain ⟨m', hrun, hb', hg', hq⟩ := deleteAll_spec hb₀ hg
  refine ⟨m', hrun, hs.quiet hq, hb', hq, fun x hx => ?_⟩
  exact Nat.lt_of_le_of_lt (Nat.zero_le _) (hg'.alive hb' (hneeded x hx))

theorem giveUp_spec (hk : m.Kept) {lo : Nat} {c : Container} {kept given needed : List Obj}
    (hc : m.containers[lo]? = some c) (hlive : 0 < m.refcount (.object lo))
    (hcount : ∀ y, c.held.count y = given.count y + kept.count y)
    (hspared : Survives m lo kept needed) :
    ∃ m', given.foldlM delete m = some m' ∧ Sane m' ∧ Balanced m' (viewOf lo kept) [] ∧
      Quiet m m' ∧ ∀ x ∈ needed, 0 < m'.refcount x := by
  have hb := hk.balanced.toView hc hlive hcount
  rw [List.append_nil] at hb
  exact giveUp_seen hk.toSane hb hspared

theorem foldlM_delete_one (m : Memory) (x : Obj) : [x].foldlM delete m = delete m x := by
  rw [List.foldlM_cons]
  cases delete m x with
  | none => rfl
  | some m' => rfl

theorem count_eraseIdx {items : List Obj} {n : Nat} {x : Obj} (hx : items[n]? = some x) (y : Obj) :
    items.count y = [x].count y + (items.eraseIdx n).count y := by
  obtain ⟨hn, rfl⟩ := List.getElem?_eq_some_iff.1 hx
  rw [← (List.getElem_cons_eraseIdx_perm hn).count_eq, ← List.singleton_append, List.count_append]

theorem listRemove_kept (hk : m.Kept) {lo p : Nat} {items : List Obj} {pos : Int}
    (hlist : IsList m lo items) (hpos : removePos pos items.length = some p)
    (hspared : Survives m lo (items.eraseIdx p) [.object lo]) :
    ∃ m', listRemove m lo pos = some m' ∧ m'.Kept := by
  have hp : p < items.length := by
    unfold removePos at hpos
    dsimp only at hpos
    generalize (if (if pos = -2 then (items.length : Int) - 1 else pos) = -1 then (0 : Int)
      else if pos = -2 then (items.length : Int) - 1 else pos) = q at hpos
    split at hpos
    · exact absurd hpos nofun
    · have := Option.some.inj hpos
      omega
  have hx : items[p]? = some items[p] := List.getElem?_eq_getElem hp
  obtain ⟨m', hrun, hs', hb', hq, hneeded⟩ :=
    giveUp_spec hk hlist.1 hlist.2 (count_eraseIdx hx) hspared
  rw [foldlM_delete_one] at hrun
  have hget : m'.containers[lo]? = some (.list items) := hq.containers ▸ hlist.1
  have hlive := hneeded _ (List.mem_singleton_self _)
  refine ⟨setContainer m' lo (.list (items.eraseIdx p)), ?_,
    kept_setContainer hs' hb' (lt_of_container hget) hlive (fun _ => rfl) nofun⟩
  unfold listRemove
  simp only [getList_of hk.toSane hlist.1 hlist.2, hpos, hx, hrun, getList_of hs' hget hlive,
    Option.bind_eq_bind, Option.bind_some]
  rfl

theorem listClear_kept (hk : m.Kept) {lo : Nat} {items : List Obj} (hlist : IsList m lo items)
    (hspared : Survives m lo [] [.object lo]) : ∃ m', listClear m lo = some m' ∧ m'.Kept := by
  obtain ⟨m', hrun, hs', hb', hq, hneeded⟩ :=
    giveUp_spec hk hlist.1 hlist.2 (fun y => (Nat.add_zero _).symm) hspared
  have hget : m'.containers[lo]? = some (.list items) := hq.containers ▸ hlist.1
  have hlive := hneeded _ (List.mem_singleton_self _)
  refine ⟨setContainer m' lo (.list []), ?_,
    kept_setContainer hs' hb' (lt_of_container hget) hlive (fun _ => rfl) nofun⟩
  replace hrun : items.foldlM delete m = some m' := hrun
  unfold listClear
  simp only [getList_of hk.toSane hlist.1 hlist.2, hrun, getList_of hs' hget hlive,
    Option.bind_eq_bind, Option.bind_some]
  rfl

/-- A reference that the caller has is given up. -/
theorem deleteOutside_kept (hk : m.Kept) (hx : 0 < m.outside x) :
    ∃ m', deleteOutside m x = some m' ∧ m'.Kept := by
  have hone : ∀ y, [x].count y = if y = x then 1 else 0 := by
    intro y
    rw [List.count_singleton]
    by_cases hy : y = x
    · rw [if_pos hy, if_pos (by simpa using hy.symm)]
    · rw [if_neg hy, if_neg (by simpa using Ne.symm hy)]
  have hb : Balanced { m with outside := Function.update m.outside x (m.outside x - 1) } noView
      [x] := by
    intro y
    have hsum := hk.balanced y
    rw [List.count_nil] at hsum
    rw [hone]
    show m.refcount y = Function.update m.outside x _ y + m.ignored y + slots m noView y + _
    unfold rests at hsum
    by_cases hy : y = x
    · rw [hy] at hsum ⊢
      rw [Function.update_self, if_pos rfl]
      omega
    · rw [Function.update_of_ne hy, if_neg hy]
      exact hsum
  by_cases hinterned : m.interned x = true
  · refine ⟨ignore { m with outside := Function.update m.outside x (m.outside x - 1) } x, ?_,
      ⟨⟨hk.freed, hk.made, hk.texts, ?_, ?_, hk.bounded, hk.hashes⟩, balanced_interned hb⟩⟩
    · unfold deleteOutside delete deleteIn
      rw [if_pos hinterned]
    · refine hk.tree.mono fun s hold => ⟨hold.1, hold.2.1, ?_⟩
      have hpos := hold.2.2
      show 0 < Function.update m.outside x _ _ + Function.update m.ignored x _ _
      unfold rests at hpos
      by_cases hs : Value.string s = x
      · rw [hs, Function.update_self, Function.update_self]
        omega
      · rwa [Function.update_of_ne hs, Function.update_of_ne hs]
    · intro y hy
      refine (ignore_ne ?_).trans (hk.ignored y hy)
      rintro rfl
      exact absurd (hinterned.symm.trans hy) Bool.noConfusion
  · have hs : Sane { m with outside := Function.update m.outside x (m.outside x - 1) } := by
      refine ⟨hk.freed, hk.made, hk.texts, hk.tree.mono fun s hold => ?_, hk.ignored, hk.bounded,
        hk.hashes⟩
      refine ⟨hold.1, hold.2.1, ?_⟩
      have hne : Value.string s ≠ x := by
        rintro rfl
        exact hinterned hold.2.1
      show 0 < Function.update m.outside x _ _ + m.ignored _
      rw [Function.update_of_ne hne]
      exact hold.2.2
    obtain ⟨m', hrun, hb', _, hq⟩ := delete_spec hb (guarded_nothing _)
    exact ⟨m', hrun, hs.quiet hq, hb'⟩

theorem listSet_kept (hk : m.Kept) {lo : Nat} {items : List Obj} {n : Int} {val : Obj}
    (hlist : IsList m lo items) (hn : 0 ≤ n) (hlt : n < items.length) (hval : 0 < m.outside val)
    (hfits : m.refcount val + 1 < countLimit) (hspared : Survives m lo (items.eraseIdx n.toNat) [.object lo]) :
    ∃ m', listSet m lo n (.object val) = some m' ∧ m'.Kept := by
  have hindex : n.toNat < items.length := by omega
  have hold : items[n.toNat]? = some items[n.toNat] := List.getElem?_eq_getElem hindex
  obtain ⟨m₁, hrun, hs₁, hb₁, hq, hneeded⟩ :=
    giveUp_spec hk hlist.1 hlist.2 (count_eraseIdx hold) hspared
  rw [foldlM_delete_one] at hrun
  have hget : m₁.containers[lo]? = some (.list items) := hq.containers ▸ hlist.1
  have hlive := hneeded _ (List.mem_singleton_self _)
  have hvalLive : 0 < m₁.refcount val := by
    have hsum := hb₁ val
    unfold rests at hsum
    rw [hq.outside] at hsum
    omega
  have hfill : Memory.Kept ([val].foldl incref
      (setContainer m₁ lo (.list (items.set n.toNat val)))) := by
    refine Memory.Kept.fill hs₁ hb₁ (lt_of_container hget) hlive (fun y => ?_) (fun y hy => ?_) nofun
      ((hk.toSane.fits_one hfits).quiet hq)
    · show (items.set n.toNat val).count y = (items.eraseIdx n.toNat).count y + [val].count y
      rw [(List.set_perm_cons_eraseIdx hindex val).count_eq, ← List.singleton_append,
        List.count_append, Nat.add_comm]
    · exact List.mem_singleton.1 hy ▸ hs₁.usable hvalLive
  have hvalOut : 0 < ([val].foldl incref
      (setContainer m₁ lo (.list (items.set n.toNat val)))).outside val := by
    show 0 < m₁.outside val
    rw [hq.outside]
    exact hval
  obtain ⟨m', hlast, hk'⟩ := deleteOutside_kept hfill hvalOut
  refine ⟨m', ?_, hk'⟩
  unfold listSet
  simp only [getList_of hk.toSane hlist.1 hlist.2, Option.bind_eq_bind, Option.bind_some]
  show (if n < 0 ∨ (items.length : Int) ≤ n then none else _) = _
  rw [if_neg (by omega)]
  simp only [hold, hrun, getList_of hs₁ hget hlive, Option.bind_some]
  exact hlast

section Copies

variable {c : Container} {extra : List Obj}

theorem fresh_dead (hk : m.Kept) : m.refcount (.object m.containers.length) = 0 :=
  hk.made _ (Nat.lt_irrefl m.containers.length)

theorem alloc_refcount (hk : m.Kept) (c : Container) (y : Obj) : (allocContainer m c).refcount y =
    if y = .object m.containers.length then 1 else m.refcount y := by
  by_cases hy : y = .object m.containers.length
  · rw [if_pos hy, hy]
    show (incref m _).refcount _ = 1
    rw [incref_self (by rw [fresh_dead hk]; decide), fresh_dead hk]
  · rw [if_neg hy]
    exact incref_ne hy

theorem count_dead {y : Obj} (hextra : ∀ y ∈ extra, 0 < m.refcount y) (hy : m.refcount y = 0) :
    extra.count y = 0 :=
  List.count_eq_zero_of_not_mem fun hmem => absurd (hextra y hmem) (by omega)

theorem alloc_fits (hk : m.Kept) (hextra : ∀ y ∈ extra, 0 < m.refcount y)
    (hfits : Fits m extra) : Fits (allocContainer m c) extra := by
  intro y
  rw [alloc_refcount hk]
  split
  · next hy =>
      rw [hy, count_dead hextra (fresh_dead hk)]
      decide
  · exact hfits y

theorem copy_refcount (hk : m.Kept) (hextra : ∀ y ∈ extra, 0 < m.refcount y)
    (hfits : Fits m extra) (y : Obj) : (extra.foldl incref (allocContainer m c)).refcount y =
      (if y = .object m.containers.length then 1 else m.refcount y) + extra.count y := by
  rw [foldl_incref_refcount (alloc_fits hk hextra hfits), alloc_refcount hk]

theorem copy_dead (hk : m.Kept) (hextra : ∀ y ∈ extra, 0 < m.refcount y) (hfits : Fits m extra)
    {y : Obj} (hy : y ≠ .object m.containers.length) (hzero : m.refcount y = 0) :
    (extra.foldl incref (allocContainer m c)).refcount y = 0 := by
  rw [copy_refcount hk hextra hfits, if_neg hy, hzero, count_dead hextra hzero]

theorem copy_containers :
    (extra.foldl incref (allocContainer m c)).containers = m.containers ++ [c] := by
  rw [foldl_incref_eq]
  rfl

theorem copy_made {y : Obj} : Made (extra.foldl incref (allocContainer m c)) y ↔
    Made m y ∨ y = .object m.containers.length := by
  rw [foldl_incref_eq]
  cases y with
  | string s => exact ⟨Or.inl, fun h => h.resolve_right (by intro h; cases h)⟩
  | object id =>
      show id < (m.containers ++ [c]).length ↔ _
      rw [List.length_append, List.length_singleton, Nat.lt_succ_iff_lt_or_eq, Value.object.injEq]
      rfl

/-- The slots are those from before and those of the copy. -/
theorem copy_slots (hk : m.Kept) (hcount : ∀ y, c.held.count y = extra.count y)
    (hextra : ∀ y ∈ extra, 0 < m.refcount y) (hfits : Fits m extra) (y : Obj) :
    slots (extra.foldl incref (allocContainer m c)) noView y =
      slots m noView y + extra.count y := by
  have hold : ∀ id < m.containers.length, heldIn m noView id =
      heldIn (extra.foldl incref (allocContainer m c)) noView id := by
    intro id hid
    have hne : (Value.object id : Obj) ≠ .object m.containers.length := fun h =>
      absurd (Value.object.inj h) (by omega)
    unfold heldIn refsOf noView
    dsimp only
    rw [copy_containers, List.getElem?_append_left hid]
    by_cases hzero : m.refcount (.object id) = 0
    · rw [if_pos hzero, if_pos (copy_dead hk hextra hfits hne hzero)]
    · rw [if_neg hzero, if_neg (by rw [copy_refcount hk hextra hfits, if_neg hne]; omega)]
  have hnew : heldIn (extra.foldl incref (allocContainer m c)) noView m.containers.length =
      c.held := by
    rw [heldIn_noView (by rw [copy_refcount hk hextra hfits, if_pos rfl]; omega)]
    refine refsOf_container ?_
    rw [copy_containers, List.getElem?_append_right (Nat.le_refl _), Nat.sub_self]
    rfl
  unfold slots
  rw [copy_containers, List.length_append, List.length_singleton, slotCount_succ, hnew, hcount,
    slotCount_congr hold]

/-- A new container with slots that are counted up. -/
theorem copy_kept (hk : m.Kept) (hcount : ∀ y, c.held.count y = extra.count y)
    (hextra : ∀ y ∈ extra, 0 < m.refcount y) (hc : ∀ h, c = .hash h → h.Stored)
    (hfits : Fits m extra) : (extra.foldl incref (allocContainer m c)).Kept := by
  refine ⟨⟨?_, ?_, ?_, ?_, ?_, ?_, ?_⟩, ?_⟩
  · intro y hy
    rw [foldl_incref_eq] at hy
    obtain ⟨hzero, hmade⟩ := hk.freed y hy
    refine ⟨copy_dead hk hextra hfits ?_ hzero, copy_made.2 (Or.inl hmade)⟩
    rintro rfl
    exact Nat.lt_irrefl _ hmade
  · intro y hy
    obtain ⟨hmade, hne⟩ := not_or.1 (mt copy_made.2 hy)
    exact copy_dead hk hextra hfits hne (hk.made y hmade)
  · rw [foldl_incref_eq]
    exact hk.texts
  · rw [foldl_incref_eq]
    refine hk.tree.mono fun s hold => ⟨hold.1, hold.2.1, ?_⟩
    exact Nat.lt_of_lt_of_le hold.2.2 (rests_hold (.object m.containers.length) _)
  · rw [foldl_incref_eq]
    exact hk.ignored
  · intro y
    rw [foldl_incref_refcount (alloc_fits hk hextra hfits)]
    exact alloc_fits hk hextra hfits y
  · intro id h hget
    rw [copy_containers] at hget
    by_cases hid : id < m.containers.length
    · rw [List.getElem?_append_left hid] at hget
      exact hk.hashes id h hget
    · rw [List.getElem?_append_right (by omega), List.getElem?_singleton] at hget
      split at hget
      · exact hc h (Option.some.inj hget)
      · exact absurd hget nofun
  · intro y
    have hsum := hk.balanced y
    have hrests : rests (extra.foldl incref (allocContainer m c)) y =
        (holdOutside (incref m (.object m.containers.length))
          (.object m.containers.length)).outside y + m.ignored y := by
      rw [foldl_incref_eq]
      rfl
    rw [copy_slots hk hcount hextra hfits, copy_refcount hk hextra hfits, hrests]
    unfold rests at hsum
    by_cases hy : y = .object m.containers.length
    · rw [if_pos hy]
      rw [hy, fresh_dead hk] at hsum
      rw [hy, holdOutside_self]
      show _ = m.outside _ + 1 + _ + _ + _
      omega
    · rw [if_neg hy, holdOutside_ne hy]
      show _ = m.outside y + _ + _ + _
      omega

end Copies

theorem newContainer_kept (hk : m.Kept) (c : Container) (hheld : c.held = [])
    (hc : ∀ h, c = .hash h → h.Stored) : (allocContainer m c).Kept := by
  have h : Memory.Kept (([] : List Obj).foldl incref (allocContainer m c)) :=
    copy_kept hk (fun _ => by rw [hheld]) (fun y hy => absurd hy List.not_mem_nil) hc hk.bounded
  exact h

theorem listCopy_kept (hk : m.Kept) {lo : Nat} {items : List Obj} (hlist : IsList m lo items)
    (hfits : Fits m items) :
    ∃ m', listCopy m lo = some m' ∧ m'.Kept := by
  refine ⟨items.foldl incref (allocContainer m (.list items)), ?_,
    copy_kept hk (fun _ => rfl) (fun y hy => ?_) nofun hfits⟩
  · unfold listCopy
    rw [getList_of hk.toSane hlist.1 hlist.2]
    rfl
  · have hmem : y ∈ heldIn m noView lo := by
      rw [heldIn_noView hlist.2, refsOf_container hlist.1]
      exact hy
    have hpos := slotCount_pos (lt_of_container hlist.1) hmem
    have hsum := hk.balanced y
    unfold slots at hsum
    omega

/-! ## The operations on hashes -/

/-- The slots of some nodes. -/
def nodesRefs (nodes : List (HashNode Obj)) : List Obj := nodes.flatMap nodeRefs

theorem nodesRefs_perm {nodes nodes' : List (HashNode Obj)} (h : nodes.Perm nodes') (y : Obj) :
    (nodesRefs nodes).count y = (nodesRefs nodes').count y := (h.flatMap_right nodeRefs).count_eq y

theorem nodesRefs_cons (n : HashNode Obj) (nodes : List (HashNode Obj)) (y : Obj) :
    (nodesRefs (n :: nodes)).count y = (nodeRefs n).count y + (nodesRefs nodes).count y :=
  List.count_append

theorem heldIn_setContainer (m : Memory) (lo id : Nat) (c : Container) (kept : List Obj) :
    heldIn (setContainer m lo c) (viewOf lo kept) id = heldIn m (viewOf lo kept) id := by
  by_cases hid : id = lo
  · rw [hid, heldIn_viewOf_self, heldIn_viewOf_self]
  · rw [heldIn_viewOf_ne kept hid, heldIn_viewOf_ne kept hid]
    unfold heldIn refsOf noView setContainer
    dsimp only
    rw [List.getElem?_set_ne (Ne.symm hid)]

theorem Balanced.setContainer {lo : Nat} {kept : List Obj}
    (hb : Balanced m (viewOf lo kept) pending) (c : Container) :
    Balanced (setContainer m lo c) (viewOf lo kept) pending := by
  intro y
  have hsum := hb y
  have hslots : slots (Doh.setContainer m lo c) (viewOf lo kept) y = slots m (viewOf lo kept) y := by
    unfold slots
    show slotCount _ (m.containers.set lo c).length y = _
    rw [List.length_set]
    exact slotCount_congr (fun id _ => heldIn_setContainer m lo id c kept) y
  rw [hslots]
  exact hsum

theorem Survives.setContainer {lo : Nat} {kept needed : List Obj} (h : Survives m lo kept needed)
    (c : Container) : Survives (setContainer m lo c) lo kept needed := by
  obtain ⟨guard, hg, hneeded⟩ := h
  refine ⟨guard, ⟨hg.seen, ?_, ?_⟩, hneeded⟩
  · intro id hid
    show id < (m.containers.set lo c).length
    rw [List.length_set]
    exact hg.inside id hid
  · intro x hx
    rcases hg.held x hx with hout | ⟨id, hid, hmem⟩
    · exact .inl hout
    · exact .inr ⟨id, hid, (heldIn_setContainer m lo id c kept).symm ▸ hmem⟩

theorem Survives.extend {lo : Nat} {kept needed : List Obj} (h : Survives m lo kept needed)
    (he : Extends m m') : Survives m' lo kept needed := by
  obtain ⟨guard, hg, hneeded⟩ := h
  exact ⟨guard, hg.extend he, hneeded⟩

theorem setContainer_self {lo : Nat} {c : Container} (hc : m.containers[lo]? = some c) :
    setContainer m lo c = m := by
  have hsame : m.containers.set lo c = m.containers := by
    obtain ⟨hlt, rfl⟩ := List.getElem?_eq_some_iff.1 hc
    exact List.set_getElem_self hlt
  show { m with containers := m.containers.set lo c } = m
  rw [hsame]

theorem hashDelete_kept (hk : m.Kept) {ho : Nat} {h : Hash Obj} {k : KeyArg}
    (hhash : IsHash m ho h) (hlive : k.Live m)
    (hspared : ∀ n ∈ h.nodes, n.key.text = k.text →
      Survives m ho ((nodesRefs h.nodes).diff (nodeRefs n)) [.object ho]) :
    ∃ m', hashDelete m ho k = some m' ∧ m'.Kept := by
  obtain ⟨hk₁, he, _, htext⟩ := keyOf_spec hk hlive
  have hkept := hk.hashes ho h hhash.1
  have hget : (keyOf m k).1.containers[ho]? = some (.hash h) := he.containers ▸ hhash.1
  have hpos : 0 < (keyOf m k).1.refcount (.object ho) :=
    Nat.lt_of_lt_of_le hhash.2 (he.refcount _)
  unfold hashDelete
  simp only [getHash_of hk.toSane hhash.1 hhash.2, Option.bind_eq_bind, Option.bind_some]
  cases hfind : findNode h (keyOf m k).2 with
  | none => exact ⟨_, rfl, hk₁⟩
  | some n =>
      obtain ⟨hn, hntext⟩ := findNode_some hkept hfind
      obtain ⟨hkept', hnodes⟩ := hashDelattr_nodes hkept (keyOf m k).2
      rw [hfind] at hnodes
      obtain ⟨rest, hperm, hperm'⟩ : ∃ rest, h.nodes.Perm (n :: rest) ∧
          (hashDelattr h (keyOf m k).2).1.nodes.Perm rest := by
        generalize (hashDelattr h (keyOf m k).2).2 = r at hnodes
        cases hnodes with
        | deleted n' rest hsame hperm hperm' =>
            obtain rfl := Option.some.inj hsame
            exact ⟨rest, hperm, hperm'⟩
        | missing hnone _ => cases hnone
      have hcount : ∀ y, (nodesRefs h.nodes).count y = (nodeRefs n).count y +
          ((nodesRefs h.nodes).diff (nodeRefs n)).count y := by
        intro y
        rw [List.count_diff, nodesRefs_perm hperm y, nodesRefs_cons]
        omega
      have hb := hk₁.balanced.toView hget hpos hcount
      rw [List.append_nil] at hb
      have hs : Sane (setContainer (keyOf m k).1 ho (.hash (hashDelattr h (keyOf m k).2).1)) :=
        hk₁.toSane.setContainer fun h' hh' => Container.hash.inj hh' ▸ hkept'
      obtain ⟨m', hrun, hs', hb', hq, hneeded⟩ := giveUp_seen hs (hb.setContainer _)
        (((hspared n hn (hntext.trans htext)).extend he).setContainer _)
      have hget' : m'.containers[ho]? = some (.hash (hashDelattr h (keyOf m k).2).1) := by
        rw [hq.containers]
        exact List.getElem?_set_self (lt_of_container hget)
      have hlive' := hneeded _ (List.mem_singleton_self _)
      have hfill : (setContainer m' ho (.hash (hashDelattr h (keyOf m k).2).1)).Kept := by
        refine kept_setContainer hs' hb' (lt_of_container hget') hlive' (fun y => ?_)
          fun h' hh' => Container.hash.inj hh' ▸ hkept'
        have hall := hcount y
        rw [nodesRefs_perm hperm y, nodesRefs_cons] at hall
        have hnow := nodesRefs_perm hperm' y
        show (nodesRefs _).count y = _
        omega
      rw [setContainer_self hget'] at hfill
      refine ⟨m', ?_, hfill⟩
      dsimp only
      rw [hrun]
      simp only [getHash_of hs' hget' hlive', Option.bind_some]
      rfl

theorem nodeRefs_count (n : HashNode Obj) (y : Obj) :
    (nodeRefs n).count y = [Value.string n.key].count y + [n.object].count y := by
  show (.string n.key :: [n.object]).count y = _
  rw [← List.singleton_append, List.count_append]

/-- What setting a value for a key does, the counts that are kept right apart. -/
structure NodeSet (m m' : Memory) (ho : Nat) (h : Hash Obj) (k : StringObject) (obj : Obj) :
    Prop where
  containers : ∃ h', m'.containers = m.containers.set ho (.hash h') ∧
    ∀ y ∈ nodesRefs h'.nodes, y ∈ nodesRefs h.nodes ∨ y ∈ nodeRefs ⟨k, obj⟩
  refcount : ∀ y, m'.refcount y ≤ m.refcount y + (nodeRefs ⟨k, obj⟩).count y

/-- A key that is not found gets a node. -/
theorem hashSet_new_kept (hk : m.Kept) {ho : Nat} {h : Hash Obj} {k : StringObject} {obj : Obj}
    (hhash : IsHash m ho h) (hkey : 0 < m.refcount (.string k)) (hobj : Usable m obj)
    (hfits : Fits m (nodeRefs ⟨k, obj⟩)) (hnone : findNode h k = none) :
    ∃ h' r m', hashSetNode h k obj = some (h', r) ∧
      incref (incref (setContainer m ho (.hash h')) (.string k)) obj = m' ∧ m'.Kept ∧
      NodeSet m m' ho h k obj ∧ ∀ x, 0 < m.refcount x → 0 < m'.refcount x := by
  have hstored := hk.hashes ho h hhash.1
  obtain ⟨h', r, hrun, hstored', hnodes⟩ := hashSetNode_nodes hstored k obj
  rw [hnone] at hnodes
  have hperm : h'.nodes.Perm (⟨k, obj⟩ :: h.nodes) := by
    cases hnodes with
    | added _ hperm => exact hperm
    | replaced _ _ hfind _ _ => cases hfind
  have hfill : Memory.Kept ((nodeRefs ⟨k, obj⟩).foldl incref (setContainer m ho (.hash h'))) := by
    refine Memory.Kept.fill hk.toSane (hk.balanced.toView_held hhash.1 hhash.2)
      (lt_of_container hhash.1) hhash.2 (fun y => ?_) (fun y hy => ?_)
      (fun h'' hh => Container.hash.inj hh ▸ hstored') hfits
    · show (nodesRefs h'.nodes).count y = (nodesRefs h.nodes).count y + (nodeRefs ⟨k, obj⟩).count y
      rw [nodesRefs_perm hperm, nodesRefs_cons, Nat.add_comm]
    · rcases List.mem_cons.1 hy with rfl | hy
      · exact hk.toSane.usable hkey
      · exact List.mem_singleton.1 hy ▸ hobj
  have hcount := foldl_incref_refcount (m := setContainer m ho (.hash h')) hfits
  refine ⟨h', r, _, hrun, rfl, hfill, ⟨⟨h', rfl, fun y hy => ?_⟩, fun y => (hcount y).le⟩,
    fun x hx => ?_⟩
  · have hmem := (hperm.flatMap_right nodeRefs).mem_iff.1 hy
    rw [List.flatMap_cons, List.mem_append] at hmem
    exact hmem.symm
  · refine Nat.lt_of_lt_of_le ?_ (hcount x).ge
    exact Nat.lt_of_lt_of_le hx (Nat.le_add_right _ _)

/-- A node gets another value; the old one is given up first. -/
theorem hashSet_replace_kept (hk : m.Kept) {ho : Nat} {h : Hash Obj} {k : StringObject} {obj : Obj}
    {n : HashNode Obj} {needed : List Obj} (hhash : IsHash m ho h)
    (hfits : Fits m (nodeRefs ⟨k, obj⟩)) (hfind : findNode h k = some n)
    (hspared : Survives m ho ((nodesRefs h.nodes).erase n.object) (.object ho :: needed))
    (hstays : ∀ m', Sane m' → Quiet m m' → (∀ x ∈ needed, 0 < m'.refcount x) → Usable m' obj) :
    ∃ m₁ h' r m', delete m n.object = some m₁ ∧ getHash m₁ ho = some h ∧
      hashSetNode h k obj = some (h', r) ∧ incref (setContainer m₁ ho (.hash h')) obj = m' ∧
      m'.Kept ∧ NodeSet m m' ho h k obj ∧ ∀ x ∈ .object ho :: needed, 0 < m'.refcount x := by
  have hstored := hk.hashes ho h hhash.1
  obtain ⟨hn, hntext⟩ := findNode_some hstored hfind
  obtain ⟨h', r, hset, hstored', hnodes⟩ := hashSetNode_nodes hstored k obj
  rw [hfind] at hnodes
  obtain ⟨rest, hperm, hperm'⟩ : ∃ rest, h.nodes.Perm (n :: rest) ∧
      h'.nodes.Perm ({ n with object := obj } :: rest) := by
    cases hnodes with
    | added hnone _ => cases hnone
    | replaced n' rest hsame hperm hperm' =>
        obtain rfl := Option.some.inj hsame
        exact ⟨rest, hperm, hperm'⟩
  have hmem : n.object ∈ nodesRefs h.nodes :=
    List.mem_flatMap.2 ⟨n, hn, List.mem_cons_of_mem _ (List.mem_singleton_self _)⟩
  have hcount : ∀ y, (nodesRefs h.nodes).count y =
      [n.object].count y + ((nodesRefs h.nodes).erase n.object).count y := by
    intro y
    rw [(List.perm_cons_erase hmem).count_eq, ← List.singleton_append, List.count_append]
  obtain ⟨m₁, hrun, hs₁, hb₁, hq, hneeded⟩ := giveUp_spec hk hhash.1 hhash.2 hcount hspared
  rw [foldlM_delete_one] at hrun
  have hget : m₁.containers[ho]? = some (.hash h) := hq.containers ▸ hhash.1
  have hlive := hneeded _ List.mem_cons_self
  have husable := hstays m₁ hs₁ hq fun x hx => hneeded x (List.mem_cons_of_mem _ hx)
  have hone : Fits m₁ [obj] := by
    intro y
    have hy := hfits.quiet hq y
    rw [nodeRefs_count] at hy
    dsimp only at hy
    omega
  have hfill : Memory.Kept ([obj].foldl incref (setContainer m₁ ho (.hash h'))) := by
    refine Memory.Kept.fill hs₁ hb₁ (lt_of_container hget) hlive (fun y => ?_) (fun y hy => ?_)
      (fun h'' hh => Container.hash.inj hh ▸ hstored') hone
    · have hold := hcount y
      rw [nodesRefs_perm hperm, nodesRefs_cons, nodeRefs_count] at hold
      show (nodesRefs h'.nodes).count y = _
      rw [nodesRefs_perm hperm', nodesRefs_cons, nodeRefs_count]
      dsimp only
      omega
    · exact List.mem_singleton.1 hy ▸ husable
  have hafter := foldl_incref_refcount (m := setContainer m₁ ho (.hash h')) hone
  refine ⟨m₁, h', r, _, hrun, getHash_of hs₁ hget hlive, hset, rfl, hfill,
    ⟨⟨h', congrArg (List.set · ho _) hq.containers, fun y hy => ?_⟩, fun y => ?_⟩,
    fun x hx => ?_⟩
  · have hmemNew := (hperm'.flatMap_right nodeRefs).mem_iff.1 hy
    have hmemOld : ∀ z ∈ nodesRefs (n :: rest), z ∈ nodesRefs h.nodes := fun z hz =>
      (hperm.flatMap_right nodeRefs).mem_iff.2 hz
    rw [List.flatMap_cons, List.mem_append] at hmemNew
    rcases hmemNew with hy | hy
    · rcases List.mem_cons.1 hy with rfl | hy
      · exact .inl (hmemOld _ (List.mem_append_left _ List.mem_cons_self))
      · exact .inr (List.mem_cons_of_mem _ hy)
    · exact .inl (hmemOld y (List.mem_append_right _ hy))
  · have hle := hq.refcount y
    refine (hafter y).le.trans ?_
    show m₁.refcount y + _ ≤ _
    rw [nodeRefs_count]
    dsimp only
    omega
  · refine Nat.lt_of_lt_of_le ?_ (hafter x).ge
    exact Nat.lt_of_lt_of_le (hneeded x hx) (Nat.le_add_right _ _)

/-- `Hash_setattr` of a value that is there. -/
theorem setNode_kept (hk : m.Kept) {ho : Nat} {h : Hash Obj} {k : StringObject} {obj : Obj}
    {needed : List Obj} (hhash : IsHash m ho h) (hkey : 0 < m.refcount (.string k))
    (hobj : Usable m obj) (hfits : Fits m (nodeRefs ⟨k, obj⟩))
    (hlive : ∀ x ∈ needed, 0 < m.refcount x)
    (hspared : ∀ n ∈ h.nodes, n.key.text = k.text → n.object ≠ obj →
      Survives m ho ((nodesRefs h.nodes).erase n.object) (.object ho :: needed))
    (hstays : ∀ m', Sane m' → Quiet m m' → (∀ x ∈ needed, 0 < m'.refcount x) → Usable m' obj) :
    ∃ m', setNode m ho h k obj = some m' ∧ m'.Kept ∧ NodeSet m m' ho h k obj ∧
      ∀ x ∈ .object ho :: needed, 0 < m'.refcount x := by
  have hstored := hk.hashes ho h hhash.1
  have hneeded : ∀ x ∈ .object ho :: needed, 0 < m.refcount x := by
    intro x hx
    rcases List.mem_cons.1 hx with rfl | hx
    · exact hhash.2
    · exact hlive x hx
  unfold setNode
  cases hfind : findNode h k with
  | none =>
      obtain ⟨h', r, m', hset, hrun, hk', hnode, halive⟩ :=
        hashSet_new_kept hk hhash hkey hobj hfits hfind
      refine ⟨m', ?_, hk', hnode, fun x hx => halive x (hneeded x hx)⟩
      dsimp only
      rw [hset]
      exact congrArg some hrun
  | some n =>
      dsimp only
      by_cases hsame : n.object = obj
      · rw [if_pos hsame]
        refine ⟨m, rfl, hk, ⟨⟨h, ?_, fun y hy => .inl hy⟩, fun y => Nat.le_add_right _ _⟩, hneeded⟩
        exact (congrArg Memory.containers (setContainer_self hhash.1)).symm
      rw [if_neg hsame]
      obtain ⟨hn, hntext⟩ := findNode_some hstored hfind
      obtain ⟨m₁, h', r, m', hrun, hget, hset, hlast, hk', hnode, halive⟩ :=
        hashSet_replace_kept hk hhash hfits hfind (hspared n hn hntext hsame) hstays
      refine ⟨m', ?_, hk', hnode, halive⟩
      simp only [hrun, hget, hset, Option.bind_eq_bind, Option.bind_some]
      exact congrArg some hlast

/-- A string without a count is not freed. -/
theorem Usable.quiet_string {s : StringObject} (h : Usable m x) (hx : x = .string s)
    (hzero : m.refcount x = 0) (hq : Quiet m m') : Usable m' x := by
  refine ⟨.inr ⟨s, hx⟩, fun hmem => ?_,
    (made_congr (congrArg List.length hq.containers) hq.serial).2 h.made⟩
  rcases hq.freed x hmem with hmem | ⟨_, hpos⟩
  · exact h.notFreed hmem
  · omega

/-- The value that must outlive the one it takes the place of; a string that is made
from a C string has no part in this. -/
def ValueArg.needed : ValueArg Nat → List Obj
  | .object x => [x]
  | _ => []

theorem hashSet_kept (hk : m.Kept) {ho : Nat} {h : Hash Obj} {k : KeyArg} {obj : ValueArg Nat}
    (hhash : IsHash m ho h) (hkey : k.Live m) (hobj : obj.Live m) (hnull : obj ≠ .null)
    (hfits : ∀ x, m.refcount x + 2 < countLimit)
    (hspared : ∀ n ∈ h.nodes, n.key.text = k.text → obj ≠ .object n.object →
      Survives m ho ((nodesRefs h.nodes).erase n.object) (.object ho :: obj.needed)) :
    ∃ m', hashSet m ho k obj = some m' ∧ m'.Kept := by
  obtain ⟨hk₁, he₁, hkeyLive, htext⟩ := keyOf_spec hk hkey
  have hobj₁ : obj.Live (keyOf m k).1 := by
    cases obj with
    | object x => exact Nat.lt_of_lt_of_le hobj (he₁.refcount x)
    | null => trivial
    | cstring c => trivial
  obtain ⟨hk₂, he₂, hvalue⟩ := valueOf_spec hk₁ hobj₁
  have he := he₁.trans he₂
  have hhash₂ : IsHash (valueOf (keyOf m k).1 obj).1 ho h :=
    ⟨he.containers ▸ hhash.1, Nat.lt_of_lt_of_le hhash.2 (he.refcount _)⟩
  have hunfold : hashSet m ho k obj =
      (valueOf (keyOf m k).1 obj).2.elim (some (valueOf (keyOf m k).1 obj).1)
        fun x => setNode (valueOf (keyOf m k).1 obj).1 ho h (keyOf m k).2 x := by
    unfold hashSet
    cases obj with
    | null => exact absurd rfl hnull
    | object x =>
        simp only [getHash_of hk.toSane hhash.1 hhash.2, Option.bind_eq_bind, Option.bind_some]
        rfl
    | cstring c =>
        simp only [getHash_of hk.toSane hhash.1 hhash.2, Option.bind_eq_bind, Option.bind_some]
        rfl
  rw [hunfold]
  cases hx : (valueOf (keyOf m k).1 obj).2 with
  | none => exact ⟨_, rfl, hk₂⟩
  | some x =>
      obtain ⟨husable, hgiven⟩ := hvalue x hx
      rw [Option.elim_some]
      have hfits₂ : Fits (valueOf (keyOf m k).1 obj).1 (nodeRefs ⟨(keyOf m k).2, x⟩) := by
        intro y
        have hfew := he.few y
        have hmany := hfits y
        have hlimit : 3 < countLimit := by decide
        have htwo : (nodeRefs ⟨(keyOf m k).2, x⟩).count y ≤ 2 := List.count_le_length
        omega
      have hlive : ∀ y ∈ obj.needed, 0 < (valueOf (keyOf m k).1 obj).1.refcount y := by
        intro y hy
        cases obj with
        | null => cases hy
        | cstring c => cases hy
        | object z =>
            rw [List.mem_singleton.1 hy]
            exact Nat.lt_of_lt_of_le hobj (he.refcount z)
      have hspared₂ : ∀ n ∈ h.nodes, n.key.text = (keyOf m k).2.text → n.object ≠ x →
          Survives (valueOf (keyOf m k).1 obj).1 ho ((nodesRefs h.nodes).erase n.object)
            (.object ho :: obj.needed) := by
        intro n hn hntext hne
        refine (hspared n hn (hntext.trans htext) ?_).extend he
        rintro rfl
        exact hne (Option.some.inj hx)
      obtain ⟨m', hrun, hk', -⟩ := setNode_kept hk₂ hhash₂
        (Nat.lt_of_lt_of_le hkeyLive (he₂.refcount _)) husable hfits₂ hlive hspared₂
        fun m' hs' hq hneeded => by
          rcases hgiven with hgiven | ⟨s, hs⟩
          · rw [hgiven] at hneeded
            exact hs'.usable (hneeded x (List.mem_singleton_self _))
          · exact husable.quiet_string hs.1 hs.2 hq
      exact ⟨m', hrun, hk'⟩

theorem hashClear_kept (hk : m.Kept) {ho : Nat} {h : Hash Obj} (hhash : IsHash m ho h)
    (hspared : Survives m ho [] [.object ho]) : ∃ m', hashClearAll m ho = some m' ∧ m'.Kept := by
  obtain ⟨m', hrun, hs', hb', hq, hneeded⟩ :=
    giveUp_spec hk hhash.1 hhash.2 (fun y => (Nat.add_zero _).symm) hspared
  have hget : m'.containers[ho]? = some (.hash h) := hq.containers ▸ hhash.1
  have hlive := hneeded _ (List.mem_singleton_self _)
  have hkept := hk.hashes ho h hhash.1
  have hnone : (hashClear h).nodes = [] := nodes_replicate _
  refine ⟨setContainer m' ho (.hash (hashClear h)), ?_,
    kept_setContainer hs' hb' (lt_of_container hget) hlive (fun y => ?_)
      fun h' hh' => Container.hash.inj hh' ▸ stored_replicate hkept.size⟩
  · replace hrun : (h.nodes.flatMap nodeRefs).foldlM delete m = some m' := hrun
    unfold hashClearAll
    simp only [getHash_of hk.toSane hhash.1 hhash.2, hrun, getHash_of hs' hget hlive,
      Option.bind_eq_bind, Option.bind_some]
    rfl
  · show ((hashClear h).nodes.flatMap nodeRefs).count y = _
    rw [hnone]
    rfl

/-- What is in slots of a container that is there has a count. -/
theorem Memory.Kept.slot_live (hk : m.Kept) {id : Nat} {c : Container}
    (hc : m.containers[id]? = some c) (hlive : 0 < m.refcount (.object id)) (hx : x ∈ c.held) :
    0 < m.refcount x := by
  have hmem : x ∈ heldIn m noView id := by
    rw [heldIn_noView hlive, refsOf_container hc]
    exact hx
  have hpos := slotCount_pos (lt_of_container hc) hmem
  have hsum := hk.balanced x
  unfold slots at hsum
  omega

/-- Whatever a copy gives up, the hash it is made from keeps what is there. -/
theorem copy_survives (hk : m.Kept) {ho nho : Nat} {h nh : Hash Obj} (hne : ho ≠ nho)
    (hhash : IsHash m ho h) (hcopy : IsHash m nho nh)
    (hsub : ∀ y ∈ nodesRefs nh.nodes, y ∈ nodesRefs h.nodes) (kept : List Obj) {needed : List Obj}
    (hlive : ∀ x ∈ needed, 0 < m.refcount x) : Survives m nho kept needed := by
  refine ⟨fun x => 0 < m.refcount x, ⟨fun id hid => ?_, fun id hid => hk.madeOf hid,
    fun x hx => ?_⟩, hlive⟩
  · have hsame : id = nho := by
      by_contra hother
      exact hid (if_neg hother)
    exact hsame ▸ hcopy.2
  · have hsum := hk.balanced x
    rw [List.count_nil] at hsum
    by_cases hrests : 0 < rests m x
    · exact .inl hrests
    have hpos : 0 < slotCount (heldIn m noView) m.containers.length x := by
      unfold slots at hsum
      omega
    obtain ⟨id, -, hmem⟩ := exists_of_slotCount_pos hpos
    have hid : 0 < m.refcount (.object id) := by
      by_contra hzero
      rw [heldIn, show noView id = none from rfl, if_pos (by omega)] at hmem
      cases hmem
    by_cases hself : id = nho
    · rw [hself, heldIn_noView hcopy.2, refsOf_container hcopy.1] at hmem
      refine .inr ⟨ho, hhash.2, ?_⟩
      rw [heldIn_viewOf_ne kept hne, heldIn_noView hhash.2, refsOf_container hhash.1]
      exact hsub x hmem
    · refine .inr ⟨id, hid, ?_⟩
      rw [heldIn_viewOf_ne kept hself]
      exact hmem

theorem copyNodes_kept {ho nho : Nat} {h : Hash Obj} (hne : ho ≠ nho)
    {nodes : List (HashNode Obj)} : ∀ {m : Memory} {nh : Hash Obj}, m.Kept → IsHash m ho h →
    IsHash m nho nh → (∀ n ∈ nodes, n ∈ h.nodes) →
    (∀ y ∈ nodesRefs nh.nodes, y ∈ nodesRefs h.nodes) → Fits m (nodesRefs nodes) →
    ∃ m', nodes.foldlM (fun m n => (getHash m nho).bind fun nh => setNode m nho nh n.key n.object)
      m = some m' ∧ m'.Kept := by
  induction nodes with
  | nil => exact fun hk _ _ _ _ _ => ⟨_, rfl, hk⟩
  | cons n nodes ih =>
      intro m nh hk hhash hcopy hin hsub hfits
      have hmem : ∀ y ∈ nodeRefs n, y ∈ nodesRefs h.nodes := fun y hy =>
        List.mem_flatMap.2 ⟨n, hin n List.mem_cons_self, hy⟩
      have hlive : ∀ y ∈ nodeRefs n, 0 < m.refcount y := fun y hy =>
        hk.slot_live hhash.1 hhash.2 (hmem y hy)
      have hobj : n.object ∈ nodeRefs n := List.mem_cons_of_mem _ (List.mem_singleton_self _)
      have hneeded : ∀ y ∈ [.object ho, n.object], 0 < m.refcount y := by
        intro y hy
        rcases List.mem_cons.1 hy with rfl | hy
        · exact hhash.2
        · exact List.mem_singleton.1 hy ▸ hlive _ hobj
      have hall : ∀ y ∈ [.object nho, .object ho, n.object], 0 < m.refcount y := by
        intro y hy
        rcases List.mem_cons.1 hy with rfl | hy
        · exact hcopy.2
        · exact hneeded y hy
      have hone : Fits m (nodeRefs ⟨n.key, n.object⟩) := by
        intro y
        have hy := hfits y
        rw [nodesRefs_cons] at hy
        show m.refcount y + (nodeRefs n).count y < _
        omega
      obtain ⟨m₁, hrun, hk₁, hnode, halive⟩ := setNode_kept hk hcopy (hlive _ List.mem_cons_self)
        (hk.toSane.usable (hlive _ hobj)) hone hneeded
        (fun _ _ _ _ => copy_survives hk hne hhash hcopy hsub _ hall)
        fun m' hs' _ hstays => hs'.usable (hstays _ (List.mem_cons_of_mem _ List.mem_cons_self))
      obtain ⟨⟨nh', hcontainers, hslots⟩, hcount⟩ := hnode
      have hhash₁ : IsHash m₁ ho h := by
        refine ⟨?_, halive _ (List.mem_cons_of_mem _ List.mem_cons_self)⟩
        rw [hcontainers, List.getElem?_set_ne (Ne.symm hne)]
        exact hhash.1
      have hcopy₁ : IsHash m₁ nho nh' := by
        refine ⟨?_, halive _ List.mem_cons_self⟩
        rw [hcontainers]
        exact List.getElem?_set_self (lt_of_container hcopy.1)
      have hfits₁ : Fits m₁ (nodesRefs nodes) := by
        intro y
        have hfew : m₁.refcount y ≤ m.refcount y + (nodeRefs n).count y := hcount y
        have hy := hfits y
        rw [nodesRefs_cons] at hy
        omega
      obtain ⟨m', hrest, hk'⟩ := ih hk₁ hhash₁ hcopy₁
        (fun n hn => hin n (List.mem_cons_of_mem _ hn))
        (fun y hy => (hslots y hy).elim (hsub y) (hmem y)) hfits₁
      refine ⟨m', ?_, hk'⟩
      rw [List.foldlM_cons, getHash_of hk.toSane hcopy.1 hcopy.2, Option.bind_some, hrun]
      exact hrest

theorem hashCopy_kept (hk : m.Kept) {ho : Nat} {h : Hash Obj} (hhash : IsHash m ho h)
    (hfits : Fits m (nodesRefs h.nodes)) : ∃ m', hashCopy m ho = some m' ∧ m'.Kept := by
  have hstored := hk.hashes ho h hhash.1
  have hlt := lt_of_container hhash.1
  have hunmade : ¬ Made m (.object m.containers.length) := Nat.lt_irrefl m.containers.length
  have hne : ∀ y, y ≠ .object m.containers.length →
      (allocContainer m (.hash ⟨List.replicate h.hashsize [], 0⟩)).refcount y = m.refcount y :=
    fun y hy => incref_ne hy
  have hself : (allocContainer m (.hash ⟨List.replicate h.hashsize [], 0⟩)).refcount
      (.object m.containers.length) = 1 := by
    show (incref m _).refcount _ = 1
    rw [incref_self (hk.toSane.fits_new hunmade), hk.made _ hunmade]
  have hk₀ : (allocContainer m (.hash ⟨List.replicate h.hashsize [], 0⟩)).Kept :=
    newContainer_kept hk _ (congrArg (List.flatMap nodeRefs) (nodes_replicate _))
      fun h' hh' => Container.hash.inj hh' ▸ stored_replicate hstored.size
  have hother : (Value.object ho : Obj) ≠ .object m.containers.length := by
    intro heq
    have := Value.object.inj heq
    omega
  have hhash₀ : IsHash (allocContainer m (.hash ⟨List.replicate h.hashsize [], 0⟩)) ho h := by
    refine ⟨?_, (hne _ hother).symm ▸ hhash.2⟩
    show (m.containers ++ _)[ho]? = _
    rw [List.getElem?_append_left hlt]
    exact hhash.1
  have hcopy₀ : IsHash (allocContainer m (.hash ⟨List.replicate h.hashsize [], 0⟩))
      m.containers.length ⟨List.replicate h.hashsize [], 0⟩ := by
    refine ⟨?_, by omega⟩
    show (m.containers ++ _)[m.containers.length]? = _
    rw [List.getElem?_append_right (Nat.le_refl _), Nat.sub_self]
    rfl
  have hfits₀ : Fits (allocContainer m (.hash ⟨List.replicate h.hashsize [], 0⟩))
      (nodesRefs h.nodes) := by
    intro y
    by_cases hy : y = .object m.containers.length
    · have hnot : y ∉ nodesRefs h.nodes := fun hmem =>
        hunmade (hk.madeOf (hy ▸ hk.slot_live hhash.1 hhash.2 hmem))
      rw [List.count_eq_zero_of_not_mem hnot, hy, hself]
      decide
    · rw [hne y hy]
      exact hfits y
  have hnone : ∀ y ∈ nodesRefs (⟨List.replicate h.hashsize [], 0⟩ : Hash Obj).nodes,
      y ∈ nodesRefs h.nodes := by
    intro y hy
    rw [nodes_replicate] at hy
    cases hy
  obtain ⟨m', hrun, hk'⟩ := copyNodes_kept (Nat.ne_of_lt hlt) hk₀ hhash₀ hcopy₀ (fun n hn => hn)
    hnone hfits₀
  refine ⟨m', ?_, hk'⟩
  unfold hashCopy
  simp only [getHash_of hk.toSane hhash.1 hhash.2, Option.bind_eq_bind, Option.bind_some]
  exact hrun

/-! ## Runs -/

/-- What a caller has to see to: containers and objects that it names are there, an
index is in range, and a reference that is given up or handed over is the caller's. -/
def Allowed (m : Memory) : MemoryOp → Prop
  | .newString _ | .newList | .newHash => True
  | .incref x => 0 < m.refcount x
  | .delete x => 0 < m.outside x
  | .listInsert lo _ item => (∃ items, IsList m lo items) ∧ item.Live m
  | .listSet lo n val => ∃ items, IsList m lo items ∧ 0 ≤ n ∧ n < items.length ∧
      ∀ x, val = .object x → 0 < m.outside x
  | .listRemove lo pos => ∃ items p, IsList m lo items ∧ removePos pos items.length = some p
  | .listClear lo | .listCopy lo => ∃ items, IsList m lo items
  | .hashSet ho k obj => (∃ h, IsHash m ho h) ∧ k.Live m ∧ obj.Live m
  | .hashDelete ho k => (∃ h, IsHash m ho h) ∧ k.Live m
  | .hashClear ho | .hashCopy ho => ∃ h, IsHash m ho h

/-- Deleting a key spares the hash. -/
def DeleteSpares (m : Memory) (ho : Nat) (k : KeyArg) : Prop :=
  ∀ h, IsHash m ho h → ∀ n ∈ h.nodes, n.key.text = k.text →
    Survives m ho ((nodesRefs h.nodes).diff (nodeRefs n)) [.object ho]

/-- Nothing that the operation goes on to use is freed by the references that it gives
up on the way. `List_set` with a C string always frees the string that it has just put
into the list. -/
def Spared (m : Memory) : MemoryOp → Prop
  | .listSet lo n val =>
      match val with
      | .null => True
      | .cstring _ => False
      | .object _ => ∀ items, IsList m lo items →
          Survives m lo (items.eraseIdx n.toNat) [.object lo]
  | .listRemove lo pos => ∀ items p, IsList m lo items → removePos pos items.length = some p →
      Survives m lo (items.eraseIdx p) [.object lo]
  | .listClear lo => Survives m lo [] [.object lo]
  | .hashSet ho k obj =>
      match obj with
      | .null => DeleteSpares m ho k
      | obj => ∀ h, IsHash m ho h → ∀ n ∈ h.nodes, n.key.text = k.text →
          obj ≠ .object n.object →
          Survives m ho ((nodesRefs h.nodes).erase n.object) (.object ho :: obj.needed)
  | .hashDelete ho k => DeleteSpares m ho k
  | .hashClear ho => Survives m ho [] [.object ho]
  | _ => True

/-- No count comes to the limit. -/
def Fitting (m : Memory) : MemoryOp → Prop
  | .incref x => m.refcount x + 1 < countLimit
  | .listInsert _ _ item => ∀ x, item = .object x → m.refcount x + 1 < countLimit
  | .listSet _ _ val => ∀ x, val = .object x → m.refcount x + 1 < countLimit
  | .listCopy lo => ∀ items, IsList m lo items → Fits m items
  | .hashSet _ _ _ => ∀ x, m.refcount x + 2 < countLimit
  | .hashCopy ho => ∀ h, IsHash m ho h → Fits m (nodesRefs h.nodes)
  | _ => True

theorem memoryStep_kept (hk : m.Kept) (op : MemoryOp) (hallowed : Allowed m op)
    (hspared : Spared m op) (hfitting : Fitting m op) :
    ∃ m', memoryStep m op = some m' ∧ m'.Kept := by
  cases op with
  | newString c => exact ⟨_, rfl, newString_kept hk c⟩
  | newList => exact ⟨_, rfl, newContainer_kept hk (.list []) rfl nofun⟩
  | newHash =>
      exact ⟨_, rfl, newContainer_kept hk (.hash newHash) rfl
        fun h hh => Container.hash.inj hh ▸ stored_replicate (by omega)⟩
  | incref x => exact ⟨_, rfl, hold_kept hk hallowed hfitting⟩
  | delete x => exact deleteOutside_kept hk hallowed
  | listInsert lo pos item =>
      obtain ⟨⟨items, hlist⟩, hlive⟩ := hallowed
      exact listInsert_kept hk hlist hlive hfitting
  | listSet lo n val =>
      obtain ⟨items, hlist, hn, hlt, hval⟩ := hallowed
      cases val with
      | null =>
          refine ⟨m, ?_, hk⟩
          show listSet m lo n .null = some m
          unfold listSet
          rw [getList_of hk.toSane hlist.1 hlist.2]
          rfl
      | cstring c => exact hspared.elim
      | object x =>
          exact listSet_kept hk hlist hn hlt (hval x rfl) (hfitting x rfl) (hspared items hlist)
  | listRemove lo pos =>
      obtain ⟨items, p, hlist, hpos⟩ := hallowed
      exact listRemove_kept hk hlist hpos (hspared items p hlist hpos)
  | listClear lo =>
      obtain ⟨items, hlist⟩ := hallowed
      exact listClear_kept hk hlist hspared
  | listCopy lo =>
      obtain ⟨items, hlist⟩ := hallowed
      exact listCopy_kept hk hlist (hfitting items hlist)
  | hashSet ho k obj =>
      obtain ⟨⟨h, hhash⟩, hkey, hobj⟩ := hallowed
      cases obj with
      | null => exact hashDelete_kept hk hhash hkey (hspared h hhash)
      | object x => exact hashSet_kept hk hhash hkey hobj nofun hfitting (hspared h hhash)
      | cstring c => exact hashSet_kept hk hhash hkey hobj nofun hfitting (hspared h hhash)
  | hashDelete ho k =>
      obtain ⟨⟨h, hhash⟩, hkey⟩ := hallowed
      exact hashDelete_kept hk hhash hkey (hspared h hhash)
  | hashClear ho =>
      obtain ⟨h, hhash⟩ := hallowed
      exact hashClear_kept hk hhash hspared
  | hashCopy ho =>
      obtain ⟨h, hhash⟩ := hallowed
      exact hashCopy_kept hk hhash (hfitting h hhash)

/-- A run in which the caller sees to what it has to, nothing is freed that is still used and no
count comes to its limit. -/
inductive MemoryRun : Memory → List MemoryOp → Memory → Prop
  | nil (m : Memory) : MemoryRun m [] m
  | cons {m m' m'' : Memory} {op : MemoryOp} {ops : List MemoryOp} : Allowed m op →
      Spared m op → Fitting m op → memoryStep m op = some m' → MemoryRun m' ops m'' →
      MemoryRun m (op :: ops) m''

/-- No slot of a container that is there refers to an object without a count, or to one that has
been freed. -/
def SlotsLive (m : Memory) : Prop :=
  ∀ id, 0 < m.refcount (.object id) →
    ∀ x ∈ refsOf m (.object id), 0 < m.refcount x ∧ x ∉ m.freed

/-- Every count is the references held outside and the slots, and the slots refer to what is
there. -/
structure CountsRight (m : Memory) : Prop where
  counts : ∀ x, m.refcount x = m.outside x + slots m noView x
  slots_live : SlotsLive m

theorem Memory.Kept.slotsLive (hk : m.Kept) : SlotsLive m := by
  intro id hid x hx
  have hmem : x ∈ heldIn m noView id := by
    rw [heldIn_noView hid]
    exact hx
  have hpos := slotCount_pos (hk.madeOf hid : id < m.containers.length) hmem
  have hsum := hk.balanced x
  have hlive : 0 < m.refcount x := by
    unfold slots at hsum
    omega
  exact ⟨hlive, hk.notFreed hlive⟩

theorem Memory.Kept.count_eq (hk : m.Kept) (x : Obj) :
    m.refcount x = m.outside x + slots m noView x + m.ignored x := by
  have hsum := hk.balanced x
  unfold rests at hsum
  rw [List.count_nil] at hsum
  omega

theorem empty_kept : Memory.empty.Kept where
  freed := fun _ hx => absurd hx List.not_mem_nil
  made := fun _ _ => rfl
  texts := trivial
  tree := trivial
  ignored := fun _ _ => rfl
  bounded := fun _ => (by decide : 0 < countLimit)
  hashes := nofun
  balanced := fun _ => rfl

theorem MemoryRun.kept {ops : List MemoryOp} (h : MemoryRun m ops m') (hk : m.Kept) :
    m'.Kept := by
  induction h with
  | nil m => exact hk
  | cons hallowed hspared hfitting hstep _ ih =>
      obtain ⟨m₁, hrun, hk₁⟩ := memoryStep_kept hk _ hallowed hspared hfitting
      rw [hstep] at hrun
      exact ih (Option.some.inj hrun ▸ hk₁)

/-- In every state of such a run a count is the references held outside, the slots, and how often
`Delete` was called for an interned string; the slots refer to what is there, and the run can
always go on. The counts are what they should be just where no such call was made. -/
theorem memoryRun_counts {ops : List MemoryOp} (h : MemoryRun .empty ops m) :
    (∀ x, m.refcount x = m.outside x + slots m noView x + m.ignored x ∧
      (m.interned x = false → m.ignored x = 0)) ∧
      SlotsLive m ∧ (CountsRight m ↔ ∀ x, m.ignored x = 0) ∧
      ∀ op, Allowed m op → Spared m op → Fitting m op → ∃ m', memoryStep m op = some m' := by
  have hk := h.kept empty_kept
  refine ⟨fun x => ⟨hk.count_eq x, hk.ignored x⟩, hk.slotsLive, ⟨fun hcounts x => ?_, fun hnone =>
    ⟨fun x => ?_, hk.slotsLive⟩⟩, fun op hallowed hspared hfitting => ?_⟩
  · have hsum := hk.count_eq x
    have hright := hcounts.counts x
    omega
  · rw [hk.count_eq x, hnone x, Nat.add_zero]
  · obtain ⟨m', hrun, -⟩ := memoryStep_kept hk op hallowed hspared hfitting
    exact ⟨m', hrun⟩

/-- A hash that holds a string. -/
theorem memoryRun_counts_hash :
    ∃ m, MemoryRun .empty [.newHash, .hashSet 0 (.cstring ['k']) (.cstring ['a'])] m ∧
      CountsRight m := by
  have hspared : Spared (allocContainer .empty (.hash newHash))
      (.hashSet 0 (.cstring ['k']) (.cstring ['a'])) := by
    intro h hhash n hn
    obtain rfl : newHash = h := Container.hash.inj (Option.some.inj hhash.1)
    cases hn
  have hfitting : Fitting (allocContainer .empty (.hash newHash))
      (.hashSet 0 (.cstring ['k']) (.cstring ['a'])) := by
    intro x
    have hlimit : 3 < countLimit := by decide
    show (incref .empty (.object 0)).refcount x + 2 < _
    by_cases hx : x = .object 0
    · rw [hx, incref_self (m := .empty) (show 1 < countLimit by omega)]
      show 1 + 2 < _
      omega
    · rw [incref_ne hx]
      show 0 + 2 < _
      omega
  have h : MemoryRun .empty [.newHash, .hashSet 0 (.cstring ['k']) (.cstring ['a'])] _ :=
    .cons trivial trivial trivial rfl
      (.cons ⟨⟨newHash, rfl, by decide⟩, trivial, trivial⟩ hspared hfitting rfl (.nil _))
  exact ⟨_, h, ((memoryRun_counts h).2.2.1).2 fun _ => rfl⟩

/-- `Setitem` of a C string into a list of one item: the new string is freed at once, and
the slot still refers to it. -/
theorem listSet_frees_string : ∃ m,
    [MemoryOp.newList, .listInsert 0 (-2) (.cstring ['a']), .listSet 0 0 (.cstring ['b'])].foldlM
      memoryStep .empty = some m ∧
    0 < m.refcount (.object 0) ∧ refsOf m (.object 0) = [.string (newString 1 ['b'])] ∧
    m.refcount (.string (newString 1 ['b'])) = 0 ∧ ¬ CountsRight m := by
  refine ⟨_, rfl, by decide, by decide, by decide, fun h => ?_⟩
  have hslot := (h.slots_live 0 (by decide) (.string (newString 1 ['b'])) (by decide)).1
  exact absurd hslot (by decide)

/-- `Setattr` of the one item of a list at the key that has the list, of which there is
no other reference: the item is freed with the list before it is put into the slot. -/
theorem hashSet_frees_value : ∃ m,
    [MemoryOp.newList, .listInsert 0 (-2) (.cstring ['a']), .newHash,
      .hashSet 1 (.cstring ['k']) (.object (.object 0)), .delete (.object 0),
      .hashSet 1 (.cstring ['k']) (.object (.string (newString 0 ['a'])))].foldlM
      memoryStep .empty = some m ∧
    0 < m.refcount (.object 1) ∧ .string (newString 0 ['a']) ∈ refsOf m (.object 1) ∧
    .string (newString 0 ['a']) ∈ m.freed ∧ ¬ CountsRight m := by
  refine ⟨_, rfl, by decide, by decide, by decide, fun h => ?_⟩
  have hslot := (h.slots_live 1 (by decide) (.string (newString 0 ['a'])) (by decide)).2
  exact hslot (by decide)

/-- `Setattr` and `Delattr` with a C string as key: the reference that the slot had to the
interned string is still counted, and nobody has it. -/
theorem hashDelete_leaves_count : ∃ m,
    [MemoryOp.newHash, .hashSet 0 (.cstring ['k']) (.cstring ['a']),
      .hashDelete 0 (.cstring ['k'])].foldlM memoryStep .empty = some m ∧
    m.refcount (.string (newString 0 ['k'])) = 2 ∧ m.outside (.string (newString 0 ['k'])) = 1 ∧
    refsOf m (.object 0) = [] ∧ ¬ CountsRight m := by
  refine ⟨_, rfl, by decide, by decide, by decide, fun h => ?_⟩
  exact absurd (h.counts (.string (newString 0 ['k']))) (by decide)

end Swig4Ada.Doh

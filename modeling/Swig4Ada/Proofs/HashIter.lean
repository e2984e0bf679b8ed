import Swig4Ada.Doh.HashIter
import Swig4Ada.Proofs.Hash

/-!
# An iteration goes once through a hash

Setting a value and deleting an entry change the chains entry by entry, and the iterator is
behind the entry that was returned already: what it has before it stays as it is. So the keys
are returned one after the other in the order they had at the start, and what is done in the
turns is done to the contents one turn after the other.
-/

namespace Swig4Ada.Doh

open Lib

variable {V : Type} {h : Hash V} {k : StringObject} {keys : List StringObject}
  {c : Cursor StringObject}

/-! ## Changes entry by entry -/

/-- A key is in the bucket of its hash value only. -/
theorem Hash.Kept.other_bucket (hk : h.Kept) (hkey : k.Valid) {j : Nat} {b : List (HashNode V)}
    (hj : j ≠ stringHash k % h.hashsize) (hb : h.hashtable[j]? = some b) :
    ∀ n ∈ b, n.key.text ≠ k.text := by
  intro n hn htext
  have hmem : n ∈ h.nodes := List.mem_flatten.2 ⟨b, List.mem_of_getElem? hb, hn⟩
  have hslot := hk.placed j b hb n hn
  rw [nodeSlot, (hk.valid n hmem).stringHash_eq, htext, ← hkey.stringHash_eq] at hslot
  exact hj hslot.symm

theorem Hash.Kept.bucket_once (hk : h.Kept) (i : Nat) : Once (bucket h.hashtable i) := by
  by_cases hi : i < h.hashtable.length
  · obtain ⟨rest, hperm, -⟩ := exists_rest hi
    have honce := hk.once.perm hperm
    rw [Once, List.map_append] at honce
    exact (List.nodup_append.1 honce).1
  · rw [bucket, List.getD_eq_getElem?_getD, List.getElem?_eq_none (by omega)]
    exact List.nodup_nil

/-- In a chain the key of one entry is that of no other. -/
theorem Once.others {before after : List (HashNode V)} {n : HashNode V}
    (h : Once (before ++ n :: after)) :
    (∀ m ∈ before, m.key.text ≠ n.key.text) ∧ ∀ m ∈ after, m.key.text ≠ n.key.text := by
  rw [Once, List.map_append, List.map_cons, List.nodup_append, List.nodup_cons] at h
  refine ⟨fun m hm => h.2.2 _ (List.mem_map_of_mem hm) _ List.mem_cons_self, fun m hm heq => ?_⟩
  exact h.2.1.1 (heq ▸ List.mem_map_of_mem (f := fun n => n.key.text) hm)

/-- The change of an entry when a value is set. -/
def setValue (k : StringObject) (obj : V) (n : HashNode V) : HashNode V :=
  if n.key.text = k.text then { n with object := obj } else n

theorem setValue_key (k : StringObject) (obj : V) (n : HashNode V) :
    (setValue k obj n).key = n.key := by
  rw [setValue]
  split <;> rfl

theorem edited_setValue {k : StringObject} {obj : V} {chain : List (HashNode V)}
    (h : ∀ n ∈ chain, n.key.text ≠ k.text) :
    edited (fun _ => true) (setValue k obj) chain = chain := by
  rw [edited, List.filter_eq_self.2 fun _ _ => rfl]
  exact (List.map_congr_left fun n hn => if_neg (h n hn)).trans (List.map_id _)

theorem edited_delete {k : StringObject} {chain : List (HashNode V)}
    (h : ∀ n ∈ chain, n.key.text ≠ k.text) :
    edited (fun n => n.key.text ≠ k.text) id chain = chain := by
  rw [edited, List.filter_eq_self.2 fun n hn => by simpa using h n hn, List.map_id]

/-- `Hash_delattr` drops the entry with the key, wherever it is. -/
theorem hashDelattr_table (hk : h.Kept) (hkey : k.Valid) :
    (hashDelattr h k).1.hashtable =
      h.hashtable.map (edited (fun n => n.key.text ≠ k.text) id) := by
  have hslot : stringHash k % h.hashsize < h.hashtable.length := Nat.mod_lt _ hk.size
  rw [hashDelattr]
  cases hchain : delChain k (bucket h.hashtable (stringHash k % h.hashsize)) with
  | none =>
      refine (map_eq_self fun b hb => edited_delete fun n hn => ?_).symm
      exact findNode_none hk hkey (delChain_none hchain) n (List.mem_flatten.2 ⟨b, hb, hn⟩)
  | some chain =>
      obtain ⟨before, n, after, hfind, hold, hnew⟩ := delChain_some hchain
      have htext : n.key.text = k.text := (findNode_some hk.toStored hfind).2
      have honce := hk.bucket_once (stringHash k % h.hashsize)
      rw [hold] at honce
      obtain ⟨hbefore, hafter⟩ := honce.others
      rw [htext] at hbefore hafter
      have hedited : chain = edited (fun n => n.key.text ≠ k.text) id
          (bucket h.hashtable (stringHash k % h.hashsize)) := by
        rw [hold, hnew, edited, List.filter_append, List.filter_cons_of_neg (by simpa using htext),
          List.map_id]
        rw [List.filter_eq_self.2 fun n hn => by simpa using hbefore n hn,
          List.filter_eq_self.2 fun n hn => by simpa using hafter n hn]
      rw [hedited]
      exact set_eq_map hslot fun j b hj hb => edited_delete (hk.other_bucket hkey hj hb)

/-- Setting the value of a key that is there changes its entry. -/
theorem replaceValue_table [DecidableEq V] (hk : h.Kept) {entry : StringObject × V}
    (hkey : entry.1.Valid) :
    (replaceValue h entry).hashtable =
      h.hashtable.map (edited (fun _ => true) (setValue entry.1 entry.2)) := by
  obtain ⟨k, obj⟩ := entry
  have hslot : stringHash k % h.hashsize < h.hashtable.length := Nat.mod_lt _ hk.size
  rw [replaceValue, hashSetNode]
  cases hchain : setChain k obj (bucket h.hashtable (stringHash k % h.hashsize)) with
  | none =>
      have hsame : h.hashtable.map (edited (fun _ => true) (setValue k obj)) = h.hashtable :=
        map_eq_self fun b hb => edited_setValue fun n hn =>
          findNode_none hk hkey (setChain_none hchain) n (List.mem_flatten.2 ⟨b, hb, hn⟩)
      rw [hsame]
      dsimp only
      generalize resize (_ : Hash V) = resized
      cases resized with
      | none => rfl
      | some h' => rfl
  | some chain =>
      obtain ⟨before, n, after, hfind, hold, hnew⟩ := setChain_some hchain
      have htext : n.key.text = k.text := (findNode_some hk.toStored hfind).2
      have honce := hk.bucket_once (stringHash k % h.hashsize)
      rw [hold] at honce
      obtain ⟨hbefore, hafter⟩ := honce.others
      rw [htext] at hbefore hafter
      have hone : edited (fun _ => true) (setValue k obj) (n :: after) =
          { n with object := obj } :: edited (fun _ => true) (setValue k obj) after := by
        rw [edited, List.filter_cons_of_pos rfl]
        exact congrArg (· :: _) (if_pos htext)
      have hedited : chain = edited (fun _ => true) (setValue k obj)
          (bucket h.hashtable (stringHash k % h.hashsize)) := by
        rw [hold, hnew, edited_append, hone, edited_setValue hbefore, edited_setValue hafter]
      show h.hashtable.set _ chain = _
      rw [hedited]
      exact set_eq_map hslot fun j b hj hb => edited_setValue (hk.other_bucket hkey hj hb)

/-! ## What comes next -/

/-- The keys that the iterator has before it. -/
structure Ahead (h : Hash V) (c : Cursor StringObject) (keys : List StringObject) : Prop where
  kept : h.Kept
  points : Points HashNode.key h.hashtable c
  keys : (pending HashNode.key h.hashtable c).map HashNode.key = keys

theorem Ahead.delete (ha : Ahead h c keys) (hkey : k.Valid)
    (hother : ∀ k' ∈ keys, k'.text ≠ k.text) :
    Ahead (hashDelattr h k).1 c keys := by
  have hkeep : ∀ n ∈ pending HashNode.key h.hashtable c,
      decide (n.key.text ≠ k.text) = true := by
    intro n hn
    have hmem : n.key ∈ keys := ha.keys ▸ List.mem_map_of_mem hn
    simpa using hother n.key hmem
  refine ⟨(hashDelattr_kept ha.kept k).1, ?_, ?_⟩
  · rw [hashDelattr_table ha.kept hkey]
    exact ha.points.edited (fun _ => rfl) hkeep
  · rw [hashDelattr_table ha.kept hkey, pending_edited (f := id) (fun _ => rfl) hkeep, List.map_id,
      ha.keys]

/-- The chain of a bucket from an entry on is what the iterator gets. -/
theorem Hash.Kept.iterAt_ahead (hk : h.Kept) {i : Nat} {n : HashNode V}
    {next : List (HashNode V)}
    (hfrom : fromKey HashNode.key k (bucket h.hashtable i) = n :: next) :
    Ahead h ⟨i, (iterAt i (n :: next)).current⟩
      ((next ++ (h.hashtable.drop (i + 1)).flatten).map HashNode.key) := by
  have hnodup : ((bucket h.hashtable i).map HashNode.key).Nodup := by
    have honce := hk.bucket_once i
    rw [Once] at honce
    refine List.Nodup.of_map StringObject.text ?_
    rwa [List.map_map]
  cases next with
  | nil => exact ⟨hk, nofun, rfl⟩
  | cons m rest =>
      have hnext := fromKey_next hnodup hfrom
      refine ⟨hk, fun k' hk' => ?_, ?_⟩
      · obtain rfl := Option.some.inj hk'
        have hsuffix : fromKey HashNode.key m.key (bucket h.hashtable i) <:+
            bucket h.hashtable i := List.dropWhile_suffix _
        exact ⟨m, hsuffix.mem (by rw [hnext]; exact List.mem_cons_self), rfl⟩
      · rw [pending]
        dsimp only [iterAt, List.head?_cons, Option.map_some]
        rw [hnext]

/-- The iterator has returned the first of the keys and has the others before it, or it has
come to the end. -/
def Returned (h : Hash V) (iter : DohIterator V) : List StringObject → Prop
  | [] => iter.key = none
  | k :: keys =>
      iter.key = some k ∧ (∃ obj, iter.item = some obj ∧ h.contents.lookup k.text = some obj) ∧
        Ahead h ⟨iter.index, iter.current⟩ keys

theorem Hash.Kept.returned_iterAt (hk : h.Kept) {i : Nat} {n : HashNode V}
    {next : List (HashNode V)}
    (hfrom : fromKey HashNode.key k (bucket h.hashtable i) = n :: next) :
    Returned h (iterAt i (n :: next))
      (((n :: next) ++ (h.hashtable.drop (i + 1)).flatten).map HashNode.key) := by
  refine ⟨rfl, ⟨n.object, rfl, (lookup_mapOf hk.once).2 ⟨n, ?_, rfl, rfl⟩⟩, hk.iterAt_ahead hfrom⟩
  have hsuffix : fromKey HashNode.key k (bucket h.hashtable i) <:+ bucket h.hashtable i :=
    List.dropWhile_suffix _
  have hmem : n ∈ bucket h.hashtable i := hsuffix.mem (by rw [hfrom]; exact List.mem_cons_self)
  by_cases hi : i < h.hashtable.length
  · exact List.mem_flatten.2 ⟨_, List.mem_of_getElem? (getElem?_bucket hi), hmem⟩
  · rw [bucket, List.getD_eq_getElem?_getD, List.getElem?_eq_none (by omega)] at hmem
    cases hmem

/-- From a bucket on. -/
theorem Hash.Kept.returned_slot (hk : h.Kept) (i : Nat) :
    Returned h (iterAt (nextSlot h.hashtable i) (bucket h.hashtable (nextSlot h.hashtable i)))
      (((h.hashtable.drop i).flatten).map HashNode.key) := by
  rcases nextSlot_spec h.hashtable i with ⟨hbucket, hflatten⟩ | ⟨n, chain, hbucket, hflatten⟩
  · rw [hbucket, hflatten]
    exact rfl
  · rw [hflatten, hbucket]
    refine hk.returned_iterAt (k := n.key) ?_
    rw [hbucket]
    exact List.dropWhile_cons_of_neg (by simp)

theorem Ahead.next {iter : DohIterator V} (ha : Ahead h ⟨iter.index, iter.current⟩ keys) :
    ∃ iter', hashNextiter h iter = some iter' ∧ Returned h iter' keys := by
  rw [hashNextiter]
  cases hcurrent : iter.current with
  | none =>
      have hkeys := ha.keys
      rw [pending, hcurrent] at hkeys
      exact ⟨_, rfl, hkeys ▸ ha.kept.returned_slot (iter.index + 1)⟩
  | some k =>
      obtain ⟨n, next, hfrom, -⟩ := fromKey_mem (ha.points k hcurrent)
      have hkeys := ha.keys
      rw [pending, hcurrent] at hkeys
      dsimp only at hkeys hfrom ⊢
      rw [hfrom] at hkeys ⊢
      exact ⟨_, rfl, hkeys ▸ ha.kept.returned_iterAt hfrom⟩

/-! ## Turns on the contents -/

/-- What a turn does to the contents. -/
def Turn.contents (turn : Turn V) (k : StringObject) (m : Finmap fun _ : List Char => V) :
    Finmap fun _ : List Char => V :=
  let replace := fun (m : Finmap fun _ : List Char => V) (entry : StringObject × V) =>
    if entry.1.text ∈ m then m.insert entry.1.text entry.2 else m
  let m := turn.before.foldl replace m
  let m := if turn.delete then m.erase k.text else m
  turn.after.foldl replace m

/-- The loop on the contents: each key with its value when it is returned. -/
def visitAll (turns : Nat → Turn V) : Nat → List StringObject →
    (Finmap fun _ : List Char => V) →
      List (StringObject × Option V) × Finmap fun _ : List Char => V
  | _, [], m => ([], m)
  | j, k :: keys, m =>
      let later := visitAll turns (j + 1) keys ((turns j).contents k m)
      ((k, m.lookup k.text) :: later.1, later.2)

theorem visitAll_keys (turns : Nat → Turn V) (j : Nat) (keys : List StringObject)
    (m : Finmap fun _ : List Char => V) : (visitAll turns j keys m).1.map Prod.fst = keys := by
  induction keys generalizing j m with
  | nil => rfl
  | cons k keys ih => exact congrArg (k :: ·) (ih (j + 1) _)

theorem mem_replaced {entries : List (StringObject × V)} {m : Finmap fun _ : List Char => V}
    {text : List Char} :
    text ∈ entries.foldl (fun m entry =>
      if entry.1.text ∈ m then m.insert entry.1.text entry.2 else m) m ↔ text ∈ m := by
  induction entries generalizing m with
  | nil => rfl
  | cons entry entries ih =>
      rw [List.foldl_cons, ih]
      by_cases hmem : entry.1.text ∈ m
      · rw [if_pos hmem, Finmap.mem_insert]
        exact or_iff_right_of_imp fun htext => htext ▸ hmem
      · rw [if_neg hmem]

theorem Turn.mem_contents {turn : Turn V} {m : Finmap fun _ : List Char => V}
    {text : List Char} :
    text ∈ turn.contents k m ↔ text ∈ m ∧ (turn.delete = true → text ≠ k.text) := by
  rw [Turn.contents, mem_replaced]
  by_cases hd : turn.delete = true
  · rw [if_pos hd, Finmap.mem_erase, mem_replaced]
    exact ⟨fun ⟨hne, hmem⟩ => ⟨hmem, fun _ => hne⟩, fun ⟨hmem, hne⟩ => ⟨hne hd, hmem⟩⟩
  · rw [if_neg hd, mem_replaced]
    exact ⟨fun hmem => ⟨hmem, fun h => absurd h hd⟩, And.left⟩

/-- What is there behind the loop: what no turn has deleted. -/
theorem mem_visitAll {turns : Nat → Turn V} {j : Nat} {m : Finmap fun _ : List Char => V}
    {text : List Char} :
    text ∈ (visitAll turns j keys m).2 ↔
      text ∈ m ∧ ∀ i k, keys[i]? = some k → (turns (j + i)).delete = true → text ≠ k.text := by
  induction keys generalizing j m with
  | nil => exact ⟨fun h => ⟨h, nofun⟩, And.left⟩
  | cons k keys ih =>
      show text ∈ (visitAll turns (j + 1) keys ((turns j).contents k m)).2 ↔ _
      rw [ih, Turn.mem_contents, and_assoc]
      refine and_congr_right fun _ => ⟨fun ⟨hfirst, hlater⟩ i k' hk' hd => ?_, fun h => ⟨?_, ?_⟩⟩
      · cases i with
        | zero =>
            obtain rfl := Option.some.inj hk'
            exact hfirst hd
        | succ i => exact hlater i k' hk' (by rwa [Nat.add_right_comm])
      · exact h 0 k rfl
      · intro i k' hk' hd
        exact h (i + 1) k' hk' (by rwa [← Nat.add_assoc, Nat.add_right_comm])

/-! ## Turns -/

section Turns

variable [DecidableEq V]

theorem replaceValue_contents (hk : h.Kept) {entry : StringObject × V} (hkey : entry.1.Valid) :
    (replaceValue h entry).Kept ∧ (replaceValue h entry).contents =
      if entry.1.text ∈ h.contents then h.contents.insert entry.1.text entry.2
      else h.contents := by
  obtain ⟨h', r, hrun, hkept, hnodes⟩ := hashSetNode_kept hk hkey entry.2
  obtain ⟨hcontents, hr⟩ := hnodes.contents hk hkey hkept.once
  rw [replaceValue, hrun]
  by_cases hmem : entry.1.text ∈ mapOf h.nodes
  · rw [if_pos hmem] at hr
    rw [hr]
    exact ⟨hkept, hcontents.trans (if_pos hmem).symm⟩
  · rw [if_neg hmem] at hr
    rw [hr]
    exact ⟨hk, (if_neg hmem).symm⟩

theorem Ahead.replaceValue (ha : Ahead h c keys) {entry : StringObject × V}
    (hkey : entry.1.Valid) : Ahead (replaceValue h entry) c keys where
  kept := (replaceValue_contents ha.kept hkey).1
  points := by
    rw [replaceValue_table ha.kept hkey]
    exact ha.points.edited (setValue_key _ _) fun _ _ => rfl
  keys := by
    rw [replaceValue_table ha.kept hkey, pending_edited (setValue_key _ _) fun _ _ => rfl,
      List.map_map, ← ha.keys]
    exact List.map_congr_left fun n _ => setValue_key _ _ n

theorem Ahead.replaceValues {entries : List (StringObject × V)} (ha : Ahead h c keys)
    (hkeys : ∀ entry ∈ entries, entry.1.Valid) :
    Ahead (entries.foldl Doh.replaceValue h) c keys ∧
      (entries.foldl Doh.replaceValue h).contents = entries.foldl (fun m entry =>
        if entry.1.text ∈ m then m.insert entry.1.text entry.2 else m) h.contents := by
  induction entries generalizing h with
  | nil => exact ⟨ha, rfl⟩
  | cons entry entries ih =>
      have hkey := hkeys entry List.mem_cons_self
      rw [List.foldl_cons, List.foldl_cons, ← (replaceValue_contents ha.kept hkey).2]
      exact ih (ha.replaceValue hkey) fun entry he => hkeys entry (List.mem_cons_of_mem _ he)

/-- The keys for which values are set are hashed by their texts. -/
def Turn.KeysValid (turn : Turn V) : Prop :=
  ∀ entry ∈ turn.before ++ turn.after, entry.1.Valid

/-- A turn leaves the keys that come next as they are. -/
theorem Ahead.takeTurn (ha : Ahead h c keys) (hkey : k.Valid)
    (hother : ∀ k' ∈ keys, k'.text ≠ k.text) {turn : Turn V} (hturn : turn.KeysValid) :
    Ahead (takeTurn h k turn) c keys ∧
      (Doh.takeTurn h k turn).contents = turn.contents k h.contents := by
  obtain ⟨hbefore, hbeforeContents⟩ := ha.replaceValues fun entry he =>
    hturn entry (List.mem_append_left _ he)
  have hdelete : Ahead (if turn.delete = true then
        (hashDelattr (turn.before.foldl Doh.replaceValue h) k).1
        else turn.before.foldl Doh.replaceValue h) c keys ∧
      (if turn.delete = true then (hashDelattr (turn.before.foldl Doh.replaceValue h) k).1
        else turn.before.foldl Doh.replaceValue h).contents =
      if turn.delete = true then (turn.before.foldl Doh.replaceValue h).contents.erase k.text
        else (turn.before.foldl Doh.replaceValue h).contents := by
    by_cases hd : turn.delete = true
    · rw [if_pos hd, if_pos hd]
      exact ⟨hbefore.delete hkey hother,
        ((hashDelattr_kept hbefore.kept k).2.contents hbefore.kept hkey).1⟩
    · rw [if_neg hd, if_neg hd]
      exact ⟨hbefore, rfl⟩
  obtain ⟨hafter, hafterContents⟩ := hdelete.1.replaceValues fun entry he =>
    hturn entry (List.mem_append_right _ he)
  refine ⟨hafter, hafterContents.trans ?_⟩
  rw [hdelete.2, hbeforeContents]
  rfl

/-! ## The whole loop -/

theorem hashLoop_returned {turns : Nat → Turn V} (hturns : ∀ j, (turns j).KeysValid)
    {j fuel : Nat} {iter : DohIterator V} (hk : h.Kept) (hvalid : ∀ k ∈ keys, k.Valid) (hret : Returned h iter keys)
    (hnodup : (keys.map StringObject.text).Nodup) (hfuel : keys.length < fuel) :
    ∃ visits h', hashLoop turns fuel j h iter = some (visits, h') ∧ h'.Kept ∧
      (visits.map fun e => (e.1, some e.2), h'.contents) = visitAll turns j keys h.contents := by
  induction keys generalizing j h iter fuel with
  | nil =>
      obtain ⟨fuel, rfl⟩ : ∃ f, fuel = f + 1 := ⟨fuel - 1, by omega⟩
      have hkey : iter.key = none := hret
      refine ⟨[], h, ?_, hk, rfl⟩
      rw [hashLoop, hkey]
  | cons k keys ih =>
      obtain ⟨fuel, rfl⟩ : ∃ f, fuel = f + 1 := ⟨fuel - 1, by omega⟩
      obtain ⟨hkey, ⟨obj, hitem, hlookup⟩, hahead⟩ := hret
      obtain ⟨hnot, hnodup⟩ := List.nodup_cons.1 hnodup
      have hother : ∀ k' ∈ keys, k'.text ≠ k.text := fun k' hk' heq =>
        hnot (heq ▸ List.mem_map_of_mem hk')
      obtain ⟨hturn, hcontents⟩ :=
        hahead.takeTurn (hvalid k List.mem_cons_self) hother (hturns j)
      obtain ⟨iter', hnext, hret'⟩ := hturn.next
      obtain ⟨visits, h', hloop, hk', hvisits⟩ :=
        @ih _ (j + 1) fuel iter' hturn.kept (fun k hk => hvalid k (List.mem_cons_of_mem _ hk)) hret'
          hnodup (Nat.lt_of_succ_lt_succ hfuel)
      refine ⟨(k, obj) :: visits, h', ?_, hk', ?_⟩
      · rw [hashLoop, hkey, hitem]
        dsimp only
        rw [hnext, Option.bind_some, hloop]
        rfl
      · rw [hcontents] at hvisits
        rw [visitAll, ← hvisits, hlookup]
        rfl

end Turns

/-- With keys that are hashed by their texts: whatever the turns do with the entries they have and
with values, the loop ends; it returns every key that was there at its start once, with its value
at that time, and the hash then has the keys that no turn has deleted. -/
theorem hash_iteration [DecidableEq V] {ops : List (HashOp V)} (hops : ∀ op ∈ ops, op.KeyValid)
    {w : Hashes V} {answers : List (HashAnswer V)} (hrun : hashRun .empty ops = some (w, answers))
    {h : Hash (Value V)} (hh : h ∈ w.hashes) {turns : Nat → Turn (Value V)}
    (hturns : ∀ j, (turns j).KeysValid) {fuel : Nat} (hfuel : h.nodes.length < fuel) :
    ∃ visits h', hashLoop turns fuel 0 h (hashFirstiter h) = some (visits, h') ∧
      visits.map Prod.fst = h.nodes.map HashNode.key ∧
      (h.nodes.map fun n => n.key.text).Nodup ∧
      (∀ text, text ∈ h'.contents ↔
        ∃ i n, h.nodes[i]? = some n ∧ n.key.text = text ∧ (turns i).delete = false) ∧
      (visits.map fun e => (e.1, some e.2), h'.contents) =
        visitAll turns 0 (h.nodes.map HashNode.key) h.contents := by
  obtain ⟨w', answers', hrun', hw, -⟩ := hashRun_from ops Hashes.kept_empty hops
  rw [hrun] at hrun'
  obtain ⟨rfl, rfl⟩ := Prod.mk.inj (Option.some.inj hrun')
  have hk := hw.hashes h hh
  have honce : ((h.nodes.map HashNode.key).map StringObject.text).Nodup := by
    rw [List.map_map]
    exact hk.once
  have hfirst : Returned h (hashFirstiter h) (h.nodes.map HashNode.key) := hk.returned_slot 0
  have hvalid : ∀ k ∈ h.nodes.map HashNode.key, k.Valid := by
    intro k hmem
    obtain ⟨n, hn, rfl⟩ := List.mem_map.1 hmem
    exact hk.valid n hn
  obtain ⟨visits, h', hloop, hk', hvisits⟩ := @hashLoop_returned _ _ _ _ _ hturns 0 fuel _ hk
    hvalid hfirst honce (by rwa [List.length_map])
  refine ⟨visits, h', hloop, ?_, hk.once, fun text => ?_, hvisits⟩
  · have hkeys := congrArg (fun r => r.1.map Prod.fst) hvisits
    rw [visitAll_keys, List.map_map] at hkeys
    exact hkeys
  · have hmap : h'.contents =
        (visitAll turns 0 (h.nodes.map HashNode.key) h.contents).2 := congrArg Prod.snd hvisits
    rw [hmap, mem_visitAll]
    constructor
    · intro ⟨hmem, hother⟩
      obtain ⟨n, hn, htext⟩ := (mem_mapOf hk.once).1 hmem
      obtain ⟨i, hi⟩ := List.mem_iff_getElem?.1 hn
      refine ⟨i, n, hi, htext, ?_⟩
      cases hd : (turns i).delete with
      | false => rfl
      | true =>
          have hkey : (h.nodes.map HashNode.key)[i]? = some n.key := by
            rw [List.getElem?_map, hi]
            rfl
          exact absurd htext.symm (hother i n.key hkey (by rwa [Nat.zero_add]))
    · intro ⟨i, n, hi, htext, hkept⟩
      refine ⟨(mem_mapOf hk.once).2 ⟨n, List.mem_of_getElem? hi, htext⟩, fun j k hj hd heq => ?_⟩
      have hsame : i = j := by
        refine (List.getElem?_inj (by simpa using (List.getElem?_eq_some_iff.1 hi).1) honce).1 ?_
        rw [List.getElem?_map, List.getElem?_map, List.getElem?_map, hi, hj, Option.map_some,
          Option.map_some, Option.map_some, htext, heq]
      rw [hsame, ← Nat.zero_add j, hd] at hkept
      cases hkept

/-- A hash with the keys `a` and `h`, which are in one bucket. -/
def twoEntries : Hash (Value Unit) where
  hashtable := [[], [], [], [], [], [],
    [⟨newString 0 ['a'], .object ()⟩, ⟨newString 1 ['h'], .object ()⟩]]
  nitems := 2

/-- The first entry is deleted when it is returned. -/
theorem twoEntries_iteration :
    ∃ visits h', hashLoop (fun j => ⟨[], j = 0, []⟩) 3 0 twoEntries (hashFirstiter twoEntries) =
        some (visits, h') ∧
      visits.map Prod.fst = [newString 0 ['a'], newString 1 ['h']] ∧ ['h'] ∈ h'.contents := by
  have hrun : hashRun .empty [.new, .set 0 (.cstring ['a']) (.object (.object ())),
      .set 0 (.cstring ['h']) (.object (.object ()))] =
        some (⟨_, 2, [twoEntries]⟩, [.nothing, .number 0, .number 0]) := rfl
  have hvalid : ∀ op ∈ ([.new, .set 0 (.cstring ['a']) (.object (.object ())),
      .set 0 (.cstring ['h']) (.object (.object ()))] : List (HashOp Unit)), op.KeyValid := by
    intro op hop
    simp only [List.mem_cons, List.not_mem_nil, or_false] at hop
    rcases hop with rfl | rfl | rfl <;> trivial
  have hturns : ∀ j : Nat, Turn.KeysValid (⟨[], j = 0, []⟩ : Turn (Value Unit)) :=
    fun j entry he => absurd he List.not_mem_nil
  obtain ⟨visits, h', hloop, hkeys, -, hcontents, -⟩ := hash_iteration hvalid hrun
    List.mem_cons_self hturns
    (show twoEntries.nodes.length < 3 by decide)
  exact ⟨visits, h', hloop, hkeys, (hcontents ['h']).2 ⟨1, _, rfl, rfl, rfl⟩⟩

/-- Two keys with one text, and as many others as make the table larger. -/
def staleOps : List (HashOp Bool) :=
  [.new, .set 0 (.object writtenKey) (.object (.object true)),
    .set 0 (.object staleKey) (.object (.object false))] ++
  ['b', 'c', 'd', 'e', 'f', 'g', 'h', 'i', 'j', 'k', 'l', 'm'].map fun c =>
    .set 0 (.cstring [c]) (.object (.object true))

/-- In the larger table both keys are in one chain: where the second is deleted when it is
returned, the first is gone, which was kept. -/
theorem staleKey_deletesOther :
    ∃ w answers h, hashRun .empty staleOps = some (w, answers) ∧ w.hashes = [h] ∧
      ∃ visits h', hashLoop (fun j => ⟨[], j = 9, []⟩) 15 0 h (hashFirstiter h) =
          some (visits, h') ∧
        visits[8]? = some (writtenKey, .object true) ∧
        visits[9]? = some (staleKey, .object false) ∧
        writtenKey ∉ h'.nodes.map HashNode.key ∧ staleKey ∈ h'.nodes.map HashNode.key := by
  refine ⟨_, _, _, rfl, rfl, _, _, rfl, rfl, rfl, ?_, ?_⟩
  · decide
  · decide

end Swig4Ada.Doh

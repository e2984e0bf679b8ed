import Swig4Ada.Doh.Hash

/-!
# A hash is a finite map

What a hash says is the finite map `contents` of its nodes. Every operation is
described on the nodes first, in any order and without buckets (`hashSetNode_nodes`,
`hashDelattr_nodes`); the finite map and everything else that only depends on the nodes
follows from that. Each node is in the bucket of the number that its key hashes to, whatever
that is (`Stored`). `Kept` is what keeps the three ways to compare keys in step: no text is
there twice, and the number that a key keeps, if it does, is that of its text.

The search for a new size ends because there is a prime below twice its start.
-/

namespace Swig4Ada.Doh

open Lib

variable {V : Type}

/-! ## Comparing keys -/

theorem cmpText_eq_zero {less : Char → Char → Bool} {s₁ s₂ : List Char} :
    cmpText less s₁ s₂ = 0 ↔ s₁ = s₂ := by
  induction s₁ generalizing s₂ with
  | nil =>
      cases s₂ with
      | nil => exact ⟨fun _ => rfl, fun _ => rfl⟩
      | cons c s₂ => simp [cmpText]
  | cons c₁ s₁ ih =>
      cases s₂ with
      | nil => simp [cmpText]
      | cons c₂ s₂ =>
          unfold cmpText
          by_cases hc : c₁ = c₂
          · rw [if_neg (not_not_intro hc), ih, hc]
            simp
          · rw [if_pos hc]
            split
            · simp [hc]
            · simp [hc]

theorem stringCmp_eq_zero {s₁ s₂ : StringObject} : stringCmp s₁ s₂ = 0 ↔ s₁.text = s₂.text :=
  cmpText_eq_zero

theorem zip_all_beq : ∀ {s₁ s₂ : List Char}, s₁.length = s₂.length →
    (((s₁.zip s₂).all fun c => c.1 == c.2) = true ↔ s₁ = s₂)
  | [], [], _ => by simp
  | c₁ :: s₁, c₂ :: s₂, h => by
      have ih := zip_all_beq (Nat.succ.inj h)
      rw [List.zip_cons_cons, List.all_cons, Bool.and_eq_true, ih]
      simp

theorem stringEqual_iff {s₁ s₂ : StringObject} : stringEqual s₁ s₂ = true ↔ s₁.text = s₂.text := by
  unfold stringEqual
  by_cases hlen : s₁.text.length = s₂.text.length
  · rw [if_neg (not_not_intro hlen)]
    exact zip_all_beq hlen
  · rw [if_pos hlen]
    constructor
    · exact fun h => absurd h Bool.false_ne_true
    · exact fun h => absurd (congrArg List.length h) hlen

/-- The number that the string keeps is the one of its text. -/
def StringObject.Valid (s : StringObject) : Prop := ∀ h, s.hashkey = some h → h = hashText s.text

theorem newString_valid (serial : Nat) (text : List Char) : (newString serial text).Valid := by
  intro h hkey
  cases hkey

theorem StringObject.Valid.stringHash_eq {s : StringObject} (hs : s.Valid) :
    stringHash s = hashText s.text := by
  unfold stringHash
  split
  · rename_i h hkey
    exact hs h hkey
  · rfl

/-! ## Interned keys -/

/-- Every string object of the tree has the text it was made from, and was made from that. -/
def KeyTree.Texts : KeyTree → Prop
  | .none => True
  | .node cstr sstr left right =>
      (sstr.text = cstr ∧ sstr.hashkey = .none) ∧ left.Texts ∧ right.Texts

theorem findKey_texts {serial : Nat} {c : List Char} {t : KeyTree} (h : t.Texts) :
    (findKey serial c t).1.Texts ∧ (findKey serial c t).2.text = c ∧
      (findKey serial c t).2.hashkey = none := by
  induction t with
  | none => exact ⟨⟨⟨rfl, rfl⟩, trivial, trivial⟩, rfl, rfl⟩
  | node cstr sstr left right ihl ihr =>
      obtain ⟨hs, hl, hr⟩ := h
      unfold findKey
      dsimp only
      split
      · rename_i hd
        exact ⟨⟨hs, hl, hr⟩, hs.1.trans (cmpText_eq_zero.1 hd), hs.2⟩
      · split
        · exact ⟨⟨hs, (ihl hl).1, hr⟩, (ihl hl).2⟩
        · exact ⟨⟨hs, hl, (ihr hr).1⟩, (ihr hr).2⟩

/-! ## The nodes as a finite map -/

/-- The finite map of some nodes. -/
def mapOf (nodes : List (HashNode V)) : Finmap fun _ : List Char => V :=
  (nodes.map fun n => (⟨n.key.text, n.object⟩ : Σ _ : List Char, V)).toFinmap

/-- No text is the key of two nodes. -/
def Once (nodes : List (HashNode V)) : Prop := (nodes.map fun n => n.key.text).Nodup

def Hash.contents (h : Hash V) : Finmap fun _ : List Char => V := mapOf h.nodes

theorem Once.nodupKeys {nodes : List (HashNode V)} (h : Once nodes) :
    (nodes.map fun n => (⟨n.key.text, n.object⟩ : Σ _ : List Char, V)).NodupKeys := by
  unfold List.NodupKeys List.keys
  rw [List.map_map]
  exact h

theorem Once.perm {nodes nodes' : List (HashNode V)} (h : Once nodes) (hperm : nodes.Perm nodes') :
    Once nodes' := (hperm.map _).nodup_iff.1 h

theorem mapOf_cons (n : HashNode V) (nodes : List (HashNode V)) :
    mapOf (n :: nodes) = (mapOf nodes).insert n.key.text n.object :=
  Finmap.toFinmap_cons _ _ _

theorem mapOf_perm {nodes nodes' : List (HashNode V)} (h : Once nodes)
    (hperm : nodes.Perm nodes') : mapOf nodes = mapOf nodes' := by
  refine Finmap.ext_lookup fun c => ?_
  unfold mapOf
  rw [Finmap.dlookup_list_toFinmap, Finmap.dlookup_list_toFinmap]
  exact List.perm_dlookup c h.nodupKeys (hperm.map _)

theorem lookup_mapOf {nodes : List (HashNode V)} (h : Once nodes) {c : List Char} {v : V} :
    (mapOf nodes).lookup c = some v ↔ ∃ n ∈ nodes, n.key.text = c ∧ n.object = v := by
  unfold mapOf
  rw [Finmap.dlookup_list_toFinmap, ← Option.mem_def, List.mem_dlookup_iff h.nodupKeys]
  simp

theorem mem_mapOf {nodes : List (HashNode V)} (h : Once nodes) {c : List Char} :
    c ∈ mapOf nodes ↔ ∃ n ∈ nodes, n.key.text = c := by
  rw [← Finmap.lookup_isSome, Option.isSome_iff_exists]
  constructor
  · rintro ⟨v, hv⟩
    obtain ⟨n, hn, hc, _⟩ := (lookup_mapOf h).1 hv
    exact ⟨n, hn, hc⟩
  · rintro ⟨n, hn, hc⟩
    exact ⟨n.object, (lookup_mapOf h).2 ⟨n, hn, hc, rfl⟩⟩

theorem card_mapOf {nodes : List (HashNode V)} (h : Once nodes) :
    (mapOf nodes).keys.card = nodes.length := by
  have hkeys : (mapOf nodes).keys = (nodes.map fun n => n.key.text).toFinset := by
    ext c
    rw [Finmap.mem_keys, mem_mapOf h, List.mem_toFinset, List.mem_map]
  rw [hkeys, List.toFinset_card_of_nodup h, List.length_map]

/-! ## The search for a new size -/

/-- The search does not go past a prime. -/
theorem newSize_below_prime {prime : Nat} (hprime : prime.Prime) :
    ∀ {fuel newsize p : Nat}, newsize % 2 = 1 → newsize ≤ prime → 3 ≤ p →
      (prime - newsize) * prime + (newsize - p) < fuel →
      ∃ size, newSize fuel newsize p = some size ∧ newsize ≤ size := by
  intro fuel
  induction fuel with
  | zero =>
      intro newsize p _ _ _ hfuel
      omega
  | succ fuel ih =>
      intro newsize p hodd hle hp hfuel
      unfold newSize
      by_cases hlt : p < newsize / 2
      · rw [if_pos hlt]
        by_cases hdvd : newsize / p * p = newsize
        · rw [if_pos hdvd]
          have hne : newsize ≠ prime := by
            rintro rfl
            have hp' := (Nat.dvd_prime hprime).1 (Dvd.intro_left _ hdvd)
            omega
          have hprimeOdd : prime % 2 = 1 := (hprime.eq_two_or_odd).resolve_left (by omega)
          have hsum : prime - newsize = (prime - (newsize + 2)) + 2 := by omega
          rw [hsum, Nat.add_mul] at hfuel
          obtain ⟨size, hrun, hsize⟩ := ih (by omega : (newsize + 2) % 2 = 1) (by omega)
            (Nat.le_refl 3) (by omega)
          exact ⟨size, hrun, by omega⟩
        · rw [if_neg hdvd]
          exact ih hodd hle (by omega) (by omega)
      · rw [if_neg hlt]
        exact ⟨newsize, rfl, Nat.le_refl _⟩

theorem newSize_ends (oldsize : Nat) :
    ∃ size, newSize (newSizeFuel (2 * oldsize + 1)) (2 * oldsize + 1) 3 = some size ∧
      2 * oldsize + 1 ≤ size := by
  obtain ⟨prime, hprime, hlt, hle⟩ :=
    Nat.exists_prime_lt_and_le_two_mul (2 * oldsize + 1) (by omega)
  refine newSize_below_prime hprime (by omega) (by omega) (Nat.le_refl 3) ?_
  have hmul : (prime - (2 * oldsize + 1)) * prime ≤
      (2 * oldsize + 1) * (2 * (2 * oldsize + 1)) := Nat.mul_le_mul (by omega) hle
  unfold newSizeFuel
  rw [Nat.mul_add_one, Nat.mul_comm 2 (2 * oldsize + 1), Nat.mul_assoc]
  have hsq : (2 * oldsize + 1) * (2 * (2 * oldsize + 1)) ≤
      (2 * oldsize + 1) * (2 * ((2 * oldsize + 1) * 2)) := Nat.mul_le_mul (Nat.le_refl _) (by omega)
  omega

/-! ## What the operations do to the nodes -/

/-- What every hash keeps, whatever its keys are. -/
structure Hash.Stored (h : Hash V) : Prop where
  size : 0 < h.hashsize
  placed : Placed (nodeSlot h.hashsize) h.hashtable
  count : h.nitems = h.nodes.length

/-- What it keeps when the numbers that keys keep are those of their texts. -/
structure Hash.Kept (h : Hash V) : Prop extends h.Stored where
  once : Once h.nodes
  valid : ∀ n ∈ h.nodes, n.key.Valid

theorem nodeSlot_lt {size : Nat} (h : 0 < size) (n : HashNode V) : nodeSlot size n < size :=
  Nat.mod_lt _ h

theorem nodes_replicate (size : Nat) : (⟨List.replicate size [], 0⟩ : Hash V).nodes = [] :=
  List.flatten_replicate_nil

theorem stored_replicate {size : Nat} (h : 0 < size) :
    Hash.Stored (⟨List.replicate size [], 0⟩ : Hash V) where
  size := by
    show 0 < (List.replicate size []).length
    rw [List.length_replicate]
    exact h
  placed := placed_replicate _ _
  count := by
    rw [nodes_replicate]
    rfl

theorem kept_replicate {size : Nat} (h : 0 < size) :
    Hash.Kept (⟨List.replicate size [], 0⟩ : Hash V) where
  toStored := stored_replicate h
  once := by
    rw [nodes_replicate]
    exact List.nodup_nil
  valid := by
    rw [nodes_replicate]
    exact fun n hn => absurd hn List.not_mem_nil

theorem Hash.Stored.mem_bucket {h : Hash V} (hs : h.Stored) {k : StringObject} {n : HashNode V}
    (hslot : nodeSlot h.hashsize n = stringHash k % h.hashsize) :
    n ∈ bucket h.hashtable (stringHash k % h.hashsize) ↔ n ∈ h.nodes := by
  rw [← hslot]
  exact hs.placed.mem_bucket_iff

theorem Hash.Stored.of_bucket {h : Hash V} (hs : h.Stored) {k : StringObject} {n : HashNode V}
    (hn : n ∈ bucket h.hashtable (stringHash k % h.hashsize)) :
    n ∈ h.nodes ∧ nodeSlot h.hashsize n = stringHash k % h.hashsize := by
  have hslot := hs.placed _ _ (getElem?_bucket (Nat.mod_lt _ hs.size)) n hn
  exact ⟨(hs.mem_bucket hslot).1 hn, hslot⟩

/-- A key is looked for in the one bucket where it can be. -/
theorem Hash.Kept.mem_bucket {h : Hash V} (hk : h.Kept) {k : StringObject} (hkey : k.Valid)
    {n : HashNode V} (htext : n.key.text = k.text) :
    n ∈ bucket h.hashtable (stringHash k % h.hashsize) ↔ n ∈ h.nodes := by
  have hslot : n ∈ h.nodes → nodeSlot h.hashsize n = stringHash k % h.hashsize := by
    intro hn
    unfold nodeSlot
    rw [(hk.valid n hn).stringHash_eq, hkey.stringHash_eq, htext]
  constructor
  · exact fun hn => (hk.toStored.of_bucket hn).1
  · exact fun hn => (hk.toStored.mem_bucket (hslot hn)).2 hn

theorem resize_nodes {h : Hash V} (hs : h.Stored) :
    ∃ h', resize h = some h' ∧ h'.Stored ∧ h'.nodes.Perm h.nodes := by
  unfold resize
  by_cases hsmall : h.nitems < 2 * h.hashsize
  · rw [if_pos hsmall]
    exact ⟨h, rfl, hs, List.Perm.refl _⟩
  · rw [if_neg hsmall]
    obtain ⟨size, hrun, hsize⟩ := newSize_ends h.hashsize
    rw [hrun]
    have hslot : ∀ n ∈ h.nodes, nodeSlot size n < size := fun n _ => nodeSlot_lt (by omega) n
    obtain ⟨hlength, hplaced, hperm⟩ := scatter_spec hslot
    refine ⟨_, rfl, ⟨?_, ?_, ?_⟩, hperm⟩
    · show 0 < (scatter (nodeSlot size) size h.nodes).length
      omega
    · show Placed (nodeSlot (scatter (nodeSlot size) size h.nodes).length) _
      rw [hlength]
      exact hplaced
    · exact hs.count.trans hperm.length_eq.symm

section Chains

variable {k : StringObject} {obj : V}

theorem setChain_none [DecidableEq V] : ∀ {chain : List (HashNode V)}, setChain k obj chain = none →
    chain.find? (fun n => stringCmp n.key k = 0) = none := by
  intro chain
  induction chain with
  | nil => exact fun _ => rfl
  | cons n chain ih =>
      intro h
      unfold setChain at h
      by_cases hcmp : stringCmp n.key k = 0
      · rw [if_pos hcmp] at h
        split at h <;> exact absurd h (by simp)
      · rw [if_neg hcmp, Option.map_eq_none_iff] at h
        rw [List.find?_cons_of_neg (by simpa using hcmp)]
        exact ih h

theorem setChain_some [DecidableEq V] : ∀ {chain chain' : List (HashNode V)}, setChain k obj chain = some chain' →
    ∃ before n after, chain.find? (fun n => stringCmp n.key k = 0) = some n ∧
      chain = before ++ n :: after ∧ chain' = before ++ { n with object := obj } :: after := by
  intro chain
  induction chain with
  | nil => exact fun h => absurd h (by simp [setChain])
  | cons n chain ih =>
      intro chain' h
      unfold setChain at h
      by_cases hcmp : stringCmp n.key k = 0
      · rw [if_pos hcmp] at h
        refine ⟨[], n, chain, List.find?_cons_of_pos (by simpa using hcmp), rfl, ?_⟩
        split at h
        · rename_i hsame
          injection h with h
          rw [← h, ← hsame]
          rfl
        · injection h with h
          exact h.symm
      · rw [if_neg hcmp, Option.map_eq_some_iff] at h
        obtain ⟨next, hnext, rfl⟩ := h
        obtain ⟨before, m, after, hfind, rfl, rfl⟩ := ih hnext
        exact ⟨n :: before, m, after, by rw [List.find?_cons_of_neg (by simpa using hcmp), hfind],
          rfl, rfl⟩

theorem delChain_none : ∀ {chain : List (HashNode V)}, delChain k chain = none →
    chain.find? (fun n => stringCmp n.key k = 0) = none := by
  intro chain
  induction chain with
  | nil => exact fun _ => rfl
  | cons n chain ih =>
      intro h
      unfold delChain at h
      by_cases hcmp : stringCmp n.key k = 0
      · rw [if_pos hcmp] at h
        exact absurd h (by simp)
      · rw [if_neg hcmp, Option.map_eq_none_iff] at h
        rw [List.find?_cons_of_neg (by simpa using hcmp)]
        exact ih h

theorem delChain_some : ∀ {chain chain' : List (HashNode V)}, delChain k chain = some chain' →
    ∃ before n after, chain.find? (fun n => stringCmp n.key k = 0) = some n ∧
      chain = before ++ n :: after ∧ chain' = before ++ after := by
  intro chain
  induction chain with
  | nil => exact fun h => absurd h (by simp [delChain])
  | cons n chain ih =>
      intro chain' h
      unfold delChain at h
      by_cases hcmp : stringCmp n.key k = 0
      · rw [if_pos hcmp] at h
        injection h with h
        exact ⟨[], n, chain, List.find?_cons_of_pos (by simpa using hcmp), rfl, h.symm⟩
      · rw [if_neg hcmp, Option.map_eq_some_iff] at h
        obtain ⟨next, hnext, rfl⟩ := h
        obtain ⟨before, m, after, hfind, rfl, rfl⟩ := ih hnext
        exact ⟨n :: before, m, after, by rw [List.find?_cons_of_neg (by simpa using hcmp), hfind],
          rfl, rfl⟩

end Chains

theorem findNode_some {h : Hash V} {k : StringObject} {n : HashNode V} (hs : h.Stored)
    (hfind : findNode h k = some n) : n ∈ h.nodes ∧ n.key.text = k.text := by
  have htext : n.key.text = k.text := by
    have := List.find?_some hfind
    exact stringCmp_eq_zero.1 (by simpa using this)
  exact ⟨(hs.of_bucket (List.mem_of_find?_eq_some hfind)).1, htext⟩

theorem findNode_none {h : Hash V} {k : StringObject} (hk : h.Kept) (hkey : k.Valid)
    (hfind : findNode h k = none) : ∀ n ∈ h.nodes, n.key.text ≠ k.text := by
  intro n hn htext
  have := List.find?_eq_none.1 hfind n ((hk.mem_bucket hkey htext).2 hn)
  exact this (by simpa using stringCmp_eq_zero.2 htext)

/-- Setting a key, on the nodes: the node that is found gets the value, or there is a new one. -/
inductive SetNodes (k : StringObject) (obj : V) (found : Option (HashNode V))
    (nodes nodes' : List (HashNode V)) : Nat → Prop
  | replaced (n : HashNode V) (rest : List (HashNode V)) : found = some n →
      nodes.Perm (n :: rest) → nodes'.Perm ({ n with object := obj } :: rest) →
      SetNodes k obj found nodes nodes' 1
  | added : found = none → nodes'.Perm (⟨k, obj⟩ :: nodes) → SetNodes k obj found nodes nodes' 0

/-- Deleting a key, on the nodes. -/
inductive DelNodes (found : Option (HashNode V)) (nodes nodes' : List (HashNode V)) : Nat → Prop
  | deleted (n : HashNode V) (rest : List (HashNode V)) : found = some n →
      nodes.Perm (n :: rest) → nodes'.Perm rest → DelNodes found nodes nodes' 1
  | missing : found = none → nodes' = nodes → DelNodes found nodes nodes' 0

/-- Another chain in one bucket. -/
theorem Hash.Stored.set_bucket {h : Hash V} (hs : h.Stored) {i nitems : Nat}
    {chain : List (HashNode V)} (hin : ∀ n ∈ chain, nodeSlot h.hashsize n = i)
    (hcount : nitems = (h.hashtable.set i chain).flatten.length) :
    Hash.Stored ⟨h.hashtable.set i chain, nitems⟩ where
  size := by
    show 0 < (List.set _ _ _).length
    rw [List.length_set]
    exact hs.size
  placed := by
    show Placed (nodeSlot (List.set _ _ _).length) _
    rw [List.length_set]
    exact hs.placed.set hin
  count := hcount

/-- The node at which a walk down a chain stops, in front of all the others. -/
theorem perm_of_split {nodes before after rest chain : List (HashNode V)} {n : HashNode V}
    (hperm : nodes.Perm (chain ++ rest)) (hchain : chain = before ++ n :: after) :
    nodes.Perm (n :: (before ++ after ++ rest)) := by
  refine hperm.trans ?_
  rw [hchain, List.append_assoc, List.cons_append, List.append_assoc]
  exact List.perm_middle

theorem hashSetNode_nodes [DecidableEq V] {h : Hash V} (hs : h.Stored) (k : StringObject)
    (obj : V) :
    ∃ h' r, hashSetNode h k obj = some (h', r) ∧ h'.Stored ∧
      SetNodes k obj (findNode h k) h.nodes h'.nodes r := by
  have hslot : stringHash k % h.hashsize < h.hashtable.length := Nat.mod_lt _ hs.size
  obtain ⟨rest, hperm, hset⟩ := exists_rest hslot
  have hin : ∀ n ∈ bucket h.hashtable (stringHash k % h.hashsize),
      nodeSlot h.hashsize n = stringHash k % h.hashsize :=
    hs.placed _ _ (getElem?_bucket hslot)
  unfold hashSetNode findNode
  dsimp only
  cases hchain : setChain k obj (bucket h.hashtable (stringHash k % h.hashsize)) with
  | some chain =>
      obtain ⟨before, n, after, hfind, hold, hnew⟩ := setChain_some hchain
      have hold' := perm_of_split hperm hold
      have hnew' := perm_of_split (hset chain) hnew
      refine ⟨_, 1, rfl, hs.set_bucket ?_ ?_, .replaced n _ hfind hold' hnew'⟩
      · intro m hm
        rw [hnew] at hm
        rw [hold] at hin
        rcases List.mem_append.1 hm with hm | hm
        · exact hin m (List.mem_append_left _ hm)
        · rcases List.mem_cons.1 hm with rfl | hm
          · exact hin n (List.mem_append_right _ List.mem_cons_self)
          · exact hin m (List.mem_append_right _ (List.mem_cons_of_mem _ hm))
      · exact hs.count.trans (hold'.length_eq.trans hnew'.length_eq.symm)
  | none =>
      have hadd : (h.hashtable.set (stringHash k % h.hashsize)
          (bucket h.hashtable (stringHash k % h.hashsize) ++ [⟨k, obj⟩])).flatten.Perm
          (⟨k, obj⟩ :: h.nodes) := by
        refine (hset _).trans ?_
        rw [List.append_assoc]
        exact List.perm_middle.trans (hperm.symm.cons _)
      have hin' : ∀ n ∈ bucket h.hashtable (stringHash k % h.hashsize) ++ [⟨k, obj⟩],
          nodeSlot h.hashsize n = stringHash k % h.hashsize := by
        intro m hm
        rcases List.mem_append.1 hm with hm | hm
        · exact hin m hm
        · rw [List.mem_singleton.1 hm]
          rfl
      obtain ⟨h', hrun, hstored', hperm'⟩ := resize_nodes
        (hs.set_bucket hin' ((congrArg (· + 1) hs.count).trans hadd.length_eq.symm))
      dsimp only
      rw [hrun]
      exact ⟨h', 0, rfl, hstored', .added (setChain_none hchain) (hperm'.trans hadd)⟩

theorem hashDelattr_nodes {h : Hash V} (hs : h.Stored) (k : StringObject) :
    (hashDelattr h k).1.Stored ∧
      DelNodes (findNode h k) h.nodes (hashDelattr h k).1.nodes (hashDelattr h k).2 := by
  have hslot : stringHash k % h.hashsize < h.hashtable.length := Nat.mod_lt _ hs.size
  obtain ⟨rest, hperm, hset⟩ := exists_rest hslot
  have hin := hs.placed _ _ (getElem?_bucket hslot)
  unfold hashDelattr findNode
  dsimp only
  cases hchain : delChain k (bucket h.hashtable (stringHash k % h.hashsize)) with
  | none => exact ⟨hs, .missing (delChain_none hchain) rfl⟩
  | some chain =>
      obtain ⟨before, n, after, hfind, hold, hnew⟩ := delChain_some hchain
      have hold' : h.nodes.Perm (n :: (before ++ after ++ rest)) := perm_of_split hperm hold
      have hnew' : (h.hashtable.set (stringHash k % h.hashsize) chain).flatten.Perm
          (before ++ after ++ rest) := by
        rw [← hnew]
        exact hset _
      refine ⟨hs.set_bucket ?_ ?_, .deleted n _ hfind hold' hnew'⟩
      · intro m hm
        rw [hold] at hin
        rw [hnew] at hm
        rcases List.mem_append.1 hm with hm | hm
        · exact hin m (List.mem_append_left _ hm)
        · exact hin m (List.mem_append_right _ (List.mem_cons_of_mem _ hm))
      · rw [hnew'.length_eq, hs.count, hold'.length_eq, List.length_cons]
        omega

/-! ## With keys that are hashed by their texts -/

theorem hashSetNode_kept [DecidableEq V] {h : Hash V} (hk : h.Kept) {k : StringObject}
    (hkey : k.Valid) (obj : V) :
    ∃ h' r, hashSetNode h k obj = some (h', r) ∧ h'.Kept ∧
      SetNodes k obj (findNode h k) h.nodes h'.nodes r := by
  obtain ⟨h', r, hrun, hstored, hnodes⟩ := hashSetNode_nodes hk.toStored k obj
  refine ⟨h', r, hrun, ⟨hstored, ?_, ?_⟩, hnodes⟩
  · cases hnodes with
    | replaced n rest _ hperm hperm' =>
        have honce : Once (n :: rest) := hk.once.perm hperm
        have honce' : Once ({ n with object := obj } :: rest) := honce
        exact honce'.perm hperm'.symm
    | added hfind hperm' =>
        have honce : Once (⟨k, obj⟩ :: h.nodes) := by
          refine List.nodup_cons.2 ⟨fun hmem => ?_, hk.once⟩
          obtain ⟨m, hm, htext⟩ := List.mem_map.1 hmem
          exact findNode_none hk hkey hfind m hm htext
        exact honce.perm hperm'.symm
  · intro m hm
    cases hnodes with
    | replaced n rest _ hperm hperm' =>
        rcases List.mem_cons.1 (hperm'.mem_iff.1 hm) with rfl | hm
        · exact hk.valid n (hperm.mem_iff.2 List.mem_cons_self)
        · exact hk.valid m (hperm.mem_iff.2 (List.mem_cons_of_mem _ hm))
    | added _ hperm' =>
        rcases List.mem_cons.1 (hperm'.mem_iff.1 hm) with rfl | hm
        · exact hkey
        · exact hk.valid m hm

theorem hashDelattr_kept {h : Hash V} (hk : h.Kept) (k : StringObject) :
    (hashDelattr h k).1.Kept ∧
      DelNodes (findNode h k) h.nodes (hashDelattr h k).1.nodes (hashDelattr h k).2 := by
  obtain ⟨hstored, hnodes⟩ := hashDelattr_nodes hk.toStored k
  refine ⟨⟨hstored, ?_, ?_⟩, hnodes⟩
  · generalize (hashDelattr h k).2 = r at hnodes
    cases hnodes with
    | deleted n rest _ hperm hperm' =>
        exact Once.perm (List.nodup_cons.1 (hk.once.perm hperm)).2 hperm'.symm
    | missing _ hsame =>
        rw [hsame]
        exact hk.once
  · generalize (hashDelattr h k).2 = r at hnodes
    intro m hm
    cases hnodes with
    | deleted n rest _ hperm hperm' =>
        exact hk.valid m (hperm.mem_iff.2 (List.mem_cons_of_mem _ (hperm'.mem_iff.1 hm)))
    | missing _ hsame =>
        rw [hsame] at hm
        exact hk.valid m hm

/-! ## What the operations do to the finite map -/

theorem SetNodes.contents {h : Hash V} (hk : h.Kept) {k : StringObject} (hkey : k.Valid) {obj : V}
    {nodes' : List (HashNode V)} {r : Nat}
    (hnodes : SetNodes k obj (findNode h k) h.nodes nodes' r) (honce' : Once nodes') :
    mapOf nodes' = (mapOf h.nodes).insert k.text obj ∧
      r = if k.text ∈ mapOf h.nodes then 1 else 0 := by
  cases hnodes with
  | replaced n rest hfind hperm hperm' =>
      have htext := (findNode_some hk.toStored hfind).2
      rw [mapOf_perm honce' hperm', mapOf_perm hk.once hperm, mapOf_cons, mapOf_cons]
      dsimp only
      rw [htext, Finmap.insert_insert, if_pos (Finmap.mem_insert.2 (.inl rfl))]
      exact ⟨rfl, rfl⟩
  | added hfind hperm' =>
      rw [mapOf_perm honce' hperm', mapOf_cons, if_neg]
      · exact ⟨rfl, rfl⟩
      · intro hmem
        obtain ⟨n, hn, htext⟩ := (mem_mapOf hk.once).1 hmem
        exact findNode_none hk hkey hfind n hn htext

theorem DelNodes.contents {h : Hash V} (hk : h.Kept) {k : StringObject} (hkey : k.Valid)
    {nodes' : List (HashNode V)} {r : Nat} (hnodes : DelNodes (findNode h k) h.nodes nodes' r) :
    mapOf nodes' = (mapOf h.nodes).erase k.text ∧
      r = if k.text ∈ mapOf h.nodes then 1 else 0 := by
  cases hnodes with
  | deleted n rest hfind hperm hperm' =>
      have htext := (findNode_some hk.toStored hfind).2
      have honce' : Once (n :: rest) := hk.once.perm hperm
      have hrest : Once rest := (List.nodup_cons.1 honce').2
      have hnot : k.text ∉ mapOf rest := by
        intro hmem
        obtain ⟨m, hm, hmtext⟩ := (mem_mapOf hrest).1 hmem
        refine (List.nodup_cons.1 honce').1 (List.mem_map.2 ⟨m, hm, ?_⟩)
        exact hmtext.trans htext.symm
      rw [mapOf_perm hk.once hperm, mapOf_perm (hrest.perm hperm'.symm) hperm', mapOf_cons, htext,
        if_pos (Finmap.mem_insert.2 (.inl rfl))]
      refine ⟨Finmap.ext_lookup fun c => ?_, rfl⟩
      by_cases hc : c = k.text
      · rw [hc, Finmap.lookup_erase, Finmap.lookup_eq_none.2 hnot]
      · rw [Finmap.lookup_erase_ne hc, Finmap.lookup_insert_of_ne _ hc]
  | missing hfind heq =>
      have hnot : k.text ∉ mapOf h.nodes := by
        intro hmem
        obtain ⟨n, hn, htext⟩ := (mem_mapOf hk.once).1 hmem
        exact findNode_none hk hkey hfind n hn htext
      rw [heq, if_neg hnot]
      refine ⟨Finmap.ext_lookup fun c => ?_, rfl⟩
      by_cases hc : c = k.text
      · rw [hc, Finmap.lookup_erase, Finmap.lookup_eq_none.2 hnot]
      · rw [Finmap.lookup_erase_ne hc]

/-- The walk of `Hash_getattr` keeps the last match. -/
theorem getChain_spec {ko : StringObject} : ∀ {chain : List (HashNode V)} {obj : Option V},
    chain.foldl (fun obj n => if stringEqual ko n.key then some n.object else obj) obj = obj ∧
        (∀ n ∈ chain, n.key.text ≠ ko.text) ∨
      ∃ n ∈ chain, n.key.text = ko.text ∧
        chain.foldl (fun obj n => if stringEqual ko n.key then some n.object else obj) obj =
          some n.object := by
  intro chain
  induction chain with
  | nil => exact .inl ⟨rfl, fun n hn => absurd hn List.not_mem_nil⟩
  | cons n chain ih =>
      intro obj
      rw [List.foldl_cons]
      by_cases htext : ko.text = n.key.text
      · rw [if_pos (stringEqual_iff.2 htext)]
        rcases @ih (some n.object) with ⟨hrun, _⟩ | ⟨m, hm, hmtext, hrun⟩
        · exact .inr ⟨n, List.mem_cons_self, htext.symm, hrun⟩
        · exact .inr ⟨m, List.mem_cons_of_mem _ hm, hmtext, hrun⟩
      · rw [if_neg fun h => htext (stringEqual_iff.1 h)]
        rcases @ih obj with ⟨hrun, hnone⟩ | ⟨m, hm, hmtext, hrun⟩
        · refine .inl ⟨hrun, ?_⟩
          intro m hm
          rcases List.mem_cons.1 hm with rfl | hm
          · exact fun h => htext h.symm
          · exact hnone m hm
        · exact .inr ⟨m, List.mem_cons_of_mem _ hm, hmtext, hrun⟩

theorem hashGetattr_eq {h : Hash V} (hk : h.Kept) {ko : StringObject} (hkey : ko.Valid) :
    hashGetattr h ko = h.contents.lookup ko.text := by
  rcases getChain_spec with ⟨hrun, hnone⟩ | ⟨n, hn, htext, hrun⟩
  · have hnot : ko.text ∉ h.contents := by
      intro hmem
      obtain ⟨n, hn, htext⟩ := (mem_mapOf hk.once).1 hmem
      exact hnone n ((hk.mem_bucket hkey htext).2 hn) htext
    rw [Finmap.lookup_eq_none.2 hnot]
    exact hrun
  · exact hrun.trans ((lookup_mapOf hk.once).2 ⟨n, (hk.mem_bucket hkey htext).1 hn, htext, rfl⟩).symm

theorem hashSetattr_contents [DecidableEq V] {h : Hash V} (hk : h.Kept) {k : StringObject}
    (hkey : k.Valid) (obj : Option V) :
    ∃ h', hashSetattr h k obj = some (h', if k.text ∈ h.contents then 1 else 0) ∧ h'.Kept ∧
      h'.contents = match obj with
        | none => h.contents.erase k.text
        | some obj => h.contents.insert k.text obj := by
  cases obj with
  | none =>
      obtain ⟨hkept, hnodes⟩ := hashDelattr_kept hk k
      obtain ⟨hcontents, hr⟩ := hnodes.contents hk hkey
      exact ⟨_, congrArg some (Prod.ext rfl hr), hkept, hcontents⟩
  | some obj =>
      obtain ⟨h', r, hrun, hkept, hnodes⟩ := hashSetNode_kept hk hkey obj
      obtain ⟨hcontents, hr⟩ := hnodes.contents hk hkey hkept.once
      exact ⟨h', hrun.trans (congrArg some (Prod.ext rfl hr)), hkept, hcontents⟩

theorem copyNodes_spec [DecidableEq V] {nodes : List (HashNode V)} : ∀ {nh : Hash V}, nh.Kept →
    Once (nodes ++ nh.nodes) → (∀ n ∈ nodes, n.key.Valid) →
    ∃ nh', nodes.foldlM (fun nh n => (hashSetNode nh n.key n.object).map (·.1)) nh = some nh' ∧
      nh'.Kept ∧ nh'.nodes.Perm (nodes ++ nh.nodes) := by
  induction nodes with
  | nil =>
      intro nh hk _ _
      exact ⟨nh, rfl, hk, List.Perm.refl _⟩
  | cons n nodes ih =>
      intro nh hk honce hvalid
      have hnew : ∀ m ∈ nh.nodes, m.key.text ≠ n.key.text := by
        intro m hm htext
        exact (List.nodup_cons.1 honce).1
          (List.mem_map.2 ⟨m, List.mem_append_right _ hm, htext⟩)
      obtain ⟨nh₁, r, hrun, hkept, hnodes⟩ :=
        hashSetNode_kept hk (hvalid n List.mem_cons_self) n.object
      have hperm : nh₁.nodes.Perm (n :: nh.nodes) := by
        cases hnodes with
        | added _ hperm => exact hperm
        | replaced m rest hfind hperm _ =>
            have hm := hperm.mem_iff.2 List.mem_cons_self
            exact absurd (findNode_some hk.toStored hfind).2 (hnew m hm)
      have hperm' : (nodes ++ nh₁.nodes).Perm (n :: (nodes ++ nh.nodes)) :=
        (hperm.append_left nodes).trans List.perm_middle
      obtain ⟨nh', hrest, hkept', hall⟩ := ih hkept (Once.perm honce hperm'.symm)
        fun m hm => hvalid m (List.mem_cons_of_mem _ hm)
      refine ⟨nh', ?_, hkept', hall.trans hperm'⟩
      rw [List.foldlM_cons, hrun]
      exact hrest

theorem copyHash_nodes [DecidableEq V] {h : Hash V} (hk : h.Kept) :
    ∃ nh, copyHash h = some nh ∧ nh.Kept ∧ nh.nodes.Perm h.nodes := by
  have hnone := nodes_replicate (V := V) h.hashsize
  have honce : Once (h.nodes ++ (⟨List.replicate h.hashsize [], 0⟩ : Hash V).nodes) := by
    rw [hnone, List.append_nil]
    exact hk.once
  obtain ⟨nh, hrun, hkept, hperm⟩ := copyNodes_spec (kept_replicate hk.size) honce hk.valid
  rw [hnone, List.append_nil] at hperm
  exact ⟨nh, hrun, hkept, hperm⟩

/-! ## Runs -/

/-- The text of a key. -/
def KeyArg.text : KeyArg → List Char
  | .object k => k.text
  | .cstring c => c

/-- A number that is kept in a key is the one of its text. -/
def KeyArg.Valid : KeyArg → Prop
  | .object k => k.Valid
  | .cstring _ => True

def HashOp.KeyValid : HashOp V → Prop
  | .set _ k _ | .get _ k | .delete _ k => k.Valid
  | .new | .clear _ | .copy _ => True

/-- The hash that an operation is for. -/
def HashOp.on : HashOp V → Option Nat
  | .new => none
  | .set i _ _ | .get i _ | .delete i _ | .clear i | .copy i => some i

/-- The value that an argument stands for: for a C string any string object with its
text. -/
inductive ValueArg.Gives : ValueArg V → Option (Value V) → Prop
  | null : Gives .null none
  | object (v : Value V) : Gives (.object v) (some v)
  | cstring (s : StringObject) : Gives (.cstring s.text) (some (.string s))

/-- What an operation on hashes is for: the same operation on finite maps. -/
inductive MapStep [DecidableEq V] :
    List (Finmap fun _ : List Char => Value V) → HashOp V →
    List (Finmap fun _ : List Char => Value V) → HashAnswer V → Prop
  | new (maps) : MapStep maps .new (maps ++ [∅]) .nothing
  | set (maps i m k arg obj) : maps[i]? = some m → arg.Gives (some obj) →
      MapStep maps (.set i k arg) (maps.set i (m.insert k.text obj))
        (.number (if k.text ∈ m then 1 else 0))
  | setMissing (maps i m k arg) : maps[i]? = some m → arg.Gives none →
      MapStep maps (.set i k arg) (maps.set i (m.erase k.text))
        (.number (if k.text ∈ m then 1 else 0))
  | get (maps i m k) : maps[i]? = some m → MapStep maps (.get i k) maps (.object (m.lookup k.text))
  | delete (maps i m k) : maps[i]? = some m →
      MapStep maps (.delete i k) (maps.set i (m.erase k.text))
        (.number (if k.text ∈ m then 1 else 0))
  | clear (maps i m) : maps[i]? = some m → MapStep maps (.clear i) (maps.set i ∅) .nothing
  | copy (maps i m) : maps[i]? = some m → MapStep maps (.copy i) (maps ++ [m]) .nothing
  | noHash (maps op i) : maps[i]? = none → HashOp.on op = some i → MapStep maps op maps .nothing

inductive MapRun [DecidableEq V] :
    List (Finmap fun _ : List Char => Value V) → List (HashOp V) →
    List (Finmap fun _ : List Char => Value V) → List (HashAnswer V) → Prop
  | nil (maps) : MapRun maps [] maps []
  | cons {maps maps' maps'' op ops answer answers} : MapStep maps op maps' answer →
      MapRun maps' ops maps'' answers → MapRun maps (op :: ops) maps'' (answer :: answers)

def Hashes.maps [DecidableEq V] (w : Hashes V) : List (Finmap fun _ : List Char => Value V) :=
  w.hashes.map Hash.contents

/-- What a run keeps. -/
structure Hashes.Kept (w : Hashes V) : Prop where
  texts : w.root.Texts
  hashes : ∀ h ∈ w.hashes, h.Kept

theorem checkKey_spec {w : Hashes V} (hw : w.Kept) {k : KeyArg} (hkey : k.Valid) :
    (checkKey w k).1.Kept ∧ (checkKey w k).1.hashes = w.hashes ∧
      (checkKey w k).2.text = k.text ∧ (checkKey w k).2.Valid := by
  cases k with
  | object k => exact ⟨hw, rfl, rfl, hkey⟩
  | cstring c =>
      obtain ⟨htexts, htext, hnone⟩ := @findKey_texts w.serial c _ hw.texts
      refine ⟨⟨htexts, hw.hashes⟩, rfl, htext, fun h hkey => ?_⟩
      rw [show (checkKey w (.cstring c)).2.hashkey = none from hnone] at hkey
      cases hkey

theorem checkValue_spec {w : Hashes V} (hw : w.Kept) (obj : ValueArg V) :
    (checkValue w obj).1.Kept ∧ (checkValue w obj).1.hashes = w.hashes ∧
      obj.Gives (checkValue w obj).2 := by
  cases obj with
  | null => exact ⟨hw, rfl, .null⟩
  | object v => exact ⟨hw, rfl, .object v⟩
  | cstring c => exact ⟨⟨hw.texts, hw.hashes⟩, rfl, .cstring (newString w.serial c)⟩

theorem Hashes.Kept.set {w : Hashes V} (hw : w.Kept) {h : Hash (Value V)} (hk : h.Kept) (i : Nat) :
    Hashes.Kept { w with hashes := w.hashes.set i h } where
  texts := hw.texts
  hashes := by
    intro h' hmem
    rcases List.mem_or_eq_of_mem_set hmem with hmem | rfl
    · exact hw.hashes h' hmem
    · exact hk

theorem Hashes.Kept.append {w : Hashes V} (hw : w.Kept) {h : Hash (Value V)} (hk : h.Kept) :
    Hashes.Kept { w with hashes := w.hashes ++ [h] } where
  texts := hw.texts
  hashes := by
    intro h' hmem
    rcases List.mem_append.1 hmem with hmem | hmem
    · exact hw.hashes h' hmem
    · exact List.mem_singleton.1 hmem ▸ hk

theorem contents_empty (size : Nat) :
    Hash.contents (⟨List.replicate size [], 0⟩ : Hash V) = ∅ := by
  show mapOf (List.flatten _) = ∅
  rw [List.flatten_replicate_nil]
  rfl

theorem maps_getElem? [DecidableEq V] (w : Hashes V) (i : Nat) :
    w.maps[i]? = (w.hashes[i]?).map Hash.contents :=
  List.getElem?_map

theorem maps_set [DecidableEq V] {w w' : Hashes V} {i : Nat} {h : Hash (Value V)}
    (heq : w'.hashes = w.hashes) :
    Hashes.maps { w' with hashes := w'.hashes.set i h } = w.maps.set i h.contents := by
  show (w'.hashes.set i h).map _ = _
  rw [heq, List.map_set]
  rfl

theorem maps_append [DecidableEq V] {w : Hashes V} {h : Hash (Value V)} :
    Hashes.maps { w with hashes := w.hashes ++ [h] } = w.maps ++ [h.contents] :=
  List.map_append

theorem hashStep_refines [DecidableEq V] {w : Hashes V} (hw : w.Kept) {op : HashOp V}
    (hop : op.KeyValid) :
    ∃ w' answer, hashStep w op = some (w', answer) ∧ w'.Kept ∧
      MapStep w.maps op w'.maps answer := by
  have hmap : ∀ {i : Nat} {h : Hash (Value V)}, w.hashes[i]? = some h →
      w.maps[i]? = some h.contents := fun hi => (maps_getElem? w _).trans (congrArg _ hi)
  have hnone : ∀ {i : Nat}, w.hashes[i]? = none → w.maps[i]? = none :=
    fun hi => (maps_getElem? w _).trans (congrArg _ hi)
  cases op with
  | new =>
      refine ⟨_, _, rfl, hw.append (kept_replicate (by omega)), ?_⟩
      rw [maps_append, show newHash.contents = ∅ from contents_empty 7]
      exact .new _
  | set i k arg =>
      unfold hashStep
      dsimp only
      cases hi : w.hashes[i]? with
      | none => exact ⟨w, .nothing, rfl, hw, .noHash _ _ i (hnone hi) rfl⟩
      | some h =>
          dsimp only
          obtain ⟨hw₁, heq₁, htext, hkey⟩ := checkKey_spec hw hop
          obtain ⟨hw₂, heq₂, hgives⟩ := checkValue_spec hw₁ arg
          obtain ⟨h', hrun, hkept, hcontents⟩ := hashSetattr_contents
            (hw.hashes h (List.mem_of_getElem? hi)) hkey (checkValue (checkKey w k).1 arg).2
          rw [hrun]
          refine ⟨_, _, rfl, hw₂.set hkept i, ?_⟩
          rw [maps_set (heq₂.trans heq₁), hcontents, htext]
          cases hobj : (checkValue (checkKey w k).1 arg).2 with
          | none =>
              rw [hobj] at hgives
              exact .setMissing _ i _ k arg (hmap hi) hgives
          | some obj =>
              rw [hobj] at hgives
              exact .set _ i _ k arg obj (hmap hi) hgives
  | get i k =>
      unfold hashStep
      dsimp only
      cases hi : w.hashes[i]? with
      | none => exact ⟨w, .nothing, rfl, hw, .noHash _ _ i (hnone hi) rfl⟩
      | some h =>
          dsimp only
          obtain ⟨hw₁, heq₁, htext, hkey⟩ := checkKey_spec hw hop
          refine ⟨_, _, rfl, hw₁, ?_⟩
          rw [hashGetattr_eq (hw.hashes h (List.mem_of_getElem? hi)) hkey, htext]
          unfold Hashes.maps
          rw [heq₁]
          exact .get _ i _ k (hmap hi)
  | delete i k =>
      unfold hashStep
      dsimp only
      cases hi : w.hashes[i]? with
      | none => exact ⟨w, .nothing, rfl, hw, .noHash _ _ i (hnone hi) rfl⟩
      | some h =>
          dsimp only
          obtain ⟨hw₁, heq₁, htext, hkey⟩ := checkKey_spec hw hop
          have hk := hw.hashes h (List.mem_of_getElem? hi)
          obtain ⟨hkept, hnodes⟩ := hashDelattr_kept hk (checkKey w k).2
          obtain ⟨hcontents, hr⟩ := hnodes.contents hk hkey
          refine ⟨_, _, rfl, hw₁.set hkept i, ?_⟩
          rw [maps_set heq₁, hr, show (hashDelattr h (checkKey w k).2).1.contents = _ from hcontents,
            htext]
          exact .delete _ i _ k (hmap hi)
  | clear i =>
      unfold hashStep
      dsimp only
      cases hi : w.hashes[i]? with
      | none => exact ⟨w, .nothing, rfl, hw, .noHash _ _ i (hnone hi) rfl⟩
      | some h =>
          dsimp only
          have hk := hw.hashes h (List.mem_of_getElem? hi)
          refine ⟨_, _, rfl, hw.set (kept_replicate hk.size) i, ?_⟩
          rw [maps_set rfl]
          unfold hashClear
          rw [contents_empty]
          exact .clear _ i _ (hmap hi)
  | copy i =>
      unfold hashStep
      dsimp only
      cases hi : w.hashes[i]? with
      | none => exact ⟨w, .nothing, rfl, hw, .noHash _ _ i (hnone hi) rfl⟩
      | some h =>
          dsimp only
          obtain ⟨nh, hrun, hkept, hperm⟩ :=
            copyHash_nodes (hw.hashes h (List.mem_of_getElem? hi))
          rw [hrun]
          refine ⟨_, _, rfl, hw.append hkept, ?_⟩
          rw [maps_append, show nh.contents = h.contents from mapOf_perm hkept.once hperm]
          exact .copy _ i _ (hmap hi)

theorem hashRun_from [DecidableEq V] (ops : List (HashOp V)) : ∀ {w : Hashes V}, w.Kept →
    (∀ op ∈ ops, op.KeyValid) →
    ∃ w' answers, hashRun w ops = some (w', answers) ∧ w'.Kept ∧
      MapRun w.maps ops w'.maps answers := by
  induction ops with
  | nil => exact fun hw _ => ⟨_, _, rfl, hw, .nil _⟩
  | cons op ops ih =>
      intro w hw hops
      obtain ⟨w₁, answer, hstep, hw₁, hmap⟩ := hashStep_refines hw (hops op List.mem_cons_self)
      obtain ⟨w₂, answers, hrest, hw₂, hmaps⟩ :=
        ih hw₁ fun op hop => hops op (List.mem_cons_of_mem _ hop)
      refine ⟨w₂, answer :: answers, ?_, hw₂, .cons hmap hmaps⟩
      unfold hashRun
      rw [hstep]
      show (hashRun w₁ ops).bind _ = _
      rw [hrest]
      rfl

theorem Hashes.kept_empty : (Hashes.empty : Hashes V).Kept :=
  ⟨trivial, fun _ hh => absurd hh List.not_mem_nil⟩

/-- Every run whose keys are hashed by their texts ends, does to the contents of the hashes what
the same operations do to finite maps, with the same answers, and leaves hashes in which each key
is once, in the bucket of its hash value, and is counted. -/
theorem hashRun_refines [DecidableEq V] {ops : List (HashOp V)} (hops : ∀ op ∈ ops, op.KeyValid) :
    ∃ w answers, hashRun .empty ops = some (w, answers) ∧
      MapRun [] ops (w.hashes.map Hash.contents) answers ∧
      ∀ h ∈ w.hashes, h.nitems = h.contents.keys.card ∧ Once h.nodes ∧
        ∀ i b, h.hashtable[i]? = some b → ∀ n ∈ b, hashText n.key.text % h.hashsize = i := by
  obtain ⟨w, answers, hrun, hw, hmaps⟩ := hashRun_from ops Hashes.kept_empty hops
  refine ⟨w, answers, hrun, hmaps, fun h hh => ?_⟩
  have hk := hw.hashes h hh
  refine ⟨hk.count.trans (card_mapOf hk.once).symm, hk.once, ?_⟩
  intro i b hb n hn
  have hmem : n ∈ h.nodes := List.mem_flatten.2 ⟨b, List.mem_of_getElem? hb, hn⟩
  rw [← (hk.valid n hmem).stringHash_eq]
  exact hk.placed i b hb n hn

/-- A key whose number is kept already, one that was just written, and one given as a C string. -/
theorem threeKeys_refine :
    ∃ w answers, hashRun (V := Unit) .empty
        [.new, .set 0 (.object ⟨0, ['a'], some 97⟩) (.object (.object ())),
          .set 0 (.object ⟨1, ['a'], none⟩) (.object (.object ())), .get 0 (.cstring ['a'])] =
        some (w, answers) ∧
      MapRun [] [.new, .set 0 (.object ⟨0, ['a'], some 97⟩) (.object (.object ())),
          .set 0 (.object ⟨1, ['a'], none⟩) (.object (.object ())), .get 0 (.cstring ['a'])]
        (w.hashes.map Hash.contents) answers ∧
      ∀ h ∈ w.hashes, h.nitems = h.contents.keys.card ∧ Once h.nodes ∧
        ∀ i b, h.hashtable[i]? = some b → ∀ n ∈ b, hashText n.key.text % h.hashsize = i := by
  refine hashRun_refines fun op hop => ?_
  simp only [List.mem_cons, List.not_mem_nil, or_false] at hop
  rcases hop with rfl | rfl | rfl | rfl
  · trivial
  · intro h hkey
    cases hkey
    rfl
  · exact newString_valid 1 ['a']
  · trivial

/-! ## A key with the number of another text -/

/-- A string that was written to. -/
def writtenKey : StringObject := ⟨0, ['a', '\x00', 'c'], none⟩

/-- A copy that `NewString` made of a hashed string: the number is the one of the text with `R` in
the place of the last character. -/
def staleKey : StringObject := ⟨1, ['a', '\x00', 'c'], some 99410⟩

/-- What was set is not found, and the text is kept twice. -/
theorem staleKey_missed :
    staleKey.text = writtenKey.text ∧
      ∃ w answers, hashRun .empty
          [.new, .set 0 (.object writtenKey) (.object (.object ())), .get 0 (.object staleKey),
            .set 0 (.object staleKey) (.object (.object ()))] = some (w, answers) ∧
        answers = [.nothing, .number 0, .object none, .number 0] ∧
        ∀ h ∈ w.hashes, ¬ Once h.nodes := by
  refine ⟨rfl, _, _, rfl, rfl, fun h hh => ?_⟩
  rw [List.mem_singleton.1 hh]
  unfold Once
  decide

end Swig4Ada.Doh

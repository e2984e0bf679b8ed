import Swig4Ada.Lib.Run
import Swig4Ada.Swig.SaveRestore

/-!
# What a restore gives back

The calls that are open form a stack. Each has its entries among the attributes, except for
names that a later call took for its own, where it has none; so the restore of the last call
finds its entries and no others, and the calls below find theirs again.
-/

namespace Swig4Ada.Swig

open Doh Lib

variable {n n' : ViewNode} {ns key name : List Char} {f g : SavedFrame}

/-! ## Names -/

/-- The names that a restore for a namespace takes for saved ones. -/
def InSpace (ns key : List Char) : Prop := ns ++ [':'] <+: key

theorem savedName_eq (ns name : List Char) : savedName ns name = ns ++ [':'] ++ name :=
  List.append_cons ..

theorem savedName_inSpace : InSpace ns (savedName ns name) :=
  ⟨name, (savedName_eq ns name).symm⟩

theorem InSpace.savedName (h : InSpace ns key) : ∃ name, key = savedName ns name := by
  obtain ⟨name, rfl⟩ := h
  exact ⟨name, (savedName_eq ns name).symm⟩

theorem savedName_inj {name' : List Char} (h : savedName ns name = savedName ns name') :
    name = name' := (List.cons.inj (List.append_cancel_left h)).2

theorem viewName_not_inSpace : ¬ InSpace ns viewName := by
  rintro ⟨rest, h⟩
  have hcolon : ':' ∈ viewName := by
    rw [← h]
    simp
  exact absurd hcolon (by decide)

/-! ## Attributes -/

theorem lookup_setattr_other {key' : List Char} (obj : Option Nat) (h : key' ≠ key) :
    (n.setattr key obj).attributes.lookup key' = n.attributes.lookup key' :=
  Finmap.lookup_insert_of_ne _ h

theorem getattr_congr (h : n'.attributes.lookup key = n.attributes.lookup key) :
    n'.getattr key = n.getattr key := by
  rw [ViewNode.getattr, ViewNode.getattr, h]

/-- What stands under a name: nothing, `DohNone` or a text. -/
def ViewNode.entry (n : ViewNode) (key : List Char) : Option (Option (List Char)) :=
  (n.attributes.lookup key).map (Option.map n.contents)

/-- Every object that an attribute points to has been made. -/
def ViewNode.Fresh (n : ViewNode) : Prop :=
  ∀ key obj, n.attributes.lookup key = some (some obj) → obj < n.next

theorem value_of_entry : n.value key = (n.entry key).join := by
  rw [ViewNode.value, ViewNode.getattr, ViewNode.entry]
  cases n.attributes.lookup key with
  | none => rfl
  | some obj => cases obj <;> rfl

theorem entry_congr (hlookup : n'.attributes.lookup key = n.attributes.lookup key)
    (hcontents : ∀ obj, n.attributes.lookup key = some (some obj) →
      n'.contents obj = n.contents obj) : n'.entry key = n.entry key := by
  rw [ViewNode.entry, ViewNode.entry, hlookup]
  cases h : n.attributes.lookup key with
  | none => rfl
  | some obj =>
      cases obj with
      | none => rfl
      | some obj =>
          simp only [Option.map_some]
          rw [hcontents obj h]

theorem getattr_lt (h : n.Fresh) {obj : Nat} (hobj : n.getattr key = some obj) : obj < n.next := by
  refine h key obj ?_
  rw [ViewNode.getattr] at hobj
  cases hl : n.attributes.lookup key with
  | none =>
      rw [hl] at hobj
      cases hobj
  | some o =>
      rw [hl] at hobj
      exact congrArg some hobj

/-! ## A call -/

/-- What a frame saves: the names, and the view when it is another one. -/
def SavedFrame.Saves (f : SavedFrame) (name : List Char) : Prop :=
  name ∈ f.names ∨ name = viewName ∧ ∃ view, f.before viewName = some view ∧ view ≠ f.ns

/-- The entry for a name is the one of the frame. -/
def Holds (n : ViewNode) (f : SavedFrame) (name : List Char) : Prop :=
  (f.Saves name → n.entry (savedName f.ns name) = some (f.before name)) ∧
    (¬ f.Saves name → n.entry (savedName f.ns name) = none)

/-- The names have been saved, and nothing else was done. -/
structure NamesSaved (ns : List Char) (names : List (List Char)) (n n' : ViewNode) : Prop where
  saved : ∀ name ∈ names, n'.attributes.lookup (savedName ns name) = some (n.getattr name)
  others : ∀ key, (∀ name ∈ names, key ≠ savedName ns name) →
    n'.attributes.lookup key = n.attributes.lookup key
  contents : n'.contents = n.contents
  next : n'.next = n.next

theorem namesSaved_nil : NamesSaved ns [] n n :=
  ⟨fun _ h => (nomatch h), fun _ _ => rfl, rfl, rfl⟩

/-- One name more, in front. -/
theorem namesSaved_cons {names : List (List Char)}
    (hclear : ∀ name' ∈ names, ¬ InSpace ns name')
    (h : NamesSaved ns names (n.setattr (savedName ns name) (n.getattr name)) n') :
    NamesSaved ns (name :: names) n n' := by
  have hsaved : ∀ name' ∈ names,
      n'.attributes.lookup (savedName ns name') = some (n.getattr name') := by
    intro name' hmem
    rw [h.saved name' hmem]
    refine congrArg some (getattr_congr (lookup_setattr_other _ fun he => ?_))
    exact hclear name' hmem (he ▸ savedName_inSpace)
  refine ⟨fun name' hmem => ?_, fun key hkey => ?_, h.contents, h.next⟩
  · by_cases hin : name' ∈ names
    · exact hsaved name' hin
    · obtain rfl := (List.mem_cons.1 hmem).resolve_right hin
      have hother : ∀ other ∈ names, savedName ns name' ≠ savedName ns other := by
        intro other hother he
        rw [← savedName_inj he] at hother
        exact hin hother
      rw [h.others _ hother]
      exact Finmap.lookup_insert _
  · rw [h.others key fun other hother => hkey other (List.mem_cons_of_mem _ hother)]
    exact lookup_setattr_other _ (hkey name List.mem_cons_self)

theorem saveNames_saved {names : List (List Char)}
    (hclear : ∀ name ∈ names.map unmarkedName, ¬ InSpace ns name) :
    NamesSaved ns (names.map unmarkedName) n (names.foldl (saveName ns) n) := by
  induction names generalizing n with
  | nil => exact namesSaved_nil
  | cons name names ih =>
      have hrest : ∀ name' ∈ names.map unmarkedName, ¬ InSpace ns name' :=
        fun name' hmem => hclear name' (List.mem_cons_of_mem _ hmem)
      exact namesSaved_cons hrest (ih hrest)

theorem requireNames_saved {names : List (List Char)}
    (hclear : ∀ name ∈ names.filterMap requiredName, ¬ InSpace ns name)
    (h : names.foldlM (requireName ns) n = some n') :
    NamesSaved ns (names.filterMap requiredName) n n' := by
  induction names generalizing n with
  | nil =>
      cases h
      exact namesSaved_nil
  | cons name names ih =>
      rw [List.foldlM_cons] at h
      obtain ⟨n₁, hfirst, hrest⟩ := Option.bind_eq_some_iff.1 h
      rw [List.filterMap_cons] at hclear ⊢
      cases hname : requiredName name with
      | none =>
          rw [hname] at hclear
          have hsame : n₁ = n := by
            rw [requireName] at hfirst
            · obtain ⟨_, -, he⟩ := Option.map_eq_some_iff.1 hfirst
              exact he.symm
            · rintro x rfl
              cases hname
            · rintro x rfl
              cases hname
          rw [hsame] at hrest
          exact ih hclear hrest
      | some saved =>
          rw [hname] at hclear
          have hstep : n₁ = n.setattr (savedName ns saved) (n.getattr saved) := by
            unfold requiredName at hname
            split at hname
            · cases hname
              obtain ⟨obj, hobj, he⟩ := Option.map_eq_some_iff.1 hfirst
              rw [hobj, ← he]
            · cases hname
              exact (Option.some.inj hfirst).symm
            · cases hname
          have hclear' : ∀ name' ∈ names.filterMap requiredName, ¬ InSpace ns name' :=
            fun name' hmem => hclear name' (List.mem_cons_of_mem _ hmem)
          rw [hstep] at hrest
          exact namesSaved_cons hclear' (ih hclear' hrest)

/-- What a call leaves, for the frame that is put on the stack. -/
structure Pushed (f : SavedFrame) (n n' : ViewNode) : Prop where
  saved : ∀ name, f.Saves name → n'.entry (savedName f.ns name) = some (f.before name)
  others : ∀ key, key ≠ viewName → (∀ name, f.Saves name → key ≠ savedName f.ns name) →
    n'.entry key = n.entry key
  view : n'.value viewName = some f.ns
  fresh : n'.Fresh

theorem entry_setNew_other {text : List Char} (h : n.Fresh) {key' : List Char} (hne : key' ≠ key) :
    (n.setNew key text).entry key' = n.entry key' := by
  refine entry_congr (Finmap.lookup_insert_of_ne _ hne) fun obj hobj => ?_
  exact Function.update_of_ne (Nat.ne_of_lt (h key' obj hobj)) _ _

theorem value_setNew {text : List Char} : (n.setNew key text).value key = some text := by
  rw [ViewNode.value, ViewNode.getattr, ViewNode.setNew, Finmap.lookup_insert]
  exact congrArg some (Function.update_self ..)

theorem fresh_setNew {text : List Char} (h : n.Fresh) : (n.setNew key text).Fresh := by
  intro key' obj hobj
  by_cases hk : key' = key
  · rw [hk] at hobj
    have he : some (some n.next) = some (some obj) :=
      (Finmap.lookup_insert n.attributes).symm.trans hobj
    cases he
    exact Nat.lt_succ_self _
  · have he : n.attributes.lookup key' = some (some obj) :=
      (Finmap.lookup_insert_of_ne n.attributes hk).symm.trans hobj
    exact Nat.lt_succ_of_lt (h key' obj he)

theorem fresh_setattr {obj : Option Nat} (h : n.Fresh) (hobj : ∀ o, obj = some o → o < n.next) :
    (n.setattr key obj).Fresh := by
  intro key' o ho
  by_cases hk : key' = key
  · rw [hk] at ho
    have he : some obj = some (some o) := (Finmap.lookup_insert n.attributes).symm.trans ho
    exact hobj o (Option.some.inj he)
  · exact h key' o ((lookup_setattr_other obj hk).symm.trans ho)

theorem saveView_pushed {names : List (List Char)} (hfresh : n.Fresh)
    (h : NamesSaved ns names n n') :
    Pushed ⟨ns, names, n.value⟩ n (saveView ns n') := by
  have hfresh' : n'.Fresh := by
    intro key obj hobj
    rw [h.next]
    by_cases hkey : ∃ name ∈ names, key = savedName ns name
    · obtain ⟨name, hmem, rfl⟩ := hkey
      rw [h.saved name hmem] at hobj
      exact getattr_lt hfresh (Option.some.inj hobj)
    · rw [h.others key fun name hmem he => hkey ⟨name, hmem, he⟩] at hobj
      exact hfresh key obj hobj
  have hview : n'.attributes.lookup viewName = n.attributes.lookup viewName :=
    h.others viewName fun name _ he => viewName_not_inSpace (he ▸ savedName_inSpace)
  have hvalue : n'.value viewName = n.value viewName := by
    rw [ViewNode.value, getattr_congr hview, h.contents]
    rfl
  have hnames : ∀ name ∈ names, n'.entry (savedName ns name) = some (n.value name) := by
    intro name hmem
    rw [ViewNode.entry, h.saved name hmem, h.contents]
    rfl
  have hothers : ∀ key, (∀ name ∈ names, key ≠ savedName ns name) → n'.entry key = n.entry key :=
    fun key hkey => entry_congr (h.others key hkey) fun obj _ => by rw [h.contents]
  have hnot : ∀ name, savedName ns name ≠ viewName :=
    fun name he => viewName_not_inSpace (he ▸ @savedName_inSpace ns name)
  cases hv : n'.getattr viewName with
  | none =>
      have hnone : n.value viewName = none := by
        rw [← hvalue, ViewNode.value, hv]
        rfl
      rw [saveView, hv]
      refine ⟨fun name hsaves => ?_, fun key hkey hother => ?_, value_setNew,
        fresh_setNew hfresh'⟩
      · rw [entry_setNew_other hfresh' (hnot name)]
        rcases hsaves with hmem | ⟨rfl, view, hview', -⟩
        · exact hnames name hmem
        · exact absurd (hnone.symm.trans hview') (by simp)
      · rw [entry_setNew_other hfresh' hkey]
        exact hothers key fun name hmem => hother name (Or.inl hmem)
  | some view =>
      have hsome : n.value viewName = some (n'.contents view) := by
        rw [← hvalue, ViewNode.value, hv]
        rfl
      by_cases hne : n'.contents view ≠ ns
      · have hset : (n'.setattr (savedName ns viewName) (some view)).Fresh :=
          fresh_setattr hfresh' fun o ho => Option.some.inj ho ▸ getattr_lt hfresh' hv
        rw [saveView, hv]
        simp only [if_pos hne]
        have hsaves : (⟨ns, names, n.value⟩ : SavedFrame).Saves viewName :=
          Or.inr ⟨rfl, _, hsome, hne⟩
        have hat : (n'.setattr (savedName ns viewName) (some view)).entry
            (savedName ns viewName) = some (n.value viewName) := by
          rw [hsome, ViewNode.entry, ViewNode.setattr, Finmap.lookup_insert]
          rfl
        have hoff : ∀ key, key ≠ savedName ns viewName →
            (n'.setattr (savedName ns viewName) (some view)).entry key = n'.entry key :=
          fun key hkey => entry_congr (lookup_setattr_other _ hkey) fun _ _ => rfl
        refine ⟨fun name hs => ?_, fun key hkey hother => ?_, value_setNew, fresh_setNew hset⟩
        · rw [entry_setNew_other hset (hnot name)]
          by_cases hname : name = viewName
          · rw [hname]
            exact hat
          · rw [hoff _ fun he => hname (savedName_inj he)]
            exact hnames name (hs.resolve_right fun h => hname h.1)
        · rw [entry_setNew_other hset hkey, hoff key (hother viewName hsaves)]
          exact hothers key fun name hmem => hother name (Or.inl hmem)
      · rw [saveView, hv]
        simp only [if_neg hne]
        have hsame : n'.contents view = ns := not_not.1 hne
        refine ⟨fun name hs => ?_, fun key hkey hother => ?_, ?_, hfresh'⟩
        · rcases hs with hmem | ⟨rfl, view', hview', hne'⟩
          · exact hnames name hmem
          · have he : n'.contents view = view' := Option.some.inj (hsome.symm.trans hview')
            exact absurd (he.symm.trans hsame) hne'
        · exact hothers key fun name hmem => hother name (Or.inl hmem)
        · rw [hvalue, hsome, hsame]

/-! ## The open calls -/

/-- The entries of the open calls, from the last to the first, where `above` are the calls that
are left out. -/
def Stacked (n : ViewNode) : List SavedFrame → List SavedFrame → Prop
  | _, [] => True
  | above, f :: frames =>
      (∀ name ∈ f.names, ∀ g ∈ f :: frames, ¬ InSpace g.ns name) ∧
      (∀ name, ((∃ g ∈ above, InSpace g.ns (savedName f.ns name)) → ¬ f.Saves name) ∧
        ((¬ ∃ g ∈ above, InSpace g.ns (savedName f.ns name)) → Holds n f name)) ∧
      (∀ g rest, frames = g :: rest → f.before viewName = some g.ns) ∧
      Stacked n (f :: above) frames

/-- The invariant. -/
structure OpenCalls (s : NestedNode) : Prop where
  fresh : s.1.Fresh
  view : ∀ f frames, s.2 = f :: frames → s.1.value viewName = some f.ns
  stacked : Stacked s.1 [] s.2

theorem holds_congr (h : n'.entry (savedName f.ns name) = n.entry (savedName f.ns name)) :
    Holds n f name → Holds n' f name := by
  rw [Holds, Holds, h]
  exact id

theorem Stacked.congr {above frames : List SavedFrame}
    (h : ∀ key, (∃ f ∈ frames, InSpace f.ns key) → n'.entry key = n.entry key)
    (hs : Stacked n above frames) : Stacked n' above frames := by
  induction frames generalizing above with
  | nil => trivial
  | cons f frames ih =>
      obtain ⟨hnames, hentries, hview, hrest⟩ := hs
      refine ⟨hnames, fun name => ⟨(hentries name).1, fun hnot => ?_⟩, hview,
        ih (fun key ⟨g, hg, hin⟩ => h key ⟨g, List.mem_cons_of_mem _ hg, hin⟩) hrest⟩
      exact holds_congr (h _ ⟨f, List.mem_cons_self, savedName_inSpace⟩) ((hentries name).2 hnot)

/-- A call is put on the stack: it had no names of the others. -/
theorem Stacked.push {above frames : List SavedFrame}
    (hnone : ∀ key, InSpace g.ns key → n.entry key = none)
    (h : ∀ key, (∃ f ∈ frames, InSpace f.ns key) → ¬ InSpace g.ns key →
      n'.entry key = n.entry key)
    (hs : Stacked n above frames) : Stacked n' (above ++ [g]) frames := by
  induction frames generalizing above with
  | nil => trivial
  | cons f frames ih =>
      obtain ⟨hnames, hentries, hview, hrest⟩ := hs
      refine ⟨hnames, fun name => ⟨fun hin hsaves => ?_, fun hnot => ?_⟩, hview, ?_⟩
      · obtain ⟨hfirst, hsecond⟩ := hentries name
        by_cases habove : ∃ u ∈ above, InSpace u.ns (savedName f.ns name)
        · exact hfirst habove hsaves
        · obtain ⟨u, hu, hspace⟩ := hin
          have hug : u = g := List.mem_singleton.1
            ((List.mem_append.1 hu).resolve_left fun hm => habove ⟨u, hm, hspace⟩)
          have hentry := (hsecond habove).1 hsaves
          rw [hnone _ (hug ▸ hspace)] at hentry
          cases hentry
      · have habove : ¬ ∃ u ∈ above, InSpace u.ns (savedName f.ns name) :=
          fun ⟨u, hu, hspace⟩ => hnot ⟨u, List.mem_append_left _ hu, hspace⟩
        have hspace : ¬ InSpace g.ns (savedName f.ns name) :=
          fun hin => hnot ⟨g, List.mem_append_right _ (List.mem_singleton.2 rfl), hin⟩
        exact holds_congr (h _ ⟨f, List.mem_cons_self, savedName_inSpace⟩ hspace)
          ((hentries name).2 habove)
      · exact ih (fun key ⟨f', hf', hin⟩ => h key ⟨f', List.mem_cons_of_mem _ hf', hin⟩) hrest

/-- A call is taken from the stack: its names are gone. -/
theorem Stacked.pop {above frames : List SavedFrame}
    (hnone : ∀ key, InSpace g.ns key → n'.entry key = none)
    (h : ∀ key, (∃ f ∈ frames, InSpace f.ns key) → ¬ InSpace g.ns key →
      n'.entry key = n.entry key)
    (hs : Stacked n (above ++ [g]) frames) : Stacked n' above frames := by
  induction frames generalizing above with
  | nil => trivial
  | cons f frames ih =>
      obtain ⟨hnames, hentries, hview, hrest⟩ := hs
      refine ⟨hnames, fun name => ⟨fun ⟨u, hu, hspace⟩ => ?_, fun hnot => ?_⟩, hview, ?_⟩
      · exact (hentries name).1 ⟨u, List.mem_append_left _ hu, hspace⟩
      · by_cases hspace : InSpace g.ns (savedName f.ns name)
        · have hsaves := (hentries name).1
            ⟨g, List.mem_append_right _ (List.mem_singleton.2 rfl), hspace⟩
          exact ⟨fun hs => absurd hs hsaves, fun _ => hnone _ hspace⟩
        · refine holds_congr (h _ ⟨f, List.mem_cons_self, savedName_inSpace⟩ hspace)
            ((hentries name).2 fun ⟨u, hu, hin⟩ => ?_)
          rcases List.mem_append.1 hu with hu | hu
          · exact hnot ⟨u, hu, hin⟩
          · exact hspace (List.mem_singleton.1 hu ▸ hin)
      · exact ih (fun key ⟨f', hf', hin⟩ => h key ⟨f', List.mem_cons_of_mem _ hf', hin⟩) hrest

/-- What a call needs: no attribute begins with its namespace, and no name that it saves with
an open namespace or its own. -/
def CallClear (n : ViewNode) (frames : List SavedFrame) (ns : List Char)
    (names : List (List Char)) : Prop :=
  (∀ key ∈ n.attributes, ¬ InSpace ns key) ∧
    ∀ name ∈ names, ¬ InSpace ns name ∧ ∀ f ∈ frames, ¬ InSpace f.ns name

theorem entry_eq_none (h : key ∉ n.attributes) : n.entry key = none := by
  rw [ViewNode.entry, Finmap.lookup_eq_none.2 h]
  rfl

theorem nested_call {frames : List SavedFrame} {names : List (List Char)}
    (h : OpenCalls (n, frames)) (hclear : CallClear n frames ns names)
    (hpushed : Pushed ⟨ns, names, n.value⟩ n n') :
    OpenCalls (n', ⟨ns, names, n.value⟩ :: frames) := by
  have hnone : ∀ key, InSpace ns key → n.entry key = none :=
    fun key hin => entry_eq_none fun hm => hclear.1 key hm hin
  have hother : ∀ key, ¬ InSpace ns key → key ≠ viewName → n'.entry key = n.entry key :=
    fun key hspace hview => hpushed.others key hview fun name _ he =>
      hspace (he ▸ @savedName_inSpace ns name)
  refine ⟨hpushed.fresh, fun f rest he => ?_, ?_, fun name => ⟨fun ⟨_, hg, _⟩ => (nomatch hg),
    fun _ => ⟨hpushed.saved name, fun hnot => ?_⟩⟩, fun g rest he => ?_, ?_⟩
  · cases he
    exact hpushed.view
  · intro name hmem g hg
    obtain ⟨hown, hopen⟩ := hclear.2 name hmem
    rcases List.mem_cons.1 hg with rfl | hg
    · exact hown
    · exact hopen g hg
  · have hkept : n'.entry (savedName ns name) = n.entry (savedName ns name) := by
      refine hpushed.others _ (fun he => viewName_not_inSpace (he ▸ savedName_inSpace))
        fun name' hsaves he => hnot ?_
      rw [savedName_inj he]
      exact hsaves
    exact hkept.trans (hnone _ savedName_inSpace)
  · exact h.view g rest he
  · refine Stacked.push (g := ⟨ns, names, n.value⟩) hnone (fun key ⟨f, _, hin⟩ hspace => ?_)
      h.stacked
    exact hother key hspace fun he => viewName_not_inSpace (he ▸ hin)

/-! ## A restore -/

theorem restoreKey_other {len : Nat} {k : List Char} (hkey : key ≠ k)
    (hname : key ≠ k.drop len) : (restoreKey len n k).attributes.lookup key =
      n.attributes.lookup key := by
  rw [restoreKey]
  cases n.getattr k with
  | none =>
      exact (Finmap.lookup_erase_ne hkey).trans (Finmap.lookup_erase_ne hname)
  | some obj =>
      exact (Finmap.lookup_erase_ne hkey).trans (Finmap.lookup_insert_of_ne _ hname)

theorem restoreKey_gone {len : Nat} {k : List Char} :
    (restoreKey len n k).attributes.lookup k = none := Finmap.lookup_erase k _

theorem restoreKey_back {len : Nat} {k : List Char} (h : k.drop len ≠ k) :
    (restoreKey len n k).attributes.lookup (k.drop len) = (n.getattr k).map some := by
  rw [restoreKey]
  cases n.getattr k with
  | none => exact (Finmap.lookup_erase_ne h).trans (Finmap.lookup_erase _ _)
  | some obj => exact (Finmap.lookup_erase_ne h).trans (Finmap.lookup_insert _)

theorem restoreKey_rest {len : Nat} {k : List Char} :
    (restoreKey len n k).contents = n.contents ∧ (restoreKey len n k).next = n.next := by
  rw [restoreKey]
  cases n.getattr k <;> exact ⟨rfl, rfl⟩

/-- The second loop, when no name behind the namespace begins with it again. -/
theorem restoreKeys_lookup {temp : List Char} {l : List (List Char)} (honce : l.Nodup)
    (hspace : ∀ k ∈ l, temp <+: k ∧ ¬ temp <+: k.drop temp.length) (key : List Char) :
    (l.foldl (restoreKey temp.length) n).attributes.lookup key =
      if key ∈ l then none
      else if temp ++ key ∈ l then (n.getattr (temp ++ key)).map some
      else n.attributes.lookup key := by
  induction l generalizing n with
  | nil => rfl
  | cons k l ih =>
      obtain ⟨hnew, htail⟩ := List.nodup_cons.1 honce
      obtain ⟨⟨name, rfl⟩, hname⟩ := hspace k List.mem_cons_self
      have hback : (temp ++ name).drop temp.length = name := List.drop_left
      rw [hback] at hname
      have hne : name ≠ temp ++ name := fun he => hname ⟨name, he.symm⟩
      rw [List.foldl_cons, ih htail fun k hk => hspace k (List.mem_cons_of_mem _ hk)]
      by_cases hin : key ∈ l
      · rw [if_pos hin, if_pos (List.mem_cons_of_mem _ hin)]
      rw [if_neg hin]
      by_cases hkey : key = temp ++ name
      · have hnot : temp ++ key ∉ l := by
          intro hm
          have hspace' := (hspace _ (List.mem_cons_of_mem _ hm)).2
          rw [List.drop_left, hkey] at hspace'
          exact hspace' (List.prefix_append _ _)
        rw [if_neg hnot, hkey, restoreKey_gone, if_pos List.mem_cons_self]
      have hkeyl : key ∉ (temp ++ name) :: l := fun hm =>
        (List.mem_cons.1 hm).elim hkey hin
      rw [if_neg hkeyl]
      by_cases hmem : temp ++ key ∈ l
      · have hother : temp ++ key ≠ temp ++ name := fun he => hnew (he ▸ hmem)
        rw [if_pos hmem, if_pos (List.mem_cons_of_mem _ hmem)]
        refine congrArg (Option.map some) (getattr_congr (restoreKey_other hother ?_))
        rw [hback]
        exact fun he => hname ⟨key, he⟩
      rw [if_neg hmem]
      by_cases he : key = name
      · have hlookup := @restoreKey_back n temp.length (temp ++ name) (by rwa [hback])
        rw [hback] at hlookup
        rw [he, hlookup, if_pos List.mem_cons_self]
      · have hnot : temp ++ key ∉ (temp ++ name) :: l := fun hm =>
          (List.mem_cons.1 hm).elim (fun h => he (List.append_cancel_left h)) hmem
        rw [if_neg hnot, restoreKey_other hkey (by rwa [hback])]

theorem restoreKeys_rest {len : Nat} {l : List (List Char)} :
    (l.foldl (restoreKey len) n).contents = n.contents ∧
      (l.foldl (restoreKey len) n).next = n.next := by
  induction l generalizing n with
  | nil => exact ⟨rfl, rfl⟩
  | cons k l ih =>
      obtain ⟨hcontents, hnext⟩ := @restoreKey_rest n len k
      obtain ⟨hcontents', hnext'⟩ := @ih (restoreKey len n k)
      exact ⟨hcontents'.trans hcontents, hnext'.trans hnext⟩

/-- Every attribute that the matching call saved has its value of then back, the view too where
there was one, every other attribute is left alone, and no name of the namespace is left. -/
structure RestoresRight (f : SavedFrame) (n n' : ViewNode) : Prop where
  saved : ∀ name ∈ f.names, n'.value name = f.before name
  view : viewName ∉ f.names → n'.value viewName = (f.before viewName).or (n.value viewName)
  others : ∀ key ∉ f.names, key ≠ viewName → ¬ InSpace f.ns key →
    n'.attributes.lookup key = n.attributes.lookup key
  gone : ∀ key, InSpace f.ns key → n'.attributes.lookup key = none
  contents : n'.contents = n.contents

theorem entry_lookup (h : n.entry key = none) : n.attributes.lookup key = none := by
  rwa [ViewNode.entry, Option.map_eq_none_iff] at h

/-- The restore of the last call. -/
theorem swigRestore_spec {frames : List SavedFrame} (h : OpenCalls (n, f :: frames))
    (order : HashOrder (Option Nat)) : ∃ n', swigRestore order n = some n' ∧
      RestoresRight f n n' ∧ n'.next = n.next ∧
      (∀ key, ¬ InSpace f.ns key → ¬ f.Saves key →
        n'.attributes.lookup key = n.attributes.lookup key) ∧
      ∀ key, n'.attributes.lookup key ≠ none →
        n'.attributes.lookup key = n.attributes.lookup key ∨
          ∃ obj, n'.attributes.lookup key = some (some obj) ∧ obj < n.next := by
  obtain ⟨hnames, hentries, -, -⟩ := h.stacked
  have hholds : ∀ name, Holds n f name := fun name =>
    (hentries name).2 fun ⟨_, hu, _⟩ => nomatch hu
  have hview := h.view f frames rfl
  obtain ⟨view, hgetattr, hcontents⟩ := Option.map_eq_some_iff.1 hview
  have hrestore : swigRestore order n = some (((order.keys n.attributes).filter
      (f.ns ++ [':']).isPrefixOf).foldl (restoreKey (f.ns ++ [':']).length) n) := by
    rw [swigRestore, hgetattr, Option.map_some, hcontents]
  have hmem : ∀ key, key ∈ (order.keys n.attributes).filter (f.ns ++ [':']).isPrefixOf ↔
      InSpace f.ns key ∧ n.entry key ≠ none := by
    intro key
    rw [List.mem_filter, order.mem, List.isPrefixOf_iff_prefix, ViewNode.entry, ne_eq,
      Option.map_eq_none_iff, Finmap.lookup_eq_none, not_not]
    exact and_comm
  have hsavesSpace : ∀ name, f.Saves name → ¬ InSpace f.ns name := by
    rintro name (hin | ⟨rfl, -⟩)
    · exact hnames name hin f List.mem_cons_self
    · exact viewName_not_inSpace
  have hsaves : ∀ name, f.ns ++ [':'] ++ name ∈
      (order.keys n.attributes).filter (f.ns ++ [':']).isPrefixOf ↔ f.Saves name := by
    intro name
    rw [hmem, ← savedName_eq]
    constructor
    · rintro ⟨-, hentry⟩
      by_contra hnot
      exact hentry ((hholds name).2 hnot)
    · intro hs
      refine ⟨savedName_inSpace, ?_⟩
      rw [(hholds name).1 hs]
      exact Option.some_ne_none _
  obtain ⟨n', hn'⟩ : ∃ m, ((order.keys n.attributes).filter
      (f.ns ++ [':']).isPrefixOf).foldl (restoreKey (f.ns ++ [':']).length) n = m := ⟨_, rfl⟩
  have hlookup : ∀ key, n'.attributes.lookup key = if key ∈ (order.keys n.attributes).filter
      (f.ns ++ [':']).isPrefixOf then none
      else if f.ns ++ [':'] ++ key ∈ (order.keys n.attributes).filter
        (f.ns ++ [':']).isPrefixOf then (n.getattr (f.ns ++ [':'] ++ key)).map some
      else n.attributes.lookup key := by
    intro key
    rw [← hn']
    refine restoreKeys_lookup ((order.nodup _).filter _) (fun k hk => ?_) key
    obtain ⟨⟨name, rfl⟩, -⟩ := (hmem k).1 hk
    rw [List.drop_left]
    exact ⟨List.prefix_append _ _, hsavesSpace name ((hsaves name).1 hk)⟩
  obtain ⟨hsame, hnext⟩ := @restoreKeys_rest n (f.ns ++ [':']).length
    ((order.keys n.attributes).filter (f.ns ++ [':']).isPrefixOf)
  rw [hn'] at hsame hnext hrestore
  have hgone : ∀ key, InSpace f.ns key → n'.attributes.lookup key = none := by
    intro key hin
    rw [hlookup]
    by_cases hk : key ∈ (order.keys n.attributes).filter (f.ns ++ [':']).isPrefixOf
    · rw [if_pos hk]
    · have hentry : n.entry key = none := by
        by_contra hne
        exact hk ((hmem key).2 ⟨hin, hne⟩)
      rw [if_neg hk, if_neg fun hm => hsavesSpace key ((hsaves key).1 hm) hin]
      exact entry_lookup hentry
  have hback : ∀ name, f.Saves name →
      n'.attributes.lookup name = (n.getattr (savedName f.ns name)).map some := by
    intro name hs
    rw [hlookup, if_neg fun hm => hsavesSpace name hs ((hmem name).1 hm).1,
      if_pos ((hsaves name).2 hs), ← savedName_eq]
  have hvalue : ∀ name, f.Saves name → n'.value name = f.before name := by
    intro name hs
    have hentry := (hholds name).1 hs
    have hsaved : n.value (savedName f.ns name) = f.before name := by
      rw [value_of_entry, hentry]
      rfl
    rw [← hsaved, ViewNode.value, ViewNode.value, hsame, ViewNode.getattr, hback name hs]
    cases n.getattr (savedName f.ns name) <;> rfl
  have hkept : ∀ key, ¬ InSpace f.ns key → ¬ f.Saves key →
      n'.attributes.lookup key = n.attributes.lookup key := by
    intro key hspace hs
    rw [hlookup, if_neg fun hm => hspace ((hmem key).1 hm).1,
      if_neg fun hm => hs ((hsaves key).1 hm)]
  refine ⟨n', hrestore, ⟨fun name hm => hvalue name (Or.inl hm), fun hnot => ?_,
    fun key hm hne hspace => hkept key hspace fun hs => hs.elim hm fun hv => hne hv.1,
    hgone, hsame⟩, hnext, hkept, fun key hne => ?_⟩
  · by_cases hs : f.Saves viewName
    · rw [hvalue viewName hs]
      obtain ⟨-, view', hbefore, -⟩ := hs.resolve_left hnot
      rw [hbefore, Option.some_or]
    · have hlast : n'.value viewName = n.value viewName := by
        rw [ViewNode.value, ViewNode.value, hsame,
          getattr_congr (hkept viewName viewName_not_inSpace hs)]
      rw [hlast]
      cases hbefore : f.before viewName with
      | none => rw [Option.none_or]
      | some view' =>
          have heq : view' = f.ns := by
            by_contra hne
            exact hs (Or.inr ⟨rfl, view', hbefore, hne⟩)
          rw [Option.some_or, heq, hview]
  · by_cases hs : f.Saves key
    · right
      rw [hback key hs] at hne ⊢
      cases hg : n.getattr (savedName f.ns key) with
      | none =>
          rw [hg] at hne
          exact absurd rfl hne
      | some obj => exact ⟨obj, rfl, getattr_lt h.fresh hg⟩
    · by_cases hspace : InSpace f.ns key
      · exact absurd (hgone key hspace) hne
      · exact Or.inl (hkept key hspace hs)

theorem nested_restore {frames : List SavedFrame} {order : HashOrder (Option Nat)}
    (h : OpenCalls (n, f :: frames)) (hn' : swigRestore order n = some n') : OpenCalls (n', frames) := by
  obtain ⟨m, hm, hright, hnext, hkept, hobjects⟩ := swigRestore_spec h order
  obtain rfl : m = n' := Option.some.inj (hm.symm.trans hn')
  obtain ⟨hnames, -, hchain, hrest⟩ := h.stacked
  have hfresh : m.Fresh := by
    intro key obj hobj
    rw [hnext]
    rcases hobjects key (by rw [hobj]; exact Option.some_ne_none _) with he | ⟨obj', ho, hlt⟩
    · exact h.fresh key obj (he ▸ hobj)
    · rw [hobj] at ho
      cases ho
      exact hlt
  refine ⟨hfresh, fun g rest he => ?_, ?_⟩
  · have hbefore := hchain g rest he
    by_cases hin : viewName ∈ f.names
    · rw [← hbefore]
      exact hright.saved viewName hin
    · rw [hright.view hin, hbefore, Option.some_or]
  · refine @Stacked.pop n m f [] frames (fun key hin => ?_) (fun key hopen hspace => ?_) hrest
    · rw [ViewNode.entry, hright.gone key hin]
      rfl
    · obtain ⟨g, hg, hin⟩ := hopen
      refine entry_congr (hkept key hspace fun hs => ?_) fun obj _ => by rw [hright.contents]
      rcases hs with hm | ⟨rfl, -⟩
      · exact hnames key hm g (List.mem_cons_of_mem _ hg) hin
      · exact viewName_not_inSpace hin

/-! ## Changes between the calls -/

/-- A name that is no part of the bookkeeping of the open calls. -/
def Outside (frames : List SavedFrame) (key : List Char) : Prop :=
  frames ≠ [] → key ≠ viewName ∧ ∀ f ∈ frames, ¬ InSpace f.ns key

/-- What a step needs for the restores to be right. -/
def Meets : NestedNode → NodeAction → Prop
  | (n, frames), .save ns names => CallClear n frames ns (names.map unmarkedName)
  | (n, frames), .require ns names => CallClear n frames ns (names.filterMap requiredName)
  | _, .restore _ => True
  | (_, frames), .setNew key _ => Outside frames key
  | (_, frames), .setObject key _ => Outside frames key
  | (_, frames), .delete key => Outside frames key
  | (n, frames), .write obj _ =>
      ∀ key, n.attributes.lookup key = some (some obj) → Outside frames key

/-- A change outside the bookkeeping. -/
theorem nested_change {frames : List SavedFrame} (h : OpenCalls (n, frames)) (hfresh : n'.Fresh)
    (hsame : ∀ key, ¬ Outside frames key → n'.entry key = n.entry key) :
    OpenCalls (n', frames) := by
  refine ⟨hfresh, fun f rest he => ?_, h.stacked.congr fun key ⟨f, hf, hin⟩ => ?_⟩
  · have he : frames = f :: rest := he
    have hview : ¬ Outside frames viewName :=
      fun ho => (ho (by rw [he]; exact List.cons_ne_nil _ _)).1 rfl
    show n'.value viewName = _
    rw [value_of_entry, hsame viewName hview, ← value_of_entry]
    exact h.view f rest he
  · exact hsame key fun ho => (ho (List.ne_nil_of_mem hf)).2 f hf hin

theorem nested_step {s s' : NestedNode} {a : NodeAction} (h : OpenCalls s) (hmeets : Meets s a)
    (hstep : nodeStep a s = some s') : OpenCalls s' := by
  obtain ⟨n, frames⟩ := s
  cases a with
  | save ns names =>
      cases hstep
      exact nested_call h hmeets (saveView_pushed h.fresh
        (saveNames_saved fun name hm => (hmeets.2 name hm).1))
  | require ns names =>
      obtain ⟨n', hn', rfl⟩ := Option.map_eq_some_iff.1 hstep
      obtain ⟨n₁, hn₁, rfl⟩ := Option.map_eq_some_iff.1 hn'
      exact nested_call h hmeets (saveView_pushed h.fresh
        (requireNames_saved (fun name hm => (hmeets.2 name hm).1) hn₁))
  | restore order =>
      cases frames with
      | nil => cases hstep
      | cons f frames =>
          obtain ⟨n', hn', rfl⟩ := Option.map_eq_some_iff.1 hstep
          exact nested_restore h hn'
  | setNew key text =>
      cases hstep
      refine nested_change h (fresh_setNew h.fresh) fun key' hkey' => ?_
      exact entry_setNew_other h.fresh fun he => hkey' (he ▸ hmeets)
  | setObject key obj =>
      rw [nodeStep] at hstep
      split at hstep
      · rename_i hlt
        cases hstep
        refine nested_change h (fresh_setattr h.fresh fun o ho => Option.some.inj ho ▸ hlt)
          fun key' hkey' => ?_
        exact entry_congr (lookup_setattr_other _ fun he => hkey' (he ▸ hmeets)) fun _ _ => rfl
      · cases hstep
  | delete key =>
      cases hstep
      refine nested_change h (fun key' obj hobj => ?_) fun key' hkey' => ?_
      · by_cases he : key' = key
        · have hnone : (n.delattr key).attributes.lookup key' = none := by
            rw [he]
            exact Finmap.lookup_erase _ _
          rw [hnone] at hobj
          cases hobj
        · exact h.fresh key' obj ((Finmap.lookup_erase_ne he).symm.trans hobj)
      · exact entry_congr (Finmap.lookup_erase_ne fun he => hkey' (he ▸ hmeets)) fun _ _ => rfl
  | write obj text =>
      cases hstep
      refine nested_change h h.fresh fun key hkey => entry_congr rfl fun obj' hobj' => ?_
      refine Function.update_of_ne (fun he => hkey (hmeets key ?_)) _ _
      rw [← he]
      exact hobj'

/-- In every run whose steps meet the condition, whatever the node was, a restore ends and is
right in every state that is reached. -/
theorem restore_right {node : ViewNode} (hnode : node.Fresh) {trace : List (NestedNode × NodeAction)}
    {s : NestedNode} (hrun : Run nodeStep (node, []) trace s)
    (hmeets : ∀ x ∈ trace, Meets x.1 x.2) (f : SavedFrame) (frames : List SavedFrame)
    (hs : s.2 = f :: frames) (order : HashOrder (Option Nat)) :
    ∃ n', swigRestore order s.1 = some n' ∧ RestoresRight f s.1 n' := by
  have hstart : OpenCalls (node, []) := ⟨hnode, fun _ _ he => (nomatch he), trivial⟩
  have hnested := (hrun.invariant (I := OpenCalls) hstart
    (fun _ _ _ hI hC hstep => nested_step hI hC hstep) hmeets).1
  obtain ⟨n, frames'⟩ := s
  obtain rfl : frames' = f :: frames := hs
  obtain ⟨n', hn', hright, -⟩ := swigRestore_spec hnested order
  exact ⟨n', hn', hright⟩

def typeName : List Char := ['t', 'y', 'p', 'e']

/-- A node with one attribute. -/
def typedNode : ViewNode where
  attributes := Finmap.singleton typeName (some 0)
  contents obj := if obj = 0 then ['i', 'n', 't'] else []
  next := 1

theorem typedNode_fresh : typedNode.Fresh := by
  intro key obj hobj
  by_cases hkey : key = typeName
  · have hzero : typedNode.attributes.lookup typeName = some (some 0) :=
      Finmap.lookup_singleton_eq
    rw [hkey, hzero] at hobj
    cases hobj
    exact Nat.zero_lt_one
  · have hnone : typedNode.attributes.lookup key = none :=
      Finmap.lookup_eq_none.2 fun hm => hkey ((Finmap.mem_singleton _ _ _).1 hm)
    rw [hnone] at hobj
    cases hobj

/-- The node when its attribute has been saved. -/
def savedNode : NestedNode :=
  (swigSave ['a'] [typeName] typedNode, [⟨['a'], [typeName], typedNode.value⟩])

theorem savedNode_clear : CallClear typedNode [] ['a'] [typeName] := by
  have htype : ¬ InSpace ['a'] typeName := by
    rintro ⟨rest, hrest⟩
    exact absurd (List.cons.inj hrest).1 (by decide)
  refine ⟨fun key hkey => ?_, fun name hname => ?_⟩
  · rw [(Finmap.mem_singleton _ _ _).1 hkey]
    exact htype
  · rw [List.mem_singleton.1 hname]
    exact ⟨htype, fun _ hf => nomatch hf⟩

theorem changed_restored : ∃ n', swigRestore listedKeys
    (savedNode.1.setNew typeName ['l', 'o', 'n', 'g']) = some n' ∧
      n'.value typeName = some ['i', 'n', 't'] := by
  have houtside : Outside savedNode.2 typeName := by
    refine fun _ => ⟨by decide, fun f hf => ?_⟩
    rw [List.mem_singleton.1 hf]
    exact (savedNode_clear.2 typeName (List.mem_singleton.2 rfl)).1
  have hrun : Run nodeStep (typedNode, [])
      [(savedNode, .setNew typeName ['l', 'o', 'n', 'g']),
        ((typedNode, []), .save ['a'] [typeName])]
      (savedNode.1.setNew typeName ['l', 'o', 'n', 'g'], savedNode.2) :=
    Run.step (Run.step Run.start rfl) rfl
  have hmeets : ∀ x ∈ [(savedNode, NodeAction.setNew typeName ['l', 'o', 'n', 'g']),
      ((typedNode, []), .save ['a'] [typeName])], Meets x.1 x.2 := by
    intro x hx
    rcases List.mem_cons.1 hx with rfl | hx
    · exact houtside
    · rw [List.mem_singleton.1 hx]
      exact savedNode_clear
  obtain ⟨n', hn', hright⟩ := restore_right typedNode_fresh hrun hmeets
    ⟨['a'], [typeName], typedNode.value⟩ [] rfl listedKeys
  exact ⟨n', hn', hright.saved typeName (List.mem_singleton.2 rfl)⟩

/-- What is saved is the string itself, and when it is changed in place no string has the old
text any more. -/
theorem inPlace_lost : ∃ trace s f frames, Run nodeStep (typedNode, []) trace s ∧
    s.2 = f :: frames ∧
    ¬ ∃ n', swigRestore listedKeys s.1 = some n' ∧ RestoresRight f s.1 n' := by
  refine ⟨[(savedNode, .write 0 ['i', 'n', 't', 'x']), ((typedNode, []), .save ['a'] [typeName])],
    _, ⟨['a'], [typeName], typedNode.value⟩, [], Run.step (Run.step Run.start rfl) rfl, rfl, ?_⟩
  rintro ⟨n', -, hright⟩
  have hvalue : n'.value typeName = some ['i', 'n', 't'] :=
    hright.saved typeName (List.mem_singleton.2 rfl)
  obtain ⟨obj, -, hobj⟩ := Option.map_eq_some_iff.1 hvalue
  have hview : savedNode.1.contents = Function.update typedNode.contents 1 ['a'] := rfl
  rw [hright.contents] at hobj
  have hobj : Function.update savedNode.1.contents 0 ['i', 'n', 't', 'x'] obj = ['i', 'n', 't'] :=
    hobj
  rw [hview] at hobj
  by_cases hzero : obj = 0
  · rw [hzero, Function.update_self] at hobj
    cases hobj
  rw [Function.update_of_ne hzero] at hobj
  by_cases hone : obj = 1
  · rw [hone, Function.update_self] at hobj
    cases hobj
  · rw [Function.update_of_ne hone, typedNode] at hobj
    simp only [if_neg hzero] at hobj
    cases hobj

end Swig4Ada.Swig

import Swig4Ada.Lib.Run
import Swig4Ada.Swig.Fragment

/-!
# Fragments are written once, and what they need first

While the fragments that a fragment needs are emitted, its name is held and its code is not
written, so an emission writes only fragments that could be written before and each of them
once. Where the needs of fragments go down in a rank and all sections have a file, nothing that
is asked for is held, and each fragment is written behind everything it names.
-/

namespace Swig4Ada.Swig

variable {tools : FragmentTools} {emit : Emitting} {n : FragmentNode} {name : List Char}
  {st st' st₁ st₂ : FragmentState} {frag : Fragment}
  {kwargs : List (List Char × FragmentNode)} {names : List (List Char)}

/-! ## The table -/

theorem find?_setIgnored (k : List Char) (table : List (List Char × Fragment)) :
    ((setIgnored name table).find? fun e => e.1 = k).map Prod.snd =
      if k = name then ((table.find? fun e => e.1 = k).map Prod.snd).map fun _ => ignoredFragment
      else (table.find? fun e => e.1 = k).map Prod.snd := by
  induction table with
  | nil =>
      show none = _
      split <;> rfl
  | cons e table ih =>
      rw [setIgnored, List.map_cons]
      by_cases hk : e.1 = k
      · by_cases hname : e.1 = name
        · rw [if_pos hname, List.find?_cons_of_pos (by simp [← hname, hk]),
            List.find?_cons_of_pos (by simp [hk]), if_pos (hk ▸ hname)]
          rfl
        · rw [if_neg hname, List.find?_cons_of_pos (by simp [hk]),
            List.find?_cons_of_pos (by simp [hk]), if_neg (hk ▸ hname)]
      · have hk' : (if e.1 = name then (name, ignoredFragment) else e).1 ≠ k := by
          split
          next h => exact h ▸ hk
          next => exact hk
        rw [List.find?_cons_of_neg (by simp [hk']), List.find?_cons_of_neg (by simp [hk])]
        exact ih

theorem getattr_eq_some (h : st.getattr name = some frag) : (name, frag) ∈ st.table := by
  obtain ⟨e, he, rfl⟩ := Option.map_eq_some_iff.1 h
  have hname : e.1 = name := by simpa using List.find?_some he
  rw [← hname]
  exact List.mem_of_find?_eq_some he

theorem look_live (h : st.getattr name = some frag) (hcode : frag.code ≠ ignored)
    (hname : name ∉ st.looking) : (st.look name).live < st.live := by
  have hsplit : (st.look name).live = ((st.table.filter fun e =>
      e.2.code ≠ ignored ∧ e.1 ∉ st.looking).filter fun e => e.1 ≠ name).length := by
    rw [List.filter_filter, FragmentState.live, List.countP_eq_length_filter]
    refine congrArg List.length (List.filter_congr fun e _ => ?_)
    simp [FragmentState.look, and_left_comm]
  rw [hsplit, FragmentState.live, List.countP_eq_length_filter]
  refine List.length_filter_lt_length_iff_exists.2 ⟨(name, frag), List.mem_filter.2 ⟨?_, ?_⟩, ?_⟩
  · exact getattr_eq_some h
  · simp [hcode, hname]
  · simp

/-! ## What an emission does -/

/-- What changes from one state to another one while fragments are emitted. -/
structure Emits (st st' : FragmentState) (new : List (List Char × Fragment)) : Prop where
  files : st'.files = st.files
  looking : ∀ x ∈ st.looking, x ∈ st'.looking
  live : st'.live ≤ st.live
  written : st'.written = st.written ++ new
  nodup : (new.map Prod.fst).Nodup
  fresh : ∀ w ∈ new, w.1 ∉ st.looking ∧ st.getattr w.1 = some w.2 ∧ w.2.code ≠ ignored
  done : ∀ w ∈ new, st'.getattr w.1 = some ignoredFragment
  same : ∀ k, k ∉ new.map Prod.fst → st'.getattr k = st.getattr k

theorem Emits.refl (st : FragmentState) : Emits st st [] where
  files := rfl
  looking := fun _ h => h
  live := Nat.le_refl _
  written := (List.append_nil _).symm
  nodup := List.nodup_nil
  fresh := fun _ h => absurd h List.not_mem_nil
  done := fun _ h => absurd h List.not_mem_nil
  same := fun _ _ => rfl

theorem emits_message (st : FragmentState) (text : String) : Emits st (st.message text) [] :=
  { Emits.refl st with }

variable {new new₁ new₂ : List (List Char × Fragment)}

theorem Emits.not_done (h : Emits st st₁ new₁) {w : List Char × Fragment}
    (hw : st₁.getattr w.1 = some w.2) (hcode : w.2.code ≠ ignored) : w.1 ∉ new₁.map Prod.fst := by
  intro hin
  obtain ⟨v, hv, hname⟩ := List.mem_map.1 hin
  have hdone := h.done v hv
  rw [hname, hw] at hdone
  exact hcode (by rw [Option.some.inj hdone]; rfl)

theorem Emits.trans (h₁ : Emits st st₁ new₁) (h₂ : Emits st₁ st₂ new₂) :
    Emits st st₂ (new₁ ++ new₂) := by
  have hnew₂ : ∀ w ∈ new₂, w.1 ∉ new₁.map Prod.fst := fun w hw =>
    h₁.not_done (h₂.fresh w hw).2.1 (h₂.fresh w hw).2.2
  constructor
  case files => exact h₂.files.trans h₁.files
  case looking => exact fun x hx => h₂.looking x (h₁.looking x hx)
  case live => exact h₂.live.trans h₁.live
  case written => rw [h₂.written, h₁.written, List.append_assoc]
  case nodup =>
    rw [List.map_append]
    refine List.nodup_append.2 ⟨h₁.nodup, h₂.nodup, ?_⟩
    intro a ha b hb hab
    obtain ⟨w, hw, rfl⟩ := List.mem_map.1 hb
    exact hnew₂ w hw (hab ▸ ha)
  case fresh =>
    intro w hw
    rcases List.mem_append.1 hw with hw | hw
    · exact h₁.fresh w hw
    · obtain ⟨hlooking, hattr, hcode⟩ := h₂.fresh w hw
      refine ⟨fun hin => hlooking (h₁.looking _ hin), ?_, hcode⟩
      rw [← h₁.same w.1 (hnew₂ w hw)]
      exact hattr
  case done =>
    intro w hw
    rcases List.mem_append.1 hw with hw | hw
    · rw [h₂.same w.1, h₁.done w hw]
      intro hin
      obtain ⟨v, hv, hname⟩ := List.mem_map.1 hin
      exact hnew₂ v hv (hname ▸ List.mem_map_of_mem hw)
    · exact h₂.done w hw
  case same =>
    intro k hk
    rw [List.map_append, List.mem_append, not_or] at hk
    rw [h₂.same k hk.2, h₁.same k hk.1]

/-- A fragment is printed after what it needs was emitted. -/
theorem emits_print (hname : name ∉ st.looking) (hattr : st.getattr name = some frag)
    (hcode : frag.code ≠ ignored) (h : Emits (st.look name) st₁ new) :
    ∃ new', Emits st (st₁.print name frag) new' ∧
      (new' = new ∨
        new' = new ++ [(name, frag)] ∧ ∃ sec ∈ st.files, frag.sectionName = some sec) := by
  have hlook : Emits st st₁ new :=
    { h with
      looking := fun x hx => h.looking x (List.mem_cons_of_mem _ hx)
      live := h.live.trans (Nat.le_of_lt (look_live hattr hcode hname))
      fresh := fun w hw => ⟨fun hin => (h.fresh w hw).1 (List.mem_cons_of_mem _ hin),
        (h.fresh w hw).2⟩ }
  unfold FragmentState.print
  cases hsec : frag.sectionName with
  | none => exact ⟨new, hlook, Or.inl rfl⟩
  | some sec =>
      dsimp only
      by_cases hfile : sec ∈ st₁.files
      · rw [if_pos hfile]
        refine ⟨new ++ [(name, frag)], ?_, Or.inr ⟨rfl, sec, h.files ▸ hfile, rfl⟩⟩
        have hnew : name ∉ new.map Prod.fst := by
          intro hin
          obtain ⟨w, hw, rfl⟩ := List.mem_map.1 hin
          exact (h.fresh w hw).1 List.mem_cons_self
        have hattr₁ : st₁.getattr name = some frag := by
          rw [h.same name hnew]
          exact hattr
        have hprint : ∀ k, FragmentState.getattr
            { st₁ with
              written := st₁.written ++ [(name, frag)]
              fragments := some (setIgnored name st₁.table)
              looking := st₁.looking.erase name } k =
            if k = name then (st₁.getattr k).map fun _ => ignoredFragment
            else st₁.getattr k := fun k => find?_setIgnored k st₁.table
        constructor
        case files => exact h.files
        case looking =>
          intro x hx
          have hne : x ≠ name := by
            rintro rfl
            exact hname hx
          exact (List.mem_erase_of_ne hne).2 (hlook.looking x hx)
        case live =>
          refine Nat.le_trans ?_ hlook.live
          show List.countP _ (setIgnored name st₁.table) ≤ _
          rw [setIgnored, List.countP_map]
          refine List.countP_mono_left fun e _ he => ?_
          simp only [Function.comp_apply, decide_eq_true_eq] at he ⊢
          by_cases hne : e.1 = name
          · rw [if_pos hne] at he
            exact absurd rfl he.1
          · rw [if_neg hne] at he
            exact ⟨he.1, fun hin => he.2 ((List.mem_erase_of_ne hne).2 hin)⟩
        case written =>
          show st₁.written ++ _ = _
          rw [hlook.written, List.append_assoc]
        case nodup =>
          rw [List.map_append]
          refine List.nodup_append.2 ⟨hlook.nodup, List.nodup_singleton _, ?_⟩
          intro a ha b hb hab
          obtain rfl : b = name := List.mem_singleton.1 hb
          exact hnew (hab ▸ ha)
        case fresh =>
          intro w hw
          rcases List.mem_append.1 hw with hw | hw
          · exact hlook.fresh w hw
          · obtain rfl := List.mem_singleton.1 hw
            exact ⟨hname, hattr, hcode⟩
        case done =>
          intro w hw
          rw [hprint]
          rcases List.mem_append.1 hw with hw | hw
          · have hne : w.1 ≠ name := by
              intro e
              exact hnew (e ▸ List.mem_map_of_mem hw)
            rw [if_neg hne]
            exact hlook.done w hw
          · obtain rfl := List.mem_singleton.1 hw
            rw [if_pos rfl, hattr₁]
            rfl
        case same =>
          intro k hk
          rw [List.map_append, List.mem_append, not_or] at hk
          rw [hprint, if_neg fun e => hk.2 (List.mem_singleton.2 e)]
          exact hlook.same k hk.1
      · rw [if_neg hfile]
        exact ⟨new, { hlook with }, Or.inl rfl⟩

/-- Every result of an emission is one that emits. -/
def EmitsAll (emit : Emitting) : Prop := ∀ n st st', emit n st = some st' → ∃ new, Emits st st' new

theorem emitKwargs_emits (hemit : EmitsAll emit) (h : emitKwargs emit kwargs st = some st') :
    ∃ new, Emits st st' new := by
  induction kwargs generalizing st with
  | nil =>
      obtain rfl := Option.some.inj h
      exact ⟨[], Emits.refl st⟩
  | cons p kwargs ih =>
      rw [emitKwargs] at h
      split at h
      · obtain ⟨st₁, h₁, h₂⟩ := Option.bind_eq_some_iff.1 h
        obtain ⟨new₁, hnew₁⟩ := hemit _ _ _ h₁
        obtain ⟨new₂, hnew₂⟩ := ih h₂
        exact ⟨new₁ ++ new₂, hnew₁.trans hnew₂⟩
      · exact ih h

theorem emitName_emits (hemit : EmitsAll emit) (hname : name ∉ st.looking)
    (h : emitName tools emit n name st = some st') : ∃ new, Emits st st' new := by
  unfold emitName at h
  cases hattr : st.getattr name with
  | none =>
      rw [hattr] at h
      obtain ⟨st₁, h₁, rfl⟩ := Option.map_eq_some_iff.1 h
      cases hplain : n.plain tools with
      | none =>
          rw [hplain] at h₁
          obtain rfl := Option.some.inj h₁
          exact ⟨[], emits_message _ _⟩
      | some m =>
          rw [hplain] at h₁
          obtain ⟨new, hnew⟩ := hemit _ _ _ h₁
          exact ⟨new ++ [], hnew.trans (emits_message _ _)⟩
  | some frag =>
      rw [hattr] at h
      dsimp only at h
      split at h
      · obtain rfl := Option.some.inj h
        exact ⟨[], Emits.refl st⟩
      next hcode =>
        obtain ⟨st₁, h₁, rfl⟩ := Option.map_eq_some_iff.1 h
        obtain ⟨new, hnew⟩ := emitKwargs_emits hemit h₁
        obtain ⟨new', hnew', -⟩ := emits_print hname hattr hcode hnew
        exact ⟨new', hnew'⟩

theorem emitNames_emits (hemit : EmitsAll emit) (h : emitNames tools emit n names st = some st') :
    ∃ new, Emits st st' new := by
  induction names generalizing st with
  | nil =>
      obtain rfl := Option.some.inj h
      exact ⟨[], Emits.refl st⟩
  | cons name names ih =>
      rw [emitNames] at h
      split at h
      · obtain rfl := Option.some.inj h
        exact ⟨[], Emits.refl st⟩
      next hname =>
        obtain ⟨st₁, h₁, h₂⟩ := Option.bind_eq_some_iff.1 h
        obtain ⟨new₁, hnew₁⟩ := emitName_emits hemit hname h₁
        obtain ⟨new₂, hnew₂⟩ := ih h₂
        exact ⟨new₁ ++ new₂, hnew₁.trans hnew₂⟩

theorem fragmentEmit_emits (fuel : Nat) : EmitsAll (fragmentEmit tools fuel) := by
  induction fuel with
  | zero =>
      intro n st st' h
      cases h
  | succ fuel ih =>
      intro n st st' h
      rw [fragmentEmit] at h
      split at h
      · obtain rfl := Option.some.inj h
        exact ⟨[], emits_message _ _⟩
      · exact emitNames_emits ih h

/-! ## The depth -/

/-- A name that is not there is asked for once more when the node has a type. -/
def FragmentNode.rank (n : FragmentNode) : Nat := if n.type.isSome then 1 else 0

theorem plain_rank {m : FragmentNode} (h : n.plain tools = some m) :
    m.type = none ∧ m.rank < n.rank := by
  obtain ⟨type, htype, hm⟩ := Option.bind_eq_some_iff.1 h
  split at hm
  · obtain rfl := Option.some.inj hm
    rw [FragmentNode.rank, FragmentNode.rank, htype]
    exact ⟨rfl, Nat.one_pos⟩
  · cases hm

theorem rank_le (n : FragmentNode) : n.rank ≤ 1 := by
  rw [FragmentNode.rank]
  split <;> omega

theorem emitKwargs_isSome {k : Nat} (hemit : EmitsAll emit)
    (h : ∀ nn st', st'.live ≤ k → (emit nn st').isSome) (hst : st.live ≤ k) :
    (emitKwargs emit kwargs st).isSome := by
  induction kwargs generalizing st with
  | nil => rfl
  | cons p kwargs ih =>
      rw [emitKwargs]
      split
      · obtain ⟨st₁, hst₁⟩ := Option.isSome_iff_exists.1 (h p.2 st hst)
        obtain ⟨new, hnew⟩ := hemit _ _ _ hst₁
        rw [hst₁, Option.bind_some]
        exact ih (hnew.live.trans hst)
      · exact ih hst

theorem emitNames_isSome {fuel : Nat} (hemit : EmitsAll emit)
    (h : ∀ m st', 2 * st'.live + m.rank < fuel → (emit m st').isSome)
    (hst : 2 * st.live + n.rank ≤ fuel) : (emitNames tools emit n names st).isSome := by
  induction names generalizing st with
  | nil => rfl
  | cons name names ih =>
      rw [emitNames]
      split
      · rfl
      next hname =>
        have hturn : (emitName tools emit n name st).isSome := by
          unfold emitName
          cases hattr : st.getattr name with
          | none =>
              cases hplain : n.plain tools with
              | none => rfl
              | some m =>
                  have hrank := (plain_rank hplain).2
                  rw [Option.isSome_map]
                  exact h m st (by omega)
          | some frag =>
              dsimp only
              split
              · rfl
              next hcode =>
                have hlive := look_live hattr hcode hname
                rw [Option.isSome_map]
                refine @emitKwargs_isSome emit _ _ (st.look name).live hemit ?_ (Nat.le_refl _)
                intro nn st' hst'
                have hrank := rank_le nn
                exact h nn st' (by omega)
        obtain ⟨st₁, hst₁⟩ := Option.isSome_iff_exists.1 hturn
        obtain ⟨new, hnew⟩ := emitName_emits hemit hname hst₁
        have hlive := hnew.live
        rw [hst₁, Option.bind_some]
        exact ih (by omega)

theorem fragmentEmit_isSome {fuel : Nat} (h : 2 * st.live + n.rank < fuel) :
    (fragmentEmit tools fuel n st).isSome := by
  induction fuel generalizing n st with
  | zero => exact absurd h (Nat.not_lt_zero _)
  | succ fuel ih =>
      rw [fragmentEmit]
      split
      · rfl
      · exact emitNames_isSome (fragmentEmit_emits fuel) (fun m st' hst' => ih hst')
          (Nat.lt_succ_iff.1 h)

/-- The second gives every result of the first. -/
def EmitExtends (f g : Emitting) : Prop := ∀ n st st', f n st = some st' → g n st = some st'

section Extends

variable {f g : Emitting}

theorem emitKwargs_extends (h : EmitExtends f g) (hf : emitKwargs f kwargs st = some st') :
    emitKwargs g kwargs st = some st' := by
  induction kwargs generalizing st with
  | nil => exact hf
  | cons p kwargs ih =>
      rw [emitKwargs] at hf ⊢
      by_cases hkey : p.1 = "fragment".toList
      · rw [if_pos hkey] at hf ⊢
        obtain ⟨st₁, h₁, h₂⟩ := Option.bind_eq_some_iff.1 hf
        exact Option.bind_eq_some_iff.2 ⟨st₁, h _ _ _ h₁, ih h₂⟩
      · rw [if_neg hkey] at hf ⊢
        exact ih hf

theorem emitName_extends (h : EmitExtends f g) (hf : emitName tools f n name st = some st') :
    emitName tools g n name st = some st' := by
  unfold emitName at hf ⊢
  cases hattr : st.getattr name with
  | none =>
      rw [hattr] at hf
      obtain ⟨st₁, h₁, rfl⟩ := Option.map_eq_some_iff.1 hf
      refine Option.map_eq_some_iff.2 ⟨st₁, ?_, rfl⟩
      cases hplain : n.plain tools with
      | none =>
          rw [hplain] at h₁
          exact h₁
      | some m =>
          rw [hplain] at h₁
          exact h _ _ _ h₁
  | some frag =>
      rw [hattr] at hf
      dsimp only at hf ⊢
      by_cases hcode : frag.code = ignored
      · rw [if_pos hcode] at hf ⊢
        exact hf
      · rw [if_neg hcode] at hf ⊢
        obtain ⟨st₁, h₁, rfl⟩ := Option.map_eq_some_iff.1 hf
        exact Option.map_eq_some_iff.2 ⟨st₁, emitKwargs_extends h h₁, rfl⟩

theorem emitNames_extends (h : EmitExtends f g) (hf : emitNames tools f n names st = some st') :
    emitNames tools g n names st = some st' := by
  induction names generalizing st with
  | nil => exact hf
  | cons name names ih =>
      rw [emitNames] at hf ⊢
      by_cases hname : name ∈ st.looking
      · rw [if_pos hname] at hf ⊢
        exact hf
      · rw [if_neg hname] at hf ⊢
        obtain ⟨st₁, h₁, h₂⟩ := Option.bind_eq_some_iff.1 hf
        exact Option.bind_eq_some_iff.2 ⟨st₁, emitName_extends h h₁, ih h₂⟩

end Extends

theorem fragmentEmit_more (fuel : Nat) :
    EmitExtends (fragmentEmit tools fuel) (fragmentEmit tools (fuel + 1)) := by
  induction fuel with
  | zero =>
      intro n st st' h
      cases h
  | succ fuel ih =>
      intro n st st' h
      rw [fragmentEmit] at h ⊢
      by_cases hnone : st.fragments = none
      · rw [if_pos hnone] at h ⊢
        exact h
      · rw [if_neg hnone] at h ⊢
        exact emitNames_extends ih h

/-- An emission ends, also where fragments name each other, and its depth is bounded by the
fragments that could be written. -/
theorem swigFragmentEmit_ends (tools : FragmentTools) (n : FragmentNode) (st : FragmentState) :
    ∃ st', swigFragmentEmit tools n st = some st' ∧
      ∀ fuel, 2 * st.live + 2 ≤ fuel → fragmentEmit tools fuel n st = some st' := by
  have hrank := rank_le n
  obtain ⟨st', hst'⟩ := Option.isSome_iff_exists.1
    (@fragmentEmit_isSome tools n st (2 * st.live + 2) (by omega))
  refine ⟨st', hst', fun fuel hfuel => ?_⟩
  induction hfuel with
  | refl => exact hst'
  | step _ ih => exact fragmentEmit_more _ _ _ _ ih

theorem swigFragmentEmit_emits (h : swigFragmentEmit tools n st = some st') :
    ∃ new, Emits st st' new :=
  fragmentEmit_emits _ n st st' h

/-! ## Runs -/

variable {d : FragmentDirective} {files : List (List Char)}
  {trace : List (FragmentState × FragmentCall)}

theorem getattr_append (k : List Char) :
    FragmentState.getattr { st with fragments := some (st.table ++ [(name, frag)]) } k =
      (st.getattr k).or (if k = name then some frag else none) := by
  show ((st.table ++ [(name, frag)]).find? _).map Prod.snd = _
  rw [List.find?_append, Option.map_or, FragmentState.getattr]
  congr 1
  by_cases hk : k = name
  · rw [if_pos hk, List.find?_cons_of_pos (by simp [hk])]
    rfl
  · rw [if_neg hk, List.find?_cons_of_neg (by simpa using fun e => hk e.symm)]
    rfl

/-- A registration puts a fragment under a new name, or none. -/
structure Registers (tools : FragmentTools) (d : FragmentDirective) (st st' : FragmentState) :
    Prop where
  files : st'.files = st.files
  looking : st'.looking = st.looking
  written : st'.written = st.written
  getattr : ∀ k, st'.getattr k =
    (st.getattr k).or (if k = d.name tools then some (d.fragment tools) else none)

theorem swigFragmentRegister_cases (h : swigFragmentRegister tools d st = some st') :
    (d.emitonly = true ∧ swigFragmentEmit tools d.node st = some st') ∨
      (d.emitonly = false ∧ Registers tools d st st') := by
  unfold swigFragmentRegister at h
  split at h
  next hemit => exact Or.inl ⟨hemit, h⟩
  next hemit =>
    refine Or.inr ⟨Bool.not_eq_true _ ▸ hemit, ?_⟩
    have hattr : ∀ k, FragmentState.getattr { st with fragments := some st.table } k =
        st.getattr k := fun k => rfl
    dsimp only at h
    rw [hattr] at h
    split at h
    next hsome =>
      obtain rfl := Option.some.inj h
      refine ⟨rfl, rfl, rfl, fun k => ?_⟩
      rw [hattr]
      by_cases hk : k = d.name tools
      · obtain ⟨frag, hfrag⟩ := Option.isSome_iff_exists.1 hsome
        rw [hk, hfrag]
        rfl
      · rw [if_neg hk, Option.or_none]
    next =>
      obtain rfl := Option.some.inj h
      exact ⟨rfl, rfl, rfl, getattr_append⟩

/-- What is in the table after a registration was there before, or is new under its name. -/
theorem Registers.getattr_cases {k : List Char} (h : Registers tools d st st')
    (hk : st'.getattr k = some frag) :
    st.getattr k = some frag ∨
      k = d.name tools ∧ d.fragment tools = frag ∧ st.getattr k = none := by
  rw [h.getattr] at hk
  cases hattr : st.getattr k with
  | some frag' =>
      rw [hattr] at hk
      exact Or.inl hk
  | none =>
      rw [hattr, Option.none_or] at hk
      split at hk
      next hname => exact Or.inr ⟨hname, Option.some.inj hk, rfl⟩
      next => cases hk

/-- The fragment is the first one that was registered under the name. -/
def FirstRegistered (tools : FragmentTools) (trace : List (FragmentState × FragmentCall))
    (name : List Char) (frag : Fragment) : Prop :=
  ∃ s d, (s, FragmentCall.register d) ∈ trace ∧ d.emitonly = false ∧ d.name tools = name ∧
    d.fragment tools = frag ∧ s.getattr name = none

/-- What was written is `ignore` in the table, and what is in the table was registered. -/
structure WrittenOnce (tools : FragmentTools) (trace : List (FragmentState × FragmentCall))
    (st : FragmentState) : Prop where
  nodup : (st.written.map Prod.fst).Nodup
  done : ∀ w ∈ st.written, st.getattr w.1 = some ignoredFragment
  registered : ∀ w ∈ st.written, FirstRegistered tools trace w.1 w.2
  table : ∀ k frag, st.getattr k = some frag → frag.code ≠ ignored →
    FirstRegistered tools trace k frag

theorem FirstRegistered.cons {x : FragmentState × FragmentCall}
    (h : FirstRegistered tools trace name frag) : FirstRegistered tools (x :: trace) name frag := by
  obtain ⟨s, d, hin, hrest⟩ := h
  exact ⟨s, d, List.mem_cons_of_mem x hin, hrest⟩

theorem WrittenOnce.emits {x : FragmentState × FragmentCall} (hst : WrittenOnce tools trace st)
    (h : Emits st st' new) : WrittenOnce tools (x :: trace) st' := by
  have hold : ∀ w ∈ st.written, w.1 ∉ new.map Prod.fst := by
    intro w hw hin
    obtain ⟨v, hv, hname⟩ := List.mem_map.1 hin
    obtain ⟨-, hattr, hcode⟩ := h.fresh v hv
    rw [hname, hst.done w hw] at hattr
    exact hcode (by rw [← Option.some.inj hattr]; rfl)
  constructor
  case nodup =>
    rw [h.written, List.map_append]
    refine List.nodup_append.2 ⟨hst.nodup, h.nodup, ?_⟩
    intro a ha b hb hab
    obtain ⟨w, hw, rfl⟩ := List.mem_map.1 ha
    exact hold w hw (hab ▸ hb)
  case done =>
    intro w hw
    rw [h.written] at hw
    rcases List.mem_append.1 hw with hw | hw
    · rw [h.same w.1 (hold w hw)]
      exact hst.done w hw
    · exact h.done w hw
  case registered =>
    intro w hw
    rw [h.written] at hw
    rcases List.mem_append.1 hw with hw | hw
    · exact (hst.registered w hw).cons
    · obtain ⟨-, hattr, hcode⟩ := h.fresh w hw
      exact (hst.table _ _ hattr hcode).cons
  case table =>
    intro k frag hk hcode
    have hnew : k ∉ new.map Prod.fst := h.not_done (w := (k, frag)) hk hcode
    rw [h.same k hnew] at hk
    exact (hst.table k frag hk hcode).cons

theorem WrittenOnce.registers (hst : WrittenOnce tools trace st) (hd : d.emitonly = false)
    (h : Registers tools d st st') :
    WrittenOnce tools ((st, FragmentCall.register d) :: trace) st' := by
  constructor
  case nodup =>
    rw [h.written]
    exact hst.nodup
  case done =>
    intro w hw
    rw [h.written] at hw
    rw [h.getattr, hst.done w hw]
    rfl
  case registered =>
    intro w hw
    rw [h.written] at hw
    exact (hst.registered w hw).cons
  case table =>
    intro k frag hk hcode
    rcases h.getattr_cases hk with hattr | ⟨hname, hfrag, hattr⟩
    · exact (hst.table k frag hattr hcode).cons
    · exact ⟨st, d, List.mem_cons_self, hd, hname.symm, hfrag, hattr⟩

theorem run_writtenOnce (h : Lib.Run (fragmentStep tools) (.start files) trace st) :
    WrittenOnce tools trace st := by
  induction h with
  | start =>
      exact ⟨List.nodup_nil, fun _ hw => absurd hw List.not_mem_nil,
        fun _ hw => absurd hw List.not_mem_nil, fun _ _ hk => by cases hk⟩
  | @step trace s s' call _ hstep ih =>
      cases call with
      | emit n =>
          obtain ⟨new, hnew⟩ := swigFragmentEmit_emits hstep
          exact ih.emits hnew
      | register d =>
          rcases swigFragmentRegister_cases hstep with ⟨-, hemit⟩ | ⟨hd, hreg⟩
          · obtain ⟨new, hnew⟩ := swigFragmentEmit_emits hemit
            exact ih.emits hnew
          · exact ih.registers hd hreg

/-- In every run each name is written at most once, with the code that was registered for it
first. -/
theorem fragments_written_once (h : Lib.Run (fragmentStep tools) (.start files) trace st) :
    (st.written.map Prod.fst).Nodup ∧
      ∀ w ∈ st.written, FirstRegistered tools trace w.1 w.2 :=
  ⟨(run_writtenOnce h).nodup, (run_writtenOnce h).registered⟩

/-! ## The order -/

/-- The nodes that a fragment asks for before it is written. -/
def needs (kwargs : List (List Char × FragmentNode)) : List FragmentNode :=
  (kwargs.filter fun p => p.1 = "fragment".toList).map Prod.snd

theorem needs_fragment {p : List Char × FragmentNode} (h : p.1 = "fragment".toList) :
    needs (p :: kwargs) = p.2 :: needs kwargs :=
  congrArg (List.map Prod.snd) (List.filter_cons_of_pos (decide_eq_true h))

theorem needs_other {p : List Char × FragmentNode} (h : p.1 ≠ "fragment".toList) :
    needs (p :: kwargs) = needs kwargs :=
  congrArg (List.map Prod.snd) (List.filter_cons_of_neg (fun he => h (of_decide_eq_true he)))

variable {rank : List Char → Nat}

/-- All names that are looked up for a node have a lower rank. -/
def AsksBelow (tools : FragmentTools) (rank : List Char → Nat) (n : FragmentNode) (x : List Char) :
    Prop :=
  ∀ m ∈ n :: (n.plain tools).toList, ∀ d ∈ m.names tools, rank d < rank x

/-- A fragment with a file for its section, that asks only for lower ones. -/
structure Fits (tools : FragmentTools) (rank : List Char → Nat) (files : List (List Char))
    (name : List Char) (frag : Fragment) : Prop where
  file : ∃ sec ∈ files, frag.sectionName = some sec
  below : ∀ nn ∈ needs frag.kwargs, AsksBelow tools rank nn name

def Ready (tools : FragmentTools) (rank : List Char → Nat) (st : FragmentState) : Prop :=
  ∀ name frag, st.getattr name = some frag → frag.code ≠ ignored →
    Fits tools rank st.files name frag

def Ignored (st : FragmentState) (name : List Char) : Prop :=
  ∃ frag, st.getattr name = some frag ∧ frag.code = ignored

/-- Each fragment stands behind those that it asks for. -/
def InOrder (tools : FragmentTools) (st : FragmentState) (new : List (List Char × Fragment)) :
    Prop :=
  ∀ a w b, new = a ++ w :: b → ∀ nn ∈ needs w.2.kwargs, ∀ d ∈ nn.names tools,
    (st.getattr d).isSome → Ignored st d ∨ d ∈ a.map Prod.fst

namespace Emits

theorem ready (h : Emits st st' new) (hst : Ready tools rank st) : Ready tools rank st' := by
  intro k frag hk hcode
  have hnew : k ∉ new.map Prod.fst := h.not_done (w := (k, frag)) hk hcode
  rw [h.same k hnew] at hk
  rw [h.files]
  exact hst k frag hk hcode

theorem ignored (h : Emits st st' new) (hname : Ignored st name) : Ignored st' name := by
  obtain ⟨frag, hattr, hcode⟩ := hname
  refine ⟨frag, ?_, hcode⟩
  rw [h.same name]
  · exact hattr
  · intro hin
    obtain ⟨w, hw, rfl⟩ := List.mem_map.1 hin
    obtain ⟨-, hattr', hcode'⟩ := h.fresh w hw
    rw [hattr] at hattr'
    exact hcode' (Option.some.inj hattr' ▸ hcode)

theorem of_ignored (h : Emits st st' new) (hname : Ignored st' name) :
    Ignored st name ∨ name ∈ new.map Prod.fst := by
  by_cases hin : name ∈ new.map Prod.fst
  · exact Or.inr hin
  · obtain ⟨frag, hattr, hcode⟩ := hname
    rw [h.same name hin] at hattr
    exact Or.inl ⟨frag, hattr, hcode⟩

theorem isSome (h : Emits st st' new) (hname : (st.getattr name).isSome) :
    (st'.getattr name).isSome := by
  by_cases hin : name ∈ new.map Prod.fst
  · obtain ⟨w, hw, rfl⟩ := List.mem_map.1 hin
    rw [h.done w hw]
    rfl
  · rw [h.same name hin]
    exact hname

theorem inOrder (h : Emits st st₁ new₁) (h₁ : InOrder tools st new₁)
    (h₂ : InOrder tools st₁ new₂) : InOrder tools st (new₁ ++ new₂) := by
  intro a w b hab nn hnn d hd hsome
  rcases List.append_eq_append_iff.1 hab with ⟨c, rfl, hc⟩ | ⟨c, hc, hb⟩
  · rcases h₂ c w b hc nn hnn d hd (h.isSome hsome) with hd | hd
    · rcases h.of_ignored hd with hd | hd
      · exact Or.inl hd
      · exact Or.inr (by rw [List.map_append]; exact List.mem_append_left _ hd)
    · exact Or.inr (by rw [List.map_append]; exact List.mem_append_right _ hd)
  · cases c with
    | nil =>
        obtain rfl : new₁ = a := by simpa using hc
        rcases h₂ [] w b (by simpa using hb.symm) nn hnn d hd (h.isSome hsome) with hd | hd
        · exact h.of_ignored hd
        · exact absurd hd List.not_mem_nil
    | cons v c =>
        obtain ⟨rfl, -⟩ := List.cons.inj hb
        exact h₁ a w c hc nn hnn d hd hsome

end Emits

/-- What an emission does when all that it asks for is below what is held. -/
structure Clean (tools : FragmentTools) (st st' : FragmentState)
    (new : List (List Char × Fragment)) : Prop where
  emits : Emits st st' new
  looking : st'.looking = st.looking
  order : InOrder tools st new

theorem Clean.refl (tools : FragmentTools) (st : FragmentState) : Clean tools st st [] :=
  ⟨Emits.refl st, rfl, fun a w b h => by cases a <;> cases h⟩

theorem Clean.trans (h₁ : Clean tools st st₁ new₁) (h₂ : Clean tools st₁ st₂ new₂) :
    Clean tools st st₂ (new₁ ++ new₂) :=
  ⟨h₁.emits.trans h₂.emits, h₂.looking.trans h₁.looking, h₁.emits.inOrder h₁.order h₂.order⟩

theorem clean_message (tools : FragmentTools) (st : FragmentState) (text : String) :
    Clean tools st (st.message text) [] :=
  ⟨emits_message st text, rfl, (Clean.refl tools st).order⟩

/-- An emission that leaves nothing held and nothing of what was asked for unwritten. -/
def EmitsClean (tools : FragmentTools) (rank : List Char → Nat) (emit : Emitting) : Prop :=
  ∀ n st st', Ready tools rank st → (∀ x ∈ st.looking, AsksBelow tools rank n x) →
    emit n st = some st' → ∃ new, Clean tools st st' new ∧
      ∀ d ∈ n.names tools, (st.getattr d).isSome → Ignored st' d

theorem emitKwargs_clean (hemit : EmitsClean tools rank emit) (hst : Ready tools rank st)
    (hbelow : ∀ nn ∈ needs kwargs, ∀ x ∈ st.looking, AsksBelow tools rank nn x)
    (h : emitKwargs emit kwargs st = some st') :
    ∃ new, Clean tools st st' new ∧
      ∀ nn ∈ needs kwargs, ∀ d ∈ nn.names tools, (st.getattr d).isSome → Ignored st' d := by
  induction kwargs generalizing st with
  | nil =>
      obtain rfl := Option.some.inj h
      exact ⟨[], Clean.refl tools st, fun nn hnn => absurd hnn List.not_mem_nil⟩
  | cons p kwargs ih =>
      rw [emitKwargs] at h
      by_cases hkey : p.1 = "fragment".toList
      · have hneeds := @needs_fragment kwargs p hkey
        rw [if_pos hkey] at h
        rw [hneeds, List.forall_mem_cons] at hbelow
        obtain ⟨st₁, h₁, h₂⟩ := Option.bind_eq_some_iff.1 h
        obtain ⟨new₁, hnew₁, hdone₁⟩ := hemit _ _ _ hst hbelow.1 h₁
        obtain ⟨new₂, hnew₂, hdone₂⟩ := ih (hnew₁.emits.ready hst)
          (hnew₁.looking ▸ hbelow.2) h₂
        refine ⟨new₁ ++ new₂, hnew₁.trans hnew₂, ?_⟩
        rw [hneeds, List.forall_mem_cons]
        exact ⟨fun d hd hsome => hnew₂.emits.ignored (hdone₁ d hd hsome),
          fun nn hnn d hd hsome => hdone₂ nn hnn d hd (hnew₁.emits.isSome hsome)⟩
      · have hneeds := @needs_other kwargs p hkey
        rw [if_neg hkey] at h
        rw [hneeds] at hbelow ⊢
        exact ih hst hbelow h

theorem emitName_clean (hemit : EmitsClean tools rank emit) (hst : Ready tools rank st)
    (hbelow : ∀ x ∈ st.looking, AsksBelow tools rank n x)
    (hname : name ∈ n.names tools) (h : emitName tools emit n name st = some st') :
    ∃ new, Clean tools st st' new ∧ ((st.getattr name).isSome → Ignored st' name) := by
  have hrank : ∀ x ∈ st.looking, rank name < rank x := fun x hx =>
    hbelow x hx n List.mem_cons_self name hname
  have hfree : name ∉ st.looking := fun hin => Nat.lt_irrefl _ (hrank name hin)
  unfold emitName at h
  cases hattr : st.getattr name with
  | none =>
      rw [hattr] at h
      obtain ⟨st₁, h₁, rfl⟩ := Option.map_eq_some_iff.1 h
      have hsome : (none : Option Fragment).isSome → Ignored (st₁.notFound name) name :=
        fun hsome => absurd hsome Bool.false_ne_true
      cases hplain : n.plain tools with
      | none =>
          rw [hplain] at h₁
          obtain rfl := Option.some.inj h₁
          exact ⟨[], clean_message tools st _, hsome⟩
      | some m =>
          rw [hplain] at h₁
          have hm : m.plain tools = none := by rw [FragmentNode.plain, (plain_rank hplain).1]; rfl
          obtain ⟨new, hnew, -⟩ := hemit m st st₁ hst (fun x hx m' hm' => by
            rw [hm] at hm'
            obtain rfl := List.mem_singleton.1 hm'
            refine hbelow x hx m' (List.mem_cons_of_mem n ?_)
            rw [hplain]
            exact List.mem_singleton.2 rfl) h₁
          exact ⟨new ++ [], hnew.trans (clean_message tools st₁ _), hsome⟩
  | some frag =>
      rw [hattr] at h
      dsimp only at h
      split at h
      next hcode =>
        obtain rfl := Option.some.inj h
        exact ⟨[], Clean.refl tools st, fun _ => ⟨frag, hattr, hcode⟩⟩
      next hcode =>
        obtain ⟨st₁, h₁, rfl⟩ := Option.map_eq_some_iff.1 h
        have hfits := hst name frag hattr hcode
        have hready : Ready tools rank (st.look name) := hst
        obtain ⟨new, hnew, hdone⟩ := emitKwargs_clean hemit hready
          (fun nn hnn x hx => by
            rcases List.mem_cons.1 hx with rfl | hx
            · exact hfits.below nn hnn
            · exact fun m hm d hd => (hfits.below nn hnn m hm d hd).trans (hrank x hx)) h₁
        obtain ⟨sec, hsec, hsection⟩ := hfits.file
        have hprint : st₁.print name frag =
            { st₁ with
              written := st₁.written ++ [(name, frag)]
              fragments := some (setIgnored name st₁.table)
              looking := st₁.looking.erase name } := by
          unfold FragmentState.print
          rw [hsection]
          exact if_pos (hnew.emits.files.symm ▸ hsec)
        obtain ⟨new', hnew', -⟩ := emits_print hfree hattr hcode hnew.emits
        have hwritten : new' = new ++ [(name, frag)] := by
          have hsame : st.written ++ new' = st.written ++ (new ++ [(name, frag)]) := by
            rw [← hnew'.written, hprint, ← List.append_assoc]
            exact congrArg (· ++ [(name, frag)]) hnew.emits.written
          exact List.append_cancel_left hsame
        subst hwritten
        refine ⟨_, ⟨hnew', ?_, ?_⟩, fun _ => ⟨ignoredFragment, ?_, rfl⟩⟩
        · rw [hprint]
          show st₁.looking.erase name = _
          rw [hnew.looking]
          exact List.erase_cons_head name st.looking
        · intro a w b hab nn hnn d hd hsome
          rcases List.append_eq_append_iff.1 hab with ⟨c, rfl, hc⟩ | ⟨c, hc, hb⟩
          · cases c with
            | nil =>
                obtain ⟨rfl, -⟩ := List.cons.inj hc
                rw [List.append_nil]
                exact hnew.emits.of_ignored (hdone nn hnn d hd hsome)
            | cons v c => simp at hc
          · cases c with
            | nil =>
                obtain rfl : new = a := by simpa using hc
                obtain ⟨rfl, -⟩ := List.cons.inj hb
                exact hnew.emits.of_ignored (hdone nn hnn d hd hsome)
            | cons v c =>
                obtain ⟨rfl, -⟩ := List.cons.inj hb
                exact hnew.order a w c hc nn hnn d hd hsome
        · exact hnew'.done (name, frag) (List.mem_append_right _ (List.mem_singleton.2 rfl))

theorem emitNames_clean (hemit : EmitsClean tools rank emit) (hst : Ready tools rank st)
    (hbelow : ∀ x ∈ st.looking, AsksBelow tools rank n x)
    (hnames : ∀ d ∈ names, d ∈ n.names tools) (h : emitNames tools emit n names st = some st') :
    ∃ new, Clean tools st st' new ∧ ∀ d ∈ names, (st.getattr d).isSome → Ignored st' d := by
  induction names generalizing st with
  | nil =>
      obtain rfl := Option.some.inj h
      exact ⟨[], Clean.refl tools st, fun d hd => absurd hd List.not_mem_nil⟩
  | cons name names ih =>
      rw [List.forall_mem_cons] at hnames
      have hfree : name ∉ st.looking := fun hin =>
        Nat.lt_irrefl _ (hbelow name hin n List.mem_cons_self name hnames.1)
      rw [emitNames, if_neg hfree] at h
      obtain ⟨st₁, h₁, h₂⟩ := Option.bind_eq_some_iff.1 h
      obtain ⟨new₁, hnew₁, hdone₁⟩ := emitName_clean hemit hst hbelow hnames.1 h₁
      obtain ⟨new₂, hnew₂, hdone₂⟩ := ih (hnew₁.emits.ready hst)
        (hnew₁.looking ▸ hbelow) hnames.2 h₂
      refine ⟨new₁ ++ new₂, hnew₁.trans hnew₂, ?_⟩
      rw [List.forall_mem_cons]
      exact ⟨fun hsome => hnew₂.emits.ignored (hdone₁ hsome),
        fun d hd hsome => hdone₂ d hd (hnew₁.emits.isSome hsome)⟩

theorem fragmentEmit_clean (fuel : Nat) : EmitsClean tools rank (fragmentEmit tools fuel) := by
  induction fuel with
  | zero =>
      intro n st st' _ _ h
      cases h
  | succ fuel ih =>
      intro n st st' hst hbelow h
      rw [fragmentEmit] at h
      split at h
      next hnone =>
        obtain rfl := Option.some.inj h
        refine ⟨[], clean_message tools st _, fun d _ hsome => ?_⟩
        rw [FragmentState.getattr, FragmentState.table, hnone] at hsome
        exact absurd hsome Bool.false_ne_true
      next => exact emitNames_clean ih hst hbelow (fun _ hd => hd) h

/-- A registration fits, and its code is not the text `ignore`. -/
def CallFits (tools : FragmentTools) (rank : List Char → Nat) (files : List (List Char)) :
    FragmentCall → Prop
  | .emit _ => True
  | .register d => d.emitonly = false →
      Fits tools rank files (d.name tools) (d.fragment tools) ∧ (d.fragment tools).code ≠ ignored

/-- Between two calls nothing is held, and what is `ignore` was written. -/
structure Settled (tools : FragmentTools) (rank : List Char → Nat) (files : List (List Char))
    (st : FragmentState) : Prop where
  files : st.files = files
  looking : st.looking = []
  ready : Ready tools rank st
  ignored : ∀ name, Ignored st name → name ∈ st.written.map Prod.fst

theorem settled_emit (hst : Settled tools rank files st)
    (h : swigFragmentEmit tools n st = some st') :
    ∃ new, Clean tools st st' new ∧ (∀ d ∈ n.names tools, (st.getattr d).isSome → Ignored st' d) ∧
      Settled tools rank files st' := by
  obtain ⟨new, hnew, hdone⟩ := fragmentEmit_clean _ n st st' hst.ready
    (fun x hx => by rw [hst.looking] at hx; cases hx) h
  refine ⟨new, hnew, hdone, hnew.emits.files.trans hst.files, hnew.looking.trans hst.looking,
    hnew.emits.ready hst.ready, fun name hname => ?_⟩
  rw [hnew.emits.written, List.map_append]
  rcases hnew.emits.of_ignored hname with hname | hname
  · exact List.mem_append_left _ (hst.ignored name hname)
  · exact List.mem_append_right _ hname

theorem run_settled (h : Lib.Run (fragmentStep tools) (.start files) trace st)
    (hfits : ∀ x ∈ trace, CallFits tools rank files x.2) : Settled tools rank files st := by
  refine (h.invariant (I := Settled tools rank files) (C := fun _ a => CallFits tools rank files a)
    ⟨rfl, rfl, fun _ _ hk => (by cases hk), fun name hname => ?_⟩ (fun s call s' hs hC hstep => ?_)
    hfits).1
  · obtain ⟨frag, hattr, -⟩ := hname
    cases hattr
  · cases call with
    | emit n =>
        obtain ⟨-, -, -, hs'⟩ := settled_emit hs hstep
        exact hs'
    | register d =>
        rcases swigFragmentRegister_cases hstep with ⟨-, hemit⟩ | ⟨hd, hreg⟩
        · obtain ⟨-, -, -, hs'⟩ := settled_emit hs hemit
          exact hs'
        · obtain ⟨hfit, hcode⟩ := hC hd
          refine ⟨hreg.files.trans hs.files, hreg.looking.trans hs.looking, ?_, ?_⟩
          · intro k frag hk hkcode
            rw [hreg.files]
            rcases hreg.getattr_cases hk with hattr | ⟨hname, hfrag, -⟩
            · exact hs.ready k frag hattr hkcode
            · rw [hname, ← hfrag, hs.files]
              exact hfit
          · intro k hk
            obtain ⟨frag, hk, hkcode⟩ := hk
            rw [hreg.written]
            rcases hreg.getattr_cases hk with hattr | ⟨-, hfrag, -⟩
            · exact hs.ignored k ⟨frag, hattr, hkcode⟩
            · exact absurd (hfrag.symm ▸ hkcode) hcode

/-- Where fragments ask only for lower ones and all sections have files, an emission writes all
that it asks for, and each fragment behind everything it asks for itself. -/
theorem fragments_in_order (h : Lib.Run (fragmentStep tools) (.start files) trace st)
    (hfits : ∀ x ∈ trace, CallFits tools rank files x.2)
    (hemit : swigFragmentEmit tools n st = some st') :
    ∃ new, st'.written = st.written ++ new ∧
      (∀ d ∈ n.names tools, (st.getattr d).isSome → d ∈ st'.written.map Prod.fst) ∧
      ∀ a w b, new = a ++ w :: b → ∀ nn ∈ needs w.2.kwargs, ∀ d ∈ nn.names tools,
        (st.getattr d).isSome → d ∈ (st.written ++ a).map Prod.fst := by
  have hst := run_settled h hfits
  obtain ⟨new, hnew, hdone, hst'⟩ := settled_emit hst hemit
  refine ⟨new, hnew.emits.written, fun d hd hsome => hst'.ignored d (hdone d hd hsome), ?_⟩
  intro a w b hab nn hnn d hd hsome
  rw [List.map_append]
  rcases hnew.order a w b hab nn hnn d hd hsome with hd | hd
  · exact List.mem_append_left _ (hst.ignored d hd)
  · exact List.mem_append_right _ hd

/-! ## A run -/

def noTools : FragmentTools := ⟨fun _ => [], fun s => s, fun s => s⟩

/-- `%fragment("a", "h") "A"` -/
def fragmentA : FragmentDirective := ⟨⟨['a'], none⟩, false, some ['h'], ['A'], []⟩

/-- `%fragment("b", "h", fragment="a") "B"` -/
def fragmentB : FragmentDirective :=
  ⟨⟨['b'], none⟩, false, some ['h'], ['B'], [("fragment".toList, ⟨['a'], none⟩)]⟩

def registeredA : FragmentState :=
  { FragmentState.start [['h']] with fragments := some [(['a'], ⟨['A'], some ['h'], []⟩)] }

def registeredB : FragmentState :=
  { FragmentState.start [['h']] with
    fragments := some [(['a'], ⟨['A'], some ['h'], []⟩), (['b'], fragmentB.fragment noTools)] }

def writtenB : FragmentState :=
  { FragmentState.start [['h']] with
    fragments := some [(['a'], ignoredFragment), (['b'], ignoredFragment)]
    written := [(['a'], ⟨['A'], some ['h'], []⟩), (['b'], fragmentB.fragment noTools)] }

theorem registeredB_run : Lib.Run (fragmentStep noTools) (.start [['h']])
    [(registeredA, .register fragmentB), (.start [['h']], .register fragmentA)] registeredB :=
  .step (.step .start (by decide +kernel)) (by decide +kernel)

theorem writtenB_run : Lib.Run (fragmentStep noTools) (.start [['h']])
    [(writtenB, .emit ⟨['b'], none⟩), (registeredB, .emit ⟨['b'], none⟩),
      (registeredA, .register fragmentB), (.start [['h']], .register fragmentA)] writtenB :=
  .step (.step registeredB_run (by decide +kernel)) (by decide +kernel)

theorem writtenB_once : (writtenB.written.map Prod.fst).Nodup ∧
    ∀ w ∈ writtenB.written, FirstRegistered noTools
      [(writtenB, .emit ⟨['b'], none⟩), (registeredB, .emit ⟨['b'], none⟩),
        (registeredA, .register fragmentB), (.start [['h']], .register fragmentA)] w.1 w.2 :=
  fragments_written_once writtenB_run

theorem registeredB_fits :
    ∀ x ∈ [(registeredA, FragmentCall.register fragmentB), (.start [['h']], .register fragmentA)],
      CallFits noTools (fun name => if name = ['b'] then 1 else 0) [['h']] x.2 := by
  rw [List.forall_mem_cons, List.forall_mem_singleton]
  have hfile : ∃ sec ∈ [['h']], some ['h'] = some sec := ⟨['h'], List.mem_singleton.2 rfl, rfl⟩
  refine ⟨fun _ => ⟨⟨hfile, fun nn hnn => ?_⟩, by decide +kernel⟩,
    fun _ => ⟨⟨hfile, fun nn hnn => absurd hnn List.not_mem_nil⟩, by decide +kernel⟩⟩
  have hneeds : needs (fragmentB.fragment noTools).kwargs = [⟨['a'], none⟩] := by decide +kernel
  rw [hneeds] at hnn
  obtain rfl := List.mem_singleton.1 hnn
  intro m hm d hd
  obtain rfl : m = ⟨['a'], none⟩ := List.mem_singleton.1 hm
  have hnames : FragmentNode.names noTools ⟨['a'], none⟩ = [['a']] := by decide +kernel
  rw [hnames] at hd
  obtain rfl := List.mem_singleton.1 hd
  decide +kernel

theorem writtenB_in_order :
    ∃ new, writtenB.written = registeredB.written ++ new ∧
      (∀ d ∈ FragmentNode.names noTools ⟨['b'], none⟩, (registeredB.getattr d).isSome →
        d ∈ writtenB.written.map Prod.fst) ∧
      ∀ a w b, new = a ++ w :: b → ∀ nn ∈ needs w.2.kwargs, ∀ d ∈ nn.names noTools,
        (registeredB.getattr d).isSome → d ∈ (registeredB.written ++ a).map Prod.fst :=
  fragments_in_order registeredB_run registeredB_fits (by decide +kernel)

end Swig4Ada.Swig

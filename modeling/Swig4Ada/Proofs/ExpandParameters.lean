import Swig4Ada.Proofs.Expand
import Swig4Ada.Proofs.ReplaceWord

/-!
# The arguments of a macro are put in one after the other

Each turn of the loop over the parameters replaces a word of what the turns before have made,
their arguments included. So the arguments are put in at once just when no argument that is put
in has the name of a later parameter in it, and the order of the parameters does not matter when
none has the name of another parameter in it.
-/

namespace Swig4Ada.Preprocessor

open Swig4Ada.Lib Swig4Ada.Doh

variable {replace : Replacing} {mangle : List Char → List Char} {va : Bool}
  {pairs ps : List (List Char × List Char)} {ns text : List Char} {st st' : ExpandState}

/-! ## One turn -/

/-- The characters that stand for operators in the value of a macro. -/
def marks : List Char := ['\x01', '\x02', '\x03', '\x04', '\x05', '`']

/-- No operator stands in the text. -/
def NoMarks (text : List Char) : Prop := ∀ c ∈ marks, c ∉ text

theorem replaced_absent {c : Char} (h : c ∉ text) (token rep : List Char)
    (flags : ReplaceFlags) : replaced text (c :: token) rep flags = text := by
  have hnone : (nextMatch flags.mode (c :: token) text flags.noquote 0).1 = none := by
    rw [Option.eq_none_iff_forall_ne_some]
    intro k hk
    obtain ⟨-, hoccurs, -⟩ := nextMatch_sound (List.cons_ne_nil c token) hk
    exact h (List.mem_of_mem_drop (hoccurs.subset List.mem_cons_self))
  have hright := @simpleRight_none flags.mode (c :: token) rep text flags.noquote flags.first
    (List.cons_ne_nil c token) hnone
  rw [SimpleRight, referenceReplace, wantedPositions_none hnone] at hright
  rw [replaced, stringReplace, hright]
  exact List.drop_zero

theorem nukeBefore_absent {aname : List Char} (fuel : Nat) (before text : List Char)
    (h : '\x02' ∉ before ++ text) : nukeBefore aname fuel before text = before ++ text := by
  induction fuel generalizing before text with
  | zero => rfl
  | succ fuel ih =>
      rw [nukeBefore]
      cases hi : strstr aname text with
      | none => rfl
      | some i =>
          obtain ⟨rest, hrest⟩ := (strstr_sound hi).1
          have htext : text = text.take i ++ (aname ++ text.drop (i + aname.length)) := by
            conv_lhs => rw [← List.take_append_drop i text, ← hrest]
            rw [← List.drop_drop, ← hrest, List.drop_left]
          have hbefore : '\x02' ∉ before ++ text.take i := fun hin => h (by
            rw [htext, ← List.append_assoc]
            exact List.mem_append_left _ hin)
          dsimp only
          have hdone : ∀ l, l = before ++ text.take i →
              nukeBefore aname fuel (l ++ aname) (text.drop (i + aname.length)) =
                before ++ text := by
            rintro l rfl
            have hall : before ++ text.take i ++ aname ++ text.drop (i + aname.length) =
                before ++ text := by
              conv_rhs => rw [htext]
              simp only [List.append_assoc]
            rw [ih _ _ (hall ▸ h), hall]
          refine hdone _ ?_
          split
          · rfl
          · split
            next front hfront =>
              exact absurd (List.mem_reverse.1 (hfront ▸ List.mem_cons_self)) hbefore
            next => rfl

theorem parameterTurn_plain {aname arg reparg : List Char} (hname : Doh.IsWord aname)
    (hns : NoMarks ns) (hrep : NoMarks reparg) :
    parameterTurn mangle va ns aname arg reparg =
        replaceWord isIdentifierChar aname reparg ns ∧
      NoMarks (replaceWord isIdentifierChar aname reparg ns) := by
  have hout : NoMarks (replaceWord isIdentifierChar aname reparg ns) := by
    intro c hc hin
    rcases mem_replaceWord hin with hin | hin
    · exact hns c hc hin
    · exact hrep c hc hin
  refine ⟨?_, hout⟩
  have habsent : ∀ c, c ∈ marks → ∀ l : List Char, (if c ∈ ns then l else ns) = ns :=
    fun c hc l => if_neg (hns c hc)
  have hnuke : (if (va && arg.isEmpty) = true then nukeBefore aname (ns.length + 1) [] ns
      else ns) = ns := by
    split
    · exact nukeBefore_absent _ [] ns (hns _ (by decide))
    · rfl
  obtain ⟨n, hreplace⟩ := hname.replaceId_eq ns reparg
  have hword : replaced ns aname reparg { id := true } =
      replaceWord isIdentifierChar aname reparg ns := by
    rw [replaced]
    show ((replaceId ns aname reparg).map Prod.fst).getD ns = _
    rw [hreplace]
    rfl
  unfold parameterTurn
  dsimp only
  simp only [habsent _ (show '\x01' ∈ marks by decide), habsent _ (show '\x02' ∈ marks by decide),
    habsent _ (show '`' ∈ marks by decide), habsent _ (show '\x04' ∈ marks by decide),
    habsent _ (show '\x05' ∈ marks by decide), hnuke, hword]
  exact replaced_absent (hout _ (by decide)) [] arg {}

/-! ## The loop -/

/-- The parameters with the expansions of their arguments. -/
def argumentsReplaced (replace : Replacing) : List (List Char × List Char) → ExpandState →
    Option (List (List Char × List Char) × ExpandState)
  | [], st => some ([], st)
  | (aname, arg) :: rest, st =>
      (replace arg st).bind fun r =>
        (argumentsReplaced replace rest r.2).map fun q => ((aname, r.1) :: q.1, q.2)

/-- The expansions of the first arguments. -/
theorem argumentsReplaced_take (h : argumentsReplaced replace pairs st = some (ps, st')) (k : Nat) :
    ∃ st'', argumentsReplaced replace (pairs.take k) st = some (ps.take k, st'') := by
  induction pairs generalizing st ps k with
  | nil =>
      obtain ⟨rfl, -⟩ := Prod.mk.inj (Option.some.inj h)
      exact ⟨st, by rw [List.take_nil]; rfl⟩
  | cons p pairs ih =>
      obtain ⟨r, hr, hrest⟩ := Option.bind_eq_some_iff.1 h
      obtain ⟨q, hq, hps⟩ := Option.map_eq_some_iff.1 hrest
      obtain ⟨rfl, rfl⟩ := Prod.mk.inj hps
      cases k with
      | zero => exact ⟨st, rfl⟩
      | succ k =>
          obtain ⟨st'', hst''⟩ := ih hq k
          exact ⟨st'', Option.bind_eq_some_iff.2
            ⟨r, hr, Option.map_eq_some_iff.2 ⟨(q.1.take k, st''), hst'', rfl⟩⟩⟩

theorem argumentsReplaced_names (h : argumentsReplaced replace pairs st = some (ps, st')) :
    ps.map Prod.fst = pairs.map Prod.fst := by
  induction pairs generalizing st ps with
  | nil =>
      obtain ⟨rfl, -⟩ := Prod.mk.inj (Option.some.inj h)
      rfl
  | cons p pairs ih =>
      obtain ⟨r, -, hrest⟩ := Option.bind_eq_some_iff.1 h
      obtain ⟨q, hq, hps⟩ := Option.map_eq_some_iff.1 hrest
      obtain ⟨rfl, rfl⟩ := Prod.mk.inj hps
      rw [List.map_cons, List.map_cons, ih hq]

/-- Without operators, the loop replaces the parameters one after the other. -/
theorem parameterLoop_plain (hnames : ∀ p ∈ ps, Doh.IsWord p.1) (hns : NoMarks ns)
    (hps : ∀ p ∈ ps, NoMarks p.2) (h : argumentsReplaced replace pairs st = some (ps, st')) :
    parameterLoop replace mangle va pairs ns st =
        some (replaceInTurn isIdentifierChar ps ns, st') ∧
      NoMarks (replaceInTurn isIdentifierChar ps ns) := by
  induction pairs generalizing st ps ns with
  | nil =>
      obtain ⟨rfl, rfl⟩ := Prod.mk.inj (Option.some.inj h)
      exact ⟨rfl, hns⟩
  | cons p pairs ih =>
      obtain ⟨r, hr, hrest⟩ := Option.bind_eq_some_iff.1 h
      obtain ⟨q, hq, heq⟩ := Option.map_eq_some_iff.1 hrest
      obtain ⟨rfl, rfl⟩ := Prod.mk.inj heq
      obtain ⟨hturn, hplain⟩ := @parameterTurn_plain mangle (va && pairs.isEmpty) ns p.1 p.2 r.1
        (hnames (p.1, r.1) List.mem_cons_self) hns (hps (p.1, r.1) List.mem_cons_self)
      rw [parameterLoop, hr]
      dsimp only
      rw [hturn]
      exact ih (fun a ha => hnames a (List.mem_cons_of_mem _ ha)) hplain
        (fun a ha => hps a (List.mem_cons_of_mem _ ha)) hq

/-- What an argument list gives is put into the value. -/
structure PlainCall (replace : Replacing) (m : Macro) (pairs : List (List Char × List Char))
    (st : ExpandState) (ps : List (List Char × List Char)) (st' : ExpandState) : Prop where
  names : ∀ p ∈ pairs, Doh.IsWord p.1
  value : NoMarks m.value
  replaced : argumentsReplaced replace pairs st = some (ps, st')
  args : ∀ p ∈ ps, NoMarks p.2

namespace PlainCall

variable {m : Macro}

theorem words (h : PlainCall replace m pairs st ps st') : ∀ p ∈ ps, Doh.IsWord p.1 := by
  intro p hp
  have hin : p.1 ∈ pairs.map Prod.fst := by
    rw [← argumentsReplaced_names h.replaced]
    exact List.mem_map_of_mem hp
  obtain ⟨a, ha, he⟩ := List.mem_map.1 hin
  exact he ▸ h.names a ha

theorem names_words (h : PlainCall replace m pairs st ps st') : Names isIdentifierChar ps :=
  fun p hp => ⟨(h.words p hp).ne_nil, (h.words p hp).chars⟩

theorem macroBody_eq (h : PlainCall replace m pairs st ps st') :
    macroBody replace mangle m pairs st =
      some (replaceInTurn isIdentifierChar ps m.value, st') := by
  obtain ⟨hloop, hplain⟩ := @parameterLoop_plain replace mangle m.varargs pairs ps m.value st st'
    h.words h.value h.args h.replaced
  have hunmarked : unmarkedValue (replaceInTurn isIdentifierChar ps m.value) =
      replaceInTurn isIdentifierChar ps m.value := by
    rw [unmarkedValue, replaced_absent (hplain _ (by decide)),
      replaced_absent (hplain _ (by decide)), replaced_absent (hplain _ (by decide))]
  rw [macroBody, hloop, Option.map_some, hunmarked]

theorem take (h : PlainCall replace m pairs st ps st') (k : Nat) :
    ∃ st'', PlainCall replace m (pairs.take k) st (ps.take k) st'' := by
  obtain ⟨st'', hst''⟩ := argumentsReplaced_take h.replaced k
  exact ⟨st'', fun p hp => h.names p (List.mem_of_mem_take hp), h.value, hst'',
    fun p hp => h.args p (List.mem_of_mem_take hp)⟩

end PlainCall

/-- The first parameters are put into the value at once, for each number of them, just when no
argument that is put in has in it the name of a later parameter that becomes something else. -/
theorem macroBody_atOnce_iff {m : Macro} (mangle : List Char → List Char)
    (h : PlainCall replace m pairs st ps st') :
    (∀ k, (macroBody replace mangle m (pairs.take k) st).map Prod.fst =
        some (replaceAtOnce isIdentifierChar (ps.take k) m.value)) ↔
      NoCapture isIdentifierChar ps (words isIdentifierChar m.value) := by
  rw [← replaceInTurn_take_iff h.names_words]
  refine forall_congr' fun k => ?_
  obtain ⟨st'', htake⟩ := h.take k
  rw [htake.macroBody_eq, Option.map_some]
  exact ⟨fun he => Option.some.inj he, fun he => congrArg some he⟩

/-- `#define g(x, y) x+y` -/
def macroG : Macro := ⟨['g'], some [['x'], ['y']], false, "x+y".toList, false⟩

theorem macroG_call {s t : List Char} {st' : ExpandState}
    (h : argumentsReplaced (nested callTable 9) [(['x'], s), (['y'], t)] plainState =
      some ([(['x'], s), (['y'], t)], st')) (hs : NoMarks s) (ht : NoMarks t) :
    PlainCall (nested callTable 9) macroG [(['x'], s), (['y'], t)] plainState
      [(['x'], s), (['y'], t)] st' where
  names := by
    simp only [List.forall_mem_cons, List.not_mem_nil, false_imp_iff, implies_true, and_true]
    exact ⟨⟨by decide, List.forall_mem_singleton.2 (by decide)⟩,
      ⟨by decide, List.forall_mem_singleton.2 (by decide)⟩⟩
  value := by simp [NoMarks, marks, macroG]
  replaced := h
  args := by simp [hs, ht]

/-- The `y` of the first argument is taken for the parameter. -/
theorem macroG_captures :
    ¬ ∀ k, (macroBody (nested callTable 9) id macroG
        ([(['x'], ['y']), (['y'], ['1'])].take k) plainState).map Prod.fst =
      some (replaceAtOnce isIdentifierChar ([(['x'], ['y']), (['y'], ['1'])].take k)
        "x+y".toList) := by
  have hcall := @macroG_call ['y'] ['1'] plainState (by decide +kernel)
    (by simp [NoMarks, marks]) (by simp [NoMarks, marks])
  intro h
  have hno := (macroBody_atOnce_iff id hcall).1 h
  exact absurd (hno.1 (by decide +kernel) (['y'], ['1']) List.mem_cons_self (by decide +kernel))
    (by decide)

/-- Where no argument that is put in has the name of another parameter in it, the order of the
parameters makes no difference. -/
theorem macroBody_perm {m : Macro} {pairs' ps' : List (List Char × List Char)}
    {st'' : ExpandState} (mangle : List Char → List Char)
    (h : PlainCall replace m pairs st ps st') (h' : PlainCall replace m pairs' st ps' st'')
    (hnodup : (pairs.map Prod.fst).Nodup) (hperm : ps'.Perm ps)
    (hmention : NoMention isIdentifierChar ps (words isIdentifierChar m.value)) :
    (macroBody replace mangle m pairs st).map Prod.fst =
        some (replaceAtOnce isIdentifierChar ps m.value) ∧
      (macroBody replace mangle m pairs' st).map Prod.fst =
        some (replaceAtOnce isIdentifierChar ps m.value) := by
  have hdistinct : (ps.map Prod.fst).Nodup := by
    rw [argumentsReplaced_names h.replaced]
    exact hnodup
  have horder := (@replaceInTurn_perm_iff _ isIdentifierChar _ ps m.value h.names_words
    hdistinct).2 hmention
  have hfull : ∀ l : List (List Char × List Char), l.Perm ps →
      replaceInTurn isIdentifierChar l m.value = replaceAtOnce isIdentifierChar ps m.value := by
    intro l hl
    have hturn := horder l hl l.length
    rw [List.take_length] at hturn
    rw [hturn]
    exact substitute_congr fun w _ => imageOf_perm hdistinct hl w
  rw [h.macroBody_eq, h'.macroBody_eq]
  exact ⟨congrArg some (hfull ps (List.Perm.refl ps)), congrArg some (hfull ps' hperm)⟩

theorem macroG_perm :
    (macroBody (nested callTable 9) id macroG [(['x'], ['1']), (['y'], ['2'])]
        plainState).map Prod.fst =
        some (replaceAtOnce isIdentifierChar [(['x'], ['1']), (['y'], ['2'])] "x+y".toList) ∧
      (macroBody (nested callTable 9) id macroG [(['y'], ['2']), (['x'], ['1'])]
          plainState).map Prod.fst =
        some (replaceAtOnce isIdentifierChar [(['x'], ['1']), (['y'], ['2'])] "x+y".toList) := by
  have hcall := @macroG_call ['1'] ['2'] plainState (by decide +kernel)
    (by simp [NoMarks, marks]) (by simp [NoMarks, marks])
  have hswap : PlainCall (nested callTable 9) macroG [(['y'], ['2']), (['x'], ['1'])] plainState
      [(['y'], ['2']), (['x'], ['1'])] plainState :=
    ⟨fun p hp => hcall.names p ((List.Perm.swap _ _ []).mem_iff.1 hp), hcall.value,
      by decide +kernel, fun p hp => hcall.args p ((List.Perm.swap _ _ []).mem_iff.1 hp)⟩
  refine macroBody_perm id hcall hswap (by decide) (List.Perm.swap _ _ []) ?_
  unfold NoMention
  decide +kernel

end Swig4Ada.Preprocessor

import Swig4Ada.Doh.StringBuffer
import Swig4Ada.Lib.Run
import Swig4Ada.Proofs.Hash
import Swig4Ada.Proofs.Replace

/-!
# The buffer and the hash key of a string

A function on a string either looks at it, or writes to it and then the key is reset and the
buffer holds the text. What a run keeps about sizes and about keys follows from that.
-/

namespace Swig4Ada.Doh.StringBuffer

open Lib

/-! ## Growing -/

section Grow

variable {fuel maxsize needed size : Nat}

/-- Twice nothing is nothing. -/
theorem growLoop_zero (fuel needed : Nat) : growLoop fuel 0 needed = none := by
  induction fuel with
  | zero => rfl
  | succ fuel ih =>
      rw [growLoop, if_pos (Nat.zero_le _)]
      exact ih

theorem growLoop_room (h : growLoop fuel maxsize needed = some size) :
    needed < size ∧ (size = maxsize ∨ size ≤ 2 * needed) := by
  induction fuel generalizing maxsize with
  | zero => exact nomatch h
  | succ fuel ih =>
      rw [growLoop] at h
      by_cases hle : maxsize ≤ needed
      · rw [if_pos hle] at h
        obtain ⟨hlt, hsize⟩ := ih h
        exact ⟨hlt, by omega⟩
      · rw [if_neg hle] at h
        cases h
        exact ⟨by omega, Or.inl rfl⟩

theorem growLoop_ends (hpos : 0 < maxsize) (hfuel : needed < maxsize + fuel) :
    ∃ size, growLoop (fuel + 1) maxsize needed = some size := by
  induction fuel generalizing maxsize with
  | zero =>
      rw [growLoop, if_neg (by omega)]
      exact ⟨maxsize, rfl⟩
  | succ fuel ih =>
      rw [growLoop]
      by_cases hle : maxsize ≤ needed
      · rw [if_pos hle]
        exact ih (by omega) (by omega)
      · rw [if_neg hle]
        exact ⟨maxsize, rfl⟩

theorem growLoop_growFuel (hpos : 0 < maxsize) :
    ∃ size, growLoop (growFuel needed) maxsize needed = some size :=
  growLoop_ends hpos (by omega)

end Grow

/-! ## What a call does -/

variable {s t : StringBuffer}

theorem fits_eq_some : s.fits = some t ↔ s = t ∧ s.text.length < s.allocated := by
  unfold fits
  by_cases h : s.text.length < s.allocated
  · rw [if_pos h, Option.some_inj]
    exact ⟨fun ht => ⟨ht, h⟩, fun ht => ht.1⟩
  · rw [if_neg h]
    exact ⟨fun ht => (nomatch ht), fun ht => absurd ht.2 h⟩

/-- The buffer is as it was, or a new one of the size that `maxsize` says. -/
def Resized (s t : StringBuffer) : Prop :=
  (t.maxsize = s.maxsize ∧ t.allocated = s.allocated) ∨
    (t.maxsize = t.allocated ∧ (0 < s.maxsize → 0 < t.maxsize))

theorem Resized.refl (s : StringBuffer) : Resized s s := Or.inl ⟨rfl, rfl⟩

/-- What a call may do to the text, the key and the buffer. -/
inductive Did (s t : StringBuffer) : Prop
  | looked (text : t.text = s.text) (size : t.maxsize = s.maxsize ∧ t.allocated = s.allocated)
      (key : t.hashkey = s.hashkey ∨ t.hashkey = none ∨ t.hashkey = some (hashText s.text))
  | wrote (key : t.hashkey = none) (room : t.text.length < t.allocated) (size : Resized s t)

theorem Did.refl (s : StringBuffer) : Did s s := .looked rfl ⟨rfl, rfl⟩ (Or.inl rfl)

/-- Most functions end with the key reset and the null character behind the text. -/
theorem did_fits {u : StringBuffer} (h : u.fits = some t) (hkey : u.hashkey = none)
    (hsize : Resized s u) : Did s t := by
  obtain ⟨rfl, hroom⟩ := fits_eq_some.1 h
  exact .wrote hkey hroom hsize

theorem data_did (h : s.data = some t) : Did s t := by
  obtain ⟨rfl, hroom⟩ := fits_eq_some.1 h
  exact .looked rfl ⟨rfl, rfl⟩ (Or.inl rfl)

theorem hash_did (s : StringBuffer) : Did s s.hash.2 := by
  unfold hash
  cases hkey : s.hashkey with
  | some h => exact .refl s
  | none => exact .looked rfl ⟨rfl, rfl⟩ (Or.inr (Or.inr rfl))

theorem getc_text {u v : DohString} {c : Option Char} (h : Doh.getc u = some (c, v)) :
    v.text = u.text := by
  unfold Doh.getc at h
  by_cases hend : u.len ≤ u.sp
  · rw [if_pos hend] at h
    cases h
    rfl
  · rw [if_neg hend] at h
    by_cases hneg : u.sp < 0
    · rw [if_pos hneg] at h
      exact nomatch h
    · rw [if_neg hneg] at h
      cases hget : u.text[u.sp.toNat]? with
      | none => rw [hget] at h; exact nomatch h
      | some d =>
          rw [hget] at h
          cases h
          rfl

theorem getc_did {c : Option Char} (h : s.getc = some (c, t)) : Did s t := by
  obtain ⟨⟨d, v⟩, hv, heq⟩ := Option.map_eq_some_iff.1 h
  cases heq
  exact .looked (getc_text hv) ⟨rfl, rfl⟩ (Or.inl rfl)

theorem ungetc_did (s : StringBuffer) (ch : Option Char) : Did s (s.ungetc ch) := by
  refine .looked ?_ ⟨rfl, rfl⟩ (Or.inl rfl)
  cases ch with
  | none => rfl
  | some c =>
      by_cases hpos : s.string.sp ≤ 0
      · simp only [ungetc, Doh.ungetc, if_pos hpos, text]
      · simp only [ungetc, Doh.ungetc, if_neg hpos, text]

theorem read_did {len : Nat} {r : List Char} (h : s.read len = some (r, t)) : Did s t := by
  unfold read at h
  dsimp only at h
  by_cases hpos : 0 < if s.string.len < s.string.sp + len then s.string.len - s.string.sp else len
  · rw [if_pos hpos] at h
    by_cases hneg : s.string.sp < 0
    · rw [if_pos hneg] at h
      exact nomatch h
    · rw [if_neg hneg] at h
      cases h
      exact .looked rfl ⟨rfl, rfl⟩ (Or.inl rfl)
  · rw [if_neg hpos] at h
    cases h
    exact .refl s

theorem seek_did {offset : Int} {whence : Whence} (h : s.seek offset whence = some t) :
    Did s t := by
  obtain ⟨v, hv, rfl⟩ := Option.map_eq_some_iff.1 h
  obtain ⟨r, _, rfl⟩ := Option.map_eq_some_iff.1 hv
  exact .looked rfl ⟨rfl, rfl⟩ (Or.inl rfl)

theorem putc_did {ch : Char} (h : s.putc ch = some t) : Did s t := by
  obtain ⟨v, _, hfits⟩ := Option.bind_eq_some_iff.1 h
  refine did_fits hfits rfl ?_
  by_cases hfull : s.string.len ≤ s.string.sp ∧ s.maxsize < s.text.length + 2
  · right
    simp only [realloc, decide_eq_true_eq, if_pos hfull]
    exact ⟨trivial, fun hpos => by omega⟩
  · left
    simp only [decide_eq_true_eq, if_neg hfull]
    exact ⟨trivial, trivial⟩

theorem write_did {buffer : List Char} (h : s.write buffer = some t) : Did s t := by
  unfold write at h
  generalize (if s.string.len < s.string.sp then s.string.len else s.string.sp) = sp at h
  obtain ⟨v, _, hfits⟩ := Option.bind_eq_some_iff.1 h
  by_cases hfull : s.maxsize < (sp + buffer.length + 1).toNat
  · rw [if_pos hfull] at hfits
    exact did_fits hfits rfl (Or.inr ⟨rfl, fun _ => by dsimp only [realloc]; omega⟩)
  · rw [if_neg hfull] at hfits
    exact did_fits hfits rfl (.inl ⟨rfl, rfl⟩)

theorem append_did {data : List Char} (h : s.append data = some t) : Did s t := by
  obtain ⟨v, _, hfits⟩ := Option.bind_eq_some_iff.1 h
  refine did_fits hfits rfl ?_
  by_cases hfull : s.maxsize ≤ s.text.length + data.length + 1 + 1
  · right
    simp only [realloc, if_pos hfull]
    refine ⟨trivial, fun _ => ?_⟩
    by_cases hmore : 2 * s.maxsize ≤ s.text.length + data.length + 1 + 1
    · rw [if_pos hmore]
      omega
    · rw [if_neg hmore]
      omega
  · left
    simp only [if_neg hfull]
    exact ⟨trivial, trivial⟩

theorem insert_did {pos : Int} {data : List Char} (h : s.insert pos data = some t) : Did s t := by
  unfold insert at h
  by_cases hend : pos = dohEnd
  · rw [if_pos hend] at h
    exact append_did h
  · rw [if_neg hend] at h
    dsimp only at h
    cases hgrow : growLoop (growFuel (s.text.length + data.length)) s.maxsize
        (s.text.length + data.length) with
    | none => rw [hgrow] at h; exact nomatch h
    | some size =>
        rw [hgrow] at h
        obtain ⟨v, _, hfits⟩ := Option.bind_eq_some_iff.1 h
        refine did_fits hfits rfl ?_
        by_cases hfull : s.maxsize ≤ s.text.length + data.length
        · right
          simp only [realloc, if_pos hfull]
          exact ⟨trivial, fun _ => by have := (growLoop_room hgrow).1; omega⟩
        · left
          simp only [if_neg hfull]
          exact ⟨trivial, trivial⟩

theorem delitem_did {pos : Int} (h : s.delitem pos = some t) : Did s t := by
  unfold delitem at h
  by_cases hempty : s.text = []
  · rw [if_pos hempty] at h
    cases h
    exact .looked rfl ⟨rfl, rfl⟩ (Or.inr (Or.inl rfl))
  · rw [if_neg hempty] at h
    obtain ⟨v, _, hfits⟩ := Option.bind_eq_some_iff.1 h
    exact did_fits hfits rfl (.inl ⟨rfl, rfl⟩)

theorem delslice_did {sindex eindex : Int} (h : s.delslice sindex eindex = some t) : Did s t := by
  unfold delslice at h
  by_cases hempty : s.text = []
  · rw [if_pos hempty] at h
    cases h
    exact .refl s
  · rw [if_neg hempty] at h
    obtain ⟨v, _, hfits⟩ := Option.bind_eq_some_iff.1 h
    exact did_fits hfits rfl (.inl ⟨rfl, rfl⟩)

theorem replace_did {token rep : List Char} {flags : ReplaceFlags}
    (h : s.replace token rep flags = some t) : Did s t := by
  unfold replace at h
  dsimp only at h
  split at h
  · cases h; exact .refl s
  split at h
  · exact nomatch h
  split at h
  · cases h; exact .refl s
  cases hrun : stringReplace (cText s.text) (cText token) (cText rep) flags with
  | none => rw [hrun] at h; exact nomatch h
  | some r =>
      rw [hrun] at h
      dsimp only at h
      split at h
      · cases h
        exact .looked rfl ⟨rfl, rfl⟩ (Or.inr (Or.inl rfl))
      split at h
      · exact did_fits h rfl (.inl ⟨rfl, rfl⟩)
      · -- the text gets longer
        generalize hneeded : s.text.length + r.2 * ((cText rep).length - (cText token).length) =
          needed at h
        cases hgrow : growLoop (growFuel needed) s.maxsize needed with
        | none => rw [hgrow] at h; exact nomatch h
        | some size =>
            rw [hgrow] at h
            have hroom := (growLoop_room hgrow).1
            exact did_fits h rfl (Or.inr ⟨rfl, fun _ => by simp only [realloc]; omega⟩)

theorem perform_did {c : StringCall} (h : c.perform s = some t) : Did s t := by
  cases c with
  | data => exact data_did h
  | hash => cases h; exact hash_did s
  | getc =>
      obtain ⟨r, hr, rfl⟩ := Option.map_eq_some_iff.1 h
      exact getc_did hr
  | ungetc ch => cases h; exact ungetc_did s ch
  | read len =>
      obtain ⟨r, hr, rfl⟩ := Option.map_eq_some_iff.1 h
      exact read_did hr
  | seek offset whence => exact seek_did h
  | setline line => cases h; exact .looked rfl ⟨rfl, rfl⟩ (Or.inl rfl)
  | putc ch => exact putc_did h
  | write buffer => exact write_did h
  | append d => exact append_did h
  | clear => exact did_fits h rfl (Resized.refl s)
  | insert pos d => exact insert_did h
  | delitem pos => exact delitem_did h
  | delslice sindex eindex => exact delslice_did h
  | replace token rep flags => exact replace_did h
  | chop => exact did_fits h rfl (Resized.refl s)

/-! ## Lengths -/

section Lengths

variable {mode : MatchMode} {token rep text text' : List Char}

/-- Each turn writes one replacement and goes past one token. -/
theorem buildText_length (htoken : token ≠ []) {left s : Nat} {noquote : Bool}
    {ns r : List Char} (hs : s + token.length ≤ text.length)
    (h : buildText mode token rep text (left + 1) s noquote ns = some r) :
    r.length + (left + 1) * token.length + s = ns.length + (left + 1) * rep.length + text.length := by
  induction left generalizing s noquote ns with
  | zero =>
      rw [buildText] at h
      dsimp only at h
      rw [if_pos rfl] at h
      cases h
      rw [List.length_append, List.length_append, List.length_drop]
      omega
  | succ left ih =>
      rw [buildText] at h
      cases hnext : nextMatch mode token text noquote (s + token.length) with
      | mk c noquote' =>
          rw [hnext] at h
          dsimp only at h
          rw [if_neg (Nat.succ_ne_zero left)] at h
          cases c with
          | none => cases h
          | some c =>
              obtain ⟨hge, -, -, hin⟩ := nextMatch_sound htoken (congrArg Prod.fst hnext)
              have hlen := ih hin h
              rw [List.length_append, List.length_append, List.length_take, List.length_drop] at hlen
              rw [Nat.succ_mul (left + 1) token.length, Nat.succ_mul (left + 1) rep.length]
              omega

theorem stringReplace_length {flags : ReplaceFlags} {rcount : Nat}
    (h : stringReplace text token rep flags = some (text', rcount)) :
    if rep.length ≤ token.length then text'.length ≤ text.length
    else text'.length = text.length + rcount * (rep.length - token.length) := by
  have hsame : some (text, 0) = some (text', rcount) →
      if rep.length ≤ token.length then text'.length ≤ text.length
      else text'.length = text.length + rcount * (rep.length - token.length) := by
    intro heq
    cases heq
    split
    · exact le_refl _
    · omega
  unfold stringReplace replaceSimple at h
  by_cases htoken : token = []
  · rw [if_pos htoken] at h
    exact hsame h
  rw [if_neg htoken] at h
  dsimp only at h
  split at h
  · exact hsame h
  split at h
  · exact hsame h
  next first hfirst =>
    by_cases hle : rep.length ≤ token.length
    · rw [if_pos hle] at h ⊢
      cases h
      exact (List.length_take_le _ _).trans (Nat.sub_le _ _)
    · rw [if_neg hle] at h ⊢
      obtain ⟨r, hr, heq⟩ := Option.map_eq_some_iff.1 h
      cases heq
      generalize hanswer : countMatches flags.mode token text (text.length + 1)
        (first + token.length) _ _ 1 = answer at hr ⊢
      have hge : 1 ≤ answer.1 := hanswer ▸ countMatches_ge
      obtain ⟨left, hleft⟩ : ∃ left, answer.1 = left + 1 := ⟨answer.1 - 1, by omega⟩
      obtain ⟨hge, -, -, hin⟩ := nextMatch_sound htoken hfirst
      rw [hleft] at hr ⊢
      have hlen := buildText_length htoken hin hr
      rw [List.length_take, Nat.min_eq_left (by omega)] at hlen
      obtain ⟨more, hmore⟩ : ∃ more, rep.length = token.length + more :=
        ⟨rep.length - token.length, by omega⟩
      rw [hmore, Nat.mul_add] at hlen
      rw [hmore, Nat.add_sub_cancel_left]
      omega

end Lengths

/-! ## What a step keeps -/

/-- What calls keep, and what the new strings have, is kept by a step. -/
theorem perform_forall {P : StringBuffer → Prop} {step : StringStep}
    {strings strings' : List StringBuffer} (hrun : step.perform strings = some strings')
    (hnew : ∀ text, P (newString text)) (hempty : P newStringEmpty)
    (hsize : ∀ text len, P (newStringWithSize text len))
    (hof : ∀ i fresh s, step = .newStringOf i fresh → strings[i]? = some s → P s →
      P ({ s with terminated := true }.newStringOf fresh))
    (hcopy : ∀ i s, step = .copy i → strings[i]? = some s → P s → P s.copyString)
    (hdid : ∀ s t, P s → Did s t → P t) (hall : ∀ s ∈ strings, P s) :
    ∀ s ∈ strings', P s := by
  have hadd : ∀ {l : List StringBuffer} {u : StringBuffer}, (∀ s ∈ l, P s) → P u →
      ∀ s ∈ l ++ [u], P s := by
    intro l u hl hu s hs
    rcases List.mem_append.1 hs with hs | hs
    · exact hl s hs
    · obtain rfl := List.mem_singleton.1 hs
      exact hu
  have hset : ∀ (i : Nat) {u : StringBuffer}, P u → ∀ s ∈ strings.set i u, P s := by
    intro i u hu s hs
    rcases List.mem_or_eq_of_mem_set hs with hs | rfl
    · exact hall s hs
    · exact hu
  cases step with
  | newString text => cases hrun; exact hadd hall (hnew text)
  | newStringEmpty => cases hrun; exact hadd hall hempty
  | newStringWithSize text len => cases hrun; exact hadd hall (hsize text len)
  | newStringOf i fresh =>
      obtain ⟨s, hs, hrest⟩ := Option.bind_eq_some_iff.1 hrun
      obtain ⟨t, ht, rfl⟩ := Option.map_eq_some_iff.1 hrest
      have hPs := hall s (List.mem_of_getElem? hs)
      have hPt := hdid s t hPs (data_did ht)
      obtain ⟨rfl, -⟩ := fits_eq_some.1 ht
      exact hadd (hset i hPt) (hof i fresh s rfl hs hPs)
  | copy i =>
      obtain ⟨s, hs, rfl⟩ := Option.map_eq_some_iff.1 hrun
      exact hadd hall (hcopy i s rfl hs (hall s (List.mem_of_getElem? hs)))
  | call i c =>
      obtain ⟨s, hs, hrest⟩ := Option.bind_eq_some_iff.1 hrun
      obtain ⟨t, ht, rfl⟩ := Option.map_eq_some_iff.1 hrest
      exact hset i (hdid s t (hall s (List.mem_of_getElem? hs)) (perform_did ht))

/-! ## The key -/

/-- A key that is kept is the hash of the text. -/
def KeyValid (s : StringBuffer) : Prop := ∀ h, s.hashkey = some h → h = hashText s.text

theorem hash_eq (h : KeyValid s) : s.hash.1 = hashText s.text := by
  unfold hash
  cases hkey : s.hashkey with
  | none => rfl
  | some k => exact h k hkey

theorem Did.keyValid (h : Did s t) (hs : KeyValid s) : KeyValid t := by
  intro k hk
  cases h with
  | looked text _ key =>
      rw [text]
      rcases key with key | key | key
      · exact hs k (key ▸ hk)
      · rw [key] at hk
        exact nomatch hk
      · rw [key] at hk
        exact (Option.some.inj hk).symm
  | wrote key _ _ =>
      rw [key] at hk
      exact nomatch hk

theorem cText_eq {l : List Char} (h : '\x00' ∉ l) : cText l = l := by
  refine List.takeWhile_eq_self_iff.2 fun c hc => ?_
  have hne : c ≠ '\x00' := fun heq => h (heq ▸ hc)
  simpa using hne

theorem newStringOf_keyValid (hs : KeyValid s) (h : s.hashkey ≠ none → '\x00' ∉ s.text)
    (fresh : Nat → Char) : KeyValid (s.newStringOf fresh) := by
  intro k hk
  have hkey : s.hashkey = some k := by
    unfold newStringOf at hk
    dsimp only at hk
    split at hk
    · exact hk
    · exact hk
  have hcopied := cText_eq (h (by rw [hkey]; exact Option.some_ne_none k))
  unfold newStringOf
  dsimp only
  rw [hcopied, if_pos rfl]
  exact hs k hkey

/-! ## The size -/

/-- The buffer has a size that can be doubled, and the text is in it. -/
structure Sized (s : StringBuffer) : Prop where
  pos : 0 < s.maxsize
  maxsize_le : s.maxsize ≤ s.allocated
  room : s.text.length < s.allocated

theorem Did.sized (h : Did s t) (hs : Sized s) : Sized t := by
  obtain ⟨hpos, hle, hroom⟩ := hs
  cases h with
  | looked text size _ => exact ⟨by omega, by omega, by rw [text]; omega⟩
  | wrote _ room size =>
      rcases size with ⟨h₁, h₂⟩ | ⟨h₁, h₂⟩
      · exact ⟨by omega, by omega, room⟩
      · exact ⟨h₂ hpos, by omega, room⟩

theorem newMaxsize_gt (l : Nat) : l < newMaxsize l := by
  unfold newMaxsize initMaxsize
  split <;> omega

theorem cText_length_le (l : List Char) : (cText l).length ≤ l.length :=
  (List.takeWhile_prefix _).length_le

theorem newString_sized (text : List Char) : Sized (newString text) := by
  have hlt := newMaxsize_gt (cText text).length
  exact ⟨Nat.zero_lt_of_lt hlt, le_refl _, hlt⟩

theorem newStringEmpty_sized : Sized newStringEmpty := ⟨by decide, by decide, by decide⟩

theorem strncpy_length (text : List Char) (len : Nat) : (strncpy text len).length = len := by
  rw [strncpy, List.length_append, List.length_take, List.length_replicate]
  omega

theorem newStringWithSize_sized (text : List Char) (len : Nat) :
    Sized (newStringWithSize text len) := by
  have hlt := newMaxsize_gt len
  refine ⟨Nat.zero_lt_of_lt hlt, le_refl _, ?_⟩
  show (strncpy text len).length < newMaxsize len
  rw [strncpy_length]
  exact hlt

theorem newStringOf_length (s : StringBuffer) (fresh : Nat → Char) :
    (s.newStringOf fresh).text.length = s.text.length := by
  have hle := cText_length_le s.text
  unfold newStringOf
  dsimp only
  split
  · next heq => exact heq
  · next hne =>
      simp only [text, DohString.new, List.length_append, List.length_cons, List.length_map,
        List.length_range] at hle hne ⊢
      omega

theorem newStringOf_size (s : StringBuffer) (fresh : Nat → Char) :
    (s.newStringOf fresh).maxsize = newMaxsize s.text.length ∧
      (s.newStringOf fresh).allocated = newMaxsize s.text.length := by
  unfold newStringOf
  dsimp only
  split
  · exact ⟨rfl, rfl⟩
  · exact ⟨rfl, rfl⟩

theorem newStringOf_sized (s : StringBuffer) (fresh : Nat → Char) :
    Sized (s.newStringOf fresh) := by
  have hlt := newMaxsize_gt s.text.length
  obtain ⟨hmax, halloc⟩ := newStringOf_size s fresh
  exact ⟨by omega, by omega, by rw [newStringOf_length, halloc]; exact hlt⟩

/-- The size of a copy is the length of its text. -/
theorem copyString_sized (h : s.text ≠ []) : Sized s.copyString :=
  ⟨List.length_pos_of_ne_nil h, Nat.le_succ _, Nat.lt_succ_self _⟩

/-- The loops that double the size end and leave room for the result and for the null
character behind it, and so do the functions that they are in. -/
structure GrowthEnds (s : StringBuffer) : Prop where
  loop : ∀ more, ∃ fuel size, growLoop fuel s.maxsize (s.text.length + more) = some size ∧
    s.text.length + more < size ∧ (size = s.maxsize ∨ size ≤ 2 * (s.text.length + more))
  insert : ∀ pos data, pos ≠ dohEnd → ∃ t, s.insert pos data = some t ∧
    t.text.length = s.text.length + data.length ∧ t.text.length < t.allocated
  replace : ∀ token rep flags r, s.Ended →
    stringReplace (cText s.text) (cText token) (cText rep) flags = some r →
    ∃ t, s.replace token rep flags = some t ∧ t.text.length < t.allocated

theorem insert_length {u : DohString} {pos : Int} (hpos : pos ≠ dohEnd) (data : List Char) :
    ∃ v, Doh.insert u pos data = some v ∧ v.text.length = u.text.length + data.length := by
  unfold Doh.insert
  rw [if_neg hpos]
  dsimp only
  generalize (if pos < 0 then (0 : Int) else if u.len < pos then u.len else pos) = n
  by_cases hsp : n ≤ u.sp
  · rw [if_pos hsp]
    refine ⟨_, rfl, ?_⟩
    simp only [List.length_append, List.length_take, List.length_drop]
    omega
  · rw [if_neg hsp]
    refine ⟨_, rfl, ?_⟩
    simp only [List.length_append, List.length_take, List.length_drop]
    omega

theorem Sized.insert_ends (hs : Sized s) {pos : Int} (hpos : pos ≠ dohEnd) (data : List Char) :
    ∃ t, s.insert pos data = some t ∧ t.text.length = s.text.length + data.length ∧
      t.text.length < t.allocated := by
  obtain ⟨hmax, hle, -⟩ := hs
  obtain ⟨v, hv, hlen⟩ := @insert_length s.string pos hpos data
  obtain ⟨size, hgrow⟩ := @growLoop_growFuel _ (s.text.length + data.length) hmax
  have hroom := (growLoop_room hgrow).1
  have hlen : v.text.length = s.text.length + data.length := hlen
  unfold insert
  rw [if_neg hpos]
  dsimp only
  rw [hgrow, hv]
  refine ⟨_, fits_eq_some.2 ⟨rfl, ?_⟩, hlen, ?_⟩
  all_goals
    show v.text.length < _
    dsimp only
    split
    · rw [hlen]
      exact hroom
    · omega

theorem Sized.replace_ends (hs : Sized s) {token rep : List Char} {flags : ReplaceFlags}
    {r : List Char × Nat} (hended : s.Ended)
    (hr : stringReplace (cText s.text) (cText token) (cText rep) flags = some r) :
    ∃ t, s.replace token rep flags = some t ∧ t.text.length < t.allocated := by
  obtain ⟨hmax, hle, hroom⟩ := hs
  have hbase := cText_length_le s.text
  have hlen := stringReplace_length hr
  unfold replace
  dsimp only
  by_cases htoken : cText token = []
  · rw [if_pos htoken]
    exact ⟨s, rfl, hroom⟩
  rw [if_neg htoken, if_neg (not_not_intro hended)]
  split
  · exact ⟨s, rfl, hroom⟩
  rw [hr]
  dsimp only
  split
  · exact ⟨_, rfl, hroom⟩
  by_cases hshort : (cText rep).length ≤ (cText token).length
  · rw [if_pos hshort] at hlen ⊢
    have hfit : (r.1 ++ s.text.drop (cText s.text).length).length < s.allocated := by
      rw [List.length_append, List.length_drop]
      omega
    exact ⟨_, fits_eq_some.2 ⟨rfl, hfit⟩, hfit⟩
  · rw [if_neg hshort] at hlen ⊢
    generalize r.2 * ((cText rep).length - (cText token).length) = expand at hlen ⊢
    obtain ⟨size, hgrow⟩ := @growLoop_growFuel _ (s.text.length + expand) hmax
    have hsize := (growLoop_room hgrow).1
    rw [hgrow]
    have hfit : (r.1 ++ s.text.drop (cText s.text).length).length < size := by
      rw [List.length_append, List.length_drop]
      omega
    exact ⟨_, fits_eq_some.2 ⟨rfl, hfit⟩, hfit⟩

theorem Sized.growthEnds (hs : Sized s) : GrowthEnds s where
  loop more := by
    obtain ⟨size, hgrow⟩ := @growLoop_growFuel _ (s.text.length + more) hs.pos
    obtain ⟨hroom, hsize⟩ := growLoop_room hgrow
    exact ⟨_, size, hgrow, hroom, hsize⟩
  insert _ data hpos := hs.insert_ends hpos data
  replace _ _ _ _ hended hr := hs.replace_ends hended hr

/-- The loops of a copy of an empty string do not end. -/
theorem not_growthEnds_copy (h : s.text = []) : ¬ GrowthEnds s.copyString := by
  intro hends
  obtain ⟨fuel, size, hgrow, -⟩ := hends.loop 0
  have hmax : s.copyString.maxsize = 0 := List.length_eq_zero_iff.2 h
  rw [hmax, growLoop_zero] at hgrow
  exact nomatch hgrow

end Swig4Ada.Doh.StringBuffer

namespace Swig4Ada.Doh

open Lib StringBuffer

/-! ## Growing in a run -/

/-- What is copied is not empty. -/
def StringStep.CopiesText (strings : List StringBuffer) : StringStep → Prop
  | .copy i => ∀ s, strings[i]? = some s → s.text ≠ []
  | _ => True

theorem StringStep.sized {step : StringStep} {strings strings' : List StringBuffer}
    (hrun : step.perform strings = some strings') (hcopies : step.CopiesText strings)
    (hall : ∀ s ∈ strings, Sized s) : ∀ s ∈ strings', Sized s := by
  refine perform_forall hrun newString_sized newStringEmpty_sized newStringWithSize_sized
    (fun i fresh s _ _ _ => newStringOf_sized _ fresh) ?_ (fun s t hs hdid => hdid.sized hs) hall
  intro i s heq hget _
  subst heq
  exact copyString_sized (hcopies s hget)

/-- In all states of a run the loops that grow a string end and leave room, just when the run
copies no empty string. -/
theorem run_growthEnds {trace : List (List StringBuffer × StringStep)}
    {strings : List StringBuffer} (hrun : Run StringStep.perform [] trace strings) :
    ((∀ s ∈ strings, GrowthEnds s) ∧ ∀ x ∈ trace, ∀ s ∈ x.1, GrowthEnds s) ↔
      ∀ x ∈ trace, x.2.CopiesText x.1 := by
  refine hrun.forall_iff (I := fun strings => ∀ s ∈ strings, Sized s)
    (P := fun strings => ∀ s ∈ strings, GrowthEnds s) (fun s hs => absurd hs List.not_mem_nil)
    (fun strings step strings' hI hC hstep => StringStep.sized hstep hC hI)
    (fun strings hI s hs => (hI s hs).growthEnds) ?_
  intro strings step strings' _ hC hstep hall
  cases step with
  | copy i =>
      obtain ⟨s, hs, rfl⟩ := Option.map_eq_some_iff.1 hstep
      refine hC fun s' hs' htext => ?_
      obtain rfl : s = s' := Option.some.inj (hs.symm.trans hs')
      exact not_growthEnds_copy htext
        (hall _ (List.mem_append.2 (Or.inr (List.mem_singleton.2 rfl))))
  | _ => exact hC trivial

/-- A new string and its copy. -/
theorem oneCopy_run (text : List Char) :
    Run StringStep.perform []
      [([StringBuffer.newString text], .copy 0), ([], .newString text)]
      [StringBuffer.newString text, (StringBuffer.newString text).copyString] :=
  .step (.step .start rfl) rfl

theorem oneLetterCopy_growthEnds :
    (∀ s ∈ [StringBuffer.newString ['a'], (StringBuffer.newString ['a']).copyString],
        GrowthEnds s) ∧
      ∀ x ∈ ([([StringBuffer.newString ['a']], .copy 0), ([], .newString ['a'])] :
          List (List StringBuffer × StringStep)), ∀ s ∈ x.1, GrowthEnds s := by
  refine (run_growthEnds (oneCopy_run ['a'])).2 fun x hx => ?_
  rcases List.mem_cons.1 hx with rfl | hx
  · intro s hs
    cases hs
    exact List.cons_ne_nil 'a' []
  · obtain rfl := List.mem_singleton.1 hx
    trivial

/-- A copy of an empty string takes no letter: its buffer of size 0 is doubled for ever. -/
theorem emptyCopy_grows_forever :
    Run StringStep.perform []
        [([StringBuffer.newString []], .copy 0), ([], .newString [])]
        [StringBuffer.newString [], (StringBuffer.newString []).copyString] ∧
      (∀ fuel needed, growLoop fuel (StringBuffer.newString []).copyString.maxsize needed = none) ∧
      (StringBuffer.newString []).copyString.insert 0 ['a'] = none :=
  ⟨oneCopy_run [], fun fuel needed => growLoop_zero fuel needed, by decide⟩

/-! ## Keys in a run -/

/-- `NewString` is not given a string with a key and a null character in it. -/
def StringStep.KeepsKey (strings : List StringBuffer) : StringStep → Prop
  | .newStringOf i _ =>
      ∀ s, strings[i]? = some s → s.hashkey ≠ none → '\x00' ∉ s.text
  | _ => True

theorem StringStep.keyValid {step : StringStep} {strings strings' : List StringBuffer}
    (hrun : step.perform strings = some strings') (hkeeps : step.KeepsKey strings)
    (hall : ∀ s ∈ strings, KeyValid s) : ∀ s ∈ strings', KeyValid s := by
  refine perform_forall hrun (fun text k hk => (nomatch hk)) ?_ (fun text len k hk => (nomatch hk))
    ?_ (fun i s _ _ hs => hs) (fun s t hs hdid => hdid.keyValid hs) hall
  · intro k hk
    cases hk
    rfl
  · intro i fresh s heq hget hs
    subst heq
    exact newStringOf_keyValid hs (hkeeps s hget) fresh

/-- In a run the keys are those of the texts, and the hash depends on the text alone. -/
theorem run_keyValid {trace : List (List StringBuffer × StringStep)}
    {strings : List StringBuffer}
    (hrun : Run StringStep.perform [] trace strings)
    (hkeeps : ∀ x ∈ trace, x.2.KeepsKey x.1) :
    (∀ s ∈ strings, KeyValid s) ∧
      ∀ s ∈ strings, ∀ t ∈ strings, s.text = t.text → s.hash.1 = t.hash.1 := by
  have hall : ∀ s ∈ strings, KeyValid s :=
    (hrun.invariant (fun s hs => absurd hs List.not_mem_nil)
      (fun strings step strings' hI hC hstep => StringStep.keyValid hstep hC hI) hkeeps).1
  refine ⟨hall, fun s hs t ht htext => ?_⟩
  rw [hash_eq (hall s hs), hash_eq (hall t ht), htext]

/-- A string that is hashed, copied and written to. -/
theorem writtenCopy_keyValid :
    ∃ t strings, Run StringStep.perform [] t strings ∧ t.length = 4 ∧
      (∀ s ∈ strings, KeyValid s) ∧
        ∀ s ∈ strings, ∀ t ∈ strings, s.text = t.text → s.hash.1 = t.hash.1 := by
  have hrun : Run StringStep.perform [] _ _ :=
    .step (a := .call 1 (.append ['b'])) (.step (a := .copy 0) (.step (a := .call 0 .hash)
      (.step (a := .newString ['a']) .start rfl) rfl) rfl) rfl
  refine ⟨_, _, hrun, rfl, run_keyValid hrun fun x hx => ?_⟩
  simp only [List.mem_cons, List.not_mem_nil, or_false] at hx
  rcases hx with rfl | rfl | rfl | rfl
  all_goals trivial

/-- `NewString` of a hashed string with a null character in it keeps the key of a text that
it does not copy. -/
theorem nullText_staleKey :
    ∃ t strings, Run StringStep.perform [] t strings ∧
      ∃ s ∈ strings, ∃ u ∈ strings, s.hashkey = some (hashText "a\x00b".toList) ∧
        s.text = "a\x00c".toList ∧ u.text = s.text ∧ s.hash.1 ≠ hashText s.text ∧
        s.hash.1 ≠ u.hash.1 := by
  have hrun : Run StringStep.perform [] _ _ :=
    .step (a := .call 2 (.write ['\x00', 'c'])) (.step (a := .newString ['a'])
      (.step (a := .newStringOf 0 fun _ => 'c') (.step (a := .call 0 .hash)
        (.step (a := .call 0 (.write ['\x00', 'b'])) (.step (a := .newString ['a'])
          .start rfl) rfl) rfl) rfl) rfl) rfl
  refine ⟨_, _, hrun, _, List.mem_cons_of_mem _ List.mem_cons_self, _,
    List.mem_cons_of_mem _ (List.mem_cons_of_mem _ List.mem_cons_self), ?_⟩
  decide

end Swig4Ada.Doh

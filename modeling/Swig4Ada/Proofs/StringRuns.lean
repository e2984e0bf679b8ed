import Swig4Ada.Proofs.Position
import Swig4Ada.Proofs.ReplaceEnds
import Swig4Ada.Proofs.StringBuffer

/-!
# The representation of a string over a run

The position is in the text, the buffer has room for the text and for the null character
behind it, and the null character is there. Each function keeps this, except in a few states,
where it writes outside the buffer, does not end or leaves a position before the text.
-/

namespace Swig4Ada.Doh.StringBuffer

/-- The representation invariant. -/
structure Sound (s : StringBuffer) : Prop where
  placed : s.string.Placed
  room : s.text.length < s.allocated
  terminated : s.terminated = true

/-- With what it rests on: no text is longer than `maxsize`, also that of a copy, and no buffer
is smaller. -/
structure Held (s : StringBuffer) : Prop extends Sound s where
  text_le : s.text.length ≤ s.maxsize
  maxsize_le : s.maxsize ≤ s.allocated

/-! ## Where a call keeps it -/

/-- The positions of a slice, where `DOH_BEGIN` and `DOH_END` stand for the ends. -/
def SliceInside (s : StringBuffer) (sindex eindex : Int) : Prop :=
  let eindex := if eindex = dohEnd then s.string.len else eindex
  let sindex := if sindex = dohBegin then 0 else sindex
  0 ≤ sindex ∧ sindex ≤ eindex ∧ eindex ≤ s.string.len

/-- The position is not among the characters that a text loses at its end, or it is behind as
many; and the second pass over a text that gets longer finds what was counted. -/
def ReplaceSafe (s : StringBuffer) (token rep : List Char) (flags : ReplaceFlags) : Prop :=
  let base := cText s.text
  let token := cText token
  let rep := cText rep
  let positions := wantedPositions flags.mode token base flags.noquote flags.first
  let removed : Int := positions.length * ((token.length : Int) - rep.length)
  token ≠ [] →
    (rep.length < token.length → s.string.sp < s.string.len - removed ∨ removed ≤ s.string.sp) ∧
      MatchesEnough flags.mode token base rep flags.noquote flags.first

/-! ## What a call leaves -/

section Calls

variable {s t : StringBuffer}

theorem Did.held (h : Did s t) (hs : Held s) (hplaced : t.string.Placed)
    (hterminated : t.terminated = true)
    (hle : t.maxsize = s.maxsize → t.text.length ≤ s.maxsize) : Held t := by
  obtain ⟨⟨-, hroom, -⟩, htext, hmax⟩ := hs
  cases h with
  | looked text size _ =>
      obtain ⟨h₁, h₂⟩ := size
      exact ⟨⟨hplaced, by rw [text]; omega, hterminated⟩, by rw [text]; omega, by omega⟩
  | wrote _ room size =>
      rcases size with ⟨h₁, h₂⟩ | ⟨h₁, -⟩
      · exact ⟨⟨hplaced, room, hterminated⟩, by rw [h₁]; exact hle h₁, by omega⟩
      · exact ⟨⟨hplaced, room, hterminated⟩, by omega, by omega⟩

/-- A call that leaves a text no longer and writes behind it. -/
theorem held_fits {u : DohString} (hs : Held s) (hplaced : u.Placed)
    (hle : u.text.length ≤ s.text.length) :
    ∃ t, { s with string := u, hashkey := none, terminated := true }.fits = some t ∧ Held t := by
  have hroom : u.text.length < s.allocated := by
    have := hs.room
    omega
  have hmax := hs.text_le
  exact ⟨_, fits_eq_some.2 ⟨rfl, hroom⟩, ⟨hplaced, hroom, rfl⟩, by dsimp only [text]; omega,
    hs.maxsize_le⟩

theorem data_held (hs : Held s) : ∃ t, s.data = some t ∧ Held t :=
  ⟨_, fits_eq_some.2 ⟨rfl, hs.room⟩, ⟨hs.placed, hs.room, rfl⟩, hs.text_le, hs.maxsize_le⟩

theorem hash_held (hs : Held s) : Held s.hash.2 := by
  unfold hash
  cases s.hashkey with
  | some h => exact hs
  | none => exact ⟨⟨hs.placed, hs.room, hs.terminated⟩, hs.text_le, hs.maxsize_le⟩

/-- A call that only moves the position. -/
theorem Held.moved (hs : Held s) {u : DohString} (htext : u.text = s.text) (hplaced : u.Placed) :
    Held { s with string := u } := by
  have hroom : u.text.length < s.allocated := by rw [htext]; exact hs.room
  have hle : u.text.length ≤ s.maxsize := by rw [htext]; exact hs.text_le
  exact ⟨⟨hplaced, hroom, hs.terminated⟩, hle, hs.maxsize_le⟩

theorem getc_held (hs : Held s) : ∃ r, s.getc = some r ∧ Held r.2 := by
  obtain ⟨n, hn, hle⟩ := hs.placed.exists_nat
  obtain ⟨⟨c, u⟩, hu⟩ : ∃ r, Doh.getc s.string = some r := by
    unfold Doh.getc
    by_cases hend : s.string.len ≤ s.string.sp
    · rw [if_pos hend]
      exact ⟨_, rfl⟩
    · have hlt : s.string.sp.toNat < s.string.text.length := by
        unfold DohString.len at hend
        omega
      rw [if_neg hend, if_neg (by omega), List.getElem?_eq_getElem hlt]
      exact ⟨_, rfl⟩
  refine ⟨_, by rw [getc, hu]; rfl, hs.moved (getc_text hu) (getc_keeps hs.placed hu).1⟩

theorem ungetc_held (hs : Held s) (ch : Option Char) : Held (s.ungetc ch) := by
  have hplaced := hs.placed
  unfold ungetc Doh.ungetc
  cases ch with
  | none => exact hs
  | some c =>
      by_cases hpos : s.string.sp ≤ 0
      · simp only [if_pos hpos]
        exact hs
      · simp only [if_neg hpos]
        refine hs.moved rfl ⟨by dsimp only; omega, ?_⟩
        have hle := hplaced.2
        unfold DohString.len at hle ⊢
        dsimp only
        omega

theorem read_held (hs : Held s) (len : Nat) : ∃ r, s.read len = some r ∧ Held r.2 := by
  obtain ⟨hnonneg, hle⟩ := hs.placed
  unfold read
  dsimp only
  generalize hreal : (if s.string.len < s.string.sp + len then s.string.len - s.string.sp
    else (len : Int)) = reallen
  have hin : s.string.sp + reallen ≤ s.string.len := by
    rw [← hreal]
    split <;> omega
  by_cases hpos : 0 < reallen
  · rw [if_pos hpos, if_neg (by omega)]
    exact ⟨_, rfl, hs.moved rfl ⟨by dsimp only; omega, hin⟩⟩
  · rw [if_neg hpos]
    exact ⟨_, rfl, hs⟩

theorem seekForward_ends {text : List Char} {turns : Nat} {n : Nat} {line : Int}
    (h : n + turns ≤ text.length) : (seekForward text turns n line).isSome := by
  induction turns generalizing n line with
  | zero => rfl
  | succ turns ih =>
      unfold seekForward
      rw [newlineAt, if_pos ⟨by omega, by omega⟩]
      exact ih (n := n + 1) (by omega)

theorem seekBackward_ends {text : List Char} {turns : Nat} {n : Nat} {line : Int}
    (hturns : turns ≤ n) (hn : n ≤ text.length) : (seekBackward text turns n line).isSome := by
  induction turns generalizing n line with
  | zero => rfl
  | succ turns ih =>
      obtain ⟨m, rfl⟩ : ∃ m, n = m + 1 := ⟨n - 1, by omega⟩
      unfold seekBackward
      rw [show ((m + 1 : Nat) : Int) - 1 = m by omega, newlineAt, if_pos ⟨by omega, by omega⟩]
      exact ih (by omega) (by omega)

theorem seek_held (hs : Held s) {offset : Int} {whence : Whence}
    (h : seekTarget s.string offset whence ≤ s.string.len) :
    ∃ t, s.seek offset whence = some t ∧ Held t := by
  obtain ⟨n, hn, hle⟩ := hs.placed.exists_nat
  have hnonneg := @seekTarget_nonneg s.string offset whence
  unfold seek Doh.seek
  generalize seekTarget s.string offset whence = nsp at h hnonneg ⊢
  obtain ⟨m, rfl⟩ : ∃ m : Nat, nsp = m := ⟨nsp.toNat, by omega⟩
  unfold DohString.len at h
  dsimp only
  rw [hn]
  by_cases hfwd : (n : Int) < m
  · rw [if_pos hfwd]
    obtain ⟨⟨sp, line⟩, hr⟩ := Option.isSome_iff_exists.1
      (@seekForward_ends s.string.text ((m : Int) - n).toNat n s.string.line (by omega))
    have hsp := (seekForward_line hr).1
    rw [hr]
    refine ⟨_, rfl, hs.moved rfl ⟨?_, ?_⟩⟩
    · dsimp only
      omega
    · unfold DohString.len
      dsimp only
      omega
  · rw [if_neg hfwd]
    obtain ⟨⟨sp, line⟩, hr⟩ := Option.isSome_iff_exists.1
      (@seekBackward_ends s.string.text ((n : Int) - m).toNat n s.string.line (by omega) hle)
    have hsp := (seekBackward_line (by omega) hr).1
    rw [hr]
    refine ⟨_, rfl, hs.moved rfl ⟨?_, ?_⟩⟩
    · dsimp only
      omega
    · unfold DohString.len
      dsimp only
      omega

/-- Behind the text of an empty string the position leaves the buffer. -/
theorem seek_fails (hs : Held s) {offset : Int} {whence : Whence}
    (h : ¬ seekTarget s.string offset whence ≤ s.string.len) : s.seek offset whence = none := by
  obtain ⟨n, hn, hle⟩ := hs.placed.exists_nat
  unfold seek Doh.seek
  unfold DohString.len at h
  generalize seekTarget s.string offset whence = nsp at h ⊢
  dsimp only
  rw [hn, if_pos (by omega), Option.map_map, Option.map_eq_none_iff]
  cases hr : seekForward s.string.text (nsp - n).toNat n s.string.line with
  | none => rfl
  | some r =>
      obtain ⟨hsp, hlen, -⟩ := seekForward_line (show _ = some (r.1, r.2) from hr)
      have := hlen (by omega)
      omega

/-! ## Calls that write -/

theorem putc_some (hs : Held s) (ch : Char) : ∃ u, Doh.putc s.string ch = some u ∧ u.Placed ∧
    u.text.length = s.text.length + if s.string.len ≤ s.string.sp then 1 else 0 := by
  obtain ⟨n, hn, hle⟩ := hs.placed.exists_nat
  obtain ⟨u, hu, hlen⟩ : ∃ u, Doh.putc s.string ch = some u ∧
      u.text.length = s.text.length + if s.string.len ≤ s.string.sp then 1 else 0 := by
    unfold Doh.putc DohString.len
    by_cases hend : s.string.sp = s.string.text.length
    · rw [if_pos hend, if_pos (show (s.string.text.length : Int) ≤ s.string.sp by omega)]
      exact ⟨_, rfl, List.length_append⟩
    · rw [if_neg hend, if_pos ⟨by omega, by omega⟩,
        if_neg (show ¬ (s.string.text.length : Int) ≤ s.string.sp by omega)]
      exact ⟨_, rfl, List.length_set⟩
  exact ⟨u, hu, (putc_keeps hs.placed hu).1, hlen⟩

theorem putc_held (hs : Held s) {ch : Char}
    (h : s.string.len ≤ s.string.sp → 0 < s.maxsize ∧ (s.maxsize = 1 → s.text = [])) :
    ∃ t, s.putc ch = some t ∧ Held t := by
  obtain ⟨u, hu, hplaced, hlen⟩ := putc_some hs ch
  obtain ⟨⟨-, hroom, hterminated⟩, hle, hmax⟩ := hs
  unfold putc
  rw [hu]
  simp only [Option.bind_some]
  by_cases hend : s.string.len ≤ s.string.sp
  · rw [if_pos hend] at hlen
    obtain ⟨hpos, hone⟩ := h hend
    have hempty : s.maxsize = 1 → s.text.length = 0 := fun h1 => by rw [hone h1]; rfl
    by_cases hfull : s.maxsize < s.text.length + 2
    · simp only [hend, hfull, decide_true, and_self, if_true, Bool.or_true]
      have hfit : u.text.length < 2 * s.maxsize := by omega
      exact ⟨_, fits_eq_some.2 ⟨rfl, hfit⟩, ⟨hplaced, hfit, rfl⟩, hfit.le, le_refl _⟩
    · simp only [hend, hfull, and_false, if_false, decide_true, Bool.or_true]
      have hfit : u.text.length < s.allocated := by omega
      have hle' : u.text.length ≤ s.maxsize := by omega
      exact ⟨_, fits_eq_some.2 ⟨rfl, hfit⟩, ⟨hplaced, hfit, rfl⟩, hle', hmax⟩
  · rw [if_neg hend] at hlen
    simp only [hend, decide_false, Bool.false_eq_true, false_and, if_false, Bool.or_false]
    have hfit : u.text.length < s.allocated := by omega
    have hle' : u.text.length ≤ s.maxsize := by omega
    exact ⟨_, fits_eq_some.2 ⟨rfl, hfit⟩, ⟨hplaced, hfit, hterminated⟩, hle', hmax⟩

/-- Twice the size does not hold one letter more. -/
theorem putc_fails (hs : Held s) {ch : Char}
    (h : ¬ (s.string.len ≤ s.string.sp → 0 < s.maxsize ∧ (s.maxsize = 1 → s.text = []))) :
    s.putc ch = none := by
  obtain ⟨u, hu, -, hlen⟩ := putc_some hs ch
  obtain ⟨⟨-, hroom, -⟩, hle, hmax⟩ := hs
  obtain ⟨hend, hsmall⟩ := Classical.not_imp.1 h
  rw [if_pos hend] at hlen
  have hfew : 2 * s.maxsize ≤ u.text.length := by
    by_contra hmore
    refine hsmall ⟨by omega, fun hone => List.length_eq_zero_iff.1 ?_⟩
    omega
  unfold putc
  rw [hu]
  simp only [Option.bind_some, hend, show s.maxsize < s.text.length + 2 by omega, decide_true,
    and_self, if_true, Bool.or_true]
  exact if_neg (Nat.not_lt.2 hfew)

theorem write_held (hs : Held s) (buffer : List Char) :
    ∃ t, s.write buffer = some t ∧ Held t := by
  obtain ⟨n, hn, hin⟩ := hs.placed.exists_nat
  obtain ⟨⟨hplaced, hroom, -⟩, hle, hmax⟩ := hs
  have hsp : (if s.string.len < s.string.sp then s.string.len else s.string.sp) = n := by
    rw [if_neg (by unfold DohString.len; omega), hn]
  have hu : Doh.write s.string buffer =
      some { s.string with text := writeAt s.string.text n buffer, sp := n + buffer.length } := by
    unfold Doh.write
    simp only [hsp]
    rw [if_neg (by omega), Int.toNat_natCast]
  have hplaced' := (write_offset hplaced hu).1
  have hlen : (writeAt s.string.text n buffer).length =
      n + buffer.length + (s.text.length - (n + buffer.length)) := by
    unfold writeAt
    rw [List.length_append, List.length_append, List.length_take, List.length_drop,
      Nat.min_eq_left hin]
    rfl
  unfold write
  rw [hu]
  simp only [hsp, Option.bind_some]
  rw [show ((n : Int) + buffer.length + 1).toNat = n + buffer.length + 1 by omega,
    Nat.add_sub_cancel]
  by_cases hfull : s.maxsize < n + buffer.length + 1
  · rw [if_pos hfull]
    have htake : (writeAt s.string.text n buffer).take (n + buffer.length) =
        writeAt s.string.text n buffer := List.take_of_length_le (by omega)
    have hfit : (writeAt s.string.text n buffer).length < n + buffer.length + 1 := by omega
    rw [htake]
    exact ⟨_, fits_eq_some.2 ⟨rfl, hfit⟩, ⟨hplaced', hfit, rfl⟩, hfit.le, le_refl _⟩
  · rw [if_neg hfull]
    have hfit : (writeAt s.string.text n buffer).length < s.allocated := by omega
    have hle' : (writeAt s.string.text n buffer).length ≤ s.maxsize := by omega
    exact ⟨_, fits_eq_some.2 ⟨rfl, hfit⟩, ⟨hplaced', hfit, rfl⟩, hle', hmax⟩

theorem append_held (hs : Held s) (data : List Char) : ∃ t, s.append data = some t ∧ Held t := by
  obtain ⟨u, hu, hlen⟩ : ∃ u, Doh.append s.string data = some u ∧
      u.text.length = s.text.length + data.length := by
    obtain ⟨n, hn, hin⟩ := hs.placed.exists_nat
    unfold Doh.append DohString.len
    by_cases hend : (s.string.text.length : Int) ≤ s.string.sp
    · rw [if_pos hend, if_neg (by omega)]
      exact ⟨_, rfl, List.length_append⟩
    · rw [if_neg hend]
      exact ⟨_, rfl, List.length_append⟩
  have hplaced := (append_keeps hs.placed hu).1
  obtain ⟨⟨-, hroom, -⟩, hle, hmax⟩ := hs
  unfold append
  rw [hu]
  simp only [Option.bind_some]
  by_cases hfull : s.maxsize ≤ s.text.length + data.length + 1 + 1
  · rw [if_pos hfull]
    generalize hsize : (if 2 * s.maxsize ≤ s.text.length + data.length + 1 + 1 then
      s.text.length + data.length + 1 + 1 else 2 * s.maxsize) = size
    have hfit : u.text.length < size := by
      rw [← hsize]
      split <;> omega
    exact ⟨_, fits_eq_some.2 ⟨rfl, hfit⟩, ⟨hplaced, hfit, rfl⟩, hfit.le, le_refl _⟩
  · rw [if_neg hfull]
    have hfit : u.text.length < s.allocated := by omega
    have hle' : u.text.length ≤ s.maxsize := by omega
    exact ⟨_, fits_eq_some.2 ⟨rfl, hfit⟩, ⟨hplaced, hfit, rfl⟩, hle', hmax⟩

theorem insert_held (hs : Held s) {pos : Int} {data : List Char}
    (h : pos ≠ dohEnd → 0 < s.maxsize) : ∃ t, s.insert pos data = some t ∧ Held t := by
  unfold insert
  by_cases hend : pos = dohEnd
  · rw [if_pos hend]
    exact append_held hs data
  · obtain ⟨u, hu, hlen⟩ := @insert_length s.string pos hend data
    have hlen : u.text.length = s.text.length + data.length := hlen
    have hplaced := (insert_keeps hs.placed hu).1
    obtain ⟨⟨-, hroom, -⟩, hle, hmax⟩ := hs
    obtain ⟨size, hgrow⟩ := @growLoop_growFuel _ (s.text.length + data.length) (h hend)
    have hsize := (growLoop_room hgrow).1
    rw [if_neg hend]
    simp only [hgrow, hu, Option.bind_some]
    by_cases hfull : s.maxsize ≤ s.text.length + data.length
    · rw [if_pos hfull]
      have hfit : u.text.length < size := by omega
      exact ⟨_, fits_eq_some.2 ⟨rfl, hfit⟩, ⟨hplaced, hfit, rfl⟩, hfit.le, le_refl _⟩
    · rw [if_neg hfull]
      have hfit : u.text.length < s.allocated := by omega
      have hle' : u.text.length ≤ s.maxsize := by omega
      exact ⟨_, fits_eq_some.2 ⟨rfl, hfit⟩, ⟨hplaced, hfit, rfl⟩, hle', hmax⟩

theorem insert_fails {pos : Int} {data : List Char} (h : ¬ (pos ≠ dohEnd → 0 < s.maxsize)) :
    s.insert pos data = none := by
  obtain ⟨hend, hzero⟩ := Classical.not_imp.1 h
  have hmax : s.maxsize = 0 := Nat.eq_zero_of_not_pos hzero
  unfold insert
  rw [if_neg hend, hmax]
  simp only [growLoop_zero]

theorem clear_held (hs : Held s) : ∃ t, s.clear = some t ∧ Held t :=
  held_fits hs ⟨le_refl _, le_refl _⟩ (Nat.zero_le _)

theorem chopLoop_length (l : List Char) (sp line : Int) :
    (chopLoop l sp line).1.length ≤ l.length := by
  induction l generalizing sp line with
  | nil => exact le_refl _
  | cons c rest ih =>
      rw [chopLoop]
      split
      · split
        · exact (ih _ _).trans (Nat.le_succ _)
        · exact (ih _ _).trans (Nat.le_succ _)
      · exact le_refl _

theorem chop_held (hs : Held s) : ∃ t, s.chop = some t ∧ Held t := by
  refine held_fits hs (chop_keeps hs.placed).1 ?_
  have hle := chopLoop_length s.text.reverse s.string.sp s.string.line
  rw [List.length_reverse] at hle
  show (chopLoop s.text.reverse s.string.sp s.string.line).1.reverse.length ≤ _
  rw [List.length_reverse]
  exact hle

theorem delitem_held (hs : Held s) {pos : Int}
    (h : s.text = [] ∨ pos = dohEnd ∨ pos = dohBegin ∨ 0 ≤ pos ∧ pos < s.string.len) :
    ∃ t, s.delitem pos = some t ∧ Held t := by
  unfold delitem
  by_cases hempty : s.text = []
  · rw [if_pos hempty]
    exact ⟨_, rfl, ⟨hs.placed, hs.room, hs.terminated⟩, hs.text_le, hs.maxsize_le⟩
  · have hpos := List.length_pos_of_ne_nil hempty
    have hlen : s.string.len = s.text.length := rfl
    rw [if_neg hempty]
    obtain ⟨u, hu, hle⟩ : ∃ u, Doh.delitem s.string pos = some u ∧
        u.text.length ≤ s.text.length := by
      unfold Doh.delitem
      dsimp only
      generalize hp : (if (if pos = dohEnd then s.string.len - 1 else pos) = dohBegin then 0
        else if pos = dohEnd then s.string.len - 1 else pos) = p
      have hin : 0 ≤ p ∧ p < s.string.len := by
        rw [← hp]
        unfold dohEnd dohBegin at *
        rcases h.resolve_left hempty with h | h | ⟨h₁, h₂⟩
        · simp only [if_pos h]
          split <;> omega
        · have hne : pos ≠ -2 := by omega
          simp only [if_neg hne, if_pos h]
          omega
        · have hne : pos ≠ -2 := by omega
          have hne' : pos ≠ -1 := by omega
          simp only [if_neg hne, if_neg hne']
          omega
      rw [if_neg (by omega), if_neg (by omega)]
      by_cases hlt : p < s.string.sp
      · rw [if_pos hlt]
        exact ⟨_, rfl, List.length_eraseIdx_le _ _⟩
      · rw [if_neg hlt]
        exact ⟨_, rfl, List.length_eraseIdx_le _ _⟩
    rw [hu]
    exact held_fits hs (delitem_keeps hs.placed hu).1 hle

theorem delitem_fails {pos : Int}
    (h : ¬ (s.text = [] ∨ pos = dohEnd ∨ pos = dohBegin ∨ 0 ≤ pos ∧ pos < s.string.len)) :
    s.delitem pos = none := by
  push Not at h
  obtain ⟨hempty, hend, hbegin, hout⟩ := h
  have hpos := List.length_pos_of_ne_nil hempty
  have hlen : s.string.len = s.text.length := rfl
  unfold delitem Doh.delitem
  rw [if_neg hempty]
  simp only [if_neg hend, if_neg hbegin]
  rw [if_neg (by omega), if_pos (by omega)]
  rfl

theorem delslice_held (hs : Held s) {sindex eindex : Int}
    (h : s.text = [] ∨ SliceInside s sindex eindex) :
    ∃ t, s.delslice sindex eindex = some t ∧ Held t := by
  unfold delslice
  by_cases hempty : s.text = []
  · rw [if_pos hempty]
    exact ⟨_, rfl, hs⟩
  · have hpos := List.length_pos_of_ne_nil hempty
    have hlen : s.string.len = s.text.length := rfl
    have hinside := h.resolve_left hempty
    rw [if_neg hempty]
    obtain ⟨u, hu, hle⟩ : ∃ u, Doh.delslice s.string sindex eindex = some u ∧
        u.text.length ≤ s.text.length := by
      unfold SliceInside at hinside
      unfold Doh.delslice
      dsimp only at hinside ⊢
      generalize (if eindex = dohEnd then s.string.len else eindex) = stop at hinside ⊢
      generalize (if sindex = dohBegin then 0 else sindex) = start at hinside ⊢
      obtain ⟨h₁, h₂, h₃⟩ := hinside
      have hcut : (s.string.text.take start.toNat ++ s.string.text.drop stop.toNat).length ≤
          s.text.length := by
        rw [List.length_append, List.length_take, List.length_drop]
        show _ ≤ s.string.text.length
        omega
      rw [if_neg (by omega), if_neg (by omega)]
      by_cases hlt : start < s.string.sp
      · rw [if_pos hlt]
        exact ⟨_, rfl, hcut⟩
      · rw [if_neg hlt]
        exact ⟨_, rfl, hcut⟩
    rw [hu]
    exact held_fits hs (delslice_keeps hs.placed hu).1 hle

theorem delslice_fails {sindex eindex : Int}
    (h : ¬ (s.text = [] ∨ SliceInside s sindex eindex)) : s.delslice sindex eindex = none := by
  rw [not_or] at h
  obtain ⟨hempty, hout⟩ := h
  have hpos := List.length_pos_of_ne_nil hempty
  have hlen : s.string.len = s.text.length := rfl
  unfold SliceInside at hout
  unfold delslice Doh.delslice
  rw [if_neg hempty]
  dsimp only at hout ⊢
  rw [if_neg (by omega), if_pos (by omega)]
  rfl

end Calls

/-! ## Replacing -/

section Replacing

variable {s t : StringBuffer} {token rep text : List Char} {flags : ReplaceFlags}

/-- How much longer the text is, and that a replacement found the token. -/
theorem stringReplace_made (htoken : token ≠ []) {made : List Char} {n : Nat}
    (h : stringReplace text token rep flags = some (made, n)) (hn : n ≠ 0) :
    (made.length : Int) = text.length + n * ((rep.length : Int) - token.length) ∧ text ≠ [] ∧
      (rep.length < token.length →
        n = (wantedPositions flags.mode token text flags.noquote flags.first).length) := by
  rcases stringReplace_spliced htoken h with ⟨-, -, hzero⟩ | ⟨c, ps, -, hps, hcount, hmade, hfewer⟩
  · exact absurd hzero hn
  · have hlen := @splice_length_eq token rep _ _ _ hps.1
    have hin : c + token.length ≤ text.length := hps.1.2.1
    have hpos := List.length_pos_of_ne_nil htoken
    refine ⟨?_, List.ne_nil_of_length_pos (by omega), hfewer⟩
    rw [hmade, hcount, hlen]
    omega

theorem wanted_nil (htoken : token ≠ []) {made : List Char}
    (h : stringReplace text token rep flags = some (made, 0)) :
    wantedPositions flags.mode token text flags.noquote flags.first = [] := by
  rcases stringReplace_spliced htoken h with ⟨hnil, -⟩ | ⟨c, ps, -, -, hcount, -⟩
  · exact hnil
  · exact absurd hcount (by simp)

/-- A replacement that replaces nothing is safe. -/
theorem replaceSafe_nothing (hs : Held s) {made : List Char}
    (h : cText token ≠ [] → stringReplace (cText s.text) (cText token) (cText rep) flags =
      some (made, 0)) : ReplaceSafe s token rep flags := by
  intro htoken
  have hnil := wanted_nil htoken (h htoken)
  refine ⟨fun _ => Or.inr ?_, (stringReplace_isSome _ _ _ _ htoken).1 (by rw [h htoken]; rfl)⟩
  rw [hnil]
  simpa using hs.placed.1

/-- What is kept of the text when it gets shorter holds the position. -/
theorem replacedPosition_placed (hs : s.string.Placed) {made : List Char} {n : Nat}
    (hlen : (made.length : Int) = s.string.len + n * ((rep.length : Int) - token.length)) :
    (0 ≤ replacedPosition s.string token rep n ∧
        replacedPosition s.string token rep n ≤ made.length) ↔
      (rep.length < token.length →
        s.string.sp < s.string.len - n * ((token.length : Int) - rep.length) ∨
          n * ((token.length : Int) - rep.length) ≤ s.string.sp) := by
  obtain ⟨hnonneg, hle⟩ := hs
  have hneg : (n : Int) * ((token.length : Int) - rep.length) =
      - (n * ((rep.length : Int) - token.length)) := by
    rw [← Int.mul_neg, Int.neg_sub]
  rw [hneg]
  unfold replacedPosition
  dsimp only
  have hgrows : token.length ≤ rep.length → 0 ≤ (n : Int) * ((rep.length : Int) - token.length) :=
    fun h => Int.mul_nonneg (by omega) (by omega)
  have hshrinks : rep.length ≤ token.length →
      (n : Int) * ((rep.length : Int) - token.length) ≤ 0 := fun h =>
    Int.mul_nonpos_of_nonneg_of_nonpos (by omega) (by omega)
  generalize (n : Int) * ((rep.length : Int) - token.length) = expand at *
  by_cases hshort : rep.length ≤ token.length
  · have hexpand := hshrinks hshort
    rw [if_pos hshort]
    by_cases hmoved : s.string.len + expand ≤ s.string.sp
    · rw [if_pos hmoved]
      constructor
      · intro h hlt
        omega
      · intro h
        by_cases hlt : rep.length < token.length
        · have := h hlt
          omega
        · have := hgrows (by omega)
          omega
    · rw [if_neg hmoved]
      constructor
      · intro h hlt
        omega
      · intro h
        omega
  · have hexpand := hgrows (by omega)
    rw [if_neg hshort]
    refine iff_of_true ?_ fun hlt => absurd hlt (by omega)
    split <;> omega

/-- The buffer of a replacement holds the text, and the loop that doubles its size ends. -/
theorem replaced_fits (hs : Held s) {u : DohString} {n : Nat} (hne : s.text ≠ [])
    (hlen : (u.text.length : Int) = s.string.len + n * ((rep.length : Int) - token.length)) :
    ∃ t, (if rep.length ≤ token.length then
          { s with string := u, hashkey := none, terminated := true : StringBuffer }.fits
        else
          match growLoop (growFuel (s.text.length + n * (rep.length - token.length))) s.maxsize
              (s.text.length + n * (rep.length - token.length)) with
          | none => none
          | some newsize =>
              { s.realloc newsize with string := u, hashkey := none, terminated := true }.fits) =
        some t ∧ t.string = u ∧ (t.string.Placed → Held t) := by
  obtain ⟨⟨-, hroom, -⟩, hle, hmax⟩ := hs
  have hpos := List.length_pos_of_ne_nil hne
  have hold : s.string.len = s.text.length := rfl
  by_cases hshort : rep.length ≤ token.length
  · have hshrinks : (n : Int) * ((rep.length : Int) - token.length) ≤ 0 :=
      Int.mul_nonpos_of_nonneg_of_nonpos (by omega) (by omega)
    have hfit : u.text.length < s.allocated := by omega
    have hle' : u.text.length ≤ s.maxsize := by omega
    rw [if_pos hshort]
    exact ⟨_, fits_eq_some.2 ⟨rfl, hfit⟩, rfl, fun hplaced => ⟨⟨hplaced, hfit, rfl⟩, hle', hmax⟩⟩
  · obtain ⟨size, hgrow⟩ := @growLoop_growFuel _
      (s.text.length + n * (rep.length - token.length)) (Nat.lt_of_lt_of_le hpos hle)
    have hsize := (growLoop_room hgrow).1
    have hfit : u.text.length < size := by
      have hcast : ((n * (rep.length - token.length) : Nat) : Int) =
          n * ((rep.length : Int) - token.length) := by
        rw [Nat.cast_mul, Nat.cast_sub (by omega)]
      omega
    rw [if_neg hshort, hgrow]
    exact ⟨_, fits_eq_some.2 ⟨rfl, hfit⟩, rfl, fun hplaced =>
      ⟨⟨hplaced, hfit, rfl⟩, hfit.le, le_refl _⟩⟩

/-- A replacement that is safe keeps the representation; the others do not end or leave the
position before the text. -/
theorem replace_outcome (hs : Held s) (token rep : List Char) (flags : ReplaceFlags) :
    (ReplaceSafe s token rep flags ∧ ∃ t, s.replace token rep flags = some t ∧ Held t) ∨
      (¬ ReplaceSafe s token rep flags ∧ ∀ t, s.replace token rep flags = some t → ¬ Sound t) := by
  have hended : s.Ended := Or.inl hs.terminated
  have hsame : Held { s with hashkey := none } :=
    ⟨⟨hs.placed, hs.room, hs.terminated⟩, hs.text_le, hs.maxsize_le⟩
  unfold replace
  dsimp only
  by_cases htoken : cText token = []
  · rw [if_pos htoken]
    exact Or.inl ⟨fun h => absurd htoken h, s, rfl, hs⟩
  rw [if_neg htoken, if_neg (not_not_intro hended)]
  by_cases hnone : matchFrom flags.mode (cText token) (cText s.text) 0 = none
  · rw [if_pos hnone]
    refine Or.inl ⟨@replaceSafe_nothing s token rep flags hs (cText s.text) fun _ => ?_, s, rfl, hs⟩
    rw [stringReplace, replaceSimple, if_neg htoken, hnone]
  rw [if_neg hnone]
  cases hr : stringReplace (cText s.text) (cText token) (cText rep) flags with
  | none =>
      refine Or.inr ⟨fun hsafe => ?_, by intro t h; cases h⟩
      have hsome := (stringReplace_isSome _ _ _ _ htoken).2 (hsafe htoken).2
      rw [hr] at hsome
      cases hsome
  | some r =>
      obtain ⟨made, n⟩ := r
      dsimp only
      by_cases hn : n = 0
      · subst hn
        rw [if_pos rfl]
        exact Or.inl ⟨replaceSafe_nothing hs fun _ => hr, _, rfl, hsame⟩
      rw [if_neg hn]
      obtain ⟨hmade, hne, hfewer⟩ := stringReplace_made htoken hr hn
      have henough : MatchesEnough flags.mode (cText token) (cText s.text) (cText rep)
          flags.noquote flags.first := (stringReplace_isSome _ _ _ _ htoken).1 (by rw [hr]; rfl)
      have hbase := cText_length_le s.text
      have hlen : ((made ++ s.text.drop (cText s.text).length).length : Int) = s.string.len +
          n * (((cText rep).length : Int) - (cText token).length) := by
        rw [List.length_append, List.length_drop]
        unfold DohString.len
        show _ = (s.text.length : Int) + _
        push_cast
        omega
      have hposition := replacedPosition_placed hs.placed hlen
      have hsafe : ReplaceSafe s token rep flags ↔
          ((cText rep).length < (cText token).length →
            s.string.sp < s.string.len - n * (((cText token).length : Int) - (cText rep).length) ∨
              n * (((cText token).length : Int) - (cText rep).length) ≤ s.string.sp) := by
        constructor
        · intro h hlt
          rw [hfewer hlt]
          exact (h htoken).1 hlt
        · intro h _
          refine ⟨fun hlt => ?_, henough⟩
          have := h hlt
          rw [hfewer hlt] at this
          exact this
      rw [hsafe, ← hposition]
      obtain ⟨t, ht, hstring, hheld⟩ := @replaced_fits s (cText token) (cText rep) hs
        { s.string with
          text := made ++ s.text.drop (cText s.text).length
          sp := replacedPosition s.string (cText token) (cText rep) n }
        n (fun hnil => hne (by rw [hnil]; rfl)) hlen
      have hdone : ∀ result : Option StringBuffer, result = some t →
          (t.string.Placed ∧ ∃ t, result = some t ∧ Held t) ∨
            (¬ t.string.Placed ∧ ∀ t, result = some t → ¬ Sound t) := by
        rintro result rfl
        by_cases hplaced : t.string.Placed
        · exact Or.inl ⟨hplaced, t, rfl, hheld hplaced⟩
        · refine Or.inr ⟨hplaced, fun t' h hsound => hplaced ?_⟩
          obtain rfl := Option.some.inj h
          exact hsound.placed
      rw [hstring] at hdone
      exact hdone _ ht

end Replacing

end Swig4Ada.Doh.StringBuffer

namespace Swig4Ada.Doh

open Lib StringBuffer

variable {s : StringBuffer} {strings strings' : List StringBuffer}

/-! ## Calls -/

/-- The states in which a call keeps the representation. Twice the size holds one letter more
unless the size is 0, or 1 and all used; and doubling 0 has no end. -/
def StringCall.Safe (s : StringBuffer) : StringCall → Prop
  | .seek offset whence => seekTarget s.string offset whence ≤ s.string.len
  | .putc _ => s.string.len ≤ s.string.sp → 0 < s.maxsize ∧ (s.maxsize = 1 → s.text = [])
  | .insert pos _ => pos ≠ dohEnd → 0 < s.maxsize
  | .delitem pos =>
      s.text = [] ∨ pos = dohEnd ∨ pos = dohBegin ∨ 0 ≤ pos ∧ pos < s.string.len
  | .delslice sindex eindex => s.text = [] ∨ SliceInside s sindex eindex
  | .replace token rep flags => ReplaceSafe s token rep flags
  | _ => True

theorem StringCall.outcome (hs : Held s) (c : StringCall) :
    (c.Safe s ∧ ∃ t, c.perform s = some t ∧ Held t) ∨
      (¬ c.Safe s ∧ ∀ t, c.perform s = some t → ¬ Sound t) := by
  have hends : ∀ {safe : Prop} {result : Option StringBuffer},
      (safe → ∃ t, result = some t ∧ Held t) → (¬ safe → result = none) →
        (safe ∧ ∃ t, result = some t ∧ Held t) ∨ (¬ safe ∧ ∀ t, result = some t → ¬ Sound t) := by
    intro safe result hsafe hbreaks
    by_cases h : safe
    · exact Or.inl ⟨h, hsafe h⟩
    · exact Or.inr ⟨h, fun t ht => absurd (ht.symm.trans (hbreaks h)) (Option.some_ne_none t)⟩
  cases c with
  | data => exact Or.inl ⟨trivial, data_held hs⟩
  | hash => exact Or.inl ⟨trivial, _, rfl, hash_held hs⟩
  | getc =>
      obtain ⟨r, hr, hheld⟩ := getc_held hs
      exact Or.inl ⟨trivial, r.2, by rw [perform, hr]; rfl, hheld⟩
  | ungetc ch => exact Or.inl ⟨trivial, _, rfl, ungetc_held hs ch⟩
  | read len =>
      obtain ⟨r, hr, hheld⟩ := read_held hs len
      exact Or.inl ⟨trivial, r.2, by rw [perform, hr]; rfl, hheld⟩
  | seek offset whence => exact hends (seek_held hs) (seek_fails hs)
  | setline line => exact Or.inl ⟨trivial, _, rfl, hs.moved rfl hs.placed⟩
  | putc ch => exact hends (putc_held hs) (putc_fails hs)
  | write buffer => exact Or.inl ⟨trivial, write_held hs buffer⟩
  | append d => exact Or.inl ⟨trivial, append_held hs d⟩
  | clear => exact Or.inl ⟨trivial, clear_held hs⟩
  | insert pos d => exact hends (insert_held hs) insert_fails
  | delitem pos => exact hends (delitem_held hs) delitem_fails
  | delslice sindex eindex => exact hends (delslice_held hs) delslice_fails
  | replace token rep flags => exact replace_outcome hs token rep flags
  | chop => exact Or.inl ⟨trivial, chop_held hs⟩

/-! ## New strings -/

theorem held_new {t : StringBuffer} {l : Nat} (hlen : t.text.length = l)
    (hsp : t.string.sp = t.string.len) (hmax : t.maxsize = newMaxsize l)
    (halloc : t.allocated = newMaxsize l) (hterminated : t.terminated = true) : Held t := by
  have hlt := newMaxsize_gt l
  have hnonneg : 0 ≤ t.string.len := Int.natCast_nonneg _
  exact ⟨⟨⟨by omega, by omega⟩, by omega, hterminated⟩, by omega, by omega⟩

theorem newStringOf_outcome (s : StringBuffer) (fresh : Nat → Char) :
    (('\x00' ∈ s.text → fresh s.text.length = '\x00') ∧ Held (s.newStringOf fresh)) ∨
      '\x00' ∈ s.text ∧ fresh s.text.length ≠ '\x00' ∧ ¬ Sound (s.newStringOf fresh) := by
  obtain ⟨hmax, halloc⟩ := newStringOf_size s fresh
  have hlen := newStringOf_length s fresh
  have hsp : (s.newStringOf fresh).string.sp = (s.newStringOf fresh).string.len := by
    unfold newStringOf
    dsimp only
    split
    · rfl
    · rfl
  by_cases hnull : '\x00' ∈ s.text
  · have hshort : (cText s.text).length ≠ s.text.length := fun heq => by
      have hall : cText s.text = s.text := (List.takeWhile_prefix _).eq_of_length heq
      rw [← hall] at hnull
      simpa using List.mem_takeWhile_imp hnull
    have hterminated : (s.newStringOf fresh).terminated =
        decide (fresh s.text.length = '\x00') := by
      unfold newStringOf
      dsimp only
      rw [if_neg hshort]
    by_cases hfresh : fresh s.text.length = '\x00'
    · exact Or.inl ⟨fun _ => hfresh,
        held_new hlen hsp hmax halloc (hterminated.trans (decide_eq_true hfresh))⟩
    · refine Or.inr ⟨hnull, hfresh, fun hsound => ?_⟩
      exact hfresh (of_decide_eq_true (hterminated.symm.trans hsound.terminated))
  · refine Or.inl ⟨fun h => absurd h hnull, held_new hlen hsp hmax halloc ?_⟩
    unfold newStringOf
    dsimp only
    rw [if_pos (by rw [cText_eq hnull])]

theorem copyString_held (hs : Held s) : Held s.copyString :=
  ⟨⟨hs.placed, Nat.lt_succ_self _, rfl⟩, le_refl _, Nat.le_succ _⟩

/-! ## Runs -/

/-- The steps that keep the representation of every string. `NewString` copies a text up to its
first null character, and what it finds at the end of the text is then not its own. -/
def StringStep.Safe (strings : List StringBuffer) : StringStep → Prop
  | .newStringOf i fresh =>
      ∃ s, strings[i]? = some s ∧ ('\x00' ∈ s.text → fresh s.text.length = '\x00')
  | .copy i => ∃ s, strings[i]? = some s
  | .call i c => ∃ s, strings[i]? = some s ∧ c.Safe s
  | _ => True

theorem held_added {u : StringBuffer} (hall : ∀ s ∈ strings, Held s) (hu : Held u) :
    ∀ s ∈ strings ++ [u], Held s := by
  intro s hs
  rcases List.mem_append.1 hs with hs | hs
  · exact hall s hs
  · obtain rfl := List.mem_singleton.1 hs
    exact hu

theorem held_set {i : Nat} {u : StringBuffer} (hall : ∀ s ∈ strings, Held s) (hu : Held u) :
    ∀ s ∈ strings.set i u, Held s := by
  intro s hs
  rcases List.mem_or_eq_of_mem_set hs with hs | rfl
  · exact hall s hs
  · exact hu

theorem StringStep.outcome (hall : ∀ s ∈ strings, Held s) (step : StringStep) :
    (step.Safe strings ∧ ∃ strings', step.perform strings = some strings' ∧
        ∀ s ∈ strings', Held s) ∨
      (¬ step.Safe strings ∧ ∀ strings', step.perform strings = some strings' →
        ¬ ∀ s ∈ strings', Sound s) := by
  cases step with
  | newString text =>
      exact Or.inl ⟨trivial, _, rfl, held_added hall (held_new rfl rfl rfl rfl rfl)⟩
  | newStringEmpty =>
      exact Or.inl ⟨trivial, _, rfl, held_added hall (held_new rfl rfl rfl rfl rfl)⟩
  | newStringWithSize text len =>
      exact Or.inl ⟨trivial, _, rfl,
        held_added hall (held_new (strncpy_length text len) rfl rfl rfl rfl)⟩
  | newStringOf i fresh =>
      simp only [Safe, perform]
      cases hget : strings[i]? with
      | none =>
          refine Or.inr ⟨fun h => ?_, fun strings' h => nomatch h⟩
          obtain ⟨s, hs, -⟩ := h
          exact nomatch hs
      | some s =>
          have hs := hall s (List.mem_of_getElem? hget)
          obtain ⟨t, ht, hheld⟩ := data_held hs
          have htext : t.text = s.text := by
            obtain ⟨rfl, -⟩ := fits_eq_some.1 ht
            rfl
          simp only [Option.bind_some, ht, Option.map_some]
          rcases newStringOf_outcome t fresh with ⟨hsafe, hnew⟩ | ⟨hnull, hfresh, hlost⟩
          · rw [htext] at hsafe
            exact Or.inl ⟨⟨s, rfl, hsafe⟩, _, rfl, held_added (held_set hall hheld) hnew⟩
          · rw [htext] at hnull hfresh
            refine Or.inr ⟨fun h => ?_, fun strings' h hsound => hlost ?_⟩
            · obtain ⟨s', hs', hsafe⟩ := h
              obtain rfl := Option.some.inj hs'
              exact hfresh (hsafe hnull)
            · obtain rfl := Option.some.inj h
              exact hsound _ (List.mem_append_right _ (List.mem_singleton_self _))
  | copy i =>
      simp only [Safe, perform]
      cases hget : strings[i]? with
      | none =>
          refine Or.inr ⟨fun h => ?_, fun strings' h => nomatch h⟩
          obtain ⟨s, hs⟩ := h
          exact nomatch hs
      | some s =>
          have hs := hall s (List.mem_of_getElem? hget)
          exact Or.inl ⟨⟨s, rfl⟩, _, rfl, held_added hall (copyString_held hs)⟩
  | call i c =>
      simp only [Safe, perform]
      cases hget : strings[i]? with
      | none =>
          refine Or.inr ⟨fun h => ?_, fun strings' h => nomatch h⟩
          obtain ⟨s, hs, -⟩ := h
          exact nomatch hs
      | some s =>
          have hs := hall s (List.mem_of_getElem? hget)
          have hi : i < strings.length := (List.getElem?_eq_some_iff.1 hget).1
          rcases StringCall.outcome hs c with ⟨hsafe, t, ht, hheld⟩ | ⟨hbreaks, hlost⟩
          · refine Or.inl ⟨⟨s, rfl, hsafe⟩, strings.set i t, ?_, held_set hall hheld⟩
            simp only [Option.bind_some, ht, Option.map_some]
          · refine Or.inr ⟨fun h => ?_, fun strings' h hsound => ?_⟩
            · obtain ⟨s', hs', hsafe⟩ := h
              obtain rfl := Option.some.inj hs'
              exact hbreaks hsafe
            · simp only [Option.bind_some] at h
              obtain ⟨t, ht, rfl⟩ := Option.map_eq_some_iff.1 h
              exact hlost t ht (hsound t (List.mem_set hi t))

/-- In a run the representation is kept in all states just when all steps are safe; and then
the next step ends and keeps it just when it is safe too. -/
theorem run_represented {trace : List (List StringBuffer × StringStep)}
    (hrun : Run StringStep.perform [] trace strings) :
    (((∀ s ∈ strings, Sound s) ∧ ∀ x ∈ trace, ∀ s ∈ x.1, Sound s) ↔ ∀ x ∈ trace, x.2.Safe x.1) ∧
      ((∀ x ∈ trace, x.2.Safe x.1) → ∀ step : StringStep, step.Safe strings ↔
        ∃ strings', step.perform strings = some strings' ∧ ∀ s ∈ strings', Sound s) := by
  have hstart : ∀ s ∈ ([] : List StringBuffer), Held s := fun s hs => absurd hs List.not_mem_nil
  have hkeeps : ∀ (strings : List StringBuffer) (step : StringStep) strings',
      (∀ s ∈ strings, Held s) → step.Safe strings → step.perform strings = some strings' →
        ∀ s ∈ strings', Held s := by
    intro strings step strings' hall hsafe hstep
    rcases StringStep.outcome hall step with ⟨-, strings₂, hstep₂, hheld⟩ | ⟨hbreaks, -⟩
    · obtain rfl := Option.some.inj (hstep₂.symm.trans hstep)
      exact hheld
    · exact absurd hsafe hbreaks
  refine ⟨hrun.forall_iff (I := fun strings => ∀ s ∈ strings, Held s)
    (P := fun strings => ∀ s ∈ strings, Sound s) hstart hkeeps
    (fun strings hall s hs => (hall s hs).toSound) ?_, fun hsafe step => ?_⟩
  · intro strings step strings' hall hbreaks hstep
    rcases StringStep.outcome hall step with ⟨hsafe, -⟩ | ⟨-, hlost⟩
    · exact absurd hsafe hbreaks
    · exact hlost strings' hstep
  · have hall := (hrun.invariant hstart hkeeps hsafe).1
    rcases StringStep.outcome hall step with ⟨hsafe, strings₂, hstep, hheld⟩ | ⟨hbreaks, hlost⟩
    · exact iff_of_true hsafe ⟨strings₂, hstep, fun s hs => (hheld s hs).toSound⟩
    · refine iff_of_false hbreaks ?_
      rintro ⟨strings₂, hstep, hsound⟩
      exact hlost strings₂ hstep hsound

/-- A copy of two letters, which takes a third one. -/
theorem copiedWord_represented :
    (∀ s ∈ [StringBuffer.newString ['a', 'b'], (StringBuffer.newString ['a', 'b']).copyString],
        Sound s) ∧
      ∃ strings, (StringStep.call 1 (.putc 'c')).perform [StringBuffer.newString ['a', 'b'],
          (StringBuffer.newString ['a', 'b']).copyString] = some strings ∧
        ∀ s ∈ strings, Sound s := by
  have hright := run_represented (oneCopy_run ['a', 'b'])
  have hsafe : ∀ x ∈ ([([StringBuffer.newString ['a', 'b']], .copy 0),
      ([], .newString ['a', 'b'])] : List (List StringBuffer × StringStep)), x.2.Safe x.1 := by
    intro x hx
    rcases List.mem_cons.1 hx with rfl | hx
    · exact ⟨_, rfl⟩
    · obtain rfl := List.mem_singleton.1 hx
      trivial
  exact ⟨(hright.1.2 hsafe).1, (hright.2 hsafe _).1
    ⟨_, rfl, fun _ => ⟨by decide, fun h => absurd h (by decide)⟩⟩⟩

/-- A copy of one letter has no room for a second one when its size is doubled; and a replacement
that takes away more letters than there are before the position leaves it before the text. -/
theorem shortCopy_overflows :
    Run StringStep.perform []
        [([StringBuffer.newString ['a']], .copy 0), ([], .newString ['a'])]
        [StringBuffer.newString ['a'], (StringBuffer.newString ['a']).copyString] ∧
      (StringStep.call 1 (.putc 'b')).perform
          [StringBuffer.newString ['a'], (StringBuffer.newString ['a']).copyString] = none ∧
      ∃ trace s, Run StringStep.perform [] trace [s] ∧ trace.length = 3 ∧ s.string.sp = -1 ∧
        s.getc = none := by
  have hrun : Run StringStep.perform [] _ _ :=
    .step (a := .call 0 (.replace ['a'] [] {})) (.step (a := .call 0 (.seek 2 .set))
      (.step (a := .newString ['a', 'a', 'a', 'b']) .start rfl) rfl) rfl
  exact ⟨oneCopy_run ['a'], by decide, _, _, hrun, rfl, by decide, by decide⟩

end Swig4Ada.Doh

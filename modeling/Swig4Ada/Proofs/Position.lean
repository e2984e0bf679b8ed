import Swig4Ada.Doh.Position
import Swig4Ada.Proofs.Replace

/-!
# The line number and the newlines before the position

Each operation is followed by what it makes of the offset. Most leave it as it is in every
string; the others say by how much they are wrong.
-/

namespace Swig4Ada.Doh

/-! ## Counting newlines -/

section Newlines

variable (l l' : List Char) (n : Nat)

theorem newlines_append : newlines (l ++ l') = newlines l + newlines l' := by
  simp [newlines, List.count_append]

theorem newlines_singleton (c : Char) : newlines [c] = if c = '\n' then 1 else 0 := by
  by_cases hc : c = '\n' <;> simp [newlines, hc]

theorem newlines_take_succ :
    newlines (l.take (n + 1)) = newlines (l.take n) + if l[n]? = some '\n' then 1 else 0 := by
  rw [List.take_add_one, newlines_append]
  cases h : l[n]? with
  | none => simp [newlines]
  | some c => by_cases hc : c = '\n' <;> simp [newlines, hc]

variable {l} in
theorem newlines_eq_zero (h : '\n' ∉ l) : newlines l = 0 := by
  simp [newlines, List.count_eq_zero_of_not_mem h]

theorem newlines_take_append : newlines ((l ++ l').take (l.length + n)) =
    newlines l + newlines (l'.take n) := by
  rw [List.take_length_add_append, newlines_append]

variable {l l' n} in
theorem newlines_take_append_le (h : n ≤ l.length) :
    newlines ((l ++ l').take n) = newlines (l.take n) := by
  rw [List.take_append_of_le_length h]

/-- The newlines up to a later position. -/
theorem newlines_take_add (m : Nat) :
    newlines (l.take (n + m)) = newlines (l.take n) + newlines ((l.drop n).take m) := by
  rw [List.take_add, newlines_append]

end Newlines

/-- The position as a natural number. -/
theorem DohString.Placed.exists_nat {s : DohString} (h : s.Placed) :
    ∃ n : Nat, s.sp = n ∧ n ≤ s.text.length := by
  obtain ⟨h₁, h₂⟩ := h
  unfold DohString.len at h₂
  exact ⟨s.sp.toNat, by omega, by omega⟩

/-- An operation leaves the position in the text and the offset as it is. -/
def Keeps (s s' : DohString) : Prop := s'.Placed ∧ s'.offset = s.offset

section Operations

variable {s s' : DohString}

/-! ## Reading -/

theorem getc_keeps {c : Option Char} (hs : s.Placed) (h : getc s = some (c, s')) : Keeps s s' := by
  obtain ⟨n, hn, hle⟩ := hs.exists_nat
  unfold getc at h
  by_cases hend : s.len ≤ s.sp
  · rw [if_pos hend] at h
    cases h
    exact ⟨hs, rfl⟩
  · rw [if_neg hend, if_neg (by omega)] at h
    have hlt : n < s.text.length := by unfold DohString.len at hend; omega
    have hget : s.text[s.sp.toNat]? = some s.text[n] := by
      rw [hn, Int.toNat_natCast, List.getElem?_eq_getElem hlt]
    rw [hget] at h
    cases h
    refine ⟨⟨by dsimp only; omega, by unfold DohString.len; dsimp only; omega⟩, ?_⟩
    have htake := newlines_take_succ s.text n
    rw [List.getElem?_eq_getElem hlt] at htake
    unfold DohString.offset
    dsimp only
    rw [hn, Int.toNat_natCast, show ((n : Int) + 1).toNat = n + 1 by omega, htake]
    by_cases hc : s.text[n] = '\n'
    · rw [if_pos hc, if_pos (by rw [hc])]
      omega
    · rw [if_neg hc, if_neg (by simpa using hc)]
      omega

theorem ungetc_keeps {ch : Option Char} (hs : s.Placed)
    (h : ch = none ∨ 0 < s.sp ∧ s.text[(s.sp - 1).toNat]? = ch) : Keeps s (ungetc s ch) := by
  obtain ⟨n, hn, hle⟩ := hs.exists_nat
  cases ch with
  | none => exact ⟨hs, rfl⟩
  | some c =>
      obtain ⟨hpos, hget⟩ := h.resolve_left (Option.some_ne_none c)
      obtain ⟨m, rfl⟩ : ∃ m, n = m + 1 := ⟨n - 1, by omega⟩
      rw [show (s.sp - 1).toNat = m by omega] at hget
      unfold ungetc
      dsimp only
      rw [if_neg (by omega)]
      refine ⟨⟨by dsimp only; omega, by unfold DohString.len; dsimp only; omega⟩, ?_⟩
      have htake := newlines_take_succ s.text m
      rw [hget] at htake
      unfold DohString.offset
      dsimp only
      rw [show (s.sp - 1).toNat = m by omega, show s.sp.toNat = m + 1 by omega, htake]
      by_cases hc : c = '\n'
      · rw [if_pos hc, if_pos (by rw [hc])]
        omega
      · rw [if_neg hc, if_neg (by simpa using hc)]
        omega

theorem newlineAt_eq_some {text : List Char} {i : Int} {b : Bool} (h : newlineAt text i = some b) :
    0 ≤ i ∧ i ≤ text.length ∧ b = decide (text[i.toNat]? = some '\n') := by
  unfold newlineAt at h
  by_cases hi : 0 ≤ i ∧ i ≤ text.length
  · rw [if_pos hi] at h
    exact ⟨hi.1, hi.2, (Option.some.inj h).symm⟩
  · rw [if_neg hi] at h
    exact nomatch h

/-- Going ahead counts the character at the new position and not the one at the old. -/
theorem seekForward_line {text : List Char} {turns : Nat} {n : Nat} {line sp' line' : Int}
    (h : seekForward text turns n line = some (sp', line')) :
    sp' = n + turns ∧ (0 < turns → sp' ≤ text.length) ∧
      line' - newlines (text.take (n + turns + 1)) = line - newlines (text.take (n + 1)) := by
  induction turns generalizing n line with
  | zero =>
      obtain ⟨rfl, rfl⟩ := Prod.mk.inj (Option.some.inj h)
      exact ⟨by omega, by omega, rfl⟩
  | succ turns ih =>
      unfold seekForward at h
      cases hb : newlineAt text ((n : Int) + 1) with
      | none => rw [hb] at h; exact nomatch h
      | some b =>
          rw [hb] at h
          obtain ⟨_, hle, hb'⟩ := newlineAt_eq_some hb
          obtain ⟨hsp, hlen, hline⟩ := @ih (n + 1) _ h
          have htake := newlines_take_succ text (n + 1)
          refine ⟨by omega, fun _ => ?_, ?_⟩
          · cases turns with
            | zero => omega
            | succ turns => exact hlen (by omega)
          · rw [show n + (turns + 1) + 1 = n + 1 + turns + 1 by omega, hline, htake, hb',
              show ((n : Int) + 1).toNat = n + 1 by omega]
            by_cases hnl : text[n + 1]? = some '\n'
            · rw [if_pos hnl, if_pos (decide_eq_true hnl)]
              omega
            · rw [if_neg hnl, if_neg (by simpa using hnl)]
              omega

theorem seekBackward_line {text : List Char} {turns : Nat} {n : Nat} {line sp' line' : Int}
    (hle : turns ≤ n) (h : seekBackward text turns n line = some (sp', line')) :
    sp' = n - turns ∧
      line' - newlines (text.take (n - turns)) = line - newlines (text.take n) := by
  induction turns generalizing n line with
  | zero =>
      obtain ⟨rfl, rfl⟩ := Prod.mk.inj (Option.some.inj h)
      exact ⟨by omega, rfl⟩
  | succ turns ih =>
      obtain ⟨m, rfl⟩ : ∃ m, n = m + 1 := ⟨n - 1, by omega⟩
      unfold seekBackward at h
      rw [show ((m + 1 : Nat) : Int) - 1 = m by omega] at h
      cases hb : newlineAt text (m : Int) with
      | none => rw [hb] at h; exact nomatch h
      | some b =>
          rw [hb] at h
          obtain ⟨_, _, hb'⟩ := newlineAt_eq_some hb
          obtain ⟨hsp, hline⟩ := ih (by omega) h
          have htake := newlines_take_succ text m
          refine ⟨by omega, ?_⟩
          rw [show m + 1 - (turns + 1) = m - turns by omega, hline, htake, hb', Int.toNat_natCast]
          by_cases hnl : text[m]? = some '\n'
          · rw [if_pos hnl, if_pos (decide_eq_true hnl)]
            omega
          · rw [if_neg hnl, if_neg (by simpa using hnl)]
            omega

theorem seekTarget_nonneg (offset : Int) (whence : Whence) : 0 ≤ seekTarget s offset whence := by
  unfold seekTarget
  dsimp only
  split <;> split <;> omega

theorem seek_keeps {offset : Int} {whence : Whence} (hs : s.Placed)
    (h : seek s offset whence = some s')
    (hends : s.sp < seekTarget s offset whence →
      (s.text[s.sp.toNat]? = some '\n' ↔
        s.text[(seekTarget s offset whence).toNat]? = some '\n')) : Keeps s s' := by
  obtain ⟨n, hn, hle⟩ := hs.exists_nat
  have hnonneg := seekTarget_nonneg (s := s) offset whence
  unfold seek at h
  generalize seekTarget s offset whence = nsp at h hends hnonneg
  obtain ⟨m, rfl⟩ : ∃ m : Nat, nsp = m := ⟨nsp.toNat, by omega⟩
  dsimp only at h
  by_cases hfwd : s.sp < m
  · rw [if_pos hfwd] at h
    obtain ⟨⟨sp', line'⟩, hrun, rfl⟩ := Option.map_eq_some_iff.1 h
    rw [hn] at hrun
    obtain ⟨hsp, hlen, hline⟩ := seekForward_line hrun
    have hm : n + ((m : Int) - n).toNat = m := by omega
    rw [hm] at hline
    have hends := hends hfwd
    rw [hn, Int.toNat_natCast, Int.toNat_natCast] at hends
    refine ⟨⟨by dsimp only; omega, ?_⟩, ?_⟩
    · have := hlen (by omega)
      exact this
    · have hold := newlines_take_succ s.text n
      have hnew := newlines_take_succ s.text m
      unfold DohString.offset
      dsimp only
      rw [hn, Int.toNat_natCast, show sp'.toNat = m by omega]
      by_cases hnl : s.text[n]? = some '\n'
      · rw [if_pos hnl] at hold
        rw [if_pos (hends.1 hnl)] at hnew
        omega
      · rw [if_neg hnl] at hold
        rw [if_neg fun hnl' => hnl (hends.2 hnl')] at hnew
        omega
  · rw [if_neg hfwd] at h
    obtain ⟨⟨sp', line'⟩, hrun, rfl⟩ := Option.map_eq_some_iff.1 h
    rw [hn] at hrun
    obtain ⟨hsp, hline⟩ := seekBackward_line (by omega) hrun
    have hm : n - ((n : Int) - m).toNat = m := by omega
    rw [hm] at hline
    refine ⟨⟨by dsimp only; omega, by unfold DohString.len; dsimp only; omega⟩, ?_⟩
    unfold DohString.offset
    dsimp only
    rw [hn, Int.toNat_natCast, show sp'.toNat = m by omega]
    exact hline

/-! ## Writing -/

theorem putc_keeps {ch : Char} (hs : s.Placed) (h : putc s ch = some s') : Keeps s s' := by
  obtain ⟨n, hn, hle⟩ := hs.exists_nat
  unfold putc at h
  dsimp only at h
  by_cases hend : s.sp = s.len
  · rw [if_pos hend] at h
    cases h
    have hlen : n = s.text.length := by unfold DohString.len at hend; omega
    refine ⟨⟨by dsimp only; omega, ?_⟩, ?_⟩
    · unfold DohString.len
      rw [List.length_append, List.length_singleton]
      dsimp only
      omega
    · unfold DohString.offset
      dsimp only
      rw [show (s.sp + 1).toNat = s.text.length + 1 by omega, newlines_take_append,
        show s.sp.toNat = s.text.length by omega, List.take_length,
        List.take_of_length_le (by rw [List.length_singleton]), newlines_singleton]
      split <;> omega
  · rw [if_neg hend] at h
    unfold DohString.len at hend
    have hlt : n < s.text.length := by omega
    rw [if_pos ⟨by omega, by unfold DohString.len; omega⟩] at h
    cases h
    refine ⟨⟨by dsimp only; omega, ?_⟩, ?_⟩
    · unfold DohString.len
      rw [List.length_set]
      dsimp only
      omega
    · unfold DohString.offset
      dsimp only
      rw [show (s.sp + 1).toNat = n + 1 by omega, show s.sp.toNat = n by omega,
        newlines_take_succ, List.take_set_of_le (Nat.le_refl n),
        List.getElem?_set_self (by omega)]
      by_cases hc : ch = '\n'
      · rw [if_pos hc, if_pos (by rw [hc])]
        omega
      · rw [if_neg hc, if_neg (by simpa using hc)]
        omega

/-- The line ends that are written are not counted. -/
theorem write_offset {buffer : List Char} (hs : s.Placed) (h : write s buffer = some s') :
    s'.Placed ∧ s'.offset = s.offset - newlines buffer := by
  obtain ⟨n, hn, hle⟩ := hs.exists_nat
  unfold write at h
  dsimp only at h
  have hsp : (if s.len < s.sp then s.len else s.sp) = n := by
    rw [if_neg (by unfold DohString.len; omega), hn]
  rw [hsp, if_neg (by omega)] at h
  cases h
  rw [Int.toNat_natCast]
  refine ⟨⟨by dsimp only; omega, ?_⟩, ?_⟩
  · unfold DohString.len writeAt
    rw [List.length_append, List.length_append, List.length_take, Nat.min_eq_left hle]
    dsimp only
    omega
  · have hlen : (s.text.take n ++ buffer).length = n + buffer.length := by
      rw [List.length_append, List.length_take, Nat.min_eq_left hle]
    unfold DohString.offset writeAt
    dsimp only
    rw [show ((n : Int) + buffer.length).toNat = n + buffer.length by omega,
      newlines_take_append_le (by omega), List.take_of_length_le (by omega), newlines_append,
      hn, Int.toNat_natCast]
    omega

theorem append_keeps {data : List Char} (hs : s.Placed) (h : append s data = some s') :
    Keeps s s' := by
  obtain ⟨n, hn, hle⟩ := hs.exists_nat
  unfold append at h
  dsimp only at h
  by_cases hend : s.len ≤ s.sp
  · have hlen : n = s.text.length := by unfold DohString.len at hend; omega
    rw [if_pos hend, if_neg (by unfold DohString.len; omega)] at h
    cases h
    refine ⟨⟨by unfold DohString.len; dsimp only; omega, ?_⟩, ?_⟩
    · unfold DohString.len
      rw [List.length_append]
      dsimp only
      omega
    · unfold DohString.offset DohString.len
      dsimp only
      rw [show ((s.text.length : Int) + data.length).toNat = s.text.length + data.length by omega,
        newlines_take_append, show s.sp.toNat = s.text.length by omega, List.drop_left,
        List.take_length, List.take_length]
      omega
  · rw [if_neg hend] at h
    cases h
    unfold DohString.len at hend
    refine ⟨⟨hs.1, ?_⟩, ?_⟩
    · unfold DohString.len
      rw [List.length_append]
      dsimp only
      omega
    · unfold DohString.offset
      dsimp only
      rw [newlines_take_append_le (by omega)]

theorem insert_keeps {pos : Int} {data : List Char} (hs : s.Placed)
    (h : insert s pos data = some s') : Keeps s s' := by
  unfold insert at h
  by_cases hend : pos = dohEnd
  · rw [if_pos hend] at h
    exact append_keeps hs h
  · rw [if_neg hend] at h
    dsimp only at h
    obtain ⟨p, hp, hple⟩ : ∃ p : Nat,
        (if pos < 0 then 0 else if s.len < pos then s.len else pos) = (p : Int) ∧
          p ≤ s.text.length := by
      unfold DohString.len
      refine ⟨(if pos < 0 then 0 else if (s.text.length : Int) < pos then
        (s.text.length : Int) else pos).toNat, ?_, ?_⟩ <;> split <;> (try split) <;> omega
    obtain ⟨n, hn, hle⟩ := hs.exists_nat
    rw [hp, Int.toNat_natCast] at h
    have htake : (s.text.take p).length = p := List.length_take_of_le hple
    have hlen : (s.text.take p ++ data ++ s.text.drop p).length =
        s.text.length + data.length := by
      rw [List.length_append, List.length_append, htake, List.length_drop]
      omega
    by_cases hle' : (p : Int) ≤ s.sp
    · rw [if_pos hle'] at h
      cases h
      obtain ⟨m, rfl⟩ : ∃ m, n = p + m := ⟨n - p, by omega⟩
      refine ⟨⟨by dsimp only; omega, by unfold DohString.len; rw [hlen]; dsimp only; omega⟩,
        ?_⟩
      unfold DohString.offset
      dsimp only
      have hfront : (s.text.take p ++ data).length = p + data.length := by
        rw [List.length_append, htake]
      have hsum : newlines ((s.text.take p ++ data ++ s.text.drop p).take
          ((s.text.take p ++ data).length + m)) =
          newlines (s.text.take p) + newlines data + newlines ((s.text.drop p).take m) := by
        rw [newlines_take_append, newlines_append]
      rw [show (s.sp + (data.length : Int)).toNat = (s.text.take p ++ data).length + m by
          rw [hfront]; omega,
        hsum, hn, Int.toNat_natCast, newlines_take_add]
      omega
    · rw [if_neg hle'] at h
      cases h
      refine ⟨⟨hs.1, by unfold DohString.len; rw [hlen]; dsimp only; omega⟩, ?_⟩
      unfold DohString.offset
      dsimp only
      rw [List.append_assoc, newlines_take_append_le (by rw [htake]; omega), List.take_take,
        Nat.min_eq_left (by omega)]

theorem delitem_keeps {pos : Int} (hs : s.Placed) (h : delitem s pos = some s') : Keeps s s' := by
  unfold delitem at h
  dsimp only at h
  generalize (if (if pos = dohEnd then s.len - 1 else pos) = dohBegin then 0
    else if pos = dohEnd then s.len - 1 else pos) = pos at h
  by_cases hempty : s.len = 0
  · rw [if_pos hempty] at h
    cases h
    exact ⟨hs, rfl⟩
  · rw [if_neg hempty] at h
    by_cases hout : pos < 0 ∨ s.len ≤ pos
    · rw [if_pos hout] at h
      exact nomatch h
    · rw [if_neg hout] at h
      obtain ⟨n, hn, hle⟩ := hs.exists_nat
      unfold DohString.len at hout
      obtain ⟨p, rfl⟩ : ∃ p : Nat, pos = p := ⟨pos.toNat, by omega⟩
      rw [Int.toNat_natCast] at h
      have hlen : (s.text.eraseIdx p).length = s.text.length - 1 :=
        List.length_eraseIdx_of_lt (by omega)
      by_cases hlt : (p : Int) < s.sp
      · rw [if_pos hlt] at h
        cases h
        obtain ⟨m, rfl⟩ : ∃ m, n = p + 1 + m := ⟨n - (p + 1), by omega⟩
        refine ⟨⟨by dsimp only; omega, by unfold DohString.len; rw [hlen]; dsimp only; omega⟩,
        ?_⟩
        have htake : (s.text.take p).length = p := List.length_take_of_le (by omega)
        have hsum : newlines ((s.text.take p ++ s.text.drop (p + 1)).take
            ((s.text.take p).length + m)) =
            newlines (s.text.take p) + newlines ((s.text.drop (p + 1)).take m) := by
          rw [newlines_take_append]
        have hold := newlines_take_add s.text (p + 1) m
        have hone := newlines_take_succ s.text p
        unfold DohString.offset
        dsimp only
        rw [List.eraseIdx_eq_take_drop_succ,
          show (s.sp - 1).toNat = (s.text.take p).length + m by rw [htake]; omega, hsum, hn,
          Int.toNat_natCast, hold, hone]
        split <;> omega
      · rw [if_neg hlt] at h
        cases h
        refine ⟨⟨hs.1, by unfold DohString.len; rw [hlen]; dsimp only; omega⟩, ?_⟩
        unfold DohString.offset
        dsimp only
        rw [List.eraseIdx_eq_take_drop_succ, newlines_take_append_le (by
          rw [List.length_take_of_le (by omega)]; omega), List.take_take,
          Nat.min_eq_left (by omega)]

theorem delslice_keeps {sindex eindex : Int} (hs : s.Placed)
    (h : delslice s sindex eindex = some s') : Keeps s s' := by
  unfold delslice at h
  by_cases hempty : s.len = 0
  · rw [if_pos hempty] at h
    cases h
    exact ⟨hs, rfl⟩
  · rw [if_neg hempty] at h
    dsimp only at h
    generalize (if eindex = dohEnd then s.len else eindex) = eindex at h
    generalize (if sindex = dohBegin then 0 else sindex) = sindex at h
    by_cases hout : sindex < 0 ∨ eindex < sindex ∨ s.len < eindex
    · rw [if_pos hout] at h
      exact nomatch h
    · rw [if_neg hout] at h
      obtain ⟨n, hn, hle⟩ := hs.exists_nat
      unfold DohString.len at hout
      obtain ⟨a, rfl⟩ : ∃ a : Nat, sindex = a := ⟨sindex.toNat, by omega⟩
      obtain ⟨d, rfl⟩ : ∃ d : Nat, eindex = ((a + d : Nat) : Int) :=
        ⟨(eindex - a).toNat, by omega⟩
      rw [Int.toNat_natCast, Int.toNat_natCast] at h
      have htake : (s.text.take a).length = a := List.length_take_of_le (by omega)
      have hlen : (s.text.take a ++ s.text.drop (a + d)).length = s.text.length - d := by
        rw [List.length_append, htake, List.length_drop]
        omega
      by_cases hlt : (a : Int) < s.sp
      · rw [if_pos hlt] at h
        by_cases hbehind : ((a + d : Nat) : Int) < s.sp
        · rw [if_pos hbehind] at h
          cases h
          obtain ⟨m, rfl⟩ : ∃ m, n = a + d + m := ⟨n - (a + d), by omega⟩
          refine ⟨⟨by dsimp only; omega, by unfold DohString.len; rw [hlen]; dsimp only; omega⟩,
        ?_⟩
          have hfront := newlines_take_add s.text a d
          have hold := newlines_take_add s.text (a + d) m
          have hnew := newlines_take_append (s.text.take a) (s.text.drop (a + d)) m
          unfold DohString.offset
          dsimp only
          rw [show (s.sp - (((a + d : Nat) : Int) - a)).toNat = (s.text.take a).length + m by
              rw [htake]; omega,
            hnew, if_pos hbehind, show (((a + d : Nat) : Int) - a).toNat = d by omega, hn,
            Int.toNat_natCast, hold, hfront]
          omega
        · rw [if_neg hbehind] at h
          cases h
          obtain ⟨m, rfl⟩ : ∃ m, n = a + m := ⟨n - a, by omega⟩
          refine ⟨⟨by dsimp only; omega, by unfold DohString.len; rw [hlen]; dsimp only; omega⟩,
        ?_⟩
          have hold := newlines_take_add s.text a m
          unfold DohString.offset
          dsimp only
          rw [if_neg hbehind, show (s.sp - (a : Int)).toNat = m by omega, Int.toNat_natCast,
            newlines_take_append_le (by omega), List.take_take, Nat.min_self, hn,
            Int.toNat_natCast, hold]
          omega
      · rw [if_neg hlt] at h
        cases h
        refine ⟨⟨hs.1, by unfold DohString.len; rw [hlen]; dsimp only; omega⟩, ?_⟩
        unfold DohString.offset
        dsimp only
        rw [newlines_take_append_le (by omega), List.take_take, Nat.min_eq_left (by omega)]

theorem chopLoop_line (l : List Char) {n : Nat} {line : Int} (hn : n ≤ l.length) :
    ∃ m : Nat, (chopLoop l n line).2.1 = m ∧ m ≤ (chopLoop l n line).1.length ∧
      (chopLoop l n line).2.2 - newlines ((chopLoop l n line).1.reverse.take m) =
        line - newlines (l.reverse.take n) := by
  induction l generalizing n line with
  | nil => exact ⟨n, rfl, hn, rfl⟩
  | cons c rest ih =>
      unfold chopLoop
      by_cases hspace : isSpace c
      · rw [if_pos hspace, List.reverse_cons]
        by_cases hend : (rest.length : Int) + 1 ≤ n
        · rw [List.length_cons] at hn
          rw [if_pos hend, show (n : Int) - 1 = ((rest.length : Nat) : Int) by omega]
          obtain ⟨m, hm, hle, hline⟩ := @ih rest.length (if c = '\n' then line - 1 else line)
            (Nat.le_refl _)
          refine ⟨m, hm, hle, ?_⟩
          have htake : (rest.reverse ++ [c]).take n = rest.reverse ++ [c] :=
            List.take_of_length_le (by
              rw [List.length_append, List.length_reverse, List.length_singleton]; omega)
          rw [hline, htake, List.take_of_length_le (by rw [List.length_reverse]),
            newlines_append, newlines_singleton]
          split <;> omega
        · rw [if_neg hend]
          obtain ⟨m, hm, hle, hline⟩ := @ih n line (by omega)
          refine ⟨m, hm, hle, ?_⟩
          rw [hline, newlines_take_append_le (by rw [List.length_reverse]; omega)]
      · rw [if_neg hspace]
        exact ⟨n, rfl, hn, rfl⟩

theorem chop_keeps (hs : s.Placed) : Keeps s (chop s) := by
  obtain ⟨n, hn, hle⟩ := hs.exists_nat
  obtain ⟨m, hm, hle', hline⟩ := @chopLoop_line s.text.reverse n s.line
    (by rw [List.length_reverse]; exact hle)
  rw [← hn] at hm hle' hline
  rw [List.reverse_reverse] at hline
  refine ⟨⟨?_, ?_⟩, ?_⟩
  · show 0 ≤ (chopLoop s.text.reverse s.sp s.line).2.1
    omega
  · show (chopLoop s.text.reverse s.sp s.line).2.1 ≤
      ((chopLoop s.text.reverse s.sp s.line).1.reverse.length : Int)
    rw [List.length_reverse]
    omega
  · unfold DohString.offset chop
    dsimp only
    rw [hm, Int.toNat_natCast, hline, hn, Int.toNat_natCast]

end Operations

/-! ## The text after a replacement -/

/-- Places of the token in the text from `s` on, one behind the other. -/
def Occurring (token text : List Char) (s : Nat) (ps : List Nat) : Prop :=
  Apart token.length text.length s ps ∧ ∀ p ∈ ps, token <+: text.drop p

section Spliced

variable {mode : MatchMode} {token rep text : List Char}

theorem occurring_nil {s : Nat} (hs : s ≤ text.length) : Occurring token text s [] :=
  ⟨hs, fun _ h => absurd h List.not_mem_nil⟩

theorem Occurring.cons {s p : Nat} {ps : List Nat} (hs : s ≤ p)
    (hp : p + token.length ≤ text.length) (hoccurs : token <+: text.drop p)
    (h : Occurring token text (p + token.length) ps) :
    Occurring token text s (p :: ps) :=
  ⟨⟨hs, hp, h.1⟩, fun q hq => (List.mem_cons.1 hq).elim (fun e => e ▸ hoccurs) (h.2 q)⟩

/-- The matches found one behind the other are places of the token. -/
theorem matchPositions_occurring (htoken : token ≠ []) {noquote : Bool} {fuel s : Nat}
    (hs : s ≤ text.length) :
    Occurring token text s (matchPositions mode token text noquote fuel s) := by
  induction fuel generalizing s with
  | zero => exact occurring_nil hs
  | succ fuel ih =>
      rw [matchPositions]
      cases hc : (nextMatch mode token text noquote s).1 with
      | none => exact occurring_nil hs
      | some c =>
          obtain ⟨hge, hoccurs, -, hin⟩ := nextMatch_sound htoken hc
          exact (ih hin).cons hge hin hoccurs

/-- What the loop leaves with a replacement of the same length, also where it takes for a
match what was none. -/
theorem replaceInPlace_spliced (htoken : token ≠ []) (heq : rep.length = token.length)
    {buf : List Char} {fuel s : Nat} {ic : Int} (hic : ic < 0) (flag : Bool) (rcount : Nat)
    (hlen : buf.length = text.length) (hsame : buf.drop s = text.drop s)
    (hfuel : text.length < fuel + s) (hinside : s + token.length ≤ text.length) :
    ∃ ps, Occurring token text (s + token.length) ps ∧
      replaceInPlace mode token rep text.length fuel buf s s ic flag rcount =
        (buf.take s ++ rep ++ splice token.length rep text (s + token.length) ps,
          rcount + (ps.length + 1)) := by
  induction fuel generalizing buf s ic flag rcount with
  | zero => omega
  | succ fuel ih =>
      have hpos := List.length_pos_of_ne_nil htoken
      have hdrop : (writeAt buf s rep).drop (s + token.length) = text.drop (s + token.length) := by
        rw [writeAt_drop buf rep (by omega) (by omega), ← List.drop_drop,
          ← List.drop_drop, hsame]
      have htake : (writeAt buf s rep).take (s + token.length) = buf.take s ++ rep := by
        rw [← heq]
        exact writeAt_take buf rep (by omega)
      have hlen' : (writeAt buf s rep).length = text.length := by
        rw [writeAt_length buf rep (by omega), hlen]
      cases hc : (nextMatch mode token (writeAt buf s rep) flag (s + token.length)).1 with
      | none =>
          refine ⟨[], occurring_nil hinside, ?_⟩
          rw [replaceInPlace_none heq hic flag rcount hc, splice, ← hdrop, ← htake,
            List.take_append_drop]
          rfl
      | some c =>
          obtain ⟨hge, hoccurs, -, hin⟩ := nextMatch_sound htoken hc
          have hdropc : (writeAt buf s rep).drop c = text.drop c := by
            rw [show c = s + token.length + (c - (s + token.length)) by omega, ← List.drop_drop,
              hdrop, List.drop_drop]
          rw [hdropc] at hoccurs
          rw [hlen'] at hin
          obtain ⟨ps, hps, hrun⟩ := @ih (writeAt buf s rep) c (ic - 1) (by omega)
            (nextMatch mode token (writeAt buf s rep) flag (s + token.length)).2 (rcount + 1)
            hlen' hdropc (by omega) hin
          have htakec : (writeAt buf s rep).take c =
              buf.take s ++ rep ++
                (text.drop (s + token.length)).take (c - (s + token.length)) := by
            rw [show c = s + token.length + (c - (s + token.length)) by omega, List.take_add, htake,
              hdrop]
            simp
          refine ⟨c :: ps, hps.cons hge hin hoccurs, ?_⟩
          rw [replaceInPlace_some heq hic flag rcount hge hc, hrun, htakec, splice]
          refine Prod.ext ?_ ?_
          · simp only [List.append_assoc]
          · simp only [List.length_cons]
            omega

/-- What the pass that builds the text makes, whichever way it looks for the matches. -/
theorem buildText_spliced (htoken : token ≠ []) {n s : Nat} {flag : Bool} {ns made : List Char}
    (h : buildText mode token rep text (n + 1) s flag ns = some made)
    (hinside : s + token.length ≤ text.length) :
    ∃ ps, ps.length = n ∧ Occurring token text (s + token.length) ps ∧
      made = ns ++ rep ++ splice token.length rep text (s + token.length) ps := by
  induction n generalizing s flag ns with
  | zero =>
      rw [buildText] at h
      dsimp only at h
      rw [if_pos rfl] at h
      exact ⟨[], rfl, occurring_nil hinside, (Option.some.inj h).symm⟩
  | succ n ih =>
      rw [buildText] at h
      dsimp only at h
      rw [if_neg (by omega)] at h
      cases hc : (nextMatch mode token text flag (s + token.length)).1 with
      | none => rw [hc] at h; cases h
      | some c =>
          rw [hc] at h
          obtain ⟨hge, hoccurs, -, hin⟩ := nextMatch_sound htoken hc
          obtain ⟨ps, hlen, hps, hmade⟩ := ih h hin
          refine ⟨c :: ps, by rw [List.length_cons, hlen], hps.cons hge hin hoccurs, ?_⟩
          rw [hmade, splice]
          simp only [List.append_assoc]

/-- Every replacement puts the replacement in some places of the token, and when the text
gets shorter these are the matches. -/
theorem stringReplace_spliced (htoken : token ≠ []) {flags : ReplaceFlags} {made : List Char}
    {n : Nat} (h : stringReplace text token rep flags = some (made, n)) :
    let positions := wantedPositions flags.mode token text flags.noquote flags.first
    positions = [] ∧ made = text ∧ n = 0 ∨
      ∃ c ps, positions.head? = some c ∧ Occurring token text 0 (c :: ps) ∧
        n = (c :: ps).length ∧ made = splice token.length rep text 0 (c :: ps) ∧
        (rep.length < token.length → n = positions.length) := by
  intro positions
  cases hc : nextMatch flags.mode token text flags.noquote 0 with
  | mk c flag =>
      cases c with
      | none =>
          have hright : stringReplace text token rep flags = _ :=
            simpleRight_none htoken (congrArg Prod.fst hc)
          have hnone : positions = [] := wantedPositions_none (congrArg Prod.fst hc)
          rw [h, referenceReplace] at hright
          obtain ⟨hmade, hn⟩ := Prod.mk.inj (Option.some.inj hright)
          refine Or.inl ⟨hnone, ?_, ?_⟩
          · rw [hmade]
            show splice token.length rep text 0 positions = text
            rw [hnone, splice, List.drop_zero]
          · rw [hn]
            show positions.length = 0
            rw [hnone, List.length_nil]
      | some c =>
          obtain ⟨-, hoccurs, -, hin⟩ := nextMatch_sound htoken (congrArg Prod.fst hc)
          have hcons : ∀ ps, Occurring token text (c + token.length) ps →
              Occurring token text 0 (c :: ps) := fun ps hps =>
            hps.cons (Nat.zero_le c) hin hoccurs
          obtain ⟨later, hlater, hfound⟩ : ∃ later, positions = c :: later ∧
              Occurring token text 0 (c :: later) := by
            refine ⟨_, wantedPositions_some hc, hcons _ ?_⟩
            cases flags.first with
            | false => exact matchPositions_occurring htoken hin
            | true => exact occurring_nil hin
          have hhead : positions.head? = some c := congrArg List.head? hlater
          refine Or.inr ⟨c, ?_⟩
          by_cases hund : rep.length < token.length ∨
              rep.length = token.length ∧ flags.first = true
          · have hright : stringReplace text token rep flags = _ :=
              simpleRight_inPlace htoken (by omega) fun heq hfirst => by
                rcases hund with hlt | ⟨-, htrue⟩
                · omega
                · exact absurd (htrue.symm.trans hfirst) (by decide)
            rw [h, referenceReplace] at hright
            obtain ⟨hmade, hn⟩ := Prod.mk.inj (Option.some.inj hright)
            refine ⟨later, hhead, hfound, hn.trans (congrArg List.length hlater), ?_,
              fun _ => hn⟩
            rw [← hlater]
            exact hmade
          · rw [stringReplace, replaceSimple_some htoken hc] at h
            have hsplice : ∀ ps, splice token.length rep text 0 (c :: ps) =
                text.take c ++ rep ++ splice token.length rep text (c + token.length) ps := by
              intro ps
              rw [splice, List.drop_zero, Nat.sub_zero]
            by_cases heq : rep.length = token.length
            · have hfirst : flags.first = false := by
                cases hf : flags.first with
                | false => rfl
                | true => exact absurd (Or.inr ⟨heq, hf⟩) hund
              obtain ⟨ps, hps, hrun⟩ := @replaceInPlace_spliced flags.mode token rep text htoken
                heq _ _ _ _
                (show (-1 : Int) < 0 by omega) flag 0 rfl rfl
                (show text.length < text.length + 1 + c by omega) hin
              rw [if_pos (by omega), hfirst] at h
              simp only [Bool.false_eq_true, if_false, hrun] at h
              obtain ⟨hmade, hn⟩ := Prod.mk.inj (Option.some.inj h)
              refine ⟨ps, hhead, hcons ps hps, ?_, ?_, fun hlt => absurd hlt (by omega)⟩
              · rw [← hn, List.length_cons]
                omega
              · rw [hsplice, ← hmade, heq, Nat.sub_self, Nat.mul_zero, Nat.sub_zero]
                refine List.take_of_length_le ?_
                have hlen := @splice_length token rep text _ _ (by omega) hps.1
                rw [heq, Nat.sub_self, Nat.mul_zero] at hlen
                rw [List.length_append, List.length_append, List.length_take]
                omega
            · rw [if_neg (by omega)] at h
              obtain ⟨built, hbuilt, hpair⟩ := Option.map_eq_some_iff.1 h
              obtain ⟨rfl, hn⟩ := Prod.mk.inj hpair
              obtain ⟨m, rfl⟩ : ∃ m, n = m + 1 := by
                refine ⟨n - 1, ?_⟩
                have hge : 1 ≤ n := hn ▸ countMatches_ge
                omega
              rw [hn] at hbuilt
              obtain ⟨ps, hlen, hps, hmade⟩ := buildText_spliced htoken hbuilt hin
              refine ⟨ps, hhead, hcons ps hps, ?_, ?_, fun hlt => absurd (Or.inl hlt) hund⟩
              · rw [List.length_cons, hlen]
              · rw [hsplice, hmade]

/-! ## The newlines of that text -/

/-- An occurrence between the text before it and the text behind it. -/
theorem drop_eq_occurrence {s p : Nat} (hs : s ≤ p) (h : token <+: text.drop p) :
    text.drop s = (text.drop s).take (p - s) ++ (token ++ text.drop (p + token.length)) := by
  obtain ⟨rest, hrest⟩ := h
  have hbehind : text.drop (p + token.length) = rest := by
    rw [← List.drop_drop, ← hrest, List.drop_left]
  rw [hbehind, hrest]
  conv_lhs => rw [← List.take_append_drop (p - s) (text.drop s)]
  rw [List.drop_drop, Nat.add_sub_cancel' hs]

theorem splice_newlines {s : Nat} {ps : List Nat} (h : Occurring token text s ps) :
    newlines (splice token.length rep text s ps) =
      newlines (text.drop s) + ps.length * (newlines rep - newlines token) := by
  induction ps generalizing s with
  | nil =>
      rw [splice, List.length_nil]
      omega
  | cons p ps ih =>
      obtain ⟨⟨hs, -, hapart⟩, hoccurs⟩ := h
      have hrest := ih ⟨hapart, fun q hq => hoccurs q (List.mem_cons_of_mem p hq)⟩
      have hdrop := congrArg newlines (drop_eq_occurrence hs (hoccurs p List.mem_cons_self))
      rw [newlines_append, newlines_append] at hdrop
      rw [splice, newlines_append, newlines_append, hrest, hdrop, List.length_cons, Nat.cast_succ,
        add_mul, one_mul]
      omega

theorem splice_noNewline {s : Nat} {ps : List Nat} (h : Apart token.length text.length s ps)
    (hrep : '\n' ∉ rep) (htext : '\n' ∉ text.drop s) :
    '\n' ∉ splice token.length rep text s ps := by
  induction ps generalizing s with
  | nil => exact htext
  | cons p ps ih =>
      obtain ⟨hs, -, hps⟩ := h
      have hbehind : '\n' ∉ text.drop (p + token.length) := by
        rw [show p + token.length = s + (p + token.length - s) by omega, ← List.drop_drop]
        exact fun hmem => htext (List.mem_of_mem_drop hmem)
      rw [splice]
      intro hmem
      rcases List.mem_append.1 hmem with hmem | hmem
      · rcases List.mem_append.1 hmem with hmem | hmem
        · exact htext (List.mem_of_mem_take hmem)
        · exact hrep hmem
      · exact ih hps hbehind hmem

/-- With the line ends in the same places the text has them where it had them. -/
theorem splice_lineEnds (heq : rep.length = token.length)
    (hends : ∀ i : Nat, rep[i]? = some '\n' ↔ token[i]? = some '\n') {s : Nat} {ps : List Nat}
    (h : Occurring token text s ps) :
    (splice token.length rep text s ps).map (fun c => decide (c = '\n')) =
      (text.drop s).map (fun c => decide (c = '\n')) := by
  have hword : rep.map (fun c => decide (c = '\n')) = token.map (fun c => decide (c = '\n')) := by
    refine List.ext_getElem (by simpa using heq) fun i h₁ h₂ => ?_
    rw [List.length_map] at h₁ h₂
    have hi := hends i
    rw [List.getElem?_eq_getElem h₁, List.getElem?_eq_getElem h₂, Option.some.injEq,
      Option.some.injEq] at hi
    rw [List.getElem_map, List.getElem_map]
    exact decide_eq_decide.2 hi
  induction ps generalizing s with
  | nil => rfl
  | cons p ps ih =>
      obtain ⟨⟨hs, -, hapart⟩, hoccurs⟩ := h
      have hrest := ih ⟨hapart, fun q hq => hoccurs q (List.mem_cons_of_mem p hq)⟩
      rw [drop_eq_occurrence hs (hoccurs p List.mem_cons_self), splice, List.map_append,
        List.map_append, List.map_append, List.map_append, hword, hrest, List.append_assoc]

theorem newlines_eq_count (l : List Char) :
    newlines l = ((l.map fun c => decide (c = '\n')).count true : Nat) := by
  induction l with
  | nil => rfl
  | cons c l ih =>
      unfold newlines at ih ⊢
      by_cases hc : c = '\n'
      · rw [List.map_cons, hc, List.count_cons_self, decide_eq_true rfl, List.count_cons_self]
        omega
      · rw [List.map_cons, List.count_cons_of_ne hc, decide_eq_false hc,
          List.count_cons_of_ne Bool.false_ne_true]
        exact ih

end Spliced

/-! ## Replacing -/

/-- With no line ends behind `c` the newlines are those up to it. -/
theorem newlines_take_plain {made : List Char} {c : Nat} (h : '\n' ∉ made.drop c) (m : Nat) :
    newlines (made.take m) = newlines ((made.take c).take m) := by
  rw [List.take_take]
  rcases Nat.le_total m c with hle | hle
  · rw [Nat.min_eq_left hle]
  · rw [Nat.min_eq_right hle]
    have hadd := newlines_take_add made c (m - c)
    rw [Nat.add_sub_cancel' hle] at hadd
    rw [hadd, newlines_eq_zero fun hmem => h (List.mem_of_mem_take hmem), add_zero]

theorem replacedPosition_eq (s : DohString) (token rep : List Char) (rcount : Nat) :
    replacedPosition s token rep rcount =
      let expand : Int := rcount * ((rep.length : Int) - token.length)
      if (rep.length ≤ token.length → s.len + expand ≤ s.sp) ∧
          (token.length < rep.length → s.len ≤ s.sp) then s.sp + expand else s.sp := by
  unfold replacedPosition
  dsimp only
  by_cases hle : rep.length ≤ token.length
  · rw [if_pos hle]
    exact if_congr ⟨fun h => ⟨fun _ => h, fun hlt => absurd hlt (by omega)⟩,
      fun h => h.1 hle⟩ rfl rfl
  · rw [if_neg hle]
    exact if_congr ⟨fun h => ⟨fun hle' => absurd hle' hle, fun _ => h⟩,
      fun h => h.2 (by omega)⟩ rfl rfl

section Replacing

variable {s : DohString} {token rep made text : List Char} {rcount n m c : Nat} {ps : List Nat}

theorem splice_take (hc : c ≤ text.length) :
    (splice token.length rep text 0 (c :: ps)).take c = text.take c := by
  rw [splice, List.drop_zero, Nat.sub_zero, List.append_assoc,
    List.take_append_of_le_length (by rw [List.length_take]; omega), List.take_take, Nat.min_self]

/-- With no line ends from the first match on the newlines are those before it. -/
theorem splice_newlines_take (hps : Apart token.length text.length 0 (c :: ps))
    (hrep : '\n' ∉ rep) (htext : '\n' ∉ text.drop c) :
    newlines ((splice token.length rep text 0 (c :: ps)).take m) =
      newlines ((text.take c).take m) := by
  obtain ⟨-, hc, hrest⟩ := hps
  have hbehind : '\n' ∉ text.drop (c + token.length) := by
    rw [← List.drop_drop]
    exact fun hmem => htext (List.mem_of_mem_drop hmem)
  rw [← @splice_take token rep text c ps (by omega)]
  refine newlines_take_plain ?_ m
  rw [splice, List.drop_zero, Nat.sub_zero, List.append_assoc,
    List.drop_append_of_le_length (by rw [List.length_take]; omega),
    List.drop_of_length_le (by rw [List.length_take]; omega), List.nil_append]
  intro hmem
  rcases List.mem_append.1 hmem with hmem | hmem
  · exact hrep hmem
  · exact splice_noNewline hrest hrep hbehind hmem

/-- By how much the replacements make the text longer. -/
def expansion (token rep : List Char) (rcount : Nat) : Int :=
  rcount * ((rep.length : Int) - token.length)

theorem expansion_nonpos (hle : rep.length ≤ token.length) : expansion token rep rcount ≤ 0 :=
  mul_nonpos_of_nonneg_of_nonpos (Int.natCast_nonneg _) (by omega)

theorem expansion_nonneg (hle : token.length ≤ rep.length) : 0 ≤ expansion token rep rcount :=
  mul_nonneg (Int.natCast_nonneg _) (by omega)

theorem replacedPosition_same (hzero : expansion token rep rcount = 0) :
    replacedPosition s token rep rcount = s.sp := by
  unfold expansion at hzero
  unfold replacedPosition
  dsimp only
  rw [hzero, add_zero, add_zero, ite_self, ite_self]

/-- A position at the end goes along with it. -/
theorem replacedPosition_end (hend : s.sp = s.len) :
    replacedPosition s token rep rcount = s.len + expansion token rep rcount := by
  rw [replacedPosition_eq]
  refine (if_pos ⟨fun hle => ?_, fun _ => hend.ge⟩).trans (congrArg (· + _) hend)
  have := @expansion_nonpos token rep rcount hle
  unfold expansion at this
  omega

/-- A position that is not behind the first match stays. -/
theorem replacedPosition_before (hbefore : s.sp ≤ c) (hc : (c : Int) + token.length ≤ s.len)
    (htoken : 0 < token.length)
    (hstays : rep.length < token.length → s.sp < s.len + expansion token rep rcount) :
    replacedPosition s token rep rcount = s.sp := by
  rw [replacedPosition_eq]
  refine if_neg fun hmoved => ?_
  rcases Nat.lt_or_ge rep.length token.length with hlt | hge
  · exact absurd (hmoved.1 (by omega)) (not_le.2 (hstays hlt))
  · rcases Nat.eq_or_lt_of_le hge with heq | hlt
    · have hend := hmoved.1 (by omega)
      have := @expansion_nonneg token rep rcount hge
      unfold expansion at this
      omega
    · have := hmoved.2 hlt
      omega

/-- Otherwise it is in the new text, and where it was or on the same side of the match. -/
theorem replacedPosition_behind (hs : s.Placed) (hc : (c : Int) + token.length ≤ s.len)
    (hmoves : rep.length < token.length → s.sp < s.len + expansion token rep rcount ∨
      c ≤ s.sp + expansion token rep rcount) :
    ∃ m : Nat, replacedPosition s token rep rcount = m ∧
      m ≤ s.len + expansion token rep rcount ∧ (m = s.sp ∨ (c : Int) ≤ m ∧ c ≤ s.sp) := by
  obtain ⟨hnonneg, hle⟩ := hs
  have hshrinks := @expansion_nonpos token rep rcount
  have hgrows := @expansion_nonneg token rep rcount
  have hsp := replacedPosition_eq s token rep rcount
  rw [show (rcount : Int) * ((rep.length : Int) - token.length) = expansion token rep rcount
    from rfl] at hsp
  generalize expansion token rep rcount = E at *
  dsimp only at hsp
  split at hsp
  · rename_i hmoved
    refine ⟨(s.sp + E).toNat, ?_⟩
    rcases Nat.lt_trichotomy rep.length token.length with hlt | heq | hlt
    · have := hmoved.1 (by omega)
      have := hmoves hlt
      have := hshrinks (by omega)
      omega
    · have := hshrinks (by omega)
      have := hgrows (by omega)
      omega
    · have := hmoved.2 hlt
      have := hgrows (by omega)
      omega
  · rename_i hstay
    refine ⟨s.sp.toNat, by omega, ?_, Or.inl (by omega)⟩
    by_cases hshort : rep.length ≤ token.length
    · have : ¬ s.len + E ≤ s.sp := fun h =>
        hstay ⟨fun _ => h, fun hlt => absurd hlt (by omega)⟩
      omega
    · have := hgrows (by omega)
      omega

theorem unreplaced_keeps (hs : s.Placed) :
    Keeps s { s with sp := replacedPosition s token rep 0 } := by
  rw [replacedPosition_same (by rw [expansion, Nat.cast_zero, zero_mul])]
  exact ⟨hs, rfl⟩

theorem replaced_keeps (hn : s.sp = n) (hm : replacedPosition s token rep rcount = m)
    (hle : m ≤ made.length) (hline : newlines (made.take m) = newlines (s.text.take n)) :
    Keeps s { s with text := made, sp := replacedPosition s token rep rcount } := by
  refine ⟨⟨by rw [hm]; exact Int.natCast_nonneg m, ?_⟩, ?_⟩
  · rw [hm]
    exact Int.ofNat_le.2 hle
  · unfold DohString.offset
    dsimp only
    rw [hm, Int.toNat_natCast, hline, hn, Int.toNat_natCast]

theorem replace_keeps {s' : DohString} {flags : ReplaceFlags} (hs : s.Placed)
    (hkept : ReplaceKept s token rep flags) (h : replace s token rep flags = some s') :
    Keeps s s' := by
  obtain ⟨n, hn, hle⟩ := hs.exists_nat
  unfold replace at h
  obtain ⟨⟨made, rcount⟩, hmade, rfl⟩ := Option.map_eq_some_iff.1 h
  by_cases htoken : token = []
  · rw [stringReplace, replaceSimple, if_pos htoken] at hmade
    obtain ⟨rfl, rfl⟩ := Prod.mk.inj (Option.some.inj hmade)
    exact unreplaced_keeps hs
  · rcases stringReplace_spliced htoken hmade with ⟨-, rfl, rfl⟩ |
      ⟨c, ps, hhead, hps, hcount, hmade, hfewer⟩
    · exact unreplaced_keeps hs
    · obtain ⟨later, hlater⟩ := List.head?_eq_some_iff.1 hhead
      have hkept := hkept.resolve_left htoken
      rw [hlater] at hkept hfewer
      have hin : c + token.length ≤ s.text.length := hps.1.2.1
      have hc : (c : Int) + token.length ≤ s.len := by
        show (c : Int) + token.length ≤ s.text.length
        omega
      have hlen : (made.length : Int) = s.len + expansion token rep rcount := by
        rw [hmade, @splice_length_eq token rep _ _ _ hps.1, ← hcount, Nat.cast_zero, sub_zero]
        rfl
      have hexpand : rep.length < token.length →
          ((c :: later).length : Int) * ((rep.length : Int) - token.length) =
            expansion token rep rcount := fun hlt => by rw [expansion, hfewer hlt]
      rcases hkept with ⟨hend, hnl⟩ | ⟨heq, hends⟩ | ⟨hbefore, hstays⟩ |
        ⟨hrep, htext, hmoves⟩
      · refine replaced_keeps hn ((replacedPosition_end hend).trans hlen.symm) (Nat.le_refl _) ?_
        have hend : (n : Int) = s.text.length := hn.symm.trans hend
        rw [List.take_length, List.take_of_length_le (by omega), hmade,
          @splice_newlines token rep _ _ _ hps, hnl, sub_self, mul_zero, add_zero, List.drop_zero]
      · have hzero : expansion token rep rcount = 0 :=
          Int.le_antisymm (expansion_nonpos (by omega)) (expansion_nonneg (by omega))
        refine replaced_keeps hn ((replacedPosition_same hzero).trans hn) ?_ ?_
        · rw [hzero, add_zero] at hlen
          exact hle.trans (Int.ofNat_inj.1 hlen).ge
        · have hmap := splice_lineEnds heq hends hps
          rw [← hmade, List.drop_zero] at hmap
          rw [newlines_eq_count, newlines_eq_count, List.map_take, List.map_take, hmap]
      · refine replaced_keeps hn ((replacedPosition_before hbefore hc
          (List.length_pos_of_ne_nil htoken) fun hlt => ?_).trans hn) ?_ ?_
        · exact hexpand hlt ▸ hstays hlt
        · have hfront := congrArg List.length
            (@splice_take token rep s.text c ps (by omega))
          rw [← hmade, List.length_take, List.length_take] at hfront
          show n ≤ made.length
          omega
        · rw [hmade, ← Nat.min_eq_left (show n ≤ c by omega), ← List.take_take,
            splice_take (by omega), List.take_take]
      · obtain ⟨m, hm, hmle, hplace⟩ := replacedPosition_behind hs hc
          fun hlt => hexpand hlt ▸ hmoves hlt
        refine replaced_keeps hn hm (Int.ofNat_le.1 (hmle.trans hlen.ge)) ?_
        rw [hmade, splice_newlines_take hps.1 hrep htext, newlines_take_plain htext]
        rcases hplace with heq | ⟨hcm, hcn⟩
        · rw [show m = n by omega]
        · rw [List.take_take, List.take_take, Nat.min_eq_right (by omega),
            Nat.min_eq_right (by omega)]

end Replacing

/-! ## Runs -/

theorem kept_keeps {s s' : DohString} {op : Operation} (hs : s.Placed) (hkept : op.Kept s)
    (h : op.perform s = some s') : Keeps s s' := by
  cases op with
  | getc =>
      obtain ⟨⟨c, t⟩, hget, rfl⟩ := Option.map_eq_some_iff.1 h
      exact getc_keeps hs hget
  | ungetc ch =>
      cases h
      exact ungetc_keeps hs hkept
  | seek offset whence => exact seek_keeps hs h hkept
  | putc ch => exact putc_keeps hs h
  | write buffer =>
      obtain ⟨hplaced, hoffset⟩ := write_offset hs h
      refine ⟨hplaced, ?_⟩
      rw [hoffset, newlines_eq_zero hkept, sub_zero]
  | append data => exact append_keeps hs h
  | insert pos data => exact insert_keeps hs h
  | delitem pos => exact delitem_keeps hs h
  | delslice sindex eindex => exact delslice_keeps hs h
  | replace token rep flags => exact replace_keeps hs hkept h
  | chop =>
      cases h
      exact chop_keeps hs
  | copy =>
      cases h
      exact ⟨hs, rfl⟩

/-- In a run whose steps keep the offset it is in every state what it was in the first. -/
theorem keptRun_offset {s t : DohString} (hs : s.Placed) (h : KeptRun s t) :
    t.Placed ∧ t.offset = s.offset := by
  induction h with
  | start => exact ⟨hs, rfl⟩
  | step _ hkept hstep ih =>
      obtain ⟨hplaced, hoffset⟩ := ih
      obtain ⟨hplaced', hoffset'⟩ := kept_keeps hplaced hkept hstep
      exact ⟨hplaced', hoffset'.trans hoffset⟩

/-- Back to the beginning and over the first line. -/
theorem keptRun_offset_line : (DohString.mk ['a', '\n', 'b'] 2 1).Placed ∧
    (DohString.mk ['a', '\n', 'b'] 2 1).offset = (DohString.new ['a', '\n', 'b']).offset :=
  have hback : KeptRun (DohString.new ['a', '\n', 'b']) ⟨['a', '\n', 'b'], 0, 0⟩ :=
    @KeptRun.step _ _ _ (.seek 0 .set) (.start _) (by unfold Operation.Kept; decide) (by decide)
  have hone : KeptRun (DohString.new ['a', '\n', 'b']) ⟨['a', '\n', 'b'], 1, 0⟩ :=
    @KeptRun.step _ _ _ .getc hback trivial (by decide)
  have htwo : KeptRun (DohString.new ['a', '\n', 'b']) ⟨['a', '\n', 'b'], 2, 1⟩ :=
    @KeptRun.step _ _ _ .getc hone trivial (by decide)
  keptRun_offset (by unfold DohString.Placed; decide) htwo

/-- The line end at the position is not counted when the position goes ahead. -/
theorem seek_loses_line :
    (getc ⟨['a', '\n', 'b'], 0, 1⟩).map Prod.snd = some ⟨['a', '\n', 'b'], 1, 1⟩ ∧
      seek ⟨['a', '\n', 'b'], 1, 1⟩ 2 .set = some ⟨['a', '\n', 'b'], 2, 1⟩ ∧
      (DohString.mk ['a', '\n', 'b'] 1 1).offset = 1 ∧
      (DohString.mk ['a', '\n', 'b'] 2 1).offset = 0 := by
  decide

end Swig4Ada.Doh

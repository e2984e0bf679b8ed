import Swig4Ada.Swig.StripComments

/-!
# Which texts `Swig_strip_c_comments` strips right

A run of slashes before a comment is taken in pairs, and so is a run of stars before its end.
Where the run is odd, the slash or the star of the comment itself is passed over.
-/

namespace Swig4Ada.Swig

open Swig4Ada.Lib

/-! ## The comments of a text -/

theorem behindClose_first {b : List Char} (hb : ¬ ['*', '/'] <:+: b) (r : List Char) :
    behindClose (b ++ '*' :: '/' :: r) = some r := by
  induction b with
  | nil => rw [List.nil_append, behindClose, if_pos ⟨rfl, rfl⟩]
  | cons c b ih =>
      have hrest := ih (apart_tail hb)
      cases b with
      | nil =>
          rw [List.cons_append, List.nil_append, behindClose,
            if_neg fun h => absurd h.2 (by decide)]
          exact hrest
      | cons d b =>
          rw [List.cons_append, List.cons_append, behindClose, if_neg]
          · exact hrest
          · intro h
            rw [h.1] at hb
            exact apart_second hb h.2

theorem behindClose_eq {t r : List Char} (h : behindClose t = some r) :
    ∃ b, t = b ++ '*' :: '/' :: r := by
  induction t using behindClose.induct with
  | case1 => cases h
  | case2 => cases h
  | case3 c d t hclose =>
      rw [behindClose, if_pos hclose] at h
      rw [hclose.1, hclose.2, Option.some.inj h]
      exact ⟨[], rfl⟩
  | case4 c d t hne ih =>
      rw [behindClose, if_neg hne] at h
      obtain ⟨b, hb⟩ := ih h
      rw [hb]
      exact ⟨c :: b, rfl⟩

theorem withoutComments_open {t r : List Char} (h : behindClose t = some r) :
    withoutComments ('/' :: '*' :: t) = withoutComments r := by
  rw [withoutComments, if_pos ⟨rfl, rfl⟩]
  split
  · next r' hr' =>
      rw [List.tail_cons, h] at hr'
      rw [Option.some.inj hr']
  · next hr' => exact absurd (hr'.symm.trans h) (by intro h; cases h)

theorem withoutComments_unclosed {t : List Char} (h : behindClose t = none) :
    withoutComments ('/' :: '*' :: t) = '/' :: '*' :: t := by
  rw [withoutComments, if_pos ⟨rfl, rfl⟩]
  split
  · next r' hr' => exact absurd (hr'.symm.trans h) (by intro h; cases h)
  · rfl

theorem withoutComments_char {c : Char} {t : List Char} (h : ¬ ['/', '*'] <+: c :: t) :
    withoutComments (c :: t) = c :: withoutComments t := by
  rw [withoutComments, if_neg]
  rintro ⟨rfl, hd⟩
  obtain ⟨t, rfl⟩ := List.head?_eq_some_iff.1 hd
  exact h ⟨t, rfl⟩

theorem withoutComments_plain {p : List Char} (hp : ¬ ['/', '*'] <:+: p) (t : List Char) :
    withoutComments (p ++ '/' :: '*' :: t) = p ++ withoutComments ('/' :: '*' :: t) := by
  induction p with
  | nil => rfl
  | cons c p ih =>
      rw [List.cons_append, withoutComments_char, ih (apart_tail hp), List.cons_append]
      cases p with
      | nil =>
          intro h
          exact absurd (List.cons_prefix_cons.1 (List.cons_prefix_cons.1 h).2).1 (by decide)
      | cons d p =>
          intro h
          obtain ⟨hc, h⟩ := List.cons_prefix_cons.1 h
          rw [← hc] at hp
          exact apart_second hp (List.cons_prefix_cons.1 h).1.symm

theorem withoutComments_comment {p b : List Char} (hp : ¬ ['/', '*'] <:+: p)
    (hb : ¬ ['*', '/'] <:+: b) (r : List Char) :
    withoutComments (p ++ '/' :: '*' :: (b ++ '*' :: '/' :: r)) = p ++ withoutComments r := by
  rw [withoutComments_plain hp, withoutComments_open (behindClose_first hb r)]

theorem withoutComments_none {t : List Char} (h : ¬ HasComment t) : withoutComments t = t := by
  induction t with
  | nil => rw [withoutComments]
  | cons c t ih =>
      by_cases hopen : ['/', '*'] <+: c :: t
      · obtain ⟨u, hu⟩ := hopen
        rw [← hu] at h ⊢
        refine withoutComments_unclosed (t := u) ?_
        cases hclose : behindClose u with
        | none => rfl
        | some r =>
            obtain ⟨b, rfl⟩ := behindClose_eq hclose
            exact absurd ⟨[], b, r, rfl⟩ h
      · rw [withoutComments_char hopen, ih]
        rintro ⟨p, b, r, rfl⟩
        exact h ⟨c :: p, b, r, rfl⟩

/-- Behind the first `/*` a comment is complete where there is a `*/`. -/
theorem hasComment_open {p : List Char} (hp : ¬ ['/', '*'] <:+: p) {u : List Char} :
    HasComment (p ++ '/' :: '*' :: u) ↔ ['*', '/'] <:+: u := by
  refine ⟨fun h => ?_, fun ⟨b, r, hu⟩ => ⟨p, b, r, by rw [← hu, List.append_assoc]; rfl⟩⟩
  obtain ⟨p', b, r, heq⟩ := h
  induction p generalizing p' with
  | nil =>
      match p' with
      | [] =>
          obtain ⟨-, heq⟩ := List.cons.inj heq
          obtain ⟨-, heq⟩ := List.cons.inj heq
          exact ⟨b, r, by rw [heq, List.append_assoc]; rfl⟩
      | [x] =>
          obtain ⟨-, heq⟩ := List.cons.inj heq
          exact absurd (List.cons.inj heq).1 (by decide)
      | x :: y :: p' =>
          obtain ⟨-, heq⟩ := List.cons.inj heq
          obtain ⟨-, heq⟩ := List.cons.inj heq
          refine ⟨p' ++ '/' :: '*' :: b, r, ?_⟩
          rw [heq]
          simp
  | cons c p ih =>
      cases p' with
      | nil =>
          obtain ⟨hc, heq⟩ := List.cons.inj heq
          cases p with
          | nil => exact absurd (List.cons.inj heq).1 (by decide)
          | cons d p =>
              rw [hc] at hp
              exact absurd (List.cons.inj heq).1 (apart_second hp)
      | cons x p' => exact ih (apart_tail hp) p' (List.cons.inj heq).2

theorem not_hasComment {t : List Char} (h : ¬ ['/', '*'] <:+: t) : ¬ HasComment t := by
  intro ⟨p, b, r, heq⟩
  exact h ⟨p, b ++ '*' :: '/' :: r, by rw [heq, List.append_assoc]; rfl⟩

/-! ## The loop as two searches -/

/-- In the comment that began there. -/
def leave (commentBegin pos : Nat) : PairScan → StripScan
  | .found k => .found commentBegin (pos + k + 1)
  | .ended => .none
  | .cut => .overrun

/-- Outside a comment. -/
def enter (pos : Nat) (l : List Char) : PairScan → StripScan
  | .found k => leave (pos + k) (pos + k + 2) (scanPair '*' '/' (l.drop (k + 2)))
  | _ => .none

def StripScan.shift (n : Nat) : StripScan → StripScan
  | .none => .none
  | .found commentBegin commentEnd => .found (n + commentBegin) (n + commentEnd)
  | .overrun => .overrun

theorem leave_shift (commentBegin pos n : Nat) (s : PairScan) :
    leave commentBegin pos (s.shift n) = leave commentBegin (pos + n) s := by
  cases s with
  | found k => rw [PairScan.shift, leave, leave, Nat.add_assoc pos n k]
  | ended => rfl
  | cut => rfl

theorem shift_leave (commentBegin pos n : Nat) (s : PairScan) :
    (leave commentBegin pos s).shift n = leave (n + commentBegin) (n + pos) s := by
  cases s with
  | found k =>
      rw [leave, leave, StripScan.shift]
      congr 1
      omega
  | ended => rfl
  | cut => rfl

theorem enter_shift (pos : Nat) (q l : List Char) (s : PairScan) :
    enter pos (q ++ l) (s.shift q.length) = enter (pos + q.length) l s := by
  cases s with
  | found k =>
      rw [PairScan.shift, enter, enter, Nat.add_assoc q.length k 2, ← List.drop_drop,
        List.drop_left, ← Nat.add_assoc pos]
  | ended => rfl
  | cut => rfl

theorem shift_enter (n pos : Nat) (l : List Char) (s : PairScan) :
    (enter pos l s).shift n = enter (n + pos) l s := by
  cases s with
  | found k => rw [enter, enter, shift_leave, ← Nat.add_assoc, ← Nat.add_assoc, ← Nat.add_assoc]
  | ended => rfl
  | cut => rfl

theorem stripLoop_comment (commentBegin pos : Nat) (l : List Char) :
    stripLoop (some commentBegin) pos l = leave commentBegin pos (scanPair '*' '/' l) := by
  induction l using scanPair.induct (c := '*') (d := '/') generalizing pos with
  | case1 => rfl
  | case2 => rfl
  | case3 x hx => simp only [stripLoop, if_neg hx, scanPair, leave]
  | case4 t => rfl
  | case5 y t hy ih =>
      rw [scanPair_skip hy, leave_shift, ← ih]
      simp only [stripLoop, if_true, if_neg hy]
  | case6 x y t hx ih =>
      rw [scanPair_other hx, leave_shift, ← ih, stripLoop, if_neg hx]

theorem stripLoop_plain (pos : Nat) (l : List Char) :
    stripLoop none pos l = enter pos l (scanPair '/' '*' l) := by
  induction l using scanPair.induct (c := '/') (d := '*') generalizing pos with
  | case1 => rfl
  | case2 => rfl
  | case3 x hx => simp only [stripLoop, if_neg hx, scanPair, enter]
  | case4 t =>
      rw [scanPair_pair, enter, ← stripLoop_comment]
      simp only [stripLoop, if_true]
      rfl
  | case5 y t hy ih =>
      have h := enter_shift pos ['/', y] t (scanPair '/' '*' t)
      rw [scanPair_skip hy]
      refine Eq.trans ?_ h.symm
      rw [List.length_cons, List.length_singleton, ← ih]
      simp only [stripLoop, if_true, if_neg hy]
  | case6 x y t hx ih =>
      have h := enter_shift pos [x] (y :: t) (scanPair '/' '*' (y :: t))
      rw [scanPair_other hx]
      refine Eq.trans ?_ h.symm
      rw [List.length_singleton, ← ih, stripLoop, if_neg hx]

/-! ## What the loop passes over -/

/-- The search comes out of the text with its last character. -/
def Passes (q : List Char) : Prop :=
  ∀ r, scanPair '/' '*' (q ++ r) = (scanPair '/' '*' r).shift q.length

theorem passes_nil : Passes [] := fun r => (PairScan.shift_zero (scanPair '/' '*' r)).symm

theorem passes_append {p q : List Char} (hp : Passes p) (hq : Passes q) : Passes (p ++ q) := by
  intro r
  rw [List.append_assoc, hp, hq, PairScan.shift_shift, List.length_append]

theorem passes_even {p : List Char} (hp : ¬ ['/', '*'] <:+: p) (heven : Even (endRun '/' p)) :
    Passes p :=
  fun r => scanPair_even hp heven r

/-- The slash of the comment is taken with the one before it. -/
theorem passes_odd {p : List Char} (hp : ¬ ['/', '*'] <:+: p) (hodd : ¬ Even (endRun '/' p)) :
    Passes (p ++ ['/', '*']) := by
  intro r
  rw [List.append_assoc, List.cons_append, scanPair_odd hp hodd (by decide), List.cons_append,
    List.nil_append, scanPair_other (by decide), PairScan.shift_shift, List.length_append]
  rfl

theorem open_split (p u : List Char) : p ++ '/' :: '*' :: u = p ++ ['/', '*'] ++ u :=
  (List.append_assoc p ['/', '*'] u).symm

theorem stripLoop_passes {q : List Char} (h : Passes q) (r : List Char) :
    stripLoop none 0 (q ++ r) = (stripLoop none 0 r).shift q.length := by
  rw [stripLoop_plain, stripLoop_plain, h, enter_shift, shift_enter, Nat.add_comm]

theorem stripLoop_none {u : List Char} (h : ¬ ['/', '*'] <:+: u) : stripLoop none 0 u = .none := by
  rw [stripLoop_plain]
  by_cases heven : Even (endRun '/' u)
  · rw [scanPair_ended h heven]
    rfl
  · rw [scanPair_cut h heven]
    rfl

/-- The loop enters the comment behind an even run of slashes. -/
theorem stripLoop_open {p : List Char} (hp : ¬ ['/', '*'] <:+: p) (heven : Even (endRun '/' p))
    (u : List Char) : stripLoop none 0 (p ++ '/' :: '*' :: u) =
      leave p.length (p.length + 2) (scanPair '*' '/' u) := by
  rw [stripLoop_plain, scanPair_even hp heven, scanPair_pair, enter_shift, Nat.zero_add, enter]
  rfl

/-! ## The text without the comment that is found -/

/-- `stripped` before the `do`. -/
def cutOut (s : List Char) (commentBegin commentEnd : Nat) : List Char :=
  s.take commentBegin ++ s.drop (commentEnd + 1)

theorem cutOut_append (q r : List Char) (commentBegin commentEnd : Nat) :
    cutOut (q ++ r) (q.length + commentBegin) (q.length + commentEnd) =
      q ++ cutOut r commentBegin commentEnd := by
  rw [cutOut, List.take_length_add_append, Nat.add_assoc, ← List.drop_drop, List.drop_left,
    List.append_assoc, cutOut]

theorem stripLoop_found {s : List Char} {commentBegin commentEnd : Nat}
    (h : stripLoop none 0 s = .found commentBegin commentEnd) :
    commentBegin < commentEnd ∧ commentEnd < s.length := by
  rw [stripLoop_plain] at h
  cases hopen : scanPair '/' '*' s with
  | found k =>
      rw [hopen, enter] at h
      cases hclose : scanPair '*' '/' (s.drop (k + 2)) with
      | found j =>
          rw [hclose, leave] at h
          obtain ⟨rfl, rfl⟩ := StripScan.found.inj h
          have hk := scanPair_found hopen
          have hj := scanPair_found hclose
          rw [List.length_drop] at hj
          exact ⟨by omega, by omega⟩
      | ended => exact absurd h (by rw [hclose]; nofun)
      | cut => exact absurd h (by rw [hclose]; nofun)
  | ended => exact absurd h (by rw [hopen]; nofun)
  | cut => exact absurd h (by rw [hopen]; nofun)

theorem cutOut_bound {s : List Char} {commentBegin commentEnd : Nat}
    (h : stripLoop none 0 s = .found commentBegin commentEnd) :
    (cutOut s commentBegin commentEnd).length + (commentEnd + 1) = commentBegin + s.length := by
  obtain ⟨hlt, hend⟩ := stripLoop_found h
  rw [cutOut, List.length_append, List.length_take, List.length_drop]
  omega

/-- One comment that the loop finds is cut out. -/
def Cut (s s' : List Char) : Prop :=
  ∃ commentBegin commentEnd, stripLoop none 0 s = .found commentBegin commentEnd ∧
    s' = cutOut s commentBegin commentEnd

theorem cut_length {s s' : List Char} (h : Cut s s') : s'.length < s.length := by
  obtain ⟨b, e, hfound, rfl⟩ := h
  have hsize := cutOut_bound hfound
  obtain ⟨hlt, -⟩ := stripLoop_found hfound
  omega

theorem cuts_length {s t : List Char} (h : Relation.ReflTransGen Cut s t) :
    t.length ≤ s.length := by
  induction h with
  | refl => exact Nat.le_refl _
  | tail _ hcut ih => exact (Nat.le_of_lt (cut_length hcut)).trans ih

/-- What the loop passes over stays. -/
theorem cuts_keep {q r t : List Char} (hq : Passes q)
    (h : Relation.ReflTransGen Cut (q ++ r) t) : q <+: t := by
  induction h with
  | refl => exact List.prefix_append q r
  | tail _ hcut ih =>
      obtain ⟨r', rfl⟩ := ih
      obtain ⟨b, e, hfound, rfl⟩ := hcut
      rw [stripLoop_passes hq] at hfound
      cases hloop : stripLoop none 0 r' with
      | none => exact absurd hfound (by rw [hloop]; nofun)
      | overrun => exact absurd hfound (by rw [hloop]; nofun)
      | found b' e' =>
          rw [hloop] at hfound
          obtain ⟨rfl, rfl⟩ := StripScan.found.inj hfound
          rw [cutOut_append]
          exact List.prefix_append q _

/-! ## The calls -/

theorem strip_null {s : List Char} (h : stripLoop none 0 s = .none) (fuel : Nat) :
    swigStripCComments (fuel + 1) s = some .null := by
  rw [swigStripCComments, h]

theorem strip_overrun {s : List Char} (h : stripLoop none 0 s = .overrun) (fuel : Nat) :
    swigStripCComments (fuel + 1) s = some .overrun := by
  rw [swigStripCComments, h]

theorem strip_found {s : List Char} {commentBegin commentEnd : Nat}
    (h : stripLoop none 0 s = .found commentBegin commentEnd) (fuel : Nat) :
    swigStripCComments (fuel + 1) s = stripMore fuel (cutOut s commentBegin commentEnd) := by
  rw [swigStripCComments, h]
  rfl

theorem stripMore_ne_null (fuel : Nat) (s : List Char) : stripMore fuel s ≠ some .null := by
  induction fuel generalizing s with
  | zero => exact nofun
  | succ fuel ih =>
      rw [stripMore]
      cases swigStripCComments fuel s with
      | none => exact nofun
      | some result =>
          cases result with
          | overrun => exact nofun
          | null => exact nofun
          | text more => exact ih more

theorem loop_of_null {fuel : Nat} {s : List Char} (h : swigStripCComments fuel s = some .null) :
    stripLoop none 0 s = .none := by
  cases fuel with
  | zero => exact nomatch h
  | succ fuel =>
      cases hloop : stripLoop none 0 s with
      | none => rfl
      | overrun => exact absurd h (by rw [strip_overrun hloop]; nofun)
      | found b e => exact absurd h (by rw [strip_found hloop]; exact stripMore_ne_null _ _)

/-- What is returned is what is left after some comments are cut out. -/
theorem cuts_of_text (fuel : Nat) :
    (∀ s t, swigStripCComments fuel s = some (.text t) → Relation.TransGen Cut s t) ∧
    ∀ s t, stripMore fuel s = some (.text t) → Relation.ReflTransGen Cut s t := by
  induction fuel with
  | zero => exact ⟨fun s t h => (nomatch h), fun s t h => (nomatch h)⟩
  | succ fuel ih =>
      obtain ⟨ihstrip, ihmore⟩ := ih
      refine ⟨fun s t h => ?_, fun s t h => ?_⟩
      · cases hloop : stripLoop none 0 s with
        | none => exact absurd h (by rw [strip_null hloop]; nofun)
        | overrun => exact absurd h (by rw [strip_overrun hloop]; nofun)
        | found b e =>
            rw [strip_found hloop] at h
            exact .head' ⟨b, e, hloop, rfl⟩ (ihmore _ t h)
      · rw [stripMore] at h
        cases hstrip : swigStripCComments fuel s with
        | none => exact absurd h (by rw [hstrip]; nofun)
        | some result =>
            rw [hstrip] at h
            cases result with
            | overrun => exact nomatch h
            | null =>
                obtain rfl := Stripped.text.inj (Option.some.inj h)
                exact .refl
            | text more => exact (ihstrip s more hstrip).to_reflTransGen.trans (ihmore more t h)

/-- The function ends at the text with nothing more to cut out. -/
theorem text_of_cuts {s t : List Char} (h : Relation.TransGen Cut s t)
    (hdone : stripLoop none 0 t = .none) :
    ∃ n, ∀ fuel, n ≤ fuel → swigStripCComments fuel s = some (.text t) := by
  have hmore : ∀ fuel, 2 ≤ fuel → stripMore fuel t = some (.text t) := by
    intro fuel hfuel
    obtain ⟨fuel, rfl⟩ := Nat.exists_eq_add_of_le' hfuel
    rw [stripMore, strip_null hdone]
  induction h using Relation.TransGen.head_induction_on with
  | single hcut =>
      obtain ⟨b, e, hfound, heq⟩ := hcut
      refine ⟨3, fun fuel hfuel => ?_⟩
      obtain ⟨fuel, rfl⟩ := Nat.exists_eq_add_of_le' hfuel
      rw [strip_found hfound, ← heq, hmore _ (Nat.le_add_left 2 fuel)]
  | head hcut _ ih =>
      obtain ⟨b, e, hfound, heq⟩ := hcut
      obtain ⟨n, hn⟩ := ih
      refine ⟨n + 4, fun fuel hfuel => ?_⟩
      obtain ⟨fuel, rfl⟩ := Nat.exists_eq_add_of_le' hfuel
      show swigStripCComments (fuel + n + 3 + 1) _ = _
      rw [strip_found hfound, ← heq, stripMore, hn _ (by omega)]
      exact hmore _ (by omega)

theorem overrun_of_cuts {s t : List Char} (h : Relation.ReflTransGen Cut s t)
    (hover : stripLoop none 0 t = .overrun) :
    ∃ n, ∀ fuel, n ≤ fuel → swigStripCComments fuel s = some .overrun := by
  induction h using Relation.ReflTransGen.head_induction_on with
  | refl =>
      refine ⟨1, fun fuel hfuel => ?_⟩
      obtain ⟨fuel, rfl⟩ := Nat.exists_eq_add_of_le' hfuel
      exact strip_overrun hover fuel
  | head hcut _ ih =>
      obtain ⟨b, e, hfound, heq⟩ := hcut
      obtain ⟨n, hn⟩ := ih
      refine ⟨n + 2, fun fuel hfuel => ?_⟩
      obtain ⟨fuel, rfl⟩ := Nat.exists_eq_add_of_le' hfuel
      show swigStripCComments (fuel + n + 1 + 1) _ = _
      rw [strip_found hfound, ← heq, stripMore, hn _ (by omega)]

/-- Every call ends. -/
theorem strip_ends (s : List Char) :
    ∃ n, ∀ fuel, n ≤ fuel → (swigStripCComments fuel s).isSome := by
  have hrun : ∀ s, ∃ t, Relation.ReflTransGen Cut s t ∧
      (stripLoop none 0 t = .none ∨ stripLoop none 0 t = .overrun) := by
    intro s
    induction hlen : s.length using Nat.strong_induction_on generalizing s with
    | _ len ih =>
        cases hloop : stripLoop none 0 s with
        | none => exact ⟨s, .refl, .inl hloop⟩
        | overrun => exact ⟨s, .refl, .inr hloop⟩
        | found b e =>
            have hcut : Cut s (cutOut s b e) := ⟨b, e, hloop, rfl⟩
            obtain ⟨t, hsteps, hend⟩ := ih _ (hlen ▸ cut_length hcut) _ rfl
            exact ⟨t, .head hcut hsteps, hend⟩
  obtain ⟨t, hsteps, hnone | hover⟩ := hrun s
  · rcases Relation.reflTransGen_iff_eq_or_transGen.1 hsteps with rfl | hsteps
    · refine ⟨1, fun fuel hfuel => ?_⟩
      obtain ⟨fuel, rfl⟩ := Nat.exists_eq_add_of_le' hfuel
      rw [strip_null hnone]
      rfl
    · obtain ⟨n, hn⟩ := text_of_cuts hsteps hnone
      exact ⟨n, fun fuel hfuel => by rw [hn fuel hfuel]; rfl⟩
  · obtain ⟨n, hn⟩ := overrun_of_cuts hsteps hover
    exact ⟨n, fun fuel hfuel => by rw [hn fuel hfuel]; rfl⟩

/-! ## Texts without a complete comment -/

theorem quiet_loop {u : List Char} (h : Quiet u) :
    ¬ HasComment u ∧ stripLoop none 0 u = .none := by
  induction h with
  | plain noOpen => exact ⟨not_hasComment noOpen, stripLoop_none noOpen⟩
  | unclosed noOpen slashes noClose stars =>
      refine ⟨fun h => noClose ((hasComment_open noOpen).1 h), ?_⟩
      rw [stripLoop_open noOpen slashes, scanPair_ended noClose stars]
      rfl
  | missed noOpen slashes noClose rest ih =>
      refine ⟨fun h => noClose ((hasComment_open noOpen).1 h), ?_⟩
      rw [open_split, stripLoop_passes (passes_odd noOpen slashes), ih.2]
      rfl

theorem quiet_of_null {u : List Char} (hno : ¬ HasComment u)
    (hloop : stripLoop none 0 u = .none) : Quiet u := by
  induction hlen : u.length using Nat.strong_induction_on generalizing u with
  | _ len ih =>
      by_cases hopen : ['/', '*'] <:+: u
      · obtain ⟨p, v, rfl, noOpen⟩ := exists_first_pair hopen
        have noClose : ¬ ['*', '/'] <:+: v := fun h => hno ((hasComment_open noOpen).2 h)
        by_cases slashes : Even (endRun '/' p)
        · refine .unclosed noOpen slashes noClose ?_
          by_contra stars
          rw [stripLoop_open noOpen slashes, scanPair_cut noClose stars] at hloop
          exact nomatch hloop
        · refine .missed noOpen slashes noClose (ih v.length ?_ ?_ ?_ rfl)
          · rw [← hlen, List.length_append, List.length_cons, List.length_cons]
            omega
          · rintro ⟨p', b, r, rfl⟩
            exact noClose ⟨p' ++ '/' :: '*' :: b, r, by simp⟩
          · rw [open_split, stripLoop_passes (passes_odd noOpen slashes)] at hloop
            cases hv : stripLoop none 0 v with
            | none => rfl
            | overrun => exact absurd hloop (by rw [hv]; nofun)
            | found b e => exact absurd hloop (by rw [hv]; nofun)
      · exact .plain hopen

/-- Without a comment the scan stays within the text exactly where the text is quiet. -/
theorem strips_quiet_iff {u : List Char} (h : ¬ HasComment u) : StripsRight u ↔ Quiet u := by
  refine ⟨fun hright => ?_, fun hquiet => ⟨fun hcomment => absurd hcomment h, fun _ => ?_⟩⟩
  · obtain ⟨n, hn⟩ := hright.2 h
    exact quiet_of_null h (loop_of_null (hn n (Nat.le_refl n)))
  · refine ⟨1, fun fuel hfuel => ?_⟩
    obtain ⟨fuel, rfl⟩ := Nat.exists_eq_add_of_le' hfuel
    exact strip_null (quiet_loop hquiet).2 fuel

/-! ## Texts with comments -/

/-- One regular comment is cut out, behind anything the loop passes over. -/
theorem cut_comment {q p b : List Char} (hq : Passes q) (noOpen : ¬ ['/', '*'] <:+: p)
    (slashes : Even (endRun '/' p)) (noClose : ¬ ['*', '/'] <:+: b)
    (stars : Even (endRun '*' b)) (r : List Char) :
    Cut (q ++ (p ++ '/' :: '*' :: (b ++ '*' :: '/' :: r))) (q ++ p ++ r) := by
  have hloop := stripLoop_open noOpen slashes (b ++ '*' :: '/' :: r)
  rw [scanPair_even noClose stars, scanPair_pair, PairScan.shift, leave] at hloop
  refine ⟨q.length + p.length, q.length + (p.length + 2 + (b.length + 0) + 1), ?_, ?_⟩
  · rw [stripLoop_passes hq, hloop]
    rfl
  · rw [cutOut_append, cutOut, List.take_left, List.append_assoc]
    congr 2
    have hsplit : p ++ '/' :: '*' :: (b ++ '*' :: '/' :: r) =
        (p ++ '/' :: '*' :: (b ++ ['*', '/'])) ++ r := by simp
    rw [hsplit, List.drop_left']
    simp only [List.length_append, List.length_cons, List.length_nil]
    omega

/-- All comments of a regular text are cut out. -/
theorem cuts_regular {r : List Char} (h : Regular r) : ∀ q, Passes q →
    Relation.ReflTransGen Cut (q ++ r) (q ++ withoutComments r) ∧
      stripLoop none 0 (q ++ withoutComments r) = .none := by
  induction h with
  | quiet rest =>
      intro q hq
      obtain ⟨hno, hloop⟩ := quiet_loop rest
      rw [withoutComments_none hno, stripLoop_passes hq, hloop]
      exact ⟨.refl, rfl⟩
  | comment noOpen slashes noClose stars rest ih =>
      intro q hq
      obtain ⟨hsteps, hdone⟩ := ih _ (passes_append hq (passes_even noOpen slashes))
      rw [withoutComments_comment noOpen noClose]
      rw [List.append_assoc q _ (withoutComments _)] at hsteps hdone
      exact ⟨.head (cut_comment hq noOpen slashes noClose stars _) hsteps, hdone⟩

theorem strips_regular {t : List Char} (h : Regular t) : StripsRight t := by
  cases h with
  | quiet rest => exact (strips_quiet_iff (quiet_loop rest).1).2 rest
  | comment noOpen slashes noClose stars rest =>
      refine ⟨fun _ => ?_, fun hno => absurd ⟨_, _, _, rfl⟩ hno⟩
      obtain ⟨hsteps, hdone⟩ := cuts_regular rest _ (passes_even noOpen slashes)
      rw [withoutComments_comment noOpen noClose]
      exact text_of_cuts
        (.head' (cut_comment passes_nil noOpen slashes noClose stars _) hsteps) hdone

section One

variable {p b r : List Char}

/-- With one comment the text is stripped right only if both runs are even. -/
theorem one_of_right (noOpen : ¬ ['/', '*'] <:+: p) (noClose : ¬ ['*', '/'] <:+: b)
    (noMore : ¬ ['/', '*'] <:+: r)
    (h : StripsRight (p ++ '/' :: '*' :: (b ++ '*' :: '/' :: r))) :
    Even (endRun '/' p) ∧ Even (endRun '*' b) := by
  obtain ⟨n, hn⟩ := h.1 ⟨p, b, r, rfl⟩
  have htext := hn n (Nat.le_refl n)
  rw [withoutComments_comment noOpen noClose, withoutComments_none (not_hasComment noMore)]
    at htext
  have hcuts := (cuts_of_text n).1 _ _ htext
  have slashes : Even (endRun '/' p) := by
    by_contra slashes
    rw [open_split] at hcuts
    have hkeep := cuts_keep (passes_odd noOpen slashes) hcuts.to_reflTransGen
    exact noMore ((List.prefix_append_right_inj p).1 hkeep).isInfix
  refine ⟨slashes, ?_⟩
  by_contra stars
  obtain ⟨s', ⟨e₁, e₂, hfound, rfl⟩, hrest⟩ := Relation.TransGen.head'_iff.1 hcuts
  have hsize := cutOut_bound hfound
  have hle := cuts_length hrest
  rw [stripLoop_open noOpen slashes, scanPair_odd noClose stars (by decide),
    scanPair_other (by decide), PairScan.shift_shift, leave_shift] at hfound
  cases hscan : scanPair '*' '/' r with
  | found k =>
      rw [hscan, leave] at hfound
      obtain ⟨rfl, rfl⟩ := StripScan.found.inj hfound
      simp only [List.length_append, List.length_cons] at hsize hle
      omega
  | ended => exact absurd hfound (by rw [hscan]; nofun)
  | cut => exact absurd hfound (by rw [hscan]; nofun)

end One

/-- A text is stripped right where each comment has an even run of slashes before it and an even
run of stars at its end, and what comes behind the comments is quiet; without a comment, and
with one and no other opened, in no other case. -/
theorem strip_right (t : List Char) :
    (Regular t → StripsRight t) ∧
    (¬ HasComment t → (StripsRight t ↔ Quiet t)) ∧
    ∀ p b r, t = p ++ '/' :: '*' :: (b ++ '*' :: '/' :: r) → ¬ ['/', '*'] <:+: p →
      ¬ ['*', '/'] <:+: b → ¬ ['/', '*'] <:+: r →
      (StripsRight t ↔ Even (endRun '/' p) ∧ Even (endRun '*' b)) := by
  refine ⟨fun h => strips_regular h, fun h => strips_quiet_iff h, ?_⟩
  rintro p b r rfl noOpen noClose noMore
  refine ⟨one_of_right noOpen noClose noMore, fun ⟨slashes, stars⟩ => ?_⟩
  exact strips_regular (.comment noOpen slashes noClose stars (.quiet (.plain noMore)))

theorem plain_stripped : StripsRight ['a', '/', '*', 'b', '*', '/', 'c'] :=
  (strip_right _).1 (.comment (p := ['a']) (b := ['b']) (r := ['c']) (by decide) (by decide)
    (by decide) (by decide) (.quiet (.plain (by decide))))

/-- The star before the end of `/***/` is not looked at again. -/
theorem closing_missed : ¬ StripsRight ['/', '*', '*', '*', '/'] := by
  intro h
  obtain ⟨n, hn⟩ := h.1 ⟨[], ['*'], [], rfl⟩
  have hnull : swigStripCComments (n + 1) ['/', '*', '*', '*', '/'] = some .null :=
    strip_null rfl n
  exact absurd (hnull.symm.trans (hn (n + 1) (Nat.le_succ n))) nofun

end Swig4Ada.Swig

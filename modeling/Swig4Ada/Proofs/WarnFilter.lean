import Swig4Ada.Lib.Run
import Swig4Ada.Proofs.Replace
import Swig4Ada.Proofs.StringEscape
import Swig4Ada.Swig.WarnFilter

/-!
# Histories of the warning filter

The filter stands for a list of entries, the newest first. An entry is added in front, and
removing one takes out the newest entry with its sign and number; a warning is suppressed when
the newest entry for its number is negative or has no sign. The text of the filter is searched
for digits that an entry begins with, so that an entry for a number can hide that for a number
with which it begins, and a removal can leave the last digits of another entry.
-/

namespace Swig4Ada.Swig

open Swig4Ada.Doh
open Swig4Ada.Lib (Run)

/-! ## Entries -/

inductive Sign
  | minus
  | plus
deriving DecidableEq, Repr

def Sign.char : Sign → Char
  | minus => '-'
  | plus => '+'

/-- A warning number in a list, with its sign if it has one. -/
structure Entry where
  sign : Option Sign
  digits : List Char
  nonempty : digits ≠ []
  isDigits : ∀ c ∈ digits, isDigit c = true

namespace Entry

/-- The entry as it stands in a list. -/
def token (e : Entry) : List Char := (e.sign.map Sign.char).toList ++ e.digits

/-- A number without a sign is as one that is negative. -/
def mark (e : Entry) : Sign := e.sign.getD .minus

/-- The entry as it stands in the filter. -/
def text (e : Entry) : List Char := e.mark.char :: e.digits

def number (e : Entry) : Nat :=
  e.digits.foldl (fun n c => 10 * n + (c.toNat - '0'.toNat)) 0

/-- Removing `r` can take out `e`. -/
def same (r e : Entry) : Bool := decide (e.mark = r.mark) && decide (e.number = r.number)

/-- The text of `e` begins with that of `r`. -/
def begins (r e : Entry) : Bool := decide (e.mark = r.mark) && r.digits.isPrefixOf e.digits

end Entry

/-- A call of `Swig_warnfilter` with a list of warning numbers. -/
structure Edit where
  wlist : List Char
  entries : List Entry
  add : Bool
  lists : filterTokens wlist = entries.map Entry.token

/-- The entries after a call. -/
def Edit.record (E : Edit) (fs : List Entry) : List Entry :=
  E.entries.foldl (fun fs r => if E.add then r :: fs else fs.eraseP r.same) fs

/-- The newest entry for a number says whether its warning is suppressed. -/
def suppressed (fs : List Entry) (n : Nat) : Bool :=
  (fs.find? fun e => e.number = n).any fun e => e.mark = .minus

/-- The newest entry with the text of `r` at its beginning, and the newest one with its sign
and number, are written like `r`. -/
def Removable (fs : List Entry) (r : Entry) : Prop :=
  ∀ e, fs.find? r.begins = some e ∨ fs.find? r.same = some e → e.digits = r.digits

/-- All of some entries can be removed one after the other. -/
def AllRemovable : List Entry → List Entry → Prop
  | [], _ => True
  | r :: rs, fs => Removable fs r ∧ AllRemovable rs (fs.eraseP r.same)

def Edit.Clean (E : Edit) (fs : List Entry) : Prop := E.add = false → AllRemovable E.entries fs

/-- The newest entry that begins with the digits of a number is as good as that for the number
itself. -/
def Visible (fs : List Entry) (n : Nat) : Prop :=
  (fs.find? fun e => (printedNumber n).isPrefixOf e.digits).any (fun e => e.mark = .minus) =
    suppressed fs n

def filterText (fs : List Entry) : List Char := fs.flatMap Entry.text

/-! ## Occurrences -/

variable {text temp d w : List Char} {fs us : List Entry} {e r : Entry} {g : Sign} {c f k S n : Nat}

theorem sign_char (g : Sign) : isDigit g.char = false := by
  cases g <;> rfl

theorem char_injective {g' : Sign} (h : g.char = g'.char) : g = g' := by
  cases g <;> cases g' <;> first | rfl | exact absurd h (by decide)

theorem filterText_cons :
    filterText (e :: fs) = e.mark.char :: (e.digits ++ filterText fs) := List.flatMap_cons

theorem filterText_append : filterText (us ++ fs) = filterText us ++ filterText fs :=
  List.flatMap_append

theorem filterText_head (fs : List Entry) (hw : ∀ c ∈ w.head?, isDigit c = false) :
    ∀ c ∈ (filterText fs ++ w).head?, isDigit c = false := by
  cases fs with
  | nil => exact hw
  | cons e fs =>
      intro c hc
      obtain rfl : e.mark.char = c := by simpa [filterText_cons] using hc
      exact sign_char e.mark

/-- Digits that a text begins with are those of its first number. -/
theorem digits_longer {u : List Char} (hd : ∀ c ∈ d, isDigit c = true)
    (hw : ∀ c ∈ w.head?, isDigit c = false) (h : d <+: u ++ w) : d <+: u := by
  rcases List.prefix_or_prefix_of_prefix h (List.prefix_append u w) with h' | ⟨t, rfl⟩
  · exact h'
  · cases t with
    | nil => rw [List.append_nil]
    | cons x t =>
        obtain ⟨z, rfl⟩ := (List.prefix_append_right_inj u).1 h
        have hx := hd x (List.mem_append_right u List.mem_cons_self)
        rw [hw x rfl] at hx
        exact absurd hx Bool.false_ne_true

/-- A sign and digits are found at the beginning of an entry only. -/
theorem not_prefix_inside (hd : ∀ c ∈ d, isDigit c = true)
    (hw : ∀ c ∈ w.head?, isDigit c = false)
    (hus : ∀ u ∈ us, u.mark = g → ¬ d <+: u.digits) :
    ∀ k < (filterText us).length, ¬ g.char :: d <+: (filterText us ++ w).drop k := by
  induction us with
  | nil => exact fun k hk => absurd hk (Nat.not_lt_zero k)
  | cons u us ih =>
      intro k hk h
      have hrest := filterText_head us hw
      rw [filterText_cons, List.cons_append, List.append_assoc] at h
      cases k with
      | zero =>
          obtain ⟨hmark, hp⟩ := List.cons_prefix_cons.1 h
          exact hus u List.mem_cons_self (char_injective hmark.symm) (digits_longer hd hrest hp)
      | succ j =>
          rw [List.drop_succ_cons] at h
          rcases Nat.lt_or_ge j u.digits.length with hj | hj
          · rw [List.drop_append_of_le_length hj.le, List.drop_eq_getElem_cons hj] at h
            have hdigit := u.isDigits _ (List.getElem_mem hj)
            rw [← (List.cons_prefix_cons.1 h).1, sign_char] at hdigit
            exact absurd hdigit Bool.false_ne_true
          · rw [List.drop_append, List.drop_eq_nil_of_le hj, List.nil_append] at h
            rw [filterText_cons, List.length_cons, List.length_append] at hk
            exact ih (fun u hu => hus u (List.mem_cons_of_mem _ hu)) _ (by omega) h

theorem digits_not_first (hne : d ≠ []) (hd : ∀ c ∈ d, isDigit c = true) :
    ¬ d <+: filterText fs := by
  intro h
  have hnil : d <+: [] := by
    refine digits_longer hd (w := filterText fs) ?_ h
    rw [← List.append_nil (filterText fs)]
    exact filterText_head _ nofun
  exact hne (List.prefix_nil.1 hnil)

/-! ## Removing an entry -/

theorem same_begins (hs : r.same e = true) (hd : e.digits = r.digits) : r.begins e = true := by
  rw [Entry.same, Bool.and_eq_true, decide_eq_true_eq] at hs
  rw [Entry.begins, hd, decide_eq_true hs.1, Bool.true_and]
  exact List.isPrefixOf_iff_prefix.2 (List.prefix_refl _)

/-- Before the newest entry that begins like `r` there is none that `r` takes out. -/
theorem not_same_of_not_begins (hr : Removable (us ++ fs) r) (hus : ∀ u ∈ us, r.begins u = false) :
    ∀ u ∈ us, r.same u = false := by
  intro u hu
  rw [← Bool.not_eq_true]
  intro hsame
  obtain ⟨e, he⟩ : ∃ e, us.find? r.same = some e :=
    Option.isSome_iff_exists.1 (List.find?_isSome.2 ⟨u, hu, hsame⟩)
  have hfind : (us ++ fs).find? r.same = some e := by rw [List.find?_append, he, Option.some_or]
  have hbegins := same_begins (List.find?_some he) (hr e (Or.inr hfind))
  rw [hus e (List.mem_of_find?_eq_some he)] at hbegins
  exact Bool.false_ne_true hbegins

theorem not_begins (h : r.begins e = false) (hmark : e.mark = r.mark) :
    ¬ r.digits <+: e.digits := by
  rw [Entry.begins, decide_eq_true hmark, Bool.true_and, ← Bool.not_eq_true,
    List.isPrefixOf_iff_prefix] at h
  exact h

theorem erase_text (hr : Removable fs r) :
    eraseFirst r.text (filterText fs) = filterText (fs.eraseP r.same) := by
  have hdigits := r.isDigits
  cases hfind : fs.find? r.begins with
  | none =>
      have hnone : ∀ u ∈ fs, r.begins u = false := by
        simpa only [Bool.not_eq_true] using List.find?_eq_none.1 hfind
      have hr' : Removable (fs ++ []) r := by rwa [List.append_nil]
      have hsame : ∀ u ∈ fs, r.same u = false := not_same_of_not_begins hr' hnone
      have hno : strstr r.text (filterText fs) = none := by
        refine strstr_eq_none.2 fun k h => ?_
        rcases Nat.lt_or_ge k (filterText fs).length with hk | hk
        · refine not_prefix_inside hdigits (w := []) nofun
            (fun u hu hmark => not_begins (hnone u hu) hmark) k hk ?_
          rwa [List.append_nil]
        · rw [List.drop_eq_nil_of_le hk] at h
          exact List.cons_ne_nil _ _ (List.prefix_nil.1 h)
      rw [eraseFirst, hno, List.eraseP_of_forall_not fun u hu => by
        rw [hsame u hu]
        exact Bool.false_ne_true]
  | some e =>
      obtain ⟨hbegins, us, ws, rfl, hus⟩ := List.find?_eq_some_iff_append.1 hfind
      have hnone : ∀ u ∈ us, r.begins u = false := by
        simpa only [Bool.not_eq_true'] using hus
      have hd : e.digits = r.digits := hr e (Or.inl hfind)
      have hmark : e.mark = r.mark := by
        rw [Entry.begins, Bool.and_eq_true, decide_eq_true_eq] at hbegins
        exact hbegins.1
      have hsame : r.same e = true := by
        rw [Entry.same, Entry.number, Entry.number, hmark, hd]
        simp
      have htext : filterText (us ++ e :: ws) = filterText us ++ (r.text ++ filterText ws) := by
        rw [filterText_append, filterText_cons, hmark, hd]
        rfl
      have hfound : strstr r.text (filterText (us ++ e :: ws)) =
          some (filterText us).length := by
        refine strstr_eq_some ?_ fun i hi h => ?_
        · rw [htext, List.drop_left]
          exact List.prefix_append _ _
        · rw [filterText_append] at h
          refine not_prefix_inside hdigits ?_
            (fun u hu hmark => not_begins (hnone u hu) hmark) i hi h
          rw [← List.append_nil (filterText (e :: ws))]
          exact filterText_head _ nofun
      have herase : (us ++ e :: ws).eraseP r.same = us ++ ws := by
        rw [List.eraseP_append_right _ fun u hu => by
          rw [not_same_of_not_begins hr hnone u hu]
          exact Bool.false_ne_true, List.eraseP_cons_of_pos hsame]
      rw [eraseFirst, hfound, herase, htext, filterText_append]
      simp only [List.take_left, ← List.drop_drop, List.drop_left]

/-! ## Calls of `Swig_warnfilter` -/

theorem token_text (add : Bool) :
    warnfilterToken add text e.token =
      if add then e.text ++ text
      else ((stringReplace text e.text [] { first := true }).map Prod.fst).getD text := by
  obtain ⟨sign, digits, hne, hdigits⟩ := e
  cases digits with
  | nil => exact absurd rfl hne
  | cons x digits =>
      have hx := hdigits x List.mem_cons_self
      cases sign with
      | none =>
          have hunsigned :
              (Entry.token ⟨none, x :: digits, hne, hdigits⟩).head?.any isDigit = true := hx
          rw [warnfilterToken, if_pos (Or.inl hunsigned), hunsigned]
          rfl
      | some g => cases g <;> rfl

theorem warnfilterToken_add :
    warnfilterToken true (filterText fs) e.token = filterText (e :: fs) := by
  rw [token_text, if_pos rfl, filterText_cons]
  rfl

theorem warnfilterToken_remove (hr : Removable fs r) :
    warnfilterToken false (filterText fs) r.token = filterText (fs.eraseP r.same) := by
  have hne : r.text ≠ [] := List.cons_ne_nil _ _
  rw [token_text, if_neg Bool.false_ne_true, stringReplace_first hne, Option.getD_some,
    erase_text hr]

theorem warnfilterTokens_remove {rs : List Entry} (h : AllRemovable rs fs) :
    (rs.map Entry.token).foldl (warnfilterToken false) (filterText fs) =
      filterText (rs.foldl (fun fs r => fs.eraseP r.same) fs) := by
  induction rs generalizing fs with
  | nil => rfl
  | cons r rs ih =>
      rw [List.map_cons, List.foldl_cons, List.foldl_cons, warnfilterToken_remove h.1, ih h.2]

theorem warnfilterTokens_add {rs : List Entry} :
    (rs.map Entry.token).foldl (warnfilterToken true) (filterText fs) =
      filterText (rs.foldl (fun fs r => r :: fs) fs) := by
  induction rs generalizing fs with
  | nil => rfl
  | cons r rs ih =>
      rw [List.map_cons, List.foldl_cons, List.foldl_cons, warnfilterToken_add, ih]

/-- A call does to the text what it does to the entries. -/
theorem swigWarnfilter_text {filter : Option (List Char)} {E : Edit}
    (hfilter : filter.getD [] = filterText fs) (hE : E.Clean fs) :
    swigWarnfilter E.wlist E.add filter = some (filterText (E.record fs)) := by
  obtain ⟨wlist, entries, add, hlists⟩ := E
  rw [swigWarnfilter, hfilter, hlists, Edit.record]
  cases add with
  | false => exact congrArg some (warnfilterTokens_remove (hE rfl))
  | true => exact congrArg some warnfilterTokens_add

/-! ## Calls of `Swig_warning` -/

/-- The digits of a number, with a sign before them. -/
def Signed (text temp : List Char) (c : Nat) : Prop :=
  0 < c ∧ temp <+: text.drop c ∧ (text[c - 1]? = some '-' ∨ text[c - 1]? = some '+')

/-- The loop ends at the first number that begins with the digits. -/
theorem filterLoop_first {fuel : Nat} (hne : temp ≠ []) (htemp : ∀ x ∈ temp, isDigit x = true)
    (hzero : ¬ temp <+: text) (hS : temp <+: text.drop S) (hpos : 0 < S)
    (hsign : text[S - 1]? = some g.char) (hfirst : ∀ c < S, ¬ Signed text temp c) (hf : f ≤ S)
    (hfuel : text.length < fuel + f) :
    filterLoop text temp fuel f = some (decide (g = .plus)) := by
  have hin : S + temp.length ≤ text.length := by
    have hlen := hS.length_le
    have := List.length_pos_of_ne_nil hne
    rw [List.length_drop] at hlen
    omega
  have hlen := List.length_pos_of_ne_nil hne
  induction fuel generalizing f with
  | zero => omega
  | succ fuel ih =>
      rw [filterLoop, if_neg (by omega)]
      cases hfind : strstr temp (text.drop f) with
      | none =>
          refine absurd ?_ (strstr_eq_none.1 hfind (S - f))
          rwa [List.drop_drop, Nat.add_sub_cancel' hf]
      | some k =>
          have hoccurs := (strstr_sound hfind).1
          rw [List.drop_drop] at hoccurs
          have hle : f + k ≤ S := by
            by_contra hlt
            refine strstr_first hfind (i := S - f) (by omega) ?_
            rwa [List.drop_drop, Nat.add_sub_cancel' hf]
          have hc : f + k ≠ 0 := by
            intro h
            rw [h, List.drop_zero] at hoccurs
            exact hzero hoccurs
          simp only [if_neg hc]
          rcases Nat.lt_or_ge (f + k) S with hlt | hge
          · have hnot := hfirst _ hlt
            rw [if_neg fun h => hnot ⟨by omega, hoccurs, Or.inl h⟩,
              if_neg fun h => hnot ⟨by omega, hoccurs, Or.inr h⟩]
            refine ih ?_ (by omega)
            -- the sign before the first number is behind the digits that were found
            by_contra hover
            have hdigit : text[S - 1]? = temp[S - 1 - (f + k)]? := by
              obtain ⟨t, ht⟩ := hoccurs
              have hlt' : S - 1 - (f + k) < temp.length := by omega
              have hget : (temp ++ t)[S - 1 - (f + k)]? = temp[S - 1 - (f + k)]? :=
                List.getElem?_append_left hlt'
              rw [← hget, ht, List.getElem?_drop]
              congr 1
              omega
            rw [hsign] at hdigit
            have hx := htemp _ (List.mem_of_getElem? hdigit.symm)
            rw [sign_char] at hx
            exact Bool.false_ne_true hx
          · obtain rfl : f + k = S := by omega
            rw [hsign]
            cases g <;> rfl

theorem filterLoop_none {fuel : Nat} (hzero : ¬ temp <+: text)
    (hno : ∀ c, ¬ Signed text temp c) : filterLoop text temp fuel f = some true := by
  induction fuel generalizing f with
  | zero => rfl
  | succ fuel ih =>
      rw [filterLoop]
      split
      · rfl
      · cases hfind : strstr temp (text.drop f) with
        | none => rfl
        | some k =>
            have hoccurs := (strstr_sound hfind).1
            rw [List.drop_drop] at hoccurs
            have hc : f + k ≠ 0 := by
              intro h
              rw [h, List.drop_zero] at hoccurs
              exact hzero hoccurs
            simp only [if_neg hc]
            rw [if_neg fun h => hno _ ⟨by omega, hoccurs, Or.inl h⟩,
              if_neg fun h => hno _ ⟨by omega, hoccurs, Or.inr h⟩, ih]

theorem getElem?_before {u : List Char} {x : Char} (h : x :: u <+: text.drop k) :
    text[k]? = some x ∧ u <+: text.drop (k + 1) := by
  obtain ⟨t, ht⟩ := h
  constructor
  · have hget : (text.drop k)[0]? = some x := by
      rw [← ht]
      rfl
    rwa [List.getElem?_drop] at hget
  · refine ⟨t, ?_⟩
    rw [← List.drop_drop, ← ht]
    rfl

theorem prefix_before {u : List Char} {x : Char} (h : text[k]? = some x)
    (hu : u <+: text.drop (k + 1)) : x :: u <+: text.drop k := by
  obtain ⟨hk, hx⟩ := List.getElem?_eq_some_iff.1 h
  rw [List.drop_eq_getElem_cons hk, hx]
  exact List.cons_prefix_cons.2 ⟨rfl, hu⟩

/-- A signed number of the filter is at the beginning of an entry. -/
theorem not_signed (hd : ∀ x ∈ d, isDigit x = true) (hus : ∀ u ∈ us, ¬ d <+: u.digits)
    (hw : ∀ x ∈ w.head?, isDigit x = false) (hc : c ≤ (filterText us).length) :
    ¬ Signed (filterText us ++ w) d c := by
  rintro ⟨hpos, hoccurs, hsign⟩
  obtain ⟨k, rfl⟩ : ∃ k, c = k + 1 := ⟨c - 1, by omega⟩
  rw [Nat.add_sub_cancel] at hsign
  rcases hsign with hsign | hsign
  · exact not_prefix_inside (g := .minus) hd hw (fun u hu _ => hus u hu) k hc
      (prefix_before hsign hoccurs)
  · exact not_prefix_inside (g := .plus) hd hw (fun u hu _ => hus u hu) k hc
      (prefix_before hsign hoccurs)

theorem filterLoop_text (fs : List Entry) (hne : d ≠ []) (hd : ∀ x ∈ d, isDigit x = true) :
    filterLoop (filterText fs) d ((filterText fs).length + 1) 0 =
      some (!(fs.find? fun e => d.isPrefixOf e.digits).any fun e => e.mark = .minus) := by
  have hzero : ¬ d <+: filterText fs := digits_not_first hne hd
  cases hfind : fs.find? fun e => d.isPrefixOf e.digits with
  | none =>
      have hnone : ∀ u ∈ fs, ¬ d <+: u.digits := by
        simpa only [List.isPrefixOf_iff_prefix] using List.find?_eq_none.1 hfind
      refine filterLoop_none hzero fun c hc => ?_
      rcases Nat.lt_or_ge (filterText fs).length c with hlt | hle
      · have hoccurs := hc.2.1
        rw [List.drop_eq_nil_of_le hlt.le] at hoccurs
        exact hne (List.prefix_nil.1 hoccurs)
      · refine not_signed (w := []) hd hnone nofun hle ?_
        rwa [List.append_nil]
  | some e =>
      obtain ⟨hbegins, us, ws, rfl, hus⟩ := List.find?_eq_some_iff_append.1 hfind
      have hnone : ∀ u ∈ us, ¬ d <+: u.digits := by
        intro u hu h
        rw [← List.isPrefixOf_iff_prefix] at h
        have := hus u hu
        rw [h] at this
        exact Bool.false_ne_true this
      have htext : filterText (us ++ e :: ws) =
          filterText us ++ e.mark.char :: (e.digits ++ filterText ws) := by
        rw [filterText_append, filterText_cons]
      have hdigits : d <+: e.digits ++ filterText ws :=
        (List.isPrefixOf_iff_prefix.1 hbegins).trans (List.prefix_append _ _)
      rw [htext] at hzero ⊢
      have hbefore : e.mark.char :: d <+: (filterText us ++ e.mark.char ::
          (e.digits ++ filterText ws)).drop (filterText us).length := by
        rw [List.drop_left]
        exact List.cons_prefix_cons.2 ⟨rfl, hdigits⟩
      obtain ⟨hsign, hoccurs⟩ := getElem?_before hbefore
      rw [filterLoop_first hne hd hzero hoccurs (Nat.succ_pos _) hsign
        (fun c hc => not_signed hd hnone (fun x hx => ?_) (by omega)) (Nat.zero_le _) (by omega)]
      · rw [Option.any_some]
        cases e.mark <;> rfl
      · obtain rfl : e.mark.char = x := by simpa using hx
        exact sign_char e.mark

/-! ## Histories -/

/-- The text of the filter, and the entries it stands for. -/
structure FilterState where
  text : Option (List Char)
  entries : List Entry

def editStep (E : Edit) (s : FilterState) : Option FilterState :=
  some ⟨swigWarnfilter E.wlist E.add s.text, E.record s.entries⟩

/-- A warning that is to be written. -/
def warningDue (silence warnall : Bool) (fs : List Entry) (n : Nat) : Bool :=
  !silence && (warnall || !suppressed fs n)

theorem find?_eraseP {p q : Entry → Bool} (h : ∀ x, q x = true → p x = false) :
    (fs.eraseP q).find? p = fs.find? p := by
  induction fs with
  | nil => rfl
  | cons e fs ih =>
      cases hq : q e with
      | true => rw [List.eraseP_cons_of_pos hq, List.find?_cons, h e hq]
      | false => rw [List.eraseP_cons_of_neg (by simp [hq]), List.find?_cons, List.find?_cons, ih]

/-- Entries for other numbers say nothing about a number. -/
theorem suppressed_record {E : Edit} (h : ∀ r ∈ E.entries, r.number ≠ n) :
    suppressed (E.record fs) n = suppressed fs n := by
  obtain ⟨wlist, entries, add, hlists⟩ := E
  replace h : ∀ r ∈ entries, r.number ≠ n := h
  show suppressed (entries.foldl (fun fs r => if add then r :: fs else fs.eraseP r.same) fs) n =
    suppressed fs n
  clear hlists
  induction entries generalizing fs with
  | nil => rfl
  | cons r rs ih =>
      have hr := h r List.mem_cons_self
      rw [List.foldl_cons, ih fun r hr => h r (List.mem_cons_of_mem _ hr), suppressed, suppressed]
      cases add with
      | true => rw [if_pos rfl, List.find?_cons, decide_eq_false hr]
      | false =>
          rw [if_neg Bool.false_ne_true, find?_eraseP fun e he => ?_]
          rw [Entry.same, Bool.and_eq_true, decide_eq_true_eq, decide_eq_true_eq] at he
          rw [he.2]
          exact decide_eq_false hr

theorem printedNumber_digits : ∀ x ∈ printedNumber n, isDigit x = true := by
  intro x hx
  obtain ⟨k, hk, rfl⟩ := digitChar_toDigits (by decide) n x hx
  interval_cases k <;> rfl

theorem printedNumber_ne_nil : printedNumber n ≠ [] := Nat.toDigits_ne_nil

/-- What `Swig_warning` does with the text of some entries. -/
theorem swigWarning_text {filter : Option (List Char)} (hfilter : filter.getD [] = filterText fs)
    {silence warnall : Bool} {wnum : Int} {msg : List Char} (hn : warningNumber wnum msg = n) :
    swigWarning silence warnall filter wnum msg = some (!silence && (warnall ||
      !(fs.find? fun e => (printedNumber n).isPrefixOf e.digits).any fun e => e.mark = .minus)) := by
  cases silence with
  | true => rfl
  | false =>
      rw [swigWarning, if_neg Bool.false_ne_true, hn]
      have hloop := filterLoop_text fs (printedNumber_ne_nil (n := n)) printedNumber_digits
      cases filter with
      | none =>
          have hnil : fs = [] := by
            cases fs with
            | nil => rfl
            | cons e fs => exact absurd hfilter.symm (List.cons_ne_nil _ _)
          rw [hnil]
          simp
      | some filter =>
          obtain rfl : filter = filterText fs := hfilter
          simp only [hloop, Option.map_some, Bool.not_false, Bool.true_and]

/-- After calls that remove no more and no less than an entry, the text is that of the
entries, no character before it is read, and a warning is suppressed as the newest entry for
its number says exactly when that entry is visible, whatever happens to other numbers. -/
theorem warnfilter_run {trace : List (FilterState × Edit)} {s : FilterState}
    (hrun : Run editStep ⟨none, []⟩ trace s) (hclean : ∀ x ∈ trace, x.2.Clean x.1.entries)
    (silence warnall : Bool) (wnum : Int) (msg : List Char) (n : Nat)
    (hn : warningNumber wnum msg = n) :
    s.text.getD [] = filterText s.entries ∧
      (∃ written, swigWarning silence warnall s.text wnum msg = some written ∧
        (written = warningDue silence warnall s.entries n ↔
          silence = true ∨ warnall = true ∨ Visible s.entries n)) ∧
      ∀ E : Edit, E.Clean s.entries → (∀ r ∈ E.entries, r.number ≠ n) →
        Visible s.entries n → Visible (E.record s.entries) n →
          swigWarning silence warnall (swigWarnfilter E.wlist E.add s.text) wnum msg =
            swigWarning silence warnall s.text wnum msg := by
  have htext : s.text.getD [] = filterText s.entries := by
    refine (hrun.invariant (I := fun s => s.text.getD [] = filterText s.entries)
      (C := fun s E => E.Clean s.entries) rfl ?_ hclean).1
    intro s E s' hs hE hstep
    cases hstep
    exact congrArg (Option.getD · []) (swigWarnfilter_text hs hE)
  refine ⟨htext, ⟨_, swigWarning_text htext hn, ?_⟩, fun E hE hother hv hv' => ?_⟩
  · rw [warningDue, Visible]
    cases silence <;> cases warnall <;> simp
  · have hnext : (swigWarnfilter E.wlist E.add s.text).getD [] = filterText (E.record s.entries) :=
      congrArg (Option.getD · []) (swigWarnfilter_text htext hE)
    rw [swigWarning_text hnext hn, swigWarning_text htext hn]
    rw [Visible] at hv hv'
    rw [hv, hv', suppressed_record hother]

/-- A list with one number. -/
def Edit.single (e : Entry) (add : Bool) (h : filterTokens e.token = [e.token]) : Edit :=
  ⟨e.token, [e], add, h⟩

def warning801 : Entry := ⟨none, "801".toList, List.cons_ne_nil _ _, List.all_eq_true.1 rfl⟩

def warning8011 (sign : Option Sign) : Entry :=
  ⟨sign, "8011".toList, List.cons_ne_nil _ _, List.all_eq_true.1 rfl⟩

def edit801 (add : Bool) : Edit := Edit.single warning801 add (by decide)

def edit8011 (sign : Option Sign) : Edit := Edit.single (warning8011 sign) true (by
  rcases sign with _ | _ | _ <;> decide)

/-- A number that is added and removed again. -/
theorem removed_again :
    ∃ s trace, Run editStep ⟨none, []⟩ trace s ∧
      ∃ written, swigWarning false false s.text 801 "message".toList = some written ∧
        (written = warningDue false false s.entries 801 ↔
          false = true ∨ false = true ∨ Visible s.entries 801) := by
  have hrun : Run editStep ⟨none, []⟩ _ _ :=
    (Run.start.step (a := edit801 true) rfl).step (a := edit801 false) rfl
  refine ⟨_, _, hrun, (warnfilter_run hrun ?_ false false 801 "message".toList 801 rfl).2.1⟩
  intro x hx
  rcases List.mem_cons.1 hx with rfl | hx
  · refine fun _ => ⟨fun e' he => ?_, trivial⟩
    rcases he with he | he
    · exact congrArg Entry.digits (List.mem_singleton.1 (List.mem_of_find?_eq_some he))
    · exact congrArg Entry.digits (List.mem_singleton.1 (List.mem_of_find?_eq_some he))
  · obtain rfl := List.mem_singleton.1 hx
    exact nofun

/-- An entry hides one for a number with which it begins, and loses its first digits to a
removal of that number: then the character before the filter is read. -/
theorem prefix_hides :
    (∃ s trace, Run editStep ⟨none, []⟩ trace s ∧ s.text = some "+8011-801".toList ∧
      swigWarning false false s.text 801 "message".toList = some true ∧
      warningDue false false s.entries 801 = false) ∧
    ∃ s trace, Run editStep ⟨none, []⟩ trace s ∧ s.text = some "1-801".toList ∧
      swigWarning false false s.text 1 "message".toList = none := by
  have hhidden : Run editStep ⟨none, []⟩ _ _ :=
    (Run.start.step (a := edit801 true) rfl).step (a := edit8011 (some .plus)) rfl
  have hcut : Run editStep ⟨none, []⟩ _ _ :=
    ((Run.start.step (a := edit801 true) rfl).step (a := edit8011 none) rfl).step
      (a := edit801 false) rfl
  exact ⟨⟨_, _, hhidden, by decide, by decide, by decide⟩, ⟨_, _, hcut, by decide, by decide⟩⟩

end Swig4Ada.Swig

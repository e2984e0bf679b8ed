import Swig4Ada.Runtime.PackData

/-!
# What packing writes and unpacking reads

Everything is written one character behind the other, so that it is written if and only if it
ends inside the buffer. The bytes are read again from their digits. Only the size that
`SWIG_PackDataName` computes can be another one than what is written, when it wraps around.
-/

namespace Swig4Ada.Runtime

/-! ## Writing -/

theorem store_front (x : Char) (front old : List Char) :
    store x (front ++ old) front.length =
      match old with
      | [] => none
      | _ :: old => some (front ++ x :: old, front.length + 1) := by
  cases old with
  | nil =>
      refine if_neg ?_
      rw [List.append_nil]
      exact Nat.lt_irrefl _
  | cons o old =>
      rw [store, if_pos (by simp), List.set_append_right (h := Nat.le_refl _), Nat.sub_self]
      rfl

/-- A text is written where it ends inside the buffer. -/
theorem storeText_front (text front old : List Char) :
    storeText text (front ++ old) front.length =
      if text.length ≤ old.length then
        some (front ++ text ++ old.drop text.length, front.length + text.length)
      else none := by
  induction text generalizing front old with
  | nil =>
      rw [storeText, List.length_nil, if_pos (Nat.zero_le _), List.append_nil]
      rfl
  | cons x text ih =>
      rw [storeText, store_front]
      cases old with
      | nil => exact (if_neg (by simp)).symm
      | cons o old =>
          show storeText text (front ++ x :: old) (front.length + 1) = _
          have hfront : front ++ x :: old = (front ++ [x]) ++ old := by simp
          have hlen : front.length + 1 = (front ++ [x]).length := by simp
          rw [hfront, hlen, ih]
          simp only [List.length_cons, Nat.add_le_add_iff_right, List.append_assoc,
            List.cons_append, List.nil_append, List.drop_succ_cons, List.length_append,
            List.length_nil, Nat.zero_add]
          congr 3
          omega

theorem storeText_append (a b buff : List Char) (c : Nat) :
    storeText (a ++ b) buff c =
      (storeText a buff c).bind fun r => storeText b r.1 r.2 := by
  induction a generalizing buff c with
  | nil => rfl
  | cons x a ih =>
      rw [List.cons_append, storeText, storeText]
      cases store x buff c with
      | none => rfl
      | some r => exact ih r.1 r.2

/-- The digits of some bytes. -/
def hexText (bytes : List Byte) : List Char :=
  bytes.flatMap fun u : Byte => [hexDigit ((u &&& 0xf0) >>> 4), hexDigit (u &&& 0xf)]

theorem hexText_length (bytes : List Byte) : (hexText bytes).length = 2 * bytes.length := by
  induction bytes with
  | nil => rfl
  | cons u bytes ih =>
      rw [hexText, List.flatMap_cons, List.length_append, List.length_cons, ← hexText, ih]
      simp only [List.length_cons, List.length_nil]
      omega

theorem packData_eq (bytes : List Byte) (buff : List Char) (c : Nat) :
    packData bytes buff c = storeText (hexText bytes) buff c := by
  induction bytes generalizing buff c with
  | nil => rfl
  | cons u bytes ih =>
      rw [packData, hexText, List.flatMap_cons, ← hexText, List.cons_append, List.cons_append,
        List.nil_append, storeText]
      cases store (hexDigit ((u &&& 0xf0) >>> 4)) buff c with
      | none => rfl
      | some r =>
          show (store _ r.1 r.2).bind _ = storeText (hexDigit (u &&& 0xf) :: hexText bytes) r.1 r.2
          rw [storeText]
          cases store (hexDigit (u &&& 0xf)) r.1 r.2 with
          | none => rfl
          | some r' => exact ih r'.1 r'.2

/-- What is packed. -/
def packedText (bytes : List Byte) (name : List Char) : List Char := '_' :: (hexText bytes ++ name)

theorem packedText_length (bytes : List Byte) (name : List Char) :
    (packedText bytes name).length = 1 + 2 * bytes.length + name.length := by
  rw [packedText, List.length_cons, List.length_append, hexText_length]
  omega

/-- The three steps of writing are one. -/
theorem store_packed (bytes : List Byte) (name buff : List Char) :
    ((store '_' buff 0).bind fun r => (packData bytes r.1 r.2).bind fun r =>
        storeText (name ++ ['\x00']) r.1 r.2) =
      storeText (packedText bytes name ++ ['\x00']) buff 0 := by
  have htext : packedText bytes name ++ ['\x00'] =
      ['_'] ++ (hexText bytes ++ (name ++ ['\x00'])) := by simp [packedText]
  rw [htext, storeText_append, storeText]
  cases store '_' buff 0 with
  | none => rfl
  | some r =>
      show (packData bytes r.1 r.2).bind _ = storeText (hexText bytes ++ _) r.1 r.2
      rw [storeText_append, packData_eq]

theorem storeText_start (text buff : List Char) :
    storeText text buff 0 =
      if text.length ≤ buff.length then some (text ++ buff.drop text.length, text.length)
      else none := by
  have hfront := storeText_front text [] buff
  simpa using hfront

theorem packedText_store {bytes : List Byte} {name buff : List Char} :
    storeText (packedText bytes name ++ ['\x00']) buff 0 =
      if (packedText bytes name).length + 1 ≤ buff.length then
        some (packedText bytes name ++ '\x00' :: buff.drop ((packedText bytes name).length + 1),
          (packedText bytes name).length + 1)
      else none := by
  rw [storeText_start, List.length_append, List.append_assoc]
  rfl

section Pack

variable {P : Platform} {buff : List Char} {bytes : List Byte}

/-- `lname`, the length of the name or nothing. -/
def nameText (name : Option (CName P)) : List Char := (name.map CName.text).getD []

/-- Where the test of the size lets it pass, the text is written, or written outside. -/
theorem packDataName_pass {name : Option (CName P)}
    (h : (2 * bytes.length + 2 + (nameText name).length) % 2 ^ P.sizeBits ≤ buff.length) :
    packDataName P buff bytes name =
      (storeText (packedText bytes (nameText name) ++ ['\x00']) buff 0).map
        fun r => some r.1 := by
  have hlname : (name.map fun name => name.text.length).getD 0 = (nameText name).length := by
    cases name with
    | none => rfl
    | some name => rfl
  unfold packDataName
  rw [hlname]
  simp only
  rw [if_neg (Nat.not_lt.2 h), ← store_packed]
  cases store '_' buff 0 with
  | none => rfl
  | some r =>
      show (packData bytes r.1 r.2).bind _ = ((packData bytes r.1 r.2).bind _).map _
      cases packData bytes r.1 r.2 with
      | none => rfl
      | some r =>
          cases name with
          | none =>
              show (store '\x00' r.1 r.2).bind _ = (storeText ([] ++ ['\x00']) r.1 r.2).map _
              rw [List.nil_append, storeText]
              cases store '\x00' r.1 r.2 with
              | none => rfl
              | some r' => rfl
          | some name =>
              by_cases hempty : (nameText (some name)).length ≠ 0
              · show (if (nameText (some name)).length ≠ 0 then _ else _ : Option _) =
                  (storeText (name.text ++ ['\x00']) r.1 r.2).map _
                rw [if_pos hempty]
                cases storeText (name.text ++ ['\x00']) r.1 r.2 with
                | none => rfl
                | some r' => rfl
              · have htext : nameText (some name) = [] :=
                  List.eq_nil_of_length_eq_zero (not_not.1 hempty)
                show (if (nameText (some name)).length ≠ 0 then _ else _ : Option _) =
                  (storeText (nameText (some name) ++ ['\x00']) r.1 r.2).map _
                rw [if_neg hempty, htext, List.nil_append, storeText]
                cases store '\x00' r.1 r.2 with
                | none => rfl
                | some r' => rfl

theorem packVoidPtr_eq {name : CName P} (hbytes : bytes.length = P.pointerBytes) :
    packVoidPtr P buff bytes name =
      if buff.length < (packedText bytes name.text).length + 1 then some none
      else (storeText (packedText bytes name.text ++ ['\x00']) buff 0).map
        fun r => some r.1 := by
  rw [packedText_length, hbytes]
  unfold packVoidPtr
  simp only
  by_cases hsmall : 2 * P.pointerBytes + 2 > buff.length
  · rw [if_pos hsmall, if_pos (by omega)]
  · rw [if_neg hsmall]
    -- the underscore and the digits fit
    have hdigits : (store '_' buff 0).bind (fun r => packData bytes r.1 r.2) =
        some ('_' :: hexText bytes ++ buff.drop ('_' :: hexText bytes).length,
          ('_' :: hexText bytes).length) := by
      have hone : (store '_' buff 0).bind (fun r => packData bytes r.1 r.2) =
          storeText ('_' :: hexText bytes) buff 0 := by
        rw [storeText]
        cases store '_' buff 0 with
        | none => rfl
        | some r => exact packData_eq bytes r.1 r.2
      rw [hone, storeText_start, if_pos]
      rw [List.length_cons, hexText_length, hbytes]
      omega
    have hfits : (name.text.length + 1) % 2 ^ P.sizeBits = name.text.length + 1 :=
      Nat.mod_eq_of_lt name.fits
    have hlen : ('_' :: hexText bytes).length = 1 + 2 * P.pointerBytes := by
      rw [List.length_cons, hexText_length, hbytes]
      omega
    have hwhole : storeText (packedText bytes name.text ++ ['\x00']) buff 0 =
        ((store '_' buff 0).bind fun r => packData bytes r.1 r.2).bind fun r =>
          storeText (name.text ++ ['\x00']) r.1 r.2 := by
      rw [← store_packed, Option.bind_assoc]
    show ((store '_' buff 0).bind fun r => (packData bytes r.1 r.2).bind fun r' =>
      if (name.text.length + 1) % 2 ^ P.sizeBits > buff.length - r'.2 then some none
      else (storeText (name.text ++ ['\x00']) r'.1 r'.2).bind fun r => some (some r.1)) = _
    rw [← Option.bind_assoc, hwhole, hdigits, Option.bind_some, Option.bind_some, hfits, hlen]
    by_cases hfit : buff.length < 1 + 2 * P.pointerBytes + name.text.length + 1
    · rw [if_pos (by omega), if_pos hfit]
    · rw [if_neg (by omega), if_neg hfit, Option.map_eq_bind]
      rfl

/-- What packing should do: nothing is written outside, it fails only where the text does not
fit with its terminator, and otherwise the text is in the buffer. -/
structure PacksRight (buff text : List Char) (outcome : Option (Option (List Char))) : Prop where
  inside : outcome ≠ none
  fails : outcome = some none → buff.length < text.length + 1
  packs : ∀ packed, outcome = some (some packed) →
    packed.length = buff.length ∧ ∃ behind, packed = text ++ '\x00' :: behind

/-- A text that fits is written, and one that does not fit is written outside. -/
theorem packed_right {name : List Char} :
    PacksRight buff (packedText bytes name)
      ((storeText (packedText bytes name ++ ['\x00']) buff 0).map fun r => some r.1) ↔
    (packedText bytes name).length + 1 ≤ buff.length := by
  rw [packedText_store]
  by_cases hfit : (packedText bytes name).length + 1 ≤ buff.length
  · rw [if_pos hfit]
    refine iff_of_true ⟨Option.some_ne_none _, nofun, fun packed hpacked => ?_⟩ hfit
    obtain rfl := Option.some.inj (Option.some.inj hpacked)
    refine ⟨?_, _, rfl⟩
    rw [List.length_append, List.length_cons, List.length_drop]
    omega
  · rw [if_neg hfit]
    exact iff_of_false (fun h => h.inside rfl) hfit

theorem packVoidPtr_right (name : CName P) (hbytes : bytes.length = P.pointerBytes) :
    PacksRight buff (packedText bytes name.text) (packVoidPtr P buff bytes name) := by
  rw [packVoidPtr_eq hbytes]
  by_cases hfit : buff.length < (packedText bytes name.text).length + 1
  · rw [if_pos hfit]
    exact ⟨Option.some_ne_none _, fun _ => hfit, fun _ h => nomatch h⟩
  · rw [if_neg hfit]
    exact packed_right.2 (Nat.not_lt.1 hfit)

/-- The computed size wraps around to one that is not too large. -/
def WrapsAround (P : Platform) (sz lname bsz : Nat) : Prop :=
  2 ^ P.sizeBits ≤ 2 * sz + 2 + lname ∧ (2 * sz + 2 + lname) % 2 ^ P.sizeBits ≤ bsz

theorem packDataName_right_iff (name : Option (CName P)) (hbuff : buff.length < 2 ^ P.sizeBits) :
    PacksRight buff (packedText bytes (nameText name)) (packDataName P buff bytes name) ↔
      ¬ WrapsAround P bytes.length (nameText name).length buff.length := by
  by_cases hpass : (2 * bytes.length + 2 + (nameText name).length) % 2 ^ P.sizeBits ≤ buff.length
  · rw [packDataName_pass hpass, packed_right, packedText_length]
    constructor
    · rintro hfit ⟨hwrap, -⟩
      omega
    · intro hwrap
      have hless : 2 * bytes.length + 2 + (nameText name).length < 2 ^ P.sizeBits := by
        by_contra hle
        exact hwrap ⟨Nat.not_lt.1 hle, hpass⟩
      rw [Nat.mod_eq_of_lt hless] at hpass
      omega
  · have hnone : packDataName P buff bytes name = some none := by
      have hlname : (name.map fun name => name.text.length).getD 0 = (nameText name).length := by
        cases name with
        | none => rfl
        | some name => rfl
      unfold packDataName
      rw [hlname]
      exact if_pos (Nat.lt_of_not_le hpass)
    rw [hnone]
    refine iff_of_true ⟨Option.some_ne_none _, fun _ => ?_, fun _ h => nomatch h⟩
      fun hwrap => hpass hwrap.2
    have hle := Nat.mod_le (2 * bytes.length + 2 + (nameText name).length) (2 ^ P.sizeBits)
    rw [packedText_length]
    omega

end Pack

/-! ## Reading -/

/-- A digit of the right kind. -/
def LowerHexDigit (d : Char) : Prop := ('0' ≤ d ∧ d ≤ '9') ∨ ('a' ≤ d ∧ d ≤ 'f')

theorem digitValue_some {d : Char} {v : Byte} (h : digitValue d = some v) : LowerHexDigit d := by
  unfold digitValue at h
  by_cases hdigit : '0' ≤ d ∧ d ≤ '9'
  · exact Or.inl hdigit
  · rw [if_neg hdigit] at h
    by_cases hletter : 'a' ≤ d ∧ d ≤ 'f'
    · exact Or.inr hletter
    · rw [if_neg hletter] at h
      cases h

theorem digitValue_high : ∀ u : Byte, digitValue (hexDigit ((u &&& 0xf0) >>> 4)) =
    some ((u &&& 0xf0) >>> 4) := by decide

theorem digitValue_low : ∀ u : Byte, digitValue (hexDigit (u &&& 0xf)) = some (u &&& 0xf) := by
  decide

theorem byte_halves : ∀ u : Byte, ((u &&& 0xf0) >>> 4) <<< 4 ||| (u &&& 0xf) = u := by decide

/-- The digits are read as the bytes that they were written for. -/
theorem unpackData_hexText (bytes : List Byte) (rest : List Char) :
    unpackData bytes.length (hexText bytes ++ rest) = some (some (bytes, rest)) := by
  induction bytes with
  | nil => rfl
  | cons u bytes ih =>
      rw [hexText, List.flatMap_cons, ← hexText, List.length_cons]
      show unpackData (bytes.length + 1) (hexDigit ((u &&& 0xf0) >>> 4) ::
        hexDigit (u &&& 0xf) :: (hexText bytes ++ rest)) = _
      rw [unpackData, digitValue_high]
      dsimp only
      rw [digitValue_low]
      dsimp only
      rw [ih]
      show some (some (_ :: bytes, rest)) = _
      rw [byte_halves]

theorem unpackDataName_packed (bytes : List Byte) (name rest : List Char)
    (given : Option (List Char)) :
    unpackDataName (packedText bytes name ++ rest) bytes.length given =
      some (some (bytes, name ++ rest)) := by
  show unpackData bytes.length ((hexText bytes ++ name) ++ rest) = _
  rw [List.append_assoc]
  exact unpackData_hexText bytes (name ++ rest)

/-- No character behind the end is read, and only the right number of digits is accepted. -/
theorem unpackData_digits {sz : Nat} {text : List Char} (h : '\x00' ∉ text) :
    unpackData sz (text ++ ['\x00']) ≠ none ∧
      ∀ r, unpackData sz (text ++ ['\x00']) = some (some r) →
        ∃ digits rest, text = digits ++ rest ∧ digits.length = 2 * sz ∧
          ∀ d ∈ digits, LowerHexDigit d := by
  induction sz generalizing text with
  | zero =>
      refine ⟨Option.some_ne_none _, fun r _ => ⟨[], text, rfl, rfl, fun d hd => nomatch hd⟩⟩
  | succ sz ih =>
      have hnul : digitValue '\x00' = none := rfl
      cases text with
      | nil =>
          rw [List.nil_append, unpackData, hnul]
          exact ⟨Option.some_ne_none _, fun _ h => nomatch h⟩
      | cons d text =>
          rw [List.cons_append, unpackData]
          cases hhigh : digitValue d with
          | none => exact ⟨Option.some_ne_none _, fun _ h => nomatch h⟩
          | some high =>
              cases text with
              | nil =>
                  simp only [List.nil_append]
                  rw [hnul]
                  exact ⟨Option.some_ne_none _, fun _ h => nomatch h⟩
              | cons d' text =>
                  simp only [List.cons_append]
                  cases hlow : digitValue d' with
                  | none => exact ⟨Option.some_ne_none _, fun _ h => nomatch h⟩
                  | some low =>
                      have htext : '\x00' ∉ text := fun hmem =>
                        h (List.mem_cons_of_mem _ (List.mem_cons_of_mem _ hmem))
                      obtain ⟨hread, hdigits⟩ := ih htext
                      refine ⟨fun hnone => hread (Option.map_eq_none_iff.1 hnone), fun r hr => ?_⟩
                      obtain ⟨found, hfound, hsome⟩ := Option.map_eq_some_iff.1 hr
                      obtain ⟨r', rfl, -⟩ := Option.map_eq_some_iff.1 hsome
                      obtain ⟨digits, rest, rfl, hlength, hall⟩ := hdigits r' hfound
                      refine ⟨d :: d' :: digits, rest, rfl, ?_, ?_⟩
                      · rw [List.length_cons, List.length_cons, hlength]
                        omega
                      · intro e he
                        rcases List.mem_cons.1 he with rfl | he
                        · exact digitValue_some hhigh
                        rcases List.mem_cons.1 he with rfl | he
                        · exact digitValue_some hlow
                        · exact hall e he

theorem strcmpEqual_eq {text s : List Char} (ht : '\x00' ∉ text) (hs : '\x00' ∉ s) :
    strcmpEqual (text ++ ['\x00']) (s ++ ['\x00']) = some (decide (text = s)) := by
  induction text generalizing s with
  | nil =>
      cases s with
      | nil => rfl
      | cons y s =>
          have hy : '\x00' ≠ y := fun h => hs (h ▸ List.mem_cons_self)
          exact if_pos hy
  | cons x text ih =>
      have hx : x ≠ '\x00' := fun h => ht (h ▸ List.mem_cons_self)
      cases s with
      | nil => exact if_pos hx
      | cons y s =>
          rw [List.cons_append, List.cons_append, strcmpEqual]
          by_cases hxy : x = y
          · subst hxy
            rw [if_neg (not_not.2 rfl), if_neg hx, ih (fun h => ht (List.mem_cons_of_mem _ h))
              fun h => hs (List.mem_cons_of_mem _ h)]
            simp
          · rw [if_pos hxy]
            simp [hxy]

/-- What a reader of packed texts should do with a text: it reads nothing behind the null
character, and accepts `NULL` and the right number of digits behind an underscore. -/
def ReadsRight (sz : Nat) (unpack : List Char → Option (Option (List Byte × List Char))) : Prop :=
  ∀ text, '\x00' ∉ text → unpack (text ++ ['\x00']) ≠ none ∧
    ∀ r, unpack (text ++ ['\x00']) = some (some r) → text = ['N', 'U', 'L', 'L'] ∨
      ∃ digits rest, text = '_' :: (digits ++ rest) ∧ digits.length = 2 * sz ∧
        ∀ d ∈ digits, LowerHexDigit d

theorem unpackDataName_reads (sz : Nat) (name : Option (List Char)) :
    ReadsRight sz fun c => unpackDataName c sz name := by
  intro text htext
  have hnull : '\x00' ∉ ['N', 'U', 'L', 'L'] := by decide
  cases text with
  | nil => exact ⟨Option.some_ne_none _, fun _ h => nomatch h⟩
  | cons d text =>
      by_cases hd : d = '_'
      · subst hd
        obtain ⟨hread, hdigits⟩ := @unpackData_digits sz text fun h =>
          htext (List.mem_cons_of_mem _ h)
        refine ⟨hread, fun r hr => Or.inr ?_⟩
        obtain ⟨digits, rest, rfl, hlength, hall⟩ := hdigits r hr
        exact ⟨digits, rest, rfl, hlength, hall⟩
      · have hcompare : unpackDataName (d :: text ++ ['\x00']) sz name =
            some (if d :: text = ['N', 'U', 'L', 'L'] then
              name.map fun name => (List.replicate sz 0, name) else none) := by
          have hequal := strcmpEqual_eq htext hnull
          show (if d ≠ '_' then (strcmpEqual (d :: (text ++ ['\x00'])) _).map _ else _) = _
          rw [if_pos hd]
          show (strcmpEqual (d :: text ++ ['\x00']) (['N', 'U', 'L', 'L'] ++ ['\x00'])).map _ = _
          rw [hequal]
          simp
        refine ⟨fun h => ?_, fun r hr => Or.inl ?_⟩
        · exact Option.some_ne_none _ (hcompare.symm.trans h)
        · have hfound := hcompare.symm.trans hr
          by_contra hne
          rw [if_neg hne] at hfound
          cases hfound

/-! ## The four functions -/

/-- They do what they should, for all texts that are read, if and only if the size that is
computed for the block and its name does not wrap around to one that passes the test. -/
theorem packing_right_iff {P : Platform} {buff : List Char} {block ptr : List Byte}
    (name : Option (CName P)) (ptrName : CName P) (hbuff : buff.length < 2 ^ P.sizeBits)
    (hptr : ptr.length = P.pointerBytes) :
    (PacksRight buff (packedText block (nameText name)) (packDataName P buff block name) ∧
      PacksRight buff (packedText ptr ptrName.text) (packVoidPtr P buff ptr ptrName) ∧
      (∀ packed given, packDataName P buff block name = some (some packed) →
        ∃ behind, unpackDataName packed block.length given =
          some (some (block, nameText name ++ '\x00' :: behind))) ∧
      (∀ packed given, packVoidPtr P buff ptr ptrName = some (some packed) →
        ∃ behind, unpackVoidPtr P packed given =
          some (some (ptr, ptrName.text ++ '\x00' :: behind))) ∧
      (∀ sz given, ReadsRight sz fun c => unpackDataName c sz given) ∧
      ∀ given, ReadsRight P.pointerBytes fun c => unpackVoidPtr P c given) ↔
    ¬ WrapsAround P block.length (nameText name).length buff.length := by
  constructor
  · exact fun h => (packDataName_right_iff name hbuff).1 h.1
  · intro hwrap
    have hdata := (packDataName_right_iff name hbuff).2 hwrap
    have hvoid := @packVoidPtr_right P buff ptr ptrName hptr
    refine ⟨hdata, hvoid, fun packed given hpacked => ?_, fun packed given hpacked => ?_,
      unpackDataName_reads, unpackDataName_reads P.pointerBytes⟩
    · obtain ⟨-, behind, rfl⟩ := hdata.packs packed hpacked
      exact ⟨behind, unpackDataName_packed block (nameText name) _ given⟩
    · obtain ⟨-, behind, rfl⟩ := hvoid.packs packed hpacked
      refine ⟨behind, ?_⟩
      have hread := unpackDataName_packed ptr ptrName.text ('\x00' :: behind) given
      rw [hptr] at hread
      exact hread

def platform64 : Platform := ⟨64, 8, by decide⟩

def platform32 : Platform := ⟨32, 4, by decide⟩

def nameFoo : CName platform64 := ⟨"_p_Foo".toList, by decide, by decide⟩

theorem twoBytes_packed :
    PacksRight (List.replicate 16 ' ') (packedText [0x0a, 0xff] (nameText (some nameFoo)))
        (packDataName platform64 (List.replicate 16 ' ') [0x0a, 0xff] (some nameFoo)) ∧
      packDataName platform64 (List.replicate 16 ' ') [0x0a, 0xff] (some nameFoo) =
        some (some ("_0aff_p_Foo".toList ++ '\x00' :: List.replicate 4 ' ')) := by
  have hright := (@packing_right_iff platform64 (List.replicate 16 ' ') [0x0a, 0xff]
    [0x0a, 0xff, 0, 0, 0, 0, 0, 0] (some nameFoo) nameFoo (by decide) rfl).2
    fun hwrap => absurd hwrap.1 (by decide)
  exact ⟨hright.1, by decide⟩

/-- A block of almost half the address space on a platform of 32 bits, and a buffer of 16
characters: the size is computed as 0. -/
theorem hugeBlock_overrun :
    ¬ PacksRight (List.replicate 16 ' ')
      (packedText (List.replicate (2 ^ 31 - 1) 0) (nameText (none : Option (CName platform32))))
      (packDataName platform32 (List.replicate 16 ' ') (List.replicate (2 ^ 31 - 1) 0) none) := by
  have hbuff : (List.replicate 16 ' ').length < 2 ^ platform32.sizeBits := by decide
  rw [packDataName_right_iff _ hbuff, not_not, List.length_replicate, List.length_replicate]
  exact ⟨by decide, by decide⟩

end Swig4Ada.Runtime

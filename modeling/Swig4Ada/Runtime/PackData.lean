import Mathlib

/-!
# Binary data as text (`swigrun.swg`)

Bytes are packed into a text as an underscore and two hexadecimal digits each, with a name
behind them. A buffer is the characters in it; a pointer into a text is what can be read from
there on. What is written or read outside is `none`, and a null pointer that a function
returns is `some none`. Sizes are computed modulo the width of `size_t`.
-/

namespace Swig4Ada.Runtime

/-- The number of bits of `size_t`, and `sizeof(void *)`. -/
structure Platform where
  sizeBits : Nat
  pointerBytes : Nat
  pointer_fits : 2 * pointerBytes + 2 < 2 ^ sizeBits

abbrev Byte := BitVec 8

/-- A text without null characters that is in memory, with the null character behind it. -/
structure CName (P : Platform) where
  text : List Char
  noNul : '\x00' ∉ text
  fits : text.length + 1 < 2 ^ P.sizeBits

/-! ## Writing -/

/-- `*(c++) = x`. -/
def store (x : Char) (buff : List Char) (c : Nat) : Option (List Char × Nat) :=
  if c < buff.length then some (buff.set c x, c + 1) else none

/-- `strcpy` and `strncpy` of a text with the character at its end. -/
def storeText : List Char → List Char → Nat → Option (List Char × Nat)
  | [], buff, c => some (buff, c)
  | x :: text, buff, c => do
      let (buff, c) ← store x buff c
      storeText text buff c

/-- `hex[i]`. -/
def hexDigit (i : Byte) : Char := "0123456789abcdef".toList.getD i.toNat '\x00'

/-- `SWIG_PackData`. -/
def packData : List Byte → List Char → Nat → Option (List Char × Nat)
  | [], buff, c => some (buff, c)
  | uu :: ptr, buff, c => do
      let (buff, c) ← store (hexDigit ((uu &&& 0xf0) >>> 4)) buff c
      let (buff, c) ← store (hexDigit (uu &&& 0xf)) buff c
      packData ptr buff c

variable (P : Platform)

/-- `SWIG_PackVoidPtr`, with the bytes of the pointer. -/
def packVoidPtr (buff : List Char) (ptr : List Byte) (name : CName P) :
    Option (Option (List Char)) :=
  let bsz := buff.length
  if 2 * P.pointerBytes + 2 > bsz then some none
  else do
    let (buff, r) ← store '_' buff 0
    let (buff, r) ← packData ptr buff r
    if (name.text.length + 1) % 2 ^ P.sizeBits > bsz - r then some none
    else
      let (buff, _) ← storeText (name.text ++ ['\x00']) buff r
      return some buff

/-- `SWIG_PackDataName`. -/
def packDataName (buff : List Char) (ptr : List Byte) (name : Option (CName P)) :
    Option (Option (List Char)) :=
  let bsz := buff.length
  let lname := (name.map fun name => name.text.length).getD 0
  if (2 * ptr.length + 2 + lname) % 2 ^ P.sizeBits > bsz then some none
  else do
    let (buff, r) ← store '_' buff 0
    let (buff, r) ← packData ptr buff r
    match name with
    | some name =>
        if lname ≠ 0 then
          let (buff, _) ← storeText (name.text ++ ['\x00']) buff r
          return some buff
        else
          let (buff, _) ← store '\x00' buff r
          return some buff
    | none =>
        let (buff, _) ← store '\x00' buff r
        return some buff

/-! ## Reading -/

/-- The value of a digit. -/
def digitValue (d : Char) : Option Byte :=
  if '0' ≤ d ∧ d ≤ '9' then some (BitVec.ofNat 8 (d.toNat - '0'.toNat))
  else if 'a' ≤ d ∧ d ≤ 'f' then some (BitVec.ofNat 8 (d.toNat - ('a'.toNat - 10)))
  else none

/-- `SWIG_UnpackData`: the bytes, and the pointer to what is behind them. -/
def unpackData : Nat → List Char → Option (Option (List Byte × List Char))
  | 0, c => some (some ([], c))
  | _ + 1, [] => none
  | sz + 1, d :: c =>
      match digitValue d with
      | none => some none
      | some high =>
          match c with
          | [] => none
          | d :: c =>
              match digitValue d with
              | none => some none
              | some low =>
                  (unpackData sz c).map fun found =>
                    found.map fun r => ((high <<< 4 ||| low) :: r.1, r.2)

/-- `strcmp(c, s) == 0`. -/
def strcmpEqual : List Char → List Char → Option Bool
  | x :: c, y :: s =>
      if x ≠ y then some false else if x = '\x00' then some true else strcmpEqual c s
  | _, _ => none

/-- `SWIG_UnpackDataName`. The name is what it is called with, which may be a null pointer. -/
def unpackDataName (c : List Char) (sz : Nat) (name : Option (List Char)) :
    Option (Option (List Byte × List Char)) :=
  match c with
  | [] => none
  | d :: c =>
      if d ≠ '_' then
        (strcmpEqual (d :: c) ['N', 'U', 'L', 'L', '\x00']).map fun equal =>
          if equal then name.map fun name => (List.replicate sz 0, name) else none
      else unpackData sz c

/-- `SWIG_UnpackVoidPtr`. -/
def unpackVoidPtr (c : List Char) (name : Option (List Char)) :
    Option (Option (List Byte × List Char)) :=
  match c with
  | [] => none
  | d :: c =>
      if d ≠ '_' then
        (strcmpEqual (d :: c) ['N', 'U', 'L', 'L', '\x00']).map fun equal =>
          if equal then name.map fun name => (List.replicate P.pointerBytes 0, name) else none
      else unpackData P.pointerBytes c

end Swig4Ada.Runtime

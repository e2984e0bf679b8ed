import Swig4Ada.Doh.Hash
import Swig4Ada.Doh.Position

/-!
# Strings with their buffer (`Source/DOH/string.c`)

A string keeps the size of its buffer in `maxsize` and the hash of its text in `hashkey`,
and each function that writes to it looks after both. `allocated` is what was last asked of
`DohMalloc` or `DohRealloc`. The functions on the text, the position and the line are those
of `Position`; a write outside the buffer is `none`, and so is a loop that does not end.

Lengths and sizes are below the largest `int`. An argument has a text of its own, so that
nothing is inserted in itself. A function that gets a `String` as an argument calls
`String_data` on it first, which is `data` here; `Incref` and the file are left out.
-/

namespace Swig4Ada.Doh

structure StringBuffer where
  string : DohString
  /-- `none` is -1. -/
  hashkey : Option Nat
  maxsize : Nat
  allocated : Nat
  /-- The byte behind the text is the null character. -/
  terminated : Bool
deriving DecidableEq, Repr

namespace StringBuffer

def text (s : StringBuffer) : List Char := s.string.text

/-- `(char *) DohRealloc(s->str, size)`, and `s->maxsize = size`. -/
def realloc (s : StringBuffer) (size : Nat) : StringBuffer :=
  { s with maxsize := size, allocated := size }

/-- The text and the null character behind it have been written. -/
def fits (s : StringBuffer) : Option StringBuffer :=
  if s.text.length < s.allocated then some s else none

/-- `while (maxsize <= needed) maxsize *= 2`, in `String_insert` and in `replace_simple`. -/
def growLoop : Nat → Nat → Nat → Option Nat
  | 0, _, _ => none
  | fuel + 1, maxsize, needed =>
      if maxsize ≤ needed then growLoop fuel (2 * maxsize) needed else some maxsize

/-- A size that is not 0 is large enough after so many turns. -/
def growFuel (needed : Nat) : Nat := needed + 1

/-! ## Reading -/

/-- `String_data`. -/
def data (s : StringBuffer) : Option StringBuffer := { s with terminated := true }.fits

/-- `String_hash`. -/
def hash (s : StringBuffer) : Nat × StringBuffer :=
  match s.hashkey with
  | some h => (h, s)
  | none => (hashText s.text, { s with hashkey := some (hashText s.text) })

/-- `String_getc`. -/
def getc (s : StringBuffer) : Option (Option Char × StringBuffer) :=
  (Doh.getc s.string).map fun r => (r.1, { s with string := r.2 })

/-- `String_ungetc`. -/
def ungetc (s : StringBuffer) (ch : Option Char) : StringBuffer :=
  { s with string := Doh.ungetc s.string ch }

/-- `String_read`: what is read, which is nothing when the position is behind the text. -/
def read (s : StringBuffer) (len : Nat) : Option (List Char × StringBuffer) :=
  let reallen := if s.string.len < s.string.sp + len then s.string.len - s.string.sp else len
  if 0 < reallen then
    if s.string.sp < 0 then none
    else
      some ((s.text.drop s.string.sp.toNat).take reallen.toNat,
        { s with string := { s.string with sp := s.string.sp + reallen } })
  else some ([], s)

/-- `String_seek`. -/
def seek (s : StringBuffer) (offset : Int) (whence : Whence) : Option StringBuffer :=
  (Doh.seek s.string offset whence).map fun t => { s with string := t }

/-- `String_setline`. -/
def setline (s : StringBuffer) (line : Int) : StringBuffer :=
  { s with string := { s.string with line := line } }

/-! ## Writing -/

/-- `String_putc`. -/
def putc (s : StringBuffer) (ch : Char) : Option StringBuffer :=
  let atEnd : Bool := s.string.len ≤ s.string.sp
  let s' := if atEnd ∧ s.maxsize < s.text.length + 2 then s.realloc (2 * s.maxsize) else s
  (Doh.putc s.string ch).bind fun t =>
    { s' with string := t, hashkey := none, terminated := s.terminated || atEnd }.fits

/-- `String_write`. A buffer that is too small gets the size that is asked for, and then the
text ends with what is written. -/
def write (s : StringBuffer) (buffer : List Char) : Option StringBuffer :=
  let sp := if s.string.len < s.string.sp then s.string.len else s.string.sp
  let newlen := (sp + buffer.length + 1).toNat
  (Doh.write s.string buffer).bind fun t =>
    if s.maxsize < newlen then
      { s.realloc newlen with
        string := { t with text := t.text.take (newlen - 1) }
        hashkey := none
        terminated := true }.fits
    else { s with string := t, hashkey := none, terminated := true }.fits

/-- `DohString_append`. -/
def append (s : StringBuffer) (data : List Char) : Option StringBuffer :=
  let newlen := s.text.length + data.length + 1
  let newmaxsize := if 2 * s.maxsize ≤ newlen + 1 then newlen + 1 else 2 * s.maxsize
  let s' := if s.maxsize ≤ newlen + 1 then s.realloc newmaxsize else s
  (Doh.append s.string data).bind fun t =>
    { s' with string := t, hashkey := none, terminated := true }.fits

/-- `String_clear`. -/
def clear (s : StringBuffer) : Option StringBuffer :=
  { s with string := { text := [], sp := 0, line := 1 }, hashkey := none, terminated := true }.fits

/-- `String_insert`. -/
def insert (s : StringBuffer) (pos : Int) (data : List Char) : Option StringBuffer :=
  if pos = dohEnd then append s data
  else
    let needed := s.text.length + data.length
    match growLoop (growFuel needed) s.maxsize needed with
    | none => none
    | some size =>
        let s' := if s.maxsize ≤ needed then s.realloc size else s
        (Doh.insert s.string pos data).bind fun t =>
          { s' with string := t, hashkey := none, terminated := true }.fits

/-- `String_delitem`. -/
def delitem (s : StringBuffer) (pos : Int) : Option StringBuffer :=
  if s.text = [] then some { s with hashkey := none }
  else
    (Doh.delitem s.string pos).bind fun t =>
      { s with string := t, hashkey := none, terminated := true }.fits

/-- `String_delslice`. -/
def delslice (s : StringBuffer) (sindex eindex : Int) : Option StringBuffer :=
  if s.text = [] then some s
  else
    (Doh.delslice s.string sindex eindex).bind fun t =>
      { s with string := t, hashkey := none, terminated := true }.fits

/-- `String_chop`. -/
def chop (s : StringBuffer) : Option StringBuffer :=
  { s with string := Doh.chop s.string, hashkey := none, terminated := true }.fits

/-- What a function on C strings sees of a text. -/
def cText (text : List Char) : List Char := text.takeWhile (· ≠ '\x00')

/-- There is a null character where the functions on C strings stop. -/
def Ended (s : StringBuffer) : Prop := s.terminated = true ∨ '\x00' ∈ s.text

instance (s : StringBuffer) : Decidable s.Ended := by unfold Ended; infer_instance

/-- `String_replace` and `replace_simple`. Matches are found up to the first null character,
and what is behind it is moved along. The key is reset as soon as there is a match, also
when all of them are inside quotes. -/
def replace (s : StringBuffer) (token rep : List Char) (flags : ReplaceFlags) :
    Option StringBuffer :=
  let base := cText s.text
  let token := cText token
  let rep := cText rep
  if token = [] then some s
  else if ¬ s.Ended then none
  else if matchFrom flags.mode token base 0 = none then some s
  else
    match stringReplace base token rep flags with
    | none => none
    | some (replaced, rcount) =>
        let string : DohString :=
          { s.string with
            text := replaced ++ s.text.drop base.length
            sp := replacedPosition s.string token rep rcount }
        if rcount = 0 then some { s with hashkey := none }
        else if rep.length ≤ token.length then
          { s with string := string, hashkey := none, terminated := true }.fits
        else
          let needed := s.text.length + rcount * (rep.length - token.length)
          match growLoop (growFuel needed) s.maxsize needed with
          | none => none
          | some newsize =>
              { s.realloc newsize with
                string := string, hashkey := none, terminated := true }.fits

/-! ## New strings -/

def initMaxsize : Nat := 16

/-- `max`, for a text of so many characters. -/
def newMaxsize (l : Nat) : Nat := if initMaxsize < l + 1 then l + 1 else initMaxsize

/-- `NewString` of a C string. -/
def newString (text : List Char) : StringBuffer where
  string := DohString.new (cText text)
  hashkey := none
  maxsize := newMaxsize (cText text).length
  allocated := newMaxsize (cText text).length
  terminated := true

/-- `NewString` of a `String`: the text is copied with `strcpy`, and the length and the key
are those of all of it. `fresh` is what the new buffer holds before. -/
def newStringOf (s : StringBuffer) (fresh : Nat → Char) : StringBuffer :=
  let l := s.text.length
  let copied := cText s.text
  if copied.length = l then
    { string := DohString.new copied
      hashkey := s.hashkey
      maxsize := newMaxsize l
      allocated := newMaxsize l
      terminated := true }
  else
    { string := DohString.new
        (copied ++ '\x00' :: (List.range (l - copied.length - 1)).map fun i =>
          fresh (copied.length + 1 + i))
      hashkey := s.hashkey
      maxsize := newMaxsize l
      allocated := newMaxsize l
      terminated := fresh l = '\x00' }

/-- `NewStringEmpty`. -/
def newStringEmpty : StringBuffer where
  string := DohString.new []
  hashkey := some 0
  maxsize := initMaxsize
  allocated := initMaxsize
  terminated := true

/-- `strncpy`: a text that is too short is filled up with null characters. -/
def strncpy (text : List Char) (len : Nat) : List Char :=
  (cText text).take len ++ List.replicate (len - (cText text).length) '\x00'

/-- `NewStringWithSize`. -/
def newStringWithSize (text : List Char) (len : Nat) : StringBuffer where
  string := DohString.new (strncpy text len)
  hashkey := none
  maxsize := newMaxsize len
  allocated := newMaxsize len
  terminated := true

/-- `CopyString`. -/
def copyString (s : StringBuffer) : StringBuffer where
  string := Doh.copyString s.string
  hashkey := s.hashkey
  maxsize := s.text.length
  allocated := s.text.length + 1
  terminated := true

end StringBuffer

/-! ## Runs -/

/-- The functions on one string. -/
inductive StringCall
  | data
  | hash
  | getc
  | ungetc (ch : Option Char)
  | read (len : Nat)
  | seek (offset : Int) (whence : Whence)
  | setline (line : Int)
  | putc (ch : Char)
  | write (buffer : List Char)
  | append (data : List Char)
  | clear
  | insert (pos : Int) (data : List Char)
  | delitem (pos : Int)
  | delslice (sindex eindex : Int)
  | replace (token rep : List Char) (flags : ReplaceFlags)
  | chop

def StringCall.perform (s : StringBuffer) : StringCall → Option StringBuffer
  | .data => s.data
  | .hash => some s.hash.2
  | .getc => s.getc.map Prod.snd
  | .ungetc ch => some (s.ungetc ch)
  | .read len => (s.read len).map Prod.snd
  | .seek offset whence => s.seek offset whence
  | .setline line => some (s.setline line)
  | .putc ch => s.putc ch
  | .write buffer => s.write buffer
  | .append d => s.append d
  | .clear => s.clear
  | .insert pos d => s.insert pos d
  | .delitem pos => s.delitem pos
  | .delslice sindex eindex => s.delslice sindex eindex
  | .replace token rep flags => s.replace token rep flags
  | .chop => s.chop

/-- A new string, or a call on one of those that there are. -/
inductive StringStep
  | newString (text : List Char)
  | newStringOf (i : Nat) (fresh : Nat → Char)
  | newStringEmpty
  | newStringWithSize (text : List Char) (len : Nat)
  | copy (i : Nat)
  | call (i : Nat) (call : StringCall)

def StringStep.perform (step : StringStep) (strings : List StringBuffer) :
    Option (List StringBuffer) :=
  match step with
  | .newString text => some (strings ++ [.newString text])
  | .newStringOf i fresh =>
      strings[i]?.bind fun s => s.data.map fun s' => strings.set i s' ++ [s'.newStringOf fresh]
  | .newStringEmpty => some (strings ++ [.newStringEmpty])
  | .newStringWithSize text len => some (strings ++ [.newStringWithSize text len])
  | .copy i => strings[i]?.map fun s => strings ++ [s.copyString]
  | .call i c => strings[i]?.bind fun s => (c.perform s).map (strings.set i)

end Swig4Ada.Doh

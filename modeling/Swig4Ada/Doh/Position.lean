import Swig4Ada.Doh.Reference

/-!
# Position and line of a string (`Source/DOH/string.c`)

A string is read and written at a position, `sp`, and counts the lines that the position
goes over. Every operation keeps `line` in its own way. The text of a string is the
characters before its length, which are followed by a null character; the hash key, the
file and the size of the allocated buffer are left out. What is read or written outside
the buffer is `none`, and so is a loop that does not end.
-/

namespace Swig4Ada.Doh

structure DohString where
  text : List Char
  sp : Int
  line : Int
deriving DecidableEq, Repr

/-- `s->len`. -/
def DohString.len (s : DohString) : Int := s.text.length

def newlines (text : List Char) : Int := (text.count '\n' : Nat)

/-- `NewString`. The position is at the end, and the line is 1 all the same. -/
def DohString.new (text : List Char) : DohString :=
  { text := text, sp := text.length, line := 1 }

/-- `tc[i] == '\n'`, where the null character is at the end. -/
def newlineAt (text : List Char) (i : Int) : Option Bool :=
  if 0 ≤ i ∧ i ≤ text.length then some (text[i.toNat]? = some '\n') else none

/-! ## Reading -/

/-- `String_getc`: the character, or `EOF`, which is `none`. -/
def getc (s : DohString) : Option (Option Char × DohString) :=
  if s.len ≤ s.sp then some (none, s)
  else if s.sp < 0 then none
  else
    match s.text[s.sp.toNat]? with
    | none => none
    | some c =>
        some (some c,
          { s with sp := s.sp + 1, line := if c = '\n' then s.line + 1 else s.line })

/-- `String_ungetc`. -/
def ungetc (s : DohString) (ch : Option Char) : DohString :=
  match ch with
  | none => s
  | some c =>
      if s.sp ≤ 0 then s
      else { s with sp := s.sp - 1, line := if c = '\n' then s.line - 1 else s.line }

inductive Whence
  | set
  | cur
  | fromEnd
deriving DecidableEq, Repr

/-- `while (sp != nsp) { if (tc[++sp] == '\n') ++s->line; }` for so many turns. -/
def seekForward (text : List Char) : Nat → Int → Int → Option (Int × Int)
  | 0, sp, line => some (sp, line)
  | turns + 1, sp, line =>
      match newlineAt text (sp + 1) with
      | none => none
      | some nl => seekForward text turns (sp + 1) (if nl then line + 1 else line)

/-- `while (sp != nsp) { if (tc[--sp] == '\n') --s->line; }`. -/
def seekBackward (text : List Char) : Nat → Int → Int → Option (Int × Int)
  | 0, sp, line => some (sp, line)
  | turns + 1, sp, line =>
      match newlineAt text (sp - 1) with
      | none => none
      | some nl => seekBackward text turns (sp - 1) (if nl then line - 1 else line)

/-- The position that `String_seek` goes to. -/
def seekTarget (s : DohString) (offset : Int) (whence : Whence) : Int :=
  let nsp := match whence with
    | .set => offset
    | .cur => s.sp + offset
    | .fromEnd => s.len - offset
  let nsp := if nsp < 0 then 0 else nsp
  if 0 < s.len ∧ s.len < nsp then s.len else nsp

/-- `String_seek`. -/
def seek (s : DohString) (offset : Int) (whence : Whence) : Option DohString :=
  let nsp := seekTarget s offset whence
  let reached :=
    if s.sp < nsp then seekForward s.text (nsp - s.sp).toNat s.sp s.line
    else seekBackward s.text (s.sp - nsp).toNat s.sp s.line
  reached.map fun r => { s with sp := r.1, line := r.2 }

/-! ## Writing -/

/-- `String_putc`. -/
def putc (s : DohString) (ch : Char) : Option DohString :=
  let line := if ch = '\n' then s.line + 1 else s.line
  if s.sp = s.len then
    some { text := s.text ++ [ch], sp := s.sp + 1, line := line }
  else if 0 ≤ s.sp ∧ s.sp < s.len then
    some { text := s.text.set s.sp.toNat ch, sp := s.sp + 1, line := line }
  else none

/-- `String_write`. -/
def write (s : DohString) (buffer : List Char) : Option DohString :=
  let sp := if s.len < s.sp then s.len else s.sp
  if sp < 0 then none
  else some { s with text := writeAt s.text sp.toNat buffer, sp := sp + buffer.length }

/-- `DohString_append`. -/
def append (s : DohString) (data : List Char) : Option DohString :=
  let text := s.text ++ data
  if s.len ≤ s.sp then
    if s.len + data.length < s.sp then none
    else some { text := text, sp := s.len + data.length,
                line := s.line + newlines (text.drop s.sp.toNat) }
  else some { s with text := text }

def dohEnd : Int := -2

def dohBegin : Int := -1

/-- `String_insert`. -/
def insert (s : DohString) (pos : Int) (data : List Char) : Option DohString :=
  if pos = dohEnd then append s data
  else
    let pos := if pos < 0 then 0 else if s.len < pos then s.len else pos
    let text := s.text.take pos.toNat ++ data ++ s.text.drop pos.toNat
    if pos ≤ s.sp then
      some { text := text, sp := s.sp + data.length, line := s.line + newlines data }
    else some { s with text := text }

/-- `String_delitem`. -/
def delitem (s : DohString) (pos : Int) : Option DohString :=
  let pos := if pos = dohEnd then s.len - 1 else pos
  let pos := if pos = dohBegin then 0 else pos
  if s.len = 0 then some s
  else if pos < 0 ∨ s.len ≤ pos then none
  else
    let text := s.text.eraseIdx pos.toNat
    if pos < s.sp then
      some { text := text, sp := s.sp - 1,
             line := if s.text[pos.toNat]? = some '\n' then s.line - 1 else s.line }
    else some { s with text := text }

/-- `String_delslice`. -/
def delslice (s : DohString) (sindex eindex : Int) : Option DohString :=
  if s.len = 0 then some s
  else
    let eindex := if eindex = dohEnd then s.len else eindex
    let sindex := if sindex = dohBegin then 0 else sindex
    if sindex < 0 ∨ eindex < sindex ∨ s.len < eindex then none
    else
      let size := eindex - sindex
      let text := s.text.take sindex.toNat ++ s.text.drop eindex.toNat
      if sindex < s.sp then
        let stop := if eindex < s.sp then eindex else s.sp
        some { text := text
               sp := if eindex < s.sp then s.sp - size else sindex
               line := s.line -
                 newlines ((s.text.drop sindex.toNat).take (stop - sindex).toNat) }
      else some { s with text := text }

/-- `isspace` in the C locale. -/
def isSpace (c : Char) : Bool :=
  c = ' ' || c = '\t' || c = '\n' || c = '\x0b' || c = '\x0c' || c = '\r'

/-- The loop of `String_chop`, from the last character of the text to the first. -/
def chopLoop : List Char → Int → Int → List Char × Int × Int
  | [], sp, line => ([], sp, line)
  | c :: rest, sp, line =>
      if isSpace c then
        if (rest.length : Int) + 1 ≤ sp then
          chopLoop rest (sp - 1) (if c = '\n' then line - 1 else line)
        else chopLoop rest sp line
      else (c :: rest, sp, line)

/-- `String_chop`. -/
def chop (s : DohString) : DohString :=
  let r := chopLoop s.text.reverse s.sp s.line
  { text := r.1.reverse, sp := r.2.1, line := r.2.2 }

/-- `CopyString`. -/
def copyString (s : DohString) : DohString :=
  { text := s.text, sp := s.sp, line := s.line }

/-- What `replace_simple` does about the position: when the text does not get longer the
new length is compared with, otherwise the old one. -/
def replacedPosition (s : DohString) (token rep : List Char) (rcount : Nat) : Int :=
  let expand : Int := rcount * ((rep.length : Int) - token.length)
  if rep.length ≤ token.length then
    if s.len + expand ≤ s.sp then s.sp + expand else s.sp
  else if s.len ≤ s.sp then s.sp + expand else s.sp

/-- `String_replace`. -/
def replace (s : DohString) (token rep : List Char) (flags : ReplaceFlags) : Option DohString :=
  (stringReplace s.text token rep flags).map fun r =>
    { s with text := r.1, sp := replacedPosition s token rep r.2 }

/-! ## Sequences of operations -/

/-- The operations other than setting the line. -/
inductive Operation
  | getc
  | ungetc (ch : Option Char)
  | seek (offset : Int) (whence : Whence)
  | putc (ch : Char)
  | write (buffer : List Char)
  | append (data : List Char)
  | insert (pos : Int) (data : List Char)
  | delitem (pos : Int)
  | delslice (sindex eindex : Int)
  | replace (token rep : List Char) (flags : ReplaceFlags)
  | chop
  | copy

def Operation.perform (s : DohString) : Operation → Option DohString
  | .getc => (Doh.getc s).map Prod.snd
  | .ungetc ch => some (Doh.ungetc s ch)
  | .seek offset whence => Doh.seek s offset whence
  | .putc ch => Doh.putc s ch
  | .write buffer => Doh.write s buffer
  | .append data => Doh.append s data
  | .insert pos data => Doh.insert s pos data
  | .delitem pos => Doh.delitem s pos
  | .delslice sindex eindex => Doh.delslice s sindex eindex
  | .replace token rep flags => Doh.replace s token rep flags
  | .chop => some (Doh.chop s)
  | .copy => some (copyString s)

/-- The number of the line less the newlines before the position. -/
def DohString.offset (s : DohString) : Int := s.line - newlines (s.text.take s.sp.toNat)

/-- The position is in the text or at its end. -/
def DohString.Placed (s : DohString) : Prop := 0 ≤ s.sp ∧ s.sp ≤ s.len

/-! ## Where the offset is kept -/

/-- The replacement does not touch what the line number says: nothing is replaced; or the
position is at the end and goes along with it; or the line ends are in the same places; or
the position is not behind the first match and stays; or there are no line ends from the
first match on, and the position stays or is not moved back to before it. -/
def ReplaceKept (s : DohString) (token rep : List Char) (flags : ReplaceFlags) : Prop :=
  let positions := wantedPositions flags.mode token s.text flags.noquote flags.first
  let expand : Int := positions.length * ((rep.length : Int) - token.length)
  token = [] ∨
  match positions with
  | [] => True
  | first :: _ =>
      (s.sp = s.len ∧ newlines rep = newlines token) ∨
      (rep.length = token.length ∧ ∀ i : Nat, rep[i]? = some '\n' ↔ token[i]? = some '\n') ∨
      (s.sp ≤ first ∧ (rep.length < token.length → s.sp < s.len + expand)) ∨
      ('\n' ∉ rep ∧ '\n' ∉ s.text.drop first ∧
        (rep.length < token.length → s.sp < s.len + expand ∨ first ≤ s.sp + expand))

/-- A character that is given back is the one before the position, a position ahead is
looked for between two line ends or two other characters, and what is written holds no
line end. -/
def Operation.Kept (s : DohString) : Operation → Prop
  | .ungetc ch => ch = none ∨ 0 < s.sp ∧ s.text[(s.sp - 1).toNat]? = ch
  | .seek offset whence =>
      s.sp < seekTarget s offset whence →
        (s.text[s.sp.toNat]? = some '\n' ↔
          s.text[(seekTarget s offset whence).toNat]? = some '\n')
  | .write buffer => '\n' ∉ buffer
  | .replace token rep flags => ReplaceKept s token rep flags
  | _ => True

/-- A sequence of operations that keep the offset. -/
inductive KeptRun : DohString → DohString → Prop
  | start (s : DohString) : KeptRun s s
  | step {s t u : DohString} {op : Operation} :
      KeptRun s t → op.Kept t → op.perform t = some u → KeptRun s u

end Swig4Ada.Doh

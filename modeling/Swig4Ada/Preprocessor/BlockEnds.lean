import Swig4Ada.Preprocessor.Blocks

/-!
# Where blocks end

A block of code ends at the first percent sign and brace; a macro and an included file end at
the word that matches the one they begin with, when the words that open others in them are
counted. These are the ends that the text of a block shows, whatever stands before a word.
-/

namespace Swig4Ada.Preprocessor

inductive BlockKind
  /-- `%{` -/
  | code
  | define
  | beginfile
deriving DecidableEq, Repr

namespace BlockKind

def decl : BlockKind → List Char
  | code => []
  | define => "%define".toList
  | beginfile => "%beginfile".toList

/-- What ends a block, behind its percent sign. -/
def closer : BlockKind → List Char
  | code => ['}']
  | define => "enddef".toList
  | beginfile => "endoffile".toList

/-- What opens a block in the block. -/
def opener : BlockKind → Option (List Char)
  | code => none
  | define => some "define".toList
  | beginfile => some "beginfile".toList

/-- The number of characters behind a word that must be white space. -/
def spaces : BlockKind → Nat
  | code => 0
  | define | beginfile => 1

end BlockKind

/-- A text begins with a percent sign and a word, and white space where it is needed. -/
def beginsWith (kind : BlockKind) (word t : List Char) : Bool :=
  ('%' :: word).isPrefixOf t &&
    (kind.spaces = 0 || (t.drop (word.length + 1)).head?.any isSpace)

/-- A text begins with a keyword: whether this is the one that ends a block. -/
def keywordAt (kind : BlockKind) (t : List Char) : Option Bool :=
  if beginsWith kind kind.closer t then some true
  else if kind.opener.any (beginsWith kind · t) then some false
  else none

/-- The text behind the end of a block in which `n` other blocks are open. -/
def blockEnd (kind : BlockKind) : Nat → List Char → Option (List Char)
  | _, [] => none
  | n, c :: t =>
      match keywordAt kind (c :: t) with
      | none => blockEnd kind n t
      | some false => blockEnd kind (n + 1) t
      | some true =>
          if n = 0 then some (t.drop (kind.closer.length + kind.spaces))
          else blockEnd kind (n - 1) t

variable {σ : Type} (W : FileWorld σ)

/-- A block that has just been opened. -/
structure OpenBlock (σ : Type) where
  kind : BlockKind
  state : FileState σ
  mode : state.line.mode = if kind = .code then .code else .swigBlock
  part : kind ≠ .code → state.part = .body
  decl : kind ≠ .code → state.line.decl = kind.decl
  chunk : kind = .define → state.line.chunk = []
  dlevel : state.dlevel = if kind = .define then 1 else 0
  filelevel : state.filelevel = if kind = .beginfile then 1 else 0

def InBlock (kind : BlockKind) (fs : FileState σ) : Prop :=
  if kind = .code then fs.line.mode = .code ∨ fs.line.mode = .codePercent
  else fs.line.mode = .swigBlock

/-- The state behind a block: that of ordinary text, of which a blank has been read or
nothing. -/
structure Ordinary (blank : List Char) (fs : FileState σ) : Prop where
  mode : fs.line.mode = .start ∨ fs.line.mode = .text
  chunk : fs.line.chunk = blank
  dlevel : fs.dlevel = 0
  filelevel : fs.filelevel = 0

/-- A block is left with the last character before `rest`, and not before. -/
def EndsBefore (kind : BlockKind) (fs : FileState σ) (t rest : List Char) : Prop :=
  ∃ body blank, t = body ++ blank ++ rest ∧ blank.length = kind.spaces ∧
    (∀ u, u <+: body ++ blank → u ≠ body ++ blank → InBlock kind (fileRun W fs u)) ∧
    Ordinary blank (fileRun W fs (body ++ blank))

/-- The block is left before a rest of the text, or never. -/
def Leaves (kind : BlockKind) (fs : FileState σ) (t : List Char) : Option (List Char) → Prop
  | some rest => EndsBefore W kind fs t rest
  | none => ∀ u, u <+: t → InBlock kind (fileRun W fs u)

/-- The machine leaves a block where it ends, and where it does not end it is never left. -/
def BlockEnds (b : OpenBlock σ) (t : List Char) : Prop :=
  Leaves W b.kind b.state t (blockEnd b.kind 0 t)

/-! ## What the machine reads -/

/-- A percent sign and these characters may be the beginning of a keyword. -/
def isPartial (kind : BlockKind) (read : List Char) : Bool :=
  (read ≠ kind.closer && read.isPrefixOf kind.closer) ||
    kind.opener.any fun word => read ≠ word && read.isPrefixOf word

/-- What has been read of a possible keyword, behind its percent sign. -/
def readKeyword (kind : BlockKind) : Option (List Char) → Char → Option (List Char)
  | none, c => if c = '%' then some [] else none
  | some read, c => if isPartial kind (read ++ [c]) then some (read ++ [c]) else none

/-- Each keyword up to the end of the block, or each of the ones in question, begins where
no other is being read. -/
def Seen (kind : BlockKind) (which : Bool → Prop) (t : List Char) : Prop :=
  ∀ before after closes, t = before ++ after → keywordAt kind after = some closes → which closes →
    (∀ rest, blockEnd kind 0 t = some rest → rest.length < after.length) →
      before.foldl (readKeyword kind) none = none

end Swig4Ada.Preprocessor

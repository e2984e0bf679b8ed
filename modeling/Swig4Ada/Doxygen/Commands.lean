import Swig4Ada.Doh.Replace
import Swig4Ada.Lib.CText

/-!
# Doxygen commands (`Source/Doxygen/doxycommands.h`)

The names of the commands, with how they are parsed. HTML tags stand there with the opening
bracket, entities with the ampersand. A command that is in none of the tables can be an alias
or be ignored by a feature of the node.
-/

namespace Swig4Ada.Doxygen

def sectionIndicators : List String :=
  ["attention", "author", "authors", "brief", "bug", "cond", "date", "deprecated", "details",
    "else", "elseif", "endcond", "endif", "exception", "if", "ifnot", "invariant", "note", "par",
    "param", "tparam", "post", "pre", "remarks", "remark", "result", "return", "returns",
    "retval", "sa", "see", "since", "test", "throw", "throws", "todo", "version", "warning",
    "xrefitem"]

def simpleCommands : List String :=
  ["n", "$", "@", "\\", "&", "~", "<", ">", "#", "%", "\"", ".", "::", "endcond", "callgraph",
    "callergraph", "showinitializer", "hideinitializer", "internal", "nosubgrouping", "public",
    "publicsection", "private", "privatesection", "protected", "protectedsection",
    "tableofcontents"]

def commandWords : List String :=
  ["a", "b", "c", "e", "em", "p", "def", "enum", "package", "relates", "namespace",
    "relatesalso", "anchor", "dontinclude", "include", "includelineno", "copydoc", "copybrief",
    "copydetails", "verbinclude", "htmlinclude", "extends", "implements", "memberof", "related",
    "relatedalso", "cite"]

def commandLines : List String :=
  ["addindex", "fn", "name", "line", "var", "skipline", "typedef", "skip", "until", "property"]

def commandParagraph : List String :=
  ["partofdescription", "result", "return", "returns", "remarks", "remark", "since", "test",
    "sa", "see", "pre", "post", "details", "invariant", "deprecated", "date", "note", "warning",
    "version", "todo", "bug", "attention", "brief", "author", "authors", "copyright", "short"]

def commandEndCommands : List String :=
  ["htmlonly", "latexonly", "manonly", "xmlonly", "link", "rtfonly"]

def commandWordParagraphs : List String :=
  ["param", "tparam", "throw", "throws", "retval", "exception", "example"]

def commandWordLines : List String :=
  ["page", "subsection", "subsubsection", "section", "paragraph", "defgroup", "snippet",
    "mainpage"]

def commandWordOWordOWords : List String :=
  ["category", "class", "protocol", "interface", "struct", "union"]

def commandOWords : List String :=
  ["dir", "file", "cond"]

def commandErrorThrowings : List String :=
  ["annotatedclassstd::list", "classhierarchy", "define", "functionindex", "header",
    "headerfilestd::list", "inherit", "l", "postheader", "endcode", "enddot", "endmsc",
    "endhtmlonly", "endlatexonly", "endmanonly", "endlink", "endverbatim", "endxmlonly", "f]",
    "f\x7d", "endif", "else", "endrtfonly"]

def commandUniques : List String :=
  ["xrefitem", "arg", "ingroup", "par", "headerfile", "overload", "weakgroup", "ref", "subpage",
    "dotfile", "image", "addtogroup", "li", "if", "ifnot", "elseif", "else", "mscfile", "code",
    "verbatim", "f\x7b", "f[", "f$", "dot", "msc"]

def commandHtml : List String :=
  ["<a", "<b", "<blockquote", "<body", "<br", "<center", "<caption", "<code", "<dd", "<dfn",
    "<div", "<dl", "<dt", "<em", "<form", "<hr", "<h1", "<h2", "<h3", "<i", "<input", "<img",
    "<li", "<meta", "<multicol", "<ol", "<p", "<pre", "<small", "<span", "<strong", "<sub",
    "<sup", "<table", "<td", "<th", "<tr", "<tt", "<kbd", "<ul", "<var"]

def commandHtmlEntities : List String :=
  ["&copy", "&trade", "&reg", "&lt", "&gt", "&amp", "&apos", "&quot", "&lsquo", "&rsquo",
    "&ldquo", "&rdquo", "&ndash", "&mdash", "&nbsp", "&times", "&minus", "&sdot", "&sim", "&le",
    "&ge", "&larr", "&rarr"]

inductive DoxyCommandEnum
  | none
  | simpleCommand
  | commandWord
  | commandLine
  | commandParagraph
  | commandEndCommand
  | commandWordParagraph
  | commandWordLine
  | commandWordOWordWord
  | commandOWord
  | commandErrorThrow
  | commandUnique
  | commandHtml
  | commandHtmlEntity
  | commandAlias
  | commandIgnore
deriving DecidableEq, Repr

/-- `fillTables`, in the order in which the tables are filled in. -/
def commandTables : List (List String × DoxyCommandEnum) :=
  [(simpleCommands, .simpleCommand), (commandWords, .commandWord), (commandLines, .commandLine),
    (commandParagraph, .commandParagraph), (commandEndCommands, .commandEndCommand),
    (commandWordParagraphs, .commandWordParagraph), (commandWordLines, .commandWordLine),
    (commandWordOWordOWords, .commandWordOWordWord), (commandOWords, .commandOWord),
    (commandErrorThrowings, .commandErrorThrow), (commandUniques, .commandUnique),
    (Doxygen.commandHtml, .commandHtml), (commandHtmlEntities, .commandHtmlEntity)]

/-- The characters that `tolower` gives. -/
def stringToLower (s : List Char) : List Char := s.map Char.toLower

/-- A name in two tables is of the kind of the later one. -/
def doxygenCommands (name : List Char) : Option DoxyCommandEnum :=
  (commandTables.reverse.find? fun t => t.1.any (·.toList = name)).map Prod.snd

def isSectionIndicator (s : List Char) : Bool :=
  sectionIndicators.any (·.toList = stringToLower s)

/-- The features of the node: the aliases, the commands that are ignored, and the command at
the end of what is ignored, or an empty one. -/
structure Features where
  aliased : List Char → Bool
  ignored : List Char → Bool
  endCommand : List Char → List Char

/-- `commandBelongs`. The end command of one that is ignored becomes ignored as well: `ends`
are those for which that was done. -/
def commandBelongs (features : Features) (ends : List (List Char)) (cmd : List Char) :
    DoxyCommandEnum × List (List Char) :=
  match doxygenCommands (stringToLower cmd) with
  | some kind => (kind, ends)
  | none =>
      if features.aliased cmd then (.commandAlias, ends)
      else if features.ignored cmd ∨ cmd ∈ ends then
        let endCommand := features.endCommand cmd
        (.commandIgnore, if endCommand = [] then ends else endCommand :: ends)
      else (.none, ends)

end Swig4Ada.Doxygen

import PugComponents.Text.Split
import PugComponents.Text.WhiteSpace

/- Markers: the first token of a line, which decides what the rest of the line
   means. Among the markers that a text starts with the longest counts, and of
   two equally long ones a keyword comes before a tag name. -/
namespace PugComponents.Template

open Text

/-- The word markers. -/
inductive Keyword
  | doctype
  | ifTest
  | unlessTest
  | elseBranch
  | caseOf
  | whenBranch
  | defaultBranch
  | each
  | forEach
  | whileLoop
  | mixin
  | includeFile
  | extendsFile
  | block
  | append
  | prepend
  deriving DecidableEq, Repr

namespace Keyword

/-- The written word. -/
def text : Keyword → String
  | doctype => "doctype"
  | ifTest => "if"
  | unlessTest => "unless"
  | elseBranch => "else"
  | caseOf => "case"
  | whenBranch => "when"
  | defaultBranch => "default"
  | each => "each"
  | forEach => "for"
  | whileLoop => "while"
  | mixin => "mixin"
  | includeFile => "include"
  | extendsFile => "extends"
  | block => "block"
  | append => "append"
  | prepend => "prepend"

/-- All keywords. -/
def all : List Keyword :=
  [doctype, ifTest, unlessTest, elseBranch, caseOf, whenBranch, defaultBranch, each, forEach,
   whileLoop, mixin, includeFile, extendsFile, block, append, prepend]

/-- What may follow the word for it to be a keyword: the end, white space, a colon after `include`
and `default`, a parenthesis after the words that take a test. -/
def mayPrecede (k : Keyword) : List Char → Bool
  | [] => true
  | c :: _ =>
    isWhiteSpace c || (c == ':' && (k == includeFile || k == defaultBranch)) ||
      (c == '(' && (k == ifTest || k == unlessTest || k == whileLoop || k == caseOf))

end Keyword

/-- The first token of a line. -/
inductive Marker
  | keyword (k : Keyword)
  /-- Two slashes and a hyphen. -/
  | silentComment
  /-- Two slashes. -/
  | comment
  /-- A bar before text. -/
  | pipe
  /-- A hyphen before statements. -/
  | code
  /-- An equals sign before an expression. -/
  | bufferedCode
  /-- `!=` before an expression. -/
  | unescapedCode
  /-- A plus sign and a name. -/
  | mixinCall
  /-- A colon and a name. -/
  | filter
  /-- A hash sign and an opening brace. -/
  | interpolatedTag
  | tagName
  /-- A dot and a name. -/
  | className
  /-- A hash sign and a name. -/
  | idName
  /-- An opening angle bracket. -/
  | html
  deriving DecidableEq, Repr

namespace Marker

/-- How a marker is called in messages. -/
def describe : Marker → String
  | keyword k => "'" ++ k.text ++ "'"
  | silentComment => "'//-'"
  | comment => "'//'"
  | pipe => "'|'"
  | code => "'-'"
  | bufferedCode => "'='"
  | unescapedCode => "'!='"
  | mixinCall => "mixin call"
  | filter => "filter"
  | interpolatedTag => "'#\x7b'"
  | tagName => "tag name"
  | className => "class name"
  | idName => "id"
  | html => "'<'"

/-- A character that tag, class, id and block names go on with: an ASCII letter or digit, an
underscore or a hyphen. -/
def isNamePart (c : Char) : Bool := c.isAlphanum || c == '_' || c == '-'

/-- A character that class, id and block names start with: an ASCII letter, an underscore or a
hyphen. -/
def isNameStart (c : Char) : Bool := c.isAlpha || c == '_' || c == '-'

/-- The length of the name a text starts with; zero if there is none. -/
def nameLength : List Char → Nat
  | [] => 0
  | c :: cs => if isNameStart c then 1 + (cs.takeWhile isNamePart).length else 0

/-- The length of a fixed text at the front. -/
def literalLength? (literal : String) (text : List Char) : Option Nat :=
  if startsWith text literal.toList then some literal.length else none

/-- The length of a word at the front: one character of the class `first`, then characters of the
class `next`. -/
def wordLength? (first next : Char → Bool) : List Char → Option Nat
  | [] => none
  | c :: cs => if first c then some (1 + (cs.takeWhile next).length) else none

/-- The length of a word after a lead character. -/
def ledLength? (lead : Char) (first next : Char → Bool) : List Char → Option Nat
  | [] => none
  | c :: cs => if c == lead then (wordLength? first next cs).map (1 + ·) else none

/-- The markers with one spelling. -/
def literals : List (Marker × String) :=
  [(silentComment, "//-"), (comment, "//"), (pipe, "|"), (code, "-"), (bufferedCode, "="),
   (unescapedCode, "!="), (interpolatedTag, "#\x7b"), (html, "<")]

/-- The markers with the lengths they match at the front of a text. A marker comes before the
markers that it wins against at equal length. -/
def candidates (text : List Char) : List (Marker × Nat) :=
  let words : List (Marker × Option Nat) :=
    [(mixinCall, ledLength? '+' (fun c => c.isAlpha || c == '_' || c == '$')
        (fun c => isNamePart c || c == '$') text),
     (filter, ledLength? ':' (fun c => c.isAlpha || c == '_') isNamePart text),
     (className, ledLength? '.' isNameStart isNamePart text),
     (idName, ledLength? '#' isNameStart isNamePart text),
     (tagName, wordLength? Char.isAlpha isNamePart text)]
  literals.filterMap (fun (m, s) => (literalLength? s text).map (m, ·)) ++
    Keyword.all.filterMap (fun k => (literalLength? k.text text).map (keyword k, ·)) ++
    words.filterMap (fun (m, n) => n.map (m, ·))

/-- The first of the longest matches. -/
def longest? : List (Marker × Nat) → Option (Marker × Nat)
  | [] => none
  | m :: ms =>
    match longest? ms with
    | none => some m
    | some best => if best.2 ≤ m.2 then some m else some best

/-- The longest marker at the front of a text, and its length. -/
def scan? (text : List Char) : Option (Marker × Nat) := longest? (candidates text)

/-- The marker of a line, and its length. A keyword that is followed by what cannot follow it is a
tag name. -/
def leading? (text : List Char) : Option (Marker × Nat) :=
  match scan? text with
  | some (keyword k, n) =>
    if k.mayPrecede (text.drop n) then some (keyword k, n) else some (tagName, n)
  | other => other

end Marker

end PugComponents.Template

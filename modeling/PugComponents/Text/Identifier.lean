import PugComponents.Text.Numeric
import PugComponents.Text.LetterCase
import PugComponents.Text.Split

/- Identifiers: which texts are names of bindings, and how a name is made of
   any text. -/
namespace PugComponents.Text

/-- A character that can start an identifier. -/
def startsIdentifier (c : Char) : Bool := isAlphabetic c || c == '_' || c == '$'

/-- A character that can stand further on in an identifier. -/
def continuesIdentifier (c : Char) : Bool := isAlphanumeric c || c == '_' || c == '$'

/-- An identifier: a letter, underscore or dollar sign, then such characters and numbers. -/
def isIdentifier : List Char → Bool
  | [] => false
  | c :: cs => startsIdentifier c && cs.all continuesIdentifier

/-- One word of a name: the characters that an identifier can hold, the first one in upper case and
the others in lower case. -/
def capitalized (segment : List Char) : List Char :=
  match segment.filter (fun c => isAlphanumeric c || c == '$') with
  | [] => []
  | c :: cs => toUpper c ++ cs.flatMap toLower

/-- The name of a binding made of any text: its words, cut at hyphens and underscores, capitalized
and joined. A leading digit is kept off the front by an underscore, and a text without a word gives
`Component`. -/
def bindingName (name : String) : String :=
  let words := (splitWhere (fun c => c == '-' || c == '_') name.toList).flatMap capitalized
  match words with
  | [] => "Component"
  | c :: cs => if c.isDigit then String.ofList ('_' :: c :: cs) else String.ofList (c :: cs)

end PugComponents.Text

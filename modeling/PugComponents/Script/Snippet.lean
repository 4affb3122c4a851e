import PugComponents.Script.Statement
import PugComponents.Text.WhiteSpace

/- Snippets: the two ways a template embeds script. An expression snippet is
   one expression and nothing else; a statement snippet is a whole script. Both
   keep the text as written and only cut it. -/
namespace PugComponents.Script

open Text (trim)

/-- An accepted expression, as written. -/
structure Embedded where
  source : String
  strength : Strength
  deriving DecidableEq, Repr, Inhabited

/-- A statement of an accepted script, as written. -/
inductive EmbeddedStatement
  | expression (embedded : Embedded)
  | other (source : String)
  deriving DecidableEq, Repr

/-- Why a snippet is refused. -/
inductive SnippetError
  /-- It is not an expression, or not a script. -/
  | malformed
  /-- An expression is read, and this text is left over. -/
  | leftover (text : String)
  deriving DecidableEq, Repr

/-- The rules that refuse everything. -/
def noRules : Rules where
  assignment := fun _ => Reader.refuse
  unary := fun _ => Reader.refuse
  callee := fun _ => Reader.refuse
  leftHand := fun _ => Reader.refuse
  statement := fun _ _ => Reader.refuse
  binding := fun _ => Reader.refuse
  markup := fun _ _ => Reader.refuse

/-- The rules whose recursive uses are the given rules. -/
def Rules.layer (r : Rules) : Rules where
  assignment := assignmentRule r
  unary := fun c => unaryRule r c false
  callee := fun c => newOrMember r c false
  leftHand := fun c => leftHandRule r c false
  statement := statementRule r
  binding := bindingRule r
  markup := markupRule r

/-- The rules, of which none may be nested `n` deep. -/
def rules : Nat → Rules
  | 0 => noRules
  | n + 1 => (rules n).layer

/-- The rules for a text. Between two nested uses of a rule at least one character is read, save
for a constant number of steps from rule to rule. -/
def rulesFor (text : List Char) : Rules := rules (4 * text.length + 8)

/-- The part of a text between two places, which are counted from its end. -/
def slice (text : List Char) (start stop : Nat) : List Char :=
  (text.drop (text.length - start)).take (start - stop)

/-- The part of a text that a term spans, with the strength of its outermost operator. -/
def Term.embedded (text : List Char) (term : Term) : Embedded :=
  ⟨String.ofList (slice text term.start term.stop), term.shape.strength⟩

/-- A line that names an interpreter starts here. -/
def startsHashbang : List Char → Bool
  | '#' :: '!' :: _ => true
  | _ => false

/-- Reads one expression from the front of a text. The operator `in` is not allowed at its top
level. -/
def readExpression (text : List Char) : Option Term := do
  if startsHashbang text then none
  let cursor ← Cursor.first? text
  let (term, _) ← expression (rulesFor text) { allowIn := false } cursor
  some term

/-- Reads a whole script. -/
def readScript (text : List Char) : Option (List Statement) := do
  let body := if startsHashbang text then text.dropWhile (!isLineTerminator ·) else text
  let cursor ← Cursor.first? body
  let (script, _) ← statements (rulesFor text) { allowIn := false } true true .endOfText cursor
  some script

/-- Accepts a text that is one expression and nothing else but white space. -/
def expressionSnippet (source : String) : Except SnippetError Embedded :=
  let text := source.toList
  match readExpression text with
  | none => .error .malformed
  | some term =>
    let left := trim (slice text term.stop 0)
    if left.isEmpty then .ok (term.embedded text)
    else .error (.leftover (String.ofList left))

/-- What is kept of a statement: nothing of an empty one, the expression of an expression
statement, the text of any other. -/
def Statement.embedded? (text : List Char) : Statement → Option EmbeddedStatement
  | .empty => none
  | .expression term => some (.expression (term.embedded text))
  | .other start stop => some (.other (String.ofList (slice text start stop)))

/-- Accepts a text that is a script. -/
def statementSnippet (source : String) : Except SnippetError (List EmbeddedStatement) :=
  match readScript source.toList with
  | none => .error .malformed
  | some script => .ok (script.filterMap (·.embedded? source.toList))

/-- How snippets are read. The rest of the library knows no more of scripts than this. -/
structure SnippetReader where
  expression : String → Except SnippetError Embedded
  statements : String → Except SnippetError (List EmbeddedStatement)

/-- Snippets are read by the script grammar. -/
def SnippetReader.standard : SnippetReader := ⟨expressionSnippet, statementSnippet⟩

end PugComponents.Script

import PugComponents.Template.Marker
import PugComponents.Template.Span

/- Faults: what can be wrong with a template, where, and how it is worded. A
   fault never stops the reading. -/
namespace PugComponents.Template

/-- What should have stood where something else was found. -/
inductive Expectation
  /-- At the start of a line. -/
  | lineHead
  /-- After `else`. -/
  | elseTail
  | blockName
  /-- After the head of a tag. -/
  | tagTail
  | attributeName
  /-- After an exclamation mark between attribute and value. -/
  | unescapedEquals
  deriving DecidableEq, Repr

/-- How an expectation is worded. -/
def Expectation.describe : Expectation → String
  | lineHead => "tag, text or keyword"
  | elseTail => "'if' or end of line"
  | blockName => "block name"
  | tagTail => "attributes, text or ':'"
  | attributeName => "attribute name"
  | unescapedEquals => "'!='"

/-- What is wrong with the header of a loop over a collection. -/
inductive EachProblem
  | noSeparator
  | invalidBinding (binding : String)
  | tooManyBindings
  | noCollection
  deriving DecidableEq, Repr

/-- How a problem of a loop header is worded. -/
def EachProblem.message : EachProblem → String
  | noSeparator => "expected \x60in\x60 or \x60of\x60"
  | invalidBinding binding => "invalid binding \x60" ++ binding ++ "\x60"
  | tooManyBindings => "expected at most two bindings"
  | noCollection => "missing collection expression"

/-- What is wrong with a mixin declaration or call. -/
inductive MixinProblem
  | noName
  | afterDeclaration (text : String)
  | afterCall (text : String)
  deriving DecidableEq, Repr

/-- How a problem of a mixin is worded. -/
def MixinProblem.message : MixinProblem → String
  | noName => "expected a mixin name"
  | afterDeclaration text => "unexpected \x60" ++ text ++ "\x60 after mixin declaration"
  | afterCall text => "unexpected \x60" ++ text ++ "\x60 after mixin call"

/-- A part of a line that is missing or that does not belong there. -/
inductive SyntaxProblem
  | noCondition (keyword : Keyword)
  | noMatcher
  | noSubject
  | noExtendsPath
  | noIncludePath
  /-- Something follows an interpolated tag. -/
  | interpolatedTagContent
  | selfClosingContent
  /-- A colon without a tag after it. -/
  | noExpansion
  | noAttributeValue (name : String)
  deriving DecidableEq, Repr

/-- How a missing or misplaced part is worded. -/
def SyntaxProblem.message : SyntaxProblem → String
  | noCondition keyword => "expected a condition after " ++ (Marker.keyword keyword).describe
  | noMatcher => "expected an expression after \x60when\x60"
  | noSubject => "expected an expression after 'case'"
  | noExtendsPath => "expected a path after 'extends'"
  | noIncludePath => "expected a path after 'include'"
  | interpolatedTagContent => "interpolated tags cannot carry attributes or inline content"
  | selfClosingContent => "self-closing tags cannot have content"
  | noExpansion => "expected a tag after \x60:\x60"
  | noAttributeValue name => "missing value for attribute \x60" ++ name ++ "\x60"

/-- Why a template is faulty. -/
inductive Cause
  | unexpectedToken (expected : Expectation) (found : String)
  | inconsistentIndentation (expected found : Nat)
  | unexpectedChildren (kind : String)
  | orphanElse
  | orphanWhen (keyword : Keyword)
  | invalidCaseChild
  | invalidEach (problem : EachProblem)
  | unsupportedEachElse
  | unclosedDelimiter (delimiter : Char)
  | invalidMixin (problem : MixinProblem)
  | syntaxProblem (problem : SyntaxProblem)
  deriving DecidableEq, Repr

/-- How a cause is worded. -/
def Cause.message : Cause → String
  | unexpectedToken expected found =>
    "unexpected token: expected " ++ expected.describe ++ ", found '" ++ found ++ "'"
  | inconsistentIndentation expected found =>
    "inconsistent indentation: expected " ++ toString expected ++ " columns, found " ++
      toString found
  | unexpectedChildren kind => kind ++ " cannot have nested content"
  | orphanElse => "\x60else\x60 must follow an \x60if\x60 or \x60unless\x60 block"
  | orphanWhen keyword =>
    "\x60" ++ keyword.text ++ "\x60 is only allowed inside a \x60case\x60 block"
  | invalidCaseChild => "\x60case\x60 may only contain \x60when\x60 and \x60default\x60 branches"
  | invalidEach problem => "invalid \x60each\x60 header: " ++ problem.message
  | unsupportedEachElse => "\x60else\x60 after \x60each\x60 is not supported"
  | unclosedDelimiter delimiter => "unclosed delimiter \x60" ++ String.singleton delimiter ++ "\x60"
  | invalidMixin problem => "invalid mixin: " ++ problem.message
  | syntaxProblem problem => problem.message

/-- A cause at a place. -/
structure Fault where
  cause : Cause
  span : Span
  deriving DecidableEq, Repr

/-- The wording of a fault. -/
def Fault.message (f : Fault) : String := f.cause.message

end PugComponents.Template

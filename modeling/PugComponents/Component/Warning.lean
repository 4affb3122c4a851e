import PugComponents.Script.Snippet
import PugComponents.Template.Span

/- What conversion has to say about a template that was read: warnings for
   constructs that are skipped, and the failure that ends a conversion. -/
namespace PugComponents.Component

open Script (SnippetError)
open Template (Span)

/-- Why a construct is skipped. -/
inductive WarningCause
  /-- An include that is not at the top level. -/
  | includePosition (path : String)
  /-- An include of a file that is no template. -/
  | rawInclude (path : String)
  | mixinCall (name : String)
  /-- A node of this kind outside the blocks of a file that extends. -/
  | outsideBlock (kind : String)
  deriving DecidableEq, Repr

/-- The code of a warning. -/
def WarningCause.code : WarningCause → String
  | includePosition _ => "unsupported-include-position"
  | rawInclude _ => "unsupported-raw-include"
  | mixinCall _ => "unsupported-mixin-call"
  | outsideBlock _ => "ignored-content-outside-block"

/-- How a warning is worded. -/
def WarningCause.message : WarningCause → String
  | includePosition path =>
    "include of \x60" ++ path ++ "\x60 is only supported at the top level; move it into a mixin"
  | rawInclude path => "include of non-pug file \x60" ++ path ++ "\x60 must be converted by hand"
  | mixinCall name => "mixin call \x60+" ++ name ++ "\x60 is not expanded"
  | outsideBlock kind => kind ++ " outside a block is ignored in a file that extends"

/-- A warning at a place. -/
structure Warning where
  cause : WarningCause
  span : Span
  deriving DecidableEq, Repr

/-- The code of a warning. -/
def Warning.code (w : Warning) : String := w.cause.code

/-- The wording of a warning. -/
def Warning.message (w : Warning) : String := w.cause.message

/-- Why a template cannot be converted. -/
inductive Failure
  /-- A node of this kind has no counterpart. -/
  | unsupported (kind : String) (span : Span)
  /-- A snippet is refused. -/
  | script (snippet : String) (error : SnippetError) (span : Span)
  deriving DecidableEq, Repr

/-- What is said of a refused snippet. A snippet that is no script at all has no wording of its own,
only a mark. -/
def snippetMessage : SnippetError → String
  | .malformed => "<js>"
  | .leftover text => "unexpected \x60" ++ text ++ "\x60 after expression"

namespace Failure

/-- The place of a failure. -/
def span : Failure → Span
  | unsupported _ s => s
  | script _ _ s => s

/-- How a failure is worded. -/
def message : Failure → String
  | unsupported kind _ => "unsupported pug node type: " ++ kind
  | script snippet error _ =>
    "invalid embedded JavaScript \x60" ++ snippet ++ "\x60: " ++ snippetMessage error

end Failure

end PugComponents.Component

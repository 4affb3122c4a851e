import PugComponents.Component.Target
import PugComponents.Component.Warning

/- The journal of a conversion: what happened in which order, and the imports
   that were found below the top level. It is kept also when the conversion
   fails. -/
namespace PugComponents.Component

open Jsx (Import)
open Template (Span)

/-- What a template node gives to the list it stands in. -/
inductive Lowered
  | nothing
  | one (target : Target)
  /-- Several targets, which take the place of the node. -/
  | many (targets : List Target)

/-- The targets of a node. -/
def Lowered.targets : Lowered → List Target
  | nothing => []
  | one target => [target]
  | many targets => targets

/-- How the result of a node is described. -/
def Lowered.describe : Lowered → String
  | nothing => "nothing"
  | one target => target.kind
  | many targets => toString targets.length ++ " nodes"

/-- How much an event matters. -/
inductive Level
  | debug
  | warn
  deriving DecidableEq, Repr

/-- Something that happened during a conversion. -/
inductive Event
  /-- A template was read, with so many nodes at its top level and so many faults. -/
  | parsed (file : Option String) (nodes faults : Nat)
  /-- A node of this kind was converted. -/
  | lowered (kind result : String)
  | warned (w : Warning)

namespace Event

/-- How much an event matters. -/
def level : Event → Level
  | parsed .. | lowered .. => .debug
  | warned _ => .warn

/-- How an event is worded. -/
def message : Event → String
  | parsed file nodes faults =>
    "parsed " ++ file.getD "<input>" ++ ": " ++ toString nodes ++ " top-level nodes, " ++
      toString faults ++ " errors"
  | lowered kind result => kind ++ " -> " ++ result
  | warned w => w.code ++ ": " ++ w.message

/-- The warning of an event. -/
def warning? : Event → Option Warning
  | warned w => some w
  | _ => none

end Event

/-- What a conversion leaves beside its result. -/
structure Journal where
  events : List Event
  /-- Imports from below the top level. -/
  imports : List Import

namespace Journal

/-- The journal without entries. -/
def empty : Journal := ⟨[], []⟩

instance : Inhabited Journal := ⟨empty⟩

/-- One journal after another. -/
def append (a b : Journal) : Journal := ⟨a.events ++ b.events, a.imports ++ b.imports⟩

/-- The warnings of a journal, in order. -/
def warnings (j : Journal) : List Warning := j.events.filterMap Event.warning?

end Journal

/-- A step of a conversion: it leaves a journal and has a result or fails. -/
structure Lower (α : Type) where
  journal : Journal
  result : Except Failure α

namespace Lower

variable {α β : Type}

/-- A step that only has a result. -/
def pure (a : α) : Lower α := ⟨.empty, .ok a⟩

/-- One step after another. After a failure nothing happens. -/
def bind (x : Lower α) (f : α → Lower β) : Lower β :=
  match x.result with
  | .error e => ⟨x.journal, .error e⟩
  | .ok a =>
    let y := f a
    ⟨x.journal.append y.journal, y.result⟩

instance : Monad Lower where
  pure := Lower.pure
  bind := Lower.bind

/-- The conversion fails. -/
def fail (e : Failure) : Lower α := ⟨.empty, .error e⟩

/-- An event is noted. -/
def note (e : Event) : Lower Unit := ⟨⟨[e], []⟩, .ok ()⟩

/-- A warning is given. -/
def warn (cause : WarningCause) (span : Span) : Lower Unit := note (.warned ⟨cause, span⟩)

/-- An import is kept for the module. -/
def hoist (i : Import) : Lower Unit := ⟨⟨[], [i]⟩, .ok ()⟩

@[simp]
theorem pure_eq (a : α) : (Pure.pure a : Lower α) = ⟨.empty, .ok a⟩ := rfl

theorem bind_ok {x : Lower α} {a : α} (h : x.result = .ok a) (f : α → Lower β) :
    (x >>= f) = ⟨x.journal.append (f a).journal, (f a).result⟩ := by
  change Lower.bind x f = _
  simp [Lower.bind, h]

theorem bind_error {x : Lower α} {e : Failure} (h : x.result = .error e) (f : α → Lower β) :
    (x >>= f) = ⟨x.journal, .error e⟩ := by
  change Lower.bind x f = _
  simp [Lower.bind, h]

end Lower

end PugComponents.Component

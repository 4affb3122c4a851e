/- Spans: stretches of a template's source by byte offsets. -/
namespace PugComponents.Template

/-- The bytes from `start` up to `stop`. -/
structure Span where
  start : Nat
  stop : Nat
  deriving DecidableEq, Repr, Inhabited

/-- The span between two offsets; empty if they are out of order. -/
def Span.between (start stop : Nat) : Span := ⟨start, max start stop⟩

/-- The empty span at an offset. -/
def Span.empty (at_ : Nat) : Span := ⟨at_, at_⟩

theorem Span.between_le (start stop : Nat) :
    (Span.between start stop).start ≤ (Span.between start stop).stop :=
  Nat.le_max_left _ _

end PugComponents.Template

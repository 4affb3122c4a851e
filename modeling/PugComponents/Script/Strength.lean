/- How strongly the outermost operator of an expression binds. The printer
   parenthesizes an operand that binds more loosely than its place requires. -/
namespace PugComponents.Script

/-- Binding strengths, from loosest to tightest. -/
inductive Strength
  /-- A comma expression. -/
  | sequence
  /-- Assignments, arrow functions and `yield`. -/
  | assignment
  /-- The ternary operator. -/
  | conditional
  /-- Binary and logical operators. -/
  | binary
  /-- Prefix and postfix operators, `await`, `new` without arguments, number literals. -/
  | unary
  /-- Everything that never needs parentheses. -/
  | primary
  deriving DecidableEq, Repr, Inhabited

namespace Strength

/-- The place of a strength in the order. -/
def rank : Strength → Nat
  | sequence => 0
  | assignment => 1
  | conditional => 2
  | binary => 3
  | unary => 4
  | primary => 5

instance : LT Strength := ⟨fun a b => a.rank < b.rank⟩

instance (a b : Strength) : Decidable (a < b) := inferInstanceAs (Decidable (a.rank < b.rank))

/-- The strengths in order. -/
def all : List Strength := [sequence, assignment, conditional, binary, unary, primary]

/-- An operand of this strength is parenthesized where `required` is asked for. -/
def needsParens (self required : Strength) : Bool := decide (self < required)

end Strength

end PugComponents.Script

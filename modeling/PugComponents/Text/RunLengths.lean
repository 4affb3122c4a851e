/- Sets of code points by run lengths: so many code points are outside, then so
   many inside, and so on by turns. Behind the last run nothing changes. -/
namespace PugComponents.Text

/-- The lengths of the runs, the first one outside the set. -/
structure RunLengths where
  runs : List Nat

namespace RunLengths

/-- Whether the code point `n` places after the start of the first run is in the set; that run is
`inside` or not. -/
def isIn (inside : Bool) (n : Nat) : List Nat → Bool
  | [] => inside
  | run :: runs => if n < run then inside else isIn (!inside) (n - run) runs

/-- Whether a code point is in the set. -/
def contains (s : RunLengths) (n : Nat) : Bool := isIn false n s.runs

/-- Whether a character is in the set. -/
def containsChar (s : RunLengths) (c : Char) : Bool := s.contains c.toNat

end RunLengths

end PugComponents.Text

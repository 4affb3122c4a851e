/- White space. The class is the Unicode property White_Space, and trimming
   means that property. Text is handled as a list of characters, so each
   operation is one of the list library's. -/
namespace PugComponents.Text

/-- The characters with the Unicode property White_Space. -/
def isWhiteSpace (c : Char) : Bool :=
  let n := c.toNat
  (9 ≤ n && n ≤ 13) || n == 0x20 || n == 0x85 || n == 0xA0 || n == 0x1680 ||
    (0x2000 ≤ n && n ≤ 0x200A) || n == 0x2028 || n == 0x2029 || n == 0x202F ||
    n == 0x205F || n == 0x3000

/-- Drops the white space at the front. -/
def trimStart (cs : List Char) : List Char := cs.dropWhile isWhiteSpace

/-- Drops the white space at the end. -/
def trimEnd (cs : List Char) : List Char := (cs.reverse.dropWhile isWhiteSpace).reverse

/-- Drops the white space at both ends. -/
def trim (cs : List Char) : List Char := trimEnd (trimStart cs)

/-- Nothing but white space. -/
def isBlank (cs : List Char) : Bool := cs.all isWhiteSpace

end PugComponents.Text

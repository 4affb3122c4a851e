/- Quoted strings: the text between two quotes in which quotes, backslashes and
   control characters below the space are escaped, and nothing else. -/
namespace PugComponents.Text

/-- A hexadecimal digit in lower case. -/
def hexDigitChar (n : Nat) : Char :=
  if n < 10 then Char.ofNat ('0'.toNat + n) else Char.ofNat ('a'.toNat + (n - 10))

/-- The written form of a character between quotes. -/
def escapeChar (c : Char) : List Char :=
  if c == '"' then ['\\', '"']
  else if c == '\\' then ['\\', '\\']
  else if c.toNat == 8 then ['\\', 'b']
  else if c == '\t' then ['\\', 't']
  else if c == '\n' then ['\\', 'n']
  else if c.toNat == 12 then ['\\', 'f']
  else if c == '\r' then ['\\', 'r']
  else if c.toNat < 32 then
    ['\\', 'u', '0', '0', hexDigitChar (c.toNat / 16), hexDigitChar (c.toNat % 16)]
  else [c]

/-- The text between quotes. -/
def escape (cs : List Char) : List Char := cs.flatMap escapeChar

/-- A text as a quoted string. -/
def quoted (s : String) : String := "\"" ++ String.ofList (escape s.toList) ++ "\""

end PugComponents.Text

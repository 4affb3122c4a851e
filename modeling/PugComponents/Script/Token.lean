import PugComponents.Script.IdentifierChar

/- Tokens of embedded scripts. What a text means at a place depends on the
   mode: ordinary script, the inside of a markup tag, or markup text between
   tags. Scanners take the text that is left and give back what is left after
   the token; templates and regular expressions are scanned on the parser's
   demand, since only the grammar knows where they can start. -/
namespace PugComponents.Script

/-- A line terminator. -/
def isLineTerminator (c : Char) : Bool :=
  c == '\n' || c == '\r' || c.toNat == 0x2028 || c.toNat == 0x2029

/-- White space between tokens, line terminators apart. -/
def isSpace (c : Char) : Bool :=
  let n := c.toNat
  n == 9 || n == 11 || n == 12 || n == 0x20 || n == 0x85 || n == 0xA0 || n == 0xFEFF ||
    n == 0x1680 || (0x2000 ≤ n && n ≤ 0x200A) || n == 0x202F || n == 0x205F || n == 0x3000

/-- Words that are never identifiers. -/
def reservedWords : List String :=
  ["break", "case", "catch", "class", "const", "continue", "debugger", "default", "delete", "do",
   "else", "enum", "export", "extends", "false", "finally", "for", "function", "if", "import",
   "in", "instanceof", "new", "null", "return", "super", "switch", "this", "throw", "true", "try",
   "typeof", "var", "void", "while", "with"]

/-- Tokens. Keywords are words; the grammar tells them apart. -/
inductive Token
  /-- A word; `escaped` when one of its characters is written with an escape sequence. -/
  | word (name : String) (escaped : Bool)
  /-- A name whose first character is written with an escape sequence: it is never a keyword. -/
  | identifier (name : String)
  /-- A number; `big` for the suffix `n`, `octal` for a legacy octal spelling. -/
  | number (big octal : Bool)
  /-- A string; `octal` when it holds an octal escape. -/
  | string (octal : Bool)
  /-- An operator, a bracket or a separator. -/
  | punct (text : String)
  /-- Text between markup tags. -/
  | markupText
  /-- A name inside a markup tag; hyphens belong to it. -/
  | markupName (name : String)
  /-- A string inside a markup tag, where no escapes exist. -/
  | markupString
  | endOfText
  /-- A character no token starts with, or a malformed number or name. -/
  | unreadable
  deriving DecidableEq, Repr, Inhabited

/-- Where a token stands. -/
inductive Mode
  | script
  /-- Between `<` and `>`. -/
  | tag
  /-- Between tags. -/
  | child
  deriving DecidableEq, Repr, Inhabited

/-! ## Gaps between tokens -/

/-- What the skipped text is part of. -/
inductive GapPart
  | space
  | lineComment
  | blockComment

/-- Skips white space and comments. The flag tells whether a line terminator was crossed; a block
comment that does not end is refused. -/
def skipGap : GapPart → Bool → List Char → Option (Bool × List Char)
  | .blockComment, _, [] => none
  | _, newline, [] => some (newline, [])
  | .space, newline, '/' :: '/' :: cs => skipGap .lineComment newline cs
  | .space, newline, '/' :: '*' :: cs => skipGap .blockComment newline cs
  | .space, newline, '<' :: '!' :: '-' :: '-' :: cs => skipGap .lineComment newline cs
  | .space, true, '-' :: '-' :: '>' :: cs => skipGap .lineComment true cs
  | .space, newline, c :: cs =>
    if isLineTerminator c then skipGap .space true cs
    else if isSpace c then skipGap .space newline cs
    else some (newline, c :: cs)
  | .lineComment, newline, c :: cs =>
    if isLineTerminator c then skipGap .space true cs else skipGap .lineComment newline cs
  | .blockComment, newline, '*' :: '/' :: cs => skipGap .space newline cs
  | .blockComment, newline, c :: cs => skipGap .blockComment (newline || isLineTerminator c) cs

/-! ## Names -/

/-- The value of a hexadecimal digit. -/
def hexDigit? (c : Char) : Option Nat :=
  if c.isDigit then some (c.toNat - '0'.toNat)
  else if 'a' ≤ c && c ≤ 'f' then some (c.toNat - 'a'.toNat + 10)
  else if 'A' ≤ c && c ≤ 'F' then some (c.toNat - 'A'.toNat + 10)
  else none

/-- A hexadecimal digit. -/
def isHexDigit (c : Char) : Bool := (hexDigit? c).isSome

/-- An octal digit. -/
def isOctalDigit (c : Char) : Bool := '0' ≤ c && c ≤ '7'

/-- The number that hexadecimal digits write. -/
def hexValue (cs : List Char) : Nat := cs.foldl (fun n c => 16 * n + (hexDigit? c).getD 0) 0

/-- The character with a code point, if there is one. -/
def charOf? (n : Nat) : Option Char :=
  if n < 0xD800 || (0xDFFF < n && n < 0x110000) then some (Char.ofNat n) else none

/-- The code point that a Unicode escape writes, read after its backslash. -/
def unicodeEscape? : List Char → Option (Nat × List Char)
  | 'u' :: '\x7b' :: cs =>
    let digits := cs.takeWhile isHexDigit
    match cs.dropWhile isHexDigit with
    | '\x7d' :: rest =>
      if digits.isEmpty || 0x10FFFF < hexValue digits then none else some (hexValue digits, rest)
    | _ => none
  | 'u' :: a :: b :: c :: d :: cs =>
    if [a, b, c, d].all isHexDigit then some (hexValue [a, b, c, d], cs) else none
  | _ => none

/-- The characters of a name, whether one was escaped, and what follows. An escape stands for a
character that can continue a name, also at the front. At most as many steps as there are characters
are needed. -/
def nameParts : Nat → List Char → Option (List Char × Bool × List Char)
  | 0, cs => some ([], false, cs)
  | _ + 1, [] => some ([], false, [])
  | n + 1, c :: cs =>
    if isIdentifierPart c then
      (nameParts n cs).map fun (name, escaped, rest) => (c :: name, escaped, rest)
    else if c == '\\' then do
      let (point, rest) ← unicodeEscape? cs
      let d ← charOf? point
      if isIdentifierPart d then
        let (name, _, rest) ← nameParts n rest
        some (d :: name, true, rest)
      else none
    else some ([], false, c :: cs)

/-- A word or an identifier, where a name starts. A reserved word cannot be written with an escape
sequence behind its first character. -/
def nameToken? (cs : List Char) : Option (Token × List Char) := do
  let (characters, escaped, rest) ← nameParts (cs.length + 1) cs
  let name := String.ofList characters
  if cs.head? == some '\\' then some (.identifier name, rest)
  else if escaped && reservedWords.contains name then none
  else some (.word name escaped, rest)

/-! ## Numbers -/

/-- Digits; gives what follows. A separator stands before a digit. -/
def digits (isDigit : Char → Bool) : List Char → Option (List Char)
  | [] => some []
  | c :: cs =>
    if isDigit c then digits isDigit cs
    else if c == '_' then if cs.head?.any isDigit then digits isDigit cs else none
    else some (c :: cs)

/-- Digits of which there is at least one. -/
def someDigits (isDigit : Char → Bool) (cs : List Char) : Option (List Char) := do
  let rest ← digits isDigit cs
  if rest.length < cs.length then some rest else none

/-- A number is not followed by a name. -/
def endsNumber (cs : List Char) : Bool := !cs.head?.any isIdentifierStart

/-- The exponent, if one is written. -/
def exponent? : List Char → Option (List Char)
  | c :: cs =>
    if c == 'e' || c == 'E' then
      match cs with
      | s :: ds => if s == '+' || s == '-' then someDigits Char.isDigit ds
                   else someDigits Char.isDigit (s :: ds)
      | [] => none
    else some (c :: cs)
  | [] => some []

/-- The fraction, if one is written, and the exponent. -/
def fraction? : List Char → Option (List Char)
  | '.' :: cs => digits Char.isDigit cs >>= exponent?
  | cs => exponent? cs

/-- A number whose text ends here, unless a name follows. -/
def finishNumber (octal : Bool) (rest : List Char) : Option (Token × List Char) :=
  if endsNumber rest then some (.number false octal, rest) else none

/-- A number in base two, eight or sixteen after its two-character mark. -/
def radixNumber? (isDigit : Char → Bool) (cs : List Char) : Option (Token × List Char) := do
  match ← someDigits isDigit cs with
  | 'n' :: rest => some (.number true false, rest)
  | rest => finishNumber false rest

/-- A number without a mark. With a leading zero and more digits it is octal, or decimal if a digit
eight or nine occurs. -/
def plainNumber? (cs : List Char) : Option (Token × List Char) := do
  let rest ← digits Char.isDigit cs
  let whole := cs.take (cs.length - rest.length)
  if 1 < whole.length && whole.head? == some '0' then
    if whole.any (fun d => d == '8' || d == '9') then fraction? rest >>= finishNumber true
    else finishNumber true rest
  else
    match rest with
    | 'n' :: after => some (.number true false, after)
    | _ => fraction? rest >>= finishNumber false

/-- A number. -/
def number? (cs : List Char) : Option (Token × List Char) :=
  match cs with
  | '0' :: c :: rest =>
    if c == 'x' || c == 'X' then radixNumber? isHexDigit rest
    else if c == 'o' || c == 'O' then radixNumber? isOctalDigit rest
    else if c == 'b' || c == 'B' then radixNumber? (fun d => d == '0' || d == '1') rest
    else plainNumber? cs
  | _ => plainNumber? cs

/-! ## Strings, templates and regular expressions -/

/-- Whether what follows a backslash is a complete escape. -/
def validEscape : List Char → Bool
  | 'x' :: a :: b :: _ => isHexDigit a && isHexDigit b
  | ['x'] => false
  | ['x', _] => false
  | 'u' :: cs => (unicodeEscape? ('u' :: cs)).isSome
  | _ => true

/-- Whether what follows a backslash is an octal escape; a lone zero is none. -/
def octalEscape : List Char → Bool
  | '0' :: c :: _ => isOctalDigit c
  | c :: _ => isOctalDigit c && c != '0'
  | [] => false

/-- A string after its opening quote: whether it holds an octal escape, and what follows. -/
def stringRest (quote : Char) : Bool → List Char → Option (Bool × List Char)
  | _, [] => none
  | octal, '\\' :: '\r' :: '\n' :: cs => stringRest quote octal cs
  | octal, '\\' :: c :: cs =>
    if validEscape (c :: cs) then stringRest quote (octal || octalEscape (c :: cs)) cs else none
  | octal, c :: cs =>
    if c == quote then some (octal, cs)
    else if c == '\n' || c == '\r' then none
    else stringRest quote octal cs

/-- How a stretch of template text ends. -/
inductive TemplateEnd
  | closed
  | substitution

/-- Template text up to the closing mark or the next substitution, and what follows. Escapes are
checked unless the template is tagged. -/
def templateText (tagged : Bool) : List Char → Option (TemplateEnd × List Char)
  | [] => none
  | '\x60' :: cs => some (.closed, cs)
  | '$' :: '\x7b' :: cs => some (.substitution, cs)
  | '\\' :: c :: cs =>
    if tagged || (validEscape (c :: cs) && !octalEscape (c :: cs)) then templateText tagged cs
    else none
  | _ :: cs => templateText tagged cs

/-- The body of a regular expression after its opening slash. -/
def regexBody : Bool → List Char → Option (List Char)
  | _, [] => none
  | inClass, '\\' :: c :: cs => if isLineTerminator c then none else regexBody inClass cs
  | inClass, c :: cs =>
    if isLineTerminator c then none
    else if c == '/' && !inClass then some cs
    else regexBody ((inClass || c == '[') && c != ']') cs

/-- Flags of a regular expression: each known and written once. -/
def validFlags (flags : List Char) : Bool :=
  flags.all (fun c => "dgimsuvy".toList.contains c) && flags.eraseDups.length == flags.length

/-- A regular expression after its opening slash. Its flags are written as a name. -/
def regex? (cs : List Char) : Option (List Char) := do
  let rest ← regexBody false cs
  if rest.head?.any isIdentifierStart then
    let (flags, _, rest) ← nameParts (rest.length + 1) rest
    if validFlags flags then some rest else none
  else some rest

/-! ## Operators and whole tokens -/

/-- Operators, brackets and separators, longest first. -/
def punctuators : List String :=
  [">>>=", "...", "===", "!==", "**=", "<<=", ">>=", ">>>", "&&=", "||=", "??=",
   "=>", "==", "!=", "<=", ">=", "&&", "||", "??", "?.", "++", "--", "+=", "-=", "*=", "/=",
   "%=", "&=", "|=", "^=", "<<", ">>", "**",
   "\x7b", "\x7d", "(", ")", "[", "]", ";", ",", "<", ">", "+", "-", "*", "/", "%", "&", "|",
   "^", "!", "~", "?", ":", "=", ".", "@", "#", "\x60"]

/-- Takes a given text off the front. -/
def stripPrefix? : List Char → List Char → Option (List Char)
  | [], cs => some cs
  | _ :: _, [] => none
  | p :: ps, c :: cs => if p == c then stripPrefix? ps cs else none

/-- The longest operator at the front. An optional-chaining mark is not followed by a digit. -/
def punct? (cs : List Char) : Option (Token × List Char) :=
  punctuators.findSome? fun p => do
    let rest ← stripPrefix? p.toList cs
    if p == "?." && rest.head?.any Char.isDigit then none else some (.punct p, rest)

/-- The token at the front of a script text that does not start with a gap. A string that does
not end is refused; what no token starts with is `unreadable`. -/
def scriptToken (cs : List Char) : Option (Token × List Char) :=
  match cs with
  | [] => some (.endOfText, [])
  | c :: tail =>
    if isIdentifierStart c || c == '\\' then
      some ((nameToken? cs).getD (.unreadable, tail))
    else if c.isDigit || (c == '.' && tail.head?.any Char.isDigit) then
      some ((number? cs).getD (.unreadable, tail))
    else if c == '"' || c == '\'' then
      (stringRest c false tail).map fun (octal, rest) => (.string octal, rest)
    else some ((punct? cs).getD (.unreadable, tail))

/-- The token at the front of the inside of a markup tag. -/
def tagToken (cs : List Char) : Option (Token × List Char) :=
  match cs with
  | [] => some (.endOfText, [])
  | c :: tail =>
    if isIdentifierStart c then
      let inName := fun d => isIdentifierPart d || d == '-'
      some (.markupName (String.ofList (cs.takeWhile inName)), cs.dropWhile inName)
    else if c == '"' || c == '\'' then
      match tail.dropWhile (· != c) with
      | [] => none
      | _ :: rest => some (.markupString, rest)
    else some (.punct (String.singleton c), tail)

/-- The token at the front of markup text. A closing bracket of a tag or a container cannot stand
in text. -/
def childToken (cs : List Char) : Option (Token × List Char) :=
  match cs with
  | [] => some (.endOfText, [])
  | c :: tail =>
    if c == '<' || c == '\x7b' then some (.punct (String.singleton c), tail)
    else
      let inText := fun d => d != '<' && d != '\x7b'
      if (cs.takeWhile inText).any (fun d => d == '>' || d == '\x7d') then none
      else some (.markupText, cs.dropWhile inText)

end PugComponents.Script

import PugComponents.Json.Reader
import PugComponents.Proofs.Jsx.Normal

/- Reading printed modules. The reader is a recursive descent over the
   characters: every function takes the text that is left and gives what it read
   with the rest. It knows nothing of the level at which a text was printed, and
   it takes parentheses around any expression. The first argument of the recursive
   functions bounds the number of nested calls. -/
namespace PugComponents.Jsx

open Text

/-! ## Names, strings and lists -/

/-- Reads a name of letters and digits. -/
def readName : List Char → Option (String × List Char)
  | [] => none
  | c :: cs =>
    if c.isAlpha then
      some (String.ofList (c :: cs.takeWhile Char.isAlphanum), cs.dropWhile Char.isAlphanum)
    else none

/-- Reads a string literal. -/
def readString : List Char → Option (String × List Char)
  | '"' :: s =>
    match Json.string? s with
    | some (some value, s) => some (value, s)
    | _ => none
  | _ => none

/-- Reads the key of a property. -/
def readKey (s : List Char) : Option (String × List Char) :=
  match s.takeWhile continuesIdentifier with
  | [] => readString s
  | key => some (String.ofList key, s.dropWhile continuesIdentifier)

/-- Reads items with commas between them, one at least; `n` bounds their number. -/
def readSeparated {α : Type} (item : List Char → Option (α × List Char)) :
    Nat → List Char → Option (List α × List Char)
  | 0, _ => none
  | n + 1, s => do
    let (first, s) ← item s
    match dropPrefix? [',', ' '] s with
    | none => some ([first], s)
    | some s =>
      let (more, s) ← readSeparated item n s
      some (first :: more, s)

/-- Reads a line break and the indentation after it. -/
def readLineBreak : List Char → Option (List Char)
  | '\n' :: s => some (s.dropWhile (· == ' '))
  | _ => none

/-! ## Parameters -/

/-- Reads a binding of an object pattern. -/
def readBinding (s : List Char) : Option ((String × String) × List Char) := do
  let (key, s) ← readKey s
  match dropPrefix? [':', ' '] s with
  | none => some ((key, key), s)
  | some s =>
    let (name, s) ← readName s
    some ((key, name), s)

/-- Reads a parameter. -/
def readParam (n : Nat) : List Char → Option (Param × List Char)
  | '\x7b' :: ' ' :: ' ' :: '\x7d' :: s => some (.destructured [], s)
  | '\x7b' :: ' ' :: s => do
    let (bindings, s) ← readSeparated readBinding n s
    let s ← dropPrefix? [' ', '\x7d'] s
    some (.destructured bindings, s)
  | s => do
    let (name, s) ← readName s
    some (.ident name, s)

/-- Reads the parameters of an arrow function with the arrow. -/
def readArrowHead (n : Nat) : List Char → Option (List Param × List Char)
  | '(' :: ')' :: s => do
    let s ← dropPrefix? [' ', '=', '>', ' '] s
    some ([], s)
  | '(' :: s => do
    let (params, s) ← readSeparated (readParam n) n s
    let s ← dropPrefix? [')', ' ', '=', '>', ' '] s
    some (params, s)
  | _ => none

/-! ## Words that start a statement or a case -/

/-- The word at the front, if a space and no question mark follows it. -/
def keyword? (s : List Char) : Option (String × List Char) :=
  match readName s with
  | some (_, ' ' :: '?' :: _) => none
  | some (word, ' ' :: s) => some (word, s)
  | _ => none

/-- What follows the colon of a default case. -/
def default? (s : List Char) : Option (List Char) :=
  match readName s with
  | some (word, ':' :: s) => if word == "default" then some s else none
  | _ => none

/-- What follows the word of a case with a test. -/
def case? (s : List Char) : Option (List Char) :=
  match keyword? s with
  | some (word, s) => if word == "case" then some s else none
  | none => none

/-- The statements before this text are all: it closes the block, or starts a case. -/
def endsBody (s : List Char) : Bool :=
  s.head? == some '\x7d' || (case? s).isSome || (default? s).isSome

/-! ## Trees -/

/-- A character of a run of text. -/
def isRunChar (c : Char) : Bool := c != '\x7b' && c != '<'

/-- An arrow function with what was read as an expression: nothing between braces is a body. -/
def arrowOf (params : List Param) : Expr → Expr
  | .object [] => .blockArrow params []
  | e => .arrow params e

/-- Reads a property with a reader of values. -/
def readProperty (value : List Char → Option (Expr × List Char)) (s : List Char) :
    Option (Property × List Char) := do
  let (key, s) ← readKey s
  let s ← dropPrefix? [':', ' '] s
  let (value, s) ← value s
  some (.mk key value, s)

mutual

/-- Reads an expression that is no sequence. -/
def readExpr : Nat → List Char → Option (Expr × List Char)
  | 0, _ => none
  | n + 1, s =>
    match readArrowHead n s with
    | some (params, s) => readArrowBody n params s
    | none => do
      let (test, s) ← readOperand n s
      match dropPrefix? [' ', '?', ' '] s with
      | none => some (test, s)
      | some s =>
        let (consequent, s) ← readExpr n s
        let s ← dropPrefix? [' ', ':', ' '] s
        let (alternate, s) ← readExpr n s
        some (.conditional test consequent alternate, s)

/-- Reads the body of an arrow function. -/
def readArrowBody : Nat → List Param → List Char → Option (Expr × List Char)
  | 0, _, _ => none
  | n + 1, params, '\x7b' :: '\n' :: s => do
    let (body, s) ← readBody n ('\n' :: s)
    let s ← readLineBreak s
    let s ← dropPrefix? ['\x7d'] s
    some (.blockArrow params body, s)
  | n + 1, params, '\x7b' :: s => do
    let (result, s) ← readExpr n ('\x7b' :: s)
    some (arrowOf params result, s)
  | n + 1, params, s => do
    let (result, s) ← readExpr n s
    some (.arrow params result, s)

/-- Reads an operand: an atom with the calls and members after it. -/
def readOperand : Nat → List Char → Option (Expr × List Char)
  | 0, _ => none
  | n + 1, s => do
    let (atom, s) ← readAtom n s
    readSuffixes n atom s

/-- Reads an atom. -/
def readAtom : Nat → List Char → Option (Expr × List Char)
  | 0, _ => none
  | n + 1, '(' :: s => do
    let (e, s) ← readExpr n s
    let s ← dropPrefix? [')'] s
    some (e, s)
  | _ + 1, '"' :: s => do
    let (value, s) ← readString ('"' :: s)
    some (.str value, s)
  | _ + 1, '\x7b' :: '\x7d' :: s => some (.object [], s)
  | n + 1, '\x7b' :: ' ' :: s => do
    let (properties, s) ← readSeparated (readProperty (readExpr n)) n s
    let s ← dropPrefix? [' ', '\x7d'] s
    some (.object properties, s)
  | n + 1, '<' :: s => do
    let (m, s) ← readMarkup n ('<' :: s)
    some (.markup m, s)
  | _ + 1, s => do
    let (name, s) ← readName s
    some (if name == "null" then .null else .ident name, s)

/-- Reads the calls and members after an expression. -/
def readSuffixes : Nat → Expr → List Char → Option (Expr × List Char)
  | 0, _, _ => none
  | n + 1, e, '(' :: ')' :: s => readSuffixes n (.call e []) s
  | n + 1, e, '(' :: s => do
    let (arguments, s) ← readSeparated (readExpr n) n s
    let s ← dropPrefix? [')'] s
    readSuffixes n (.call e arguments) s
  | n + 1, e, '.' :: s => do
    let (property, s) ← readName s
    readSuffixes n (.member e property) s
  | _ + 1, e, s => some (e, s)

/-- Reads a statement. -/
def readStmt : Nat → List Char → Option (Stmt × List Char)
  | 0, _ => none
  | n + 1, s =>
    match keyword? s with
    | some ("const", s) => do
      let (name, s) ← readName s
      let s ← dropPrefix? [' ', '=', ' '] s
      let (init, s) ← readExpr n s
      let s ← dropPrefix? [';'] s
      some (.binding name init, s)
    | some ("return", s) => do
      let (value, s) ← readExpr n s
      let s ← dropPrefix? [';'] s
      some (.result value, s)
    | some ("switch", s) => do
      let s ← dropPrefix? ['('] s
      let (subject, s) ← readExpr n s
      let s ← dropPrefix? [')', ' ', '\x7b'] s
      let (cases, s) ← readCases n s
      let s ← readLineBreak s
      let s ← dropPrefix? ['\x7d'] s
      some (.switch subject cases, s)
    | some _ => none
    | none => do
      let (e, s) ← readExpr n s
      let s ← dropPrefix? [';'] s
      some (.expression e, s)

/-- Reads statements, each on a new line. -/
def readBody : Nat → List Char → Option (List Stmt × List Char)
  | 0, _ => none
  | n + 1, s => do
    let line ← readLineBreak s
    if endsBody line then some ([], s)
    else
      let (stmt, s) ← readStmt n line
      let (more, s) ← readBody n s
      some (stmt :: more, s)

/-- Reads the cases of a `switch`, each on a new line. -/
def readCases : Nat → List Char → Option (List SwitchCase × List Char)
  | 0, _ => none
  | n + 1, s => do
    let line ← readLineBreak s
    match case? line, default? line with
    | some s, _ =>
      let (test, s) ← readExpr n s
      let s ← dropPrefix? [':'] s
      let (body, s) ← readBody n s
      let (more, s) ← readCases n s
      some (.test test body :: more, s)
    | none, some s =>
      let (body, s) ← readBody n s
      let (more, s) ← readCases n s
      some (.otherwise body :: more, s)
    | none, none => some ([], s)

/-- Reads markup. -/
def readMarkup : Nat → List Char → Option (Markup × List Char)
  | 0, _ => none
  | n + 1, '<' :: '>' :: s => do
    let (children, s) ← readChildren n s
    let s ← dropPrefix? ['<', '/', '>'] s
    some (.fragment children, s)
  | n + 1, '<' :: s => do
    let (name, s) ← readName s
    let (attributes, s) ← readAttributes n s
    match dropPrefix? [' ', '/', '>'] s with
    | some s => some (.element name attributes [] true, s)
    | none =>
      let s ← dropPrefix? ['>'] s
      let (children, s) ← readChildren n s
      let s ← dropPrefix? ('<' :: '/' :: name.toList ++ ['>']) s
      some (.element name attributes children false, s)
  | _ + 1, _ => none

/-- Reads attributes, each after a space. -/
def readAttributes : Nat → List Char → Option (List Attribute × List Char)
  | 0, _ => none
  | n + 1, ' ' :: '\x7b' :: s => do
    let s ← dropPrefix? ['.', '.', '.'] s
    let (e, s) ← readExpr n s
    let s ← dropPrefix? ['\x7d'] s
    let (more, s) ← readAttributes n s
    some (.spread e :: more, s)
  | n + 1, ' ' :: s =>
    match readName s with
    | none => some ([], ' ' :: s)
    | some (name, s) =>
      match dropPrefix? ['=', '\x7b'] s with
      | none => do
        let (more, s) ← readAttributes n s
        some (.flag name :: more, s)
      | some s => do
        let (e, s) ← readExpr n s
        let s ← dropPrefix? ['\x7d'] s
        let (more, s) ← readAttributes n s
        some (.value name e :: more, s)
  | _ + 1, s => some ([], s)

/-- Reads children up to a closing tag. -/
def readChildren : Nat → List Char → Option (List Child × List Char)
  | 0, _ => none
  | n + 1, s =>
    let run := keptRun (s.takeWhile isRunChar)
    match s.dropWhile isRunChar with
    | '<' :: '/' :: s => some (run, '<' :: '/' :: s)
    | '<' :: s => do
      let (m, s) ← readMarkup n ('<' :: s)
      let (more, s) ← readChildren n s
      some (run ++ .markup m :: more, s)
    | '\x7b' :: s => do
      let (e, s) ← readExpr n s
      let s ← dropPrefix? ['\x7d'] s
      let (more, s) ← readChildren n s
      some (run ++ .container e :: more, s)
    | _ => none

end

/-! ## Single steps -/

theorem readAtom_wrapped (n : Nat) (s : List Char) :
    readAtom (n + 1) ('(' :: s) =
      (readExpr n s >>= fun x => dropPrefix? [')'] x.2 >>= fun s => some (x.1, s)) := by
  rw [readAtom]

theorem readSuffixes_call (n : Nat) (e : Expr) {c : Char} (hc : c ≠ ')') (s : List Char) :
    readSuffixes (n + 1) e ('(' :: c :: s) = (readSeparated (readExpr n) n (c :: s) >>= fun x =>
      dropPrefix? [')'] x.2 >>= fun s => readSuffixes n (.call e x.1) s) := by
  rw [readSuffixes]
  exact fun _ h => hc (List.cons.inj h).1

variable {s : List Char}

theorem readArrowBody_brace (n : Nat) (params : List Param) (hblock : ∀ t, s ≠ '\n' :: t) :
    readArrowBody (n + 1) params ('\x7b' :: s) =
      (readExpr n ('\x7b' :: s) >>= fun x => some (arrowOf params x.1, x.2)) := by
  rw [readArrowBody]
  exact hblock

theorem readArrowBody_other (n : Nat) (params : List Param) (hbrace : ∀ t, s ≠ '\x7b' :: t) :
    readArrowBody (n + 1) params s = (readExpr n s >>= fun x => some (.arrow params x.1, x.2)) := by
  rw [readArrowBody]
  · exact fun t => hbrace ('\n' :: t)
  · exact hbrace

theorem readAttributes_brace (n : Nat) (s : List Char) :
    readAttributes (n + 1) (' ' :: '\x7b' :: s) = (dropPrefix? ['.', '.', '.'] s >>= fun s =>
      readExpr n s >>= fun x => dropPrefix? ['\x7d'] x.2 >>= fun s =>
        readAttributes n s >>= fun y => some (.spread x.1 :: y.1, y.2)) := by
  rw [readAttributes]

theorem readChildren_closed (n : Nat) {run rest : List Char} (hrun : s.takeWhile isRunChar = run)
    (hrest : s.dropWhile isRunChar = '<' :: '/' :: rest) :
    readChildren (n + 1) s = some (keptRun run, '<' :: '/' :: rest) := by
  simp only [readChildren, hrun, hrest]

/-! ## Modules -/

/-- Reads an import. -/
def readImport (s : List Char) : Option (Import × List Char) := do
  let s ← dropPrefix? "import \x7b ".toList s
  let (name, s) ← readName s
  let s ← dropPrefix? " \x7d from ".toList s
  let (path, s) ← readString s
  let s ← dropPrefix? ";\n".toList s
  some (⟨name, path⟩, s)

/-- Reads the imports at the front; `n` bounds their number. -/
def readImports : Nat → List Char → Option (List Import × List Char)
  | 0, _ => none
  | n + 1, s =>
    match readImport s with
    | none => some ([], s)
    | some (first, s) => do
      let (more, s) ← readImports n s
      some (first :: more, s)

/-- Reads the imports with the empty line after them. -/
def readImportSection (n : Nat) (s : List Char) : Option (List Import × List Char) := do
  let (imports, s) ← readImports n s
  let s ← if imports.isEmpty then some s else dropPrefix? ['\n'] s
  some (imports, s)

/-- Reads a module. -/
def readProgram (n : Nat) (s : List Char) : Option Program := do
  let (imports, s) ← readImportSection n s
  let s ← dropPrefix? "export const ".toList s
  let (name, s) ← readName s
  let s ← dropPrefix? " = ".toList s
  let (params, s) ← readArrowHead n s
  let s ← dropPrefix? ['\x7b'] s
  let (body, s) ← readBody n s
  let s ← readLineBreak s
  let _ ← dropPrefix? "\x7d;\n".toList s
  some { imports, name, params, body }

end PugComponents.Jsx

import PugComponents.Files.Path
import PugComponents.Template.Interpolation
import PugComponents.Template.Tag
import PugComponents.Text.Identifier
import PugComponents.Text.Position

/- Heads: what a single line says before the lines under it are read. After the
   colon of a tag stands another head, so that one line can nest several nodes;
   the lines under it belong to the innermost one. -/
namespace PugComponents.Template

open Text
open Files

/-- What the lines under a node are. -/
inductive Body
  /-- Nested nodes. -/
  | nodes
  /-- Text with interpolations. -/
  | textBlock
  /-- The branches of a `case`. -/
  | branches
  /-- Text that is taken as it stands. -/
  | raw
  /-- Not allowed. -/
  | leaf
  deriving DecidableEq, Repr

/-- A node whose line has been read, but not the lines under it. -/
structure Pending where
  /-- The tags before it on the same line, the outermost first. -/
  hosts : List Node
  node : Node
  body : Body

/-- What a line says. -/
inductive Head
  | node (pending : Pending)
  | elseBranch (test : Option String) (span : Span)
  | whenBranch (keyword : Keyword) (span : Span)
  /-- Text; `piped` if it follows a bar. -/
  | text (nodes : List Node) (piped : Bool)
  /-- Nothing that can be used. -/
  | skip

namespace Head

/-- A node that stands alone on its line. -/
def single (node : Node) (body : Body) : Head := .node ⟨[], node, body⟩

/-- A head and the faults on its line. -/
abbrev Result := Head × List Fault

/-- A head without a fault. -/
def fine (head : Head) : Result := (head, [])

/-- A line that cannot be used. -/
def fail (cause : Cause) (span : Span) : Result := (.skip, [⟨cause, span⟩])

/-- The negation of a test. -/
def negated (test : List Char) : String := "!(" ++ String.ofList test ++ ")"

/-- The head of `if` and `unless`. -/
def ofTest (keyword : Keyword) (rest : List Char) (span : Span) : Result :=
  match trim rest with
  | [] => fail (.syntaxProblem (.noCondition keyword)) span
  | test =>
    let written := if keyword = .unlessTest then negated test else String.ofList test
    fine (single (.conditional written [] [] span) .nodes)

/-- The test after a word at the front of a text; white space or a parenthesis follows the word. -/
def testAfter? (word : String) (text : List Char) : Option (List Char) :=
  match dropPrefix? word.toList text with
  | some (c :: rest) =>
    if isWhiteSpace c || c == '(' then
      match trim (c :: rest) with
      | [] => none
      | test => some test
    else none
  | _ => none

/-- The head of `else`. -/
def ofElse (rest : List Char) (span : Span) : Result :=
  let tail := trim rest
  if tail.isEmpty then fine (.elseBranch none span)
  else
    match testAfter? "if" tail with
    | some test => fine (.elseBranch (some (String.ofList test)) span)
    | none =>
      match testAfter? "unless" tail with
      | some test => fine (.elseBranch (some (negated test)) span)
      | none => fail (.unexpectedToken .elseTail (String.ofList tail)) span

/-- The head of a named block. -/
def ofNamedBlock (mode : BlockMode) (rest : List Char) (span : Span) : Result :=
  let name := trim rest
  if name.isEmpty || Marker.nameLength name != name.length then
    fail (.unexpectedToken .blockName (String.ofList name)) span
  else fine (single (.namedBlock (String.ofList name) mode [] span) .nodes)

/-- The head of `block`; without a name it marks the place of a mixin's block. -/
def ofBlock (rest : List Char) (span : Span) : Result :=
  let tail := trim rest
  if tail.isEmpty then fine (single (.mixinBlock span) .leaf)
  else
    match dropPrefix? "append ".toList tail with
    | some name => ofNamedBlock .append name span
    | none =>
      match dropPrefix? "prepend ".toList tail with
      | some name => ofNamedBlock .prepend name span
      | none => ofNamedBlock .replace tail span

/-- The head of `include`. A path without extension, or with the one of templates, names a
template. -/
def ofInclude (column : Nat) (rest : List Char) (span : Span) : Result :=
  match rest with
  | ':' :: filtered =>
    let name := filtered.takeWhile (!isWhiteSpace ·)
    let body := trim (filtered.dropWhile (!isWhiteSpace ·))
    fine (single (.filter (String.ofList name) (String.ofList body) span) .leaf)
  | _ =>
    let path := String.ofList (trim rest)
    if path == "" then fail (.syntaxProblem .noIncludePath) span
    else
      match Path.extension? path with
      | none | some "pug" => fine (single (.includeFile ⟨path, none⟩ column span) .leaf)
      | some _ => fine (single (.rawInclude ⟨path, none⟩ span) .leaf)

/-- The bindings and the collection of a loop header, cut at the first separator word. -/
def loopParts? (header : List Char) : Option (List Char × List Char) :=
  match cutAtText? " in ".toList header, cutAtText? " of ".toList header with
  | some a, some b => if a.1.length ≤ b.1.length then some a else some b
  | some a, none => some a
  | none, other => other

/-- The head of `each` and `for`. -/
def ofEach (rest : List Char) (span : Span) : Result :=
  match loopParts? (trim rest) with
  | none => fail (.invalidEach .noSeparator) span
  | some (before, after) =>
    let bindings := (splitAtChar ',' before).map trim
    let collection := trim after
    match bindings.find? (!isIdentifier ·) with
    | some bad => fail (.invalidEach (.invalidBinding (String.ofList bad))) span
    | none =>
      if bindings.length > 2 then fail (.invalidEach .tooManyBindings) span
      else if collection.isEmpty then fail (.invalidEach .noCollection) span
      else
        fine (single (.each (String.ofList collection) (String.ofList (bindings.headD []))
          ((bindings.tail.head?).map String.ofList) [] span) .nodes)

/-- A character of the name of a mixin that is declared. -/
def isMixinNamePart (c : Char) : Bool := isAlphanumeric c || c == '_' || c == '$' || c == '-'

/-- What follows the name in a mixin declaration: the arguments and the text after them; none if the
parenthesis is not closed. -/
def mixinArguments? (text : List Char) : Option (Option String × List Char) :=
  if startsWith text ['('] then
    (group? text).map fun (inner, after) => (some (String.ofList (trim inner)), after)
  else some (none, text)

/-- The head of a mixin declaration. -/
def ofMixin (rest : Place) (span : Span) : Result :=
  let start := rest.skipWhile isWhiteSpace
  let name := start.text.takeWhile isMixinNamePart
  let afterName := start.skip name
  if name.isEmpty then fail (.invalidMixin .noName) span
  else
    match mixinArguments? afterName.text with
    | none => fail (.unclosedDelimiter '(') (Span.between afterName.offset span.stop)
    | some (arguments, after) =>
      match trim after with
      | [] => fine (single (.mixinDefinition (String.ofList name) arguments [] span) .nodes)
      | junk => fail (.invalidMixin (.afterDeclaration (String.ofList junk))) span

/-- The head of a filter; its arguments are passed over. -/
def ofFilter (name rest : List Char) (span : Span) : Result :=
  let body :=
    if startsWith rest ['('] then
      match group? rest with
      | some (_, after) => after
      | none => rest
    else rest
  fine (single (.filter (String.ofList name) (String.ofList (trimStart body)) span) .raw)

/-- The head of a tag whose name is an expression. -/
def ofInterpolatedTag (line : Line) : Result :=
  match group? (line.text.drop 1) with
  | none => fail (.unclosedDelimiter '\x7b') line.span
  | some (inner, after) =>
    let faults : List Fault :=
      if isBlank after then []
      else [⟨.syntaxProblem .interpolatedTagContent,
        Span.between (line.stop - byteLength after) line.stop⟩]
    (single (.interpolatedTag (String.ofList (trim inner)) line.span) .leaf, faults)

/-- The head after a keyword. -/
def ofKeyword (source : List Char) (line : Line) (keyword : Keyword) (rest : Place) : Result :=
  let span := line.span
  let tail := String.ofList (trim rest.text)
  match keyword with
  | .doctype => fine (single (.doctype tail span) .leaf)
  | .ifTest | .unlessTest => ofTest keyword rest.text span
  | .elseBranch => ofElse rest.text span
  | .caseOf =>
    if tail == "" then fail (.syntaxProblem .noSubject) span
    else fine (single (.caseOf tail [] span) .branches)
  | .whenBranch | .defaultBranch => fine (.whenBranch keyword span)
  | .each | .forEach => ofEach rest.text span
  | .whileLoop => fine (single (.whileLoop tail [] span) .nodes)
  | .mixin => ofMixin rest span
  | .includeFile => ofInclude (columnAt source line.start) rest.text span
  | .extendsFile =>
    if tail == "" then fail (.syntaxProblem .noExtendsPath) span
    else fine (single (.extendsFile ⟨tail, none⟩ span) .leaf)
  | .block => ofBlock rest.text span
  | .append => ofNamedBlock .append rest.text span
  | .prepend => ofNamedBlock .prepend rest.text span

/-- The head of a mixin call. -/
def ofMixinCall (line : Line) (length : Nat) (lines : List Line) : Reading Head :=
  let front := line.text.take length
  let name := String.ofList (front.drop 1)
  let start := (⟨line.start, line.onward⟩ : Place).skip front
  let finish (arguments : Option String) (p : Place) (rest : List Line) : Reading Head :=
    let groups := attributeGroups (p.text.length + 1) p rest
    let junk := trim groups.place.line
    let stop := groups.place.lineStop
    let faults : List Fault :=
      if junk.isEmpty then []
      else [⟨.invalidMixin (.afterCall (String.ofList junk)),
        Span.between groups.place.offset stop⟩]
    ⟨single (.mixinCall name arguments groups.attributes groups.spreads []
      (Span.between line.start stop)) .nodes, groups.faults ++ faults, groups.lines⟩
  if startsWith start.line ['('] then
    match parenthesised? start lines with
    | none => ⟨.skip, [unclosedGroup start], lines⟩
    | some (inner, after, rest) => finish (some (String.ofList (trim inner))) after rest
  else finish none start lines

/-- What follows the head of a tag on its line. -/
inductive Tail
  | children (nodes : List Node)
  /-- A further head. -/
  | expansion (sub : Line)

/-- Reads what follows the head of a tag. -/
def tagTail (line : Line) (selfClosing : Bool) (p : Place) : Tail × List Fault :=
  let rest := p.line
  let stop := p.lineStop
  let wrong (cause : Cause) : Tail × List Fault :=
    (.children [], [⟨cause, Span.between p.offset stop⟩])
  let code (kind : CodeKind) (expression : List Char) : Tail × List Fault :=
    (.children [.code (String.ofList (trim expression)) kind [] (Span.between p.offset stop)], [])
  let inline (text : List Char) : Tail × List Fault :=
    if text.isEmpty then (.children [], [])
    else
      let (nodes, faults) := interpolated text (p.offset + 1)
      (.children nodes, faults)
  if selfClosing && !isBlank rest then wrong (.syntaxProblem .selfClosingContent)
  else
    match rest with
    | [] => (.children [], [])
    | ':' :: after =>
      let gap := after.takeWhile isWhiteSpace
      let text := after.drop gap.length
      if gap.isEmpty || text.isEmpty then wrong (.syntaxProblem .noExpansion)
      else
        let sub := p.skip (':' :: gap)
        (.expansion { line with start := sub.offset, text := text, onward := sub.text }, [])
    | '!' :: '=' :: expression => code .unescaped expression
    | '=' :: expression => code .escaped expression
    | ' ' :: content => inline content
    | '\t' :: content => inline content
    | c :: _ => wrong (.unexpectedToken .tagTail (String.singleton c))

/-- The head of a tag; `expand` reads the head after its colon. -/
def ofTag (expand : Line → List Line → Reading Head) (line : Line) (name : List Char)
    (lines : List Line) : Reading Head :=
  let start := (⟨line.start, line.onward⟩ : Place).skip name
  let head := tagHead (start.text.length + 1) start lines
  let selfClosing := head.ending = .selfClosing
  let body : Body :=
    match head.ending with
    | .plain => .nodes
    | .textBlock => .textBlock
    | .selfClosing => .leaf
  let tag (children : List Node) : Node :=
    .tag (if name.isEmpty then "div" else String.ofList name)
      (tagAttributes (classNames head.parts) head.parts) head.spreads children selfClosing
      (Span.between line.start head.place.lineStop)
  let (tail, faults) := tagTail line selfClosing head.place
  match tail with
  | .children nodes => ⟨single (tag nodes) body, head.faults ++ faults, head.lines⟩
  | .expansion sub =>
    let inner := expand sub head.lines
    let before := head.faults ++ inner.faults
    match inner.value with
    | .node pending =>
      ⟨.node { pending with hosts := tag [] :: pending.hosts }, before, inner.lines⟩
    | .text nodes _ => ⟨single (tag nodes) body, before, inner.lines⟩
    | _ =>
      ⟨single (tag []) body, before ++ [⟨.syntaxProblem .noExpansion, sub.span⟩], inner.lines⟩

/-- The head of a line, given how the head after a tag's colon is read. -/
def step (source : List Char) (expand : Line → List Line → Reading Head) (line : Line)
    (lines : List Line) : Reading Head :=
  let oneLine (r : Result) : Reading Head := ⟨r.1, r.2, lines⟩
  let span := line.span
  match Marker.leading? line.text with
  | none =>
    oneLine (fail (.unexpectedToken .lineHead (String.ofList (line.text.take 1))) span)
  | some (marker, length) =>
    let front := line.text.take length
    let rest := (⟨line.start, line.text⟩ : Place).skip front
    let tail := String.ofList (trim rest.text)
    match marker with
    | .tagName => ofTag expand line front lines
    | .className | .idName => ofTag expand line [] lines
    | .pipe =>
      let text := if startsWith rest.text [' '] then rest.skip [' '] else rest
      let (nodes, faults) := interpolated text.text text.offset
      oneLine (.text nodes true, faults)
    | .html => oneLine (fine (.text [.text (String.ofList line.text) span] false))
    | .comment => oneLine (fine (single (.comment (String.ofList rest.text) true span) .raw))
    | .silentComment => oneLine (fine (single (.comment (String.ofList rest.text) false span) .raw))
    | .code => oneLine (fine (single (.code tail .run [] span) (if tail == "" then .raw else .nodes)))
    | .bufferedCode => oneLine (fine (single (.code tail .escaped [] span) .leaf))
    | .unescapedCode => oneLine (fine (single (.code tail .unescaped [] span) .leaf))
    | .mixinCall => ofMixinCall line length lines
    | .filter => oneLine (ofFilter (front.drop 1) rest.text span)
    | .interpolatedTag => oneLine (ofInterpolatedTag line)
    | .keyword k => oneLine (ofKeyword source line k rest)

/-- The head of a line. Each colon on the line takes a step. -/
def read (source : List Char) : Nat → Line → List Line → Reading Head
  | 0, _, lines => ⟨.skip, [], lines⟩
  | n + 1, line, lines => step source (read source n) line lines

end Head

end PugComponents.Template

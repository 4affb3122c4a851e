import PugComponents.Template.Head

/- Documents: the lines of a template as a tree. A line belongs to the last line
   above it that is indented less. Faults are gathered in the order in which
   the lines are read; a line that cannot be used is dropped with the lines
   under it. -/
namespace PugComponents.Template

open Text

/-- Reads the head of a line. -/
abbrev HeadReader := Line → List Line → Reading Head

/-- Reads the nodes of the lines indented more than a width. -/
abbrev BlockReader := Nat → List Line → Reading (List Node)

/-- Drops the blank lines at the front. -/
def skipBlank (lines : List Line) : List Line := lines.dropWhile Line.isBlank

/-- The line is indented more than its parent; all lines are under no parent. -/
def Line.isUnder (line : Line) : Option Nat → Bool
  | none => true
  | some indent => indent < line.indent

/-- The next line that is not blank, if it stands under the parent, and the lines after it. -/
def nested? (parent : Option Nat) (lines : List Line) : Option (Line × List Line) :=
  match skipBlank lines with
  | [] => none
  | line :: rest => if line.isUnder parent then some (line, rest) else none

/-- Drops the lines under an indentation. -/
def skipChildren (indent : Nat) (lines : List Line) : List Line :=
  lines.dropWhile fun line => line.isBlank || indent < line.indent

/-- Refuses the lines under a node that cannot have any. -/
def rejectChildren (indent : Nat) (kind : String) (lines : List Line) : Reading Unit :=
  match nested? (some indent) lines with
  | none => ⟨(), [], skipBlank lines⟩
  | some (line, _) => ⟨(), [⟨.unexpectedChildren kind, line.span⟩], skipChildren indent lines⟩

/-- The lines under an indentation, without the blank lines at their end. -/
def rawLines (indent : Nat) (lines : List Line) : List Line :=
  ((lines.takeWhile fun line => line.isBlank || indent < line.indent).reverse.dropWhile
    Line.isBlank).reverse

/-- The least indentation of the lines that are not blank. -/
def commonIndent? (lines : List Line) : Option Nat :=
  ((lines.filter (!Line.isBlank ·)).map Line.indent).min?

/-- A line of raw text, with the common indentation removed. -/
def rawLine (common : Nat) (line : Line) : String :=
  if line.isBlank then ""
  else String.ofList (List.replicate (line.indent - common) ' ' ++ line.text)

/-- The lines under an indentation as raw text, and the offset of the first one. -/
def takeRaw (indent : Nat) (lines : List Line) : Reading (Option (String × Nat)) :=
  let body := rawLines indent lines
  let value :=
    match commonIndent? body, body with
    | some common, first :: _ => some (joinWith "\n" (body.map (rawLine common)), first.start)
    | _, _ => none
  ⟨value, [], lines.drop body.length⟩

/-- Adds raw text under a value. -/
def appendLine (value raw : String) : String := if value == "" then raw else value ++ "\n" ++ raw

/-- Adds raw text to a node that takes it. -/
def Node.addRaw (raw : String) : Node → Node
  | .comment value buffer span => .comment (appendLine value raw) buffer span
  | .code value kind block span => .code (appendLine value raw) kind block span
  | .filter name body span => .filter name (appendLine body raw) span
  | node => node

/-- Gives a `case` its branches. -/
def Node.addBranches (new : List Branch) : Node → Node
  | .caseOf subject branches span => .caseOf subject (branches ++ new) span
  | node => node

/-- Puts a node into the tags before it on its line. -/
def nestIn (hosts : List Node) (node : Node) : Node :=
  hosts.foldr (fun host inner => host.addChildren [inner]) node

/-- What stands before and from the colon that starts an inline branch. Colons in brackets, in
literals, and of conditional expressions do not count. -/
def cutAtExpansion : Nat → Nat → Quoting → List Char → List Char × List Char
  | _, _, _, [] => ([], [])
  | depth, ternaries, quoting, c :: cs =>
    if quoting.isCode c then
      if depth == 0 && c == ':' then
        if 0 < ternaries then consFirst c (cutAtExpansion depth (ternaries - 1) .outside cs)
        else if cs.head?.all isWhiteSpace then ([], c :: cs)
        else consFirst c (cutAtExpansion depth ternaries .outside cs)
      else if depth == 0 && c == '?' then
        consFirst c (cutAtExpansion depth (ternaries + 1) .outside cs)
      else consFirst c (cutAtExpansion (nextDepth depth c) ternaries .outside cs)
    else consFirst c (cutAtExpansion depth ternaries (quoting.next c) cs)

/-- What a line under a `case` says. -/
inductive BranchHead
  /-- A branch, and what follows its test. -/
  | branch (test : Option String) (rest : List Char)
  | ignored
  | fault (cause : Cause)

/-- Reads what a line under a `case` says. -/
def branchHead (text : List Char) : BranchHead :=
  match Marker.leading? text with
  | some (.keyword .whenBranch, length) =>
    let (test, rest) := cutAtExpansion 0 0 .outside (text.drop length)
    match trim test with
    | [] => .fault (.syntaxProblem .noMatcher)
    | matcher => .branch (some (String.ofList matcher)) rest
  | some (.keyword .defaultBranch, length) => .branch none (trimStart (text.drop length))
  | some (.silentComment, _) | some (.comment, _) => .ignored
  | _ => .fault .invalidCaseChild

/-- The text after the colon of a branch, if there is one. -/
def inlineBranch (rest : List Char) : List Char :=
  match rest with
  | ':' :: after => trimStart after
  | _ => []

/-- Finishes a node other than a `case` with the lines under it. -/
def closeBody (block : BlockReader) (node : Node) (body : Body) (indent : Nat)
    (lines : List Line) : Reading Node :=
  match body with
  | .nodes =>
    let r := block indent lines
    ⟨node.addChildren r.value, r.faults, r.lines⟩
  | .textBlock =>
    let r := takeRaw indent lines
    match r.value with
    | none => ⟨node, [], r.lines⟩
    | some (raw, start) =>
      let (nodes, faults) := interpolated raw.toList start
      ⟨node.addChildren nodes, faults, r.lines⟩
  | .raw =>
    let r := takeRaw indent lines
    match r.value with
    | none => ⟨node, [], r.lines⟩
    | some (raw, _) => ⟨node.addRaw raw, [], r.lines⟩
  | .branches | .leaf =>
    let r := rejectChildren indent node.kind lines
    ⟨node, r.faults, r.lines⟩

/-- Finishes a node with the lines under it, given how the branches of a `case` are read. -/
def closeWith (branches : Nat → List Line → Reading (List Branch)) (block : BlockReader)
    (pending : Pending) (indent : Nat) (lines : List Line) : Reading Node :=
  match pending.body with
  | .branches =>
    let r := branches indent lines
    ⟨nestIn pending.hosts (pending.node.addBranches r.value), r.faults, r.lines⟩
  | body =>
    let r := closeBody block pending.node body indent lines
    ⟨nestIn pending.hosts r.value, r.faults, r.lines⟩

/-- The block of a branch: the node after its colon, or the lines under it. -/
def branchBlock (close : Pending → Nat → List Line → Reading Node) (head : HeadReader)
    (block : BlockReader) (line : Line) (rest : List Char) (lines : List Line) :
    Reading (Option (List Node)) :=
  match inlineBranch rest with
  | [] =>
    match nested? (some line.indent) lines with
    | none => ⟨none, [], skipBlank lines⟩
    | some _ =>
      let r := block line.indent lines
      ⟨some r.value, r.faults, r.lines⟩
  | inline =>
    let before := line.text.take (line.text.length - inline.length)
    let sub := { line with
      start := line.start + byteLength before
      text := inline
      onward := line.onward.drop before.length }
    let r := head sub lines
    match r.value with
    | .node pending =>
      let closed := close pending line.indent r.lines
      ⟨some [closed.value], r.faults ++ closed.faults, closed.lines⟩
    | .text nodes _ =>
      let rejected := rejectChildren line.indent "Text" r.lines
      ⟨some nodes, r.faults ++ rejected.faults, rejected.lines⟩
    | _ =>
      ⟨none, r.faults ++ [⟨.syntaxProblem .noExpansion, sub.span⟩],
        skipChildren line.indent r.lines⟩

/-- A branch with the block it has, if any. -/
def Branch.ofBlock (test : Option String) (span : Span) : Option (List Node) → Branch
  | none => .bare test span
  | some nodes => .block test nodes span

/-- The branches under a `case`. Each step reads a line. -/
def readBranches (head : HeadReader) (block : BlockReader) :
    Nat → Nat → List Line → Reading (List Branch)
  | 0, _, lines => ⟨[], [], lines⟩
  | n + 1, parent, lines =>
    match nested? (some parent) lines with
    | none => ⟨[], [], skipBlank lines⟩
    | some (line, after) =>
      match branchHead line.text with
      | .ignored => readBranches head block n parent (skipChildren line.indent after)
      | .fault cause =>
        let more := readBranches head block n parent (skipChildren line.indent after)
        ⟨more.value, ⟨cause, line.span⟩ :: more.faults, more.lines⟩
      | .branch test rest =>
        let close := closeWith (readBranches head block n) block
        let r := branchBlock close head block line rest after
        let more := readBranches head block n parent r.lines
        ⟨Branch.ofBlock test line.span r.value :: more.value, r.faults ++ more.faults, more.lines⟩

/-- Finishes a node with the lines under it. -/
def closePending (head : HeadReader) (block : BlockReader) (pending : Pending) (indent : Nat)
    (lines : List Line) : Reading Node :=
  closeWith (readBranches head block (lines.length + 1)) block pending indent lines

/-- What a line and the lines under it give to their block. -/
inductive Sibling
  | nodes (list : List Node)
  /-- A further branch for the conditional before it. -/
  | alternate (branch : Alternate) (span : Span)

/-- A sibling with the faults of its lines. -/
structure BlockEntry where
  faults : List Fault
  sibling : Sibling

/-- The last branch of a chain takes every case that is left. -/
def endsInElse (alternates : List Alternate) : Bool :=
  match alternates.getLast? with
  | some (.orElse ..) => true
  | _ => false

/-- Adds a branch to the last of the nodes, which come latest first. -/
def attach (branch : Alternate) (span : Span) : List Node → List Node × List Fault
  | .conditional test consequent alternates s :: before =>
    if endsInElse alternates then
      (.conditional test consequent alternates s :: before, [⟨.orphanElse, span⟩])
    else (.conditional test consequent (alternates ++ [branch]) s :: before, [])
  | .each collection item key body s :: before =>
    (.each collection item key body s :: before, [⟨.unsupportedEachElse, span⟩])
  | before => (before, [⟨.orphanElse, span⟩])

/-- The nodes of a block from its entries; the nodes already read come latest first. -/
def assemble : List Node → List BlockEntry → List Node × List Fault
  | done, [] => (done.reverse, [])
  | done, ⟨faults, .nodes list⟩ :: rest =>
    let more := assemble (list.reverse ++ done) rest
    (more.1, faults ++ more.2)
  | done, ⟨faults, .alternate branch span⟩ :: rest =>
    let (done, orphan) := attach branch span done
    let more := assemble done rest
    (more.1, faults ++ orphan ++ more.2)

/-- A line of a block: what it gives, the lines that are left, and whether it is piped text. -/
structure EntryReading where
  entry : BlockEntry
  lines : List Line
  piped : Bool

/-- The branch of an `else`. -/
def Alternate.ofTest (test : Option String) (nodes : List Node) (span : Span) : Alternate :=
  match test with
  | none => .orElse nodes span
  | some test => .orIf test nodes span

/-- Reads what a line and the lines under it give. Two lines of piped text in a row are joined by a
line feed. -/
def readEntry (head : HeadReader) (block : BlockReader) (line : Line) (afterPiped : Bool)
    (lines : List Line) : EntryReading :=
  let h := head line lines
  match h.value with
  | .node pending =>
    let r := closePending head block pending line.indent h.lines
    ⟨⟨h.faults ++ r.faults, .nodes [r.value]⟩, r.lines, false⟩
  | .text nodes piped =>
    let feed : List Node := if piped && afterPiped then [.text "\n" (Span.empty line.start)] else []
    let r := rejectChildren line.indent "Text" h.lines
    ⟨⟨h.faults ++ r.faults, .nodes (feed ++ nodes)⟩, r.lines, piped⟩
  | .elseBranch test span =>
    let r := block line.indent h.lines
    ⟨⟨h.faults ++ r.faults, .alternate (Alternate.ofTest test r.value span) span⟩, r.lines, false⟩
  | .whenBranch keyword span =>
    ⟨⟨h.faults ++ [⟨.orphanWhen keyword, span⟩], .nodes []⟩, skipChildren line.indent h.lines, false⟩
  | .skip => ⟨⟨h.faults, .nodes []⟩, skipChildren line.indent h.lines, false⟩

/-- The fault of a line that is not indented as the first line of its block. -/
def unevenIndent (expected : Nat) (line : Line) : List Fault :=
  if line.indent == expected then []
  else [⟨.inconsistentIndentation expected line.indent, line.span⟩]

/-- Adds faults in front of those of an entry. -/
def BlockEntry.addFaults (faults : List Fault) (e : BlockEntry) : BlockEntry := { e with faults := faults ++ e.faults }

/-- The entries of the lines under a parent. `expected` is the indentation of the first line of the
block, once it is known. Each step reads a line, and so does each level of nesting. -/
def readEntries (head : HeadReader) :
    Nat → Option Nat → Option Nat → Bool → List Line → List BlockEntry × List Line
  | 0, _, _, _, lines => ([], lines)
  | n + 1, parent, expected, afterPiped, lines =>
    match nested? parent lines with
    | none => ([], skipBlank lines)
    | some (line, after) =>
      let width := expected.getD line.indent
      let block : BlockReader := fun indent lines =>
        let (entries, rest) := readEntries head n (some indent) none false lines
        let (nodes, faults) := assemble [] entries
        ⟨nodes, faults, rest⟩
      let r := readEntry head block line afterPiped after
      let (entries, rest) := readEntries head n parent (some width) r.piped r.lines
      (r.entry.addFaults (unevenIndent width line) :: entries, rest)

/-- The tree of a source, and what is wrong with the source. -/
def Document.parse (source : String) : Document × List Fault :=
  let text := source.toList
  let lines := Line.ofSource text
  let head := Head.read text (text.length + 1)
  let (entries, _) := readEntries head (lines.length + 1) none none false lines
  let (nodes, faults) := assemble [] entries
  (⟨nodes, byteLength text⟩, faults)

end PugComponents.Template

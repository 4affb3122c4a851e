import PugComponents.Template.Head

/- Heads that start with a keyword. What the words after a keyword say depends on them alone; where
   they stand only decides the span of the head, the column of an include and the span of an argument
   list that is not closed (`ofKeyword_worded`). -/
namespace PugComponents.Template

open Text
open Files

/-- The cause holds no width of indentation and no name of an attribute. -/
def Cause.isOfWords : Cause → Bool
  | .inconsistentIndentation .. | .syntaxProblem (.noAttributeValue _) => false
  | _ => true

/-- Where the argument list of a mixin is missing its end. -/
def Place.arguments (rest : Place) (stop : Nat) : Span :=
  let start := rest.skipWhile isWhiteSpace
  Span.between (start.skip (start.text.takeWhile Head.isMixinNamePart)).offset stop

namespace Head

/-- What words can say, given the column, the span of their line and the span of their arguments. -/
inductive Worded : (Nat → Span → Span → Result) → Prop
  | fault (cause : Cause) (h : cause.isOfWords = true) : Worded fun _ s _ => fail cause s
  | openArguments : Worded fun _ _ arguments => fail (.unclosedDelimiter '(') arguments
  | elseBranch (test : Option String) : Worded fun _ s _ => fine (.elseBranch test s)
  | whenBranch (keyword : Keyword) : Worded fun _ s _ => fine (.whenBranch keyword s)
  | doctype (value : String) : Worded fun _ s _ => fine (single (.doctype value s) .leaf)
  | conditional (test : String) :
      Worded fun _ s _ => fine (single (.conditional test [] [] s) .nodes)
  | caseOf (subject : String) : Worded fun _ s _ => fine (single (.caseOf subject [] s) .branches)
  | each (collection item : String) (key : Option String) :
      Worded fun _ s _ => fine (single (.each collection item key [] s) .nodes)
  | whileLoop (test : String) : Worded fun _ s _ => fine (single (.whileLoop test [] s) .nodes)
  | mixinDefinition (name : String) (arguments : Option String) :
      Worded fun _ s _ => fine (single (.mixinDefinition name arguments [] s) .nodes)
  | filter (name body : String) : Worded fun _ s _ => fine (single (.filter name body s) .leaf)
  | includeFile (file : FileReference) :
      Worded fun column s _ => fine (single (.includeFile file column s) .leaf)
  | rawInclude (file : FileReference) : Worded fun _ s _ => fine (single (.rawInclude file s) .leaf)
  | extendsFile (file : FileReference) : Worded fun _ s _ => fine (single (.extendsFile file s) .leaf)
  | mixinBlock : Worded fun _ s _ => fine (single (.mixinBlock s) .leaf)
  | namedBlock (name : String) (mode : BlockMode) :
      Worded fun _ s _ => fine (single (.namedBlock name mode [] s) .nodes)

theorem ofTest_worded (keyword : Keyword) (rest : List Char) :
    Worded fun _ s _ => ofTest keyword rest s := by
  simp only [ofTest]
  cases trim rest with
  | nil => exact .fault _ rfl
  | cons => exact .conditional _

theorem ofElse_worded (rest : List Char) : Worded fun _ s _ => ofElse rest s := by
  simp only [ofElse]
  cases (trim rest).isEmpty with
  | true => exact .elseBranch none
  | false =>
    cases testAfter? "if" (trim rest) with
    | some test => exact .elseBranch _
    | none =>
      cases testAfter? "unless" (trim rest) with
      | some test => exact .elseBranch _
      | none => exact .fault _ rfl

theorem ofNamedBlock_worded (mode : BlockMode) (rest : List Char) :
    Worded fun _ s _ => ofNamedBlock mode rest s := by
  simp only [ofNamedBlock]
  cases (trim rest).isEmpty || Marker.nameLength (trim rest) != (trim rest).length with
  | true => exact .fault _ rfl
  | false => exact .namedBlock _ mode

theorem ofBlock_worded (rest : List Char) : Worded fun _ s _ => ofBlock rest s := by
  simp only [ofBlock]
  cases (trim rest).isEmpty with
  | true => exact .mixinBlock
  | false =>
    cases dropPrefix? "append ".toList (trim rest) with
    | some name => exact ofNamedBlock_worded .append name
    | none =>
      cases dropPrefix? "prepend ".toList (trim rest) with
      | some name => exact ofNamedBlock_worded .prepend name
      | none => exact ofNamedBlock_worded .replace _

theorem ofInclude_worded (rest : List Char) : Worded fun column s _ => ofInclude column rest s := by
  by_cases hfiltered : ∃ filtered, rest = ':' :: filtered
  · obtain ⟨filtered, rfl⟩ := hfiltered
    exact .filter _ _
  · have hplain (filtered : List Char) (h : rest = ':' :: filtered) : False := hfiltered ⟨filtered, h⟩
    simp only [ofInclude]
    cases String.ofList (trim rest) == "" with
    | true => exact .fault _ rfl
    | false =>
      by_cases hpug : Path.extension? (String.ofList (trim rest)) = some "pug"
      · simp only [hpug]
        exact .includeFile _
      · cases hextension : Path.extension? (String.ofList (trim rest)) with
        | none => exact .includeFile _
        | some extension =>
          have hother : extension ≠ "pug" := fun h => hpug (h ▸ hextension)
          simp only
          exact .rawInclude _

theorem ofEach_worded (rest : List Char) : Worded fun _ s _ => ofEach rest s := by
  simp only [ofEach]
  cases loopParts? (trim rest) with
  | none => exact .fault _ rfl
  | some parts =>
    obtain ⟨before, after⟩ := parts
    simp only
    cases ((splitAtChar ',' before).map trim).find? (!isIdentifier ·) with
    | some bad => exact .fault _ rfl
    | none =>
      by_cases hmany : ((splitAtChar ',' before).map trim).length > 2
      · simp only [if_pos hmany]
        exact .fault _ rfl
      · simp only [if_neg hmany]
        cases (trim after).isEmpty with
        | true => exact .fault _ rfl
        | false => exact .each _ _ _

theorem ofMixin_worded (text : List Char) :
    ∃ f, Worded f ∧ ∀ (column offset : Nat) (s : Span),
      ofMixin ⟨offset, text⟩ s = f column s (Place.arguments ⟨offset, text⟩ s.stop) := by
  obtain ⟨start, hstart⟩ : ∃ start, text.drop (text.takeWhile isWhiteSpace).length = start := ⟨_, rfl⟩
  obtain ⟨name, hname⟩ : ∃ name, start.takeWhile isMixinNamePart = name := ⟨_, rfl⟩
  simp only [ofMixin, Place.arguments, Place.skipWhile, Place.skip, hstart, hname]
  cases name with
  | nil => exact ⟨_, .fault (.invalidMixin .noName) rfl, fun _ _ _ => rfl⟩
  | cons c name =>
    cases mixinArguments? (start.drop (c :: name).length) with
    | none => exact ⟨_, .openArguments, fun _ _ _ => rfl⟩
    | some found =>
      obtain ⟨arguments, after⟩ := found
      simp only
      cases trim after with
      | nil => exact ⟨_, .mixinDefinition (String.ofList (c :: name)) arguments, fun _ _ _ => rfl⟩
      | cons d junk =>
        exact ⟨_, .fault (.invalidMixin (.afterDeclaration (String.ofList (d :: junk)))) rfl,
          fun _ _ _ => rfl⟩

/-- What follows a keyword says the same wherever it stands. -/
theorem ofKeyword_worded (keyword : Keyword) (text : List Char) :
    ∃ f, Worded f ∧ ∀ (source : List Char) (line : Line) (offset : Nat),
      ofKeyword source line keyword ⟨offset, text⟩ =
        f (columnAt source line.start) line.span (Place.arguments ⟨offset, text⟩ line.stop) := by
  cases keyword with
  | doctype => exact ⟨_, .doctype (String.ofList (trim text)), fun _ _ _ => rfl⟩
  | ifTest | unlessTest => exact ⟨_, ofTest_worded _ text, fun _ _ _ => rfl⟩
  | elseBranch => exact ⟨_, ofElse_worded text, fun _ _ _ => rfl⟩
  | caseOf =>
    simp only [ofKeyword]
    cases String.ofList (trim text) == "" with
    | true => exact ⟨_, .fault (.syntaxProblem .noSubject) rfl, fun _ _ _ => rfl⟩
    | false => exact ⟨_, .caseOf _, fun _ _ _ => rfl⟩
  | whenBranch | defaultBranch => exact ⟨_, .whenBranch _, fun _ _ _ => rfl⟩
  | each | forEach => exact ⟨_, ofEach_worded text, fun _ _ _ => rfl⟩
  | whileLoop => exact ⟨_, .whileLoop (String.ofList (trim text)), fun _ _ _ => rfl⟩
  | mixin =>
    obtain ⟨f, hf, heq⟩ := ofMixin_worded text
    exact ⟨f, hf, fun _ _ _ => heq _ _ _⟩
  | includeFile => exact ⟨_, ofInclude_worded text, fun _ _ _ => rfl⟩
  | extendsFile =>
    simp only [ofKeyword]
    cases String.ofList (trim text) == "" with
    | true => exact ⟨_, .fault (.syntaxProblem .noExtendsPath) rfl, fun _ _ _ => rfl⟩
    | false => exact ⟨_, .extendsFile _, fun _ _ _ => rfl⟩
  | block => exact ⟨_, ofBlock_worded text, fun _ _ _ => rfl⟩
  | append | prepend => exact ⟨_, ofNamedBlock_worded _ text, fun _ _ _ => rfl⟩

end Head

end PugComponents.Template

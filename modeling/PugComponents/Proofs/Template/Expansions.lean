import PugComponents.Proofs.Text.Balanced
import PugComponents.Template.Document

/- Where the test of a branch ends. An expression is balanced, and its colons outside
   brackets and literals belong to conditional expressions (`ExpressionText`). The search
   for the colon that starts an inline branch counts every question mark outside brackets as
   the start of a conditional expression, also those of `?.` and `??`. So it passes an expression
   and then awaits as many colons as the expression has such question marks
   (`cutAtExpansion_expression`): without any, the expression ends at the colon behind it
   (`cutAtExpansion_colon`), and with one, that colon is taken for a part of it
   (`cutAtExpansion_awaited`). -/
namespace PugComponents.Template

open Text

/-- The text behind a question mark makes it the mark of a conditional expression, and not a part of
`??` or of `?.`, which no digit follows. -/
def startsConditional : List Char → Bool
  | '?' :: _ => false
  | '.' :: cs => cs.head?.any Char.isDigit
  | _ => true

/-- A balanced text whose colons outside brackets and literals are the second halves of its
conditional expressions; `marks` counts the question marks of its operators `?.` and `??`. -/
inductive ExpressionText : Nat → List Char → Prop
  | nil : ExpressionText 0 []
  | char {marks : Nat} {c : Char} {cs : List Char} (hc : isDelimiter c = false) (hquestion : c ≠ '?')
      (hcolon : c ≠ ':') : ExpressionText marks cs → ExpressionText marks (c :: cs)
  | literal {marks : Nat} {quote : Char} {tail cs : List Char} (hquote : isQuote quote = true)
      (htail : LiteralTail quote tail) :
      ExpressionText marks cs → ExpressionText marks (quote :: (tail ++ cs))
  | group {marks : Nat} {opener closer : Char} {inner cs : List Char}
      (hopen : closerOf? opener = some closer) (hinner : Balanced inner) :
      ExpressionText marks cs → ExpressionText marks (opener :: (inner ++ closer :: cs))
  | chaining {marks : Nat} {cs : List Char} (hcs : startsConditional ('.' :: cs) = false) :
      ExpressionText marks cs → ExpressionText (marks + 1) ('?' :: '.' :: cs)
  | coalescing {marks : Nat} {cs : List Char} :
      ExpressionText marks cs → ExpressionText (marks + 2) ('?' :: '?' :: cs)
  | conditional {first second : Nat} {middle cs : List Char}
      (hmark : startsConditional (middle ++ ':' :: cs) = true) :
      ExpressionText first middle → ExpressionText second cs →
      ExpressionText (first + second) ('?' :: (middle ++ ':' :: cs))

/-! ## Single characters -/

variable {c : Char}

theorem cutAtExpansion_of_not_code {quoting : Quoting} (h : quoting.isCode c = false)
    (depth ternaries : Nat) (cs : List Char) :
    cutAtExpansion depth ternaries quoting (c :: cs) =
      consFirst c (cutAtExpansion depth ternaries (quoting.next c) cs) := by
  simp only [cutAtExpansion, h, Bool.false_eq_true, if_false]

variable {depth : Nat}

theorem cutAtExpansion_of_code (hquote : isQuote c = false) (hc : depth = 0 → c ≠ ':' ∧ c ≠ '?')
    (ternaries : Nat) (cs : List Char) :
    cutAtExpansion depth ternaries .outside (c :: cs) =
      consFirst c (cutAtExpansion (nextDepth depth c) ternaries .outside cs) := by
  have hcolon : (depth == 0 && c == ':') = false := by
    cases depth with
    | succ depth => rfl
    | zero => simpa using (hc rfl).1
  have hquestion : (depth == 0 && c == '?') = false := by
    cases depth with
    | succ depth => rfl
    | zero => simpa using (hc rfl).2
  simp only [cutAtExpansion, Quoting.isCode_outside, hquote, Bool.not_false, if_true, hcolon, hquestion,
    Bool.false_eq_true, if_false]

/-- An awaited colon is passed. -/
theorem cutAtExpansion_awaited (ternaries : Nat) (cs : List Char) :
    cutAtExpansion 0 (ternaries + 1) .outside (':' :: cs) =
      consFirst ':' (cutAtExpansion 0 ternaries .outside cs) := rfl

/-- The first colon that is not awaited and has white space behind it starts an inline branch. -/
theorem cutAtExpansion_colon {cs : List Char} (h : cs.head?.all isWhiteSpace = true) :
    cutAtExpansion 0 0 .outside (':' :: cs) = ([], ':' :: cs) := by
  have hcode : Quoting.outside.isCode ':' = true := rfl
  simp [cutAtExpansion, hcode, h]

/-! ## Text that is passed -/

/-- The search passes the text and then awaits so many more colons. -/
def PassedAwaiting (depth marks : Nat) (text : List Char) : Prop :=
  ∀ ternaries rest, cutAtExpansion depth ternaries .outside (text ++ rest) =
    appendFirst text (cutAtExpansion depth (ternaries + marks) .outside rest)

theorem passedAwaiting_nil (depth : Nat) : PassedAwaiting depth 0 [] := fun _ _ => rfl

theorem PassedAwaiting.append {first second : Nat} {a b : List Char}
    (ha : PassedAwaiting depth first a) (hb : PassedAwaiting depth second b) :
    PassedAwaiting depth (first + second) (a ++ b) := by
  intro ternaries rest
  rw [List.append_assoc, ha, hb, Nat.add_assoc]
  simp [appendFirst]

theorem passedAwaiting_char (hc : isDelimiter c = false) (hsign : depth = 0 → c ≠ ':' ∧ c ≠ '?') :
    PassedAwaiting depth 0 [c] := by
  intro ternaries rest
  rw [List.cons_append, cutAtExpansion_of_code (isDelimiter_eq_false.mp hc).1 hsign, nextDepth_plain hc]
  rfl

/-- A question mark outside brackets makes the search await one more colon. -/
theorem passedAwaiting_question : PassedAwaiting 0 1 ['?'] := fun _ _ => rfl

/-- The search passes what stands in brackets and literals. -/
def expansionScan (ternaries : Nat) : Scan Nat Unit (List Char × List Char) where
  run depth quoting _ := cutAtExpansion depth ternaries quoting
  next _ _ := ()
  put := consFirst
  deeper _ depth := depth + 1
  Open _ := True
  Inside depth := depth ≠ 0
  open_of_inside _ := trivial
  inside_deeper _ depth := Nat.succ_ne_zero depth
  hidden h depth _ cs := cutAtExpansion_of_not_code h depth ternaries cs
  code hc depth h _ cs := passedAwaiting_char hc (absurd · h) ternaries cs
  opener hopen depth _ _ cs := by
    rw [cutAtExpansion_of_code (closerOf?_eq_some hopen).1, nextDepth_opener hopen]
    intro _
    rcases closerOf?_cases hopen with ⟨rfl, -⟩ | ⟨rfl, -⟩ | ⟨rfl, -⟩ <;> decide
  closer hopen depth _ _ cs := by
    rw [cutAtExpansion_of_code (closerOf?_eq_some hopen).2.1 (absurd · (Nat.succ_ne_zero depth)),
      nextDepth_closer hopen]

theorem passedAwaiting_of_passes {text : List Char}
    (h : ∀ ternaries, (expansionScan ternaries).Passes depth text) : PassedAwaiting depth 0 text :=
  fun ternaries rest => (h ternaries () rest).trans (foldr_consFirst text _)

/-- **Where an expression ends.** The search passes an expression. Its conditional expressions leave
no trace; for each question mark of `?.` and `??` one more colon is awaited behind it. -/
theorem cutAtExpansion_expression {marks : Nat} {text : List Char} (h : ExpressionText marks text) :
    PassedAwaiting 0 marks text := by
  induction h with
  | nil => exact passedAwaiting_nil 0
  | @char marks c cs hc hquestion hcolon _ ih =>
    have hstep := (passedAwaiting_char hc fun _ => ⟨hcolon, hquestion⟩).append ih
    rwa [Nat.zero_add] at hstep
  | @literal marks quote tail cs hquote htail _ ih =>
    have hstep := (passedAwaiting_of_passes fun _ => .literal hquote htail).append ih
    rwa [Nat.zero_add] at hstep
  | @group marks opener closer inner cs hopen hinner _ ih =>
    have hstep := (passedAwaiting_of_passes fun _ => .group hopen trivial hinner).append ih
    rw [Nat.zero_add] at hstep
    simpa using hstep
  | @chaining marks cs _ _ ih =>
    have hdot : PassedAwaiting 0 0 ['.'] := passedAwaiting_char (by decide) (by decide)
    have hstep := passedAwaiting_question.append (hdot.append ih)
    rwa [Nat.zero_add, Nat.add_comm] at hstep
  | @coalescing marks cs _ ih =>
    have hstep := passedAwaiting_question.append (passedAwaiting_question.append ih)
    rwa [← Nat.add_assoc, Nat.add_comm] at hstep
  | @conditional first second middle cs _ _ _ ihmiddle ih =>
    have hfirst := passedAwaiting_question.append ihmiddle
    intro ternaries rest
    -- The colon is awaited, since the question mark is in front of it.
    have hmiddle := hfirst ternaries (':' :: (cs ++ rest))
    rw [← Nat.add_assoc, Nat.add_right_comm, cutAtExpansion_awaited, ih, Nat.add_assoc] at hmiddle
    simpa [appendFirst, consFirst] using hmiddle

end PugComponents.Template

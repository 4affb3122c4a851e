import PugComponents.Proofs.Text.Groups

/- Balanced text. Brackets are closed in the order in which they are opened, and
   string literals are complete. A scan that passes literals and groups passes
   balanced text inside brackets (`Scan.Passes.balanced`), so a group with a balanced
   inside ends at the bracket behind it (`group?_balanced`). There are no other groups:
   what a group encloses is balanced (`balanced_of_group?`), and the bracket that
   ends it is of its kind (`group?_eq_some_iff`). -/
namespace PugComponents.Text

/-- A bracket or a quote. -/
def isDelimiter (c : Char) : Bool := isQuote c || (closerOf? c).isSome || isCloser c

/-- The rest of a string literal, with the quote that ends it. -/
inductive LiteralTail (quote : Char) : List Char → Prop
  | close : LiteralTail quote [quote]
  | escape (c : Char) {cs : List Char} : LiteralTail quote cs → LiteralTail quote ('\\' :: c :: cs)
  | char {c : Char} {cs : List Char} (hquote : c ≠ quote) (hescape : c ≠ '\\') :
      LiteralTail quote cs → LiteralTail quote (c :: cs)

/-- A text whose brackets match and whose string literals are complete. -/
inductive Balanced : List Char → Prop
  | nil : Balanced []
  | char {c : Char} {cs : List Char} (hc : isDelimiter c = false) : Balanced cs → Balanced (c :: cs)
  | literal {quote : Char} {tail cs : List Char} (hquote : isQuote quote = true)
      (htail : LiteralTail quote tail) : Balanced cs → Balanced (quote :: (tail ++ cs))
  | group {opener closer : Char} {inner cs : List Char} (hopen : closerOf? opener = some closer) :
      Balanced inner → Balanced cs → Balanced (opener :: (inner ++ closer :: cs))

variable {c : Char}

theorem isDelimiter_eq_false :
    isDelimiter c = false ↔ isQuote c = false ∧ closerOf? c = none ∧ isCloser c = false := by
  simp [isDelimiter, and_assoc]

variable {opener closer : Char}

/-- A bracket that opens is no quote, and what closes it only closes. -/
theorem closerOf?_eq_some (h : closerOf? opener = some closer) :
    isQuote opener = false ∧ isQuote closer = false ∧ closerOf? closer = none ∧
      isCloser closer = true := by
  rcases closerOf?_cases h with ⟨rfl, rfl⟩ | ⟨rfl, rfl⟩ | ⟨rfl, rfl⟩ <;> decide

theorem Balanced.append {a b : List Char} (ha : Balanced a) (hb : Balanced b) : Balanced (a ++ b) := by
  induction ha with
  | nil => exact hb
  | char hc _ ih => exact .char hc ih
  | literal hquote htail _ ih =>
    rw [List.cons_append, List.append_assoc]
    exact .literal hquote htail ih
  | group hopen hinner _ _ ih =>
    rw [List.cons_append, List.append_assoc, List.cons_append]
    exact .group hopen hinner ih

variable {cs : List Char}

theorem Balanced.of_forall (h : ∀ c ∈ cs, isDelimiter c = false) : Balanced cs := by
  induction cs with
  | nil => exact .nil
  | cons c cs ih =>
    exact .char (h c List.mem_cons_self) (ih fun d hd => h d (List.mem_cons_of_mem c hd))

variable {quote : Char}

/-- A literal without escapes. -/
theorem LiteralTail.of_forall (h : ∀ c ∈ cs, c ≠ quote ∧ c ≠ '\\') :
    LiteralTail quote (cs ++ [quote]) := by
  induction cs with
  | nil => exact .close
  | cons c cs ih =>
    obtain ⟨hquote, hescape⟩ := h c List.mem_cons_self
    exact .char hquote hescape (ih fun d hd => h d (List.mem_cons_of_mem c hd))

variable {tail : List Char}

/-- The last character of a literal is its quote. -/
theorem LiteralTail.eq_concat (h : LiteralTail quote tail) : ∃ cs, tail = cs ++ [quote] := by
  induction h with
  | close => exact ⟨[], rfl⟩
  | escape c _ ih =>
    obtain ⟨cs, rfl⟩ := ih
    exact ⟨'\\' :: c :: cs, rfl⟩
  | @char c _ _ _ _ ih =>
    obtain ⟨cs, rfl⟩ := ih
    exact ⟨c :: cs, rfl⟩

/-! ## Quoting -/

theorem Quoting.isCode_outside (c : Char) : Quoting.outside.isCode c = !isQuote c := by
  simp [isCode]

theorem Quoting.isCode_inside (quote c : Char) : (Quoting.inside quote).isCode c = false := rfl

theorem Quoting.isCode_escaped (quote c : Char) : (Quoting.escaped quote).isCode c = false := rfl

theorem Quoting.next_quote (h : isQuote quote = true) :
    Quoting.outside.next quote = .inside quote := if_pos h

/-- A quote ends its own literal. -/
theorem Quoting.next_close (h : isQuote quote = true) :
    (Quoting.inside quote).next quote = .outside := by
  have hescape : quote ≠ '\\' := by
    rintro rfl
    cases h
  simp [next, hescape]

theorem Quoting.next_escape (quote : Char) : (Quoting.inside quote).next '\\' = .escaped quote := rfl

theorem Quoting.next_escaped (quote c : Char) : (Quoting.escaped quote).next c = .inside quote := rfl

theorem Quoting.next_inside (hquote : c ≠ quote) (hescape : c ≠ '\\') :
    (Quoting.inside quote).next c = .inside quote := by
  simp [next, hquote, hescape]

/-! ## Scans -/

/-- A scan of a text that passes literals and groups. A bracket that opens makes its level deeper,
every character moves its state on, and what is passed is put in front of the result. -/
structure Scan (Level State Result : Type) where
  run : Level → Quoting → State → List Char → Result
  next : State → Char → State
  put : Char → Result → Result
  deeper : Char → Level → Level
  /-- Groups are passed at this level. -/
  Open : Level → Prop
  /-- All that is no bracket and no quote is passed at this level. -/
  Inside : Level → Prop
  open_of_inside {level : Level} : Inside level → Open level
  inside_deeper (closer : Char) (level : Level) : Inside (deeper closer level)
  hidden {quoting : Quoting} {c : Char} (h : quoting.isCode c = false) (level : Level) (state : State)
    (cs : List Char) :
    run level quoting state (c :: cs) = put c (run level (quoting.next c) (next state c) cs)
  code {c : Char} (hc : isDelimiter c = false) {level : Level} (h : Inside level) (state : State)
    (cs : List Char) :
    run level .outside state (c :: cs) = put c (run level .outside (next state c) cs)
  opener {opener closer : Char} (hopen : closerOf? opener = some closer) {level : Level}
    (h : Open level) (state : State) (cs : List Char) :
    run level .outside state (opener :: cs) =
      put opener (run (deeper closer level) .outside (next state opener) cs)
  closer {opener closer : Char} (hopen : closerOf? opener = some closer) {level : Level}
    (h : Open level) (state : State) (cs : List Char) :
    run (deeper closer level) .outside state (closer :: cs) =
      put closer (run level .outside (next state closer) cs)

variable {inner : List Char}

namespace Scan

variable {Level State Result : Type} {scan : Scan Level State Result} {level : Level}

/-- The scan passes the text at this level, whatever follows. -/
def Passes (scan : Scan Level State Result) (level : Level) (text : List Char) : Prop :=
  ∀ state rest, scan.run level .outside state (text ++ rest) =
    text.foldr scan.put (scan.run level .outside (text.foldl scan.next state) rest)

theorem Passes.nil : scan.Passes level [] := fun _ _ => rfl

theorem Passes.append {a b : List Char} (ha : scan.Passes level a) (hb : scan.Passes level b) :
    scan.Passes level (a ++ b) := by
  intro state rest
  rw [List.append_assoc, ha, hb, List.foldr_append, List.foldl_append]

theorem run_literal (hquote : isQuote quote = true) (h : LiteralTail quote tail) (state : State)
    (rest : List Char) :
    scan.run level (.inside quote) state (tail ++ rest) =
      tail.foldr scan.put (scan.run level .outside (tail.foldl scan.next state) rest) := by
  induction h generalizing state with
  | close =>
    rw [List.cons_append, scan.hidden (Quoting.isCode_inside _ _), Quoting.next_close hquote]
    rfl
  | escape c _ ih =>
    rw [List.cons_append, List.cons_append, scan.hidden (Quoting.isCode_inside _ _),
      Quoting.next_escape, scan.hidden (Quoting.isCode_escaped _ _), Quoting.next_escaped, ih]
    rfl
  | char hne hescape _ ih =>
    rw [List.cons_append, scan.hidden (Quoting.isCode_inside _ _), Quoting.next_inside hne hescape, ih]
    rfl

/-- A literal is passed as a whole. -/
theorem Passes.literal (hquote : isQuote quote = true) (h : LiteralTail quote tail) :
    scan.Passes level (quote :: tail) := by
  intro state rest
  rw [List.cons_append, scan.hidden (by rw [Quoting.isCode_outside, hquote]; rfl),
    Quoting.next_quote hquote, run_literal hquote h]
  rfl

/-- What is passed one level deeper is passed in brackets. -/
theorem Passes.brackets (hopen : closerOf? opener = some closer) (hlevel : scan.Open level)
    (h : scan.Passes (scan.deeper closer level) inner) :
    scan.Passes level (opener :: (inner ++ [closer])) := by
  intro state rest
  rw [List.cons_append, scan.opener hopen hlevel, List.append_assoc, h, List.singleton_append,
    scan.closer hopen hlevel]
  simp

/-- Balanced text is passed inside brackets. -/
theorem Passes.balanced {text : List Char} (h : Balanced text) (hlevel : scan.Inside level) :
    scan.Passes level text := by
  induction h generalizing level with
  | nil => exact .nil
  | @char c cs hc _ ih =>
    have hchar : scan.Passes level [c] := scan.code hc hlevel
    exact hchar.append (ih hlevel)
  | literal hquote htail _ ih => exact (Passes.literal hquote htail).append (ih hlevel)
  | @group opener closer inner cs hopen _ _ ihinner ih =>
    have hgroup := Passes.brackets hopen (scan.open_of_inside hlevel) (ihinner (scan.inside_deeper _ _))
    simpa using hgroup.append (ih hlevel)

/-- A group with a balanced inside is passed. -/
theorem Passes.group (hopen : closerOf? opener = some closer) (hlevel : scan.Open level)
    (h : Balanced inner) : scan.Passes level (opener :: (inner ++ [closer])) :=
  .brackets hopen hlevel (.balanced h (scan.inside_deeper _ _))

end Scan

/-! ## Levels that are counted -/

theorem nextDepth_plain (hc : isDelimiter c = false) (depth : Nat) : nextDepth depth c = depth := by
  obtain ⟨-, hopen, hclose⟩ := isDelimiter_eq_false.mp hc
  simp [nextDepth, hopen, hclose]

theorem nextDepth_opener (hopen : closerOf? opener = some closer) (depth : Nat) :
    nextDepth depth opener = depth + 1 := by
  simp [nextDepth, hopen]

theorem nextDepth_closer (hopen : closerOf? opener = some closer) (depth : Nat) :
    nextDepth (depth + 1) closer = depth := by
  obtain ⟨-, -, hcopen, hcclose⟩ := closerOf?_eq_some hopen
  simp [nextDepth, hcopen, hcclose]

/-- Puts a text in front of the first part. -/
def appendFirst {β : Type} (front : List Char) (r : List Char × β) : List Char × β :=
  (front ++ r.1, r.2)

theorem foldr_consFirst {β : Type} (text : List Char) (r : List Char × β) :
    text.foldr consFirst r = appendFirst text r := by
  induction text with
  | nil => rfl
  | cons c text ih => rw [List.foldr_cons, ih]; rfl

/-! ## Groups with a balanced inside -/

/-- The search for the end of a group awaits closing brackets. -/
def groupScan : Scan (List Char) Unit (Option (List Char × List Char)) where
  run pending quoting _ := scanGroup pending quoting
  next _ _ := ()
  put c := Option.map (consFirst c)
  deeper := List.cons
  Open := (· ≠ [])
  Inside := (· ≠ [])
  open_of_inside h := h
  inside_deeper closer pending := List.cons_ne_nil closer pending
  hidden h pending _ cs := by simp only [scanGroup, h, Bool.false_eq_true, if_false]
  code hc pending _ _ cs := by
    obtain ⟨hquote, hopen, hclose⟩ := isDelimiter_eq_false.mp hc
    simp [scanGroup, Quoting.isCode_outside, hquote, hopen, hclose]
  opener hopen pending _ _ cs := by
    have hquote := (closerOf?_eq_some hopen).1
    simp [scanGroup, Quoting.isCode_outside, hquote, hopen]
  closer hopen pending hpending _ cs := by
    obtain ⟨-, hquote, hcopen, hclose⟩ := closerOf?_eq_some hopen
    -- Others are still awaited, so the scan does not end at this bracket.
    cases pending with
    | nil => exact absurd rfl hpending
    | cons => simp [scanGroup, Quoting.isCode_outside, hquote, hcopen, hclose]

/-- A group with a balanced inside ends at the bracket behind it. -/
theorem group?_balanced (hopen : closerOf? opener = some closer) (h : Balanced inner)
    (rest : List Char) : group? (opener :: (inner ++ closer :: rest)) = some (inner, rest) := by
  obtain ⟨-, hquote, hcopen, hcclose⟩ := closerOf?_eq_some hopen
  have hcloser : scanGroup [closer] .outside (closer :: rest) = some ([], rest) := by
    simp [scanGroup, Quoting.isCode_outside, hquote, hcopen, hcclose]
  have hput : ∀ text : List Char, text.foldr groupScan.put (some ([], rest)) = some (text, rest) := by
    intro text
    induction text with
    | nil => rfl
    | cons c text ih => rw [List.foldr_cons, ih]; rfl
  have hpass : groupScan.Passes [closer] inner := .balanced h (List.cons_ne_nil _ _)
  simp only [group?, hopen]
  refine (hpass () (closer :: rest)).trans ?_
  show inner.foldr _ (scanGroup [closer] .outside (closer :: rest)) = _
  rw [hcloser, hput]

/-! ## The inside of a group -/

/-- The text goes to the end of the literal that is open, if one is. -/
def Quoting.Ends : Quoting → List Char → Prop
  | .outside, cs => cs = []
  | .inside quote, cs => LiteralTail quote cs
  | .escaped quote, cs => ∃ c tail, cs = c :: tail ∧ LiteralTail quote tail

/-- What stands before the last of the awaited brackets: balanced texts, and the other brackets
between them. -/
inductive Completes : List Char → List Char → Prop
  | last {closer : Char} {inner : List Char} : Balanced inner → Completes [closer] inner
  | next {closer : Char} {outer inner rest : List Char} : Balanced inner → Completes outer rest →
      Completes (closer :: outer) (inner ++ closer :: rest)

variable {pending : List Char}

theorem Completes.prepend {front : List Char} (hfront : Balanced front) (h : Completes pending cs) :
    Completes pending (front ++ cs) := by
  cases h with
  | last hinner => exact .last (hfront.append hinner)
  | next hinner hrest =>
    rw [← List.append_assoc]
    exact .next (hfront.append hinner) hrest

/-- A bracket that opens, and what closes it. -/
theorem Completes.opened (hopen : closerOf? opener = some closer) (hpending : pending ≠ [])
    (h : Completes (closer :: pending) cs) : Completes pending (opener :: cs) := by
  cases h with
  | last => exact absurd rfl hpending
  | @next _ _ inner rest hinner hrest =>
    have hgroup : Balanced (opener :: (inner ++ closer :: [])) := .group hopen hinner .nil
    simpa using hrest.prepend hgroup

/-- A character in a literal, or the quote that starts one. -/
theorem Quoting.ends_of_next {quoting : Quoting} (hc : quoting.isCode c = false)
    (htail : (quoting.next c).Ends tail) (h : Completes pending cs) :
    ∃ tail' cs', c :: (tail ++ cs) = tail' ++ cs' ∧ quoting.Ends tail' ∧ Completes pending cs' := by
  cases quoting with
  | outside =>
    have hquote : isQuote c = true := by simpa [Quoting.isCode_outside] using hc
    rw [Quoting.next_quote hquote] at htail
    have hliteral : Balanced (c :: (tail ++ [])) := .literal hquote htail .nil
    rw [List.append_nil] at hliteral
    exact ⟨[], c :: (tail ++ cs), rfl, rfl, h.prepend hliteral⟩
  | inside quote =>
    refine ⟨c :: tail, cs, rfl, ?_, h⟩
    by_cases hescape : c = '\\'
    · subst hescape
      obtain ⟨d, rest, rfl, hrest⟩ := htail
      exact .escape d hrest
    · by_cases hquote : c = quote
      · subst hquote
        have hout : (Quoting.inside c).next c = .outside := by simp [next, hescape]
        rw [hout] at htail
        rw [htail]
        exact .close
      · rw [Quoting.next_inside hquote hescape] at htail
        exact .char hquote hescape htail
  | escaped quote => exact ⟨c :: tail, cs, rfl, ⟨c, tail, rfl, htail⟩, h⟩

variable {rest : List Char}

/-- A scan that finds the end has passed the end of every literal and of every other bracket. -/
theorem completes_of_scanGroup (hpending : pending ≠ []) {quoting : Quoting}
    (h : scanGroup pending quoting cs = some (inner, rest)) :
    ∃ tail found, inner = tail ++ found ∧ quoting.Ends tail ∧ Completes pending found := by
  have houtside {quoting : Quoting} {c : Char} (hc : quoting.isCode c = true) :
      quoting = .outside := by
    simp only [Quoting.isCode, Bool.and_eq_true, beq_iff_eq] at hc
    exact hc.1
  -- `tail` ends the literal that the scan starts in; outside of one it is empty.
  fun_induction scanGroup pending quoting cs generalizing inner rest with
  | case1 | case3 | case5 | case7 => cases h
  | case2 pending quoting c cs hcode closer hopen ih =>
    obtain ⟨i, hi, rfl⟩ := map_consFirst_eq_some h
    obtain ⟨tail, found, rfl, rfl, hfound⟩ := ih (List.cons_ne_nil _ _) hi
    exact ⟨[], c :: found, rfl, houtside hcode ▸ rfl, hfound.opened hopen hpending⟩
  | case4 quoting c cs hcode hopen hcloser awaited hawaited =>
    cases h
    exact ⟨[], [], rfl, houtside hcode ▸ rfl, .last .nil⟩
  | case6 quoting c cs hcode hopen hcloser awaited outer hne hawaited ih =>
    obtain ⟨i, hi, rfl⟩ := map_consFirst_eq_some h
    obtain ⟨tail, found, rfl, rfl, hfound⟩ := ih (fun h => hne h) hi
    rw [beq_iff_eq.mp hawaited]
    exact ⟨[], c :: found, rfl, houtside hcode ▸ rfl, .next .nil hfound⟩
  | case8 pending quoting c cs hcode hopen hcloser ih =>
    obtain ⟨i, hi, rfl⟩ := map_consFirst_eq_some h
    obtain ⟨tail, found, rfl, rfl, hfound⟩ := ih hpending hi
    obtain rfl := houtside hcode
    have hquote : isQuote c = false := by simpa [Quoting.isCode_outside] using hcode
    have hplain : isDelimiter c = false :=
      isDelimiter_eq_false.mpr ⟨hquote, hopen, Bool.eq_false_iff.mpr hcloser⟩
    exact ⟨[], [c] ++ found, rfl, rfl, hfound.prepend (.char hplain .nil)⟩
  | case9 pending quoting c cs hcode ih =>
    obtain ⟨i, hi, rfl⟩ := map_consFirst_eq_some h
    obtain ⟨tail, found, rfl, htail, hfound⟩ := ih hpending hi
    exact Quoting.ends_of_next (Bool.eq_false_iff.mpr hcode) htail hfound

/-- What a group encloses is balanced. -/
theorem balanced_of_group? (h : group? (opener :: cs) = some (inner, rest)) : Balanced inner := by
  simp only [group?] at h
  split at h
  · obtain ⟨tail, found, rfl, rfl, hfound⟩ := completes_of_scanGroup (List.cons_ne_nil _ _) h
    cases hfound with
    | last hinner => exact hinner
    | next _ hrest => cases hrest
  · cases h

/-- A group is what the grammar says: it ends at the bracket of its kind that has a balanced text
before it. -/
theorem group?_eq_some_iff (hopen : closerOf? opener = some closer) :
    group? (opener :: cs) = some (inner, rest) ↔ Balanced inner ∧ cs = inner ++ closer :: rest := by
  constructor
  · intro h
    obtain ⟨_, found, hfound, htext⟩ := group?_eq_some h
    obtain ⟨rfl, rfl⟩ := List.cons.inj htext
    rw [Option.some.inj (hopen.symm.trans hfound)]
    exact ⟨balanced_of_group? h, rfl⟩
  · rintro ⟨hinner, rfl⟩
    exact group?_balanced hopen hinner rest

end PugComponents.Text

import Mathlib.Data.List.DropRight
import Mathlib.Data.List.Forall2
import PugComponents.Proofs.Template.Coverage

/- Raw text. The lines under a comment, a piece of code, a filter or a tag with a dot are taken
   without being read: the longest run of lines that are blank or indented more (`RunUnder`), up to
   the last one that is written (`WrittenEnd`). Their text has one line for each of them, less the
   indentation that all written ones share (`RawText`), and what follows the body is read on from
   the first line behind it (`takeRaw_dedents`). -/
namespace PugComponents.Template

open Text

/-! ## Physical lines -/

/-- What stands between two line feeds: the indentation, the content, and maybe a carriage return. -/
structure Line.Physical (line : Line) (text : List Char) : Prop where
  split : ∃ indentation, dropReturn text = indentation ++ line.text ∧
    indentation.length = line.indent ∧ ∀ c ∈ indentation, isIndentation c = true
  flush : ∀ c ∈ line.text.head?, isIndentation c = false

theorem atFront_physical (number offset : Nat) (onward : List Char) :
    (Line.atFront number offset onward).Physical (onward.takeWhile (· != '\n')) where
  split := by
    refine ⟨(lineContent onward).takeWhile isIndentation, ?_, rfl, fun c => List.mem_takeWhile_imp⟩
    exact (List.prefix_iff_eq_append.mp (List.takeWhile_prefix _)).symm
  flush := by
    intro c hc
    have htext : (lineContent onward).dropWhile isIndentation =
        (Line.atFront number offset onward).text := by
      have hsplit := congrArg (List.drop ((lineContent onward).takeWhile isIndentation).length)
        (List.takeWhile_append_dropWhile (p := isIndentation) (l := lineContent onward))
      rwa [List.drop_left] at hsplit
    have hhead := List.head?_dropWhile_not isIndentation (lineContent onward)
    rw [htext, Option.mem_def.mp hc] at hhead
    exact hhead

theorem afterFeeds_physical (number offset : Nat) (text : List Char) :
    ∃ parts, splitAtChar '\n' text = text.takeWhile (· != '\n') :: parts ∧
      List.Forall₂ Line.Physical (Line.afterFeeds number offset text) parts := by
  induction text generalizing number offset with
  | nil => exact ⟨[], rfl, .nil⟩
  | cons c cs ih =>
    by_cases hc : c = '\n'
    · -- A feed ends the part before it, and the line after it is at the front of the rest.
      subst hc
      obtain ⟨parts, hparts, hphysical⟩ := ih (number + 1) (offset + '\n'.utf8Size)
      refine ⟨cs.takeWhile (· != '\n') :: parts, ?_, .cons (atFront_physical _ _ cs) hphysical⟩
      rw [← hparts]
      rfl
    · obtain ⟨parts, hparts, hphysical⟩ := ih number (offset + c.utf8Size)
      refine ⟨parts, ?_, ?_⟩
      · rw [splitAtChar] at hparts ⊢
        simp [splitWhere, hc, hparts]
      · simpa [Line.afterFeeds, hc] using hphysical

/-- The lines of a source are what stands between its line feeds. -/
theorem ofSource_physical (source : List Char) :
    List.Forall₂ Line.Physical (Line.ofSource source) (splitAtChar '\n' source) := by
  obtain ⟨parts, hparts, hphysical⟩ := afterFeeds_physical 1 0 source
  rw [hparts]
  exact .cons (atFront_physical 1 0 source) hphysical

theorem Line.feed_notMem {source : List Char} {line : Line} (h : line ∈ Line.ofSource source) :
    '\n' ∉ line.text := by
  rw [(Line.placed_of_mem_ofSource h).content]
  exact feed_notMem_lineContent line.onward

/-! ## The lines that are taken -/

variable {indent common : Nat} {lines run body : List Line} {line : Line}

/-- The longest front of the lines in which every line is blank or indented more than a width. -/
structure RunUnder (indent : Nat) (lines run : List Line) : Prop where
  front : run <+: lines
  under : ∀ line ∈ run, line.isBlank = true ∨ indent < line.indent
  longest : ∀ other, other <+: lines →
    (∀ line ∈ other, line.isBlank = true ∨ indent < line.indent) → other <+: run

/-- The front of a run that ends with the last line that is not blank. -/
structure WrittenEnd (run body : List Line) : Prop where
  front : body <+: run
  last : ∀ line ∈ body.getLast?, line.isBlank = false
  behind : ∀ line ∈ run.drop body.length, line.isBlank = true

theorem runUnder_takeWhile (indent : Nat) (lines : List Line) :
    RunUnder indent lines (lines.takeWhile (Line.isChild indent)) where
  front := List.takeWhile_prefix _
  under line hline := by simpa [Line.isChild] using List.mem_takeWhile_imp hline
  longest := by
    rintro other ⟨rest, rfl⟩ hunder
    rw [List.takeWhile_append_of_pos (by simpa [Line.isChild] using hunder)]
    exact List.prefix_append _ _

theorem writtenEnd_rawLines (indent : Nat) (lines : List Line) :
    WrittenEnd (lines.takeWhile (Line.isChild indent)) (rawLines indent lines) := by
  generalize hrun : lines.takeWhile (Line.isChild indent) = run
  have hbody : rawLines indent lines = run.rdropWhile Line.isBlank := by
    rw [rawLines_eq, hrun]
    rfl
  have hsplit : run.rdropWhile Line.isBlank ++ run.rtakeWhile Line.isBlank = run :=
    List.rdropWhile_append_rtakeWhile
  rw [hbody]
  refine ⟨List.rdropWhile_prefix _ _, ?_, ?_⟩
  · intro line hline
    obtain ⟨hne, rfl⟩ := List.mem_getLast?_eq_getLast hline
    exact Bool.eq_false_iff.mpr (List.rdropWhile_last_not _ _ hne)
  · intro line hline
    have hdrop := congrArg (List.drop (run.rdropWhile Line.isBlank).length) hsplit
    rw [List.drop_left] at hdrop
    rw [← hdrop] at hline
    exact List.mem_rtakeWhile_imp hline

theorem WrittenEnd.written_eq (h : WrittenEnd run body) : written body = written run := by
  obtain ⟨rest, rfl⟩ := h.front
  have hrest : written rest = [] := by
    refine List.filter_eq_nil_iff.mpr fun line hline => ?_
    simp [h.behind line (by rwa [List.drop_left])]
  calc written body
      = written body ++ written rest := by rw [hrest, List.append_nil]
    _ = written (body ++ rest) := (List.filter_append ..).symm

theorem WrittenEnd.eq_nil (h : WrittenEnd run body) (hnone : written run = []) : body = [] := by
  rw [← h.written_eq] at hnone
  cases hlast : body.getLast? with
  | none => exact List.getLast?_eq_none_iff.mp hlast
  | some line =>
    have hmem : line ∈ written body :=
      List.mem_filter.mpr ⟨List.mem_of_getLast? hlast, by simp [h.last line hlast]⟩
    rw [hnone] at hmem
    cases hmem

/-- The next line that is written behind the body is the first one that is indented no more. -/
theorem head?_written_takeRaw (indent : Nat) (lines : List Line) :
    (written (takeRaw indent lines).lines).head? =
      lines.find? fun line => !line.isBlank && line.indent ≤ indent := by
  have hpast : (fun line : Line => !line.isBlank && decide (line.indent ≤ indent)) =
      fun line => !line.isChild indent := by
    funext line
    rw [Line.isChild, Bool.not_or, ← decide_not]
    simp only [Nat.not_lt]
  rw [(takeRaw_lines indent lines).2, skipChildren_eq, hpast, List.find?_not_eq_head?_dropWhile]
  have hhead := List.head?_dropWhile_not (Line.isChild indent) lines
  cases hskip : lines.dropWhile (Line.isChild indent) with
  | nil => rfl
  | cons line rest =>
    rw [hskip] at hhead
    have hwritten : line.isBlank = false := (Bool.or_eq_false_iff.mp hhead).1
    rw [written_cons_of_written hwritten]
    rfl

/-! ## Their text -/

/-- A line of raw text: nothing for a blank line, and otherwise the content, after spaces for as
much of the indentation as goes beyond the common one. -/
inductive Line.Dedented (common : Nat) (line : Line) : List Char → Prop
  | blank (h : line.isBlank = true) : line.Dedented common []
  | written (h : line.isBlank = false) (extra : Nat) (hwidth : line.indent = common + extra) :
    line.Dedented common (List.replicate extra ' ' ++ line.text)

/-- The text of a body, cut into lines: no written line is indented less than the common width, and
one that is indented as much starts with its content. -/
structure RawText (body : List Line) (common : Nat) (parts : List (List Char)) : Prop where
  least : ∀ line ∈ written body, common ≤ line.indent
  dedented : List.Forall₂ (Line.Dedented common) body parts
  flush : ∃ line ∈ written body, line.indent = common ∧ (line, line.text) ∈ body.zip parts

theorem rawLine_dedented (h : line.isBlank = false → common ≤ line.indent) :
    line.Dedented common (rawLine common line).toList := by
  cases hblank : line.isBlank with
  | true =>
    have hempty : (rawLine common line).toList = [] := by simp [rawLine, hblank]
    rw [hempty]
    exact .blank hblank
  | false =>
    have hle := h hblank
    rw [rawLine_of_written hblank]
    exact .written hblank _ (by omega)

theorem feed_notMem_rawLine (h : '\n' ∉ line.text) (common : Nat) :
    '\n' ∉ (rawLine common line).toList := by
  unfold rawLine
  split
  · simp
  · simp [h]

theorem commonIndent?_least (h : commonIndent? body = some common) :
    (∃ line ∈ written body, line.indent = common) ∧ ∀ line ∈ written body, common ≤ line.indent := by
  obtain ⟨hmem, hleast⟩ := List.min?_eq_some_iff.mp h
  exact ⟨List.mem_map.mp hmem, fun line hline => hleast _ (List.mem_map_of_mem hline)⟩

theorem rawText_joinWith (hfeed : ∀ line ∈ body, '\n' ∉ line.text)
    (hcommon : commonIndent? body = some common) :
    RawText body common (splitAtChar '\n' (joinWith "\n" (body.map (rawLine common))).toList) := by
  obtain ⟨⟨line, hline, hwidth⟩, hleast⟩ := commonIndent?_least hcommon
  obtain ⟨hmem, hwritten⟩ := mem_written.mp hline
  have hsplit : splitAtChar '\n' (joinWith "\n" (body.map (rawLine common))).toList =
      body.map fun line => (rawLine common line).toList := by
    refine (splitAtChar_joinWith ?_ ?_).trans (List.map_map ..)
    · exact List.ne_nil_of_mem (List.mem_map_of_mem hmem)
    · exact List.forall_mem_map.mpr fun line hline => feed_notMem_rawLine (hfeed line hline) common
  rw [hsplit]
  refine ⟨hleast, ?_, line, hline, hwidth, ?_⟩
  · refine List.forall₂_map_right_iff.mpr (List.forall₂_same.mpr fun other hother => ?_)
    exact rawLine_dedented fun h => hleast other (mem_written.mpr ⟨hother, h⟩)
  · have htext : (rawLine common line).toList = line.text := by
      rw [rawLine_of_written hwritten, hwidth, Nat.sub_self]
      rfl
    rw [← List.map_prod_left_eq_zip]
    exact List.mem_map.mpr ⟨line, hmem, by rw [htext]⟩

/-- **Raw text is the body under an indentation, less what all its written lines are indented by.**
Of the lines of a source from any one on, the body is the longest run that is blank or indented more,
up to its last written line. Its text has a line for each of its lines. Reading goes on right behind the
body, so the next written line is the first one that is indented no more; where the run has no written
line nothing is taken. -/
theorem takeRaw_dedents (source : List Char) (position indent : Nat) :
    let lines := (Line.ofSource source).drop position
    let taken := takeRaw indent lines
    List.Forall₂ Line.Physical lines ((splitAtChar '\n' source).drop position) ∧
    ∃ run body, RunUnder indent lines run ∧ WrittenEnd run body ∧
      taken.lines = (Line.ofSource source).drop (position + body.length) ∧
      (written taken.lines).head? = (lines.find? fun line => !line.isBlank && line.indent ≤ indent) ∧
      (written run = [] → taken = ⟨none, [], lines⟩) ∧
      (written run ≠ [] → ∃ raw first common, taken.value = some (raw, first.start) ∧
        body.head? = some first ∧ RawText body common (splitAtChar '\n' raw.toList)) := by
  intro lines taken
  have hend : WrittenEnd _ (rawLines indent lines) := writtenEnd_rawLines indent lines
  refine ⟨List.forall₂_drop position (ofSource_physical source), _, rawLines indent lines,
    runUnder_takeWhile indent lines, hend, List.drop_drop, head?_written_takeRaw indent lines, ?_, ?_⟩
  · intro hnone
    show takeRaw indent lines = _
    rw [takeRaw, hend.eq_nil hnone]
    rfl
  · intro hsome
    rw [← hend.written_eq] at hsome
    obtain ⟨first, common, hfirst, hcommon, hvalue⟩ := takeRaw_value_of_written hsome
    have hfeed : ∀ line ∈ rawLines indent lines, '\n' ∉ line.text := fun line hline =>
      Line.feed_notMem (List.mem_of_mem_drop ((rawLines_isPrefix indent lines).subset hline))
    exact ⟨_, first, common, hvalue, hfirst, rawText_joinWith hfeed hcommon⟩

/-- The tab counts as much as a space, and the blank lines at the end stay behind. -/
example :
    let source := "pre.\n\n    deep\n\t\tflat\n\n   \tmid \n  \n\np"
    let taken := takeRaw 0 ((Line.ofSource source.toList).drop 1)
    taken.value = some ("\n  deep\nflat\n\n  mid ", 5) ∧ taken.lines.map Line.number = [7, 8, 9] := by
  decide +kernel

end PugComponents.Template

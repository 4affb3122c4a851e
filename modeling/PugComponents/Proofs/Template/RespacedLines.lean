import Mathlib.Data.List.Forall2
import PugComponents.Proofs.Template.RespacedTags
import PugComponents.Proofs.Text.Positions

/- Lines of a respaced source. Each line of a source has its line in the respaced
   source, with the same text, indented further by the width of the respacing
   (`ofSource_respaced`). A place in a line is further right by the width, too
   (`column_whole`). -/
namespace PugComponents.Text

/-! ## Columns -/

/-- The column behind a character. -/
def nextColumn (column : Nat) (c : Char) : Nat := if c == '\n' then 1 else column + 1

theorem foldl_past_column (p : Position) (cs : List Char) :
    (cs.foldl Position.past p).column = cs.foldl nextColumn p.column := by
  induction cs generalizing p with
  | nil => rfl
  | cons c cs ih =>
    rw [List.foldl_cons, List.foldl_cons, ih, Position.past, nextColumn]
    split <;> rfl

theorem columnAt_eq_foldl (before rest : List Char) :
    columnAt (before ++ rest) (byteLength before) = before.foldl nextColumn 1 := by
  rw [columnAt_byteLength, foldl_past_column]
  rfl

namespace Respacing

variable {r : Respacing}

/-- The respaced source: its first line gets the spaces too. -/
def whole (r : Respacing) (source : List Char) : List Char :=
  List.replicate r.width ' ' ++ r.text source

def wholeString (r : Respacing) (source : String) : String := String.ofList (r.whole source.toList)

theorem foldl_nextColumn_spaces (column width : Nat) :
    (List.replicate width ' ').foldl nextColumn column = column + width := by
  induction width generalizing column with
  | zero => rfl
  | succ width ih =>
    rw [List.replicate_succ, List.foldl_cons, ih, Nat.add_comm width, ← Nat.add_assoc]
    rfl

/-- All columns grow by the width. -/
theorem foldl_nextColumn_text (column : Nat) (cs : List Char) :
    (r.text cs).foldl nextColumn (column + r.width) = cs.foldl nextColumn column + r.width := by
  induction cs generalizing column with
  | nil => rfl
  | cons c cs ih =>
    by_cases hc : c = '\n'
    · subst hc
      have hfeed : r.feed.foldl nextColumn (column + r.width) = 1 + r.width := by
        rw [feed, List.foldl_append, List.foldl_cons, foldl_nextColumn_spaces]
        rfl
      rw [text_cons_feed, List.foldl_append, hfeed, ih]
      rfl
    · have hnext : ∀ column, nextColumn column c = column + 1 := fun column => by simp [nextColumn, hc]
      rw [text_cons hc, List.foldl_cons, List.foldl_cons, hnext, hnext, Nat.add_right_comm, ih]

theorem column_whole (before rest : List Char) {before' : List Char}
    (h : r.whole (before ++ rest) = before' ++ r.text rest) :
    columnAt (r.whole (before ++ rest)) (byteLength before') =
      columnAt (before ++ rest) (byteLength before) + r.width := by
  have hbefore : List.replicate r.width ' ' ++ r.text before = before' := by
    rw [whole, text_append, ← List.append_assoc] at h
    exact List.append_cancel_right h
  rw [h, columnAt_eq_foldl, columnAt_eq_foldl, ← hbefore, List.foldl_append, foldl_nextColumn_spaces,
    foldl_nextColumn_text]

end Respacing

end PugComponents.Text

namespace PugComponents.Template

open Text

variable {r : Respacing}

/-! ## Lines -/

/-- The second line is the first one in the respaced source. -/
structure Line.Respaced (r : Respacing) (line line' : Line) : Prop where
  indent : line'.indent = line.indent + r.width
  text : line'.text = line.text
  place : line.front.Respaced r line'.front

theorem lineContent_cons {c : Char} (hfeed : c ≠ '\n') (hreturn : c ≠ '\r') (cs : List Char) :
    lineContent (c :: cs) = c :: lineContent cs := by
  rw [lineContent, List.takeWhile_cons_of_pos (by simpa using hfeed), lineContent]
  generalize cs.takeWhile (· != '\n') = line
  cases line with
  | nil => simp [dropReturn, hreturn]
  | cons d line => simp [dropReturn, List.getLast?_cons_cons, apply_ite (c :: ·)]

theorem lineContent_spaces (width : Nat) (cs : List Char) :
    lineContent (List.replicate width ' ' ++ cs) = List.replicate width ' ' ++ lineContent cs := by
  induction width with
  | zero => rfl
  | succ width ih =>
    rw [List.replicate_succ, List.cons_append, lineContent_cons (by decide) (by decide), ih]
    rfl

theorem atFront_respaced {text : List Char} (h : r.Fits text) (number offset number' offset' : Nat) :
    (Line.atFront number offset text).Respaced r
      (Line.atFront number' offset' (List.replicate r.width ' ' ++ r.text text)) := by
  have hcontent : lineContent (List.replicate r.width ' ' ++ r.text text) =
      List.replicate r.width ' ' ++ lineContent text := by
    rw [lineContent_spaces, lineContent_text h]
  have hspaces : ∀ c ∈ List.replicate r.width ' ', isIndentation c = true := by
    intro c hc
    rw [List.eq_of_mem_replicate hc]
    rfl
  have hindent : (List.replicate r.width ' ' ++ lineContent text).takeWhile isIndentation =
      List.replicate r.width ' ' ++ (lineContent text).takeWhile isIndentation :=
    List.takeWhile_append_of_pos hspaces
  have hdrop : ∀ cs : List Char, (List.replicate r.width ' ' ++ cs).drop
      (r.width + ((lineContent text).takeWhile isIndentation).length) =
        cs.drop ((lineContent text).takeWhile isIndentation).length := by
    intro cs
    rw [← List.drop_drop, List.drop_left' List.length_replicate]
  refine ⟨?_, ?_, ?_, ?_⟩
  · simp only [Line.atFront, hcontent, hindent, List.length_append, List.length_replicate]
    exact Nat.add_comm _ _
  · simp only [Line.atFront, hcontent, hindent, List.length_append, List.length_replicate, hdrop]
  · have honward := Respacing.drop_text (r := r) (indentation_isPrefix text)
    rw [Respacing.text_of_line (feed_notMem_indentation text)] at honward
    simp only [Line.atFront, hcontent, hindent, List.length_append, List.length_replicate, hdrop]
    exact honward
  · exact h.suffix (List.drop_suffix _ _)

theorem afterFeeds_respaced {text : List Char} (h : r.Fits text) (number offset number' offset' : Nat) :
    List.Forall₂ (Line.Respaced r) (Line.afterFeeds number offset text)
      (Line.afterFeeds number' offset' (r.text text)) := by
  induction text generalizing number offset number' offset' with
  | nil => exact .nil
  | cons c cs ih =>
    have hcs : r.Fits cs := h.suffix (List.suffix_cons _ _)
    by_cases hc : c = '\n'
    · subst hc
      have hreturn : '\n' ∉ if r.returns then ['\r'] else [] := by
        split <;> decide
      have hspaces : '\n' ∉ List.replicate r.width ' ' := fun hmem => by
        cases List.eq_of_mem_replicate hmem
      have hsplit : r.text ('\n' :: cs) = (if r.returns then ['\r'] else []) ++
          '\n' :: (List.replicate r.width ' ' ++ r.text cs) := by
        rw [Respacing.text_cons_feed, Respacing.feed, List.append_assoc, List.cons_append]
      rw [hsplit, Line.afterFeeds_skip _ _ hreturn, Line.afterFeeds, Line.afterFeeds]
      refine .cons (atFront_respaced hcs _ _ _ _) ?_
      rw [Line.afterFeeds_skip _ _ hspaces]
      exact ih hcs _ _ _ _
    · have hplain : ¬ (c == '\n') = true := by simpa using hc
      rw [Respacing.text_cons hc, Line.afterFeeds, Line.afterFeeds, if_neg hplain, if_neg hplain]
      exact ih hcs _ _ _ _

/-- Each line of a source has its line in the respaced source. -/
theorem ofSource_respaced {source : List Char} (h : r.Fits source) :
    List.Forall₂ (Line.Respaced r) (Line.ofSource source) (Line.ofSource (r.whole source)) := by
  have hspaces : '\n' ∉ List.replicate r.width ' ' := fun hmem => by
    cases List.eq_of_mem_replicate hmem
  refine .cons (atFront_respaced h _ _ _ _) ?_
  rw [Respacing.whole, Line.afterFeeds_skip _ _ hspaces]
  exact afterFeeds_respaced h _ _ _ _

/-- The lines after a place are the same lines in the respaced source. -/
theorem Place.Respaced.lines {p p' : Place} (h : p.Respaced r p') {lines lines' : List Line}
    (hlines : p.LinesAfter lines) (hlines' : p'.LinesAfter lines') :
    List.Forall₂ (Line.Respaced r) lines lines' := by
  obtain ⟨count, rfl⟩ := hlines
  obtain ⟨count', rfl⟩ := hlines'
  rw [h.text]
  exact afterFeeds_respaced h.fits _ _ _ _

end PugComponents.Template

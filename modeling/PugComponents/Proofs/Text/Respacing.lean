import PugComponents.Proofs.Text.Groups
import PugComponents.Text.WhiteSpace

/- Texts with other white space at their line ends. A respacing writes spaces
   after every line feed, and perhaps a carriage return before it. What is read from
   a text without regard to its lines is read from the respaced text as well,
   respaced: runs of characters of a class that does not tell the white space at a
   line end apart (`takeWhile_text`), what is left after trimming (`trim_text`), and
   what brackets enclose (`group?_text`). -/
namespace PugComponents.Text

/-- How the ends of lines are written. -/
structure Respacing where
  /-- A carriage return stands before each line feed. -/
  returns : Bool
  /-- The number of spaces after each line feed. -/
  width : Nat

variable {c : Char}

namespace Respacing

/-- What a line feed is written as. -/
def feed (r : Respacing) : List Char :=
  (if r.returns then ['\r'] else []) ++ '\n' :: List.replicate r.width ' '

/-- What a character is written as. -/
def char (r : Respacing) (c : Char) : List Char := if c == '\n' then r.feed else [c]

/-- The respaced text. -/
def text (r : Respacing) (cs : List Char) : List Char := cs.flatMap r.char

/-- The respaced string. -/
def string (r : Respacing) (s : String) : String := String.ofList (r.text s.toList)

variable {r : Respacing}

@[simp]
theorem text_nil : r.text [] = [] := rfl

@[simp]
theorem text_append (a b : List Char) : r.text (a ++ b) = r.text a ++ r.text b :=
  List.flatMap_append

theorem text_cons_feed (cs : List Char) : r.text ('\n' :: cs) = r.feed ++ r.text cs := rfl

theorem text_cons (h : c ≠ '\n') (cs : List Char) : r.text (c :: cs) = c :: r.text cs := by
  simp [text, char, h]

variable {cs : List Char}

/-- A text of one line is written as it is. -/
theorem text_of_line (h : '\n' ∉ cs) : r.text cs = cs := by
  induction cs with
  | nil => rfl
  | cons c cs ih =>
    obtain ⟨hc, hcs⟩ := not_or.mp (mt List.mem_cons.mpr h)
    rw [text_cons (Ne.symm hc), ih hcs]

theorem string_of_line {s : String} (h : '\n' ∉ s.toList) : r.string s = s := by
  rw [string, text_of_line h, String.ofList_toList]

theorem mem_feed (h : c ∈ r.feed) : c = '\r' ∨ c = '\n' ∨ c = ' ' := by
  rcases List.mem_append.mp h with h | h
  · split at h
    · exact .inl (List.mem_singleton.mp h)
    · cases h
  · rcases List.mem_cons.mp h with h | h
    · exact .inr (.inl h)
    · exact .inr (.inr (List.eq_of_mem_replicate h))

theorem feed_ne_nil : r.feed ≠ [] := by
  simp [feed]

@[simp]
theorem text_eq_nil : r.text cs = [] ↔ cs = [] := by
  refine ⟨fun h => ?_, fun h => by rw [h]; rfl⟩
  cases cs with
  | nil => rfl
  | cons c cs =>
    by_cases hc : c = '\n'
    · subst hc
      exact absurd (List.append_eq_nil_iff.mp h).1 feed_ne_nil
    · rw [text_cons hc] at h
      cases h

/-- What stands behind a part of the text stands respaced behind the respaced part. -/
theorem drop_text {front : List Char} (h : front <+: cs) :
    (r.text cs).drop (r.text front).length = r.text (cs.drop front.length) := by
  obtain ⟨rest, rfl⟩ := h
  rw [text_append, List.drop_left, List.drop_left]

/-- A character that is no white space stands at the front of a respaced text only if it stood at
the front of the text. -/
theorem text_eq_cons {rest : List Char} (hc : isWhiteSpace c = false) (h : r.text cs = c :: rest) :
    ∃ t, cs = c :: t ∧ rest = r.text t := by
  cases cs with
  | nil => cases h
  | cons d cs =>
    by_cases hd : d = '\n'
    · subst hd
      rw [text_cons_feed] at h
      have hmem : c ∈ r.feed := by
        cases hfeed : r.feed with
        | nil => exact absurd hfeed feed_ne_nil
        | cons e blank =>
          rw [hfeed, List.cons_append] at h
          rw [(List.cons.inj h).1]
          exact List.mem_cons_self
      rcases mem_feed hmem with rfl | rfl | rfl <;> cases hc
    · rw [text_cons hd] at h
      obtain ⟨rfl, rfl⟩ := List.cons.inj h
      exact ⟨cs, rfl, rfl⟩

theorem ne_feed_of_not_isWhiteSpace (hc : isWhiteSpace c = false) : c ≠ '\n' := by
  rintro rfl
  cases hc

/-- Respacing touches white space only. -/
theorem mem_text (hc : isWhiteSpace c = false) : c ∈ r.text cs ↔ c ∈ cs := by
  rw [text, List.mem_flatMap]
  constructor
  · rintro ⟨d, hd, hmem⟩
    by_cases hfeed : d = '\n'
    · subst hfeed
      rcases mem_feed hmem with rfl | rfl | rfl <;> cases hc
    · obtain rfl : c = d := by simpa [char, hfeed] using hmem
      exact hd
  · intro h
    exact ⟨c, h, by simp [char, ne_feed_of_not_isWhiteSpace hc]⟩

/-- Where line ends get a carriage return, the text holds none of its own. -/
def Fits (r : Respacing) (cs : List Char) : Prop := r.returns = true → '\r' ∉ cs

theorem Fits.suffix {rest : List Char} (h : r.Fits cs) (hrest : rest <:+ cs) : r.Fits rest :=
  fun hr hmem => h hr (hrest.subset hmem)

/-! ## Classes of characters -/

/-- The class does not tell the white space at the end of a line from a line feed. -/
def Keeps (r : Respacing) (f : Char → Bool) : Prop := ∀ c ∈ r.feed, f c = f '\n'

theorem keeps_of {f : Char → Bool} (hreturn : f '\r' = f '\n') (hspace : f ' ' = f '\n') : r.Keeps f := by
  intro c hc
  rcases mem_feed hc with rfl | rfl | rfl
  · exact hreturn
  · rfl
  · exact hspace

theorem keeps_isWhiteSpace : r.Keeps isWhiteSpace := keeps_of rfl rfl

/-- Being another character than one that is no white space. -/
theorem keeps_ne (hc : isWhiteSpace c = false) : r.Keeps (· != c) := by
  have hne : ∀ d, isWhiteSpace d = true → (d != c) = true := by
    intro d hd
    rw [bne_iff_ne]
    rintro rfl
    rw [hd] at hc
    cases hc
  apply keeps_of
  · rw [hne '\r' rfl, hne '\n' rfl]
  · rw [hne ' ' rfl, hne '\n' rfl]

theorem takeWhile_text {f : Char → Bool} (hf : r.Keeps f) (cs : List Char) :
    (r.text cs).takeWhile f = r.text (cs.takeWhile f) := by
  induction cs with
  | nil => rfl
  | cons c cs ih =>
    by_cases hc : c = '\n'
    · subst hc
      rw [text_cons_feed]
      cases hfeed : f '\n' with
      | true =>
        rw [List.takeWhile_append_of_pos fun c hc => (hf c hc).trans hfeed, ih, List.takeWhile_cons,
          hfeed]
        rfl
      | false =>
        rw [List.takeWhile_cons, hfeed]
        cases hlist : r.feed with
        | nil => exact absurd hlist feed_ne_nil
        | cons d ds =>
          have hd : f d = false := (hf d (hlist ▸ List.mem_cons_self)).trans hfeed
          simp [hd]
    · rw [text_cons hc, List.takeWhile_cons, List.takeWhile_cons, ih]
      split
      · rw [text_cons hc]
      · rfl

theorem dropWhile_text {f : Char → Bool} (hf : r.Keeps f) (cs : List Char) :
    (r.text cs).dropWhile f = r.text (cs.dropWhile f) := by
  have hsplit : r.text cs = r.text (cs.takeWhile f) ++ r.text (cs.dropWhile f) := by
    rw [← text_append, List.takeWhile_append_dropWhile]
  have hsplit' : r.text (cs.takeWhile f) ++ (r.text cs).dropWhile f = r.text cs := by
    rw [← takeWhile_text hf, List.takeWhile_append_dropWhile]
  exact List.append_cancel_left (hsplit'.trans hsplit)

theorem all_text {f : Char → Bool} (hf : r.Keeps f) (cs : List Char) : (r.text cs).all f = cs.all f := by
  induction cs with
  | nil => rfl
  | cons c cs ih =>
    by_cases hc : c = '\n'
    · subst hc
      have hall : r.feed.all f = f '\n' := by
        cases hfeed : f '\n' with
        | true => exact List.all_eq_true.mpr fun c hc => (hf c hc).trans hfeed
        | false =>
          have hmem : '\n' ∈ r.feed := List.mem_append_right _ List.mem_cons_self
          exact Bool.eq_false_iff.mpr fun h => by
            rw [List.all_eq_true.mp h _ hmem] at hfeed
            cases hfeed
      rw [text_cons_feed, List.all_append, hall, ih, List.all_cons]
    · rw [text_cons hc, List.all_cons, List.all_cons, ih]

/-! ## Trimming -/

theorem trimStart_text (cs : List Char) : trimStart (r.text cs) = r.text (trimStart cs) :=
  dropWhile_text keeps_isWhiteSpace cs

/-- Trimming the end leaves what stands before the white space at the end. -/
theorem trimEnd_append_blank (cs : List Char) {blank : List Char} (h : isBlank blank = true) :
    trimEnd (cs ++ blank) = trimEnd cs := by
  have hblank : ∀ c ∈ blank.reverse, isWhiteSpace c = true :=
    fun c hc => List.all_eq_true.mp h c (List.mem_reverse.mp hc)
  rw [trimEnd, List.reverse_append, List.dropWhile_append_of_pos hblank, trimEnd]

theorem trimEnd_concat (cs : List Char) (h : isWhiteSpace c = false) :
    trimEnd (cs ++ [c]) = cs ++ [c] := by
  simp [trimEnd, h]

theorem trimEnd_text (cs : List Char) : trimEnd (r.text cs) = r.text (trimEnd cs) := by
  obtain ⟨rev, rfl⟩ : ∃ rev : List Char, cs = rev.reverse := ⟨cs.reverse, cs.reverse_reverse.symm⟩
  -- By induction from the end: the last character is white space, or it stays with all before it.
  induction rev with
  | nil => rfl
  | cons c rev ih =>
    rw [List.reverse_cons]
    cases hc : isWhiteSpace c with
    | true =>
      have hblank : isBlank [c] = true := by simp [isBlank, hc]
      have hblank' : isBlank (r.text [c]) = true := (all_text keeps_isWhiteSpace [c]).trans hblank
      rw [text_append, trimEnd_append_blank _ hblank', ih, trimEnd_append_blank _ hblank]
    | false =>
      have hchar : r.text [c] = [c] := text_cons (ne_feed_of_not_isWhiteSpace hc) []
      rw [trimEnd_concat _ hc, text_append, hchar, trimEnd_concat _ hc]

theorem trim_text (cs : List Char) : trim (r.text cs) = r.text (trim cs) := by
  rw [trim, trimStart_text, trimEnd_text, trim]

end Respacing

/-! ## Brackets and literals -/

/-- A literal is ended by one of the three quotes. -/
def Quoting.Proper : Quoting → Prop
  | .outside => True
  | .inside quote | .escaped quote => isQuote quote = true

theorem quote_cases (h : isQuote c = true) : c = '\'' ∨ c = '"' ∨ c = '\x60' := by
  simpa [isQuote, or_assoc] using h

theorem Quoting.Proper.next {quoting : Quoting} (h : quoting.Proper) (c : Char) :
    (quoting.next c).Proper := by
  cases quoting with
  | outside =>
    show Quoting.Proper (if isQuote c then .inside c else .outside)
    split
    · assumption
    · trivial
  | inside quote =>
    show Quoting.Proper
      (if c == '\\' then .escaped quote else if c == quote then .outside else .inside quote)
    split
    · exact h
    · split
      · trivial
      · exact h
  | escaped quote => exact h

namespace Respacing

variable {r : Respacing} {quoting : Quoting}

theorem feed_mem_feed : '\n' ∈ r.feed := List.mem_append_right _ List.mem_cons_self

/-- White space at a line end leads to where a line feed leads to. -/
theorem next_of_mem_feed (hq : quoting.Proper) (hc : c ∈ r.feed) :
    quoting.next c = quoting.next '\n' := by
  cases quoting with
  | outside => rcases mem_feed hc with rfl | rfl | rfl <;> rfl
  | inside quote =>
    -- Neither a backslash nor a quote.
    rcases quote_cases hq with rfl | rfl | rfl <;> rcases mem_feed hc with rfl | rfl | rfl <;> rfl
  | escaped quote => rfl

/-- A second line feed changes nothing. -/
theorem next_next_feed (hq : quoting.Proper) : (quoting.next '\n').next '\n' = quoting.next '\n' := by
  cases quoting with
  | outside => rfl
  | inside quote | escaped quote => rcases quote_cases hq with rfl | rfl | rfl <;> rfl

theorem isCode_of_mem_feed (hc : c ∈ r.feed) : quoting.isCode c = quoting.isCode '\n' := by
  rcases mem_feed hc with rfl | rfl | rfl <;> rfl

theorem isCode_feed (quoting : Quoting) : quoting.isCode '\n' = (quoting == .outside) := by
  simp [Quoting.isCode, isQuote]

theorem isCode_next_feed (hq : quoting.Proper) :
    (quoting.next '\n').isCode '\n' = quoting.isCode '\n' := by
  rw [isCode_feed, isCode_feed]
  cases quoting with
  | outside => rfl
  | inside quote | escaped quote => rcases quote_cases hq with rfl | rfl | rfl <;> rfl

theorem closerOf?_of_mem_feed (hc : c ∈ r.feed) : closerOf? c = none := by
  rcases mem_feed hc with rfl | rfl | rfl <;> rfl

theorem isCloser_of_mem_feed (hc : c ∈ r.feed) : isCloser c = false := by
  rcases mem_feed hc with rfl | rfl | rfl <;> rfl

/-- Puts a text in front of the first part. -/
def addFront (front : List Char) (parts : List Char × List Char) : List Char × List Char :=
  (front ++ parts.1, parts.2)

/-- Both parts of a text, respaced. -/
def both (r : Respacing) (parts : List Char × List Char) : List Char × List Char :=
  (r.text parts.1, r.text parts.2)

theorem both_consFirst (hc : c ≠ '\n') (parts : List Char × List Char) :
    r.both (consFirst c parts) = consFirst c (r.both parts) := by
  rw [both, consFirst, text_cons hc]
  rfl

/-- What the scan of a group does at its next character. -/
theorem scanGroup_cons (pending : List Char) (quoting : Quoting) (c : Char) (cs : List Char) :
    scanGroup pending quoting (c :: cs) =
      if quoting.isCode c then
        match closerOf? c with
        | some closer => (scanGroup (closer :: pending) .outside cs).map (consFirst c)
        | none =>
          if isCloser c then
            match pending with
            | [] => none
            | [awaited] => if awaited == c then some ([], cs) else none
            | awaited :: outer =>
              if awaited == c then (scanGroup outer .outside cs).map (consFirst c) else none
          else (scanGroup pending .outside cs).map (consFirst c)
      else (scanGroup pending (quoting.next c) cs).map (consFirst c) :=
  scanGroup.eq_def pending quoting (c :: cs)

theorem scanGroup_of_mem_feed (hq : quoting.Proper) (pending : List Char) (hc : c ∈ r.feed)
    (cs : List Char) :
    scanGroup pending quoting (c :: cs) =
      (scanGroup pending (quoting.next '\n') cs).map (consFirst c) := by
  rw [scanGroup_cons, isCode_of_mem_feed hc, next_of_mem_feed hq hc, closerOf?_of_mem_feed hc,
    isCloser_of_mem_feed hc, isCode_feed]
  split
  · rename_i houtside
    obtain rfl : quoting = .outside := by simpa using houtside
    rfl
  · rfl

/-- White space at a line end is passed like a line feed. -/
theorem scanGroup_append_feed (hq : quoting.Proper) (pending cs : List Char) :
    scanGroup pending quoting (r.feed ++ cs) =
      (scanGroup pending (quoting.next '\n') cs).map (addFront r.feed) := by
  -- Behind its first character the white space no longer changes how literals are quoted.
  have hrest : ∀ blank : List Char, (∀ c ∈ blank, c ∈ r.feed) →
      scanGroup pending (quoting.next '\n') (blank ++ cs) =
        (scanGroup pending (quoting.next '\n') cs).map (addFront blank) := by
    intro blank hblank
    induction blank with
    | nil => exact (Option.map_id_apply).symm
    | cons c blank ih =>
      obtain ⟨hc, hblank⟩ := List.forall_mem_cons.mp hblank
      rw [List.cons_append, scanGroup_of_mem_feed (hq.next _) pending hc, next_next_feed hq, ih hblank,
        Option.map_map]
      rfl
  cases hfeed : r.feed with
  | nil => exact absurd hfeed feed_ne_nil
  | cons c blank =>
    have hc : c ∈ r.feed := hfeed ▸ List.mem_cons_self
    have hblank : ∀ d ∈ blank, d ∈ r.feed := fun d hd => hfeed ▸ List.mem_cons_of_mem c hd
    rw [List.cons_append, scanGroup_of_mem_feed hq pending hc, hrest blank hblank, Option.map_map]
    rfl

/-- Brackets close alike in the respaced text. -/
theorem scanGroup_text (pending : List Char) (hq : quoting.Proper) (cs : List Char) :
    scanGroup pending quoting (r.text cs) = (scanGroup pending quoting cs).map r.both := by
  induction cs generalizing pending quoting with
  | nil => rfl
  | cons c cs ih =>
    by_cases hc : c = '\n'
    · subst hc
      rw [text_cons_feed, scanGroup_append_feed hq, ih _ (hq.next _),
        scanGroup_of_mem_feed hq pending (feed_mem_feed (r := r)), Option.map_map, Option.map_map]
      rfl
    · have hstep : ∀ found : Option (List Char × List Char),
          (found.map r.both).map (consFirst c) = (found.map (consFirst c)).map r.both := by
        intro found
        rw [Option.map_map, Option.map_map]
        exact congrArg (found.map ·) (funext fun parts => (both_consFirst hc parts).symm)
      have houtside : ∀ pending, scanGroup pending .outside (r.text cs) =
          (scanGroup pending .outside cs).map r.both := fun pending => ih pending trivial
      rw [text_cons hc, scanGroup_cons, scanGroup_cons]
      split
      · cases closerOf? c with
        | some closer => simp only [houtside, hstep]
        | none =>
          simp only
          split
          · cases pending with
            | nil => rfl
            | cons awaited outer =>
              cases outer with
              | nil =>
                simp only
                split <;> rfl
              | cons next outer =>
                simp only [houtside, hstep]
                split <;> rfl
          · rw [houtside, hstep]
      · rw [ih _ (hq.next c), hstep]

/-- A group encloses the respaced text of what it encloses. -/
theorem group?_text (cs : List Char) : group? (r.text cs) = (group? cs).map r.both := by
  cases cs with
  | nil => rfl
  | cons c cs =>
    by_cases hc : c = '\n'
    · subst hc
      rw [text_cons_feed]
      cases hfeed : r.feed with
      | nil => exact absurd hfeed feed_ne_nil
      | cons d blank =>
        have hd : closerOf? d = none := closerOf?_of_mem_feed (r := r) (hfeed ▸ List.mem_cons_self)
        rw [List.cons_append, group?, hd]
        rfl
    · rw [text_cons hc, group?, group?]
      cases closerOf? c with
      | none => rfl
      | some closer =>
        have houtside : Quoting.outside.Proper := trivial
        exact scanGroup_text _ houtside cs

end Respacing

end PugComponents.Text

import PugComponents.Template.Document

/- Blocks without a step count. Every line that is read is used up, so as many
   steps as lines are always enough: reading a block, or the branches of a
   `case`, with any larger number of steps gives the same (`readEntries_fuel`,
   `readBranches_fuel`). The functions below read with just enough steps, and
   their equations (`entriesUnder_eq`, `branchesUnder_eq`) no longer mention
   them. -/
namespace PugComponents.Template

/-! ## What is left of the lines -/

/-- The reader gives back lines from the end of those it is given. -/
def HeadReader.Consumes (head : HeadReader) : Prop :=
  ∀ line lines, (head line lines).lines <:+ lines

/-- The reader gives back lines from the end of those it is given. -/
def BlockReader.Consumes (block : BlockReader) : Prop :=
  ∀ indent lines, (block indent lines).lines <:+ lines

theorem skipBlank_suffix (lines : List Line) : skipBlank lines <:+ lines :=
  List.dropWhile_suffix _

theorem skipChildren_suffix (indent : Nat) (lines : List Line) : skipChildren indent lines <:+ lines :=
  List.dropWhile_suffix _

variable {parent : Option Nat} {lines after : List Line} {line : Line}

theorem nested?_eq_some (h : nested? parent lines = some (line, after)) :
    skipBlank lines = line :: after ∧ line.isUnder parent = true := by
  unfold nested? at h
  split at h
  · cases h
  · rename_i first rest hskip
    split at h
    · rename_i hunder
      cases h
      exact ⟨hskip, hunder⟩
    · cases h

theorem nested?_suffix (h : nested? parent lines = some (line, after)) :
    line :: after <:+ lines := by
  rw [← (nested?_eq_some h).1]
  exact skipBlank_suffix lines

theorem nested?_length (h : nested? parent lines = some (line, after)) :
    after.length < lines.length := by
  have := (nested?_suffix h).length_le
  rw [List.length_cons] at this
  omega

/-- The lines that are not blank. -/
def written (lines : List Line) : List Line := lines.filter (!Line.isBlank ·)

theorem skipBlank_cons_of_blank (h : line.isBlank = true) (lines : List Line) :
    skipBlank (line :: lines) = skipBlank lines :=
  List.dropWhile_cons_of_pos h

theorem skipBlank_cons_of_written (h : line.isBlank = false) (lines : List Line) :
    skipBlank (line :: lines) = line :: lines :=
  List.dropWhile_cons_of_neg (by simp [h])

theorem written_cons_of_blank (h : line.isBlank = true) (lines : List Line) :
    written (line :: lines) = written lines :=
  List.filter_cons_of_neg (by simp [h])

theorem written_cons_of_written (h : line.isBlank = false) (lines : List Line) :
    written (line :: lines) = line :: written lines :=
  List.filter_cons_of_pos (by simp [h])

theorem written_skipBlank (lines : List Line) : written (skipBlank lines) = written lines := by
  induction lines with
  | nil => rfl
  | cons line lines ih =>
    cases h : line.isBlank with
    | true => rw [skipBlank_cons_of_blank h, written_cons_of_blank h, ih]
    | false => rw [skipBlank_cons_of_written h]

theorem skipBlank_eq_cons (h : skipBlank lines = line :: after) :
    line.isBlank = false ∧ written lines = line :: written after := by
  have hline : line.isBlank = false := by
    have := List.head?_dropWhile_not Line.isBlank lines
    rw [show lines.dropWhile Line.isBlank = line :: after from h] at this
    simpa using this
  rw [← written_skipBlank, h]
  exact ⟨hline, written_cons_of_written hline after⟩

theorem skipBlank_idem (lines : List Line) : skipBlank (skipBlank lines) = skipBlank lines := by
  cases h : skipBlank lines with
  | nil => rfl
  | cons line after => rw [skipBlank_cons_of_written (skipBlank_eq_cons h).1]

/-- If no line stands under the parent, the next written line does not. -/
theorem not_isUnder_of_nested? (h : nested? parent lines = none) :
    ∀ line ∈ (written lines).head?, line.isUnder parent = false := by
  intro line hline
  unfold nested? at h
  rw [← written_skipBlank] at hline
  cases hskip : skipBlank lines with
  | nil =>
    rw [hskip] at hline
    cases hline
  | cons first rest =>
    rw [written_skipBlank, (skipBlank_eq_cons hskip).2] at hline
    cases hline
    rw [hskip] at h
    simpa using h

theorem rejectChildren_suffix (indent : Nat) (kind : String) (lines : List Line) :
    (rejectChildren indent kind lines).lines <:+ lines := by
  unfold rejectChildren
  split
  · exact skipBlank_suffix lines
  · exact skipChildren_suffix indent lines

/-- Blank, or indented more than a width. -/
def Line.isChild (indent : Nat) (line : Line) : Bool := line.isBlank || indent < line.indent

theorem skipChildren_eq (indent : Nat) (lines : List Line) :
    skipChildren indent lines = lines.dropWhile (Line.isChild indent) := rfl

theorem rawLines_eq (indent : Nat) (lines : List Line) :
    rawLines indent lines =
      ((lines.takeWhile (Line.isChild indent)).reverse.dropWhile Line.isBlank).reverse := rfl

theorem rawLines_isPrefix (indent : Nat) (lines : List Line) : rawLines indent lines <+: lines := by
  have htrim : rawLines indent lines <+: lines.takeWhile (Line.isChild indent) := by
    rw [← List.reverse_suffix, rawLines_eq, List.reverse_reverse]
    exact List.dropWhile_suffix _
  exact htrim.trans (List.takeWhile_prefix _)

theorem takeRaw_suffix (indent : Nat) (lines : List Line) : (takeRaw indent lines).lines <:+ lines :=
  List.drop_suffix _ _

variable {block : BlockReader}

theorem closeBody_suffix (hb : block.Consumes) (node : Node) (body : Body) (indent : Nat)
    (lines : List Line) : (closeBody block node body indent lines).lines <:+ lines := by
  cases body with
  | nodes => exact hb indent lines
  | textBlock | raw =>
    simp only [closeBody]
    split
    · exact takeRaw_suffix indent lines
    · exact takeRaw_suffix indent lines
  | branches | leaf => exact rejectChildren_suffix indent _ lines

theorem closeWith_branches {pending : Pending} (h : pending.body = .branches)
    (branches : Nat → List Line → Reading (List Branch)) (block : BlockReader) (indent : Nat)
    (lines : List Line) :
    closeWith branches block pending indent lines =
      ⟨nestIn pending.hosts (pending.node.addBranches (branches indent lines).value),
        (branches indent lines).faults, (branches indent lines).lines⟩ := by
  rw [closeWith, h]

theorem closeWith_body {pending : Pending} (h : pending.body ≠ .branches)
    (branches : Nat → List Line → Reading (List Branch)) (block : BlockReader) (indent : Nat)
    (lines : List Line) :
    closeWith branches block pending indent lines =
      ⟨nestIn pending.hosts (closeBody block pending.node pending.body indent lines).value,
        (closeBody block pending.node pending.body indent lines).faults,
        (closeBody block pending.node pending.body indent lines).lines⟩ := by
  unfold closeWith
  split
  · exact absurd ‹_› h
  · rfl

theorem closeWith_suffix {branches : Nat → List Line → Reading (List Branch)}
    (hr : ∀ indent lines, (branches indent lines).lines <:+ lines) (hb : block.Consumes)
    (pending : Pending) (indent : Nat) (lines : List Line) :
    (closeWith branches block pending indent lines).lines <:+ lines := by
  unfold closeWith
  split
  · exact hr indent lines
  · exact closeBody_suffix hb _ _ indent lines

theorem branchBlock_suffix {close : Pending → Nat → List Line → Reading Node} {head : HeadReader}
    (hc : ∀ pending indent lines, (close pending indent lines).lines <:+ lines) (hh : head.Consumes)
    (hb : block.Consumes) (line : Line) (rest : List Char) (lines : List Line) :
    (branchBlock close head block line rest lines).lines <:+ lines := by
  unfold branchBlock
  split
  · split
    · exact skipBlank_suffix lines
    · exact hb line.indent lines
  · simp only
    split
    · exact (hc _ _ _).trans (hh _ lines)
    · exact (rejectChildren_suffix _ _ _).trans (hh _ lines)
    · exact (skipChildren_suffix _ _).trans (hh _ lines)

theorem readBranches_suffix {head : HeadReader} (hh : head.Consumes) (hb : block.Consumes)
    (n parent : Nat) (lines : List Line) :
    (readBranches head block n parent lines).lines <:+ lines := by
  induction n generalizing parent lines with
  | zero => exact List.suffix_refl lines
  | succ n ih =>
    unfold readBranches
    split
    · exact skipBlank_suffix lines
    · rename_i line after hn
      have hafter : after <:+ lines := (List.suffix_cons line after).trans (nested?_suffix hn)
      split
      · exact (ih _ _).trans ((skipChildren_suffix _ _).trans hafter)
      · exact (ih _ _).trans ((skipChildren_suffix _ _).trans hafter)
      · have hclose := closeWith_suffix (fun indent lines => ih indent lines) hb
        exact (ih _ _).trans ((branchBlock_suffix hclose hh hb _ _ _).trans hafter)

theorem closePending_suffix {head : HeadReader} (hh : head.Consumes) (hb : block.Consumes)
    (pending : Pending) (indent : Nat) (lines : List Line) :
    (closePending head block pending indent lines).lines <:+ lines :=
  closeWith_suffix (fun i l => readBranches_suffix hh hb _ i l) hb pending indent lines

theorem readEntry_suffix {head : HeadReader} (hh : head.Consumes) (hb : block.Consumes)
    (line : Line) (afterPiped : Bool) (lines : List Line) :
    (readEntry head block line afterPiped lines).lines <:+ lines := by
  unfold readEntry
  simp only
  split
  · exact (closePending_suffix hh hb _ _ _).trans (hh _ lines)
  · exact (rejectChildren_suffix _ _ _).trans (hh _ lines)
  · exact (hb _ _).trans (hh _ lines)
  · exact (skipChildren_suffix _ _).trans (hh _ lines)
  · exact (skipChildren_suffix _ _).trans (hh _ lines)

theorem readEntries_suffix {head : HeadReader} (hh : head.Consumes) (n : Nat)
    (parent expected : Option Nat) (afterPiped : Bool) (lines : List Line) :
    (readEntries head n parent expected afterPiped lines).2 <:+ lines := by
  induction n generalizing parent expected afterPiped lines with
  | zero => exact List.suffix_refl lines
  | succ n ih =>
    unfold readEntries
    split
    · exact skipBlank_suffix lines
    · rename_i line after hn
      have hafter : after <:+ lines := (List.suffix_cons line after).trans (nested?_suffix hn)
      refine (ih _ _ _ _).trans ((readEntry_suffix hh ?_ _ _ _).trans hafter)
      exact fun indent lines => ih (some indent) none false lines

/-! ## More steps change nothing -/

/-- The readers give the same for all lists of at most `k` lines. -/
def AgreeUpTo {α β : Type} (k : Nat) (f g : α → List Line → β) : Prop :=
  ∀ a lines, lines.length ≤ k → f a lines = g a lines

theorem AgreeUpTo.mono {α β : Type} {j k : Nat} {f g : α → List Line → β} (h : AgreeUpTo k f g)
    (hjk : j ≤ k) : AgreeUpTo j f g :=
  fun a lines hl => h a lines (Nat.le_trans hl hjk)

variable {head : HeadReader} {b₁ b₂ : BlockReader} {k : Nat}

theorem closeBody_congr (hb : AgreeUpTo k b₁ b₂) (node : Node) (body : Body) (indent : Nat)
    (hl : lines.length ≤ k) :
    closeBody b₁ node body indent lines = closeBody b₂ node body indent lines := by
  cases body with
  | nodes => simp only [closeBody, hb indent lines hl]
  | textBlock => rfl
  | raw => rfl
  | branches => rfl
  | leaf => rfl

theorem closeWith_congr {r₁ r₂ : Nat → List Line → Reading (List Branch)} (hr : AgreeUpTo k r₁ r₂)
    (hb : AgreeUpTo k b₁ b₂) (pending : Pending) (indent : Nat) (hl : lines.length ≤ k) :
    closeWith r₁ b₁ pending indent lines = closeWith r₂ b₂ pending indent lines := by
  unfold closeWith
  split
  · rw [hr indent lines hl]
  · rw [closeBody_congr hb _ _ _ hl]

theorem branchBlock_congr {c₁ c₂ : Pending → Nat → List Line → Reading Node}
    (hc : ∀ pending, AgreeUpTo k (c₁ pending) (c₂ pending)) (hh : head.Consumes)
    (hb : AgreeUpTo k b₁ b₂) (line : Line) (rest : List Char) (hl : lines.length ≤ k) :
    branchBlock c₁ head b₁ line rest lines = branchBlock c₂ head b₂ line rest lines := by
  unfold branchBlock
  split
  · split
    · rfl
    · rw [hb line.indent lines hl]
  · simp only
    split
    · rw [hc _ _ _ (Nat.le_trans (hh _ lines).length_le hl)]
    · rfl
    · rfl

theorem readBranches_succ (block : BlockReader) (n parent : Nat) (lines : List Line) :
    readBranches head block (n + 1) parent lines =
      match nested? (some parent) lines with
      | none => ⟨[], [], skipBlank lines⟩
      | some (line, after) =>
        match branchHead line.text with
        | .ignored => readBranches head block n parent (skipChildren line.indent after)
        | .fault cause =>
          let more := readBranches head block n parent (skipChildren line.indent after)
          ⟨more.value, ⟨cause, line.span⟩ :: more.faults, more.lines⟩
        | .branch test rest =>
          let r := branchBlock (closeWith (readBranches head block n) block) head block line rest after
          let more := readBranches head block n parent r.lines
          ⟨Branch.ofBlock test line.span r.value :: more.value, r.faults ++ more.faults,
            more.lines⟩ := rfl

/-- The branches of a `case` do not depend on the number of steps, and on the reader of blocks only
as far as it is used. -/
theorem readBranches_fuel (hh : head.Consumes) (hb₂ : b₂.Consumes) (n m parent : Nat)
    (lines : List Line) (hn : lines.length < n) (hm : lines.length < m)
    (hb : AgreeUpTo lines.length b₁ b₂) :
    readBranches head b₁ n parent lines = readBranches head b₂ m parent lines := by
  induction n generalizing m parent lines with
  | zero => omega
  | succ n ih =>
    cases m with
    | zero => omega
    | succ m =>
      rw [readBranches_succ, readBranches_succ]
      cases hnest : nested? (some parent) lines with
      | none => rfl
      | some pair =>
        obtain ⟨line, after⟩ := pair
        have hafter := nested?_length hnest
        -- Whatever is left of `after` is short enough for the induction hypothesis.
        have more : ∀ parent rest, rest <:+ after →
            readBranches head b₁ n parent rest = readBranches head b₂ m parent rest := by
          intro parent rest hrest
          have := hrest.length_le
          exact ih m parent rest (by omega) (by omega) (hb.mono (by omega))
        dsimp only
        cases hhead : branchHead line.text with
        | ignored => exact more _ _ (skipChildren_suffix _ _)
        | fault cause => simp only [more _ _ (skipChildren_suffix _ _)]
        | branch test rest =>
          have hclose : ∀ pending, AgreeUpTo after.length
              (closeWith (readBranches head b₁ n) b₁ pending)
              (closeWith (readBranches head b₂ m) b₂ pending) := by
            intro pending indent rest hrest
            refine closeWith_congr ?_ (hb.mono (by omega)) pending indent hrest
            intro indent rest hrest
            exact ih m indent rest (by omega) (by omega) (hb.mono (by omega))
          have hlines := branchBlock_suffix
            (closeWith_suffix (fun i l => readBranches_suffix hh hb₂ m i l) hb₂) hh hb₂ line rest after
          simp only [branchBlock_congr hclose hh (hb.mono (Nat.le_of_lt hafter)) line rest
            (Nat.le_refl _), more _ _ hlines]

theorem readEntry_congr (hh : head.Consumes) (hb₂ : b₂.Consumes) (hb : AgreeUpTo k b₁ b₂)
    (line : Line) (afterPiped : Bool) (hl : lines.length ≤ k) :
    readEntry head b₁ line afterPiped lines = readEntry head b₂ line afterPiped lines := by
  unfold readEntry
  simp only
  have hrest := Nat.le_trans (hh line lines).length_le hl
  split
  · rename_i pending _
    have hclose : closePending head b₁ pending line.indent (head line lines).lines =
        closePending head b₂ pending line.indent (head line lines).lines := by
      refine closeWith_congr (k := (head line lines).lines.length) ?_ (hb.mono hrest) _ _
        (Nat.le_refl _)
      intro indent rest hr
      exact readBranches_fuel hh hb₂ _ _ _ _ (by omega) (by omega) (hb.mono (by omega))
    rw [hclose]
  · rfl
  · rw [hb _ _ hrest]
  · rfl
  · rfl

/-- The nodes of the lines under a width, read with the given number of steps. -/
def blockWithin (head : HeadReader) (n : Nat) : BlockReader := fun indent lines =>
  let (entries, rest) := readEntries head n (some indent) none false lines
  let (nodes, faults) := assemble [] entries
  ⟨nodes, faults, rest⟩

theorem blockWithin_consumes (hh : head.Consumes) (n : Nat) : (blockWithin head n).Consumes :=
  fun indent lines => readEntries_suffix hh n (some indent) none false lines

theorem readEntries_succ (n : Nat) (parent expected : Option Nat) (afterPiped : Bool)
    (lines : List Line) :
    readEntries head (n + 1) parent expected afterPiped lines =
      match nested? parent lines with
      | none => ([], skipBlank lines)
      | some (line, after) =>
        let width := expected.getD line.indent
        let r := readEntry head (blockWithin head n) line afterPiped after
        let more := readEntries head n parent (some width) r.piped r.lines
        (r.entry.addFaults (unevenIndent width line) :: more.1, more.2) := rfl

/-- The entries of a block do not depend on the number of steps. -/
theorem readEntries_fuel (hh : head.Consumes) (n m : Nat) (parent expected : Option Nat)
    (afterPiped : Bool) (lines : List Line) (hn : lines.length < n) (hm : lines.length < m) :
    readEntries head n parent expected afterPiped lines =
      readEntries head m parent expected afterPiped lines := by
  induction n generalizing m parent expected afterPiped lines with
  | zero => omega
  | succ n ih =>
    cases m with
    | zero => omega
    | succ m =>
      rw [readEntries_succ, readEntries_succ]
      split
      · rfl
      · rename_i line after hnest
        have hafter := nested?_length hnest
        have hblock : AgreeUpTo after.length (blockWithin head n) (blockWithin head m) := by
          intro indent rest hrest
          unfold blockWithin
          rw [ih m (some indent) none false rest (by omega) (by omega)]
        have hentry := readEntry_congr hh (blockWithin_consumes hh m) hblock line afterPiped (Nat.le_refl _)
        have hrest := (readEntry_suffix hh (blockWithin_consumes hh m) line afterPiped after).length_le
        simp only [hentry]
        rw [ih m _ _ _ _ (by omega) (by omega)]

/-! ## Reading with as many steps as lines -/

/-- The entries of the lines under a parent. -/
def entriesUnder (head : HeadReader) (parent expected : Option Nat) (afterPiped : Bool)
    (lines : List Line) : List BlockEntry × List Line :=
  readEntries head (lines.length + 1) parent expected afterPiped lines

/-- The nodes of the lines under a width. -/
def blockUnder (head : HeadReader) : BlockReader := fun indent lines =>
  blockWithin head (lines.length + 1) indent lines

/-- The branches of the lines under a width. -/
def branchesUnder (head : HeadReader) (parent : Nat) (lines : List Line) : Reading (List Branch) :=
  readBranches head (blockUnder head) (lines.length + 1) parent lines

/-- Finishes a node with the lines under it. -/
def closeUnder (head : HeadReader) : Pending → Nat → List Line → Reading Node :=
  closeWith (branchesUnder head) (blockUnder head)

theorem blockUnder_consumes (hh : head.Consumes) : (blockUnder head).Consumes :=
  fun indent lines => blockWithin_consumes hh _ indent lines

theorem branchesUnder_suffix (hh : head.Consumes) (parent : Nat) (lines : List Line) :
    (branchesUnder head parent lines).lines <:+ lines :=
  readBranches_suffix hh (blockUnder_consumes hh) _ parent lines

theorem closeUnder_suffix (hh : head.Consumes) (pending : Pending) (indent : Nat)
    (lines : List Line) : (closeUnder head pending indent lines).lines <:+ lines :=
  closeWith_suffix (branchesUnder_suffix hh) (blockUnder_consumes hh) pending indent lines

theorem blockWithin_agree (hh : head.Consumes) {n : Nat} (hk : k < n) :
    AgreeUpTo k (blockWithin head n) (blockUnder head) := by
  intro indent lines hl
  unfold blockUnder blockWithin
  rw [readEntries_fuel hh n (lines.length + 1) _ _ _ _ (by omega) (by omega)]

theorem blockUnder_eq (indent : Nat) (lines : List Line) :
    blockUnder head indent lines =
      ⟨(assemble [] (entriesUnder head (some indent) none false lines).1).1,
        (assemble [] (entriesUnder head (some indent) none false lines).1).2,
        (entriesUnder head (some indent) none false lines).2⟩ := rfl

/-- A block is its first line with the lines under it, and the rest of the block. -/
theorem entriesUnder_eq (hh : head.Consumes) (parent expected : Option Nat) (afterPiped : Bool)
    (lines : List Line) :
    entriesUnder head parent expected afterPiped lines =
      match nested? parent lines with
      | none => ([], skipBlank lines)
      | some (line, after) =>
        let width := expected.getD line.indent
        let r := readEntry head (blockUnder head) line afterPiped after
        let more := entriesUnder head parent (some width) r.piped r.lines
        (r.entry.addFaults (unevenIndent width line) :: more.1, more.2) := by
  unfold entriesUnder
  rw [readEntries_succ]
  split
  · rfl
  · rename_i line after hnest
    have hafter := nested?_length hnest
    have hentry := readEntry_congr hh (blockUnder_consumes hh)
      (blockWithin_agree hh hafter) line afterPiped (Nat.le_refl _)
    have hrest := (readEntry_suffix hh (blockUnder_consumes hh) line afterPiped after).length_le
    simp only [hentry]
    rw [readEntries_fuel hh lines.length _ _ _ _ _ (by omega) (Nat.lt_succ_self _)]

/-- The branches of a `case` are its first line with the lines under it, and the rest of them. -/
theorem branchesUnder_eq (hh : head.Consumes) (parent : Nat) (lines : List Line) :
    branchesUnder head parent lines =
      match nested? (some parent) lines with
      | none => ⟨[], [], skipBlank lines⟩
      | some (line, after) =>
        match branchHead line.text with
        | .ignored => branchesUnder head parent (skipChildren line.indent after)
        | .fault cause =>
          let more := branchesUnder head parent (skipChildren line.indent after)
          ⟨more.value, ⟨cause, line.span⟩ :: more.faults, more.lines⟩
        | .branch test rest =>
          let r := branchBlock (closeUnder head) head (blockUnder head) line rest after
          let more := branchesUnder head parent r.lines
          ⟨Branch.ofBlock test line.span r.value :: more.value, r.faults ++ more.faults,
            more.lines⟩ := by
  have hb := blockUnder_consumes hh
  have fuel : ∀ n parent (rest : List Line), rest.length < n →
      readBranches head (blockUnder head) n parent rest = branchesUnder head parent rest :=
    fun n parent rest hrest =>
      readBranches_fuel hh hb _ _ _ _ hrest (Nat.lt_succ_self _) fun _ _ _ => rfl
  conv => lhs; rw [branchesUnder, readBranches_succ]
  cases hnest : nested? (some parent) lines with
  | none => rfl
  | some pair =>
    obtain ⟨line, after⟩ := pair
    have hafter := nested?_length hnest
    have hskip := (skipChildren_suffix line.indent after).length_le
    dsimp only
    cases hhead : branchHead line.text with
    | ignored => exact fuel _ _ _ (by omega)
    | fault cause =>
      dsimp only
      rw [fuel _ _ _ (by omega)]
    | branch test rest =>
      have hclose : ∀ pending, AgreeUpTo after.length
          (closeWith (readBranches head (blockUnder head) lines.length) (blockUnder head) pending)
          (closeUnder head pending) := by
        intro pending indent rest hrest
        refine closeWith_congr ?_ (fun _ _ _ => rfl) pending indent hrest
        intro indent rest hrest
        exact fuel _ _ _ (by omega)
      have hblock := branchBlock_congr hclose hh (fun _ _ _ => rfl : AgreeUpTo _ (blockUnder head) _)
        line rest (Nat.le_refl _)
      have hlines := (branchBlock_suffix (closeUnder_suffix hh) hh hb line rest after).length_le
      dsimp only
      rw [hblock, fuel _ _ _ (by omega)]

theorem closePending_eq (pending : Pending) (indent : Nat) (lines : List Line) :
    closePending head (blockUnder head) pending indent lines =
      closeUnder head pending indent lines := by
  unfold closePending closeUnder closeWith
  split <;> rfl

/-- The faults of an entry are faults of its block. -/
theorem assemble_faults {entries : List BlockEntry} {entry : BlockEntry} (h : entry ∈ entries)
    (done : List Node) : entry.faults ⊆ (assemble done entries).2 := by
  induction entries generalizing done with
  | nil => cases h
  | cons first rest ih =>
    obtain ⟨faults, sibling⟩ := first
    cases sibling with
    | nodes list =>
      rw [assemble]
      rcases List.mem_cons.mp h with rfl | h
      · exact List.subset_append_left _ _
      · exact List.Subset.trans (ih h _) (List.subset_append_right _ _)
    | alternate branch s =>
      rw [assemble]
      rcases List.mem_cons.mp h with rfl | h
      · exact List.Subset.trans (List.subset_append_left _ _) (List.subset_append_left _ _)
      · exact List.Subset.trans (ih h _) (List.subset_append_right _ _)

theorem parse_eq (source : String) :
    Document.parse source =
      let text := source.toList
      let r := assemble [] (entriesUnder (Head.read text (text.length + 1)) none none false
        (Line.ofSource text)).1
      (⟨r.1, Text.byteLength text⟩, r.2) := rfl

end PugComponents.Template

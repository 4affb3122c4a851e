import PugComponents.Proofs.Template.RespacedAttributes

/- Heads of tags in a respaced source. A line has the same content, whatever is
   written at its end. Only a group in parentheses goes on over line ends, and it
   is closed by the same parenthesis in the respaced source. So the head of a tag
   is read alike from a place and from that place of the respaced source
   (`tagHead_respaced`). -/
namespace PugComponents.Template

open Text

variable {r : Respacing}

/-! ## Lines -/

/-- A text is one line, or a line and what follows its line feed. -/
theorem line_cases (cs : List Char) :
    '\n' ∉ cs ∨ ∃ line rest, '\n' ∉ line ∧ cs = line ++ '\n' :: rest := by
  induction cs with
  | nil => exact .inl List.not_mem_nil
  | cons c cs ih =>
    by_cases hc : c = '\n'
    · exact .inr ⟨[], cs, List.not_mem_nil, by rw [hc]; rfl⟩
    · rcases ih with hline | ⟨line, rest, hline, rfl⟩
      · exact .inl (by simp [hline, Ne.symm hc])
      · exact .inr ⟨c :: line, rest, by simp [hline, Ne.symm hc], rfl⟩

theorem lineContent_of_line {line : List Char} (h : '\n' ∉ line) : lineContent line = dropReturn line := by
  have hall : ∀ c ∈ line, (c != '\n') = true := by
    intro c hc
    rw [bne_iff_ne]
    rintro rfl
    exact h hc
  have htake : (line ++ []).takeWhile (· != '\n') = line ++ [] := List.takeWhile_append_of_pos hall
  rw [List.append_nil] at htake
  rw [lineContent, htake]

/-- What is written at the end of a line is no part of it. -/
theorem lineContent_text {cs : List Char} (h : r.Fits cs) : lineContent (r.text cs) = lineContent cs := by
  rcases line_cases cs with hline | ⟨line, rest, hline, rfl⟩
  · rw [Respacing.text_of_line hline]
  · have hsplit : r.text (line ++ '\n' :: rest) = (line ++ if r.returns then ['\r'] else []) ++
        '\n' :: (List.replicate r.width ' ' ++ r.text rest) := by
      rw [Respacing.text_append, Respacing.text_of_line hline, Respacing.text_cons_feed, Respacing.feed]
      simp
    rw [hsplit, lineContent_append_feed, lineContent_append_feed]
    split
    · rename_i hreturns
      have hplain : '\r' ∉ line := fun hmem => h hreturns (List.mem_append_left _ hmem)
      have hlast : line.getLast? ≠ some '\r' := fun hlast => hplain (List.mem_of_getLast? hlast)
      have hreturn : '\n' ∉ line ++ ['\r'] := by simp [hline]
      rw [lineContent_of_line hreturn, lineContent_of_line hline]
      simp [dropReturn, hlast]
    · rw [List.append_nil]

variable {p p' : Place}

theorem Place.Respaced.line (h : p.Respaced r p') : p'.line = p.line := by
  rw [Place.line, h.text, lineContent_text h.fits, Place.line]

/-- Characters of the line are passed. -/
theorem Place.Respaced.passLine (h : p.Respaced r p') {front : List Char}
    (hfront : front <+: p.line) : (p.skip front).Respaced r (p'.skip front) :=
  h.skipLine (Place.inText hfront) fun hfeed => feed_notMem_lineContent p.text (hfront.subset hfeed)

theorem Place.Respaced.toLineEnd (h : p.Respaced r p') : p.toLineEnd.Respaced r p'.toLineEnd := by
  rw [Place.toLineEnd, Place.toLineEnd, h.line]
  exact h.passLine (List.prefix_refl _)

/-- A class or an id stands on one line. It is passed in both texts, which get shorter. -/
theorem Place.Respaced.named (h : p.Respaced r p') {sign : Char} {after : List Char}
    (hline : p.line = sign :: after) :
    (p.skip (sign :: nameAtFront after)).Respaced r (p'.skip (sign :: nameAtFront after)) ∧
      '\n' ∉ nameAtFront after ∧
      (p.skip (sign :: nameAtFront after)).text.length < p.text.length ∧
      (p'.skip (sign :: nameAtFront after)).text.length < p'.text.length := by
  have hnamed := named_isPrefix hline
  have hnamed' := named_isPrefix (h.line.trans hline)
  refine ⟨h.passLine hnamed, fun hmem => ?_, Place.length_skip_lt (Place.inText hnamed),
    Place.length_skip_lt (Place.inText hnamed')⟩
  exact feed_notMem_lineContent p.text (hnamed.subset (List.mem_cons_of_mem _ hmem))

/-! ## Groups -/

/-- A group that is not closed is not closed in the respaced text. One that is encloses the
respaced text. -/
theorem parenthesised?_respaced (h : p.Respaced r p') (lines lines' : List Line) :
    (parenthesised? p lines = none ∧ parenthesised? p' lines' = none) ∨
      ∃ inner after rest after' rest', parenthesised? p lines = some (inner, after, rest) ∧
        parenthesised? p' lines' = some (r.text inner, after', rest') ∧
        after.Respaced r after' ∧ r.Fits inner := by
  have hgroup' : group? p'.text = (group? p.text).map r.both := by
    rw [h.text, Respacing.group?_text]
  rw [parenthesised?_eq, parenthesised?_eq]
  cases hgroup : group? p.text with
  | none =>
    rw [hgroup', hgroup]
    exact .inl ⟨rfl, rfl⟩
  | some result =>
    obtain ⟨inner, rest⟩ := result
    obtain ⟨opener, closer, -, htext⟩ := group?_eq_some hgroup
    have hfits := h.fits
    rw [htext] at hfits
    have hinner : r.Fits inner := fun hr hmem =>
      hfits hr (List.mem_cons_of_mem _ (List.mem_append_left _ hmem))
    have hrest : r.Fits rest := fun hr hmem =>
      hfits hr (List.mem_cons_of_mem _ (List.mem_append_right _ (List.mem_cons_of_mem _ hmem)))
    rw [hgroup', hgroup]
    exact .inr ⟨inner, _, _, _, _, rfl, rfl, ⟨rfl, hrest⟩, hinner⟩

/-- What groups give in the text and in the respaced text. -/
structure Groups.Respaced (r : Respacing) (g g' : Groups) : Prop where
  attributes : Alike (.copying r) Attribute.seen g.attributes g'.attributes
  spreads : Alike (.copying r) Spread.seen g.spreads g'.spreads
  faults : Alike (.copying r) Fault.seen g.faults g'.faults
  place : g.place.Respaced r g'.place
  closed : g'.closed = g.closed

theorem attributeGroup?_respaced (h : p.Respaced r p') (lines lines' : List Line) :
    Option.Rel (Groups.Respaced r) (attributeGroup? p lines) (attributeGroup? p' lines') := by
  unfold attributeGroup?
  rw [h.line]
  split
  · rcases parenthesised?_respaced h lines lines' with ⟨hnone, hnone'⟩ |
      ⟨inner, after, rest, after', rest', hsome, hsome', hafter, hinner⟩
    · rw [hnone, hnone']
      exact .some ⟨.nil _, .nil _, rfl, h.toLineEnd, rfl⟩
    · have hlist := attributeList_respaced hinner (p.offset + 1) (p'.offset + 1)
      rw [hsome, hsome']
      exact .some ⟨hlist.values, .nil _, hlist.faults, hafter, rfl⟩
  · split
    · rename_i hlead
      have hstart := h.passLine (spreadLead_isPrefix hlead)
      simp only
      rcases parenthesised?_respaced hstart lines lines' with ⟨hnone, hnone'⟩ |
        ⟨inner, after, rest, after', rest', hsome, hsome', hafter, -⟩
      · rw [hnone, hnone']
        exact .some ⟨.nil _, .nil _, rfl, h.toLineEnd, rfl⟩
      · rw [hsome, hsome']
        refine .some ⟨.nil _, .cons ?_ (.nil _), .nil _, hafter, rfl⟩
        simp only [Spread.seen, Respacing.trim_text, Respacing.ofList_text]
        rfl
    · exact .none

theorem attributeGroup?_respaced_none (h : p.Respaced r p') {lines : List Line}
    (hg : attributeGroup? p lines = none) (lines' : List Line) :
    attributeGroup? p' lines' = none := by
  have hrel := attributeGroup?_respaced h lines lines'
  rw [hg] at hrel
  cases hg' : attributeGroup? p' lines' with
  | none => rfl
  | some g' =>
    rw [hg'] at hrel
    cases hrel

theorem attributeGroup?_respaced_some (h : p.Respaced r p') {lines : List Line} {g : Groups}
    (hg : attributeGroup? p lines = some g) (lines' : List Line) :
    ∃ g', attributeGroup? p' lines' = some g' ∧ g.Respaced r g' := by
  have hrel := attributeGroup?_respaced h lines lines'
  rw [hg] at hrel
  cases hg' : attributeGroup? p' lines' with
  | none =>
    rw [hg'] at hrel
    cases hrel
  | some g' =>
    rw [hg'] at hrel
    cases hrel with
    | some hgroup => exact ⟨g', rfl, hgroup⟩

/-- All groups from a place on, with as many steps as characters in either text. -/
theorem attributeGroups_respaced (h : p.Respaced r p') (lines lines' : List Line) {n k : Nat}
    (hn : p.text.length < n) (hk : p'.text.length < k) :
    (attributeGroups n p lines).Respaced r (attributeGroups k p' lines') := by
  induction n generalizing k p p' lines lines' with
  | zero => omega
  | succ n ih =>
    cases k with
    | zero => omega
    | succ k =>
      rw [attributeGroups, attributeGroups]
      cases hg : attributeGroup? p lines with
      | none =>
        rw [attributeGroup?_respaced_none h hg lines']
        exact ⟨.nil _, .nil _, .nil _, h, rfl⟩
      | some g =>
        obtain ⟨g', hg', hgroup⟩ := attributeGroup?_respaced_some h hg lines'
        rw [hg']
        simp only [hgroup.closed]
        split
        · rename_i hclosed
          have hlt := attributeGroup?_shorter hg hclosed
          have hlt' := attributeGroup?_shorter hg' (hgroup.closed.trans hclosed)
          have hmore := ih hgroup.place g.lines g'.lines (k := k) (by omega) (by omega)
          exact ⟨hgroup.attributes.append hmore.attributes, hgroup.spreads.append hmore.spreads,
            hgroup.faults.append hmore.faults, hmore.place, hmore.closed⟩
        · exact hgroup

/-! ## Heads of tags -/

/-- The head of a tag in the text and in the respaced text. -/
structure TagHead.Respaced (r : Respacing) (h h' : TagHead) : Prop where
  parts : Alike (.copying r) TagPart.seen h.parts h'.parts
  spreads : Alike (.copying r) Spread.seen h.spreads h'.spreads
  ending : h'.ending = h.ending
  faults : Alike (.copying r) Fault.seen h.faults h'.faults
  place : h.place.Respaced r h'.place
  /-- Classes stand on one line. -/
  classes : ∀ name ∈ classNames h.parts, '\n' ∉ name.toList

namespace TagHead.Respaced

theorem ended (ending : TagEnd) (h : p.Respaced r p') (lines lines' : List Line) :
    (TagHead.ended ending p lines).Respaced r (TagHead.ended ending p' lines') :=
  ⟨.nil _, .nil _, rfl, .nil _, h, fun _ hname => absurd hname List.not_mem_nil⟩

variable {h h' : TagHead}

theorem consClass (hh : h.Respaced r h') {name : List Char} (hname : '\n' ∉ name) (s s' : Span) :
    (h.consPart (.className (String.ofList name) s)).Respaced r
      (h'.consPart (.className (String.ofList name) s')) := by
  refine ⟨hh.parts.cons rfl, hh.spreads, hh.ending, hh.faults, hh.place, ?_⟩
  intro other hother
  rcases List.mem_cons.mp hother with rfl | hother
  · rwa [String.toList_ofList]
  · exact hh.classes other hother

theorem consAttribute (hh : h.Respaced r h') {a a' : Attribute}
    (ha : a'.seen .plain = a.seen (.copying r)) :
    (h.consPart (.attribute a)).Respaced r (h'.consPart (.attribute a')) :=
  ⟨hh.parts.cons (congrArg TagPart.attribute ha), hh.spreads, hh.ending, hh.faults, hh.place, hh.classes⟩

theorem before {g g' : Groups} (hg : g.Respaced r g') (hh : h.Respaced r h') :
    (g.before h).Respaced r (g'.before h') := by
  have hparts : Alike (.copying r) TagPart.seen (g.attributes.map .attribute)
      (g'.attributes.map .attribute) := by
    have hmap := congrArg (List.map TagPart.attribute) hg.attributes
    simpa [Alike, TagPart.seen, List.map_map, Function.comp_def] using hmap
  have hnone : classNames (g.attributes.map .attribute) = [] := by
    rw [classNames, List.filterMap_map]
    exact List.filterMap_eq_nil_iff.mpr fun _ _ => rfl
  refine ⟨hparts.append hh.parts, hg.spreads.append hh.spreads, hh.ending, hg.faults.append hh.faults,
    hh.place, ?_⟩
  intro name hname
  have happend : classNames (g.before h).parts = classNames h.parts := by
    show classNames (g.attributes.map .attribute ++ h.parts) = _
    rw [classNames, List.filterMap_append, ← classNames, hnone]
    rfl
  rw [happend] at hname
  exact hh.classes name hname

end TagHead.Respaced

/-- The head of a tag is read alike in the respaced text. -/
theorem tagHead_respaced (h : p.Respaced r p') (lines lines' : List Line) {n k : Nat}
    (hn : p.text.length < n) (hk : p'.text.length < k) :
    (tagHead n p lines).Respaced r (tagHead k p' lines') := by
  -- The texts differ in length, so each reading has its own number of steps: it is enough for either
  -- if it exceeds the characters that are left.
  fun_induction tagHead n p lines generalizing k p' lines' with
  | case1 => omega
  | case2 n p lines after hline hname hblank =>
    obtain ⟨k, rfl⟩ := Nat.exists_eq_add_of_lt hk
    rw [tagHead, h.line, hline]
    simp only [hname, hblank, if_true]
    exact .ended _ h.toLineEnd _ _
  | case3 n p lines after hline hname hblank =>
    obtain ⟨k, rfl⟩ := Nat.exists_eq_add_of_lt hk
    rw [tagHead, h.line, hline]
    simp only [hname, hblank]
    exact .ended _ h _ _
  | case4 n p lines after hline hname =>
    rename_i next ih
    obtain ⟨k, rfl⟩ := Nat.exists_eq_add_of_lt hk
    obtain ⟨hnext, hfeed, (hlt : next.text.length < _), hlt'⟩ := h.named hline
    have hmore := ih (k := p'.text.length + k) hnext lines' (by omega) (by omega)
    rw [tagHead_class (h.line.trans hline) hname]
    exact hmore.consClass hfeed _ _
  | case5 n p lines after hline hname =>
    obtain ⟨k, rfl⟩ := Nat.exists_eq_add_of_lt hk
    rw [tagHead, h.line, hline]
    simp only [hname]
    exact .ended _ h _ _
  | case6 n p lines after hline hname =>
    rename_i next ih
    obtain ⟨k, rfl⟩ := Nat.exists_eq_add_of_lt hk
    obtain ⟨hnext, hfeed, (hlt : next.text.length < _), hlt'⟩ := h.named hline
    have hmore := ih (k := p'.text.length + k) hnext lines' (by omega) (by omega)
    rw [← String.toList_ofList (l := nameAtFront after)] at hfeed
    have hid : (View.copying r).copied "id" = "id" := (View.copying r).copied_line (by decide)
    rw [tagHead_id (h.line.trans hline) hname]
    apply hmore.consAttribute
    simp only [Attribute.seen, AttributeValue.seen, hid, View.copied_quoted _ hfeed]
    rfl
  | case7 n p lines after hline =>
    obtain ⟨k, rfl⟩ := Nat.exists_eq_add_of_lt hk
    rw [tagHead, h.line, hline]
    exact .ended _ (h.passLine (sign_isPrefix hline)) _ _
  | case8 n p lines hg hdot hhash hslash =>
    obtain ⟨k, rfl⟩ := Nat.exists_eq_add_of_lt hk
    rw [tagHead_group (by simpa [h.line] using hdot) (by simpa [h.line] using hhash)
      (by simpa [h.line] using hslash), attributeGroup?_respaced_none h hg lines']
    exact .ended _ h _ _
  | case9 n p lines g hg more hdot hhash hslash =>
    rename_i ih
    obtain ⟨k, rfl⟩ := Nat.exists_eq_add_of_lt hk
    obtain ⟨g', hg', hgroup⟩ := attributeGroup?_respaced_some h hg lines'
    rw [tagHead_group (by simpa [h.line] using hdot) (by simpa [h.line] using hhash)
      (by simpa [h.line] using hslash), hg']
    refine TagHead.Respaced.before hgroup ?_
    unfold more
    rw [hgroup.closed]
    split
    · rename_i hclosed
      have hlt := attributeGroup?_shorter hg hclosed
      have hlt' := attributeGroup?_shorter hg' (hgroup.closed.trans hclosed)
      exact ih hgroup.place g'.lines (by omega) (by omega)
    · exact .ended _ hgroup.place _ _

end PugComponents.Template

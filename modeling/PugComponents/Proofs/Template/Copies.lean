import PugComponents.Proofs.Template.Boundaries
import PugComponents.Proofs.Template.Views

/- What a head copies from the source. The names and values of attributes, spreads
   and the arguments of mixin calls are taken from what stands in parentheses,
   which may go over line ends. A line feed in what is copied is passed with the
   head (`tagHead_feedsTo`): a tag that stands on one line copies none. -/
namespace PugComponents.Template

open Text

/-! ## Attribute lists -/

theorem Place.skip_text_subset (p : Place) (front : List Char) : (p.skip front).text ⊆ p.text :=
  List.drop_subset _ _

theorem trim_subset (cs : List Char) : trim cs ⊆ cs := by
  intro c hc
  have hreverse := (List.dropWhile_suffix _).subset (List.mem_reverse.mp hc)
  exact (List.dropWhile_suffix _).subset (List.mem_reverse.mp hreverse)

variable {p after : Place}

/-- A name consists of characters of the text. -/
theorem attributeName_subset {first : Char} {name : List Char}
    (h : attributeName first p = .name name after) : name ⊆ p.text ∧ after.text ⊆ p.text := by
  unfold attributeName at h
  split at h
  · split at h
    · cases h
      exact ⟨List.Subset.trans (List.takeWhile_prefix _).subset (List.tail_suffix _).subset,
        p.skip_text_subset _⟩
    · cases h
  · cases h
    exact ⟨(List.takeWhile_prefix _).subset, p.skip_text_subset _⟩

theorem namedAttribute_copied {n : Nat} {text : List Char}
    (h : ∀ q : Place, q.text ⊆ text → ∀ a ∈ (attributesFrom n q).1, ∀ s ∈ a.copied, s.toList ⊆ text)
    (hafter : after.text ⊆ text) (p : Place) {name : List Char} (hname : name ⊆ text) :
    ∀ a ∈ (namedAttribute n p name after).1, ∀ s ∈ a.copied, s.toList ⊆ text := by
  unfold namedAttribute
  cases hsign : valueSign after with
  | absent =>
    refine List.forall_mem_cons.mpr ⟨?_, h after hafter⟩
    simpa [Attribute.copied] using hname
  | loneMark mark =>
    obtain ⟨space, -, rfl, -⟩ := valueSign_eq_loneMark hsign
    exact h _ (List.Subset.trans (List.Subset.trans (Place.skip_text_subset _ _)
      (Place.skip_text_subset _ _)) hafter)
  | present escaped afterSign =>
    obtain ⟨sign, -, rfl⟩ := valueSign_eq_present hsign
    have hstart : ((after.skip sign).skipWhile isWhiteSpace).text ⊆ text :=
      List.Subset.trans (List.Subset.trans (Place.skip_text_subset _ _) (Place.skip_text_subset _ _)) hafter
    simp only
    generalize (after.skip sign).skipWhile isWhiteSpace = start at hstart ⊢
    have hstop := h (start.skip (attributeValue start.text).1)
      (List.Subset.trans (Place.skip_text_subset _ _) hstart)
    have hvalue : trim (attributeValue start.text).1 ⊆ text :=
      List.Subset.trans (List.Subset.trans (trim_subset _) (valueFrom_isPrefix _ _ _ _).subset) hstart
    split
    · exact hstop
    · refine List.forall_mem_cons.mpr ⟨?_, hstop⟩
      simpa [Attribute.copied] using ⟨hname, hvalue⟩

/-- Names and values consist of characters of the list. -/
theorem attributesFrom_copied (n : Nat) {text : List Char} (hp : p.text ⊆ text) :
    ∀ a ∈ (attributesFrom n p).1, ∀ s ∈ a.copied, s.toList ⊆ text := by
  induction n generalizing p with
  | zero => exact fun _ h => (nomatch h)
  | succ n ih =>
    have hgap : (p.skipWhile isAttributeGap).text ⊆ text :=
      List.Subset.trans (p.skip_text_subset _) hp
    rw [attributesFrom_succ]
    generalize p.skipWhile isAttributeGap = q at hgap ⊢
    cases htext : q.text with
    | nil =>
      simp only [htext]
      exact fun _ h => (nomatch h)
    | cons first rest =>
      simp only [htext]
      cases hname : attributeName first q with
      | unclosed quote => exact fun _ h => (nomatch h)
      | name name after =>
        obtain ⟨hchars, hafter⟩ := attributeName_subset hname
        cases name with
        | nil =>
          have hnext : after.text.tail ⊆ text :=
            List.Subset.trans (List.tail_suffix _).subset (List.Subset.trans hafter hgap)
          exact ih (p := ⟨_, after.text.tail⟩) hnext
        | cons c name =>
          exact namedAttribute_copied (fun _ hq => ih hq) (List.Subset.trans hafter hgap) q
            (List.Subset.trans hchars hgap)

/-! ## Groups and heads -/

/-- A line feed stands between the two places. -/
def Place.FeedsTo (p q : Place) : Prop := ∃ front, p.text = front ++ q.text ∧ '\n' ∈ front

variable {lines rest : List Line}

theorem Place.Reaches.feedsTo {q r : Place} (h : p.Reaches lines q rest) (hfeeds : q.FeedsTo r) :
    p.FeedsTo r := by
  obtain ⟨passed, hp, -⟩ := h.text
  obtain ⟨front, hq, hmem⟩ := hfeeds
  exact ⟨passed ++ front, by rw [hp, hq, List.append_assoc], List.mem_append_right _ hmem⟩

theorem Place.FeedsTo.reaches {q r : Place} (h : p.FeedsTo q) (hreach : q.Reaches lines r rest) :
    p.FeedsTo r := by
  obtain ⟨front, hp, hmem⟩ := h
  obtain ⟨passed, hq, -⟩ := hreach.text
  exact ⟨front ++ passed, by rw [hp, hq, List.append_assoc], List.mem_append_left _ hmem⟩

/-- A line feed in parentheses is passed with them. -/
theorem parenthesised?_feedsTo {inner : List Char}
    (h : parenthesised? p lines = some (inner, after, rest)) (hfeed : '\n' ∈ inner) :
    p.FeedsTo after := by
  obtain ⟨opener, closer, -, htext⟩ := group?_eq_some (parenthesised?_eq_some h).1
  refine ⟨opener :: (inner ++ [closer]), by simp [htext], ?_⟩
  exact List.mem_cons_of_mem _ (List.mem_append_left _ hfeed)

/-- What groups copy from the source. -/
def Groups.copied (g : Groups) : List String :=
  g.attributes.flatMap Attribute.copied ++ g.spreads.map Spread.value

variable {s : String}

/-- What a group copies over the end of a line is passed with the group. -/
theorem attributeGroup?_feedsTo {g : Groups} (h : attributeGroup? p lines = some g)
    (hs : s ∈ g.copied) (hfeed : '\n' ∈ s.toList) : p.FeedsTo g.place := by
  unfold attributeGroup? at h
  split at h
  · split at h
    · cases h
      cases hs
    · rename_i inner after rest hgroup
      cases h
      rcases List.mem_append.mp hs with hs | hs
      · obtain ⟨a, ha, hmem⟩ := List.mem_flatMap.mp hs
        have hsub := attributesFrom_copied (inner.length + 1) (p := ⟨p.offset + 1, inner⟩)
          (List.Subset.refl inner) a ha s hmem
        exact parenthesised?_feedsTo hgroup (hsub hfeed)
      · cases hs
  · split at h
    · rename_i hlead
      simp only at h
      split at h
      · cases h
        cases hs
      · rename_i inner after rest hgroup
        cases h
        obtain rfl : s = String.ofList (trim inner) := by simpa [Groups.copied] using hs
        rw [String.toList_ofList] at hfeed
        exact (Place.Reaches.skip (spreadLead_isPrefix hlead) lines).feedsTo
          (parenthesised?_feedsTo hgroup (trim_subset inner hfeed))
    · cases h

theorem attributeGroups_feedsTo (n : Nat) (lines : List Line)
    (hs : s ∈ (attributeGroups n p lines).copied) (hfeed : '\n' ∈ s.toList) :
    p.FeedsTo (attributeGroups n p lines).place := by
  induction n generalizing p lines with
  | zero => cases hs
  | succ n ih =>
    unfold attributeGroups at hs ⊢
    cases hg : attributeGroup? p lines with
    | none =>
      rw [hg] at hs
      cases hs
    | some g =>
      rw [hg] at hs
      simp only at hs ⊢
      split at hs
      · rename_i hclosed
        rw [if_pos hclosed]
        have hreach := Place.Reaches.attributeGroup hg
        have hcases : s ∈ g.copied ∨ s ∈ (attributeGroups n g.place g.lines).copied := by
          simp only [Groups.copied, List.flatMap_append, List.map_append, List.mem_append] at hs ⊢
          exact or_or_or_comm.mp hs
        rcases hcases with hfirst | hmore
        · exact (attributeGroup?_feedsTo hg hfirst hfeed).reaches (Place.Reaches.attributeGroups n _ _)
        · exact hreach.feedsTo (ih g.lines hmore)
      · rename_i hclosed
        rw [if_neg hclosed]
        exact attributeGroup?_feedsTo hg hs hfeed

/-- What a part copies from the source; a class stands on one line. -/
def TagPart.copied : TagPart → List String
  | .className .. => []
  | .attribute a => a.copied

/-- What the head of a tag copies from the source. -/
def TagHead.copied (h : TagHead) : List String :=
  h.parts.flatMap TagPart.copied ++ h.spreads.map Spread.value

theorem TagHead.copied_before (g : Groups) (h : TagHead) (hs : s ∈ (g.before h).copied) :
    s ∈ g.copied ∨ s ∈ h.copied := by
  have hattributes : (g.attributes.map TagPart.attribute).flatMap TagPart.copied =
      g.attributes.flatMap Attribute.copied := by
    rw [List.flatMap_map]
    rfl
  simp only [TagHead.copied, Groups.copied, Groups.before, List.flatMap_append, hattributes,
    List.map_append, List.mem_append] at hs ⊢
  exact or_or_or_comm.mp hs

/-- What the head of a tag copies over the end of a line is passed with the head. -/
theorem tagHead_feedsTo {n : Nat} (hs : s ∈ (tagHead n p lines).copied) (hfeed : '\n' ∈ s.toList) :
    p.FeedsTo (tagHead n p lines).place := by
  fun_induction tagHead n p lines with
  | case1 | case2 | case3 | case5 | case7 | case8 => cases hs
  | case4 n p lines after hline _ _ ih =>
    exact (Place.Reaches.skip (named_isPrefix hline) lines).feedsTo (ih hs)
  | case6 n p lines after hline _ _ ih =>
    have hnamed := named_isPrefix hline
    rcases List.mem_append.mp hs with hs | hs
    · rcases List.mem_append.mp hs with hs | hs
      · -- An id stands on one line.
        have hname : '\n' ∉ nameAtFront after := fun hmem =>
          feed_notMem_lineContent p.text (hnamed.subset (List.mem_cons_of_mem _ hmem))
        have hcases : s = "id" ∨ s = "'" ++ String.ofList (nameAtFront after) ++ "'" := by
          simpa [TagPart.copied, Attribute.copied] using hs
        rcases hcases with rfl | rfl
        · exact absurd hfeed (by decide)
        · exact absurd hfeed (by simp [hname])
      · exact (Place.Reaches.skip hnamed lines).feedsTo (ih (List.mem_append_left _ hs))
    · exact (Place.Reaches.skip hnamed lines).feedsTo (ih (List.mem_append_right _ hs))
  | case9 n p lines g hg more _ _ _ ih =>
    have hreach := Place.Reaches.attributeGroup hg
    rcases TagHead.copied_before g more hs with hgroup | hmore
    · have hfirst := attributeGroup?_feedsTo hg hgroup hfeed
      show p.FeedsTo more.place
      unfold more
      split
      · exact hfirst.reaches (Place.Reaches.tagHead _ _ _)
      · exact hfirst
    · show p.FeedsTo more.place
      unfold more at hmore ⊢
      split
      · rename_i hclosed
        rw [if_pos hclosed] at hmore
        exact hreach.feedsTo (ih hmore)
      · rename_i hclosed
        rw [if_neg hclosed] at hmore
        cases hmore

end PugComponents.Template

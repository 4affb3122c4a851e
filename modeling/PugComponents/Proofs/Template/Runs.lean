import PugComponents.Proofs.Template.Items

/- Runs of items. Reading goes through the lines of a source from front to back,
   and what it finds on the way comes in the order of the source (`Run`). Each item
   has a sound span, and a script that is rendered stands in the source where its
   span says (`Item.Located`). The attributes of a tag or a mixin call follow one
   another in its span (`Item.Chained`), if no fault leads into a character. -/
namespace PugComponents.Template

open Text

/-! ## Where an item stands -/

/-- The lines behind an offset. -/
def linesBehind (source : List Char) (offset : Nat) : List Line :=
  (Line.ofSource source).dropWhile (·.start ≤ offset)

/-- The line is the one that the tag with the span `s` belongs to: the tag is a head of the line, and
ends where its own head does. -/
structure Line.Bears (source : List Char) (line : Line) (s : Span) : Prop where
  mem : line ∈ Line.ofSource source
  start : HeadsAt source line s.start
  stop : s.stop = (headAt source s).place.lineStop

/-- The text under a tag with the span `s`, and the offset it is read from: the text is indented more
than the line of the tag. -/
def TextUnder (source : List Char) (s : Span) (raw : String) (start : Nat) : Prop :=
  ∃ line : Line, line.Bears source s ∧
    (takeRaw line.indent (linesBehind source s.stop)).value = some (raw, start)

/-- The span is that of an item, or of a node that is dropped with a branch before it: the branch
belongs to no conditional, which is a fault. -/
def Span.IsRead (items : List Item) (faults : List Fault) (s : Span) : Prop :=
  (∃ item ∈ items, item.span = s) ∨ ∃ g ∈ faults, g.IsOrphan ∧ g.span.start ≤ s.start

/-- A fault in the text under a tag that is read. -/
def Fault.FromTextBlock (source : List Char) (items : List Item) (faults : List Fault) (f : Fault) :
    Prop :=
  ∃ s raw start, s.IsRead items faults ∧ opensTextBlock source s = true ∧
    TextUnder source s raw start ∧ f ∈ (interpolated raw.toList start).2

/-- How a script is written that renders a value: as an interpolation, or behind an equals sign. -/
inductive Writes : CodeKind → String → List Char → Prop
  | interpolation {kind : CodeKind} {value : String} {written : List Char}
      (h : Interpolates kind value written) : Writes kind value written
  | equals (expression : List Char) :
    Writes .escaped (String.ofList (trim expression)) ('=' :: expression)
  | bangEquals (expression : List Char) :
    Writes .unescaped (String.ofList (trim expression)) ('!' :: '=' :: expression)

/-- The item is a stretch of the source. A script that it renders is written there, and a text block
is read from the lines under it. -/
structure Item.Located (source : List Char) (item : Item) : Prop where
  sound : item.span.Sound source
  script : ∀ kind value, item.script = some (kind, value) →
    ∃ written, Writes kind value written ∧ item.span.Holds source written
  text : item.text = [] ∨ ∃ raw start, TextUnder source item.span raw start ∧
    item.text = (interpolated raw.toList start).1

/-- The attributes follow one another in the span of the item, and so do the spreads. -/
structure Item.Chained (source : List Char) (item : Item) : Prop where
  attributes : Chain source item.span.start item.span.stop (item.attributes.map Attribute.span)
  spreads : Chain source item.span.start item.span.stop (item.spreads.map Spread.span)

theorem Item.located_plain {source : List Char} {s : Span} (h : s.Sound source) :
    (Item.plain s).Located source :=
  ⟨h, fun _ _ hscript => (nomatch hscript), .inl rfl⟩

theorem Item.chained_plain (source : List Char) (s : Span) : (Item.plain s).Chained source :=
  ⟨.nil, .nil⟩

/-- Reading goes from the first of `lines` to the first of `rest` and finds these items and faults:
the items come in order, behind some line that is read and before every line that is left. -/
structure Run (source : List Char) (lines rest : List Line) (items : List Item) (faults : List Fault) :
    Prop where
  located : ∀ item ∈ items, item.Located source
  behind : ∀ item ∈ items, ∃ line ∈ lines, line.start ≤ item.span.start
  before : ∀ item ∈ items, ∀ line ∈ rest, item.span.start < line.start
  ordered : items.Pairwise fun a b => a.span.start ≤ b.span.start
  calm : (∀ f ∈ faults, f.Aligned source) → (∀ item ∈ items, item.Chained source) ∧
    ∀ f ∈ faults, f.span.Sound source ∨ f.FromTextBlock source items faults

variable {nodes : List Node} {line : Line}

namespace Run

variable {source : List Char} {lines mid rest : List Line} {items more : List Item}
  {faults all : List Fault}

theorem nil : Run source lines rest [] [] where
  located := fun _ h => nomatch h
  behind := fun _ h => nomatch h
  before := fun _ h => nomatch h
  ordered := .nil
  calm := fun _ => ⟨fun _ h => (nomatch h), fun _ h => (nomatch h)⟩

/-- Faults stay where they are if more is read, and what is left out is dropped with a branch. -/
theorem faults_mono
    (h : ∀ f ∈ faults, f.span.Sound source ∨ f.FromTextBlock source items faults)
    (hitems : ∀ item ∈ items, item.span.IsRead more all) (hfaults : faults ⊆ all) :
    ∀ f ∈ faults, f.span.Sound source ∨ f.FromTextBlock source more all := by
  intro f hf
  refine (h f hf).imp id ?_
  rintro ⟨s, raw, start, hread, hblock⟩
  refine ⟨s, raw, start, ?_, hblock⟩
  rcases hread with ⟨item, hitem, rfl⟩ | ⟨g, hg, horphan⟩
  · exact hitems item hitem
  · exact .inr ⟨g, hfaults hg, horphan⟩

theorem isRead_of_subset (hsub : items ⊆ more) : ∀ item ∈ items, item.span.IsRead more all :=
  fun item hitem => .inl ⟨item, hsub hitem, rfl⟩

theorem faults_subset
    (h : ∀ f ∈ faults, f.span.Sound source ∨ f.FromTextBlock source items faults)
    (hitems : items ⊆ more) (hfaults : faults ⊆ all) :
    ∀ f ∈ faults, f.span.Sound source ∨ f.FromTextBlock source more all :=
  faults_mono h (isRead_of_subset hitems) hfaults

/-- Faults at sound spans, and those of a text block, may be added anywhere. -/
theorem withFaults (h : Run source lines rest items faults) (hsub : faults ⊆ all)
    (hall : ∀ f ∈ all, f ∈ faults ∨ f.span.Sound source ∨ f.FromTextBlock source items all) :
    Run source lines rest items all where
  located := h.located
  behind := h.behind
  before := h.before
  ordered := h.ordered
  calm := by
    intro haligned
    obtain ⟨hchained, hfaults⟩ := h.calm fun f hf => haligned f (hsub hf)
    refine ⟨hchained, ?_⟩
    intro f hf
    rcases hall f hf with hold | hnew
    · exact faults_subset hfaults (List.Subset.refl _) hsub f hold
    · exact hnew

theorem ofFaults (h : ∀ f ∈ faults, f.span.Sound source) : Run source lines rest [] faults :=
  nil.withFaults (List.nil_subset _) fun f hf => .inr (.inl (h f hf))

variable {item : Item}

/-- The last item may be given its text. -/
theorem withText (h : Run source lines rest (items ++ [item]) faults)
    (hlocated : { item with text := nodes }.Located source) :
    Run source lines rest (items ++ [{ item with text := nodes }]) faults where
  located := by
    refine List.forall_mem_append.mpr ⟨(List.forall_mem_append.mp h.located).1, ?_⟩
    simpa using hlocated
  behind := by simpa [or_imp, forall_and] using h.behind
  before := by simpa [or_imp, forall_and] using h.before
  ordered := by simpa [List.pairwise_append] using h.ordered
  calm := by
    intro haligned
    obtain ⟨hchained, hfaults⟩ := h.calm haligned
    obtain ⟨hitems, hlast⟩ := List.forall_mem_append.mp hchained
    refine ⟨List.forall_mem_append.mpr ⟨hitems, ?_⟩,
      faults_mono hfaults ?_ (List.Subset.refl _)⟩
    · simpa using ⟨(hlast item (List.mem_singleton_self item)).attributes,
        (hlast item (List.mem_singleton_self item)).spreads⟩
    · refine List.forall_mem_append.mpr ⟨isRead_of_subset (List.subset_append_left _ _), ?_⟩
      exact List.forall_mem_singleton.mpr
        (.inl ⟨_, List.mem_append_right _ (List.mem_singleton_self _), rfl⟩)

/-- Items may be left out with branches that are dropped. -/
theorem sublist (h : Run source lines rest items faults) (hsub : more.Sublist items)
    (hread : ∀ item ∈ items, item.span.IsRead more all) (hfaults : faults ⊆ all)
    (hall : ∀ f ∈ all, f ∈ faults ∨ f.span.Sound source) : Run source lines rest more all where
  located := fun item hitem => h.located item (hsub.subset hitem)
  behind := fun item hitem => h.behind item (hsub.subset hitem)
  before := fun item hitem => h.before item (hsub.subset hitem)
  ordered := h.ordered.sublist hsub
  calm := by
    intro haligned
    obtain ⟨hchained, hold⟩ := h.calm fun f hf => haligned f (hfaults hf)
    refine ⟨fun item hitem => hchained item (hsub.subset hitem), ?_⟩
    intro f hf
    rcases hall f hf with hf | hf
    · exact faults_mono hold hread hfaults f hf
    · exact .inl hf

/-- What is read next stands behind what has been read. -/
theorem append (h : Run source lines mid items faults) (h' : Run source mid rest more all)
    (hmid : mid <:+ lines) (hrest : rest <:+ mid) :
    Run source lines rest (items ++ more) (faults ++ all) where
  located := List.forall_mem_append.mpr ⟨h.located, h'.located⟩
  behind := by
    refine List.forall_mem_append.mpr ⟨h.behind, ?_⟩
    intro item hitem
    obtain ⟨line, hline, hle⟩ := h'.behind item hitem
    exact ⟨line, hmid.subset hline, hle⟩
  before := by
    refine List.forall_mem_append.mpr ⟨?_, h'.before⟩
    exact fun item hitem line hline => h.before item hitem line (hrest.subset hline)
  ordered := by
    refine List.pairwise_append.mpr ⟨h.ordered, h'.ordered, ?_⟩
    intro a ha b hb
    obtain ⟨line, hline, hle⟩ := h'.behind b hb
    exact Nat.le_trans (Nat.le_of_lt (h.before a ha line hline)) hle
  calm := by
    intro haligned
    obtain ⟨halignedFirst, halignedRest⟩ := List.forall_mem_append.mp haligned
    obtain ⟨hchained, hfaults⟩ := h.calm halignedFirst
    obtain ⟨hchained', hfaults'⟩ := h'.calm halignedRest
    refine ⟨List.forall_mem_append.mpr ⟨hchained, hchained'⟩, List.forall_mem_append.mpr ⟨?_, ?_⟩⟩
    · exact faults_subset hfaults (List.subset_append_left _ _) (List.subset_append_left _ _)
    · exact faults_subset hfaults' (List.subset_append_right _ _) (List.subset_append_right _ _)

/-- The lines that are read may start further up, or more of them may be used up. -/
theorem widen {lines' rest' : List Line} (h : Run source lines rest items faults)
    (hlines : ∀ line ∈ lines, ∃ line' ∈ lines', line'.start ≤ line.start) (hrest : rest' <:+ rest) :
    Run source lines' rest' items faults where
  located := h.located
  behind := by
    intro item hitem
    obtain ⟨line, hline, hle⟩ := h.behind item hitem
    obtain ⟨line', hline', hle'⟩ := hlines line hline
    exact ⟨line', hline', Nat.le_trans hle' hle⟩
  before := fun item hitem line hline => h.before item hitem line (hrest.subset hline)
  ordered := h.ordered
  calm := h.calm

/-- An item at the start of the first line, with the faults of its own. -/
theorem cons (h : Run source (line :: lines) rest items faults)
    (hstart : item.span.start = line.start) (hlocated : item.Located source)
    (hlines : ∀ other ∈ lines, line.start ≤ other.start)
    (hrest : ∀ other ∈ rest, line.start < other.start)
    (hcalm : (∀ f ∈ all, f.Aligned source) → item.Chained source ∧ ∀ f ∈ all, f.span.Sound source) :
    Run source (line :: lines) rest (item :: items) (all ++ faults) where
  located := List.forall_mem_cons.mpr ⟨hlocated, h.located⟩
  behind := List.forall_mem_cons.mpr ⟨⟨line, List.mem_cons_self, Nat.le_of_eq hstart.symm⟩, h.behind⟩
  before := by
    refine List.forall_mem_cons.mpr ⟨?_, h.before⟩
    rw [hstart]
    exact hrest
  ordered := by
    refine List.pairwise_cons.mpr ⟨?_, h.ordered⟩
    intro other hother
    obtain ⟨first, hfirst, hle⟩ := h.behind other hother
    rcases List.mem_cons.mp hfirst with rfl | hfirst
    · rw [hstart]
      exact hle
    · rw [hstart]
      exact Nat.le_trans (hlines first hfirst) hle
  calm := by
    intro haligned
    obtain ⟨halignedOwn, halignedRest⟩ := List.forall_mem_append.mp haligned
    obtain ⟨hchained, hfaults⟩ := hcalm halignedOwn
    obtain ⟨hchained', hfaults'⟩ := h.calm halignedRest
    refine ⟨List.forall_mem_cons.mpr ⟨hchained, hchained'⟩, List.forall_mem_append.mpr ⟨?_, ?_⟩⟩
    · exact fun f hf => .inl (hfaults f hf)
    · exact faults_subset hfaults' (List.subset_cons_self _ _) (List.subset_append_right _ _)

/-- A plain item at the start of the first line. -/
theorem consPlain {s : Span} (h : Run source (line :: lines) rest items faults)
    (hs : s.Sound source) (hstart : s.start = line.start)
    (hlines : ∀ other ∈ lines, line.start < other.start) (hrest : rest <:+ lines) :
    Run source (line :: lines) rest (.plain s :: items) faults := by
  have hcalm : (∀ f ∈ ([] : List Fault), f.Aligned source) →
      (Item.plain s).Chained source ∧ ∀ f ∈ ([] : List Fault), f.span.Sound source :=
    fun _ => ⟨Item.chained_plain source s, fun _ h => (nomatch h)⟩
  exact h.cons hstart (Item.located_plain hs) (fun other hother => Nat.le_of_lt (hlines other hother))
    (fun other hother => hlines other (hrest.subset hother)) hcalm

/-- An item at the start of the first line. -/
theorem single (hstart : item.span.start = line.start) (hlocated : item.Located source)
    (hlines : ∀ other ∈ lines, line.start ≤ other.start)
    (hrest : ∀ other ∈ rest, line.start < other.start)
    (hcalm : (∀ f ∈ all, f.Aligned source) → item.Chained source ∧ ∀ f ∈ all, f.span.Sound source) :
    Run source (line :: lines) rest [item] all := by
  have hnone : Run source (line :: lines) rest [] [] := nil
  have h := hnone.cons hstart hlocated hlines hrest hcalm
  rwa [List.append_nil] at h

end Run

/-! ## Attributes and spreads -/

/-- What the head of a tag or a mixin call gives between two offsets: attributes that follow one
another and spreads that do, with faults at sound spans. -/
structure Parts (source : List Char) (lo hi : Nat) (attributes spreads : List Span)
    (faults : List Fault) : Prop where
  spreads : Chain source lo hi spreads
  attributes : (∀ f ∈ faults, f.Aligned source) →
    Chain source lo hi attributes ∧ ∀ f ∈ faults, f.span.Sound source

namespace Parts

variable {source : List Char} {lo mid hi : Nat} {a b s t : List Span} {f g : List Fault}

theorem nil : Parts source lo hi [] [] [] :=
  ⟨.nil, fun _ => ⟨.nil, fun _ h => (nomatch h)⟩⟩

theorem mono {lo' hi' : Nat} (h : Parts source lo hi a s f) (hlo : lo' ≤ lo) (hhi : hi ≤ hi') :
    Parts source lo' hi' a s f :=
  ⟨h.spreads.mono hlo hhi,
    fun haligned => ⟨(h.attributes haligned).1.mono hlo hhi, (h.attributes haligned).2⟩⟩

theorem append (h : Parts source lo mid a s f) (h' : Parts source mid hi b t g) (hlo : lo ≤ mid)
    (hhi : mid ≤ hi) : Parts source lo hi (a ++ b) (s ++ t) (f ++ g) := by
  refine ⟨h.spreads.append h'.spreads hlo hhi, ?_⟩
  intro haligned
  obtain ⟨hfirst, hrest⟩ := List.forall_mem_append.mp haligned
  obtain ⟨hchain, hfaults⟩ := h.attributes hfirst
  obtain ⟨hchain', hfaults'⟩ := h'.attributes hrest
  exact ⟨hchain.append hchain' hlo hhi, List.forall_mem_append.mpr ⟨hfaults, hfaults'⟩⟩

/-- An attribute in front of the others. -/
theorem cons {p : Span} (h : Parts source mid hi a s f) (hp : p.Sound source) (hlt : p.start < p.stop)
    (hlo : lo ≤ p.start) (hmid : p.stop ≤ mid) (hhi : mid ≤ hi) : Parts source lo hi (p :: a) s f := by
  refine ⟨h.spreads.mono (by omega) (Nat.le_refl _), ?_⟩
  intro haligned
  obtain ⟨hchain, hfaults⟩ := h.attributes haligned
  exact ⟨(Chain.single hp hlt hlo hmid).append hchain (by omega) hhi, hfaults⟩

theorem ofFault {fault : Fault} (h : fault.span.Sound source) : Parts source lo hi [] [] [fault] :=
  ⟨.nil, fun _ => ⟨.nil, by simpa using h⟩⟩

end Parts

variable {p : Place}

theorem unclosedGroup_sound {source : List Char} (h : p.In source) :
    (unclosedGroup p).span.Sound source :=
  Span.sound_between h.boundary h.lineStop p.offset_le_lineStop

section

variable {source : List Char}

/-- The text in parentheses stands behind the opening one. -/
theorem parenthesised?_within {after : Place} {lines rest : List Line} {inner : List Char}
    (hp : p.In source) (h : parenthesised? p lines = some (inner, after, rest)) :
    (⟨p.offset + 1, inner⟩ : Place).Within source := by
  obtain ⟨opener, closer, hopen, htext⟩ := group?_eq_some (parenthesised?_eq_some h).1
  have hbehind : p.skip [opener] = ⟨p.offset + 1, inner ++ closer :: after.text⟩ := by
    simp [Place.skip, htext, byteLength, (closerOf?_utf8Size hopen).1]
  have hfront : [opener] <+: p.text := ⟨inner ++ closer :: after.text, htext.symm⟩
  have hskip := hp.within.skip hfront
  rw [hbehind] at hskip
  exact hskip.take (List.prefix_append _ _)

theorem attributeGroup?_parts {lines : List Line} {g : Groups} (hp : p.In source)
    (h : attributeGroup? p lines = some g) :
    Parts source p.offset g.place.offset (g.attributes.map Attribute.span) (g.spreads.map Spread.span)
      g.faults := by
  have hreach := Place.Reaches.attributeGroup h
  unfold attributeGroup? at h
  split at h
  · split at h
    · cases h
      exact .ofFault (unclosedGroup_sound hp)
    · rename_i inner after rest hgroup
      cases h
      refine ⟨.nil, ?_⟩
      intro haligned
      obtain ⟨hchain, hfaults⟩ := attributeList_read (parenthesised?_within hp hgroup) haligned
      have hoffset := (parenthesised?_eq_some hgroup).2.1
      have hinside : p.offset + 1 + byteLength inner ≤ after.offset := by omega
      exact ⟨hchain.mono (Nat.le_add_right _ _) hinside, hfaults⟩
  · split at h
    · rename_i hlead
      have hstart := hp.skip (Place.inText (spreadLead_isPrefix hlead))
      simp only at h
      split at h
      · cases h
        exact .ofFault (unclosedGroup_sound hstart)
      · rename_i inner after rest hgroup
        cases h
        have hoffset := (parenthesised?_eq_some hgroup).2.1
        have hskip : p.offset ≤ (p.skip spreadLead).offset := Nat.le_add_right _ _
        have hle : p.offset < after.offset := by omega
        have hstop := Span.between_stop (Nat.le_of_lt hle)
        refine ⟨.single ?_ ?_ (Nat.le_refl _) (Nat.le_of_eq hstop), fun _ => ⟨.nil, fun _ h => (nomatch h)⟩⟩
        · exact Span.sound_between hp.boundary (hreach.placeIn hp).boundary (Nat.le_of_lt hle)
        · rw [hstop]
          exact hle
    · cases h

theorem attributeGroups_parts (n : Nat) (lines : List Line) (hp : p.In source) :
    Parts source p.offset (attributeGroups n p lines).place.offset
      ((attributeGroups n p lines).attributes.map Attribute.span)
      ((attributeGroups n p lines).spreads.map Spread.span) (attributeGroups n p lines).faults := by
  induction n generalizing p lines with
  | zero => exact .nil
  | succ n ih =>
    unfold attributeGroups
    split
    · exact .nil
    · rename_i g hg
      have hreach := Place.Reaches.attributeGroup hg
      have hgroup := attributeGroup?_parts hp hg
      split
      · have hmore := ih g.lines (hreach.placeIn hp)
        simp only [List.map_append]
        exact hgroup.append hmore hreach.offset_le (Place.Reaches.attributeGroups n _ _).offset_le
      · exact hgroup

/-- The span of a part. -/
def TagPart.span : TagPart → Span
  | .className _ s => s
  | .attribute a => a.span

/-- A class or an id is one more part in front of those behind it. -/
theorem Parts.named {sign : Char} {after : List Char} (hp : p.In source)
    (hline : p.line = sign :: after) {hi : Nat} {a s : List Span} {f : List Fault}
    (h : Parts source (p.skip (sign :: nameAtFront after)).offset hi a s f)
    (hhi : (p.skip (sign :: nameAtFront after)).offset ≤ hi) :
    Parts source p.offset hi
      (Span.between p.offset (p.skip (sign :: nameAtFront after)).offset :: a) s f := by
  have hnext := hp.skip (Place.inText (named_isPrefix hline))
  have hlt : p.offset < (p.skip (sign :: nameAtFront after)).offset :=
    Nat.lt_add_of_pos_right (byteLength_pos (List.cons_ne_nil _ _))
  have hstop := Span.between_stop (Nat.le_of_lt hlt)
  refine h.cons ?_ ?_ (Nat.le_refl _) (Nat.le_of_eq hstop) hhi
  · exact Span.sound_between hp.boundary hnext.boundary (Nat.le_of_lt hlt)
  · rw [hstop]
    exact hlt

/-- The parts of the head of a tag follow one another. -/
theorem tagHead_parts (n : Nat) (lines : List Line) (hp : p.In source) :
    Parts source p.offset (tagHead n p lines).place.offset ((tagHead n p lines).parts.map TagPart.span)
      ((tagHead n p lines).spreads.map Spread.span) (tagHead n p lines).faults := by
  fun_induction tagHead n p lines with
  | case1 | case2 | case3 | case5 | case7 | case8 => exact .nil
  | case4 n p lines after hline _ _ ih | case6 n p lines after hline _ _ ih =>
    exact .named hp hline (ih (hp.skip (Place.inText (named_isPrefix hline))))
      (Place.Reaches.tagHead _ _ _).offset_le
  | case9 n p lines g hg more _ _ _ ih =>
    have hreach := Place.Reaches.attributeGroup hg
    have hgroup := attributeGroup?_parts hp hg
    have hspans : (g.attributes.map TagPart.attribute).map TagPart.span =
        g.attributes.map Attribute.span := by
      rw [List.map_map]
      rfl
    have hmore : Parts source g.place.offset more.place.offset (more.parts.map TagPart.span)
        (more.spreads.map Spread.span) more.faults ∧ g.place.offset ≤ more.place.offset := by
      unfold more
      split
      · exact ⟨ih (hreach.placeIn hp), (Place.Reaches.tagHead _ _ _).offset_le⟩
      · exact ⟨.nil, Nat.le_refl _⟩
    simp only [List.map_append, hspans]
    exact hgroup.append hmore.1 hreach.offset_le hmore.2

theorem plainAttributes_spans (parts : List TagPart) :
    ((plainAttributes parts).map Attribute.span).Sublist (parts.map TagPart.span) := by
  induction parts with
  | nil => exact .slnil
  | cons part parts ih =>
    rcases part with ⟨name, s⟩ | a
    · exact ih.cons s
    · exact ih.cons_cons a.span

/-- The attributes of a tag are some of the parts of its head, in their order. -/
theorem tagAttributes_spans (classes : List String) (parts : List TagPart) :
    ((tagAttributes classes parts).map Attribute.span).Sublist (parts.map TagPart.span) := by
  induction parts with
  | nil => exact .slnil
  | cons part parts ih =>
    rcases part with ⟨name, s⟩ | a
    · exact (plainAttributes_spans parts).cons_cons s
    · exact ih.cons_cons a.span

/-! ## Pieces of a line -/

/-- A text, or a script that is written as the given characters. -/
inductive Node.IsWritten (written : List Char) : Node → Prop
  | text (value : String) (s : Span) : Node.IsWritten written (.text value s)
  | code {value : String} {kind : CodeKind} (s : Span) (h : Writes kind value written) :
    Node.IsWritten written (.code value kind [] s)

variable {node : Node} {written : List Char}

theorem Node.IsPiece.isWritten (h : node.IsPiece written) : node.IsWritten written := by
  cases h with
  | text value s => exact .text value s
  | code s hinterpolates => exact .code s (.interpolation hinterpolates)

/-- Texts and scripts that stand in the source between two offsets, in order, with faults at sound
spans. -/
structure PiecesIn (source : List Char) (lo hi : Nat) (nodes : List Node) (faults : List Fault) :
    Prop where
  written : ∀ node ∈ nodes, ∃ written, node.IsWritten written ∧ node.span.Holds source written ∧
    lo ≤ node.span.start ∧ node.span.stop ≤ hi
  ordered : nodes.Pairwise fun a b => a.span.start ≤ b.span.start
  sound : ∀ f ∈ faults, f.span.Sound source

theorem Cut.piecesIn {start : Nat} {text : List Char} {r : List Node × List Fault}
    (h : Cut start text r) (hin : (⟨start, text⟩ : Place).Within source) :
    PiecesIn source start (start + byteLength text) r.1 r.2 where
  written := by
    intro node hnode
    obtain ⟨written, hpiece, hcut⟩ := h.nodes node hnode
    exact ⟨written, hpiece.isWritten, hcut.holds hin, hcut.start_le, hcut.stop_le⟩
  ordered := h.ordered
  sound := by
    intro f hf
    obtain ⟨written, hcut⟩ := h.faults f hf
    exact (hcut.holds hin).sound

theorem PiecesIn.ofFault {lo hi : Nat} {f : Fault} (h : f.span.Sound source) :
    PiecesIn source lo hi [] [f] :=
  ⟨fun _ h => (nomatch h), .nil, by simpa using h⟩

theorem PiecesIn.nil {lo hi : Nat} : PiecesIn source lo hi [] [] :=
  ⟨fun _ h => (nomatch h), .nil, fun _ h => (nomatch h)⟩

theorem PiecesIn.single {lo hi : Nat} (hpiece : node.IsWritten written)
    (hholds : node.span.Holds source written) (hlo : lo ≤ node.span.start)
    (hhi : node.span.stop ≤ hi) : PiecesIn source lo hi [node] [] :=
  ⟨by simpa using ⟨written, hpiece, hholds, hlo, hhi⟩, List.pairwise_singleton _ _,
    fun _ h => (nomatch h)⟩

theorem PiecesIn.mono {lo hi lo' hi' : Nat} {faults : List Fault}
    (h : PiecesIn source lo hi nodes faults) (hlo : lo' ≤ lo) (hhi : hi ≤ hi') :
    PiecesIn source lo' hi' nodes faults where
  written := by
    intro node hnode
    obtain ⟨written, hpiece, hholds, hstart, hstop⟩ := h.written node hnode
    exact ⟨written, hpiece, hholds, by omega, by omega⟩
  ordered := h.ordered
  sound := h.sound

/-- A text or a script is one item, which stands where it is written. -/
theorem Node.IsWritten.item (h : node.IsWritten written) (hholds : node.span.Holds source written) :
    node.itemsBelow source = [] ∧ (node.own source).span = node.span ∧
      (node.own source).Located source ∧ (node.own source).Chained source := by
  cases h with
  | text value s => exact ⟨rfl, rfl, Item.located_plain hholds.sound, Item.chained_plain source s⟩
  | @code value kind s hwrites =>
    have hscript : (⟨s, [], [], some (kind, value), []⟩ : Item).Located source := by
      refine ⟨hholds.sound, ?_, .inl rfl⟩
      rintro _ _ ⟨⟩
      exact ⟨written, hwrites, hholds⟩
    have hown : (Node.code value kind [] s).own source = ⟨s, [], [], some (kind, value), []⟩ := by
      cases hwrites with
      | interpolation h => cases h <;> rfl
      | equals | bangEquals => rfl
    rw [hown]
    exact ⟨rfl, rfl, hscript, .nil, .nil⟩

theorem PiecesIn.items {lo hi : Nat} {faults : List Fault} (h : PiecesIn source lo hi nodes faults) :
    itemsOf source nodes = nodes.map (Node.own source) := by
  have hnone : ∀ node ∈ nodes, node.itemsBelow source = [] := by
    intro node hnode
    obtain ⟨written, hpiece, hholds, -⟩ := h.written node hnode
    exact (hpiece.item hholds).1
  clear h
  induction nodes with
  | nil => rfl
  | cons node rest ih =>
    obtain ⟨hfirst, hrest⟩ := List.forall_mem_cons.mp hnone
    rw [itemsOf, hfirst, ih hrest]
    rfl

/-- Pieces of a line come behind its start and before the lines that are left. -/
theorem PiecesIn.run {lo hi : Nat} {faults : List Fault} (h : PiecesIn source lo hi nodes faults)
    {lines rest : List Line} (hlo : line.start ≤ lo) (hhi : ∀ other ∈ rest, hi < other.start) :
    Run source (line :: lines) rest (itemsOf source nodes) faults := by
  rw [h.items]
  have hitem : ∀ item ∈ nodes.map (Node.own source), item.Located source ∧ item.Chained source ∧
      lo ≤ item.span.start ∧ item.span.start ≤ hi := by
    intro item hitem
    obtain ⟨node, hnode, rfl⟩ := List.mem_map.mp hitem
    obtain ⟨written, hpiece, hholds, hstart, hstop⟩ := h.written node hnode
    obtain ⟨-, hspan, hlocated, hchained⟩ := hpiece.item hholds
    have hordered := hholds.sound.ordered
    rw [hspan]
    exact ⟨hlocated, hchained, hstart, Nat.le_trans hordered hstop⟩
  refine ⟨fun item hi => (hitem item hi).1, ?_, ?_, ?_, ?_⟩
  · intro item hmem
    exact ⟨line, List.mem_cons_self, Nat.le_trans hlo (hitem item hmem).2.2.1⟩
  · intro item hmem other hother
    exact Nat.lt_of_le_of_lt (hitem item hmem).2.2.2 (hhi other hother)
  · refine List.pairwise_map.mpr (h.ordered.imp_of_mem ?_)
    intro a b ha hb hle
    have hspan : ∀ node ∈ nodes, (node.own source).span = node.span := by
      intro node hnode
      obtain ⟨written, hpiece, hholds, -⟩ := h.written node hnode
      exact (hpiece.item hholds).2.1
    rw [hspan a ha, hspan b hb]
    exact hle
  · exact fun _ => ⟨fun item hi => (hitem item hi).2.1, fun f hf => .inl (h.sound f hf)⟩

end

end PugComponents.Template

import PugComponents.Proofs.Template.OffSide
import PugComponents.Proofs.Template.RespacedLines
import PugComponents.Proofs.Template.WrittenAttributes

/- Tags as they are written: a name, then classes, ids, attribute lists and
   spreads in any order. The head of such a tag is read back segment by segment;
   a group may run over several lines, and the lines it covers are used up
   (`tagHead_written`). So a source that is one such tag is parsed to that tag. -/
namespace PugComponents.Template

open Text

/-! ## Segments -/

/-- A part of a tag behind its name. -/
inductive Segment
  | className (name : List Char)
  | idName (name : List Char)
  | attributes (list : List AttributeContent)
  | spread (expression : List Char)

/-- One character of the class `first`, then characters of the class `next`. -/
def isWordOf (first next : Char → Bool) : List Char → Bool
  | [] => false
  | c :: cs => first c && cs.all next

/-- The name of a tag. -/
def isTagName (name : List Char) : Bool := isWordOf Char.isAlpha Marker.isNamePart name

/-- The name of a class or an id. -/
def isName (name : List Char) : Bool := isWordOf Marker.isNameStart Marker.isNamePart name

/-- A segment, and how it is written. -/
inductive WrittenSegment : List Char → Segment → Prop
  | className {name : List Char} (hname : isName name = true) :
      WrittenSegment ('.' :: name) (.className name)
  | idName {name : List Char} (hname : isName name = true) :
      WrittenSegment ('#' :: name) (.idName name)
  | attributes {lead text : List Char} {list : List AttributeContent} (hlead : isGap lead = true)
      (hlist : WrittenList text list) :
      WrittenSegment ('(' :: (lead ++ text ++ [')'])) (.attributes list)
  | spread {inner : List Char} (hinner : Balanced inner) :
      WrittenSegment (spreadLead ++ '(' :: (inner ++ [')'])) (.spread (trim inner))

namespace Segment

def className? : Segment → Option String
  | className name => some (String.ofList name)
  | _ => none

def spread? : Segment → Option String
  | spread expression => some (String.ofList expression)
  | _ => none

/-- The attributes of a segment that is no class. -/
def contents : Segment → List AttributeContent
  | idName name => [⟨"id", .expression ("'" ++ String.ofList name ++ "'"), true⟩]
  | attributes list => list
  | className _ | spread _ => []

end Segment

/-- The attribute of all class names together. -/
def classContent (classes : List String) : AttributeContent :=
  ⟨"class", .expression ("'" ++ joinWith " " classes ++ "'"), true⟩

/-- The attributes of a tag, in the order of its segments. The classes are one attribute, at the
place of the first of them. -/
def tagContents (classes : List String) : List Segment → List AttributeContent
  | [] => []
  | .className _ :: rest => classContent classes :: rest.flatMap Segment.contents
  | segment :: rest => segment.contents ++ tagContents classes rest

/-! ## Names -/

/-- The first character of a text, if there is one, belongs to no name. -/
def endsName (text : List Char) : Bool := text.head?.all (!Marker.isNamePart ·)

variable {cs rest : List Char}

theorem takeWhile_namePart (hcs : cs.all Marker.isNamePart = true) (hrest : endsName rest = true) :
    (cs ++ rest).takeWhile Marker.isNamePart = cs := by
  have hnone : rest.takeWhile Marker.isNamePart = [] := by
    cases rest with
    | nil => rfl
    | cons c rest => exact List.takeWhile_cons_of_neg (by simpa [endsName] using hrest)
  rw [List.takeWhile_append_of_pos (List.all_eq_true.mp hcs), hnone, List.append_nil]

theorem eq_cons_of_isWordOf {first next : Char → Bool} {word : List Char}
    (h : isWordOf first next word = true) :
    ∃ c cs, word = c :: cs ∧ first c = true ∧ cs.all next = true := by
  cases word with
  | nil => cases h
  | cons c cs => exact ⟨c, cs, rfl, Bool.and_eq_true_iff.mp h⟩

variable {name : List Char}

/-- A name is read back if what follows it belongs to no name. -/
theorem nameAtFront_append (hname : isName name = true) (hrest : endsName rest = true) :
    nameAtFront (name ++ rest) = name := by
  obtain ⟨c, cs, rfl, hc, hcs⟩ := eq_cons_of_isWordOf hname
  rw [nameAtFront, List.cons_append, Marker.nameLength, if_pos hc, takeWhile_namePart hcs hrest,
    Nat.add_comm, List.take_succ_cons, List.take_left]

/-- A character that is no part of a line ending. -/
def isInk (c : Char) : Bool := c != '\n' && c != '\r'

variable {c : Char}

theorem isInk_of_isNamePart (h : Marker.isNamePart c = true) : isInk c = true := by
  simp only [isInk, Bool.and_eq_true, bne_iff_ne, ne_eq]
  constructor <;> rintro rfl <;> exact absurd h (by decide)

theorem isNamePart_of_isNameStart (c : Char) (h : Marker.isNameStart c = true) :
    Marker.isNamePart c = true := by
  simp only [Marker.isNameStart, Bool.or_eq_true] at h
  simp only [Marker.isNamePart, Char.isAlphanum, Bool.or_eq_true]
  rcases h with (h | h) | h <;> simp [h]

theorem lineContent_append (front : List Char) (h : front.all isInk = true) (rest : List Char) :
    lineContent (front ++ rest) = front ++ lineContent rest := by
  induction front with
  | nil => rfl
  | cons c front ih =>
    obtain ⟨hc, hfront⟩ : isInk c = true ∧ front.all isInk = true := by simpa using h
    simp only [isInk, Bool.and_eq_true, bne_iff_ne, ne_eq] at hc
    rw [List.cons_append, lineContent_cons hc.1 hc.2, ih hfront, List.cons_append]

theorem all_isInk_of_isWordOf {first : Char → Bool}
    (hfirst : ∀ c, first c = true → Marker.isNamePart c = true)
    (h : isWordOf first Marker.isNamePart name = true) : name.all isInk = true := by
  obtain ⟨c, cs, rfl, hc, hcs⟩ := eq_cons_of_isWordOf h
  rw [List.all_cons, isInk_of_isNamePart (hfirst c hc), Bool.true_and, List.all_eq_true]
  exact fun d hd => isInk_of_isNamePart (List.all_eq_true.mp hcs d hd)

variable {text : List Char} {segment : Segment}

/-- A segment starts with a sign that belongs to no name. -/
theorem WrittenSegment.head (h : WrittenSegment text segment) :
    ∃ c cs, text = c :: cs ∧ (c = '.' ∨ c = '#' ∨ c = '(' ∨ c = '&') := by
  cases h with
  | className _ => exact ⟨_, _, rfl, .inl rfl⟩
  | idName _ => exact ⟨_, _, rfl, .inr (.inl rfl)⟩
  | attributes _ _ => exact ⟨_, _, rfl, .inr (.inr (.inl rfl))⟩
  | spread _ => exact ⟨_, _, rfl, .inr (.inr (.inr rfl))⟩

variable {texts : List (List Char)}

theorem head_segments {segments : List Segment} (h : List.Forall₂ WrittenSegment texts segments) :
    ∀ c ∈ texts.flatten.head?, c = '.' ∨ c = '#' ∨ c = '(' ∨ c = '&' := by
  cases h with
  | nil => exact fun c hc => by cases hc
  | cons htext _ =>
    obtain ⟨c, cs, rfl, hc⟩ := htext.head
    intro d hd
    cases hd
    exact hc

theorem endsName_segments {segments : List Segment} (h : List.Forall₂ WrittenSegment texts segments) :
    endsName (lineContent texts.flatten) = true := by
  rw [endsName, Option.all_eq_true]
  intro c hc
  obtain ⟨rest, hrest⟩ := lineContent_isPrefix texts.flatten
  have hhead : texts.flatten.head? = some c := by
    rw [← hrest, List.head?_append, hc]
    rfl
  rcases head_segments h c hhead with rfl | rfl | rfl | rfl <;> decide

/-! ## Reading the segments -/

/-- The head of a tag gives what the segments say, and nothing is left behind it. -/
structure HeadRead (head : TagHead) (segments : List Segment) : Prop where
  ending : head.ending = .plain
  faults : head.faults = []
  place : head.place.text = []
  lines : head.lines = []
  classes : classNames head.parts = segments.filterMap Segment.className?
  plain : (plainAttributes head.parts).map Attribute.content = segments.flatMap Segment.contents
  attributes : ∀ classes, (tagAttributes classes head.parts).map Attribute.content =
    tagContents classes segments
  spreads : head.spreads.map Spread.value = segments.filterMap Segment.spread?

variable {p : Place}

theorem HeadRead.ended (hp : p.text = []) : HeadRead (.ended .plain p []) [] :=
  ⟨rfl, rfl, hp, rfl, rfl, rfl, fun _ => rfl, rfl⟩

namespace HeadRead

variable {head : TagHead} {segments : List Segment}

theorem consClass (h : HeadRead head segments) (name : List Char) (span : Span) :
    HeadRead (head.consPart (.className (String.ofList name) span)) (.className name :: segments) where
  ending := h.ending
  faults := h.faults
  place := h.place
  lines := h.lines
  classes := congrArg (String.ofList name :: ·) h.classes
  plain := h.plain
  attributes classes := congrArg (classContent classes :: ·) h.plain
  spreads := h.spreads

theorem consId (h : HeadRead head segments) (name : List Char) (span : Span) :
    HeadRead (head.consPart (.attribute
      ⟨"id", .expression ("'" ++ String.ofList name ++ "'"), true, span⟩)) (.idName name :: segments) where
  ending := h.ending
  faults := h.faults
  place := h.place
  lines := h.lines
  classes := h.classes
  plain := congrArg (_ :: ·) h.plain
  attributes classes := congrArg (_ :: ·) (h.attributes classes)
  spreads := h.spreads

theorem classNames_attributes (attributes : List Attribute) (parts : List TagPart) :
    classNames (attributes.map .attribute ++ parts) = classNames parts := by
  simp [classNames, List.filterMap_map]

theorem plainAttributes_attributes (attributes : List Attribute) (parts : List TagPart) :
    plainAttributes (attributes.map .attribute ++ parts) = attributes ++ plainAttributes parts := by
  simp [plainAttributes, List.filterMap_map]

theorem tagAttributes_attributes (classes : List String) (attributes : List Attribute)
    (parts : List TagPart) :
    tagAttributes classes (attributes.map .attribute ++ parts) =
      attributes ++ tagAttributes classes parts := by
  induction attributes with
  | nil => rfl
  | cons a attributes ih => exact congrArg (a :: ·) ih

/-- A group without faults puts its attributes and spreads in front. -/
theorem before (h : HeadRead head segments) {g : Groups} (hfaults : g.faults = [])
    (hclass : segment.className? = none)
    (hattributes : g.attributes.map Attribute.content = segment.contents)
    (hspreads : g.spreads.map Spread.value = segment.spread?.toList) :
    HeadRead (g.before head) (segment :: segments) where
  ending := h.ending
  faults := by simp [Groups.before, hfaults, h.faults]
  place := h.place
  lines := h.lines
  classes := by
    rw [List.filterMap_cons_none hclass, ← h.classes]
    exact classNames_attributes _ _
  plain := by
    rw [List.flatMap_cons, ← hattributes, ← h.plain, ← List.map_append]
    exact congrArg _ (plainAttributes_attributes _ _)
  attributes classes := by
    have hcontents : tagContents classes (segment :: segments) =
        segment.contents ++ tagContents classes segments := by
      cases segment with
      | className => cases hclass
      | _ => rfl
    rw [hcontents, ← hattributes, ← h.attributes classes, ← List.map_append]
    exact congrArg _ (tagAttributes_attributes _ _ _)
  spreads := by
    have hsplit : (segment :: segments).filterMap Segment.spread? =
        segment.spread?.toList ++ segments.filterMap Segment.spread? := by
      cases hspread : segment.spread? with
      | none => rw [List.filterMap_cons_none hspread]; rfl
      | some value => rw [List.filterMap_cons_some hspread]; rfl
    rw [hsplit, ← hspreads, ← h.spreads, ← List.map_append]
    rfl

end HeadRead

/-- An attribute list or a spread that is written is a group without faults. -/
structure GroupRead (p : Place) (lines : List Line) (segment : Segment) (rest : List Char)
    (g : Groups) : Prop where
  group : attributeGroup? p lines = some g
  closed : g.closed = true
  faults : g.faults = []
  place : g.place.text = rest
  attributes : g.attributes.map Attribute.content = segment.contents
  spreads : g.spreads.map Spread.value = segment.spread?.toList

theorem startsWith_append (front rest : List Char) : startsWith (front ++ rest) front = true := by
  rw [startsWith, dropPrefix?_append]
  rfl

/-- Parentheses around balanced text are read as a group. -/
theorem parenthesised?_balanced {inner : List Char} (hinner : Balanced inner)
    (hp : p.text = '(' :: (inner ++ ')' :: rest)) (lines : List Line) :
    ∃ after left, after.text = rest ∧ parenthesised? p lines = some (inner, after, left) := by
  have hgroup := group?_balanced (show closerOf? '(' = some ')' from rfl) hinner rest
  exact ⟨_, _, rfl, by rw [parenthesised?_eq, hp, hgroup]; rfl⟩

theorem groupRead_attributes {lead : List Char} {list : List AttributeContent}
    (hlead : isGap lead = true) (hlist : WrittenList text list)
    (hp : p.text = '(' :: (lead ++ text ++ ')' :: rest)) (lines : List Line) :
    ∃ g, GroupRead p lines (.attributes list) rest g := by
  have hline : p.line = ['('] ++ lineContent (lead ++ text ++ ')' :: rest) := by
    rw [Place.line, hp]
    exact lineContent_append ['('] rfl _
  obtain ⟨after, left, hafter, hgroup⟩ :=
    parenthesised?_balanced ((balanced_of_isGap hlead).append hlist.balanced) hp lines
  obtain ⟨hattributes, hfaults⟩ := attributeList_written hlead hlist (p.offset + 1)
  let read := attributeList (lead ++ text) (p.offset + 1)
  refine ⟨⟨read.1, [], read.2, after, left, true⟩, ?_, rfl, hfaults, hafter, hattributes, rfl⟩
  rw [attributeGroup?, hline, startsWith_append, if_pos rfl, hgroup]

theorem groupRead_spread {inner : List Char} (hinner : Balanced inner)
    (hp : p.text = spreadLead ++ '(' :: (inner ++ ')' :: rest)) (lines : List Line) :
    ∃ g, GroupRead p lines (.spread (trim inner)) rest g := by
  have hline : p.line = spreadLead ++ ['('] ++ lineContent (inner ++ ')' :: rest) := by
    rw [Place.line, hp]
    exact lineContent_append (spreadLead ++ ['(']) rfl _
  obtain ⟨after, left, hafter, hgroup⟩ := parenthesised?_balanced hinner (Place.skip_text hp) lines
  have hlist : startsWith p.line ['('] = false := by
    rw [hline]
    rfl
  have hspread : startsWith p.line (spreadLead ++ ['(']) = true := by
    rw [hline]
    exact startsWith_append _ _
  let spread : Spread := ⟨String.ofList (trim inner), Span.between p.offset after.offset⟩
  refine ⟨⟨[], [spread], [], after, left, true⟩, ?_, rfl, rfl, hafter, rfl, rfl⟩
  simp only [attributeGroup?, hlist, hspread, Bool.false_eq_true, if_false, if_true, hgroup]
  rfl

variable {lines : List Line}

/-- A group is read, and then the rest of the head. -/
theorem tagHead_groupRead {g : Groups} (h : GroupRead p lines segment rest g)
    (hline : p.line = c :: cs) (hc : c = '(' ∨ c = '&') (n : Nat) :
    tagHead (n + 1) p lines = g.before (tagHead n g.place g.lines) := by
  have hne : ∀ d, d ≠ '(' → d ≠ '&' → ∀ after, p.line ≠ d :: after := by
    intro d hparen hamp after heq
    rw [hline] at heq
    obtain ⟨rfl, -⟩ := List.cons.inj heq
    exact hc.elim hparen hamp
  rw [tagHead_group (hne '.' (by decide) (by decide)) (hne '#' (by decide) (by decide))
    (hne '/' (by decide) (by decide)), h.group]
  simp only [h.closed, if_true]

/-- A name behind a sign is read back. -/
theorem nameAtFront_signed {sign : Char} (hsign : isInk sign = true) (hname : isName name = true)
    (hp : p.text = sign :: name ++ rest) (hrest : endsName (lineContent rest) = true) :
    ∃ after, p.line = sign :: after ∧ nameAtFront after = name ∧ name ≠ [] := by
  refine ⟨name ++ lineContent rest, ?_, nameAtFront_append hname hrest, ?_⟩
  · rw [Place.line, hp]
    have hink : name.all isInk = true := all_isInk_of_isWordOf isNamePart_of_isNameStart hname
    exact lineContent_append (sign :: name) (by simp [hsign, hink]) rest
  · rintro rfl
    cases hname

/-- The head of a tag is read back segment by segment. -/
theorem tagHead_written {segments : List Segment} (h : List.Forall₂ WrittenSegment texts segments)
    (hp : p.text = texts.flatten) (hlines : p.LinesAfter lines) {n : Nat} (hn : p.text.length < n) :
    HeadRead (tagHead n p lines) segments := by
  induction h generalizing p lines n with
  | nil =>
    have hnil : p.text = [] := hp
    obtain ⟨count, rfl⟩ := hlines
    have hline : p.line = [] := by rw [Place.line, hnil]; rfl
    rw [tagHead_of_line_nil hline, hnil]
    exact .ended hnil
  | @cons text segment texts segments htext hsegments ih =>
    obtain ⟨n, rfl⟩ : ∃ m, n = m + 1 := ⟨n - 1, by omega⟩
    rw [List.flatten_cons] at hp
    have hshorter : texts.flatten.length < n := by
      obtain ⟨c, cs, rfl, -⟩ := htext.head
      simp only [hp, List.length_append, List.length_cons] at hn
      omega
    -- What is read from the place behind the segment is the head of the other segments.
    have next : ∀ {q : Place} {rest : List Line}, p.Reaches lines q rest → q.text = texts.flatten →
        HeadRead (tagHead n q rest) segments :=
      fun hreach hq => ih hq (hreach.follow hlines) (by rw [hq]; exact hshorter)
    have hends := endsName_segments hsegments
    cases htext with
    | @className name hname =>
      obtain ⟨after, hline, hfront, hne⟩ := nameAtFront_signed (by decide) hname hp hends
      have hreach := Place.Reaches.skip (named_isPrefix hline) lines
      rw [hfront] at hreach
      rw [tagHead_class hline (by rw [hfront]; exact hne), hfront]
      exact (next hreach (Place.skip_text hp)).consClass name _
    | @idName name hname =>
      obtain ⟨after, hline, hfront, hne⟩ := nameAtFront_signed (by decide) hname hp hends
      have hreach := Place.Reaches.skip (named_isPrefix hline) lines
      rw [hfront] at hreach
      rw [tagHead_id hline (by rw [hfront]; exact hne), hfront]
      exact (next hreach (Place.skip_text hp)).consId name _
    | @attributes lead text list hlead hlist =>
      have htext : p.text = '(' :: (lead ++ text ++ ')' :: texts.flatten) := by simpa using hp
      obtain ⟨g, hg⟩ := groupRead_attributes hlead hlist htext lines
      have hline : p.line = '(' :: lineContent (lead ++ text ++ ')' :: texts.flatten) := by
        rw [Place.line, htext, lineContent_cons (by decide) (by decide)]
      rw [tagHead_groupRead hg hline (.inl rfl)]
      exact (next (.attributeGroup hg.group) hg.place).before hg.faults rfl hg.attributes hg.spreads
    | @spread inner hinner =>
      have htext : p.text = spreadLead ++ '(' :: (inner ++ ')' :: texts.flatten) := by simpa using hp
      obtain ⟨g, hg⟩ := groupRead_spread hinner htext lines
      have hline : p.line = '&' :: lineContent (spreadLead.tail ++ '(' :: (inner ++ ')' ::
          texts.flatten)) := by
        rw [Place.line, htext]
        exact lineContent_cons (by decide) (by decide) _
      rw [tagHead_groupRead hg hline (.inr rfl)]
      exact (next (.attributeGroup hg.group) hg.place).before hg.faults rfl hg.attributes hg.spreads

/-! ## Markers -/

variable {marker : Marker} {length : Nat}

/-- A line of a tag without a name starts with the sign of a class or an id. -/
theorem head_of_leading? (h : Marker.leading? text = some (marker, length))
    (hmarker : marker = .className ∨ marker = .idName) :
    ∃ c cs, text = c :: cs ∧ (c = '.' ∨ c = '#') := by
  rcases hmarker with rfl | rfl
  · obtain ⟨front, hsign, ⟨rest, rfl⟩, -⟩ := signAt_of_leading? h (by simp) (by simp)
    cases hsign
    exact ⟨_, _, rfl, .inl rfl⟩
  · obtain ⟨front, hsign, ⟨rest, rfl⟩, -⟩ := signAt_of_leading? h (by simp) (by simp)
    cases hsign
    exact ⟨_, _, rfl, .inr rfl⟩

/-- A marker with which a tag starts. -/
def Marker.startsTag (marker : Marker) : Bool := [.tagName, .className, .idName].contains marker

/-- The name that a marker gives to a tag; no name for a class or an id. -/
def Marker.tagFront (marker : Marker) (front : List Char) : List Char :=
  if marker = .tagName then front else []

theorem isWhiteSpace_of_isAlpha (h : c.isAlpha = true) : isWhiteSpace c = false := by
  have hclass : (c.isUpper || c.isLower) = true := h
  have hrange : 65 ≤ c.toNat ∧ c.toNat ≤ 122 := by
    rcases Bool.or_eq_true_iff.mp hclass with hupper | hlower
    · obtain ⟨hlow, hhigh⟩ := of_decide_eq_true hupper
      exact ⟨UInt32.le_iff_toNat_le.mp hlow,
        Nat.le_trans (UInt32.le_iff_toNat_le.mp hhigh) (by decide)⟩
    · obtain ⟨hlow, hhigh⟩ := Bool.and_eq_true_iff.mp hlower
      exact ⟨Nat.le_trans (by decide) (UInt32.le_iff_toNat_le.mp (of_decide_eq_true hlow)),
        UInt32.le_iff_toNat_le.mp (of_decide_eq_true hhigh)⟩
  simp only [isWhiteSpace, Bool.or_eq_false_iff, Bool.and_eq_false_iff, decide_eq_false_iff_not,
    beq_eq_false_iff_ne]
  omega

/-- The first line of a tag starts with ink, and its marker gives the name that is written. -/
theorem tagFront_written (hname : name = [] ∨ isTagName name = true) {segments : List Segment}
    (hsegments : List.Forall₂ WrittenSegment texts segments) (hmarker : marker.startsTag = true)
    (h : Marker.leading? (lineContent (name ++ texts.flatten)) = some (marker, length)) :
    (∃ c cs, lineContent (name ++ texts.flatten) = c :: cs ∧ isWhiteSpace c = false) ∧
      marker.tagFront ((lineContent (name ++ texts.flatten)).take length) = name := by
  have hends := endsName_segments hsegments
  have hink : name.all isInk = true := by
    rcases hname with rfl | hname
    · rfl
    · exact all_isInk_of_isWordOf isNamePart_of_isAlpha hname
  rw [lineContent_append name hink] at h ⊢
  by_cases htag : marker = .tagName
  · subst htag
    have hword := wordLength_of_leading?_tagName h
    rcases hname with rfl | hname
    · -- No name: what follows starts with no letter.
      rw [List.nil_append] at hword ⊢
      cases hline : lineContent texts.flatten with
      | nil => rw [hline] at hword; cases hword
      | cons c cs =>
        rw [hline] at hword hends
        rw [Marker.wordLength?] at hword
        split at hword
        · rename_i hc
          simp [endsName, isNamePart_of_isAlpha c hc] at hends
        · cases hword
    · obtain ⟨c, cs, rfl, hc, hcs⟩ := eq_cons_of_isWordOf hname
      refine ⟨⟨c, _, rfl, isWhiteSpace_of_isAlpha hc⟩, ?_⟩
      rw [List.cons_append, Marker.wordLength?, if_pos hc, takeWhile_namePart hcs hends] at hword
      rw [Marker.tagFront, if_pos rfl, ← Option.some.inj hword, Nat.add_comm, List.cons_append,
        List.take_succ_cons, List.take_left]
  · have hsign : marker = .className ∨ marker = .idName := by
      simpa [Marker.startsTag, htag] using hmarker
    obtain ⟨c, cs, hline, hc⟩ := head_of_leading? h hsign
    refine ⟨⟨c, cs, hline, ?_⟩, ?_⟩
    · rcases hc with rfl | rfl <;> decide
    · rw [Marker.tagFront, if_neg htag]
      rcases hname with rfl | hname
      · rfl
      · -- A name starts with a letter.
        obtain ⟨d, ds, rfl, hd, -⟩ := eq_cons_of_isWordOf hname
        obtain ⟨rfl, -⟩ := List.cons.inj hline
        rcases hc with rfl | rfl <;> exact absurd hd (by decide)

/-! ## Tags -/

theorem step_startsTag (hmarker : marker.startsTag = true) {line : Line}
    (h : Marker.leading? line.text = some (marker, length)) (source : List Char)
    (expand : HeadReader) (lines : List Line) :
    Head.step source expand line lines =
      Head.ofTag expand line (marker.tagFront (line.text.take length)) lines := by
  have hcases : marker = .tagName ∨ marker = .className ∨ marker = .idName := by
    simpa [Marker.startsTag] using hmarker
  rw [Head.step, h]
  rcases hcases with rfl | rfl | rfl <;> rfl

/-- A head behind which nothing is left is the head of a tag without children. -/
theorem ofTag_headRead (expand : HeadReader) {line : Line} {segments : List Segment}
    (h : HeadRead (tagHead ((line.afterName name).text.length + 1) (line.afterName name) lines) segments) :
    ∃ attributes spreads span,
      Head.ofTag expand line name lines =
        ⟨.single (.tag (if name.isEmpty then "div" else String.ofList name) attributes spreads [] false
          span) .nodes, [], []⟩ ∧
      attributes.map Attribute.content = tagContents (segments.filterMap Segment.className?) segments ∧
      spreads.map Spread.value = segments.filterMap Segment.spread? := by
  rw [Head.ofTag_eq]
  generalize tagHead _ (line.afterName name) lines = head at h ⊢
  have hline : head.place.line = [] := by rw [Place.line, h.place]; rfl
  have htail : Head.tagTail line (head.ending = .selfClosing) head.place = (.children [], []) := by
    rw [h.ending]
    exact tagTail_of_line_nil line hline
  refine ⟨tagAttributes (classNames head.parts) head.parts, head.spreads,
    Span.between line.start head.place.lineStop, ?_, ?_, h.spreads⟩
  · simp only [htail]
    simp only [TagHead.followed, TagHead.tag, TagHead.body, h.ending, h.faults, h.lines]
    rfl
  · rw [h.attributes, h.classes]

/-- A line that does not start with white space is at the front. -/
theorem atFront_of_head (h : lineContent text = c :: cs) (hc : isWhiteSpace c = false)
    (number offset : Nat) :
    Line.atFront number offset text = ⟨number, 0, offset, lineContent text, text⟩ := by
  have hnone : (lineContent text).takeWhile isIndentation = [] := by
    rw [h]
    exact List.takeWhile_cons_of_neg (by simp [isIndentation_of_not_isWhiteSpace hc])
  simp only [Line.atFront, hnone, List.length_nil, List.drop_zero, Nat.add_zero]

/-- A document whose first line is a tag that uses up all lines is that tag. -/
theorem parse_of_single (h : lineContent text = c :: cs) (hc : isWhiteSpace c = false) {node : Node}
    (hread : Head.read text (text.length + 1) ⟨1, 0, 0, lineContent text, text⟩
      (Line.afterFeeds 1 0 text) = ⟨.single node .nodes, [], []⟩) :
    Document.parse (String.ofList text) = (⟨[node.addChildren []], byteLength text⟩, []) := by
  have hh := Head.read_consumes text (text.length + 1)
  have hnil : ∀ parent expected, entriesUnder (Head.read text (text.length + 1)) parent expected false [] =
      ([], []) := fun parent expected => rfl
  have hwritten : Line.isBlank ⟨1, 0, 0, lineContent text, text⟩ = false := by
    rw [Line.isBlank, h]
    simp [isBlank, hc]
  have hnested : nested? none (Line.ofSource text) =
      some (⟨1, 0, 0, lineContent text, text⟩, Line.afterFeeds 1 0 text) := by
    rw [Line.ofSource, atFront_of_head h hc, nested?, skipBlank_cons_of_written hwritten]
    rfl
  have hentry : readEntry (Head.read text (text.length + 1))
      (blockUnder (Head.read text (text.length + 1))) ⟨1, 0, 0, lineContent text, text⟩ false
      (Line.afterFeeds 1 0 text) = ⟨⟨[], .nodes [node.addChildren []]⟩, [], false⟩ := by
    unfold readEntry
    rw [hread]
    simp only [Head.single, closePending_eq]
    rfl
  simp only [parse_eq, String.toList_ofList]
  rw [entriesUnder_eq hh, hnested]
  simp only [hentry, hnil]
  rfl

/-- **Tags are read back.** A source that is one tag, with or without a name, and whose first line has
the marker of a tag, is parsed without faults to that tag alone. Its attributes are those of the
segments in their order, all classes together at the place of the first one, and its spreads are the
expressions of the spreads. -/
theorem parse_written_tag {name : List Char} (hname : name = [] ∨ isTagName name = true)
    {texts : List (List Char)} {segments : List Segment}
    (hsegments : List.Forall₂ WrittenSegment texts segments) {marker : Marker} {length : Nat}
    (hmarker : marker.startsTag = true)
    (hleading : Marker.leading? (lineContent (name ++ texts.flatten)) = some (marker, length)) :
    ∃ attributes spreads span,
      Document.parse (String.ofList (name ++ texts.flatten)) =
        (⟨[.tag (if name.isEmpty then "div" else String.ofList name) attributes spreads [] false span],
          byteLength (name ++ texts.flatten)⟩, []) ∧
      attributes.map Attribute.content = tagContents (segments.filterMap Segment.className?) segments ∧
      spreads.map Spread.value = segments.filterMap Segment.spread? := by
  obtain ⟨⟨c, cs, hline, hc⟩, hfront⟩ := tagFront_written hname hsegments hmarker hleading
  generalize hsource : name ++ texts.flatten = source at hline hfront hleading ⊢
  let line : Line := ⟨1, 0, 0, lineContent source, source⟩
  have hname : name <+: lineContent source := by
    rw [← hfront, Marker.tagFront]
    split
    · exact List.take_prefix _ _
    · exact List.nil_prefix
  have hreach : Place.Reaches ⟨0, source⟩ (Line.afterFeeds 1 0 source) (line.afterName name)
      (Line.afterFeeds 1 0 source) := Place.Reaches.skip hname _
  have hhead := tagHead_written hsegments (Place.skip_text hsource.symm) (hreach.follow ⟨1, rfl⟩)
    (Nat.lt_succ_self _)
  obtain ⟨attributes, spreads, span, htag, hattributes, hspreads⟩ :=
    ofTag_headRead (Head.read source source.length) hhead
  have hread : Head.read source (source.length + 1) line (Line.afterFeeds 1 0 source) =
      Head.ofTag (Head.read source source.length) line name (Line.afterFeeds 1 0 source) := by
    have hstep := step_startsTag hmarker (show Marker.leading? line.text = _ from hleading) source
      (Head.read source source.length) (Line.afterFeeds 1 0 source)
    rw [show marker.tagFront (line.text.take length) = name from hfront] at hstep
    exact hstep
  have hparse := parse_of_single hline hc (hread.trans htag)
  rw [Node.addChildren, List.append_nil] at hparse
  exact ⟨attributes, spreads, span, hparse, hattributes, hspreads⟩

theorem navAttributes_written :
    WrittenList "href=a + b, 'data x'\n  checked title!='q'".toList
      [⟨"href", .expression "a + b", true⟩, ⟨"data x", .flag, true⟩, ⟨"checked", .flag, true⟩,
        ⟨"title", .expression "'q'", false⟩] := by
  have hsum : IsValue "a + b".toList :=
    @IsValue.joined ['a'] [' '] ['+', ' ', 'b'] (.char rfl rfl .nil) (by decide) rfl rfl
      (@IsValue.joined ['+'] [' '] ['b'] (.char rfl rfl .nil) (by decide) rfl rfl
        (.word (.char rfl rfl .nil) (by decide)))
  have hquoted : IsValue "'q'".toList :=
    .word (@IsWord.literal '\'' ['q', '\''] [] rfl (.char (by decide) (by decide) .close) .nil)
      (by decide)
  have href : WrittenAttribute "href=a + b".toList ⟨"href", .expression "a + b", true⟩ :=
    @WrittenAttribute.valued "href".toList "href".toList [] [] "a + b".toList
      (.plain (by decide) rfl) rfl true rfl hsum
  have hdata : WrittenAttribute "'data x'".toList ⟨"data x", .flag, true⟩ :=
    .flag (@WrittenName.quoted '\'' ['d', 'a', 't', 'a', ' ', 'x'] (.inr rfl) (by decide) (by simp))
  have hchecked : WrittenAttribute "checked".toList ⟨"checked", .flag, true⟩ :=
    .flag (@WrittenName.plain "checked".toList (by decide) rfl)
  have htitle : WrittenAttribute "title!='q'".toList ⟨"title", .expression "'q'", false⟩ :=
    @WrittenAttribute.valued "title".toList "title".toList [] [] "'q'".toList
      (.plain (by decide) rfl) rfl false rfl hquoted
  exact @WrittenList.cons _ ", ".toList _ _ _ href rfl (.inr (.inl (by decide)))
    (@WrittenList.cons _ "\n  ".toList _ _ _ hdata rfl (.inr (by decide))
      (@WrittenList.cons _ " ".toList _ _ _ hchecked rfl (.inr (by decide))
        (@WrittenList.cons _ [] [] _ _ htitle rfl (.inl rfl) .nil)))

theorem parse_navTag :
    ∃ attributes spreads span,
      Document.parse "a.nav#top(href=a + b, 'data x'\n  checked title!='q')&attributes( rest ).wide" =
        (⟨[.tag "a" attributes spreads [] false span], 76⟩, []) ∧
      attributes.map Attribute.content =
        [⟨"class", .expression "'nav wide'", true⟩, ⟨"id", .expression "'top'", true⟩,
          ⟨"href", .expression "a + b", true⟩, ⟨"data x", .flag, true⟩, ⟨"checked", .flag, true⟩,
          ⟨"title", .expression "'q'", false⟩] ∧
      spreads.map Spread.value = ["rest"] := by
  have hspread : Balanced " rest ".toList :=
    .char rfl (.char rfl (.char rfl (.char rfl (.char rfl (.char rfl .nil)))))
  have hsegments : List.Forall₂ WrittenSegment
      [".nav".toList, "#top".toList, "(href=a + b, 'data x'\n  checked title!='q')".toList,
        "&attributes( rest )".toList, ".wide".toList]
      [.className "nav".toList, .idName "top".toList,
        .attributes [⟨"href", .expression "a + b", true⟩, ⟨"data x", .flag, true⟩,
          ⟨"checked", .flag, true⟩, ⟨"title", .expression "'q'", false⟩],
        .spread "rest".toList, .className "wide".toList] :=
    .cons (.className rfl) (.cons (.idName rfl) (.cons (@WrittenSegment.attributes [] _ _ rfl
      navAttributes_written) (.cons (@WrittenSegment.spread " rest ".toList hspread)
        (.cons (.className rfl) .nil))))
  obtain ⟨attributes, spreads, span, hparse, hattributes, hspreads⟩ :=
    @parse_written_tag "a".toList (.inr rfl) _ _ hsegments .tagName 1 rfl (by decide)
  have hsource : String.ofList ("a".toList ++ [".nav".toList, "#top".toList,
      "(href=a + b, 'data x'\n  checked title!='q')".toList, "&attributes( rest )".toList,
      ".wide".toList].flatten) =
      "a.nav#top(href=a + b, 'data x'\n  checked title!='q')&attributes( rest ).wide" := rfl
  rw [hsource] at hparse
  exact ⟨attributes, spreads, span, hparse, hattributes, hspreads⟩

end PugComponents.Template

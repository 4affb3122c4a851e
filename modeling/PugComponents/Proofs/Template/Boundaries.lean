import PugComponents.Proofs.Template.Extents

/- Spans that are stretches of the source. A place that lies in the source stands
   between two characters of it, and so does every place that is reached from it;
   a span between two such places is sound. The attributes of a list follow one
   another (`attributeList_read`), provided that the reading never goes on in the
   middle of a character: after an empty name in quotes it goes on one byte
   further, whatever character stands there (`Fault.Aligned`). -/
namespace PugComponents.Template

open Text

/-! ## Boundaries -/

/-- The offset lies between two characters of the source, or at one of its ends. -/
def IsBoundary (source : List Char) (offset : Nat) : Prop :=
  ∃ before after, source = before ++ after ∧ offset = byteLength before

theorem IsBoundary.le {source : List Char} {offset : Nat} (h : IsBoundary source offset) :
    offset ≤ byteLength source := by
  obtain ⟨before, after, rfl, rfl⟩ := h
  rw [byteLength_append]
  exact Nat.le_add_right _ _

variable {n : Nat}

/-- No boundary lies inside a character. -/
theorem IsBoundary.not_inside {before after : List Char} {c : Char}
    (h : IsBoundary (before ++ c :: after) (byteLength before + n)) (hn : 0 < n) :
    c.utf8Size ≤ n := by
  obtain ⟨front, rest, hsource, hoffset⟩ := h
  induction before generalizing front with
  | nil =>
    cases front with
    | nil =>
      simp only [byteLength] at hoffset
      omega
    | cons d front =>
      obtain ⟨rfl, -⟩ := List.cons.inj hsource
      simp only [byteLength] at hoffset
      omega
  | cons d before ih =>
    cases front with
    | nil =>
      have hpos := d.utf8Size_pos
      simp only [byteLength] at hoffset
      omega
    | cons e front =>
      obtain ⟨rfl, htail⟩ := List.cons.inj hsource
      refine ih front htail ?_
      simp only [byteLength] at hoffset
      omega

/-- The span is a stretch of the source and cuts no character. -/
structure Span.Sound (source : List Char) (s : Span) : Prop where
  ordered : s.start ≤ s.stop
  inside : s.stop ≤ byteLength source
  start : IsBoundary source s.start
  stop : IsBoundary source s.stop

variable {a : Nat}

theorem Span.between_stop {b : Nat} (h : a ≤ b) : (Span.between a b).stop = b := Nat.max_eq_right h

theorem Span.sound_between {source : List Char} {b : Nat} (ha : IsBoundary source a)
    (hb : IsBoundary source b) (hle : a ≤ b) : (Span.between a b).Sound source := by
  refine ⟨Span.between_le a b, ?_, ha, ?_⟩
  · rw [Span.between_stop hle]
    exact hb.le
  · rw [Span.between_stop hle]
    exact hb

theorem Span.sound_empty {source : List Char} (ha : IsBoundary source a) :
    (Span.empty a).Sound source :=
  ⟨Nat.le_refl a, ha.le, ha, ha⟩

theorem Span.Holds.sound {source text : List Char} {s : Span} (h : s.Holds source text) :
    s.Sound source := by
  obtain ⟨before, after, hsource, hstart, hstop⟩ := h
  have hend : IsBoundary source s.stop :=
    ⟨before ++ text, after, hsource, by rw [hstop, byteLength_append]⟩
  refine ⟨by omega, hend.le, ⟨before, text ++ after, ?_, hstart⟩, hend⟩
  rw [hsource, List.append_assoc]

/-! ## Places in the source -/

/-- The text of the place stands in the source where its offset says. -/
def Place.Within (source : List Char) (p : Place) : Prop :=
  ∃ before after, source = before ++ p.text ++ after ∧ p.offset = byteLength before

variable {front : List Char}

namespace Place.Within

variable {source : List Char} {p : Place}

theorem offset (h : p.Within source) : IsBoundary source p.offset := by
  obtain ⟨before, after, hsource, hoffset⟩ := h
  refine ⟨before, p.text ++ after, ?_, hoffset⟩
  rw [hsource, List.append_assoc]

theorem stop (h : p.Within source) : IsBoundary source p.stop := by
  obtain ⟨before, after, hsource, hoffset⟩ := h
  refine ⟨before ++ p.text, after, hsource, ?_⟩
  rw [Place.stop, hoffset, byteLength_append]

theorem skip (h : p.Within source) (hfront : front <+: p.text) : (p.skip front).Within source := by
  obtain ⟨before, after, hsource, hoffset⟩ := h
  obtain ⟨rest, hrest⟩ := hfront
  refine ⟨before ++ front, after, ?_, ?_⟩
  · rw [hsource, Place.skip, ← hrest, List.drop_left]
    simp
  · rw [Place.skip, hoffset, byteLength_append]

/-- The first characters of a text, as a text of their own. -/
theorem take (h : p.Within source) (hfront : front <+: p.text) :
    (⟨p.offset, front⟩ : Place).Within source := by
  obtain ⟨before, after, hsource, hoffset⟩ := h
  obtain ⟨rest, hrest⟩ := hfront
  refine ⟨before, rest ++ after, ?_, hoffset⟩
  rw [hsource, ← hrest]
  simp

theorem holds (h : p.Within source) : Span.Holds source ⟨p.offset, p.stop⟩ p.text := by
  obtain ⟨before, after, hsource, hoffset⟩ := h
  refine ⟨before, after, hsource, hoffset, ?_⟩
  rw [Place.stop, hoffset]

end Place.Within

theorem Place.In.within {source : List Char} {p : Place} (h : p.In source) : p.Within source := by
  obtain ⟨before, hsource, hoffset⟩ := h
  exact ⟨before, [], by rw [hsource, List.append_nil], hoffset⟩

theorem Place.In.boundary {source : List Char} {p : Place} (h : p.In source) :
    IsBoundary source p.offset :=
  h.within.offset

/-- The end of the line of a place is a boundary. -/
theorem Place.In.lineStop {source : List Char} {p : Place} (h : p.In source) :
    IsBoundary source p.lineStop :=
  (h.within.skip p.line_isPrefix).offset

theorem Line.Placed.within {source : List Char} {line : Line} (h : line.Placed source) :
    (⟨line.start, line.text⟩ : Place).Within source := by
  have hfront : line.front.In source := h.place
  refine hfront.within.take ?_
  rw [h.content]
  exact lineContent_isPrefix line.onward

theorem Line.Placed.sound {source : List Char} {line : Line} (h : line.Placed source) :
    line.span.Sound source :=
  h.span_holds.sound

/-! ## Spans in a row -/

/-- Sound spans, none of them empty, that follow one another between two offsets. -/
structure Chain (source : List Char) (lo hi : Nat) (spans : List Span) : Prop where
  sound : ∀ s ∈ spans, s.Sound source
  nonempty : ∀ s ∈ spans, s.start < s.stop
  within : ∀ s ∈ spans, lo ≤ s.start ∧ s.stop ≤ hi
  apart : spans.Pairwise fun a b => a.stop ≤ b.start

namespace Chain

variable {source : List Char} {lo mid hi : Nat} {spans more : List Span} {s : Span}

theorem nil : Chain source lo hi [] where
  sound := fun _ h => nomatch h
  nonempty := fun _ h => nomatch h
  within := fun _ h => nomatch h
  apart := .nil

theorem mono {lo' hi' : Nat} (h : Chain source lo hi spans) (hlo : lo' ≤ lo) (hhi : hi ≤ hi') :
    Chain source lo' hi' spans where
  sound := h.sound
  nonempty := h.nonempty
  within := by
    intro s hs
    have := h.within s hs
    omega
  apart := h.apart

theorem single (hs : s.Sound source) (hlt : s.start < s.stop) (hlo : lo ≤ s.start) (hhi : s.stop ≤ hi) :
    Chain source lo hi [s] where
  sound := by simpa using hs
  nonempty := by simpa using hlt
  within := by simpa using ⟨hlo, hhi⟩
  apart := List.pairwise_singleton _ _

theorem append (h : Chain source lo mid spans) (h' : Chain source mid hi more) (hlo : lo ≤ mid)
    (hhi : mid ≤ hi) : Chain source lo hi (spans ++ more) where
  sound := List.forall_mem_append.mpr ⟨h.sound, h'.sound⟩
  nonempty := List.forall_mem_append.mpr ⟨h.nonempty, h'.nonempty⟩
  within := List.forall_mem_append.mpr ⟨(h.mono (Nat.le_refl _) hhi).within, (h'.mono hlo (Nat.le_refl _)).within⟩
  apart := by
    refine List.pairwise_append.mpr ⟨h.apart, h'.apart, ?_⟩
    intro a ha b hb
    exact Nat.le_trans (h.within a ha).2 (h'.within b hb).1

theorem sublist (h : Chain source lo hi spans) (hsub : more.Sublist spans) : Chain source lo hi more where
  sound := fun s hs => h.sound s (hsub.subset hs)
  nonempty := fun s hs => h.nonempty s (hsub.subset hs)
  within := fun s hs => h.within s (hsub.subset hs)
  apart := h.apart.sublist hsub

end Chain

/-! ## Attribute lists -/

/-- After an empty name in an attribute list the reading goes on at a boundary. -/
def Fault.Aligned (source : List Char) (f : Fault) : Prop :=
  ∀ found, f.cause = .unexpectedToken .attributeName found → IsBoundary source f.span.stop

/-- Attributes that follow one another between two offsets, and faults at sound spans; both if no
fault of the list leads into a character. -/
def ListRead (source : List Char) (lo hi : Nat) (r : List Attribute × List Fault) : Prop :=
  (∀ f ∈ r.2, f.Aligned source) →
    Chain source lo hi (r.1.map Attribute.span) ∧ ∀ f ∈ r.2, f.span.Sound source

namespace ListRead

variable {source : List Char} {lo mid hi : Nat} {r : List Attribute × List Fault}

theorem nil : ListRead source lo hi ([], []) :=
  fun _ => ⟨.nil, fun _ h => nomatch h⟩

theorem mono {lo' : Nat} (h : ListRead source lo hi r) (hlo : lo' ≤ lo) : ListRead source lo' hi r :=
  fun haligned => ⟨(h haligned).1.mono hlo (Nat.le_refl _), (h haligned).2⟩

theorem consAttribute {a : Attribute} (h : ListRead source mid hi r) (hs : a.span.Sound source)
    (hlt : a.span.start < a.span.stop) (hlo : lo ≤ a.span.start) (hmid : a.span.stop ≤ mid)
    (hhi : mid ≤ hi) : ListRead source lo hi (Template.consAttribute a r) := by
  intro haligned
  obtain ⟨hchain, hfaults⟩ := h haligned
  exact ⟨(Chain.single hs hlt hlo hmid).append hchain (by omega) hhi, hfaults⟩

/-- What follows a fault is read from where the fault leads to. -/
theorem consFault {f : Fault} (hs : f.Aligned source → f.span.Sound source)
    (h : f.Aligned source → ListRead source lo hi r) : ListRead source lo hi (Template.consFault f r) := by
  intro haligned
  have hf : f.Aligned source := haligned f List.mem_cons_self
  obtain ⟨hchain, hfaults⟩ := h hf fun g hg => haligned g (List.mem_cons_of_mem f hg)
  exact ⟨hchain, List.forall_mem_cons.mpr ⟨hs hf, hfaults⟩⟩

end ListRead

theorem takeWhile_ne_isPrefix {c : Char} {cs : List Char} (h : c ∈ cs) :
    cs.takeWhile (· != c) ++ [c] <+: cs := by
  induction cs with
  | nil => cases h
  | cons d cs ih =>
    by_cases hd : d = c
    · subst hd
      simp
    · have hmem : c ∈ cs := by
        rcases List.mem_cons.mp h with rfl | h
        · exact absurd rfl hd
        · exact h
      simpa [hd] using ih hmem

variable {first : Char} {after : Place}

/-- A name is read off the front of the text. An empty one stands at a quote or a sign. -/
theorem attributeName_eq_name {rest : List Char} {p : Place} {name : List Char}
    (h : attributeName first p = .name name after) (htext : p.text = first :: rest)
    (hgap : isAttributeGap first = false) :
    ∃ front, front <+: p.text ∧ after = p.skip front ∧ name.length ≤ front.length ∧
      (name = [] → first.utf8Size = 1) := by
  unfold attributeName at h
  rw [htext, List.tail_cons] at h
  split at h
  · rename_i hquote
    split at h
    · rename_i hclosed
      cases h
      refine ⟨_, ?_, rfl, ?_, fun _ => ?_⟩
      · rw [htext, List.cons_prefix_cons]
        exact ⟨rfl, takeWhile_ne_isPrefix (by simpa using hclosed)⟩
      · rw [List.length_cons, List.length_append]
        omega
      · rcases (by simpa using hquote : first = '"' ∨ first = '\'') with rfl | rfl <;> decide
    · cases h
  · cases h
    refine ⟨_, ?_, rfl, Nat.le_refl _, ?_⟩
    · rw [htext]
      exact List.takeWhile_prefix _
    · intro hempty
      have hends : endsAttributeName first = true := by
        rw [List.takeWhile_cons] at hempty
        split at hempty
        · cases hempty
        · rename_i hstop
          simpa using hstop
      simp only [isAttributeGap, Bool.or_eq_false_iff] at hgap
      simp only [endsAttributeName, hgap.1, hgap.2, Bool.false_or, Bool.or_eq_true, beq_iff_eq] at hends
      rcases hends with rfl | rfl <;> decide

theorem Place.skip_skip (p : Place) (a b : List Char) : (p.skip a).skip b = p.skip (a ++ b) := by
  simp [Place.skip, byteLength_append, Nat.add_assoc]

theorem Place.append_isPrefix {p : Place} {a b : List Char} (ha : a <+: p.text)
    (hb : b <+: (p.skip a).text) : a ++ b <+: p.text := by
  obtain ⟨rest, hrest⟩ := ha
  rw [Place.skip, ← hrest, List.drop_left] at hb
  rw [← hrest]
  exact (List.prefix_append_right_inj a).mpr hb

/-- The sign of a value is passed with the white space before it. -/
theorem valueSign_eq_present {p : Place} {escaped : Bool} (h : valueSign p = .present escaped after) :
    ∃ front, front <+: p.text ∧ after = p.skip front := by
  have hspace : p.text.takeWhile isWhiteSpace <+: p.text := List.takeWhile_prefix _
  have hsign : ∀ sign, sign <+: (p.skipWhile isWhiteSpace).text →
      ∃ front, front <+: p.text ∧ (p.skipWhile isWhiteSpace).skip sign = p.skip front :=
    fun sign hsign => ⟨_, Place.append_isPrefix hspace hsign, Place.skip_skip _ _ _⟩
  unfold valueSign at h
  simp only at h
  split at h
  · rename_i rest hrest
    cases h
    exact hsign ['!', '='] ⟨rest, hrest.symm⟩
  · rename_i rest hrest
    cases h
    exact hsign ['='] ⟨rest, hrest.symm⟩
  · cases h
  · cases h

/-- A lone mark stands after white space. -/
theorem valueSign_eq_loneMark {p mark : Place} (h : valueSign p = .loneMark mark) :
    ∃ front, front <+: p.text ∧ mark = p.skip front ∧ ['!'] <+: mark.text := by
  unfold valueSign at h
  simp only at h
  split at h
  · cases h
  · cases h
  · rename_i rest _ hrest
    cases h
    exact ⟨_, List.takeWhile_prefix _, rfl, rest, hrest.symm⟩
  · cases h

/-- A value is read off the front of the text. -/
theorem valueFrom_isPrefix (depth : Nat) (quoting : Quoting) (last : Option Char) (cs : List Char) :
    (valueFrom depth quoting last cs).1 <+: cs := by
  fun_induction valueFrom depth quoting last cs with
  | case1 => exact List.prefix_refl _
  | case2 => exact List.nil_prefix
  | case3 _ _ _ _ _ _ _ _ ih | case4 _ _ _ _ _ _ _ ih => exact (List.prefix_cons_inj _).mpr ih

theorem attributesFrom_nil (n offset : Nat) : attributesFrom n ⟨offset, []⟩ = ([], []) := by
  cases n with
  | zero => rfl
  | succ n => rfl

section

variable {source : List Char}

/-- An empty name leads one byte further, which is past the next character if it is aligned. -/
theorem within_after_emptyName (h : after.Within source) (hsize : first.utf8Size = 1)
    (hstop : IsBoundary source (after.offset + first.utf8Size)) :
    after.text = [] ∨ ∃ c, [c] <+: after.text ∧
      (⟨after.offset + first.utf8Size, after.text.tail⟩ : Place) = after.skip [c] := by
  cases htext : after.text with
  | nil => exact .inl rfl
  | cons c rest =>
    right
    refine ⟨c, ⟨rest, rfl⟩, ?_⟩
    have hc : c.utf8Size = first.utf8Size := by
      obtain ⟨before, tail, hsource, hoffset⟩ := h
      rw [htext] at hsource
      rw [hsource, hoffset, List.append_assoc, List.cons_append] at hstop
      have hle := hstop.not_inside (by omega)
      have hpos := c.utf8Size_pos
      omega
    simp [Place.skip, byteLength, htext, hc]

/-- The first character behind a gap is no gap. -/
theorem not_gap_of_skipWhile {p : Place} {rest : List Char}
    (h : (p.skipWhile isAttributeGap).text = first :: rest) : isAttributeGap first = false := by
  have hdrop : (p.skipWhile isAttributeGap).text = p.text.dropWhile isAttributeGap := by
    have hdropped := List.prefix_iff_eq_append.mp (List.takeWhile_prefix (l := p.text) isAttributeGap)
    exact List.append_cancel_left (hdropped.trans List.takeWhile_append_dropWhile.symm)
  have hhead := List.head?_dropWhile_not isAttributeGap p.text
  rw [← hdrop, h] at hhead
  simpa using hhead

/-- What is read from a place on whose name is known and not empty. -/
def namedAttribute (n : Nat) (p : Place) (name : List Char) (after : Place) :
    List Attribute × List Fault :=
  match valueSign after with
  | .loneMark mark =>
    consFault ⟨.unexpectedToken .unescapedEquals "!", Span.between mark.offset (mark.offset + 1)⟩
      (attributesFrom n (mark.skip ['!']))
  | .absent =>
    consAttribute ⟨String.ofList name, .flag, true, Span.between p.offset after.offset⟩
      (attributesFrom n after)
  | .present escaped afterSign =>
    let start := afterSign.skipWhile isWhiteSpace
    let value := (attributeValue start.text).1
    let stop := start.skip value
    let span := Span.between p.offset stop.offset
    let raw := trim value
    if raw.isEmpty then
      consFault ⟨.syntaxProblem (.noAttributeValue (String.ofList name)), span⟩ (attributesFrom n stop)
    else
      consAttribute ⟨String.ofList name, .expression (String.ofList raw), escaped, span⟩
        (attributesFrom n stop)

theorem attributesFrom_succ (n : Nat) (before : Place) :
    attributesFrom (n + 1) before =
      let p := before.skipWhile isAttributeGap
      match p.text with
      | [] => ([], [])
      | first :: _ =>
        match attributeName first p with
        | .unclosed quote => ([], [⟨.unclosedDelimiter quote, Span.between p.offset p.stop⟩])
        | .name [] after =>
          consFault ⟨.unexpectedToken .attributeName (String.singleton first),
              Span.between after.offset (after.offset + first.utf8Size)⟩
            (attributesFrom n ⟨after.offset + first.utf8Size, after.text.tail⟩)
        | .name (c :: name) after => namedAttribute n p (c :: name) after := by
  rw [attributesFrom]
  simp only
  cases (before.skipWhile isAttributeGap).text with
  | nil => rfl
  | cons first rest =>
    simp only
    cases attributeName first (before.skipWhile isAttributeGap) with
    | unclosed quote => rfl
    | name name after => cases name <;> rfl

/-- From every place behind a part of the text the attributes are read one after another. -/
def ReadBehind (source : List Char) (n : Nat) (p : Place) : Prop :=
  ∀ front, front <+: p.text →
    ListRead source (p.skip front).offset p.stop (attributesFrom n (p.skip front))

theorem sound_behind {p : Place} (hp : p.Within source) (h : front <+: p.text) :
    (Span.between p.offset (p.skip front).offset).Sound source :=
  Span.sound_between hp.offset (hp.skip h).offset (Nat.le_add_right _ _)

theorem skip_offset_le {p : Place} (h : front <+: p.text) : (p.skip front).offset ≤ p.stop := by
  rw [← (Place.skip_within h).2]
  exact Nat.le_add_right _ _

/-- An attribute that ends behind a part of the text, and what follows it. -/
theorem ReadBehind.attribute {p : Place} (h : ReadBehind source n p) (hp : p.Within source)
    (hfront : front <+: p.text) (hpos : 0 < byteLength front) (name : String)
    (value : AttributeValue) (escaped : Bool) :
    ListRead source p.offset p.stop
      (consAttribute ⟨name, value, escaped, Span.between p.offset (p.skip front).offset⟩
        (attributesFrom n (p.skip front))) := by
  have hstop : (Span.between p.offset (p.skip front).offset).stop = (p.skip front).offset :=
    Span.between_stop (Nat.le_add_right _ _)
  refine ListRead.consAttribute (h front hfront) (sound_behind hp hfront) ?_ (Nat.le_refl _) ?_
    (skip_offset_le hfront)
  · show p.offset < (Span.between p.offset (p.skip front).offset).stop
    rw [hstop]
    exact Nat.lt_add_of_pos_right hpos
  · exact Nat.le_of_eq hstop

/-- A fault behind a part of the text, and what follows it. -/
theorem ReadBehind.fault {p : Place} (h : ReadBehind source n p) (hfront : front <+: p.text)
    {f : Fault} (hf : f.span.Sound source) :
    ListRead source p.offset p.stop (consFault f (attributesFrom n (p.skip front))) := by
  apply ListRead.consFault
  · exact fun _ => hf
  · exact fun _ => (h front hfront).mono (Nat.le_add_right _ _)

theorem namedAttribute_read {p : Place} (h : ReadBehind source n p) (hp : p.Within source)
    (hfront : front <+: p.text) (hpos : 0 < byteLength front) (name : List Char) :
    ListRead source p.offset p.stop (namedAttribute n p name (p.skip front)) := by
  unfold namedAttribute
  cases hsign : valueSign (p.skip front) with
  | absent => exact h.attribute hp hfront hpos _ _ _
  | loneMark mark =>
    obtain ⟨space, hspace, rfl, hmark⟩ := valueSign_eq_loneMark hsign
    rw [Place.skip_skip] at hmark ⊢
    have hbefore := Place.append_isPrefix hfront hspace
    have hnext := ((hp.skip hbefore).skip hmark).offset
    simp only [Place.skip_skip]
    exact h.fault (Place.append_isPrefix hbefore hmark)
      (Span.sound_between (hp.skip hbefore).offset hnext (Nat.le_add_right _ _))
  | present escaped afterSign =>
    obtain ⟨sign, hlead, rfl⟩ := valueSign_eq_present hsign
    have hbefore := Place.append_isPrefix hfront hlead
    have hspace := Place.append_isPrefix hbefore
      (List.takeWhile_prefix (l := (p.skip (front ++ sign)).text) isWhiteSpace)
    have hwhole := Place.append_isPrefix hspace (valueFrom_isPrefix 0 .outside none _)
    simp only [Place.skip_skip, Place.skipWhile, attributeValue]
    split
    · exact h.fault hwhole (sound_behind hp hwhole)
    · refine h.attribute hp hwhole ?_ _ _ _
      simp only [byteLength_append]
      omega

/-- Attributes are read one after another. -/
theorem attributesFrom_read (n : Nat) {p : Place} (hp : p.Within source) :
    ListRead source p.offset p.stop (attributesFrom n p) := by
  induction n generalizing p with
  | zero => exact .nil
  | succ n ih =>
    have hgap := List.takeWhile_prefix (l := p.text) isAttributeGap
    have hq : (p.skipWhile isAttributeGap).Within source := hp.skip hgap
    obtain ⟨hle, hstop⟩ : p.offset ≤ (p.skipWhile isAttributeGap).offset ∧
        (p.skipWhile isAttributeGap).stop = p.stop := Place.skip_within hgap
    have hnotGap : ∀ first rest, (p.skipWhile isAttributeGap).text = first :: rest →
        isAttributeGap first = false := fun _ _ => not_gap_of_skipWhile
    rw [attributesFrom_succ, ← hstop]
    refine ListRead.mono ?_ hle
    generalize p.skipWhile isAttributeGap = q at hq hnotGap ⊢
    have hbehind : ReadBehind source n q := by
      intro front hfront
      have hread := ih (hq.skip hfront)
      rwa [(Place.skip_within hfront).2] at hread
    cases htext : q.text with
    | nil =>
      simp only [htext]
      exact .nil
    | cons first rest =>
      simp only [htext]
      cases hname : attributeName first q with
      | unclosed quote =>
        intro _
        refine ⟨.nil, ?_⟩
        simpa using Span.sound_between hq.offset hq.stop (Nat.le_add_right _ _)
      | name name after =>
        obtain ⟨front, hfront, rfl, hlength, hempty⟩ :=
          attributeName_eq_name hname htext (hnotGap first rest htext)
        cases name with
        | nil =>
          have hafter := hq.skip hfront
          have hboundary : Fault.Aligned source ⟨.unexpectedToken .attributeName (String.singleton first),
              Span.between (q.skip front).offset ((q.skip front).offset + first.utf8Size)⟩ →
              IsBoundary source ((q.skip front).offset + first.utf8Size) := by
            intro haligned
            have hstop := haligned _ rfl
            rwa [Span.between_stop (Nat.le_add_right _ _)] at hstop
          apply ListRead.consFault
          · intro haligned
            exact Span.sound_between hafter.offset (hboundary haligned) (Nat.le_add_right _ _)
          · intro haligned
            rcases within_after_emptyName hafter (hempty rfl) (hboundary haligned) with
              hnil | ⟨c, hc, hnext⟩
            · rw [hnil, List.tail_nil, attributesFrom_nil]
              exact .nil
            · rw [hnext, Place.skip_skip]
              exact (hbehind _ (Place.append_isPrefix hfront hc)).mono (Nat.le_add_right _ _)
        | cons c name =>
          refine namedAttribute_read hbehind hq hfront (byteLength_pos ?_) _
          rintro rfl
          simp at hlength

/-- The attributes between parentheses follow one another. -/
theorem attributeList_read {inner : List Char} {offset : Nat}
    (h : (⟨offset, inner⟩ : Place).Within source) :
    ListRead source offset (offset + byteLength inner) (attributeList inner offset) :=
  attributesFrom_read _ h

end

end PugComponents.Template

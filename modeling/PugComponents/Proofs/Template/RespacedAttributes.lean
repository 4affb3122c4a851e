import PugComponents.Proofs.Template.Boundaries
import PugComponents.Proofs.Template.Views
import PugComponents.Proofs.Text.Respacing

/- Attribute lists in a respaced source. Line ends may stand between attributes,
   around the sign of a value, within a value and within a quoted name. They
   count as white space, so that the list in a respaced text has the attributes
   and the faults of the list in the text (`attributeList_respaced`), but for what
   it copies from the source. Nothing is said about offsets: spans are not
   seen. -/
namespace PugComponents.Template

open Text

/-- What is copied from a source is shown respaced. -/
def View.copying (r : Respacing) : View :=
  ⟨r.string, (· + r.width), (· + r.width), fun _ => true, Respacing.string_of_line⟩

variable {r : Respacing}

theorem Respacing.ofList_text (cs : List Char) :
    String.ofList (r.text cs) = (View.copying r).copied (String.ofList cs) := by
  show _ = String.ofList (r.text (String.ofList cs).toList)
  rw [String.toList_ofList]

/-! ## Values -/

theorem carriesOn_append_blank (last : Option Char) {blank : List Char}
    (h : ∀ c ∈ blank, isWhiteSpace c = true) (cs : List Char) :
    carriesOn last (blank ++ cs) = carriesOn last cs := by
  rw [carriesOn, trimStart, List.dropWhile_append_of_pos h, carriesOn, trimStart]

theorem isWhiteSpace_of_mem_feed {c : Char} (h : c ∈ r.feed) : isWhiteSpace c = true :=
  Respacing.keeps_isWhiteSpace c h

/-- The first character that is no white space is the same in the respaced text. -/
theorem carriesOn_text (last : Option Char) (cs : List Char) :
    carriesOn last (r.text cs) = carriesOn last cs := by
  rw [carriesOn, Respacing.trimStart_text, carriesOn]
  cases htrim : trimStart cs with
  | nil => rfl
  | cons next rest =>
    have hhead := List.head?_dropWhile_not isWhiteSpace cs
    have hnext : next ≠ '\n' := by
      rintro rfl
      rw [show cs.dropWhile isWhiteSpace = '\n' :: rest from htrim] at hhead
      cases hhead
    rw [Respacing.text_cons hnext]

/-- White space ends the value here. -/
def endsValue (depth : Nat) (quoting : Quoting) (last : Option Char) (after : List Char) : Bool :=
  quoting.isCode '\n' && depth == 0 && !carriesOn last after

variable {quoting : Quoting}

theorem valueFrom_of_mem_feed (hq : quoting.Proper) (depth : Nat) (last : Option Char) {c : Char}
    (hc : c ∈ r.feed) (cs : List Char) :
    valueFrom depth quoting last (c :: cs) =
      if endsValue depth quoting last cs then ([], c :: cs)
      else consFirst c (valueFrom depth (quoting.next '\n') last cs) := by
  have hspace := isWhiteSpace_of_mem_feed hc
  have hblank : ∀ d ∈ [c], isWhiteSpace d = true := by simpa using hspace
  have hcarries : carriesOn last (c :: cs) = carriesOn last cs := carriesOn_append_blank last hblank cs
  have hcomma : (c == ',') = false := by
    rcases Respacing.mem_feed hc with rfl | rfl | rfl <;> rfl
  have hdepth : nextDepth depth c = depth := by
    rw [nextDepth, Respacing.closerOf?_of_mem_feed hc, Respacing.isCloser_of_mem_feed hc]
    rfl
  rw [valueFrom, Respacing.isCode_of_mem_feed hc, Respacing.next_of_mem_feed hq hc, endsValue]
  simp only [hspace, hcarries, hcomma, hdepth, if_true, Bool.false_or, Bool.true_and]
  cases hcode : quoting.isCode '\n' with
  | false => simp
  | true =>
    obtain rfl : quoting = .outside := by simpa [Respacing.isCode_feed] using hcode
    rfl

/-- White space at a line end ends a value, or is passed, like a line feed. -/
theorem valueFrom_append_feed (hq : quoting.Proper) (depth : Nat) (last : Option Char)
    (cs : List Char) :
    valueFrom depth quoting last (r.feed ++ cs) =
      if endsValue depth quoting last cs then ([], r.feed ++ cs)
      else Respacing.addFront r.feed (valueFrom depth (quoting.next '\n') last cs) := by
  -- A value that goes on behind the first character goes on behind all of them: what is asked is
  -- the next character that is no white space.
  have hrest : endsValue depth quoting last cs = false → ∀ blank : List Char, (∀ c ∈ blank, c ∈ r.feed) →
      valueFrom depth (quoting.next '\n') last (blank ++ cs) =
        Respacing.addFront blank (valueFrom depth (quoting.next '\n') last cs) := by
    intro hgoes blank hblank
    induction blank with
    | nil => rfl
    | cons c blank ih =>
      obtain ⟨hc, hblank⟩ := List.forall_mem_cons.mp hblank
      have hcarries : carriesOn last (blank ++ cs) = carriesOn last cs :=
        carriesOn_append_blank last (fun d hd => isWhiteSpace_of_mem_feed (hblank d hd)) cs
      have hends : endsValue depth (quoting.next '\n') last (blank ++ cs) = false := by
        rw [endsValue, Respacing.isCode_next_feed hq, hcarries]
        exact hgoes
      rw [List.cons_append, valueFrom_of_mem_feed (hq.next _) depth last hc,
        Respacing.next_next_feed hq, ih hblank, hends]
      rfl
  cases hfeed : r.feed with
  | nil => exact absurd hfeed Respacing.feed_ne_nil
  | cons c blank =>
    have hc : c ∈ r.feed := hfeed ▸ List.mem_cons_self
    have hblank : ∀ d ∈ blank, d ∈ r.feed := fun d hd => hfeed ▸ List.mem_cons_of_mem c hd
    have hcarries : carriesOn last (blank ++ cs) = carriesOn last cs :=
      carriesOn_append_blank last (fun d hd => isWhiteSpace_of_mem_feed (hblank d hd)) cs
    have hends : endsValue depth quoting last (blank ++ cs) = endsValue depth quoting last cs := by
      rw [endsValue, hcarries, endsValue]
    rw [List.cons_append, valueFrom_of_mem_feed hq depth last hc, hends]
    cases hgoes : endsValue depth quoting last cs with
    | true => rfl
    | false =>
      simp only [Bool.false_eq_true, if_false, hrest hgoes blank hblank]
      rfl

/-- A value ends alike in the respaced text. -/
theorem valueFrom_text (hq : quoting.Proper) (depth : Nat) (last : Option Char) (cs : List Char) :
    valueFrom depth quoting last (r.text cs) = r.both (valueFrom depth quoting last cs) := by
  induction cs generalizing depth quoting last with
  | nil => rfl
  | cons c cs ih =>
    by_cases hc : c = '\n'
    · subst hc
      have hends : endsValue depth quoting last (r.text cs) = endsValue depth quoting last cs := by
        rw [endsValue, carriesOn_text, endsValue]
      rw [Respacing.text_cons_feed, valueFrom_append_feed hq, hends, ih (hq.next _),
        valueFrom_of_mem_feed hq depth last (Respacing.feed_mem_feed (r := r))]
      split
      · rfl
      · rfl
    · have houtside : ∀ depth last, valueFrom depth .outside last (r.text cs) =
          r.both (valueFrom depth .outside last cs) := by
        intro depth last
        have hproper : Quoting.outside.Proper := trivial
        exact ih hproper depth last
      have hcarries : carriesOn last (c :: r.text cs) = carriesOn last (c :: cs) := by
        rw [← Respacing.text_cons hc, carriesOn_text]
      rw [Respacing.text_cons hc, valueFrom, valueFrom, hcarries]
      split
      · split
        · rw [Respacing.both, Respacing.text_cons hc]
          rfl
        · rw [houtside, Respacing.both_consFirst hc]
      · rw [ih (hq.next c), Respacing.both_consFirst hc]

/-! ## Places -/

/-- The second place stands in the respaced text where the first one stands in the text. -/
structure Place.Respaced (r : Respacing) (p p' : Place) : Prop where
  text : p'.text = r.text p.text
  fits : r.Fits p.text

theorem Place.skipWhile_text (p : Place) (f : Char → Bool) :
    (p.skipWhile f).text = p.text.dropWhile f := by
  have hdropped := List.prefix_iff_eq_append.mp (List.takeWhile_prefix (l := p.text) f)
  exact List.append_cancel_left (hdropped.trans List.takeWhile_append_dropWhile.symm)

variable {front : List Char}

namespace Place.Respaced

variable {p p' : Place}

/-- A part of the text is passed, and the respaced part of the respaced text. -/
theorem skip (h : p.Respaced r p') (hfront : front <+: p.text) :
    (p.skip front).Respaced r (p'.skip (r.text front)) where
  text := by
    show p'.text.drop (r.text front).length = r.text (p.text.drop front.length)
    rw [h.text, Respacing.drop_text hfront]
  fits := h.fits.suffix (List.drop_suffix _ _)

/-- A part of the line is passed. -/
theorem skipLine (h : p.Respaced r p') (hfront : front <+: p.text) (hline : '\n' ∉ front) :
    (p.skip front).Respaced r (p'.skip front) := by
  have hskip := h.skip hfront
  rwa [Respacing.text_of_line hline] at hskip

theorem skipWhile (h : p.Respaced r p') {f : Char → Bool} (hf : r.Keeps f) :
    (p.skipWhile f).Respaced r (p'.skipWhile f) where
  text := by
    rw [skipWhile_text, skipWhile_text, h.text, Respacing.dropWhile_text hf]
  fits := by
    rw [skipWhile_text]
    exact h.fits.suffix (List.dropWhile_suffix _)

end Place.Respaced

/-! ## Names and signs -/

/-- The second name is the first one, respaced. -/
inductive NameReading.Respaced (r : Respacing) : NameReading → NameReading → Prop
  | name (text : List Char) {after after' : Place} (h : after.Respaced r after') :
    Respaced r (.name text after) (.name (r.text text) after')
  | unclosed (quote : Char) : Respaced r (.unclosed quote) (.unclosed quote)

theorem attributeName_respaced {p p' : Place} (h : p.Respaced r p') {first : Char} {rest : List Char}
    (htext : p.text = first :: rest) (hspace : isWhiteSpace first = false) :
    (attributeName first p).Respaced r (attributeName first p') := by
  have hfeed := Respacing.ne_feed_of_not_isWhiteSpace hspace
  have htext' : p'.text = first :: r.text rest := by
    rw [h.text, htext, Respacing.text_cons hfeed]
  unfold attributeName
  split
  · rw [htext, htext', List.tail_cons, List.tail_cons]
    have hclosed : (r.text rest).contains first = rest.contains first := by
      rw [Bool.eq_iff_iff, List.contains_iff_mem, List.contains_iff_mem]
      exact Respacing.mem_text hspace
    rw [hclosed]
    split
    · rename_i hmem
      have hfront : first :: (rest.takeWhile (· != first) ++ [first]) <+: p.text := by
        rw [htext, List.cons_prefix_cons]
        exact ⟨rfl, takeWhile_ne_isPrefix (by simpa using hmem)⟩
      have hquoted : r.text (first :: (rest.takeWhile (· != first) ++ [first])) =
          first :: ((r.text rest).takeWhile (· != first) ++ [first]) := by
        rw [Respacing.text_cons hfeed, Respacing.text_append,
          Respacing.takeWhile_text (Respacing.keeps_ne hspace), Respacing.text_cons hfeed]
        rfl
      have hafter := h.skip hfront
      rw [hquoted] at hafter
      simp only [Respacing.takeWhile_text (Respacing.keeps_ne hspace)] at hafter ⊢
      exact .name _ hafter
    · exact .unclosed first
  · have hkeeps : r.Keeps (!endsAttributeName ·) := Respacing.keeps_of rfl rfl
    have hname : p'.text.takeWhile (!endsAttributeName ·) =
        r.text (p.text.takeWhile (!endsAttributeName ·)) := by
      rw [h.text, Respacing.takeWhile_text hkeeps]
    simp only [hname]
    exact .name _ (h.skip (List.takeWhile_prefix _))

/-- The second sign is the first one in the respaced text. -/
inductive ValueReading.Respaced (r : Respacing) : ValueReading → ValueReading → Prop
  | absent : Respaced r .absent .absent
  | present (escaped : Bool) {after after' : Place} (h : after.Respaced r after') :
    Respaced r (.present escaped after) (.present escaped after')
  | loneMark {mark mark' : Place} (h : (mark.skip ['!']).Respaced r (mark'.skip ['!'])) :
    Respaced r (.loneMark mark) (.loneMark mark')

theorem valueSign_respaced {p p' : Place} (h : p.Respaced r p') :
    (valueSign p).Respaced r (valueSign p') := by
  have hsign := h.skipWhile Respacing.keeps_isWhiteSpace
  unfold valueSign
  simp only
  generalize p.skipWhile isWhiteSpace = sign at hsign ⊢
  generalize p'.skipWhile isWhiteSpace = sign' at hsign ⊢
  have htext' := hsign.text
  split
  · rename_i rest htext
    have hfront : ['!', '='] <+: sign.text := ⟨rest, htext.symm⟩
    have hnext : sign'.text = '!' :: '=' :: r.text rest := by rw [htext', htext]; rfl
    rw [hnext]
    exact .present false (hsign.skipLine hfront (by decide))
  · rename_i rest htext
    have hfront : ['='] <+: sign.text := ⟨rest, htext.symm⟩
    have hnext : sign'.text = '=' :: r.text rest := by rw [htext', htext]; rfl
    rw [hnext]
    exact .present true (hsign.skipLine hfront (by decide))
  · rename_i rest hno htext
    -- No equals sign follows the mark in the respaced text either.
    have hnext : sign'.text = '!' :: r.text rest := by rw [htext', htext]; rfl
    have hno' : ∀ t, r.text rest ≠ '=' :: t := by
      intro t ht
      obtain ⟨u, rfl, -⟩ := Respacing.text_eq_cons (by decide) ht
      exact hno u rfl
    rw [hnext]
    split
    · rename_i heq
      exact absurd (List.cons.inj heq).2 (hno' _)
    · rename_i heq
      exact absurd (List.cons.inj heq).1 (by decide)
    · exact .loneMark (hsign.skipLine ⟨rest, htext.symm⟩ (by decide))
    · rename_i heq
      exact absurd rfl (heq _)
  · rename_i hmarked hequals hmark
    have hno : ∀ c t, isWhiteSpace c = false → sign'.text = c :: t → ∃ u, sign.text = c :: u := by
      intro c t hc ht
      obtain ⟨u, hu, -⟩ := Respacing.text_eq_cons hc (htext'.symm.trans ht)
      exact ⟨u, hu⟩
    split
    · rename_i heq
      obtain ⟨u, hu⟩ := hno '!' _ (by decide) heq
      exact absurd hu (hmark u)
    · rename_i heq
      obtain ⟨u, hu⟩ := hno '=' _ (by decide) heq
      exact absurd hu (hequals u)
    · rename_i heq
      obtain ⟨u, hu⟩ := hno '!' _ (by decide) heq
      exact absurd hu (hmark u)
    · exact .absent

/-! ## Attribute lists -/

theorem Place.length_skip_lt_of_ne_nil {p : Place} (hfront : front <+: p.text) (hne : front ≠ []) :
    (p.skip front).text.length < p.text.length := by
  cases front with
  | nil => exact absurd rfl hne
  | cons c front => exact Place.length_skip_lt hfront

variable {n : Nat}

/-- What follows a name is read from shorter places only. -/
theorem namedAttribute_congr {m : Nat} {p : Place} (hfront : front <+: p.text) (hne : front ≠ [])
    (h : ∀ q : Place, q.text.length < p.text.length → attributesFrom n q = attributesFrom m q)
    (name : List Char) :
    namedAttribute n p name (p.skip front) = namedAttribute m p name (p.skip front) := by
  have hskip : ∀ more, front ++ more <+: p.text →
      attributesFrom n (p.skip (front ++ more)) = attributesFrom m (p.skip (front ++ more)) :=
    fun more hmore => h _ (Place.length_skip_lt_of_ne_nil hmore (by simp [hne]))
  unfold namedAttribute
  cases hsign : valueSign (p.skip front) with
  | absent => rw [h _ (Place.length_skip_lt_of_ne_nil hfront hne)]
  | loneMark mark =>
    obtain ⟨space, hspace, rfl, hmark⟩ := valueSign_eq_loneMark hsign
    rw [Place.skip_skip] at hmark
    have hwhole := Place.append_isPrefix (Place.append_isPrefix hfront hspace) hmark
    rw [List.append_assoc] at hwhole
    simp only [Place.skip_skip, List.append_assoc, hskip _ hwhole]
  | present escaped afterSign =>
    obtain ⟨sign, hlead, rfl⟩ := valueSign_eq_present hsign
    have hbefore := Place.append_isPrefix hfront hlead
    have hspace := Place.append_isPrefix hbefore
      (List.takeWhile_prefix (l := (p.skip (front ++ sign)).text) isWhiteSpace)
    have hwhole := Place.append_isPrefix hspace (valueFrom_isPrefix 0 .outside none _)
    simp only [List.append_assoc] at hwhole
    simp only [Place.skip_skip, Place.skipWhile, attributeValue, List.append_assoc, hskip _ hwhole]

/-- Each step passes a character, so more steps than characters make no difference. -/
theorem attributesFrom_fuel {m : Nat} {p : Place} (hn : p.text.length < n) (hm : p.text.length < m) :
    attributesFrom n p = attributesFrom m p := by
  induction n generalizing m p with
  | zero => omega
  | succ n ih =>
    cases m with
    | zero => omega
    | succ m =>
      have hgap : (p.skipWhile isAttributeGap).text.length ≤ p.text.length := p.length_skip_le _
      have hnotGap : ∀ first rest, (p.skipWhile isAttributeGap).text = first :: rest →
          isAttributeGap first = false := fun _ _ => not_gap_of_skipWhile
      rw [attributesFrom_succ, attributesFrom_succ]
      generalize p.skipWhile isAttributeGap = q at hgap hnotGap ⊢
      have hshorter : ∀ next : Place, next.text.length < q.text.length →
          attributesFrom n next = attributesFrom m next :=
        fun next hnext => ih (by omega) (by omega)
      cases htext : q.text with
      | nil => simp only [htext]
      | cons first rest =>
        simp only [htext]
        cases hname : attributeName first q with
        | unclosed quote => rfl
        | name name after =>
          obtain ⟨front, hfront, rfl, hlength, -⟩ :=
            attributeName_eq_name hname htext (hnotGap first rest htext)
          cases name with
          | nil =>
            have hle := q.length_skip_le front
            have htail : (q.skip front).text.tail.length < q.text.length := by
              have hpos : 0 < q.text.length := by rw [htext]; exact Nat.succ_pos _
              rw [List.length_tail]
              omega
            simp only [hshorter ⟨_, (q.skip front).text.tail⟩ htail]
          | cons c name =>
            have hne : front ≠ [] := by
              rintro rfl
              simp at hlength
            exact namedAttribute_congr hfront hne hshorter (c :: name)

/-- Passing one more character leaves the same text behind the gap. -/
theorem dropWhile_tail_text {f : Char → Bool} (hf : r.Keeps f) (hfeed : f '\n' = true) (cs : List Char) :
    (r.text cs).tail.dropWhile f = r.text (cs.tail.dropWhile f) := by
  cases cs with
  | nil => rfl
  | cons c cs =>
    by_cases hc : c = '\n'
    · subst hc
      rw [Respacing.text_cons_feed, List.tail_cons, ← Respacing.dropWhile_text hf]
      cases hlist : r.feed with
      | nil => exact absurd hlist Respacing.feed_ne_nil
      | cons d blank =>
        have hblank : ∀ e ∈ blank, f e = true :=
          fun e he => (hf e (hlist ▸ List.mem_cons_of_mem d he)).trans hfeed
        rw [List.cons_append, List.tail_cons, List.dropWhile_append_of_pos hblank]
    · rw [Respacing.text_cons hc, List.tail_cons, List.tail_cons, Respacing.dropWhile_text hf]

theorem keeps_isAttributeGap : r.Keeps isAttributeGap := Respacing.keeps_of rfl rfl

/-- What is read of an attribute list in the text and in the respaced text is seen alike. -/
abbrev ListAlike (r : Respacing) (found found' : List Attribute × List Fault) : Prop :=
  BothAlike (.copying r) Attribute.seen found found'

theorem ListAlike.consAttribute {found found' : List Attribute × List Fault} (h : ListAlike r found found')
    {a a' : Attribute} (ha : a'.seen .plain = a.seen (.copying r)) :
    ListAlike r (consAttribute a found) (consAttribute a' found') :=
  ⟨h.values.cons ha, h.faults⟩

theorem ListAlike.consFault {found found' : List Attribute × List Fault} (h : ListAlike r found found')
    {f f' : Fault} (hf : f'.seen .plain = f.seen (.copying r)) :
    ListAlike r (consFault f found) (consFault f' found') :=
  ⟨h.values, h.faults.cons hf⟩

/-- An attribute and what follows it, if what follows is read alike. -/
theorem namedAttribute_respaced
    (h : ∀ q q' : Place, (q.skipWhile isAttributeGap).Respaced r (q'.skipWhile isAttributeGap) →
      ListAlike r (attributesFrom n q) (attributesFrom n q'))
    {after after' : Place} (hafter : after.Respaced r after') (p p' : Place) (name : List Char) :
    ListAlike r (namedAttribute n p name after) (namedAttribute n p' (r.text name) after') := by
  have hmore : ∀ q q' : Place, q.Respaced r q' → ListAlike r (attributesFrom n q) (attributesFrom n q') :=
    fun q q' hq => h q q' (hq.skipWhile keeps_isAttributeGap)
  have hsign := valueSign_respaced hafter
  unfold namedAttribute
  generalize valueSign after = sign at hsign ⊢
  generalize valueSign after' = sign' at hsign ⊢
  cases hsign with
  | absent =>
    apply ListAlike.consAttribute (hmore _ _ hafter)
    simp only [Attribute.seen, Respacing.ofList_text]
    rfl
  | loneMark hmark => exact ListAlike.consFault (hmore _ _ hmark) rfl
  | @present escaped afterSign afterSign' hafterSign =>
    have hstart := hafterSign.skipWhile Respacing.keeps_isWhiteSpace
    have hproper : Quoting.outside.Proper := trivial
    simp only
    generalize afterSign.skipWhile isWhiteSpace = start at hstart ⊢
    generalize afterSign'.skipWhile isWhiteSpace = start' at hstart ⊢
    have hvalue : (attributeValue start'.text).1 = r.text (attributeValue start.text).1 := by
      rw [hstart.text, attributeValue, valueFrom_text hproper]
      rfl
    have hstop := hmore _ _ (hstart.skip (valueFrom_isPrefix 0 .outside none start.text))
    have hempty : (trim (r.text (attributeValue start.text).1)).isEmpty =
        (trim (attributeValue start.text).1).isEmpty := by
      rw [Respacing.trim_text, Bool.eq_iff_iff, List.isEmpty_iff, List.isEmpty_iff, Respacing.text_eq_nil]
    rw [hvalue, hempty]
    split
    · apply ListAlike.consFault hstop
      simp only [Fault.seen, Cause.seen, Respacing.ofList_text]
      rfl
    · apply ListAlike.consAttribute hstop
      simp only [Attribute.seen, AttributeValue.seen, Respacing.trim_text, Respacing.ofList_text]
      rfl

/-- From places in the text and the respaced text on, the same attributes are read. The places may
differ in the gap before the next attribute. -/
theorem attributesFrom_respaced (n : Nat) {p p' : Place}
    (h : (p.skipWhile isAttributeGap).Respaced r (p'.skipWhile isAttributeGap)) :
    ListAlike r (attributesFrom n p) (attributesFrom n p') := by
  induction n generalizing p p' with
  | zero => exact ⟨.nil _, .nil _⟩
  | succ n ih =>
    have hnotGap : ∀ first rest, (p.skipWhile isAttributeGap).text = first :: rest →
        isAttributeGap first = false := fun _ _ => not_gap_of_skipWhile
    rw [attributesFrom_succ, attributesFrom_succ]
    generalize p.skipWhile isAttributeGap = q at h hnotGap ⊢
    generalize p'.skipWhile isAttributeGap = q' at h ⊢
    have htext' := h.text
    cases htext : q.text with
    | nil =>
      rw [htext] at htext'
      simp only [htext, htext', Respacing.text_nil]
      exact ⟨.nil _, .nil _⟩
    | cons first rest =>
      have hspace : isWhiteSpace first = false := (Bool.or_eq_false_iff.mp (hnotGap first rest htext)).1
      rw [htext, Respacing.text_cons (Respacing.ne_feed_of_not_isWhiteSpace hspace)] at htext'
      have hname := attributeName_respaced h htext hspace
      simp only [htext, htext']
      generalize attributeName first q = reading at hname ⊢
      generalize attributeName first q' = reading' at hname ⊢
      cases hname with
      | unclosed quote => exact ⟨.nil _, rfl⟩
      | @name name after after' hafter =>
        cases name with
        | nil =>
          -- Without a name one character is passed. At a line end it is one of several in the
          -- respaced text, and the gap takes the others.
          refine ListAlike.consFault (ih ?_) rfl
          have hgap : ∀ q : Place, (q.skipWhile isAttributeGap).text = q.text.dropWhile isAttributeGap :=
            fun q => q.skipWhile_text isAttributeGap
          refine ⟨?_, ?_⟩
          · rw [hgap, hgap]
            show after'.text.tail.dropWhile isAttributeGap = _
            rw [hafter.text, dropWhile_tail_text keeps_isAttributeGap rfl]
          · rw [hgap]
            exact hafter.fits.suffix ((List.dropWhile_suffix _).trans (List.tail_suffix _))
        | cons c name =>
          have hnamed := namedAttribute_respaced (fun _ _ => ih) hafter q q' (c :: name)
          cases hrespaced : r.text (c :: name) with
          | nil => cases Respacing.text_eq_nil.mp hrespaced
          | cons d name' =>
            rw [hrespaced] at hnamed
            exact hnamed

/-- The attributes between parentheses are the same in the respaced text. -/
theorem attributeList_respaced {inner : List Char} (hfits : r.Fits inner) (offset offset' : Nat) :
    ListAlike r (attributeList inner offset) (attributeList (r.text inner) offset') := by
  have hplaces : (⟨offset, inner⟩ : Place).Respaced r ⟨offset', r.text inner⟩ := ⟨rfl, hfits⟩
  have hfuel : ∀ (cs : List Char) (o : Nat), cs.length ≤ inner.length + (r.text inner).length →
      attributeList cs o = attributesFrom (inner.length + (r.text inner).length + 1) ⟨o, cs⟩ :=
    fun cs o hle => attributesFrom_fuel (p := ⟨o, cs⟩) (Nat.lt_succ_self _) (Nat.lt_succ_of_le hle)
  rw [hfuel inner offset (Nat.le_add_right _ _), hfuel _ offset' (Nat.le_add_left _ _)]
  exact attributesFrom_respaced _ (hplaces.skipWhile keeps_isAttributeGap)

end PugComponents.Template

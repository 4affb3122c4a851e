import PugComponents.Proofs.Template.Places

/- The marker of a line. A line that starts with a letter starts with a word. Its marker is the
   keyword that the whole word is, if what follows the word lets it be one, and a tag name
   otherwise (`leading?_word`), so a keyword at the front of a longer name does not count. A
   line that starts with no letter has the longest of the signs that stand at its front
   (`leading?_sign`), and no marker if none does. -/
namespace PugComponents.Template

open Text
open Marker (isNamePart isNameStart)

/-- The signs that a line can start with. -/
inductive Sign : Marker → List Char → Prop
  | silentComment : Sign .silentComment ['/', '/', '-']
  | comment : Sign .comment ['/', '/']
  | pipe : Sign .pipe ['|']
  | code : Sign .code ['-']
  | bufferedCode : Sign .bufferedCode ['=']
  | unescapedCode : Sign .unescapedCode ['!', '=']
  | html : Sign .html ['<']
  | interpolatedTag : Sign .interpolatedTag ['#', '\x7b']
  | mixinCall {c : Char} {cs : List Char} (hc : c.isAlpha = true ∨ c = '_' ∨ c = '$')
      (hcs : ∀ d ∈ cs, isNamePart d = true ∨ d = '$') : Sign .mixinCall ('+' :: c :: cs)
  | filter {c : Char} {cs : List Char} (hc : c.isAlpha = true ∨ c = '_')
      (hcs : ∀ d ∈ cs, isNamePart d = true) : Sign .filter (':' :: c :: cs)
  | className {c : Char} {cs : List Char} (hc : isNameStart c = true)
      (hcs : ∀ d ∈ cs, isNamePart d = true) : Sign .className ('.' :: c :: cs)
  | idName {c : Char} {cs : List Char} (hc : isNameStart c = true)
      (hcs : ∀ d ∈ cs, isNamePart d = true) : Sign .idName ('#' :: c :: cs)

/-- What may follow a word that is a keyword. -/
inductive Keyword.Ends (k : Keyword) : List Char → Prop
  | nothing : Ends k []
  | space {c : Char} {cs : List Char} (hc : isWhiteSpace c = true) : Ends k (c :: cs)
  | colon {cs : List Char} (hk : k = .includeFile ∨ k = .defaultBranch) : Ends k (':' :: cs)
  | parenthesis {cs : List Char}
      (hk : k = .ifTest ∨ k = .unlessTest ∨ k = .whileLoop ∨ k = .caseOf) : Ends k ('(' :: cs)

theorem Keyword.mayPrecede_iff (k : Keyword) (text : List Char) :
    k.mayPrecede text = true ↔ k.Ends text := by
  constructor
  · intro h
    cases text with
    | nil => exact .nothing
    | cons c cs =>
      simp only [mayPrecede, Bool.or_eq_true, Bool.and_eq_true, beq_iff_eq] at h
      rcases h with (hc | ⟨rfl, hk⟩) | ⟨rfl, hk⟩
      · exact .space hc
      · exact .colon hk
      · exact .parenthesis (by simpa [or_assoc] using hk)
  · intro h
    cases h with
    | nothing => rfl
    | space hc | colon hc => simp [mayPrecede, hc]
    | parenthesis hk => simpa [mayPrecede, or_assoc] using .inr hk

/-! ## Matches of single markers -/

variable {text : List Char} {n : Nat}

theorem literalLength?_eq_some {literal : String} :
    Marker.literalLength? literal text = some n ↔ literal.toList <+: text ∧ literal.toList.length = n := by
  unfold Marker.literalLength?
  constructor
  · intro h
    split at h
    · rename_i hstarts
      exact ⟨isPrefix_of_startsWith hstarts, String.length_toList.trans (Option.some.inj h)⟩
    · cases h
  · rintro ⟨⟨rest, rfl⟩, rfl⟩
    rw [startsWith, dropPrefix?_append, String.length_toList]
    rfl

variable {lead : Char}

theorem ledLength?_eq_some {first next : Char → Bool} :
    Marker.ledLength? lead first next text = some n ↔
      ∃ c cs, text = lead :: c :: cs ∧ first c = true ∧ (cs.takeWhile next).length + 2 = n := by
  constructor
  · intro h
    unfold Marker.ledLength? at h
    split at h
    · cases h
    · rename_i sign rest
      split at h
      · rename_i hlead
        obtain ⟨length, hword, rfl⟩ := Option.map_eq_some_iff.mp h
        unfold Marker.wordLength? at hword
        split at hword
        · cases hword
        · rename_i c cs
          split at hword
          · rename_i hc
            cases hword
            exact ⟨c, cs, by rw [beq_iff_eq.mp hlead], hc, by omega⟩
          · cases hword
      · cases h
  · rintro ⟨c, cs, rfl, hc, rfl⟩
    simp [Marker.ledLength?, Marker.wordLength?, hc]
    omega

/-! ## The first of the longest matches -/

variable {ms : List (Marker × Nat)}

theorem mem_of_longest? {m : Marker × Nat} (h : Marker.longest? ms = some m) : m ∈ ms := by
  induction ms with
  | nil => cases h
  | cons first ms ih =>
    rw [Marker.longest?] at h
    split at h
    · cases h
      exact List.mem_cons_self
    · rename_i best hbest
      split at h
      · cases h
        exact List.mem_cons_self
      · cases h
        exact List.mem_cons_of_mem first (ih hbest)

theorem longest?_eq_none : Marker.longest? ms = none ↔ ms = [] := by
  constructor
  · intro h
    cases ms with
    | nil => rfl
    | cons first ms =>
      rw [Marker.longest?] at h
      split at h
      · cases h
      · split at h <;> cases h
  · rintro rfl
    rfl

/-- The longest match is at least as long as every other. -/
theorem le_of_longest? {m : Marker × Nat} (h : Marker.longest? ms = some m) :
    ∀ other ∈ ms, other.2 ≤ m.2 := by
  induction ms generalizing m with
  | nil => cases h
  | cons first ms ih =>
    intro other hother
    rw [Marker.longest?] at h
    cases hbest : Marker.longest? ms with
    | none =>
      rw [hbest] at h
      cases h
      rw [longest?_eq_none.mp hbest] at hother
      exact List.mem_singleton.mp hother ▸ Nat.le_refl _
    | some best =>
      rw [hbest] at h
      have hrest := ih hbest
      simp only at h
      split at h
      · rename_i hle
        cases h
        rcases List.mem_cons.mp hother with rfl | hother
        · exact Nat.le_refl _
        · exact Nat.le_trans (hrest other hother) hle
      · rename_i hlt
        cases h
        rcases List.mem_cons.mp hother with rfl | hother
        · omega
        · exact hrest other hother

/-- Of equally long matches the first counts. -/
theorem mem_front_of_longest? {front back : List (Marker × Nat)} {m other : Marker × Nat}
    (h : Marker.longest? (front ++ back) = some m) (hother : other ∈ front) (hle : m.2 ≤ other.2) :
    m ∈ front := by
  induction front with
  | nil => cases hother
  | cons first front ih =>
    rw [List.cons_append, Marker.longest?] at h
    split at h
    · cases h
      exact List.mem_cons_self
    · rename_i best hbest
      split at h
      · cases h
        exact List.mem_cons_self
      · rename_i hlt
        cases h
        rcases List.mem_cons.mp hother with rfl | hother
        · exact absurd hle hlt
        · exact List.mem_cons_of_mem first (ih hbest hother)

/-! ## Candidates -/

/-- The sign of a marker stands at the front of the text and has this length. -/
def SignAt (text : List Char) (m : Marker) (n : Nat) : Prop :=
  ∃ front, Sign m front ∧ front <+: text ∧ front.length = n

variable {m : Marker}

theorem signAt_of_literal {literal : String} (hsign : Sign m literal.toList)
    (h : Marker.literalLength? literal text = some n) : SignAt text m n :=
  ⟨literal.toList, hsign, literalLength?_eq_some.mp h⟩

/-- A word after a lead character is a sign, with as many characters as belong to it. -/
theorem signAt_of_led {first next : Char → Bool}
    (hsign : ∀ c cs, first c = true → (∀ d ∈ cs, next d = true) → Sign m (lead :: c :: cs))
    (h : Marker.ledLength? lead first next text = some n) : SignAt text m n := by
  obtain ⟨c, cs, rfl, hc, rfl⟩ := ledLength?_eq_some.mp h
  refine ⟨lead :: c :: cs.takeWhile next, hsign c _ hc (List.all_eq_true.mp List.all_takeWhile), ?_, rfl⟩
  rw [List.prefix_cons_inj, List.prefix_cons_inj]
  exact List.takeWhile_prefix next

/-- A candidate is a keyword, a tag name or a sign at the front of the text. -/
theorem mem_candidates (h : (m, n) ∈ Marker.candidates text) :
    (∃ k, m = .keyword k ∧ k.text.toList <+: text ∧ k.text.toList.length = n) ∨
      (m = .tagName ∧ Marker.wordLength? Char.isAlpha isNamePart text = some n) ∨ SignAt text m n := by
  simp only [Marker.candidates, Marker.literals, List.mem_append, List.mem_filterMap, List.mem_cons, List.not_mem_nil,
    Option.map_eq_some_iff, Prod.mk.injEq, Prod.exists, or_false] at h
  rcases h with (⟨_, _, hliteral, _, hn, rfl, rfl⟩ | ⟨k, -, _, hn, rfl, rfl⟩) | ⟨_, _, hword, _, hn, rfl, rfl⟩
  · refine .inr (.inr (signAt_of_literal ?_ hn))
    rcases hliteral with ⟨rfl, rfl⟩ | ⟨rfl, rfl⟩ | ⟨rfl, rfl⟩ | ⟨rfl, rfl⟩ | ⟨rfl, rfl⟩ | ⟨rfl, rfl⟩ |
      ⟨rfl, rfl⟩ | ⟨rfl, rfl⟩
    · exact .silentComment
    · exact .comment
    · exact .pipe
    · exact .code
    · exact .bufferedCode
    · exact .unescapedCode
    · exact .interpolatedTag
    · exact .html
  · exact .inl ⟨k, rfl, literalLength?_eq_some.mp hn⟩
  · rcases hword with ⟨rfl, rfl⟩ | ⟨rfl, rfl⟩ | ⟨rfl, rfl⟩ | ⟨rfl, rfl⟩ | ⟨rfl, rfl⟩
    · refine .inr (.inr (signAt_of_led (fun c cs hc hcs => .mixinCall ?_ fun d hd => ?_) hn))
      · simpa [or_assoc] using hc
      · simpa using hcs d hd
    · exact .inr (.inr (signAt_of_led (fun c cs hc hcs => .filter (by simpa using hc) hcs) hn))
    · exact .inr (.inr (signAt_of_led (fun c cs hc hcs => .className hc hcs) hn))
    · exact .inr (.inr (signAt_of_led (fun c cs hc hcs => .idName hc hcs) hn))
    · exact .inr (.inl ⟨rfl, hn⟩)

theorem length_le_of_led (first next : Char → Bool) {c : Char} {cs : List Char}
    (hc : first c = true) (hcs : ∀ d ∈ cs, next d = true) (h : lead :: c :: cs <+: text) :
    ∃ n, Marker.ledLength? lead first next text = some n ∧ (lead :: c :: cs).length ≤ n := by
  obtain ⟨rest, rfl⟩ := h
  refine ⟨_, ledLength?_eq_some.mpr ⟨c, cs ++ rest, rfl, hc, rfl⟩, ?_⟩
  rw [List.takeWhile_append_of_pos hcs, List.length_append, List.length_cons, List.length_cons]
  omega

variable {front : List Char}

theorem literal_mem_candidates (hm : (m, String.ofList front) ∈ Marker.literals)
    (hfront : front <+: text) : (m, front.length) ∈ Marker.candidates text := by
  have hlength : Marker.literalLength? (String.ofList front) text = some front.length := by
    rw [literalLength?_eq_some, String.toList_ofList]
    exact ⟨hfront, rfl⟩
  refine List.mem_append_left _ (List.mem_append_left _ (List.mem_filterMap.mpr ⟨_, hm, ?_⟩))
  simp only [hlength, Option.map_some]

/-- A sign at the front of the text is a candidate, unless a longer one of its kind is. -/
theorem exists_candidate (h : SignAt text m n) :
    ∃ length, (m, length) ∈ Marker.candidates text ∧ n ≤ length := by
  obtain ⟨front, hsign, hfront, rfl⟩ := h
  cases hsign with
  | silentComment | comment | pipe | code | bufferedCode | unescapedCode | html | interpolatedTag =>
    exact ⟨_, literal_mem_candidates (by decide) hfront, Nat.le_refl _⟩
  | mixinCall hc hcs =>
    obtain ⟨length, hlength, hle⟩ := length_le_of_led
      (fun c => c.isAlpha || c == '_' || c == '$') (fun c => isNamePart c || c == '$')
      (by simpa [or_assoc] using hc) (by simpa using hcs) hfront
    exact ⟨length, by simp [Marker.candidates, hlength], hle⟩
  | filter hc hcs =>
    obtain ⟨length, hlength, hle⟩ := length_le_of_led (fun c => c.isAlpha || c == '_') isNamePart
      (by simpa using hc) hcs hfront
    exact ⟨length, by simp [Marker.candidates, hlength], hle⟩
  | className hc hcs | idName hc hcs =>
    obtain ⟨length, hlength, hle⟩ := length_le_of_led isNameStart isNamePart hc hcs hfront
    exact ⟨length, by simp [Marker.candidates, hlength], hle⟩

/-! ## Words -/

/-- The text starts with a letter. -/
def startsWord (text : List Char) : Bool := text.head?.any Char.isAlpha

theorem isNamePart_of_isAlpha (c : Char) (h : c.isAlpha = true) : isNamePart c = true := by
  show (c.isAlpha || c.isDigit || c == '_' || c == '-') = true
  rw [h]
  rfl

theorem Keyword.startsWord_text (k : Keyword) : startsWord k.text.toList = true := by
  cases k <;> rfl

theorem Keyword.all_text (k : Keyword) : k.text.toList.all isNamePart = true := by
  cases k <;> rfl

theorem Keyword.mem_all (k : Keyword) : k ∈ Keyword.all := by
  cases k <;> decide

variable {k : Keyword}

/-- A keyword is told by its text. -/
theorem Keyword.text_inj {other : Keyword} (h : k.text.toList = other.text.toList) : k = other := by
  have hfind (k : Keyword) : Keyword.all.find? (·.text.toList == k.text.toList) = some k := by
    cases k <;> rfl
  have hk := hfind k
  rw [h, hfind other] at hk
  exact (Option.some.inj hk).symm

theorem startsWord_of_isPrefix (hfront : front <+: text) (h : startsWord front = true) :
    startsWord text = true := by
  obtain ⟨rest, rfl⟩ := hfront
  cases front with
  | nil => cases h
  | cons c cs => exact h

/-- No sign starts with a letter. -/
theorem Sign.startsWord_eq_false (h : Sign m front) : startsWord front = false := by
  cases h <;> rfl

theorem Sign.ne_nil (h : Sign m front) : front ≠ [] := by
  cases h <;> simp

theorem wordLength?_of_startsWord (h : startsWord text = true) :
    Marker.wordLength? Char.isAlpha isNamePart text = some (text.takeWhile isNamePart).length := by
  cases text with
  | nil => cases h
  | cons c cs =>
    have hc : c.isAlpha = true := h
    rw [Marker.wordLength?, if_pos hc, List.takeWhile_cons_of_pos (isNamePart_of_isAlpha c hc),
      List.length_cons, Nat.add_comm]

/-- A keyword that is as long as the whole word comes before the tag name. -/
theorem scan?_ne_tagName (h : k.text.toList <+: text) :
    Marker.scan? text ≠ some (.tagName, k.text.toList.length) := by
  intro hscan
  have hlength : Marker.literalLength? k.text text = some k.text.toList.length :=
    literalLength?_eq_some.mpr ⟨h, rfl⟩
  have hkeyword : (Marker.keyword k, k.text.toList.length) ∈ Keyword.all.filterMap fun k =>
      (Marker.literalLength? k.text text).map (Marker.keyword k, ·) :=
    List.mem_filterMap.mpr ⟨k, k.mem_all, by rw [hlength]; rfl⟩
  have hfirst := mem_front_of_longest? (show Marker.longest? (_ ++ _) = _ from hscan)
    (List.mem_append_right _ hkeyword) (Nat.le_refl _)
  simp [Marker.literals] at hfirst

/-- The longest marker of a text that starts with a letter is as long as its first word: the keyword
that the word is, if it is one, or else a tag name. -/
theorem scan?_word (h : startsWord text = true) :
    ∃ m, Marker.scan? text = some (m, (text.takeWhile isNamePart).length) ∧
      ((∃ k, m = .keyword k ∧ k.text.toList = text.takeWhile isNamePart) ∨
        m = .tagName ∧ ∀ k : Keyword, k.text.toList ≠ text.takeWhile isNamePart) := by
  have hword : (Marker.tagName, (text.takeWhile isNamePart).length) ∈ Marker.candidates text := by
    simp [Marker.candidates, wordLength?_of_startsWord h]
  cases hscan : Marker.scan? text with
  | none =>
    rw [longest?_eq_none.mp hscan] at hword
    cases hword
  | some best =>
    obtain ⟨m, n⟩ := best
    have hle := le_of_longest? hscan _ hword
    rcases mem_candidates (mem_of_longest? hscan) with ⟨k, rfl, hfront, rfl⟩ | ⟨rfl, hn⟩ | ⟨front, hsign, hfront, -⟩
    · -- The word goes on as long as the keyword does.
      have hprefix : k.text.toList <+: text.takeWhile isNamePart := by
        obtain ⟨rest, rfl⟩ := hfront
        rw [List.takeWhile_append_of_pos (List.all_eq_true.mp k.all_text)]
        exact List.prefix_append _ _
      have heq := hprefix.eq_of_length_le hle
      exact ⟨_, by rw [heq], .inl ⟨k, rfl, heq⟩⟩
    · rw [wordLength?_of_startsWord h] at hn
      cases hn
      refine ⟨_, rfl, .inr ⟨rfl, fun k hk => ?_⟩⟩
      have hfront : k.text.toList <+: text := hk ▸ List.takeWhile_prefix _
      exact scan?_ne_tagName hfront (hk ▸ hscan)
    · obtain ⟨rest, rfl⟩ := hfront
      cases front with
      | nil => exact absurd rfl hsign.ne_nil
      | cons c cs => exact absurd (hsign.startsWord_eq_false.symm.trans h) Bool.false_ne_true

theorem drop_takeWhile (f : Char → Bool) (text : List Char) :
    text.drop (text.takeWhile f).length = text.dropWhile f := by
  have hsplit := List.takeWhile_append_dropWhile (p := f) (l := text)
  calc text.drop (text.takeWhile f).length
      = (text.takeWhile f ++ text.dropWhile f).drop (text.takeWhile f).length := by rw [hsplit]
    _ = text.dropWhile f := List.drop_left

/-- A keyword counts if it is the whole word and what follows lets it be one. -/
theorem leading?_keyword (h : startsWord text = true)
    (hk : k.text.toList = text.takeWhile isNamePart) (hends : k.Ends (text.dropWhile isNamePart)) :
    Marker.leading? text = some (.keyword k, (text.takeWhile isNamePart).length) := by
  obtain ⟨m, hscan, ⟨other, rfl, hother⟩ | ⟨-, hnone⟩⟩ := scan?_word h
  · obtain rfl := Keyword.text_inj (hother.trans hk.symm)
    rw [Marker.leading?, hscan]
    simp only [drop_takeWhile, (Keyword.mayPrecede_iff _ _).mpr hends, if_true]
  · exact absurd hk (hnone k)

/-- Every other word is a tag name. -/
theorem leading?_tagName (h : startsWord text = true)
    (hnone : ∀ k : Keyword, k.text.toList = text.takeWhile isNamePart → ¬ k.Ends (text.dropWhile isNamePart)) :
    Marker.leading? text = some (.tagName, (text.takeWhile isNamePart).length) := by
  obtain ⟨m, hscan, ⟨k, rfl, hk⟩ | ⟨rfl, -⟩⟩ := scan?_word h
  · have hrest : k.mayPrecede (text.dropWhile isNamePart) = false :=
      Bool.eq_false_iff.mpr fun hends => hnone k hk ((Keyword.mayPrecede_iff _ _).mp hends)
    rw [Marker.leading?, hscan]
    simp only [drop_takeWhile, hrest, Bool.false_eq_true, if_false]
  · rw [Marker.leading?, hscan]

/-- The marker of a text that starts with a letter is as long as its first word. -/
theorem leading?_word (h : startsWord text = true) :
    ∃ m, Marker.leading? text = some (m, (text.takeWhile isNamePart).length) ∧
      ((∃ k, m = .keyword k) ∨ m = .tagName) := by
  by_cases hkeyword : ∃ k : Keyword, k.text.toList = text.takeWhile isNamePart ∧
      k.Ends (text.dropWhile isNamePart)
  · obtain ⟨k, hk, hends⟩ := hkeyword
    exact ⟨_, leading?_keyword h hk hends, .inl ⟨k, rfl⟩⟩
  · exact ⟨_, leading?_tagName h fun k hk hends => hkeyword ⟨k, hk, hends⟩, .inr rfl⟩

/-! ## Signs -/

theorem Sign.unique {other : Marker} (h : Sign m front) (hother : Sign other front) :
    m = other := by
  cases h with
  | interpolatedTag =>
    cases hother with
    | interpolatedTag => rfl
    | idName hc _ => cases hc
  | idName hc _ =>
    cases hother with
    | interpolatedTag => cases hc
    | idName _ _ => rfl
  | silentComment | comment | pipe | code | bufferedCode | unescapedCode | html | mixinCall _ _ | filter _ _
    | className _ _ =>
    cases hother
    rfl

/-- Signs of one length at the front of a text are the same. -/
theorem SignAt.unique {other : Marker} (h : SignAt text m n) (hother : SignAt text other n) :
    m = other := by
  obtain ⟨front, hsign, hfront, hlength⟩ := h
  obtain ⟨front', hsign', hfront', hlength'⟩ := hother
  have heq : front = front' :=
    List.IsPrefix.eq_of_length (List.prefix_of_prefix_length_le hfront hfront' (by omega)) (by omega)
  exact hsign.unique (heq ▸ hsign')

/-- A candidate of a text that starts with no letter is a sign. -/
theorem signAt_of_mem_candidates (h : startsWord text = false)
    (hmem : (m, n) ∈ Marker.candidates text) : SignAt text m n := by
  rcases mem_candidates hmem with ⟨k, -, hfront, -⟩ | ⟨-, hword⟩ | hsign
  · exact absurd (startsWord_of_isPrefix hfront k.startsWord_text) (by simp [h])
  · cases text with
    | nil => cases hword
    | cons c cs =>
      have hc : c.isAlpha = false := h
      simp [Marker.wordLength?, hc] at hword
  · exact hsign

theorem leading?_eq_scan? (h : startsWord text = false) :
    Marker.leading? text = Marker.scan? text := by
  rw [Marker.leading?]
  split
  · rename_i k n hscan
    obtain ⟨front, hsign, -⟩ := signAt_of_mem_candidates h (mem_of_longest? hscan)
    cases hsign
  · rfl

/-- The marker of a text that starts with no letter is the longest sign at its front. -/
theorem leading?_sign (h : startsWord text = false) :
    Marker.leading? text = some (m, n) ↔
      SignAt text m n ∧ ∀ other length, SignAt text other length → length ≤ n := by
  rw [leading?_eq_scan? h]
  have hlongest {m : Marker} {n : Nat} (hscan : Marker.scan? text = some (m, n)) :
      ∀ other length, SignAt text other length → length ≤ n := by
    intro other length hother
    obtain ⟨longer, hmem, hle⟩ := exists_candidate hother
    exact Nat.le_trans hle (le_of_longest? hscan _ hmem)
  constructor
  · intro hscan
    exact ⟨signAt_of_mem_candidates h (mem_of_longest? hscan), hlongest hscan⟩
  · rintro ⟨hsign, hmax⟩
    cases hscan : Marker.scan? text with
    | none =>
      obtain ⟨_, hmem, -⟩ := exists_candidate hsign
      rw [longest?_eq_none.mp hscan] at hmem
      cases hmem
    | some best =>
      obtain ⟨m', n'⟩ := best
      have hsign' := signAt_of_mem_candidates h (mem_of_longest? hscan)
      obtain rfl : n' = n := Nat.le_antisymm (hmax m' n' hsign') (hlongest hscan m n hsign)
      rw [hsign'.unique hsign]

/-- A text that starts with no letter has no marker if no sign stands at its front. -/
theorem leading?_eq_none (h : startsWord text = false) :
    Marker.leading? text = none ↔ ∀ m n, ¬ SignAt text m n := by
  rw [leading?_eq_scan? h]
  constructor
  · intro hscan m n hsign
    obtain ⟨_, hmem, -⟩ := exists_candidate hsign
    rw [longest?_eq_none.mp hscan] at hmem
    cases hmem
  · intro hnone
    cases hscan : Marker.scan? text with
    | none => rfl
    | some best => exact absurd (signAt_of_mem_candidates h (mem_of_longest? hscan)) (hnone _ _)

/-- A marker that is no word is a sign. -/
theorem signAt_of_leading? (h : Marker.leading? text = some (m, n)) (hkeyword : ∀ k, m ≠ .keyword k)
    (hname : m ≠ .tagName) : SignAt text m n := by
  cases hword : startsWord text with
  | false => exact ((leading?_sign hword).mp h).1
  | true =>
    obtain ⟨m', hword, hm'⟩ := leading?_word hword
    rw [hword] at h
    cases h
    rcases hm' with ⟨k, rfl⟩ | rfl
    · exact absurd rfl (hkeyword k)
    · exact absurd rfl hname

/-- The name of a tag is the whole word at the front of its line. -/
theorem wordLength_of_leading?_tagName {length : Nat}
    (h : Marker.leading? text = some (.tagName, length)) :
    Marker.wordLength? Char.isAlpha isNamePart text = some length := by
  cases hword : startsWord text with
  | false =>
    obtain ⟨⟨front, hsign, -⟩, -⟩ := (leading?_sign hword).mp h
    cases hsign
  | true =>
    obtain ⟨m, hlead, -⟩ := leading?_word hword
    rw [hlead] at h
    cases h
    exact wordLength?_of_startsWord hword

/-! ## Bytes -/

theorem utf8Size_of_isNamePart {c : Char} (h : isNamePart c = true) : c.utf8Size = 1 := by
  rw [Char.utf8Size_eq_one_iff]
  have hclass : (((c.isUpper || c.isLower) || c.isDigit || c == '_') || c == '-') = true := h
  simp only [Bool.or_eq_true, beq_iff_eq] at hclass
  rcases hclass with (((hupper | hlower) | hdigit) | rfl) | rfl
  · exact UInt32.le_trans (of_decide_eq_true hupper).2 (by decide)
  · exact UInt32.le_trans (of_decide_eq_true (Bool.and_eq_true_iff.mp hlower).2) (by decide)
  · exact UInt32.le_trans (of_decide_eq_true (Bool.and_eq_true_iff.mp hdigit).2) (by decide)
  · decide
  · decide

theorem byteLength_of_forall {cs : List Char} (h : ∀ c ∈ cs, c.utf8Size = 1) :
    byteLength cs = cs.length := by
  induction cs with
  | nil => rfl
  | cons c cs ih =>
    rw [byteLength, h c List.mem_cons_self, ih fun d hd => h d (List.mem_cons_of_mem c hd),
      List.length_cons, Nat.add_comm]

theorem Sign.utf8Size (h : Sign m front) : ∀ c ∈ front, c.utf8Size = 1 := by
  have led {lead c : Char} {cs : List Char} (hlead : lead.utf8Size = 1) (hc : c.utf8Size = 1)
      (hcs : ∀ d ∈ cs, d.utf8Size = 1) : ∀ d ∈ lead :: c :: cs, d.utf8Size = 1 := by
    simpa using ⟨hlead, hc, hcs⟩
  have start {c : Char} (hc : isNameStart c = true) : c.utf8Size = 1 := by
    simp only [isNameStart, Bool.or_eq_true, beq_iff_eq] at hc
    rcases hc with (hc | rfl) | rfl
    · exact utf8Size_of_isNamePart (isNamePart_of_isAlpha c hc)
    · decide
    · decide
  cases h with
  | silentComment | comment | pipe | code | bufferedCode | unescapedCode | html | interpolatedTag =>
    simp [Char.utf8Size]
  | mixinCall hc hcs =>
    refine led (by decide) ?_ fun d hd => ?_
    · rcases hc with hc | rfl | rfl
      · exact utf8Size_of_isNamePart (isNamePart_of_isAlpha _ hc)
      · decide
      · decide
    · rcases hcs d hd with hd | rfl
      · exact utf8Size_of_isNamePart hd
      · decide
  | filter hc hcs =>
    refine led (by decide) ?_ fun d hd => utf8Size_of_isNamePart (hcs d hd)
    rcases hc with hc | rfl
    · exact utf8Size_of_isNamePart (isNamePart_of_isAlpha _ hc)
    · decide
  | className hc hcs | idName hc hcs =>
    exact led (by decide) (start hc) fun d hd => utf8Size_of_isNamePart (hcs d hd)

/-- The length of a marker counts bytes as well as characters. -/
theorem byteLength_of_leading? (h : Marker.leading? text = some (m, n)) :
    byteLength (text.take n) = n := by
  cases hword : startsWord text with
  | true =>
    obtain ⟨m', hlead, -⟩ := leading?_word hword
    rw [hlead] at h
    cases h
    rw [← List.prefix_iff_eq_take.mp (List.takeWhile_prefix isNamePart)]
    exact byteLength_of_forall fun c hc =>
      utf8Size_of_isNamePart (List.all_eq_true.mp List.all_takeWhile c hc)
  | false =>
    obtain ⟨⟨front, hsign, hfront, rfl⟩, -⟩ := (leading?_sign hword).mp h
    rw [← List.prefix_iff_eq_take.mp hfront]
    exact byteLength_of_forall hsign.utf8Size

/-- **The first token of a line.** A text that starts with a letter has its whole first word for its
marker: a keyword, if the word is one and what follows lets it be one, or else a tag name. Any other
text has the longest sign that stands at its front, and no marker only if none does. The length of a
marker counts bytes. -/
theorem leading_classifies (text : List Char) :
    (startsWord text = true →
      (∀ k : Keyword, k.text.toList = text.takeWhile isNamePart → k.Ends (text.dropWhile isNamePart) →
        Marker.leading? text = some (.keyword k, (text.takeWhile isNamePart).length)) ∧
      ((∀ k : Keyword, k.text.toList = text.takeWhile isNamePart →
          ¬ k.Ends (text.dropWhile isNamePart)) →
        Marker.leading? text = some (.tagName, (text.takeWhile isNamePart).length))) ∧
    (startsWord text = false →
      (∀ m n, Marker.leading? text = some (m, n) ↔
        SignAt text m n ∧ ∀ other length, SignAt text other length → length ≤ n) ∧
      (Marker.leading? text = none ↔ ∀ m n, ¬ SignAt text m n)) ∧
    ∀ m n, Marker.leading? text = some (m, n) → byteLength (text.take n) = n :=
  ⟨fun h => ⟨fun _ => leading?_keyword h, leading?_tagName h⟩,
    fun h => ⟨fun _ _ => leading?_sign h, leading?_eq_none h⟩,
    fun _ _ => byteLength_of_leading?⟩

/-- A test in parentheses, a tag whose name starts as a keyword does, a comment whose sign starts as
that of another one does, and a line with no marker. -/
theorem leading_if_iframe_comment :
    Marker.leading? "if(x)".toList = some (.keyword .ifTest, 2) ∧
      Marker.leading? "iframe(src=x)".toList = some (.tagName, 6) ∧
      (SignAt "//- é".toList .silentComment 3 ∧
        ∀ other length, SignAt "//- é".toList other length → length ≤ 3) ∧
      (∀ m n, ¬ SignAt "!x".toList m n) ∧
      byteLength ("+card(1)".toList.take 5) = 5 := by
  refine ⟨((leading_classifies _).1 rfl).1 .ifTest rfl (.parenthesis (.inl rfl)),
    ((leading_classifies _).1 rfl).2 fun k hk => ?_,
    (((leading_classifies _).2.1 rfl).1 _ _).mp rfl, ((leading_classifies _).2.1 rfl).2.mp rfl,
    (leading_classifies _).2.2 .mixinCall 5 rfl⟩
  cases k <;> cases hk

end PugComponents.Template

import PugComponents.Proofs.Text.Balanced
import PugComponents.Proofs.Text.Trimming
import PugComponents.Template.Node
import PugComponents.Text.Split

/- Lists with separators. A text is cut at the separators that stand outside brackets and literals.
   After a cut the scan stands where it started, so the parts are cut no further, even in a text
   whose brackets do not match (`splitFrom_uncut`). Literals and groups are passed as a whole,
   at any depth; a balanced text is therefore cut as it is alone, whatever comes after the
   separator behind it (`splitTopLevel_append`). So the parameters of a mixin are those that its
   list was made of (`parts_exact`). -/
namespace PugComponents.Text

/-- Puts a character in front of the first part. -/
def consPart (c : Char) : List (List Char) → List (List Char)
  | [] => [[c]]
  | part :: parts => (c :: part) :: parts

theorem foldr_consPart (text part : List Char) (parts : List (List Char)) :
    text.foldr consPart (part :: parts) = (text ++ part) :: parts := by
  induction text with
  | nil => rfl
  | cons c text ih => rw [List.foldr_cons, ih]; rfl

variable {separator : Char}

/-! ## Steps of the scan -/

theorem splitFrom_cut (h : isDelimiter separator = false) (cs : List Char) :
    splitFrom separator 0 .outside (separator :: cs) = [] :: splitFrom separator 0 .outside cs := by
  have hquote := (isDelimiter_eq_false.mp h).1
  simp [splitFrom, Quoting.isCode_outside, hquote]

variable {c : Char}

/-- A character that is no separator here goes to the part that follows it. -/
theorem splitFrom_pass {depth : Nat} {quoting : Quoting}
    (h : (quoting.isCode c && c == separator && depth == 0) = false) (cs : List Char) :
    splitFrom separator depth quoting (c :: cs) =
      consPart c (splitFrom separator (if quoting.isCode c then nextDepth depth c else depth)
        (quoting.next c) cs) := by
  rw [splitFrom, if_neg (by simp [h])]
  simp only
  split
  · rename_i hnil
    rw [hnil]
    rfl
  · rename_i hcons
    rw [hcons]
    rfl

theorem splitFrom_code {depth : Nat} (hquote : isQuote c = false) (h : c ≠ separator ∨ depth ≠ 0)
    (cs : List Char) :
    splitFrom separator depth .outside (c :: cs) =
      consPart c (splitFrom separator (nextDepth depth c) .outside cs) := by
  have hcode : Quoting.outside.isCode c = true := by rw [Quoting.isCode_outside, hquote]; rfl
  have hnext : Quoting.outside.next c = .outside := if_neg (by simp [hquote])
  rw [splitFrom_pass (by rcases h with h | h <;> simp [h]), if_pos hcode, hnext]

/-! ## Every text -/

/-- The first part is cut no further from where the scan started, the others not from outside. -/
theorem splitFrom_uncut (separator : Char) (depth : Nat) (quoting : Quoting) (cs : List Char) :
    ∃ first parts, splitFrom separator depth quoting cs = first :: parts ∧
      splitFrom separator depth quoting first = [first] ∧
      ∀ part ∈ parts, splitTopLevel separator part = [part] := by
  induction cs generalizing depth quoting with
  | nil => exact ⟨[], [], rfl, rfl, List.forall_mem_nil _⟩
  | cons c cs ih =>
    by_cases hcut : (quoting.isCode c && c == separator && depth == 0) = true
    · -- The rest starts outside brackets and literals.
      obtain rfl : depth = 0 := by simp_all
      obtain ⟨first, parts, hparts, hfirst, hrest⟩ := ih 0 .outside
      refine ⟨[], first :: parts, ?_, rfl, List.forall_mem_cons.mpr ⟨hfirst, hrest⟩⟩
      rw [splitFrom, if_pos hcut, hparts]
    · have hpass := Bool.eq_false_iff.mpr hcut
      obtain ⟨first, parts, hparts, hfirst, hrest⟩ := ih _ (quoting.next c)
      refine ⟨c :: first, parts, ?_, ?_, hrest⟩
      · rw [splitFrom_pass hpass, hparts]
        rfl
      · rw [splitFrom_pass hpass, hfirst]
        rfl

theorem joinWith_consPart (c : Char) (parts : List (List Char)) (between : String) :
    joinWith between ((consPart c parts).map String.ofList) =
      String.singleton c ++ joinWith between (parts.map String.ofList) := by
  apply String.toList_injective
  rcases parts with _ | ⟨first, _ | ⟨second, parts⟩⟩ <;> simp [consPart, joinWith]

/-- The parts with separators between them are the text. -/
theorem joinWith_splitFrom (depth : Nat) (quoting : Quoting) (cs : List Char) :
    joinWith (String.singleton separator)
      ((splitFrom separator depth quoting cs).map String.ofList) = String.ofList cs := by
  induction cs generalizing depth quoting with
  | nil => rfl
  | cons c cs ih =>
    apply String.toList_injective
    by_cases hcut : (quoting.isCode c && c == separator && depth == 0) = true
    · have hjoin := ih depth .outside
      obtain ⟨first, parts, hparts, -⟩ := splitFrom_uncut separator depth .outside cs
      obtain rfl : c = separator := by simp_all
      rw [hparts, List.map_cons] at hjoin
      rw [splitFrom, if_pos hcut, hparts]
      simp [joinWith, hjoin]
    · rw [splitFrom_pass (Bool.eq_false_iff.mpr hcut), joinWith_consPart, ih]
      simp

/-! ## Balanced text -/

/-- Nothing is cut in brackets and literals. -/
def splitScan (hsep : isDelimiter separator = false) : Scan Nat Unit (List (List Char)) where
  run depth quoting _ := splitFrom separator depth quoting
  next _ _ := ()
  put := consPart
  deeper _ depth := depth + 1
  Open _ := True
  Inside depth := depth ≠ 0
  open_of_inside _ := trivial
  inside_deeper _ depth := Nat.succ_ne_zero depth
  hidden h depth _ cs := by rw [splitFrom_pass (by simp [h]), if_neg (by simp [h])]
  code hc depth h _ cs := by
    rw [splitFrom_code (isDelimiter_eq_false.mp hc).1 (.inr h), nextDepth_plain hc]
  opener hopen depth _ _ cs := by
    rw [splitFrom_code (closerOf?_eq_some hopen).1, nextDepth_opener hopen]
    left
    rintro rfl
    rw [(isDelimiter_eq_false.mp hsep).2.1] at hopen
    cases hopen
  closer hopen depth _ _ cs := by
    rw [splitFrom_code (closerOf?_eq_some hopen).2.1 (.inr (Nat.succ_ne_zero depth)), nextDepth_closer hopen]

theorem splitScan_char (hsep : isDelimiter separator = false) (hc : isDelimiter c = false)
    (hne : c ≠ separator) : (splitScan hsep).Passes 0 [c] := fun _ rest =>
  show splitFrom separator 0 .outside (c :: rest) = consPart c (splitFrom separator 0 .outside rest) by
    rw [splitFrom_code (isDelimiter_eq_false.mp hc).1 (.inl hne), nextDepth_plain hc]

/-- A balanced text is cut as it is alone, whatever comes after the separator behind it. -/
theorem splitTopLevel_append (hsep : isDelimiter separator = false) {a : List Char} (h : Balanced a)
    (b : List Char) :
    splitTopLevel separator (a ++ separator :: b) =
      splitTopLevel separator a ++ splitTopLevel separator b := by
  -- What is passed goes to the first part, which is there with and without the text behind it.
  have hstep : ∀ {front cs : List Char}, (splitScan hsep).Passes 0 front →
      splitTopLevel separator (cs ++ separator :: b) =
        splitTopLevel separator cs ++ splitTopLevel separator b →
      splitTopLevel separator (front ++ cs ++ separator :: b) =
        splitTopLevel separator (front ++ cs) ++ splitTopLevel separator b := by
    intro front cs hfront ih
    have hpass : ∀ rest, splitTopLevel separator (front ++ rest) =
        front.foldr consPart (splitTopLevel separator rest) := hfront ()
    obtain ⟨first, parts, hparts, -⟩ := splitFrom_uncut separator 0 .outside cs
    rw [List.append_assoc, hpass, hpass, ih, splitTopLevel, hparts, List.cons_append, foldr_consPart,
      foldr_consPart, List.cons_append]
  induction h with
  | nil => exact splitFrom_cut hsep b
  | @char c cs hc _ ih =>
    by_cases hcut : c = separator
    · rw [hcut, List.cons_append, splitTopLevel, splitFrom_cut hsep, splitTopLevel, splitFrom_cut hsep]
      exact congrArg ([] :: ·) ih
    · exact hstep (splitScan_char hsep hc hcut) ih
  | literal hquote htail _ ih => exact hstep (.literal hquote htail) ih
  | group hopen hinner _ _ ih => simpa using hstep (.group hopen trivial hinner) ih

/-- Balanced text in which the separator stands only in groups and literals. -/
inductive Uncut (separator : Char) : List Char → Prop
  | nil : Uncut separator []
  | char {c : Char} {cs : List Char} (hc : isDelimiter c = false) (hne : c ≠ separator) :
      Uncut separator cs → Uncut separator (c :: cs)
  | literal {quote : Char} {tail cs : List Char} (hquote : isQuote quote = true)
      (htail : LiteralTail quote tail) : Uncut separator cs → Uncut separator (quote :: (tail ++ cs))
  | group {opener closer : Char} {inner cs : List Char} (hopen : closerOf? opener = some closer)
      (hinner : Balanced inner) : Uncut separator cs → Uncut separator (opener :: (inner ++ closer :: cs))

theorem Uncut.balanced {text : List Char} (h : Uncut separator text) : Balanced text := by
  induction h with
  | nil => exact .nil
  | char hc _ _ ih => exact .char hc ih
  | literal hquote htail _ ih => exact .literal hquote htail ih
  | group hopen hinner _ ih => exact .group hopen hinner ih

theorem Uncut.forall_append {front cs : List Char}
    (hfront : ∀ c ∈ front, isDelimiter c = false ∧ c ≠ separator) (h : Uncut separator cs) :
    Uncut separator (front ++ cs) := by
  induction front with
  | nil => exact h
  | cons c front ih =>
    obtain ⟨⟨hc, hne⟩, hrest⟩ := List.forall_mem_cons.mp hfront
    exact .char hc hne (ih hrest)

theorem Uncut.splitTopLevel_eq (hsep : isDelimiter separator = false) {text : List Char}
    (h : Uncut separator text) : splitTopLevel separator text = [text] := by
  have hpass : (splitScan hsep).Passes 0 text := by
    induction h with
    | nil => exact .nil
    | char hc hne _ ih => exact (splitScan_char hsep hc hne).append ih
    | literal hquote htail _ ih => exact (Scan.Passes.literal hquote htail).append ih
    | group hopen hinner _ ih => simpa using (Scan.Passes.group hopen trivial hinner).append ih
  have hwhole : splitTopLevel separator (text ++ []) = text.foldr consPart [[]] := hpass () []
  rwa [foldr_consPart, List.append_nil] at hwhole

end PugComponents.Text

namespace PugComponents.Template

open Text

/-- Texts that are not cut are the parts of the list that they make. -/
theorem splitTopLevel_joinWith {separator : Char} (hsep : isDelimiter separator = false)
    {texts : List String} (hne : texts ≠ []) (h : ∀ text ∈ texts, Uncut separator text.toList) :
    splitTopLevel separator (joinWith (String.singleton separator) texts).toList =
      texts.map String.toList := by
  induction texts with
  | nil => exact absurd rfl hne
  | cons first rest ih =>
    obtain ⟨hfirst, hrest⟩ := List.forall_mem_cons.mp h
    cases rest with
    | nil => exact hfirst.splitTopLevel_eq hsep
    | cons second rest =>
      have hsplit := splitTopLevel_append hsep hfirst.balanced
        (joinWith (String.singleton separator) (second :: rest)).toList
      rw [ih (List.cons_ne_nil _ _) hrest, hfirst.splitTopLevel_eq hsep] at hsplit
      simpa [joinWith] using hsplit

theorem mixinParameters_joinWith {parameters : List String}
    (h : ∀ p ∈ parameters, Trimmed p.toList ∧ Uncut ',' p.toList) :
    mixinParameters (some (joinWith "," parameters)) = parameters := by
  by_cases hne : parameters = []
  · rw [hne]
    rfl
  · have hsplit : splitTopLevel ',' (joinWith "," parameters).toList = parameters.map String.toList :=
      splitTopLevel_joinWith (by decide) hne fun p hp => (h p hp).2
    rw [mixinParameters, hsplit, List.map_map]
    clear hsplit hne
    induction parameters with
    | nil => rfl
    | cons p parameters ih =>
      obtain ⟨⟨hp, -⟩, hrest⟩ := List.forall_mem_cons.mp h
      have hsome : p.toList.isEmpty = false := List.isEmpty_eq_false_iff.mpr hp.ne_nil
      simp only [List.map_cons, Function.comp_apply, hp.trim_eq, List.filterMap_cons, hsome,
        Bool.false_eq_true, if_false, String.ofList_toList, ih hrest]

/-- **Cutting at separators.** With separators between them the parts are the text again, no part is cut
any further, and behind a balanced text a separator is always cut at. So a mixin has the parameters that
its list is made of. -/
theorem parts_exact {separator : Char} (hsep : isDelimiter separator = false) :
    (∀ text, joinWith (String.singleton separator) ((splitTopLevel separator text).map String.ofList) =
      String.ofList text) ∧
    (∀ text, ∀ part ∈ splitTopLevel separator text, splitTopLevel separator part = [part]) ∧
    (∀ a b, Balanced a → splitTopLevel separator (a ++ separator :: b) =
      splitTopLevel separator a ++ splitTopLevel separator b) ∧
    ∀ parameters : List String, (∀ p ∈ parameters, Trimmed p.toList ∧ Uncut ',' p.toList) →
      mixinParameters (some (joinWith "," parameters)) = parameters := by
  refine ⟨joinWith_splitFrom 0 .outside, ?_, fun a b ha => splitTopLevel_append hsep ha b,
    fun _ => mixinParameters_joinWith⟩
  intro text part hpart
  obtain ⟨first, parts, hparts, hfirst, hrest⟩ := splitFrom_uncut separator 0 .outside text
  rw [splitTopLevel, hparts] at hpart
  rcases List.mem_cons.mp hpart with rfl | hpart
  · exact hfirst
  · exact hrest part hpart

/-- Commas in an object, in the brackets inside it and in a literal do not end a parameter. -/
theorem parts_exact_nested :
    isDelimiter ',' = false ∧
      (∀ p ∈ ["item", "options = \x7ba: 1, b: [2, 3]\x7d", "label = 'x, y'"],
        Trimmed p.toList ∧ Uncut ',' p.toList) ∧
      mixinParameters (some "item,options = \x7ba: 1, b: [2, 3]\x7d,label = 'x, y'") =
        ["item", "options = \x7ba: 1, b: [2, 3]\x7d", "label = 'x, y'"] := by
  have hplain : ∀ text ∈ ["item", "options = ", "label = "],
      ∀ c ∈ text.toList, isDelimiter c = false ∧ c ≠ ',' := by
    simp [isDelimiter, isQuote, closerOf?, isCloser]
  have hitem : Uncut ',' ("item".toList ++ []) := .forall_append (hplain _ (by simp)) .nil
  have hinner : Balanced "a: 1, b: [2, 3]".toList :=
    balanced_of_group? (show group? ('\x7b' :: "a: 1, b: [2, 3]\x7d".toList) = some (_, []) by decide)
  have hoptions : Uncut ',' ("options = ".toList ++ '\x7b' :: ("a: 1, b: [2, 3]".toList ++ ['\x7d'])) :=
    .forall_append (hplain _ (by simp)) (.group rfl hinner .nil)
  have htail : LiteralTail '\'' ("x, y".toList ++ ['\'']) := .of_forall (by simp)
  have hlabel : Uncut ',' ("label = ".toList ++ '\'' :: (("x, y".toList ++ ['\'']) ++ [])) :=
    .forall_append (hplain _ (by simp)) (.literal rfl htail .nil)
  have hall : ∀ p ∈ ["item", "options = \x7ba: 1, b: [2, 3]\x7d", "label = 'x, y'"],
      Trimmed p.toList ∧ Uncut ',' p.toList := by
    simp only [List.forall_mem_cons]
    exact ⟨⟨⟨by decide, by decide⟩, hitem⟩, ⟨⟨by decide, by decide⟩, hoptions⟩,
      ⟨⟨by decide, by decide⟩, hlabel⟩, List.forall_mem_nil _⟩
  have hcomma : isDelimiter ',' = false := by decide
  exact ⟨hcomma, hall, (parts_exact hcomma).2.2.2 _ hall⟩

end PugComponents.Template

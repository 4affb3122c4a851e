import Mathlib.Tactic.Tauto
import PugComponents.Proofs.Text.LetterCase

/- Which texts give the name of a binding. A name is made of the letters and
   numbers of a text, so it can fail to be an identifier in three ways only: it
   starts with a number that is no digit, or a word of the text starts with a letter
   whose upper case holds a mark, or the dotted capital I stands further on in a
   word. `isIdentifier_bindingName` says that these are all. -/
namespace PugComponents.Text

/-- The words of a text: what its parts between hyphens and underscores have of an identifier. -/
def nameWords (name : List Char) : List (List Char) :=
  (splitWhere (fun c => c == '-' || c == '_') name).map
    (List.filter fun c => isAlphanumeric c || c == '$')

/-- The text gives a name that is an identifier. -/
structure Nameable (name : String) : Prop where
  /-- The upper case of the letter that starts a word holds no mark. -/
  upper : ∀ word ∈ nameWords name.toList, ∀ c ∈ word.head?, c.toNat ∉ markedUpper
  /-- The dotted capital I, whose lower case holds a mark, only starts words. -/
  lower : ∀ word ∈ nameWords name.toList, 'İ' ∉ word.tail
  /-- The first character is no number except for the ten digits. -/
  front : ∀ c ∈ (nameWords name.toList).flatten.head?,
    isAlphabetic c = true ∨ c.isDigit = true ∨ c = '$'

/-! ## One word -/

/-- A word with its first character in upper case and the others in lower case. -/
def recased : List Char → List Char
  | [] => []
  | c :: cs => toUpper c ++ cs.flatMap toLower

theorem all_recased {word : List Char} (hword : ∀ c ∈ word, continuesIdentifier c = true) :
    (recased word).all continuesIdentifier = true ↔
      (∀ c ∈ word.head?, c.toNat ∉ markedUpper) ∧ 'İ' ∉ word.tail := by
  cases word with
  | nil => simp [recased]
  | cons c cs =>
    have hlower : (cs.flatMap toLower).all continuesIdentifier = true ↔ 'İ' ∉ cs := by
      rw [List.all_flatMap, List.all_eq_true]
      constructor
      · intro h hdotted
        have hc := hword 'İ' (List.mem_cons_of_mem c hdotted)
        exact (all_toLower hc).mp (h 'İ' hdotted) rfl
      · intro h d hd
        apply (all_toLower (hword d (List.mem_cons_of_mem c hd))).mpr
        rintro rfl
        exact h hd
    rw [recased, List.all_append, Bool.and_eq_true, all_toUpper (hword c List.mem_cons_self), hlower]
    simp

variable {c : Char}

theorem continues_of_mem_nameWords {name word : List Char} (hword : word ∈ nameWords name)
    (hc : c ∈ word) : isAlphanumeric c = true ∨ c = '$' := by
  obtain ⟨segment, -, rfl⟩ := List.mem_map.mp hword
  simpa using (List.mem_filter.mp hc).2

theorem continues_of_starts (h : startsIdentifier c = true) : continuesIdentifier c = true := by
  simp only [startsIdentifier, continuesIdentifier, isAlphanumeric, Bool.or_eq_true] at h ⊢
  tauto

/-! ## All words -/

theorem flatMap_capitalized (name : List Char) :
    (splitWhere (fun c => c == '-' || c == '_') name).flatMap capitalized =
      (nameWords name).flatMap recased := by
  unfold nameWords
  rw [List.flatMap_map]
  rfl

theorem toUpper_ne_nil (c : Char) : toUpper c ≠ [] := by
  rcases toUpper_cases c with ⟨hself, -⟩ | ⟨-, d, rest, hupper, -⟩
  · simp [hself]
  · simp [hupper]

theorem head?_flatMap_recased (words : List (List Char)) :
    (words.flatMap recased).head? = words.flatten.head?.bind fun c => (toUpper c).head? := by
  induction words with
  | nil => rfl
  | cons word words ih =>
    cases word with
    | nil => simpa [recased] using ih
    | cons c cs =>
      obtain ⟨d, rest, hupper⟩ := List.exists_cons_of_ne_nil (toUpper_ne_nil c)
      simp [recased, hupper]

/-- The first character of the upper case starts an identifier, or is a digit, exactly if the
character itself does or is. -/
theorem starts_toUpper_iff {d : Char} (hc : isAlphanumeric c = true ∨ c = '$')
    (hd : (toUpper c).head? = some d) :
    d.isDigit = true ∨ startsIdentifier d = true ↔ isAlphabetic c = true ∨ c.isDigit = true ∨ c = '$' := by
  rcases toUpper_cases c with ⟨hself, -⟩ | ⟨halpha, e, rest, hupper, he, -⟩
  · obtain rfl : c = d := by simpa [hself] using hd
    have hne : c ≠ '_' := by
      rintro rfl
      exact absurd hc (by decide +kernel)
    simp only [startsIdentifier, Bool.or_eq_true, beq_iff_eq, hne, or_false]
    tauto
  · obtain rfl : e = d := by simpa [hupper] using hd
    simp [startsIdentifier, halpha, he]

/-- With an underscore before a digit, a text is an identifier if it starts as one or with a digit. -/
theorem isIdentifier_guarded (d : Char) (rest : List Char) :
    isIdentifier (if d.isDigit then '_' :: d :: rest else d :: rest) = true ↔
      (d.isDigit = true ∨ startsIdentifier d = true) ∧
        continuesIdentifier d = true ∧ rest.all continuesIdentifier = true := by
  cases hdigit : d.isDigit with
  | true =>
    have hunderscore : startsIdentifier '_' = true := by decide +kernel
    simp [isIdentifier, hunderscore]
  | false =>
    simp only [Bool.false_eq_true, if_false, isIdentifier, false_or, Bool.and_eq_true]
    constructor
    · rintro ⟨hstart, hrest⟩
      exact ⟨hstart, continues_of_starts hstart, hrest⟩
    · rintro ⟨hstart, -, hrest⟩
      exact ⟨hstart, hrest⟩

theorem all_words_iff (name : String) :
    ((nameWords name.toList).flatMap recased).all continuesIdentifier = true ↔
      (∀ word ∈ nameWords name.toList, ∀ c ∈ word.head?, c.toNat ∉ markedUpper) ∧
        ∀ word ∈ nameWords name.toList, 'İ' ∉ word.tail := by
  rw [List.all_flatMap, List.all_eq_true, ← forall₂_and]
  refine forall₂_congr fun word hword => all_recased ?_
  intro c hc
  rcases continues_of_mem_nameWords hword hc with h | rfl
  · simp [continuesIdentifier, h]
  · decide

/-- A name that is made of a text is an identifier exactly if the text is nameable. -/
theorem isIdentifier_bindingName (name : String) :
    isIdentifier (bindingName name).toList = true ↔ Nameable name := by
  have hall := all_words_iff name
  have hhead := head?_flatMap_recased (nameWords name.toList)
  unfold bindingName
  rw [flatMap_capitalized]
  cases hwords : (nameWords name.toList).flatMap recased with
  | nil =>
    rw [hwords] at hall hhead
    obtain ⟨hupper, hlower⟩ := hall.mp rfl
    refine ⟨fun _ => ⟨hupper, hlower, ?_⟩, fun _ => by decide +kernel⟩
    intro c hc
    obtain ⟨d, rest, hd⟩ := List.exists_cons_of_ne_nil (toUpper_ne_nil c)
    simp [Option.mem_def.mp hc, hd] at hhead
  | cons d rest =>
    rw [hwords, List.all_cons, Bool.and_eq_true] at hall
    rw [hwords, List.head?_cons, eq_comm, Option.bind_eq_some_iff] at hhead
    obtain ⟨c, hc, hd⟩ := hhead
    have hkept : isAlphanumeric c = true ∨ c = '$' := by
      obtain ⟨word, hword, hcword⟩ := List.mem_flatten.mp (List.mem_of_head? hc)
      exact continues_of_mem_nameWords hword hcword
    have hfront := starts_toUpper_iff hkept hd
    have hiff : Nameable name ↔
        (d.isDigit = true ∨ startsIdentifier d = true) ∧
          continuesIdentifier d = true ∧ rest.all continuesIdentifier = true := by
      rw [hfront, hall]
      constructor
      · intro h
        exact ⟨h.front c hc, h.upper, h.lower⟩
      · rintro ⟨hstart, hupper, hlower⟩
        refine ⟨hupper, hlower, ?_⟩
        intro e he
        rw [hc] at he
        exact Option.some.inj he ▸ hstart
    have hguarded : (if d.isDigit then String.ofList ('_' :: d :: rest) else String.ofList (d :: rest)).toList =
        if d.isDigit then '_' :: d :: rest else d :: rest := by
      split <;> exact String.toList_ofList
    rw [hiff, ← isIdentifier_guarded, ← hguarded]

end PugComponents.Text

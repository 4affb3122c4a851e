/- Cutting text at single characters. -/
namespace PugComponents.Text

/-- The parts between the characters that satisfy `p`; one part more than there are such
characters. -/
def splitWhere (p : Char → Bool) : List Char → List (List Char)
  | [] => [[]]
  | c :: cs =>
    if p c then [] :: splitWhere p cs
    else
      match splitWhere p cs with
      | [] => [[c]]
      | part :: parts => (c :: part) :: parts

/-- The parts between occurrences of a character. -/
def splitAtChar (separator : Char) (cs : List Char) : List (List Char) :=
  splitWhere (· == separator) cs

/-- The text before and after the first occurrence of a character. -/
def cutAtChar? (separator : Char) : List Char → Option (List Char × List Char)
  | [] => none
  | c :: cs =>
    if c == separator then some ([], cs)
    else (cutAtChar? separator cs).map fun (before, after) => (c :: before, after)

/-- Takes a given text off the front. -/
def dropPrefix? : List Char → List Char → Option (List Char)
  | [], cs => some cs
  | _ :: _, [] => none
  | p :: ps, c :: cs => if p == c then dropPrefix? ps cs else none

/-- The text starts with another. -/
def startsWith (cs front : List Char) : Bool := (dropPrefix? front cs).isSome

/-- Takes a given text off the end. -/
def dropSuffix? (suffix cs : List Char) : Option (List Char) :=
  (dropPrefix? suffix.reverse cs.reverse).map List.reverse

/-- The text before and after the first occurrence of another text. -/
def cutAtText? (needle : List Char) : List Char → Option (List Char × List Char)
  | [] => if needle.isEmpty then some ([], []) else none
  | c :: cs =>
    match dropPrefix? needle (c :: cs) with
    | some after => some ([], after)
    | none => (cutAtText? needle cs).map fun (before, after) => (c :: before, after)

/-- Texts with a separator between them. -/
def joinWith (separator : String) : List String → String
  | [] => ""
  | [s] => s
  | s :: rest => s ++ separator ++ joinWith separator rest

theorem splitWhere_ne_nil (p : Char → Bool) (cs : List Char) : splitWhere p cs ≠ [] := by
  induction cs with
  | nil => simp [splitWhere]
  | cons c cs ih =>
    unfold splitWhere
    split
    · simp
    · split <;> simp

theorem splitWhere_append_cons (p : Char → Bool) (front : List Char) {c : Char} (hc : p c = true)
    (back : List Char) :
    splitWhere p (front ++ c :: back) = splitWhere p front ++ splitWhere p back := by
  induction front with
  | nil => simp [splitWhere, hc]
  | cons d front ih =>
    rw [List.cons_append, splitWhere, splitWhere, ih]
    by_cases hd : p d = true
    · simp [hd]
    · rw [if_neg hd, if_neg hd]
      obtain ⟨part, parts, hparts⟩ := List.exists_cons_of_ne_nil (splitWhere_ne_nil p front)
      simp [hparts]

theorem splitWhere_of_forall (p : Char → Bool) {cs : List Char} (h : ∀ c ∈ cs, p c = false) :
    splitWhere p cs = [cs] := by
  induction cs with
  | nil => rfl
  | cons c cs ih =>
    rw [splitWhere, if_neg (by simp [h c]), ih fun d hd => h d (List.mem_cons_of_mem c hd)]

theorem splitAtChar_of_notMem {separator : Char} {cs : List Char} (h : separator ∉ cs) :
    splitAtChar separator cs = [cs] := by
  refine splitWhere_of_forall _ fun c hc => ?_
  simpa using fun heq : c = separator => h (heq ▸ hc)

theorem splitAtChar_append_cons (separator : Char) (front back : List Char) :
    splitAtChar separator (front ++ separator :: back) =
      splitAtChar separator front ++ splitAtChar separator back :=
  splitWhere_append_cons (· == separator) front (beq_self_eq_true separator) back

/-- Texts without the separator are the parts of what they make with separators between them. -/
theorem splitAtChar_joinWith {separator : Char} {texts : List String} (hne : texts ≠ [])
    (h : ∀ text ∈ texts, separator ∉ text.toList) :
    splitAtChar separator (joinWith (String.singleton separator) texts).toList =
      texts.map String.toList := by
  induction texts with
  | nil => exact absurd rfl hne
  | cons first rest ih =>
    obtain ⟨hfirst, hrest⟩ := List.forall_mem_cons.mp h
    cases rest with
    | nil => exact splitAtChar_of_notMem hfirst
    | cons second rest =>
      have hsplit := splitAtChar_append_cons separator first.toList
        (joinWith (String.singleton separator) (second :: rest)).toList
      rw [ih (List.cons_ne_nil _ _) hrest, splitAtChar_of_notMem hfirst] at hsplit
      simpa [joinWith] using hsplit

theorem dropPrefix?_append (p cs : List Char) : dropPrefix? p (p ++ cs) = some cs := by
  induction p with
  | nil => rfl
  | cons c p ih => simp [dropPrefix?, ih]

theorem eq_append_of_dropPrefix? {p cs rest : List Char} (h : dropPrefix? p cs = some rest) :
    cs = p ++ rest := by
  fun_induction dropPrefix? p cs with
  | case1 => simp_all
  | case2 => simp at h
  | case3 p ps c cs hc ih => simp_all
  | case4 => simp at h

end PugComponents.Text

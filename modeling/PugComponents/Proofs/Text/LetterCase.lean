import PugComponents.Text.Identifier

/- The case mappings keep letters. Every row of the tables is checked once, against
   the letters as the bits of one number: a code point with another upper or lower
   case is a letter, and what it maps to starts with a letter. Only the marks that
   some full mappings put behind the letter are none. `markedUpper` lists the code
   points whose upper case holds such a mark; for the lower case there is one. -/
namespace PugComponents.Text

/-! ## Letters as bits -/

/-- The members of a set as the bits of a number. -/
def RunLengths.bits : List Nat → Nat
  | outside :: inside :: runs => ((1 <<< inside - 1) ||| bits runs <<< inside) <<< outside
  | _ => 0

variable {n : Nat}

theorem RunLengths.isIn_of_testBit {runs : List Nat} (h : (bits runs).testBit n = true) :
    isIn false n runs = true := by
  fun_induction bits runs generalizing n with
  | case1 outside inside runs ih =>
    rw [Nat.testBit_shiftLeft, Nat.testBit_or, Nat.one_shiftLeft, Nat.testBit_two_pow_sub_one,
      Nat.testBit_shiftLeft, Bool.and_eq_true, Bool.or_eq_true, Bool.and_eq_true] at h
    obtain ⟨houtside, hinside⟩ := h
    have hbehind : ¬ n < outside := Nat.not_lt.mpr (of_decide_eq_true houtside)
    rcases hinside with hhere | ⟨hlater, hbit⟩
    · simp [isIn, hbehind, of_decide_eq_true hhere]
    · have hpast : ¬ n - outside < inside := Nat.not_lt.mpr (of_decide_eq_true hlater)
      simp [isIn, hbehind, hpast, ih hbit]
  | case2 runs hshort => simp at h

/-- The letters among the code points. -/
def isLetterCode (n : Nat) : Bool :=
  decide n.isValidChar && (RunLengths.bits alphabeticTable.runs).testBit n

theorem isAlpha_of_isLetterCode : ∀ n < 128, isLetterCode n = true → (Char.ofNat n).isAlpha = true := by
  decide +kernel

theorem isAlphabetic_ofNat (h : isLetterCode n = true) : isAlphabetic (Char.ofNat n) = true := by
  obtain ⟨hvalid, hbit⟩ := Bool.and_eq_true_iff.mp h
  have htoNat : (Char.ofNat n).toNat = n := by
    rw [Char.ofNat, dif_pos (of_decide_eq_true hvalid)]
    rfl
  unfold isAlphabetic
  rw [htoNat]
  split
  · rename_i hascii
    exact isAlpha_of_isLetterCode n hascii h
  · unfold RunLengths.containsChar RunLengths.contains
    rw [htoNat]
    exact RunLengths.isIn_of_testBit hbit

/-! ## The rows of the tables -/

/-- Every code point of the run is a letter and maps to a letter. -/
def CaseRun.isLettered (r : CaseRun) : Bool :=
  (List.range (r.last - r.first + 1)).all fun k =>
    k % r.step != 0 || isLetterCode (r.first + k) && isLetterCode (r.image + k)

theorem CaseRun.letters_of_map? {r : CaseRun} (hr : r.isLettered = true) {m : Nat}
    (h : r.map? n = some m) : isLetterCode n = true ∧ isLetterCode m = true := by
  unfold map? at h
  split at h
  · rename_i hin
    simp only [Bool.and_eq_true, decide_eq_true_eq, beq_iff_eq] at hin
    have hk : n - r.first ∈ List.range (r.last - r.first + 1) := List.mem_range.mpr (by omega)
    have hrow := List.all_eq_true.mp hr _ hk
    rw [hin.2, Nat.add_sub_cancel' hin.1.1] at hrow
    simpa [Option.some.inj h] using hrow
  · cases h

theorem upperRuns_lettered : ∀ r ∈ upperRuns, r.isLettered = true := by
  apply List.all_eq_true.mp
  decide +kernel

theorem lowerRuns_lettered : ∀ r ∈ lowerRuns, r.isLettered = true := by
  apply List.all_eq_true.mp
  decide +kernel

/-- The code points whose upper case is a letter and marks behind it. -/
def markedUpper : List Nat :=
  [496, 912, 944, 7830, 7831, 7832, 7833, 8016, 8018, 8020, 8022, 8118, 8119, 8134, 8135, 8146, 8147,
    8150, 8151, 8162, 8163, 8164, 8166, 8167, 8182, 8183]

/-- A letter maps to a letter, with what an identifier can hold behind it unless it is marked. -/
def isLetteredExpansion (row : Nat × List Nat) : Bool :=
  isLetterCode row.1 &&
    match row.2 with
    | [] => false
    | first :: rest =>
      isLetterCode first &&
        rest.all (fun n => continuesIdentifier (Char.ofNat n)) == !markedUpper.contains row.1

theorem upperExpansions_lettered : ∀ row ∈ upperExpansions, isLetteredExpansion row = true := by
  apply List.all_eq_true.mp
  decide +kernel

theorem markedUpper_expands : ∀ n ∈ markedUpper, (upperExpansions.lookup n).isSome = true := by
  decide +kernel

/-! ## The mappings -/

variable {c : Char}

theorem isAlphabetic_of_code (h : isLetterCode c.toNat = true) : isAlphabetic c = true := by
  have := isAlphabetic_ofNat h
  rwa [Char.ofNat_toNat] at this

/-- The image of a code point comes from a row of its own, from a run, or is the code point. -/
theorem caseImage_cases (expansions : List (Nat × List Nat)) (runs : List CaseRun) (n : Nat) :
    (∃ images, (n, images) ∈ expansions ∧ expansions.lookup n = some images ∧
      caseImage expansions runs n = images) ∨
    expansions.lookup n = none ∧
      ((∃ r ∈ runs, ∃ m, r.map? n = some m ∧ caseImage expansions runs n = [m]) ∨
        caseImage expansions runs n = [n]) := by
  unfold caseImage
  cases hlookup : expansions.lookup n with
  | some images =>
    obtain ⟨before, after, hexpansions, -⟩ := List.lookup_eq_some_iff.mp hlookup
    exact .inl ⟨images, by simp [hexpansions], rfl, rfl⟩
  | none =>
    refine .inr ⟨rfl, ?_⟩
    cases hrun : runs.findSome? (·.map? n) with
    | none => exact .inr rfl
    | some m =>
      obtain ⟨r, hr, hm⟩ := List.exists_of_findSome?_eq_some hrun
      exact .inl ⟨r, hr, m, hm, rfl⟩

/-- Only letters have another upper case, and it starts with a letter. -/
theorem toUpper_cases (c : Char) :
    toUpper c = [c] ∧ c.toNat ∉ markedUpper ∨
      isAlphabetic c = true ∧ ∃ d rest, toUpper c = d :: rest ∧ isAlphabetic d = true ∧
        (rest.all continuesIdentifier = true ↔ c.toNat ∉ markedUpper) := by
  have hplain (h : upperExpansions.lookup c.toNat = none) : c.toNat ∉ markedUpper := by
    intro hmem
    have := markedUpper_expands _ hmem
    rw [h] at this
    cases this
  unfold toUpper
  rcases caseImage_cases upperExpansions upperRuns c.toNat with
    ⟨images, hmem, -, himage⟩ | ⟨hlookup, ⟨r, hr, m, hm, himage⟩ | himage⟩
  · have hrow := upperExpansions_lettered _ hmem
    unfold isLetteredExpansion at hrow
    cases images with
    | nil => simp at hrow
    | cons first rest =>
      simp only [Bool.and_eq_true, beq_iff_eq] at hrow
      obtain ⟨hc, hfirst, hrest⟩ := hrow
      refine .inr ⟨isAlphabetic_of_code hc, Char.ofNat first, rest.map Char.ofNat, ?_,
        isAlphabetic_ofNat hfirst, ?_⟩
      · rw [himage, List.map_cons]
      · rw [List.all_map, Function.comp_def, hrest]
        simp
  · obtain ⟨hc, hletter⟩ := CaseRun.letters_of_map? (upperRuns_lettered r hr) hm
    refine .inr ⟨isAlphabetic_of_code hc, Char.ofNat m, [], ?_, isAlphabetic_ofNat hletter, ?_⟩
    · rw [himage, List.map_singleton]
    · simp [hplain hlookup]
  · refine .inl ⟨?_, hplain hlookup⟩
    rw [himage, List.map_singleton, Char.ofNat_toNat]

/-- Every lower case is one character, a letter where it is another one, except that of the dotted
capital I. -/
theorem toLower_cases (c : Char) :
    c = 'İ' ∨ toLower c = [c] ∨ ∃ d, toLower c = [d] ∧ isAlphabetic d = true := by
  unfold toLower
  rcases caseImage_cases lowerExpansions lowerRuns c.toNat with
    ⟨images, hmem, -⟩ | ⟨-, ⟨r, hr, m, hm, himage⟩ | himage⟩
  · left
    have hcode : c.toNat = 304 := by simpa using congrArg Prod.fst (List.mem_singleton.mp hmem)
    rw [← Char.ofNat_toNat c, hcode]
  · obtain ⟨-, hletter⟩ := CaseRun.letters_of_map? (lowerRuns_lettered r hr) hm
    exact .inr (.inr ⟨Char.ofNat m, by rw [himage, List.map_singleton], isAlphabetic_ofNat hletter⟩)
  · exact .inr (.inl (by rw [himage, List.map_singleton, Char.ofNat_toNat]))

/-! ## What stays part of an identifier -/

theorem continuesIdentifier_of_isAlphabetic (h : isAlphabetic c = true) :
    continuesIdentifier c = true := by
  simp [continuesIdentifier, isAlphanumeric, h]

theorem all_toUpper (hc : continuesIdentifier c = true) :
    (toUpper c).all continuesIdentifier = true ↔ c.toNat ∉ markedUpper := by
  rcases toUpper_cases c with ⟨hself, hplain⟩ | ⟨-, d, rest, hupper, hd, hrest⟩
  · simp [hself, hc, hplain]
  · rw [hupper, List.all_cons, continuesIdentifier_of_isAlphabetic hd, Bool.true_and, hrest]

theorem all_toLower (hc : continuesIdentifier c = true) :
    (toLower c).all continuesIdentifier = true ↔ c ≠ 'İ' := by
  by_cases hdotted : c = 'İ'
  · subst hdotted
    decide +kernel
  · rcases toLower_cases c with h | hself | ⟨d, hlower, hd⟩
    · exact absurd h hdotted
    · simp [hself, hc, hdotted]
    · simp [hlower, continuesIdentifier_of_isAlphabetic hd, hdotted]

end PugComponents.Text

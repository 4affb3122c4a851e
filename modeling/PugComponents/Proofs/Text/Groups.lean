import PugComponents.Text.Bracket
import PugComponents.Text.Bytes

/- Bracket groups in a longer text. A group that is closed is read off the front
   of a text, so it is the same whatever follows (`group?_append`), and what it
   encloses stands between the two brackets (`group?_eq_some`). -/
namespace PugComponents.Text

/-- The three kinds of brackets. -/
theorem closerOf?_cases {opener closer : Char} (h : closerOf? opener = some closer) :
    (opener = '(' ∧ closer = ')') ∨ (opener = '[' ∧ closer = ']') ∨
      (opener = '\x7b' ∧ closer = '\x7d') := by
  unfold closerOf? at h
  split at h
  · rename_i hc
    exact .inl ⟨beq_iff_eq.mp hc, (Option.some.inj h).symm⟩
  · split at h
    · rename_i hc
      exact .inr (.inl ⟨beq_iff_eq.mp hc, (Option.some.inj h).symm⟩)
    · split at h
      · rename_i hc
        exact .inr (.inr ⟨beq_iff_eq.mp hc, (Option.some.inj h).symm⟩)
      · cases h

/-- Brackets take one byte. -/
theorem closerOf?_utf8Size {opener closer : Char} (h : closerOf? opener = some closer) :
    opener.utf8Size = 1 ∧ closer.utf8Size = 1 := by
  rcases closerOf?_cases h with ⟨rfl, rfl⟩ | ⟨rfl, rfl⟩ | ⟨rfl, rfl⟩ <;> decide

variable {inner rest : List Char}

theorem map_consFirst_eq_some {c : Char} {x : Option (List Char × List Char)}
    (h : x.map (consFirst c) = some (inner, rest)) : ∃ i, x = some (i, rest) ∧ inner = c :: i := by
  obtain ⟨⟨i, r⟩, hr, heq⟩ := Option.map_eq_some_iff.mp h
  cases heq
  exact ⟨i, hr, rfl⟩

/-- The bracket that ends a group closes the outermost one that is open. -/
theorem scanGroup_closes {pending : List Char} {quoting : Quoting} {cs : List Char} {last : Char}
    (hlast : pending.getLast? = some last) (h : scanGroup pending quoting cs = some (inner, rest)) :
    cs = inner ++ last :: rest := by
  -- Every step but the last puts its character in front of what the rest of the scan finds.
  have step : ∀ {c : Char} {cs : List Char} {x : Option (List Char × List Char)}
      {inner rest : List Char}, (∀ {i r : List Char}, x = some (i, r) → cs = i ++ last :: r) →
      x.map (consFirst c) = some (inner, rest) → c :: cs = inner ++ last :: rest := by
    intro c cs x inner rest ih h
    obtain ⟨i, hi, rfl⟩ := map_consFirst_eq_some h
    rw [ih hi]
    rfl
  fun_induction scanGroup pending quoting cs generalizing inner rest with
  | case1 => cases h
  | case2 pending _ _ _ _ closer _ ih =>
    refine step (ih ?_) h
    cases pending with
    | nil => cases hlast
    | cons d pending => rw [List.getLast?_cons_cons, hlast]
  | case3 => cases hlast
  | case4 _ c _ _ _ _ awaited hawaited =>
    cases hlast
    cases h
    rw [beq_iff_eq.mp hawaited]
    rfl
  | case5 => cases h
  | case6 _ _ _ _ _ _ awaited outer hne _ ih =>
    refine step (ih ?_) h
    cases outer with
    | nil => exact absurd rfl hne
    | cons d outer => rwa [List.getLast?_cons_cons] at hlast
  | case7 => cases h
  | case8 _ _ _ _ _ _ _ ih | case9 _ _ _ _ _ ih => exact step (ih hlast) h

/-- A group that is closed is closed in the same place when the text goes on. -/
theorem scanGroup_append {pending : List Char} {quoting : Quoting} {cs : List Char}
    (h : scanGroup pending quoting cs = some (inner, rest)) (tail : List Char) :
    scanGroup pending quoting (cs ++ tail) = some (inner, rest ++ tail) := by
  have step : ∀ {c : Char} {x y : Option (List Char × List Char)} {inner rest : List Char},
      (∀ {i r : List Char}, x = some (i, r) → y = some (i, r ++ tail)) →
      x.map (consFirst c) = some (inner, rest) →
      y.map (consFirst c) = some (inner, rest ++ tail) := by
    intro c x y inner rest ih h
    obtain ⟨i, hi, rfl⟩ := map_consFirst_eq_some h
    rw [ih hi]
    rfl
  fun_induction scanGroup pending quoting cs generalizing inner rest with
  | case1 | case3 | case5 | case7 => cases h
  | case2 pending quoting c cs hcode closer hcloser ih =>
    simp only [List.cons_append, scanGroup, hcode, hcloser, if_true]
    exact step ih h
  | case4 quoting c cs hcode hopen hcloser awaited haw =>
    cases h
    simp [scanGroup, hcode, hopen, hcloser, haw]
  | case6 quoting c cs hcode hopen hcloser awaited outer hne haw ih =>
    cases outer with
    | nil => exact absurd rfl hne
    | cons next outer =>
      simp only [List.cons_append, scanGroup, hcode, hopen, hcloser, haw, if_true]
      exact step ih h
  | case8 pending quoting c cs hcode hopen hcloser ih =>
    simp only [List.cons_append, scanGroup, hcode, hopen, hcloser, if_true]
    exact step ih h
  | case9 pending quoting c cs hcode ih =>
    simp only [List.cons_append, scanGroup, hcode]
    exact step ih h

/-- What a group encloses stands between its brackets. -/
theorem group?_eq_some {text : List Char} (h : group? text = some (inner, rest)) :
    ∃ opener closer, closerOf? opener = some closer ∧ text = opener :: (inner ++ closer :: rest) := by
  unfold group? at h
  split at h
  · cases h
  · rename_i c cs
    split at h
    · rename_i closer hopen
      exact ⟨c, closer, hopen, congrArg (c :: ·) (scanGroup_closes List.getLast?_singleton h)⟩
    · cases h

theorem group?_append {text : List Char} (h : group? text = some (inner, rest)) (tail : List Char) :
    group? (text ++ tail) = some (inner, rest ++ tail) := by
  unfold group? at h
  split at h
  · cases h
  · rename_i c cs
    split at h
    · rename_i hopen
      simp only [List.cons_append, group?, hopen]
      exact scanGroup_append h tail
    · cases h

end PugComponents.Text

import PugComponents.Json.Reader
import PugComponents.Text.Quoted

/- A quoted string is read back as the text it quotes, whatever follows it. -/
namespace PugComponents.Json

open Text

/-- The piece that a written character is read as. -/
def pieceOf (c : Char) : Piece :=
  if c.toNat < 32 && !(c.toNat == 8 || c == '\t' || c == '\n' || c.toNat == 12 || c == '\r') then
    .unit c.toNat
  else .char c

theorem hexDigit?_hexDigitChar : ∀ n, n < 16 → hexDigit? (hexDigitChar n) = some n := by decide

variable {n : Nat}

theorem fourDigits?_escaped (h : n < 32) (s : List Char) :
    fourDigits? ('0' :: '0' :: hexDigitChar (n / 16) :: hexDigitChar (n % 16) :: s) = some (n, s) := by
  have hzero : hexDigit? '0' = some 0 := rfl
  have hhigh := hexDigit?_hexDigitChar (n / 16) (by omega)
  have hlow := hexDigit?_hexDigitChar (n % 16) (by omega)
  simp only [fourDigits?, hzero, hhigh, hlow, bind, Option.bind, Option.some.injEq, Prod.mk.injEq,
    and_true]
  omega

theorem eq_of_toNat_eq {c : Char} (d : Char) (h : c.toNat = d.toNat) : c = d :=
  Char.toNat_inj.mp h

/-- One written character is one piece. -/
theorem pieces?_escapeChar (n : Nat) (c : Char) (s : List Char) :
    pieces? (n + 1) (escapeChar c ++ s) =
      (pieces? n s).map fun (more, rest) => (pieceOf c :: more, rest) := by
  -- the escapes with one letter, one by one
  by_cases hshort : c = '"' ∨ c = '\\' ∨ c = '\x08' ∨ c = '\t' ∨ c = '\n' ∨ c = '\x0c' ∨ c = '\r'
  · cases hs : pieces? n s <;>
      rcases hshort with rfl | rfl | rfl | rfl | rfl | rfl | rfl <;>
      simp [escapeChar, pieces?, simpleEscape?, pieceOf, hs]
  · simp only [not_or] at hshort
    obtain ⟨hquote, hslash, hback, htab, hfeed, hpage, hreturn⟩ := hshort
    have h8 : c.toNat ≠ 8 := fun h => hback (eq_of_toNat_eq '\x08' h)
    have h12 : c.toNat ≠ 12 := fun h => hpage (eq_of_toNat_eq '\x0c' h)
    by_cases hlow : c.toNat < 32
    · cases hs : pieces? n s <;>
        simp [escapeChar, pieceOf, pieces?, fourDigits?_escaped hlow, hquote, hslash, h8, htab,
          hfeed, h12, hreturn, hlow, hs]
    · cases hs : pieces? n s <;>
        simp [escapeChar, pieceOf, pieces?, hquote, hslash, h8, htab, hfeed, h12, hreturn, hlow, hs]

theorem pieces?_escape (cs rest : List Char) (hn : cs.length < n) :
    pieces? n (escape cs ++ '"' :: rest) = some (cs.map pieceOf, rest) := by
  induction cs generalizing n with
  | nil =>
    obtain ⟨m, rfl⟩ := Nat.exists_eq_add_of_lt hn
    simp [escape, pieces?]
  | cons c cs ih =>
    obtain ⟨m, rfl⟩ : ∃ m, n = m + 1 := ⟨n - 1, by simp at hn; omega⟩
    have hm : cs.length < m := by simpa using hn
    rw [escape, List.flatMap_cons, List.append_assoc, pieces?_escapeChar]
    rw [show cs.flatMap escapeChar = escape cs from rfl, ih hm]
    rfl

/-- A number that is no half of a surrogate pair is a character, whatever follows it. -/
theorem textOf?_unit (h : n < 0xd800) (rest : List Piece) :
    textOf? (.unit n :: rest) = (textOf? rest).map (Char.ofNat n :: ·) := by
  have hhigh : isHighHalf n = false := by simp [isHighHalf]; omega
  have hlow : isLowHalf n = false := by simp [isLowHalf]; omega
  cases rest with
  | nil => simp [textOf?, hhigh, hlow]
  | cons p rest => cases p <;> simp [textOf?, hhigh, hlow]

theorem textOf?_map_pieceOf (cs : List Char) : textOf? (cs.map pieceOf) = some cs := by
  induction cs with
  | nil => rfl
  | cons c cs ih =>
    rw [List.map_cons, pieceOf]
    split
    · rename_i h
      have hlow : c.toNat < 0xd800 := by
        simp only [Bool.and_eq_true, decide_eq_true_eq] at h
        omega
      rw [textOf?_unit hlow, ih, Option.map_some, Char.ofNat_toNat]
    · rw [textOf?, ih, Option.map_some]

/-- Reading back a quoted string. -/
theorem string?_escape (cs rest : List Char) :
    string? (escape cs ++ '"' :: rest) = some (some (String.ofList cs), rest) := by
  have hlength : cs.length ≤ (escape cs).length := by
    induction cs with
    | nil => simp
    | cons c cs ih =>
      have hc : 1 ≤ (escapeChar c).length := by
        unfold escapeChar
        repeat' split
        all_goals simp
      simp only [escape, List.flatMap_cons, List.length_append, List.length_cons] at ih ⊢
      omega
  rw [string?, pieces?_escape cs rest (by simp; omega)]
  simp [textOf?_map_pieceOf]

end PugComponents.Json

/- Byte offsets. Text is a list of characters; an offset into it counts the
   bytes of its UTF-8 form, and cuts the text in two. -/
namespace PugComponents.Text

/-- The number of bytes of the UTF-8 form of a text. -/
def byteLength : List Char → Nat
  | [] => 0
  | c :: cs => c.utf8Size + byteLength cs

theorem byteLength_append (a b : List Char) : byteLength (a ++ b) = byteLength a + byteLength b := by
  induction a with
  | nil => simp [byteLength]
  | cons c a ih => simp [byteLength, ih, Nat.add_assoc]

theorem length_le_byteLength (cs : List Char) : cs.length ≤ byteLength cs := by
  induction cs with
  | nil => simp [byteLength]
  | cons c cs ih =>
    have := c.utf8Size_pos
    simp only [byteLength, List.length_cons]
    omega

theorem byteLength_pos {cs : List Char} (h : cs ≠ []) : 0 < byteLength cs :=
  Nat.lt_of_lt_of_le (List.length_pos_iff.mpr h) (length_le_byteLength cs)

/-- The text of the first bytes. -/
def takeBytes : Nat → List Char → List Char
  | 0, _ => []
  | _ + 1, [] => []
  | n + 1, c :: cs => c :: takeBytes (n + 1 - c.utf8Size) cs

/-- The text from a byte offset on. -/
def fromByte : Nat → List Char → List Char
  | 0, cs => cs
  | _ + 1, [] => []
  | n + 1, c :: cs => fromByte (n + 1 - c.utf8Size) cs

/-- The text between two byte offsets, if the second one is not inside a character. -/
def slice? (start stop : Nat) (text : List Char) : Option (List Char) :=
  let front := takeBytes stop text
  if byteLength front = stop then some (fromByte start front) else none

theorem takeBytes_add (front text : List Char) (n : Nat) :
    takeBytes (byteLength front + n) (front ++ text) = front ++ takeBytes n text := by
  induction front with
  | nil => rw [byteLength, Nat.zero_add, List.nil_append, List.nil_append]
  | cons c front ih =>
    obtain ⟨m, hm⟩ : ∃ m, byteLength (c :: front) + n = m + 1 :=
      Nat.exists_eq_add_one.mpr (Nat.add_pos_left (byteLength_pos (List.cons_ne_nil c front)) n)
    rw [hm, List.cons_append, takeBytes, ← hm, byteLength, Nat.add_assoc, Nat.add_sub_cancel_left, ih,
      List.cons_append]

theorem takeBytes_append (front text : List Char) : takeBytes (byteLength front) (front ++ text) = front := by
  have h := takeBytes_add front text 0
  rwa [Nat.add_zero, takeBytes, List.append_nil] at h

theorem fromByte_append (before text : List Char) : fromByte (byteLength before) (before ++ text) = text := by
  induction before with
  | nil =>
    show fromByte 0 text = text
    unfold fromByte
    rfl
  | cons c before ih =>
    obtain ⟨n, hn⟩ : ∃ n, byteLength (c :: before) = n + 1 :=
      Nat.exists_eq_add_one.mpr (byteLength_pos (List.cons_ne_nil c before))
    rw [hn, List.cons_append, fromByte, ← hn, byteLength, Nat.add_sub_cancel_left, ih]

end PugComponents.Text

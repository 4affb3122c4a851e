import PugComponents.Proofs.Template.Boundaries
import PugComponents.Proofs.Template.Items
import PugComponents.Proofs.Text.Balanced

/- Brackets in the bytes of a text. A bracket takes one byte, and this byte is a part of no other
   character, so wherever the byte of a bracket stands, the bracket does (`exists_char_of_byte`).
   The closing bracket of a group is found at the byte before which a balanced text ends, and
   there is one such byte at most (`closing_exact`). -/
namespace PugComponents.Template

open Text

/-! ## Characters of one byte -/

variable {c : Char}

theorem toNat_toUInt8 (hc : c.utf8Size = 1) : c.toUInt8.toNat = c.toNat ∧ c.toNat ≤ 127 := by
  have hle : c.toNat ≤ 127 := UInt32.le_iff_toNat_le.mp (Char.utf8Size_eq_one_iff.mp hc)
  refine ⟨?_, hle⟩
  show c.toNat % 256 = c.toNat
  omega

/-- The bytes of a longer character are no bytes of short ones. -/
theorem le_of_mem_utf8EncodeChar (hc : c.utf8Size ≠ 1) {b : UInt8} (h : b ∈ String.utf8EncodeChar c) :
    128 ≤ b.toNat := by
  have hmask (x mask : UInt8) (hmask : 128 ≤ mask.toNat) : 128 ≤ (x ||| mask).toNat := by
    rw [UInt8.toNat_or]
    exact Nat.le_trans hmask Nat.right_le_or
  have hpos := c.utf8Size_pos
  have hle := c.utf8Size_le_four
  obtain hsize | hsize | hsize : c.utf8Size = 2 ∨ c.utf8Size = 3 ∨ c.utf8Size = 4 := by omega
  · rw [String.utf8EncodeChar_eq_cons_cons hsize] at h
    simp only [List.mem_cons, List.not_mem_nil, or_false] at h
    rcases h with rfl | rfl <;> exact hmask _ _ (by decide)
  · rw [String.utf8EncodeChar_eq_cons_cons_cons hsize] at h
    simp only [List.mem_cons, List.not_mem_nil, or_false] at h
    rcases h with rfl | rfl | rfl <;> exact hmask _ _ (by decide)
  · rw [String.utf8EncodeChar_eq_cons_cons_cons_cons hsize] at h
    simp only [List.mem_cons, List.not_mem_nil, or_false] at h
    rcases h with rfl | rfl | rfl | rfl <;> exact hmask _ _ (by decide)

/-- A character whose bytes include that of a character of one byte is this character. -/
theorem eq_of_mem_utf8EncodeChar {d : Char} (hc : c.utf8Size = 1)
    (h : c.toUInt8 ∈ String.utf8EncodeChar d) : d = c := by
  obtain ⟨hbyte, hle⟩ := toNat_toUInt8 hc
  have hd : d.utf8Size = 1 := by
    apply Decidable.byContradiction
    intro hne
    have hge := le_of_mem_utf8EncodeChar hne h
    omega
  rw [String.utf8EncodeChar_eq_singleton hd, List.mem_singleton] at h
  have hsame : c.toNat = d.toNat := by
    rw [← hbyte, ← (toNat_toUInt8 hd).1]
    exact congrArg UInt8.toNat h
  exact (Char.toNat_inj.mp hsame).symm

theorem getElem?_utf8Encode (text : List Char) (i : Nat) :
    text.utf8Encode[i]? = (text.flatMap String.utf8EncodeChar)[i]? := by
  show (text.flatMap String.utf8EncodeChar).toByteArray[i]? = _
  generalize text.flatMap String.utf8EncodeChar = bytes
  by_cases h : i < bytes.length
  · rw [getElem?_pos _ i (by rwa [List.size_toByteArray]), List.getElem_toByteArray,
      List.getElem?_eq_getElem h]
  · rw [getElem?_neg _ i (by rwa [List.size_toByteArray]), List.getElem?_eq_none (by omega)]

theorem size_utf8Encode (text : List Char) : text.utf8Encode.size = byteLength text := by
  induction text with
  | nil => rfl
  | cons c cs ih =>
    rw [List.utf8Encode_cons, ByteArray.size_append, List.utf8Encode_singleton, List.size_toByteArray,
      String.length_utf8EncodeChar, ih, byteLength]

/-- Where the byte of a character of one byte stands, the character stands. -/
theorem exists_char_of_byte {text : List Char} {offset : Nat} (hc : c.utf8Size = 1)
    (h : text.utf8Encode[offset]? = some c.toUInt8) :
    ∃ before after, text = before ++ c :: after ∧ byteLength before = offset := by
  rw [getElem?_utf8Encode] at h
  induction text generalizing offset with
  | nil => cases h
  | cons d text ih =>
    rw [List.flatMap_cons] at h
    by_cases hlt : offset < d.utf8Size
    · -- The byte is one of the first character.
      rw [List.getElem?_append_left (by rwa [String.length_utf8EncodeChar])] at h
      obtain rfl := eq_of_mem_utf8EncodeChar hc (List.mem_of_getElem? h)
      exact ⟨[], text, rfl, by rw [byteLength]; omega⟩
    · rw [List.getElem?_append_right (by rw [String.length_utf8EncodeChar]; omega),
        String.length_utf8EncodeChar] at h
      obtain ⟨before, after, rfl, hoffset⟩ := ih h
      exact ⟨d :: before, after, rfl, by rw [byteLength]; omega⟩

theorem byte_of_char (hc : c.utf8Size = 1) (before after : List Char) :
    (before ++ c :: after).utf8Encode[byteLength before]? = some c.toUInt8 := by
  have hlength : (before.flatMap String.utf8EncodeChar).length = byteLength before := by
    rw [← size_utf8Encode, ← List.size_toByteArray]
    rfl
  rw [getElem?_utf8Encode, List.flatMap_append, ← hlength, List.getElem?_append_right (Nat.le_refl _),
    Nat.sub_self, List.flatMap_cons, String.utf8EncodeChar_eq_singleton hc]
  rfl

/-- The bytes between two boundaries are those of the text between them. -/
theorem extract_utf8Encode (before inner after : List Char) :
    (before ++ (inner ++ after)).utf8Encode.extract (byteLength before)
      (byteLength before + byteLength inner) = inner.utf8Encode := by
  have hskip := ByteArray.extract_append_size_add (a := before.utf8Encode)
    (b := inner.utf8Encode ++ after.utf8Encode) (i := 0) (j := inner.utf8Encode.size)
  rw [Nat.add_zero] at hskip
  rw [List.utf8Encode_append, List.utf8Encode_append, ← size_utf8Encode before, ← size_utf8Encode inner,
    hskip]
  exact ByteArray.extract_append_eq_left rfl

theorem utf8Encode_inj {a b : List Char} (h : a.utf8Encode = b.utf8Encode) : a = b := by
  have hstring : (String.ofList a).toByteArray = (String.ofList b).toByteArray := by
    rw [String.toByteArray_ofList, String.toByteArray_ofList, h]
  rw [← String.toList_ofList (l := a), String.toByteArray_inj.mp hstring, String.toList_ofList]

/-! ## The bracket that closes a group -/

/-- From the byte after one offset a balanced text goes to a closing bracket at another. -/
structure Closes (text : String) (closer : Char) (opening closing : Nat) : Prop where
  after : opening < closing
  inside : ∃ inner : String, Balanced inner.toList ∧
    text.toUTF8.extract (opening + 1) closing = inner.toUTF8
  bracket : text.toUTF8[closing]? = some closer.toUInt8

theorem toUTF8_eq (text : String) : text.toUTF8 = text.toList.utf8Encode := by
  rw [String.toUTF8_eq_toByteArray, String.utf8Encode_toList]

theorem closing?_append {opener closer : Char} (hopen : closerOf? opener = some closer)
    (before after : List Char) (i : Nat) :
    closing? (before ++ opener :: after) (byteLength before) = some i ↔
      ∃ inner rest, Balanced inner ∧ after = inner ++ closer :: rest ∧
        i = byteLength before + 1 + byteLength inner := by
  rw [closing?, fromByte_append, Option.map_eq_some_iff]
  constructor
  · rintro ⟨⟨inner, rest⟩, hgroup, rfl⟩
    obtain ⟨hinner, rfl⟩ := (group?_eq_some_iff hopen).mp hgroup
    exact ⟨inner, rest, hinner, rfl, rfl⟩
  · rintro ⟨inner, rest, hinner, rfl, rfl⟩
    exact ⟨(inner, rest), (group?_eq_some_iff hopen).mpr ⟨hinner, rfl⟩, rfl⟩

/-- Of two fronts of a text the one with fewer bytes is a front of the other. -/
theorem isPrefix_of_byteLength_le (text : List Char) {a b : List Char} (ha : a <+: text) (hb : b <+: text)
    (h : byteLength a ≤ byteLength b) : a <+: b := by
  rcases List.prefix_or_prefix_of_prefix ha hb with hab | ⟨rest, rfl⟩
  · exact hab
  · rw [byteLength_append] at h
    have hrest := length_le_byteLength rest
    obtain rfl : rest = [] := List.eq_nil_of_length_eq_zero (by omega)
    exact ⟨[], by rw [List.append_nil, List.append_nil]⟩

theorem closes_append {opener closer : Char} (hopen : closerOf? opener = some closer) {text : String}
    {before after : List Char} (htext : text.toList = before ++ opener :: after) (i : Nat) :
    Closes text closer (byteLength before) i ↔
      ∃ inner rest, Balanced inner ∧ after = inner ++ closer :: rest ∧
        i = byteLength before + 1 + byteLength inner := by
  have hcloser : closer.utf8Size = 1 := (closerOf?_utf8Size hopen).2
  have hfront : byteLength (before ++ [opener]) = byteLength before + 1 := by
    rw [byteLength_append, byteLength, byteLength, (closerOf?_utf8Size hopen).1]
  have hsplit (inner rest : List Char) :
      before ++ opener :: (inner ++ closer :: rest) = (before ++ [opener]) ++ (inner ++ closer :: rest) := by
    simp
  constructor
  · rintro ⟨hlt, ⟨inner, hinner, hbytes⟩, hbracket⟩
    rw [toUTF8_eq] at hbracket
    obtain ⟨front, rest, hrest, rfl⟩ := exists_char_of_byte hcloser hbracket
    -- The opening bracket stands before the closing one.
    have hprefix : before ++ [opener] <+: front := by
      refine isPrefix_of_byteLength_le text.toList ?_ ?_ (by omega)
      · exact ⟨after, by rw [htext]; simp⟩
      · exact ⟨closer :: rest, hrest.symm⟩
    obtain ⟨found, rfl⟩ := hprefix
    obtain rfl : after = found ++ closer :: rest := by
      have heq := htext.symm.trans hrest
      simpa using heq
    rw [byteLength_append, hfront] at hbytes ⊢
    rw [toUTF8_eq, toUTF8_eq, htext, hsplit, ← hfront, extract_utf8Encode] at hbytes
    obtain rfl := utf8Encode_inj hbytes
    exact ⟨inner.toList, rest, hinner, rfl, rfl⟩
  · rintro ⟨inner, rest, hinner, rfl, rfl⟩
    refine ⟨by omega, ⟨String.ofList inner, by rwa [String.toList_ofList], ?_⟩, ?_⟩
    · rw [toUTF8_eq, toUTF8_eq, htext, hsplit, ← hfront, extract_utf8Encode, String.toList_ofList]
    · rw [toUTF8_eq, htext, hsplit, ← hfront, ← byteLength_append, ← List.append_assoc]
      exact byte_of_char hcloser _ _

/-- The offset that is found for an opening bracket is the one where a balanced text ends before the
closing bracket. There is one such offset at most, a character starts at it, and where there is
none, none is found. -/
theorem closing_exact (text : String) (opening : Nat) {opener closer : Char}
    (hopen : closerOf? opener = some closer) (hat : text.toUTF8[opening]? = some opener.toUInt8) :
    (∀ i, closing? text.toList opening = some i ↔ Closes text closer opening i) ∧
      (∀ i j, Closes text closer opening i → Closes text closer opening j → i = j) ∧
      (∀ i, Closes text closer opening i → IsBoundary text.toList i) ∧
      (closing? text.toList opening = none ↔ ¬ ∃ i, Closes text closer opening i) := by
  rw [toUTF8_eq] at hat
  obtain ⟨before, after, htext, rfl⟩ := exists_char_of_byte (closerOf?_utf8Size hopen).1 hat
  have hiff : ∀ i, closing? text.toList (byteLength before) = some i ↔
      Closes text closer (byteLength before) i := by
    intro i
    rw [closes_append hopen htext, htext, closing?_append hopen]
  refine ⟨hiff, ?_, ?_, ?_⟩
  · intro i j hi hj
    exact Option.some.inj (((hiff i).mpr hi).symm.trans ((hiff j).mpr hj))
  · intro i hi
    obtain ⟨inner, rest, -, rfl, rfl⟩ := (closes_append hopen htext i).mp hi
    refine ⟨before ++ opener :: inner, closer :: rest, ?_, ?_⟩
    · rw [htext, List.append_assoc, List.cons_append]
    · rw [byteLength_append, byteLength, (closerOf?_utf8Size hopen).1]
      omega
  · rw [Option.eq_none_iff_forall_ne_some]
    simp only [ne_eq, hiff, not_exists]

/-- A closing parenthesis in a string and another pair of brackets are passed; the offset counts
bytes, and the first character takes two of them. -/
theorem closing_exact_nested :
    closerOf? '(' = some ')' ∧ "é(a=')', b=[x]) + c".toUTF8[2]? = some '('.toUInt8 ∧
      Closes "é(a=')', b=[x]) + c" ')' 2 15 ∧ ∀ i, Closes "é(a=')', b=[x]) + c" ')' 2 i → i = 15 := by
  have hopen : closerOf? '(' = some ')' := rfl
  have hat : "é(a=')', b=[x]) + c".toUTF8[2]? = some '('.toUInt8 := by decide
  obtain ⟨hfound, hunique, -, -⟩ := closing_exact "é(a=')', b=[x]) + c" 2 hopen hat
  have hcloses := (hfound 15).mp (by decide)
  exact ⟨hopen, hat, hcloses, fun i hi => hunique i 15 hi hcloses⟩

end PugComponents.Template

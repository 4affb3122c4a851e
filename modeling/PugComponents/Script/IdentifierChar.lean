import PugComponents.Text.Alphabetic

/- The characters of script identifiers: the Unicode properties ID_Start and
   ID_Continue, the dollar sign, the underscore and the two joiners. Both
   properties are told by how they differ from the property Alphabetic. -/
namespace PugComponents.Script

open Text (RunLengths alphabeticTable)

/-- The code points that have one of the Unicode properties ID_Start and Alphabetic: most of them are
alphabetic marks. -/
def idStartChanges : RunLengths := ⟨[
  837, 1, 29, 13, 576, 14, 1, 1, 1, 2, 1, 2, 1, 1, 72, 11, 48, 13, 1, 7, 16, 1, 101, 7, 4, 4, 2,
  2, 4, 1, 35, 1, 30, 16, 102, 11, 101, 2, 3, 9, 1, 3, 1, 4, 106, 1, 60, 12, 3, 7, 6, 20, 54, 2,
  2, 15, 1, 2, 5, 3, 10, 2, 29, 3, 58, 7, 2, 2, 2, 2, 10, 1, 10, 2, 29, 3, 58, 5, 4, 2, 2, 2, 4,
  1, 30, 2, 3, 1, 11, 3, 58, 8, 1, 3, 1, 2, 21, 2, 22, 3, 4, 3, 58, 7, 2, 2, 2, 2, 9, 2, 10, 2,
  30, 1, 59, 5, 3, 3, 1, 3, 10, 1, 40, 5, 57, 7, 1, 3, 1, 3, 8, 2, 11, 2, 29, 3, 58, 7, 1, 3, 1,
  3, 8, 2, 11, 2, 15, 1, 12, 4, 58, 7, 1, 3, 1, 3, 10, 1, 10, 2, 29, 3, 75, 6, 1, 1, 1, 8, 18, 2,
  61, 1, 2, 7, 18, 1, 99, 1, 2, 6, 1, 2, 16, 1, 163, 19, 9, 11, 1, 36, 110, 12, 1, 1, 2, 4, 23, 4,
  4, 3, 1, 3, 2, 7, 3, 4, 13, 12, 1, 1, 10, 4, 1652, 2, 30, 2, 30, 2, 30, 2, 66, 19, 224, 1, 118,
  12, 4, 9, 222, 5, 57, 10, 2, 20, 74, 2, 11, 3, 49, 5, 48, 15, 60, 3, 30, 9, 2, 2, 57, 11, 50,
  19, 412, 34, 803, 1, 21, 1, 903, 52, 2294, 32, 47, 1, 619, 2, 30167, 8, 34, 2, 354, 1, 8, 1, 23,
  5, 88, 2, 50, 16, 1, 1, 57, 1, 38, 5, 28, 12, 45, 4, 48, 12, 37, 1, 67, 14, 12, 1, 8, 2, 45, 3,
  50, 1, 1, 3, 2, 2, 5, 1, 44, 5, 5, 1, 237, 8, 20275, 1, 2135, 5, 1670, 3, 1, 2, 5, 4, 788, 4,
  65, 1, 321, 2, 77, 3, 259, 3, 53, 14, 45, 2, 11, 3, 45, 9, 9, 1, 61, 3, 36, 12, 18, 2, 57, 3,
  48, 13, 14, 2, 92, 9, 2, 1, 6, 1, 2, 1, 157, 10, 23, 4, 58, 7, 2, 2, 2, 2, 10, 1, 10, 2, 84, 9,
  1, 1, 2, 1, 1, 4, 1, 2, 103, 13, 1, 3, 106, 18, 237, 7, 2, 7, 29, 2, 82, 15, 1, 1, 106, 11, 103,
  14, 257, 13, 247, 6, 1, 2, 2, 2, 3, 1, 1, 1, 142, 7, 2, 6, 4, 1, 28, 10, 42, 5, 1, 4, 18, 11,
  46, 14, 200, 8, 199, 8, 1, 7, 83, 22, 1, 14, 122, 6, 3, 1, 1, 2, 1, 3, 1, 1, 3, 1, 66, 5, 1, 2,
  1, 4, 348, 4, 9, 2, 1, 1, 48, 7, 3, 3, 16861, 17, 3616, 1, 1, 55, 7, 4, 93, 2, 19628, 1, 9057,
  7, 1, 17, 2, 7, 1, 2, 1, 5, 100, 1, 1619, 1, 2, 1, 7, 2, 5, 1, 593, 1, 2024, 26, 6, 26, 6, 26]⟩

/-- The code points that have one of the Unicode properties ID_Continue and Alphabetic: most of them
are digits and other marks. -/
def idContinueChanges : RunLengths := ⟨[
  48, 10, 37, 1, 87, 1, 584, 69, 1, 29, 36, 1, 251, 5, 265, 31, 168, 1, 7, 10, 117, 2, 9, 3, 3,
  10, 70, 11, 117, 10, 33, 9, 9, 1, 26, 2, 19, 1, 43, 3, 60, 8, 42, 10, 12, 2, 8, 6, 76, 1, 16, 1,
  3, 4, 17, 10, 76, 1, 16, 1, 24, 10, 14, 1, 61, 1, 16, 1, 24, 10, 76, 1, 16, 1, 24, 10, 13, 3,
  60, 1, 16, 1, 7, 1, 16, 10, 93, 1, 24, 10, 76, 1, 16, 1, 24, 10, 76, 1, 16, 1, 24, 10, 75, 2,
  16, 1, 24, 10, 90, 1, 27, 10, 87, 6, 1, 1, 1, 10, 96, 1, 13, 5, 1, 1, 1, 10, 62, 2, 6, 10, 11,
  1, 1, 1, 1, 1, 4, 2, 68, 1, 1, 2, 62, 1, 112, 1, 1, 2, 5, 10, 70, 10, 707, 3, 9, 9, 930, 2, 30,
  1, 127, 2, 19, 11, 9, 1, 2, 10, 33, 3, 1, 11, 287, 3, 10, 10, 128, 11, 133, 1, 20, 8, 2, 11, 6,
  10, 22, 14, 3, 11, 3, 15, 2, 12, 72, 1, 15, 1, 11, 10, 17, 9, 54, 2, 4, 10, 44, 1, 11, 2, 67, 1,
  8, 10, 6, 10, 118, 3, 1, 21, 4, 1, 6, 1, 2, 3, 198, 19, 34, 11, 524, 2, 49, 2, 19, 1, 123, 13,
  4, 1, 3, 12, 39, 1, 21, 1, 903, 52, 2053, 3, 141, 1, 175, 1, 506, 6, 105, 4, 94, 1, 29988, 10,
  69, 1, 12, 2, 114, 2, 276, 1, 37, 1, 151, 1, 11, 10, 6, 18, 14, 10, 33, 3, 37, 1, 95, 1, 12, 1,
  15, 10, 22, 10, 86, 10, 101, 1, 1, 1, 52, 1, 245, 2, 2, 10, 20998, 16, 16, 16, 3, 2, 24, 3, 192,
  10, 37, 1, 37, 1, 663, 1, 226, 1, 447, 10, 1422, 3, 4, 1, 165, 2, 585, 10, 6, 10, 32, 4, 399, 3,
  70, 11, 49, 4, 192, 1, 31, 11, 14, 1, 57, 2, 53, 10, 57, 2, 1, 10, 51, 1, 76, 1, 8, 4, 3, 10,
  91, 2, 178, 2, 5, 10, 65, 2, 16, 1, 24, 7, 3, 5, 89, 3, 1, 1, 14, 2, 95, 1, 3, 1, 9, 10, 4, 1,
  99, 2, 12, 10, 229, 2, 126, 1, 16, 10, 92, 2, 8, 10, 6, 20, 71, 1, 4, 10, 255, 2, 165, 10, 83,
  2, 4, 1, 12, 10, 134, 1, 82, 2, 18, 1, 80, 2, 342, 10, 69, 1, 16, 10, 232, 1, 1, 2, 10, 10, 61,
  1, 8, 10, 54, 10, 343, 2, 13, 11, 5349, 1, 6, 15, 11481, 11, 2342, 10, 86, 10, 38, 5, 59, 7, 25,
  10, 534, 10, 618, 1, 19640, 1, 4178, 10, 518, 46, 2, 23, 542, 5, 3, 6, 8, 8, 2, 7, 30, 4, 148,
  3, 1417, 50, 512, 55, 4, 50, 8, 1, 14, 1, 22, 5, 1, 15, 1664, 7, 9, 10, 356, 1, 61, 14, 498, 14,
  244, 2, 1, 10, 725, 7, 109, 3, 1, 3, 5, 10, 2006, 26, 6, 26, 6, 26, 2662, 10, 787718, 240]⟩

/-- A character that can start an identifier. -/
def isIdentifierStart (c : Char) : Bool :=
  if c.toNat < 128 then c.isAlpha || c == '$' || c == '_'
  else alphabeticTable.containsChar c != idStartChanges.containsChar c

/-- A character that can continue an identifier. -/
def isIdentifierPart (c : Char) : Bool :=
  if c.toNat < 128 then c.isAlphanum || c == '$' || c == '_'
  else (alphabeticTable.containsChar c != idContinueChanges.containsChar c) ||
    c.toNat == 0x200C || c.toNat == 0x200D

end PugComponents.Script

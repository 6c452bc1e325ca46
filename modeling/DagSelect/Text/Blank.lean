/-!
# Blanks, line breaks and pieces

Selection arguments are cut into words at blanks; a word is cut into parts at a separator. The
blanks are the Unicode space separators, the horizontal control characters and the four line
breaks, together with the byte order mark.
-/

namespace DagSelect.Text

/-- The code points that end a line. -/
def lineBreakCodes : List Nat := [0x0A, 0x0D, 0x2028, 0x2029]

/-- A character that ends a line. -/
def isLineBreak (c : Char) : Bool :=
  lineBreakCodes.contains c.toNat

/-- A code unit that ends a line. -/
def isLineBreakUnit (u : UInt16) : Bool :=
  lineBreakCodes.contains u.toNat

/-- The code points at which arguments are cut into words. -/
def blankCodes : List Nat :=
  [0x09, 0x0A, 0x0B, 0x0C, 0x0D, 0x20, 0xA0, 0x1680, 0x2000, 0x2001, 0x2002, 0x2003, 0x2004, 0x2005,
    0x2006, 0x2007, 0x2008, 0x2009, 0x200A, 0x2028, 0x2029, 0x202F, 0x205F, 0x3000, 0xFEFF]

/-- A character at which arguments are cut into words. -/
def isBlank (c : Char) : Bool :=
  blankCodes.contains c.toNat

/-- The pieces of a string between the occurrences of a separator; there is always at least
one. -/
def pieces (sep : Char) (s : String) : List String :=
  (s.toList.splitOn sep).map String.ofList

/-- The maximal runs of characters that are no blanks. -/
def words (s : String) : List String :=
  ((s.toList.splitOnP isBlank).filter (fun run => !run.isEmpty)).map String.ofList

/-- Every line break is a blank. -/
theorem isBlank_of_isLineBreak {c : Char} (h : isLineBreak c = true) : isBlank c = true := by
  simp only [isLineBreak, lineBreakCodes, List.contains_iff_mem, List.mem_cons,
    List.not_mem_nil, or_false] at h
  unfold isBlank
  rcases h with h | h | h | h <;> rw [h] <;> decide

/-- The pieces, joined by the separator, give the string back. -/
theorem intercalate_pieces (sep : Char) (s : String) :
    (String.ofList [sep]).intercalate (pieces sep s) = s := by
  apply String.toList_inj.1
  have h : (String.toList ∘ String.ofList : List Char → List Char) = id := by
    funext l; simp
  simp [pieces, String.toList_intercalate, List.map_map, h, List.intercalate_splitOn]

end DagSelect.Text

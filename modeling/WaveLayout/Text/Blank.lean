import WaveLayout.Text.Basic

/-!
# Blank characters

**Blank** is the Unicode property `White_Space`: twenty-five code points in ten ranges, listed in
`Blank.ranges` by ascending first member. Words of a line are its blank-free runs, and trimming
removes blanks from both ends.
-/

namespace WaveLayout

/-- The code points with the property `White_Space`, as closed ranges in ascending order. -/
def Blank.ranges : List (Nat × Nat) :=
  [(0x0009, 0x000D), (0x0020, 0x0020), (0x0085, 0x0085), (0x00A0, 0x00A0), (0x1680, 0x1680),
   (0x2000, 0x200A), (0x2028, 0x2029), (0x202F, 0x202F), (0x205F, 0x205F), (0x3000, 0x3000)]

/-- The character has the property `White_Space`. -/
def isBlank (c : Char) : Bool :=
  Blank.ranges.any fun range => range.1 ≤ c.toNat && c.toNat ≤ range.2

namespace Text

/-- The maximal runs of characters that are not blank. -/
def words (s : Text) : List Text := s.wordsBy isBlank

/-- The text without the blanks at its two ends. -/
def trim (s : Text) : Text := s.trimBy isBlank

end Text

end WaveLayout

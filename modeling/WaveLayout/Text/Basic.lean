/-!
# Text

**Text** is a list of Unicode scalar values, so that every reader in this library is a function
on lists and every writer a concatenation. String literals stand for text through a coercion.

A text is cut at separators by `List.splitOnP`; **words** are the non-empty pieces, that is the
maximal runs of characters that are no separator.
-/

namespace WaveLayout

/-- A sequence of Unicode scalar values. -/
abbrev Text := List Char

instance : Coe String Text := ⟨String.toList⟩

instance : LawfulBEq Text := inferInstanceAs (LawfulBEq (List Char))

namespace Text

/-- The decimal digits of a natural number, without leading zeros. -/
def ofNat (n : Nat) : Text := Nat.toDigits 10 n

/-- The number of bytes that the text takes in UTF-8. -/
def byteLength (s : Text) : Nat := s.foldr (·.utf8Size + ·) 0

/-- The maximal runs of characters that are no separator, in order. -/
def wordsBy (isSeparator : Char → Bool) (s : Text) : List Text :=
  (s.splitOnP isSeparator).filter (· ≠ [])

/-- The text without the characters of the class at its two ends. -/
def trimBy (isEdge : Char → Bool) (s : Text) : Text :=
  ((s.dropWhile isEdge).reverse.dropWhile isEdge).reverse

/-- The pieces one after the other, with the separator between neighbours. -/
def join (separator : Text) (pieces : List Text) : Text :=
  separator.intercalate pieces

/-- The sign at the front, `true` for minus, and the text after it. -/
def splitSign : Text → Bool × Text
  | '-' :: rest => (true, rest)
  | '+' :: rest => (false, rest)
  | s => (false, s)

end Text

end WaveLayout

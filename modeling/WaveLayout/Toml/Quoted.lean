import WaveLayout.Toml.Reader

/-!
# Quoted text

TOML has four spellings of text. **Basic** text stands between double quotes and has escapes;
**literal** text stands between apostrophes and has none. Both have a form for several lines, with
three quotes on either side: a line end directly after the opening quotes is dropped, line ends
inside are kept as newlines, and one or two quotes may stand alone in the text or directly before
the closing ones. In basic text of several lines a backslash at the end of a line drops the line
end and all blanks and line ends after it.

Control characters other than the tab are refused in every form.
-/

namespace WaveLayout.Toml

/-- The character may stand in quoted text: a tab or any character that is no control character. -/
def isTextChar (c : Char) : Bool := isCommentChar c

/-! ## Escapes -/

/-- The value of a hexadecimal digit. -/
def hexDigit? (c : Char) : Option Nat :=
  if '0' ≤ c ∧ c ≤ '9' then some (c.toNat - '0'.toNat)
  else if 'a' ≤ c ∧ c ≤ 'f' then some (c.toNat - 'a'.toNat + 10)
  else if 'A' ≤ c ∧ c ≤ 'F' then some (c.toNat - 'A'.toNat + 10)
  else none

/-- The number that the digits spell in the base. -/
def ofDigits (base : Nat) (digits : List Nat) : Nat :=
  digits.foldl (fun number digit => number * base + digit) 0

/-- The character with the code point, if it is a Unicode scalar value. -/
def scalarOfNat? (code : Nat) : Option Char :=
  if h : code.isValidChar then some (Char.ofNatAux code h) else none

/-- Finds the given number of hexadecimal digits that spell a Unicode scalar value. -/
def codePoint (digits : Nat) (s : Text) : Option (Found Char s) := do
  if h : 0 < digits ∧ digits ≤ s.length then
    let values ← (s.take digits).mapM hexDigit?
    let c ← scalarOfNat? (ofDigits 16 values)
    some ⟨c, s.drop digits, by rw [List.length_drop]; omega⟩
  else none

/-- The character that a backslash and one letter stand for. -/
def letterEscape? : Char → Option Char
  | 'b' => some '\x08'
  | 't' => some '\t'
  | 'n' => some '\n'
  | 'f' => some '\x0c'
  | 'r' => some '\r'
  | '"' => some '"'
  | '\\' => some '\\'
  | _ => none

/-- Finds what follows the backslash of an escape. -/
def escape : Reader Char
  | [] => none
  | c :: rest =>
    match letterEscape? c with
    | some meant => some ⟨meant, rest, length_lt_cons c rest⟩
    | none =>
      if c = 'u' then (codePoint 4 rest).map (·.within (length_le_cons c rest))
      else if c = 'U' then (codePoint 8 rest).map (·.within (length_le_cons c rest))
      else none

/-! ## Text on one line -/

/-- Finds the rest of basic text, after the opening quote. -/
def basicBody : Reader Text
  | [] => none
  | '"' :: rest => some ⟨[], rest, Nat.lt_succ_self _⟩
  | '\\' :: rest => do
    let c ← escape rest
    let body ← basicBody c.rest
    some ⟨c.value :: body.value, body.rest, by
      have := c.shorter; have := body.shorter; simp only [List.length_cons]; omega⟩
  | c :: rest =>
    if isTextChar c then
      (basicBody rest).map fun body => (body.map (c :: ·)).within (Nat.le_succ _)
    else none
termination_by s => s.length
decreasing_by
  · have := c.shorter; simp only [List.length_cons]; omega
  · exact Nat.lt_succ_self _

/-- Finds the rest of literal text, after the opening apostrophe. -/
def literalBody : Reader Text
  | [] => none
  | '\'' :: rest => some ⟨[], rest, Nat.lt_succ_self _⟩
  | c :: rest =>
    if isTextChar c then
      (literalBody rest).map fun body => (body.map (c :: ·)).within (Nat.le_succ _)
    else none

/-! ## Text on several lines -/

theorem length_drop_lt (a b c : Char) (s : Text) (n : Nat) :
    (s.drop n).length < (a :: b :: c :: s).length := by
  simp only [List.length_drop, List.length_cons]
  omega

/-- Finds the closing quotes of text on several lines: three of them, after up to two quotes that
belong to the text. -/
def closing (quote : Char) : Reader Text
  | a :: b :: c :: rest =>
    if a = quote ∧ b = quote ∧ c = quote then
      let own := (rest.takeWhile (· = quote)).take 2
      some ⟨own, rest.drop own.length, length_drop_lt a b c rest own.length⟩
    else none
  | _ => none

/-- The text after the blanks and line ends at its front. -/
def skipBlankLines (s : Text) : Text :=
  match newline (skipBlanks s) with
  | none => skipBlanks s
  | some found => skipBlankLines found.rest
termination_by s.length
decreasing_by exact Nat.lt_of_lt_of_le found.shorter (length_skipBlanks_le s)

theorem length_skipBlankLines_le (s : Text) : (skipBlankLines s).length ≤ s.length := by
  fun_induction skipBlankLines s with
  | case1 s _ => exact length_skipBlanks_le s
  | case2 s found _ ih =>
    exact Nat.le_trans ih
      (Nat.le_of_lt (Nat.lt_of_lt_of_le found.shorter (length_skipBlanks_le s)))

/-- Finds one item of the text: a line end, an escape if the form has them, or a character. The
item of a dropped line end is empty. -/
def linesItem (escapes : Bool) (s : Text) : Option (Found Text s) :=
  match newline s with
  | some found => some (found.map fun _ => ['\n'])
  | none =>
    match s with
    | [] => none
    | c :: rest =>
      if escapes && c == '\\' then
        match newline (skipBlanks rest) with
        | some found =>
          some ⟨[], skipBlankLines found.rest, by
            have := found.shorter
            have := length_skipBlanks_le rest
            have := length_skipBlankLines_le found.rest
            simp only [List.length_cons]; omega⟩
        | none => (escape rest).map fun found => (found.map fun c => [c]).within (Nat.le_succ _)
      else if isTextChar c then some ⟨[c], rest, Nat.lt_succ_self _⟩
      else none

/-- Finds the rest of text on several lines, after the opening quotes and the line end there. -/
def linesBody (quote : Char) (escapes : Bool) (s : Text) : Option (Found Text s) :=
  match closing quote s with
  | some found => some found
  | none => do
    let item ← linesItem escapes s
    let body ← linesBody quote escapes item.rest
    some ⟨item.value ++ body.value, body.rest, Nat.lt_trans body.shorter item.shorter⟩
termination_by s.length
decreasing_by exact item.shorter

/-- The text after a line end directly at its front. -/
def dropLineEnd (s : Text) : Text :=
  match newline s with
  | some found => found.rest
  | none => s

theorem length_dropLineEnd_le (s : Text) : (dropLineEnd s).length ≤ s.length := by
  unfold dropLineEnd
  split
  · next found _ => exact Nat.le_of_lt found.shorter
  · exact Nat.le_refl _

/-! ## All forms -/

/-- Finds text in one of the two forms on one line, which may also be a key. -/
def quotedLine : Reader Text
  | '"' :: rest => (basicBody rest).map (·.within (Nat.le_succ _))
  | '\'' :: rest => (literalBody rest).map (·.within (Nat.le_succ _))
  | _ => none

/-- Finds text in any of the four forms. -/
def quoted : Reader Text
  | '"' :: '"' :: '"' :: rest =>
    (linesBody '"' true (dropLineEnd rest)).map (·.within (by
      have := length_dropLineEnd_le rest; simp only [List.length_cons]; omega))
  | '\'' :: '\'' :: '\'' :: rest =>
    (linesBody '\'' false (dropLineEnd rest)).map (·.within (by
      have := length_dropLineEnd_le rest; simp only [List.length_cons]; omega))
  | s => quotedLine s

end WaveLayout.Toml

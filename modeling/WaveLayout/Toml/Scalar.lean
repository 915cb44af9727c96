import WaveLayout.Toml.Quoted
import WaveLayout.Toml.Value

/-!
# Numbers, booleans and moments

A **bare scalar** is a run of letters, digits and `+`, `-`, `_`, `.`, `:`. It is a boolean, an
integer, a float or a moment, or it is nothing.

**Integers** fit in 64 bits with a sign. Underscores may stand between digits; a decimal integer
has no leading zero, and a prefix `0x`, `0o` or `0b` admits no sign. **Floats** have a fraction, an
exponent or both. One above the largest finite double is refused, one below the least is not.
**Moments** are a date, a time, or both with an optional offset; a single blank may stand between
date and time, the only one that a bare scalar holds.
-/

namespace WaveLayout.Toml

/-! ## Digits -/

/-- The value of a decimal digit. -/
def decimalDigit? (c : Char) : Option Nat := (hexDigit? c).filter (· < 10)

/-- The digits of the base that the text spells, with underscores between digits only. -/
def groupedDigits? (base : Nat) (s : Text) : Option (List Nat) := do
  let groups ← (s.splitOn '_').mapM (·.mapM fun c => (hexDigit? c).filter (· < base))
  if [] ∈ groups then none else some groups.flatten

/-- The number that the digits of the base spell. -/
def grouped? (base : Nat) (s : Text) : Option Nat := (groupedDigits? base s).map (ofDigits base)

/-- The decimal number that the text spells without leading zeros. -/
def decimal? (s : Text) : Option Nat := do
  let digits ← groupedDigits? 10 s
  if digits.head? = some 0 ∧ digits.length ≠ 1 then none else some (ofDigits 10 digits)

/-! ## Integers -/

/-- The integer that the text spells, of any size. -/
def unboundedInteger? (s : Text) : Option Int :=
  match s with
  | '0' :: 'x' :: digits => (grouped? 16 digits).map Int.ofNat
  | '0' :: 'o' :: digits => (grouped? 8 digits).map Int.ofNat
  | '0' :: 'b' :: digits => (grouped? 2 digits).map Int.ofNat
  | s =>
    let (negative, digits) := Text.splitSign s
    (decimal? digits).map fun number => if negative then -(number : Int) else number

/-- The integer that the text spells, if it fits in 64 bits with a sign. -/
def integer? (s : Text) : Option Int :=
  (unboundedInteger? s).filter fun number =>
    Int64.minValue.toInt ≤ number ∧ number ≤ Int64.maxValue.toInt

/-! ## Floats -/

/-- A decimal fraction: the mantissa times the power of ten with the exponent. -/
structure Decimal where
  mantissa : Nat
  exponent : Int

/-- The least number that rounds to infinity as a double: halfway between the largest finite one
and the next power of two. -/
def firstInfinite : Nat := Nat.pow 2 1024 - Nat.pow 2 970

/-- The number rounds to infinity as a double. The place of the leading digit decides all cases
but one. -/
def Decimal.overflows (number : Decimal) : Bool :=
  let place := (Text.ofNat number.mantissa).length + number.exponent
  if number.mantissa = 0 ∨ place < 309 then false
  else if 309 < place then true
  else firstInfinite * Nat.pow 10 (-number.exponent).toNat ≤
    number.mantissa * Nat.pow 10 number.exponent.toNat

/-- The character may stand in the digits of a number. -/
def isDigitOrUnderscore (c : Char) : Bool := c.isDigit || c == '_'

/-- The exponent that follows a mantissa: zero if the text is empty. -/
def exponent? : Text → Option Int
  | [] => some 0
  | c :: rest =>
    if c = 'e' ∨ c = 'E' then
      let (negative, digits) := Text.splitSign rest
      (grouped? 10 digits).map fun number => if negative then -(number : Int) else number
    else none

/-- The number that a float without sign spells. -/
def unsignedFloat? (s : Text) : Option Decimal := do
  let whole ← decimal? (s.takeWhile isDigitOrUnderscore)
  match s.dropWhile isDigitOrUnderscore with
  | [] => none
  | '.' :: rest =>
    let fraction ← groupedDigits? 10 (rest.takeWhile isDigitOrUnderscore)
    let exponent ← exponent? (rest.dropWhile isDigitOrUnderscore)
    some ⟨whole * Nat.pow 10 fraction.length + ofDigits 10 fraction, exponent - fraction.length⟩
  | rest => (exponent? rest).map fun exponent => ⟨whole, exponent⟩

/-- The text spells a float. -/
def isFloat (s : Text) : Bool :=
  let (negative, number) := Text.splitSign s
  number = "inf" || number = "nan" ||
    (unsignedFloat? number).any fun number => negative || !number.overflows

/-! ## Moments -/

/-- The number that the given count of digits at the front spells, and the text after them. -/
def fixedDigits (count : Nat) (s : Text) : Option (Nat × Text) := do
  let digits ← (s.take count).mapM decimalDigit?
  if digits.length = count then some (ofDigits 10 digits, s.drop count) else none

/-- The text after the character at its front. -/
def after (c : Char) (s : Text) : Option Text := if s.head? = some c then some s.tail else none

/-- The number of days in a month. -/
def daysIn (year month : Nat) : Nat :=
  if month = 2 then
    if year % 4 = 0 ∧ (year % 100 ≠ 0 ∨ year % 400 = 0) then 29 else 28
  else if month = 4 ∨ month = 6 ∨ month = 9 ∨ month = 11 then 30
  else 31

/-- The text after the date at its front. -/
def afterDate (s : Text) : Option Text := do
  let (year, s) ← fixedDigits 4 s
  let (month, s) ← fixedDigits 2 (← after '-' s)
  let (day, s) ← fixedDigits 2 (← after '-' s)
  if 1 ≤ month ∧ month ≤ 12 ∧ 1 ≤ day ∧ day ≤ daysIn year month then some s else none

/-- The text after the hours and minutes at its front. -/
def afterMinutes (s : Text) : Option Text := do
  let (hour, s) ← fixedDigits 2 s
  let (minute, s) ← fixedDigits 2 (← after ':' s)
  if hour ≤ 23 ∧ minute ≤ 59 then some s else none

/-- The text after the time at its front. Sixty seconds are a leap second. -/
def afterTime (s : Text) : Option Text := do
  let s ← afterMinutes s
  let (second, s) ← fixedDigits 2 (← after ':' s)
  if second ≤ 60 then
    match s with
    | '.' :: fraction =>
      if (fraction.takeWhile Char.isDigit) = [] then none
      else some (fraction.dropWhile Char.isDigit)
    | s => some s
  else none

/-- The text is empty or a whole offset from universal time. -/
def isOffset : Text → Bool
  | [] => true
  | ['Z'] => true
  | ['z'] => true
  | c :: rest => (c == '+' || c == '-') && afterMinutes rest = some []

/-- The text spells a moment. -/
def isMoment (s : Text) : Bool :=
  match afterDate s with
  | none => afterTime s = some []
  | some [] => true
  | some (delimiter :: rest) =>
    (delimiter == 'T' || delimiter == 't' || delimiter == ' ') && (afterTime rest).any isOffset

/-! ## Bare scalars -/

/-- The value that a bare scalar spells. -/
def scalar? (s : Text) : Option Value :=
  if s = "true" then some (.boolean true)
  else if s = "false" then some (.boolean false)
  else match integer? s with
    | some number => some (.integer number)
    | none =>
      if isFloat s then some (.float s)
      else if isMoment s then some (.moment s)
      else none

/-- The character may stand in a bare scalar. -/
def isScalarChar (c : Char) : Bool :=
  c.isAlphanum || c == '+' || c == '-' || c == '_' || c == '.' || c == ':'

/-- Finds the run of a bare scalar: two runs with a blank between if the first is a date and the
second starts with a digit. -/
def scalarRun (s : Text) : Option (Found Text s) := do
  let first ← run isScalarChar s
  if afterDate first.value = some [] then
    match h : first.rest with
    | ' ' :: rest =>
      if rest.head?.any Char.isDigit then
        match run isScalarChar rest with
        | some second =>
          some ⟨first.value ++ ' ' :: second.value, second.rest, by
            have := first.shorter
            have := second.shorter
            simp only [h, List.length_cons] at *; omega⟩
        | none => some first
      else some first
    | _ => some first
  else some first

/-- Finds a bare scalar. -/
def bareScalar (s : Text) : Option (Found Value s) := do
  let found ← scalarRun s
  let value ← scalar? found.value
  some (found.map fun _ => value)

end WaveLayout.Toml

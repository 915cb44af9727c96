import WaveLayout.Toml.Node
import WaveLayout.Toml.Scalar

/-!
# TOML documents

A document is a sequence of lines: assignments, headers and comments. It is read into its sections,
the first of which has no header, and the sections are then laid into one table by the rules of
`Toml.Node`.

Values nest: an array may spread over lines and hold comments, an inline table stands on one line
and has no comma before its brace. The readers for values call each other on shorter texts only.

**Nesting is bounded.** At most `maxNesting` arrays and inline tables are open at a time, and a key
has at most `maxNesting` parts; each key counts on its own. A text beyond this is refused.

Main definition: `Toml.parse`, the value tree of a text that is a TOML document.
-/

namespace WaveLayout.Toml

/-- The greatest number of arrays and inline tables that are open at a time, and of parts that a
key has. -/
def maxNesting : Nat := 79

/-! ## Keys -/

/-- The character may stand in a key without quotes. -/
def isBareKeyChar (c : Char) : Bool := c.isAlphanum || c == '_' || c == '-'

/-- Finds one part of a key. -/
def keyPart (s : Text) : Option (Found Text s) :=
  match quotedLine s with
  | some found => some found
  | none => run isBareKeyChar s

/-- Finds parts of a key, any number of them, with dots between and blanks around each. -/
def keyParts (s : Text) : Option (Found (List Text) s) := do
  let part ← keyPart (skipBlanks s)
  have h : (skipBlanks part.rest).length < s.length := by
    have := part.shorter
    have := length_skipBlanks_le s
    have := length_skipBlanks_le part.rest
    omega
  match character '.' (skipBlanks part.rest) with
  | none => some ⟨[part.value], skipBlanks part.rest, h⟩
  | some dot =>
    let parts ← keyParts dot.rest
    some ⟨part.value :: parts.value, parts.rest,
      Nat.lt_trans parts.shorter (Nat.lt_trans dot.shorter h)⟩
termination_by s.length
decreasing_by exact Nat.lt_trans dot.shorter h

/-- Finds the parts of a key. -/
def key (s : Text) : Option (Found (List Text) s) :=
  (keyParts s).filter fun found => found.value.length ≤ maxNesting

/-- The assignment of a node to a key with the given parts. -/
def Assignment.ofParts (parts : List Text) (node : Node) : Assignment :=
  ⟨parts.dropLast, parts.getLastD [], node⟩

/-! ## Values -/

mutual

/-- Finds a value in which at most `room` arrays and inline tables are open at a time. -/
def value (room : Nat) (s : Text) : Option (Found Value s) :=
  match s with
  | '[' :: rest =>
    match room with
    | 0 => none
    | room + 1 => (items room rest).map fun found => (found.map .array).within (Nat.le_succ _)
  | '{' :: rest =>
    match room with
    | 0 => none
    | room + 1 =>
      match character '}' (skipBlanks rest) with
      | some closing => some ⟨.table [], closing.rest, by
          have := closing.shorter
          have := length_skipBlanks_le rest
          simp only [List.length_cons]; omega⟩
      | none => do
        let found ← assignments room rest
        let entries ← Entries.assignAll [] found.value
        some ((found.map fun _ => Value.table (entryValues entries)).within (Nat.le_succ _))
  | c :: rest => if c = '"' ∨ c = '\'' then (quoted (c :: rest)).map (·.map .text)
    else bareScalar (c :: rest)
  | [] => none
termination_by 2 * s.length

/-- Finds the items of an array up to its bracket, with commas between and gaps around each. -/
def items (room : Nat) (s : Text) : Option (Found (List Value) s) :=
  have gap := length_skipGap_le s
  match character ']' (skipGap s) with
  | some closing => some ⟨[], closing.rest, Nat.lt_of_lt_of_le closing.shorter gap⟩
  | none => do
    let item ← value room (skipGap s)
    have gap' := length_skipGap_le item.rest
    have first := item.shorter
    match character ',' (skipGap item.rest) with
    | some comma =>
      have second := comma.shorter
      let more ← items room comma.rest
      some ⟨item.value :: more.value, more.rest, by have := more.shorter; omega⟩
    | none =>
      let closing ← character ']' (skipGap item.rest)
      some ⟨[item.value], closing.rest, by have := closing.shorter; omega⟩
termination_by 2 * s.length + 1

/-- Finds the assignments of an inline table up to its brace, with commas between. -/
def assignments (room : Nat) (s : Text) : Option (Found (List Assignment) s) := do
  let first ← assignment room s
  have shorter := first.shorter
  have gap := length_skipBlanks_le first.rest
  match character ',' (skipBlanks first.rest) with
  | some comma =>
    have second := comma.shorter
    let more ← assignments room comma.rest
    some ⟨first.value :: more.value, more.rest, by have := more.shorter; omega⟩
  | none =>
    let closing ← character '}' (skipBlanks first.rest)
    some ⟨[first.value], closing.rest, by have := closing.shorter; omega⟩
termination_by 2 * s.length + 1

/-- Finds a key, an equals sign and a value. -/
def assignment (room : Nat) (s : Text) : Option (Found Assignment s) := do
  let name ← key s
  let equals ← character '=' name.rest
  have shorter := Nat.lt_trans equals.shorter name.shorter
  have gap := length_skipBlanks_le equals.rest
  let found ← value room (skipBlanks equals.rest)
  some ⟨.ofParts name.value (.leaf found.value), found.rest, by have := found.shorter; omega⟩
termination_by 2 * s.length

end

/-! ## Lines and sections -/

/-- A line that says something. -/
inductive Statement where
  | assignment (assignment : Assignment)
  | header (parts : List Text) (isRow : Bool)

/-- Finds a header. -/
def header (s : Text) : Option (Found Statement s) :=
  match s with
  | '[' :: '[' :: rest => do
    let name ← key rest
    let inner ← character ']' name.rest
    let outer ← character ']' inner.rest
    some ⟨.header name.value true, outer.rest, by
      have := name.shorter
      have := inner.shorter
      have := outer.shorter
      simp only [List.length_cons]; omega⟩
  | '[' :: rest => do
    let name ← key rest
    let closing ← character ']' name.rest
    some ⟨.header name.value false, closing.rest, by
      have := name.shorter
      have := closing.shorter
      simp only [List.length_cons]; omega⟩
  | _ => none

/-- Finds a statement. -/
def statement (s : Text) : Option (Found Statement s) :=
  if s.head? = some '[' then header s
  else (assignment maxNesting s).map (·.map .assignment)

/-- The statements of the text, one on a line at most. -/
def statements (s : Text) : Option (List Statement) :=
  if skipTrailer (skipGap s) = [] then some []
  else do
    let found ← statement (skipGap s)
    if skipTrailer found.rest = [] then some [found.value]
    else
      let lineEnd ← newline (skipTrailer found.rest)
      let more ← statements lineEnd.rest
      some (found.value :: more)
termination_by s.length
decreasing_by
  have := length_skipGap_le s
  have := found.shorter
  have := length_skipTrailer_le found.rest
  have := lineEnd.shorter
  omega

/-- The assignments before the first header, and the sections. -/
def sections : List Statement → List Assignment × List Section
  | [] => ([], [])
  | .assignment a :: rest =>
    let (top, parts) := sections rest
    (a :: top, parts)
  | .header parts isRow :: rest =>
    let (below, more) := sections rest
    ([], ⟨parts.dropLast, parts.getLastD [], isRow, below⟩ :: more)

/-! ## Documents -/

/-- The text after a byte order mark at its front. -/
def dropByteOrderMark : Text → Text
  | '\uFEFF' :: rest => rest
  | s => s

/-- The table that the text spells, if it is a TOML document. -/
def parse (s : Text) : Option Table := do
  let (top, parts) := sections (← statements (dropByteOrderMark s))
  let entries ← Entries.assignAll [] top
  let entries ← parts.foldlM Entries.addSection entries
  some (entryValues entries)

end WaveLayout.Toml

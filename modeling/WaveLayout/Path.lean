import WaveLayout.Text.Basic

/-!
# Paths as text

A **path** is kept as it was written and shown as it was written. It is read as **pieces** between
slashes. A piece that is empty or a single dot is **filler**: it leads nowhere. The first piece is
never filler, since it says where the path starts: it is empty for an absolute path and may be a
dot for a relative one.

The file name is the last piece after the filler at the end, the parent is what stands before it,
and joining is concatenation with a slash between, unless the right side is absolute.
-/

namespace WaveLayout

/-- A path as it was written. -/
structure Path where
  text : Text
  deriving DecidableEq, Repr

namespace Path

/-- The path starts at the root. -/
def isAbsolute (path : Path) : Bool := path.text.head? == some '/'

/-- The pieces between the slashes. -/
def pieces (path : Path) : List Text := path.text.splitOn '/'

/-- The piece leads nowhere. -/
def isFiller (piece : Text) : Bool := piece == [] || piece == ['.']

/-- The pieces, given from the last to the first, without the filler that ends the path. -/
def dropFiller : List Text → List Text
  | [] => []
  | [first] => [first]
  | piece :: before :: rest =>
    if isFiller piece then dropFiller (before :: rest) else piece :: before :: rest

/-- The path with the given pieces. A lone empty piece is the root. -/
def ofPieces : List Text → Path
  | [[]] => ⟨['/']⟩
  | pieces => ⟨Text.join ['/'] pieces⟩

/-- The last piece that names something below a directory. -/
def fileName? (path : Path) : Option Text :=
  match dropFiller path.pieces.reverse with
  | [] => none
  | last :: _ => if isFiller last || last == ['.', '.'] then none else some last

/-- The path without its last piece and the filler around it; none for the root and the empty
path. -/
def parent? (path : Path) : Option Path :=
  match dropFiller path.pieces.reverse with
  | [] => none
  | [first] => if first = [] then none else some ⟨[]⟩
  | _ :: before => some (ofPieces (dropFiller before).reverse)

/-- The right path seen from the left one. -/
def join (left right : Path) : Path :=
  if right.isAbsolute then right
  else if left.text = [] ∨ left.text.getLast? = some '/' then ⟨left.text ++ right.text⟩
  else ⟨left.text ++ '/' :: right.text⟩

/-- What the reference in the file at `referrer` stands for: an absolute one for itself, a
relative one for a path seen from the directory of that file. -/
def resolve (referrer reference : Path) : Path :=
  if reference.isAbsolute then reference
  else match referrer.parent? with
    | none => reference
    | some directory => directory.join reference

end Path

end WaveLayout

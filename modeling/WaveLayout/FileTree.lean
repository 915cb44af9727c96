import WaveLayout.Path

/-!
# File trees

A **file tree** holds directories and files by **location**, the list of names from the innermost
one up to the root. One location is the working directory. A file holds text, or bytes that are not
the UTF-8 form of any text.

**Looking up** a path walks its pieces from the root or from the working directory. Each step must
start in a directory, so `a/..` leads somewhere only if `a` is a directory, and a slash or a dot
after a file is refused. A piece of more than 255 bytes is refused where it is looked up, a path of
more than 4095 bytes before anything is looked up.

Reading and writing fail for the causes in `FileError`; a failed operation leaves the tree as it
was. Permissions and links are not part of the model.
-/

namespace WaveLayout

/-! ## Errors -/

/-- Why the system refuses an operation on a path. -/
inductive FileError where
  | notFound
  | notADirectory
  | isADirectory
  | nameTooLong
  /-- The file does not hold UTF-8. -/
  | notText
  /-- The path holds a character that the system takes for its end. -/
  | nulInPath
  /-- Any other cause, as the system words and numbers it. -/
  | other (description : Text) (code : Nat)
  deriving DecidableEq, Repr

/-- The wording of the error. -/
def FileError.message : FileError → Text
  | .notFound => "No such file or directory (os error 2)"
  | .notADirectory => "Not a directory (os error 20)"
  | .isADirectory => "Is a directory (os error 21)"
  | .nameTooLong => "File name too long (os error 36)"
  | .notText => "stream did not contain valid UTF-8"
  | .nulInPath => "file name contained an unexpected NUL byte"
  | .other description code =>
    description ++ " (os error " ++ Text.ofNat code ++ ")"

/-! ## Trees -/

/-- The names from the innermost one up to the root, which is the empty list. -/
abbrev Location := List Text

/-- What a file holds. -/
inductive Content where
  | text (text : Text)
  /-- Bytes that are not the UTF-8 form of a text. -/
  | bytes (bytes : List UInt8)
  deriving DecidableEq, Repr

/-- What a file with the given bytes holds. -/
def Content.ofBytes (bytes : List UInt8) : Content :=
  match String.fromUTF8? ⟨bytes.toArray⟩ with
  | some decoded => .text decoded.toList
  | none => .bytes bytes

/-- What stands at a location. -/
inductive Entry where
  | directory
  | file (content : Content)
  deriving DecidableEq, Repr

/-- Directories and files by location, and the location that relative paths start from. -/
structure FileTree where
  entries : List (Location × Entry)
  workingDirectory : Location
  deriving DecidableEq, Repr

namespace FileTree

/-- What stands at the location. The root is a directory. -/
def entry? (tree : FileTree) : Location → Option Entry
  | [] => some .directory
  | name :: above => tree.entries.lookup (name :: above)

/-- The tree with the entry at the location, in place of what stood there. -/
def put (tree : FileTree) (location : Location) (entry : Entry) : FileTree :=
  { tree with entries := (location, entry) :: tree.entries.filter (·.1 ≠ location) }

/-- The tree without an entry at the location. -/
def erase (tree : FileTree) (location : Location) : FileTree :=
  { tree with entries := tree.entries.filter (·.1 ≠ location) }

/-! ## Looking up -/

/-- The greatest number of bytes in a name. -/
def maxNameLength : Nat := 255

/-- One step from a location along a piece of a path. -/
def step (tree : FileTree) (location : Location) (piece : Text) : Except FileError Location :=
  match tree.entry? location with
  | none => .error .notFound
  | some (.file _) => .error .notADirectory
  | some .directory =>
    if Path.isFiller piece then .ok location
    else if piece = ['.', '.'] then .ok location.tail
    else if maxNameLength < Text.byteLength piece then .error .nameTooLong
    else if (tree.entry? (piece :: location)).isSome then .ok (piece :: location)
    else .error .notFound

/-- The steps along the pieces, one after the other. -/
def walk (tree : FileTree) (location : Location) (pieces : List Text) :
    Except FileError Location :=
  pieces.foldlM tree.step location

/-- The location where a path starts, seen from a directory. -/
def origin (directory : Location) (path : Path) : Location :=
  if path.isAbsolute then [] else directory

/-- The greatest number of bytes in a path. -/
def maxPathLength : Nat := 4095

/-- The path has a form that can be looked up. -/
def check (path : Path) : Except FileError Unit :=
  if '\x00' ∈ path.text then .error .nulInPath
  else if path.text = [] then .error .notFound
  else if maxPathLength < Text.byteLength path.text then .error .nameTooLong
  else .ok ()

/-- Where a path leads, seen from a directory. -/
def locateFrom (tree : FileTree) (directory : Location) (path : Path) :
    Except FileError Location := do
  check path
  tree.walk (origin directory path) path.pieces

/-- The location that a path names in an existing directory, whether or not something stands
there. -/
def target (tree : FileTree) (path : Path) : Except FileError Location := do
  check path
  let directory ← tree.walk (origin tree.workingDirectory path) path.pieces.dropLast
  let name := path.pieces.getLastD []
  match tree.entry? directory with
  | none => .error .notFound
  | some (.file _) => .error .notADirectory
  | some .directory =>
    if Path.isFiller name ∨ name = ['.', '.'] then .error .isADirectory
    else if maxNameLength < Text.byteLength name then .error .nameTooLong
    else .ok (name :: directory)

/-! ## Operations -/

/-- The text of the file that a path leads to, seen from a directory. -/
def readFrom (tree : FileTree) (directory : Location) (path : Path) : Except FileError Text := do
  match tree.entry? (← tree.locateFrom directory path) with
  | none => .error .notFound
  | some .directory => .error .isADirectory
  | some (.file (.bytes _)) => .error .notText
  | some (.file (.text text)) => .ok text

/-- The text of the file that a path leads to. -/
def read (tree : FileTree) (path : Path) : Except FileError Text :=
  tree.readFrom tree.workingDirectory path

/-- The tree after the text is written to a path, over an older file if there is one. -/
def write (tree : FileTree) (path : Path) (text : Text) : Except FileError FileTree := do
  let location ← tree.target path
  match tree.entry? location with
  | some .directory => .error .isADirectory
  | _ => .ok (tree.put location (.file (.text text)))

/-- The tree after the file at a path is removed. -/
def remove (tree : FileTree) (path : Path) : Except FileError FileTree := do
  let location ← tree.target path
  match tree.entry? location with
  | none => .error .notFound
  | some .directory => .error .isADirectory
  | some (.file _) => .ok (tree.erase location)

/-! ## Building and comparing trees -/

/-- The location that a piece leads to from a location, whatever stands there. -/
def advance (location : Location) (piece : Text) : Location :=
  if Path.isFiller piece then location
  else if piece = ['.', '.'] then location.tail
  else piece :: location

/-- The location that a path spells from the working directory, whatever stands on the way. -/
def spell (tree : FileTree) (path : Path) : Location :=
  path.pieces.foldl advance (origin tree.workingDirectory path)

/-- The tree with a directory at the location, unless something stands there. -/
def makeDirectory (tree : FileTree) (location : Location) : FileTree :=
  if (tree.entry? location).isSome then tree else tree.put location .directory

/-- The tree with a directory wherever the pieces lead from the location, one after the other. -/
def makeAlong (tree : FileTree) (location : Location) : List Text → FileTree
  | [] => tree
  | piece :: pieces =>
    let next := advance location piece
    (tree.makeDirectory next).makeAlong next pieces

/-- The tree with the directories that the path passes through and the one that it names. -/
def makeDirectories (tree : FileTree) (path : Path) : FileTree :=
  tree.makeAlong (origin tree.workingDirectory path) path.pieces

/-- The tree that holds a working directory and the directories above it only. -/
def ofWorkingDirectory (location : Location) : FileTree :=
  makeAlong ⟨[], location⟩ [] location.reverse

/-- The tree with a file at a path, and with the directories that the path passes through. -/
def plant (tree : FileTree) (path : Path) (content : Content) : FileTree :=
  (tree.makeAlong (origin tree.workingDirectory path) path.pieces.dropLast).put (tree.spell path)
    (.file content)

/-- The tree without what stands at the path and below it. -/
def prune (tree : FileTree) (path : Path) : FileTree :=
  let location := tree.spell path
  { tree with entries := tree.entries.filter fun (place, _) => !location.isSuffixOf place }

/-- The files below the working directory, by their paths from there. -/
def files (tree : FileTree) : List (Path × Content) :=
  tree.entries.filterMap fun (place, entry) =>
    match entry with
    | .directory => none
    | .file content =>
      if tree.workingDirectory.isSuffixOf place then
        let names := place.take (place.length - tree.workingDirectory.length)
        some (⟨Text.join ['/'] names.reverse⟩, content)
      else none

/-- The files below the working directory that the second tree has new or with another content,
and those that it lacks. -/
def changes (before after : FileTree) : List (Path × Option Content) :=
  let old := before.files
  let new := after.files
  (new.filter fun (path, content) => old.lookup path ≠ some content).map
      (fun (path, content) => (path, some content)) ++
    (old.filter fun (path, _) => (new.lookup path).isNone).map fun (path, _) => (path, none)

end FileTree

end WaveLayout

import WaveLayout.Toml.Value

/-!
# Tables under construction

While a document is read, each table remembers how it came about, because that settles who may
still add to it:

* a table that a **header** names is closed to other headers of the same name and to dotted keys,
* a table **implied** by a longer header may be named once by a header of its own,
* a table made by **dotted** keys takes more dotted keys, but no header,
* a value, which includes inline tables and arrays, takes nothing.

An array of tables takes one more table from each of its headers, and a header that passes through
it goes on in its last table. `Node.value` forgets all this.
-/

namespace WaveLayout.Toml

/-- How a table came about. -/
inductive Origin where
  | header
  | implied
  | dotted
  deriving DecidableEq

/-- A value or table of a document under construction. -/
inductive Node where
  | leaf (value : Value)
  | table (origin : Origin) (entries : List (Text × Node))
  /-- An array of tables. -/
  | rows (tables : List (List (Text × Node)))

/-- The entries of a table under construction. -/
abbrev Entries := List (Text × Node)

/-! ## Adding -/

/-- The entries with another node at the key, or with a new last entry. -/
def Entries.set (entries : Entries) (key : Text) (node : Node) : Entries :=
  if (entries.lookup key).isSome then
    entries.map fun (name, old) => if name = key then (name, node) else (name, old)
  else entries ++ [(key, node)]

/-- The entries after a dotted key, given as its leading parts and the last one, gets a node. -/
def Entries.assign (key : Text) (node : Node) : List Text → Entries → Option Entries
  | [], entries =>
    if (entries.lookup key).isSome then none else some (entries ++ [(key, node)])
  | first :: path, entries =>
    match entries.lookup first with
    | none => (assign key node path []).map fun inner => entries.set first (.table .dotted inner)
    | some (.table .dotted inner) =>
      (assign key node path inner).map fun inner => entries.set first (.table .dotted inner)
    | some _ => none

/-- A dotted key with the node that it gets. -/
structure Assignment where
  path : List Text
  key : Text
  node : Node

/-- The entries after all assignments, in order. -/
def Entries.assignAll (entries : Entries) (assignments : List Assignment) : Option Entries :=
  assignments.foldlM (fun entries a => Entries.assign a.key a.node a.path entries) entries

/-- The entries after a header changes what stands at its name. The header is given as the leading
parts of its name, which are implied where they are new, and the last part. -/
def Entries.modify (key : Text) (change : Option Node → Option Node) :
    List Text → Entries → Option Entries
  | [], entries => (change (entries.lookup key)).map (entries.set key)
  | first :: path, entries =>
    match entries.lookup first with
    | none => (modify key change path []).map fun inner => entries.set first (.table .implied inner)
    | some (.table origin inner) =>
      (modify key change path inner).map fun inner => entries.set first (.table origin inner)
    | some (.rows tables) =>
      match tables.getLast? with
      | none => none
      | some last =>
        (modify key change path last).map fun inner =>
          entries.set first (.rows (tables.dropLast ++ [inner]))
    | some (.leaf _) => none

/-- A header with the assignments below it. -/
structure Section where
  path : List Text
  key : Text
  /-- The header adds a table to an array of tables. -/
  isRow : Bool
  assignments : List Assignment

/-- The entries of the document after a section. -/
def Entries.addSection (entries : Entries) (part : Section) : Option Entries :=
  let change : Option Node → Option Node
    | none =>
      (Entries.assignAll [] part.assignments).map fun inner =>
        if part.isRow then .rows [inner] else .table .header inner
    | some (.table .implied inner) =>
      if part.isRow then none
      else (Entries.assignAll inner part.assignments).map (.table .header)
    | some (.rows tables) =>
      if part.isRow then
        (Entries.assignAll [] part.assignments).map fun inner => .rows (tables ++ [inner])
      else none
    | some _ => none
  Entries.modify part.key change part.path entries

/-! ## Forgetting -/

mutual

/-- The value of a node. -/
def Node.value : Node → Value
  | .leaf value => value
  | .table _ entries => .table (entryValues entries)
  | .rows tables => .array (rowValues tables)

/-- The entries with the values of their nodes. -/
def entryValues : List (Text × Node) → Table
  | [] => []
  | (key, node) :: entries => (key, node.value) :: entryValues entries

/-- The tables of an array as values. -/
def rowValues : List (List (Text × Node)) → List Value
  | [] => []
  | entries :: tables => .table (entryValues entries) :: rowValues tables

end

end WaveLayout.Toml

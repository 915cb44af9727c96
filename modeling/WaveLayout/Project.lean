import WaveLayout.Job

/-!
# Simulation projects

The source of the top module is found by following references. A simulation **script** elaborates
the design in a line such as

```text
xelab  comp_foo glbl -prj top.prj
```

which names the top module and a **project file**. The project file lists sources, one library
entry a line:

```text
verilog work "../comp_foo.v"
```

Of several lines that would do, the last one counts, both in the script and in the project file;
within an entry the first matching file counts. Relative references are seen from the directory of
the file that holds them. The first missing link is the failure, and it names the file that lacks
it.
-/

namespace WaveLayout

/-- What following the references finds. -/
structure Sources where
  moduleName : Text
  script : Path
  projectFile : Path
  sourceFile : Path
  deriving DecidableEq, Repr

namespace Project

/-! ## The script -/

/-- The word is the command or a path to it. -/
def runs (command word : Text) : Bool :=
  word == command || (Path.mk word).fileName? == some command

/-- The words of the last line that runs the command. -/
def invocation? (command : Text) (script : List Text) : Option (List Text) :=
  ((script.map Text.words).filter fun words => words.head?.any (runs command)).getLast?

/-- The module that an invocation elaborates: its second word, unless that is an option. -/
def moduleWord? (invocation : List Text) : Option Text :=
  invocation[1]?.filter fun word => word.head? ≠ some '-'

/-- The word after the last occurrence of a flag. -/
def wordAfterLast? (flag : Text) (words : List Text) : Option Text :=
  if flag ∈ words then (words.reverse.takeWhile (· ≠ flag)).getLast? else none

/-! ## The project file -/

/-- The kinds of entries that can hold the source of a module. -/
def sourceKinds : List Text := ["verilog", "sv"]

/-- The file names that the source of a module may have. -/
def sourceNames (moduleName : Text) : List Text := [moduleName ++ ".v", moduleName ++ ".sv"]

/-- The path names a source of the module. -/
def isSourceOf (moduleName path : Text) : Bool :=
  (Path.mk path).fileName?.any (· ∈ sourceNames moduleName)

/-- The first source of the module in an entry: a kind, a library, and then files, which may be
quoted. -/
def entrySource? (moduleName entry : Text) : Option Text :=
  match Text.words entry with
  | kind :: _ :: files =>
    if kind ∈ sourceKinds then
      (files.map (Text.trimBy (· == '"'))).find? (isSourceOf moduleName)
    else none
  | _ => none

/-- The source of the module in the last entry that has one. -/
def source? (moduleName : Text) (project : List Text) : Option Text :=
  (project.filterMap (entrySource? moduleName)).getLast?

/-! ## Discovery -/

/-- Follows the references from the script to the source of the module that it elaborates. -/
def discover (command : Text) (script : Path) : Attempt Sources := do
  let scriptLines ← Attempt.readLines script
  let invocation ← Attempt.require (invocation? command scriptLines)
    (.missing script (.invocation command))
  Job.tell (.elaboration invocation)
  let moduleName ← Attempt.require (moduleWord? invocation)
    (.missing script (.moduleWord command))
  let projectReference ← Attempt.require (wordAfterLast? projectFlag invocation)
    (.missing script .projectFlag)
  let projectFile := script.resolve ⟨projectReference⟩
  Job.tell (.projectFile moduleName projectFile)
  let projectLines ← Attempt.readLines projectFile
  let sourceReference ← Attempt.require (source? moduleName projectLines)
    (.missing projectFile (.source moduleName))
  let sourceFile := projectFile.resolve ⟨sourceReference⟩
  Job.tell (.sourceFile moduleName sourceFile)
  pure ⟨moduleName, script, projectFile, sourceFile⟩

end Project

end WaveLayout

import WaveLayout.Generation
import WaveLayout.Proofs.Jobs
import WaveLayout.Proofs.Words

/-!
# What discovery and building find

Discovery and building only read, so they leave the tree as it was (`tree_discover`, `tree_build`),
and their success is a chain of facts about that tree: which files are read, and what is found in
their lines (`value_discover_eq_ok_iff`, `value_build_eq_ok_iff`).

A module name that discovery finds is a word of the script: it is not empty, holds no blank and
does not start with a dash (`isModuleWord_of_discover`).
-/

namespace WaveLayout

variable {tree : FileTree}

/-! ## Reading lines -/

namespace Attempt

theorem value_check_eq_ok_iff {α ε : Type} {result : Except ε α} {failure : ε → Failure}
    {value : α} : ((check result failure).outcome tree).value = .ok value ↔ result = .ok value := by
  rw [outcome_check]
  cases result <;> simp [Except.mapError]

theorem tree_check {α ε : Type} (result : Except ε α) (failure : ε → Failure) (tree : FileTree) :
    ((check result failure).outcome tree).tree = tree := by
  rw [outcome_check]

theorem value_require_eq_ok_iff {α : Type} {value? : Option α} {failure : Failure} {value : α} :
    ((require value? failure).outcome tree).value = .ok value ↔ value? = some value := by
  rw [outcome_require]
  cases value? <;> simp

theorem tree_require {α : Type} (value? : Option α) (failure : Failure) (tree : FileTree) :
    ((require value? failure).outcome tree).tree = tree := by
  rw [outcome_require]

theorem value_readLines_eq_ok_iff {path : Path} {lines : List Text} :
    ((readLines path).outcome tree).value = .ok lines ↔
      ∃ text, tree.read path = .ok text ∧ Text.lines text = lines := by
  simp only [readLines, value_bind_eq_ok_iff, value_check_eq_ok_iff, outcome_lift, outcome_pure,
    Job.readText, Job.run, Except.ok.injEq, exists_eq_left']

theorem Confined.readLines {allowed : Path → Prop} (path : Path) :
    Confined allowed (Attempt.readLines path) :=
  .bind (.lift fun _ => trivial) fun _ => .bind (.check _ _) fun _ => .pure _

theorem tree_readLines (path : Path) (tree : FileTree) :
    ((readLines path).outcome tree).tree = tree :=
  (Confined.readLines path).tree_eq tree

/-! ### Values of steps -/

section Bind

variable {α β : Type}

theorem value_readLines_bind (path : Path) (next : List Text → Attempt β) (tree : FileTree) :
    (outcome (readLines path >>= next) tree).value =
      match tree.read path with
      | .error cause => .error (.unreadable path cause)
      | .ok text => ((next (Text.lines text)).outcome tree).value := by
  cases hread : tree.read path with
  | error cause =>
    simp [readLines, outcome_bind, Job.readText, Job.run, hread, Except.mapError]
  | ok text =>
    simp [readLines, outcome_bind, Job.readText, Job.run, hread, Except.mapError]

theorem value_require_bind (value? : Option α) (failure : Failure) (next : α → Attempt β)
    (tree : FileTree) :
    (outcome (require value? failure >>= next) tree).value =
      match value? with
      | none => .error failure
      | some value => ((next value).outcome tree).value := by
  cases value? with
  | none => simp [outcome_bind]
  | some value => simp [outcome_bind]

theorem value_tell_bind (event : Event) (next : Unit → Attempt β) (tree : FileTree) :
    (outcome (liftM (Job.tell event) >>= next) tree).value = ((next ()).outcome tree).value := by
  simp [outcome_bind, Job.tell, Job.run]

/-! ### Reads of steps -/

theorem reads_readLines_bind (path : Path) (next : List Text → Attempt β) (tree : FileTree) :
    reads (readLines path >>= next) tree =
      path :: match tree.read path with
        | .error _ => []
        | .ok text => (next (Text.lines text)).reads tree := by
  cases hread : tree.read path with
  | error cause =>
    simp [readLines, reads_bind, outcome_bind, Job.readText, Job.reads, Job.run, hread,
      Except.mapError]
  | ok text =>
    simp [readLines, reads_bind, outcome_bind, Job.readText, Job.reads, Job.run, hread,
      Except.mapError]

theorem reads_require_bind (value? : Option α) (failure : Failure) (next : α → Attempt β)
    (tree : FileTree) :
    reads (require value? failure >>= next) tree =
      match value? with
      | none => []
      | some value => (next value).reads tree := by
  cases value? with
  | none => simp [reads_bind]
  | some value => simp [reads_bind]

theorem reads_check_bind {ε : Type} (result : Except ε α) (failure : ε → Failure)
    (next : α → Attempt β) (tree : FileTree) :
    reads (check result failure >>= next) tree =
      match result with
      | .error _ => []
      | .ok value => (next value).reads tree := by
  cases result with
  | error cause => simp [reads_bind, Except.mapError]
  | ok value => simp [reads_bind, Except.mapError]

theorem reads_tell_bind (event : Event) (next : Unit → Attempt β) (tree : FileTree) :
    reads (liftM (Job.tell event) >>= next) tree = (next ()).reads tree := by
  simp [reads_bind, Job.tell, Job.reads, Job.run]

end Bind

end Attempt

/-! ## Discovery -/

namespace Project

open Attempt

theorem confined_discover {allowed : Path → Prop} (command : Text) (script : Path) :
    (discover command script).Confined allowed :=
  .bind (.readLines _) fun _ => .bind (.require _ _) fun _ => .bind (.tell _) fun _ =>
    .bind (.require _ _) fun _ => .bind (.require _ _) fun _ => .bind (.tell _) fun _ =>
      .bind (.readLines _) fun _ => .bind (.require _ _) fun _ => .bind (.tell _) fun _ => .pure _

theorem tree_discover (command : Text) (script : Path) (tree : FileTree) :
    ((discover command script).outcome tree).tree = tree :=
  (confined_discover command script).tree_eq tree

/-- **The chain of references.** Discovery succeeds exactly if the script and the project file can
be read and each holds the reference that is looked for. -/
theorem value_discover_eq_ok_iff {command : Text} {script : Path} {sources : Sources} :
    ((discover command script).outcome tree).value = .ok sources ↔
      ∃ scriptText invocation projectReference projectText sourceReference,
        tree.read script = .ok scriptText ∧
        invocation? command (Text.lines scriptText) = some invocation ∧
        moduleWord? invocation = some sources.moduleName ∧
        wordAfterLast? projectFlag invocation = some projectReference ∧
        tree.read (script.resolve ⟨projectReference⟩) = .ok projectText ∧
        source? sources.moduleName (Text.lines projectText) = some sourceReference ∧
        sources.script = script ∧ sources.projectFile = script.resolve ⟨projectReference⟩ ∧
        sources.sourceFile = sources.projectFile.resolve ⟨sourceReference⟩ := by
  unfold discover
  simp only [value_bind_eq_ok_iff, value_readLines_eq_ok_iff, value_require_eq_ok_iff,
    tree_readLines, tree_require, outcome_lift, outcome_pure, Job.tell, Job.run, Except.ok.injEq]
  constructor
  · rintro ⟨_, ⟨scriptText, hs, rfl⟩, invocation, hi, _, -, moduleName, hm, reference, hr, _, -, _,
      ⟨projectText, hp, rfl⟩, sourceReference, hsrc, _, -, rfl⟩
    exact ⟨scriptText, invocation, reference, projectText, sourceReference, hs, hi, hm, hr, hp,
      hsrc, rfl, rfl, rfl⟩
  · obtain ⟨moduleName, place, projectFile, sourceFile⟩ := sources
    rintro ⟨scriptText, invocation, reference, projectText, sourceReference, hs, hi, hm, hr, hp,
      hsrc, hscript, hproject, hsource⟩
    dsimp only at hm hsrc hscript hproject hsource
    subst hscript hproject hsource
    exact ⟨_, ⟨scriptText, hs, rfl⟩, invocation, hi, (), trivial, moduleName, hm, reference, hr, (),
      trivial, _, ⟨projectText, hp, rfl⟩, sourceReference, hsrc, (), trivial, rfl⟩

/-! ## Module names -/

/-- The text can be the word for a module in a script. -/
structure IsModuleWord (word : Text) : Prop where
  ne_nil : word ≠ []
  not_isBlank : ∀ c ∈ word, isBlank c = false
  head?_ne : word.head? ≠ some '-'

theorem mem_words_of_invocation? {command : Text} {script : List Text} {invocation : List Text}
    (h : invocation? command script = some invocation) :
    ∃ line ∈ script, invocation = Text.words line := by
  have hmem := List.mem_of_getLast? h
  rw [List.mem_filter, List.mem_map] at hmem
  obtain ⟨⟨line, hl, rfl⟩, -⟩ := hmem
  exact ⟨line, hl, rfl⟩

theorem isModuleWord_of_discover {command : Text} {script : Path} {sources : Sources}
    (h : ((discover command script).outcome tree).value = .ok sources) :
    IsModuleWord sources.moduleName := by
  obtain ⟨scriptText, invocation, _, _, _, -, hi, hm, -⟩ := value_discover_eq_ok_iff.1 h
  obtain ⟨line, -, rfl⟩ := mem_words_of_invocation? hi
  obtain ⟨hget, hdash⟩ := Option.filter_eq_some_iff.1 hm
  obtain ⟨hne, hblank⟩ := Text.mem_words (List.mem_of_getElem? hget)
  exact ⟨hne, hblank, by simpa using hdash⟩

end Project

/-! ## Building -/

namespace Generation

open Attempt

theorem confined_tellAll {allowed : Path → Prop} (events : List Event) :
    Confined allowed (liftM (Job.tellAll events) : Attempt Unit) := .lift (.tellAll events)

theorem confined_build {allowed : Path → Prop} (script : Path) (settings : Settings) :
    (build script settings).Confined allowed :=
  .bind (Project.confined_discover _ _) fun _ => .bind (.readLines _) fun _ =>
    .bind (.check _ _) fun _ => .bind (confined_tellAll _) fun _ => .bind (.tell _) fun _ => .pure _

theorem tree_build (script : Path) (settings : Settings) (tree : FileTree) :
    ((build script settings).outcome tree).tree = tree :=
  (confined_build script settings).tree_eq tree

/-- **What is built.** Building succeeds exactly if discovery does, the source can be read, and it
has a declaration block. The layout shows the signals of that block. -/
theorem value_build_eq_ok_iff {script : Path} {settings : Settings} {generated : Generated} :
    ((build script settings).outcome tree).value = .ok generated ↔
      ∃ source block,
        ((Project.discover settings.elaborateCommand script).outcome tree).value =
          .ok generated.sources ∧
        tree.read generated.sources.sourceFile = .ok source ∧
        Verilog.Block.locate (Text.lines source) = .ok block ∧
        generated.signals = block.signals ∧
        generated.layout =
          .ofSignals generated.sources.moduleName generated.signals settings.window := by
  unfold build
  simp only [value_bind_eq_ok_iff, value_readLines_eq_ok_iff, value_check_eq_ok_iff,
    Project.tree_discover, tree_readLines, tree_check, outcome_lift, outcome_pure,
    Except.ok.injEq]
  constructor
  · rintro ⟨sources, hs, _, ⟨source, hr, rfl⟩, block, hb, _, -, _, -, rfl⟩
    exact ⟨source, block, hs, hr, hb, rfl, rfl⟩
  · obtain ⟨sources, signals, layout⟩ := generated
    rintro ⟨source, block, hs, hr, hb, hsignals, hlayout⟩
    dsimp only at hs hr hsignals hlayout
    subst hsignals hlayout
    exact ⟨sources, hs, _, ⟨source, hr, rfl⟩, block, hb, (), trivial, (), trivial, rfl⟩

theorem isModuleWord_of_build {script : Path} {settings : Settings} {generated : Generated}
    (h : ((build script settings).outcome tree).value = .ok generated) :
    Project.IsModuleWord generated.sources.moduleName := by
  obtain ⟨_, _, hs, -⟩ := value_build_eq_ok_iff.1 h
  exact Project.isModuleWord_of_discover hs

/-- A working directory at the root with a script, a project file and a source. -/
def exampleTree (moduleName source : Text) : FileTree where
  entries :=
    [([("run.sh" : Text)], .file (.text ("xelab " ++ moduleName ++ " -prj top.prj\n"))),
     ([("top.prj" : Text)], .file (.text ("verilog work " ++ moduleName ++ ".v\n"))),
     ([moduleName ++ ".v"], .file (.text source))]
  workingDirectory := []

end Generation

end WaveLayout

import WaveLayout.Proofs.Discovery

/-!
# The chain of references

Discovery follows a chain: the script, the **invocation** in it, the module and the project file
that the invocation names, and the **source** that the project file lists for the module. Where
several links would do, one is chosen: the last invocation of the script, the last project flag of
the invocation, the last entry of the project file that lists a source of the module, and the first
such source of that entry.

**Theorem.** Discovery ends as the chain does. The relation `Discovers` has a case for the whole
chain and one for each first link that is missing, in the order in which the links are followed.
Each case says by `∃` and `∀` over lines and words what is found or missing, and in which file.
-/

namespace WaveLayout

/-! ## Last elements -/

section IsLast

variable {α β : Type} {rel : α → β → Prop} {f : α → Option β} {xs : List α} {value : β}

/-- The relation gives the value for some element, and it gives none for the elements behind it. -/
def IsLast (rel : α → β → Prop) (xs : List α) (value : β) : Prop :=
  ∃ before x after, xs = before ++ x :: after ∧ rel x value ∧ ∀ y ∈ after, ∀ other, ¬ rel y other

theorem eq_none_iff_of_rel (h : ∀ x value, f x = some value ↔ rel x value) (x : α) :
    f x = none ↔ ∀ value, ¬ rel x value := by
  simp only [← h, Option.eq_none_iff_forall_ne_some, ne_eq]

theorem getLast?_filterMap_eq_some_iff (h : ∀ x value, f x = some value ↔ rel x value) :
    (xs.filterMap f).getLast? = some value ↔ IsLast rel xs value := by
  rw [List.getLast?_filterMap, List.findSome?_eq_some_iff]
  constructor
  · intro h
    obtain ⟨after, x, before, heq, hx, hafter⟩ := h
    refine ⟨before.reverse, x, after.reverse, ?_, (h x value).1 hx, ?_⟩
    · simpa using congrArg List.reverse heq
    · intro y hy
      exact (eq_none_iff_of_rel h y).1 (hafter y (List.mem_reverse.1 hy))
  · intro h
    obtain ⟨before, x, after, rfl, hx, hafter⟩ := h
    refine ⟨after.reverse, x, before.reverse, by simp, (h x value).2 hx, ?_⟩
    intro y hy
    exact (eq_none_iff_of_rel h y).2 (hafter y (List.mem_reverse.1 hy))

theorem getLast?_filterMap_eq_none_iff (h : ∀ x value, f x = some value ↔ rel x value) :
    (xs.filterMap f).getLast? = none ↔ ∀ x ∈ xs, ∀ value, ¬ rel x value := by
  rw [List.getLast?_eq_none_iff, List.filterMap_eq_nil_iff]
  simp only [eq_none_iff_of_rel h]

end IsLast

/-! ## References -/

namespace Path

/-- The path is the reference as seen from the file at `referrer`. An absolute reference is seen as
it is. Any other one is seen from the directory of the file, behind a slash unless the directory is
empty or ends with one. A path without a parent leaves it as it is. -/
inductive SeenFrom (referrer reference : Path) : Path → Prop where
  | absolute (habsolute : reference.text.head? = some '/') : SeenFrom referrer reference reference
  | relative {directory : Path} {separator : Text}
      (hrelative : reference.text.head? ≠ some '/') (hparent : referrer.parent? = some directory)
      (hseparator : separator =
        if directory.text = [] ∨ directory.text.getLast? = some '/' then [] else ['/']) :
      SeenFrom referrer reference ⟨directory.text ++ (separator ++ reference.text)⟩
  | alone (hrelative : reference.text.head? ≠ some '/') (hparent : referrer.parent? = none) :
      SeenFrom referrer reference reference

theorem isAbsolute_iff {path : Path} : path.isAbsolute = true ↔ path.text.head? = some '/' :=
  beq_iff_eq

theorem join_of_relative (directory : Path) {reference : Path}
    (h : reference.text.head? ≠ some '/') :
    directory.join reference = ⟨directory.text ++
      ((if directory.text = [] ∨ directory.text.getLast? = some '/' then [] else ['/']) ++
        reference.text)⟩ := by
  rw [join, if_neg (isAbsolute_iff.not.2 h)]
  split
  · rfl
  · rfl

/-- Resolving gives what is seen, and nothing else is seen. -/
theorem seenFrom_iff {referrer reference path : Path} :
    SeenFrom referrer reference path ↔ path = referrer.resolve reference := by
  constructor
  · intro h
    cases h with
    | absolute habsolute => rw [resolve, if_pos (isAbsolute_iff.2 habsolute)]
    | relative hrelative hparent hseparator =>
      rw [resolve, if_neg (isAbsolute_iff.not.2 hrelative), hparent, hseparator]
      exact (join_of_relative _ hrelative).symm
    | alone hrelative hparent =>
      rw [resolve, if_neg (isAbsolute_iff.not.2 hrelative), hparent]
  · rintro rfl
    by_cases habsolute : reference.text.head? = some '/'
    · rw [resolve, if_pos (isAbsolute_iff.2 habsolute)]
      exact .absolute habsolute
    · rw [resolve, if_neg (isAbsolute_iff.not.2 habsolute)]
      cases hparent : referrer.parent? with
      | none => exact .alone habsolute hparent
      | some directory =>
        show SeenFrom referrer reference (directory.join reference)
        rw [join_of_relative directory habsolute]
        exact .relative habsolute hparent rfl

end Path

namespace Project

variable {command flag moduleName line reference : Text} {script words : List Text}

/-! ## The script -/

/-- The line runs the command: it has the words, and the first one is the command or a path whose
file name is the command. -/
def Invokes (command line : Text) (words : List Text) : Prop :=
  words = Text.words line ∧ ∃ first, words.head? = some first ∧
    (first = command ∨ (Path.mk first).fileName? = some command)

theorem guard_eq_some_iff (line : Text) (words : List Text) :
    (Option.guard (fun words => words.head?.any (runs command)) ∘ Text.words) line = some words ↔
      Invokes command line words := by
  simp only [Function.comp_apply, Option.guard_eq_some_iff, Invokes]
  constructor
  · intro h
    obtain ⟨rfl, h⟩ := h
    cases hfirst : (Text.words line).head? with
    | none => simp [hfirst] at h
    | some first => exact ⟨rfl, first, rfl, by simpa [runs, hfirst] using h⟩
  · intro h
    obtain ⟨rfl, first, hfirst, h⟩ := h
    exact ⟨rfl, by simpa [runs, hfirst] using h⟩

theorem invocation?_eq_getLast? (command : Text) (script : List Text) :
    invocation? command script =
      (script.filterMap (Option.guard (fun words => words.head?.any (runs command)) ∘
        Text.words)).getLast? := by
  rw [invocation?, ← List.filterMap_eq_filter, List.filterMap_map]

theorem invocation?_eq_some_iff :
    invocation? command script = some words ↔ IsLast (Invokes command) script words := by
  rw [invocation?_eq_getLast?, getLast?_filterMap_eq_some_iff guard_eq_some_iff]

theorem invocation?_eq_none_iff :
    invocation? command script = none ↔ ∀ line ∈ script, ∀ words, ¬ Invokes command line words := by
  rw [invocation?_eq_getLast?, getLast?_filterMap_eq_none_iff guard_eq_some_iff]

/-! ## The invocation -/

/-- The second word is the module. It is no option. -/
def NamesModule (words : List Text) (moduleName : Text) : Prop :=
  words[1]? = some moduleName ∧ moduleName.head? ≠ some '-'

theorem moduleWord?_eq_some_iff :
    moduleWord? words = some moduleName ↔ NamesModule words moduleName := by
  simp [moduleWord?, NamesModule, Option.filter_eq_some_iff]

theorem moduleWord?_eq_none_iff :
    moduleWord? words = none ↔
      words[1]? = none ∨ ∃ word, words[1]? = some word ∧ word.head? = some '-' := by
  cases hsecond : words[1]? with
  | none => simp [moduleWord?, hsecond]
  | some word => simp [moduleWord?, hsecond]

/-- The word stands directly behind the last occurrence of the flag. -/
def FollowsLast (flag : Text) (words : List Text) (word : Text) : Prop :=
  ∃ before after, words = before ++ flag :: word :: after ∧ flag ∉ word :: after

theorem wordAfterLast?_append {before after : List Text} (h : flag ∉ after) :
    wordAfterLast? flag (before ++ flag :: after) = after.head? := by
  have hafter : ∀ word ∈ after.reverse, decide (word ≠ flag) = true := by
    intro word hword
    rw [decide_eq_true_iff]
    rintro rfl
    exact h (List.mem_reverse.1 hword)
  rw [wordAfterLast?, if_pos (by simp), List.reverse_append, List.reverse_cons, List.append_assoc,
    List.takeWhile_append_of_pos hafter]
  simp

/-- Either the flag does not occur, or there is a last occurrence. -/
theorem flag_cases (flag : Text) (words : List Text) :
    flag ∉ words ∨ ∃ before after, words = before ++ flag :: after ∧ flag ∉ after := by
  by_cases hflag : flag ∈ words
  · obtain ⟨after, before, heq, hafter⟩ := List.eq_append_cons_of_mem (List.mem_reverse.2 hflag)
    refine .inr ⟨before.reverse, after.reverse, ?_, by simpa using hafter⟩
    simpa using congrArg List.reverse heq
  · exact .inl hflag

theorem wordAfterLast?_eq_some_iff :
    wordAfterLast? flag words = some reference ↔ FollowsLast flag words reference := by
  constructor
  · intro h
    rcases flag_cases flag words with hflag | ⟨before, after, rfl, hafter⟩
    · simp [wordAfterLast?, hflag] at h
    · rw [wordAfterLast?_append hafter] at h
      obtain ⟨rest, rfl⟩ := List.head?_eq_some_iff.1 h
      exact ⟨before, rest, rfl, hafter⟩
  · intro h
    obtain ⟨before, after, rfl, hafter⟩ := h
    rw [wordAfterLast?_append hafter]
    rfl

theorem wordAfterLast?_eq_none_iff :
    wordAfterLast? flag words = none ↔ flag ∉ words ∨ words.getLast? = some flag := by
  rcases flag_cases flag words with hflag | ⟨before, after, rfl, hafter⟩
  · simp [wordAfterLast?, hflag]
  · rw [wordAfterLast?_append hafter]
    cases after with
    | nil => simp
    | cons word rest =>
      have hlast : (before ++ flag :: word :: rest).getLast? = (word :: rest).getLast? := by
        rw [List.append_cons, List.getLast?_append_of_ne_nil _ (List.cons_ne_nil word rest)]
      have hne : (word :: rest).getLast? ≠ some flag := fun heq =>
        hafter (List.mem_of_getLast? heq)
      rw [hlast]
      simp [hne]

/-! ## The project file -/

/-- The reference is the word without the double quotes around it. -/
def IsUnquoted (word reference : Text) : Prop :=
  ∃ front back, word = front ++ (reference ++ back) ∧ (∀ c ∈ front, c = '"') ∧
    (∀ c ∈ back, c = '"') ∧ reference.head? ≠ some '"' ∧ reference.getLast? ≠ some '"'

theorem isUnquoted_iff {word : Text} :
    IsUnquoted word reference ↔ Text.trimBy (· == '"') word = reference := by
  have hend : ∀ c? : Option Char, (∀ c ∈ c?, (c == '"') = false) ↔ c? ≠ some '"' := by
    intro c?
    cases c? <;> simp
  simp only [Text.trimBy_eq_iff, IsUnquoted, hend, beq_iff_eq]

/-- The path has a file name of a source of the module. -/
def IsSource (moduleName path : Text) : Prop :=
  ∃ name, (Path.mk path).fileName? = some name ∧
    (name = moduleName ++ ".v" ∨ name = moduleName ++ ".sv")

theorem isSource_iff {path : Text} :
    IsSource moduleName path ↔ isSourceOf moduleName path = true := by
  unfold IsSource isSourceOf
  cases (Path.mk path).fileName? with
  | none => simp
  | some name => simp [sourceNames]

theorem isSourceOf_nil (moduleName : Text) : isSourceOf moduleName [] = false := rfl

theorem ne_nil_of_isSource {path : Text} (h : IsSource moduleName path) : path ≠ [] := by
  rintro rfl
  simp [isSource_iff, isSourceOf_nil] at h

/-- The line is an entry of a kind that has sources, and the reference is the first source of the
module among its words from the third one on, taken without quotes. -/
def ListsSource (moduleName line reference : Text) : Prop :=
  ∃ kind library earlier word later,
    Text.words line = kind :: library :: (earlier ++ word :: later) ∧
    (kind = ("verilog" : Text) ∨ kind = ("sv" : Text)) ∧
    IsUnquoted word reference ∧ IsSource moduleName reference ∧
    ∀ other ∈ earlier, ∀ path, IsUnquoted other path → ¬ IsSource moduleName path

theorem entrySource?_eq_some_iff (moduleName line reference : Text) :
    entrySource? moduleName line = some reference ↔ ListsSource moduleName line reference := by
  simp only [ListsSource, isUnquoted_iff, isSource_iff]
  unfold entrySource?
  split
  · next kind library files hwords =>
    by_cases hkind : kind ∈ sourceKinds
    · rw [if_pos hkind, List.find?_map, Option.map_eq_some_iff]
      simp only [List.find?_eq_some_iff_append, Function.comp_apply]
      constructor
      · intro h
        obtain ⟨word, ⟨hword, earlier, later, rfl, hearlier⟩, rfl⟩ := h
        refine ⟨kind, library, earlier, word, later, hwords, by simpa [sourceKinds] using hkind,
          rfl, hword, ?_⟩
        rintro other hother _ rfl
        simpa using hearlier other hother
      · intro h
        obtain ⟨kind', library', earlier, word, later, hwords', -, rfl, hword, hearlier⟩ := h
        rw [hwords] at hwords'
        obtain ⟨-, -, rfl⟩ :
            kind = kind' ∧ library = library' ∧ files = earlier ++ word :: later := by
          simpa using hwords'
        refine ⟨word, ⟨hword, earlier, later, rfl, ?_⟩, rfl⟩
        intro other hother
        simpa using hearlier other hother _ rfl
    · rw [if_neg hkind]
      constructor
      · exact nofun
      · intro h
        obtain ⟨kind', library', earlier, word, later, hwords', hkind', -⟩ := h
        rw [hwords] at hwords'
        obtain ⟨rfl, -⟩ := List.cons.inj hwords'
        exact absurd (by simpa [sourceKinds] using hkind') hkind
  · next hwords =>
    constructor
    · exact nofun
    · intro h
      obtain ⟨kind, library, earlier, word, later, hwords', -⟩ := h
      exact absurd hwords' (hwords kind library _)

theorem source?_eq_some_iff {project : List Text} :
    source? moduleName project = some reference ↔
      IsLast (ListsSource moduleName) project reference :=
  getLast?_filterMap_eq_some_iff (entrySource?_eq_some_iff moduleName)

theorem source?_eq_none_iff {project : List Text} :
    source? moduleName project = none ↔
      ∀ line ∈ project, ∀ reference, ¬ ListsSource moduleName line reference :=
  getLast?_filterMap_eq_none_iff (entrySource?_eq_some_iff moduleName)

/-! ## The chain -/

section Chain

open Attempt

variable {tree : FileTree} {script : Path} {result : Except Failure Sources}

/-- The script can be read, and these are the words of its last invocation of the command. -/
def HoldsInvocation (tree : FileTree) (command : Text) (script : Path) (words : List Text) : Prop :=
  ∃ text, tree.read script = .ok text ∧ IsLast (Invokes command) (Text.lines text) words

/-- The last invocation of the script names the module and, seen from the script, the project
file. -/
def HoldsReferences (tree : FileTree) (command : Text) (script : Path) (moduleName : Text)
    (projectFile : Path) : Prop :=
  ∃ words reference, HoldsInvocation tree command script words ∧ NamesModule words moduleName ∧
    FollowsLast "-prj" words reference ∧ script.SeenFrom ⟨reference⟩ projectFile

/-- How discovery ends: with the first link of the chain that is missing, or with the whole
chain. -/
inductive Discovers (tree : FileTree) (command : Text) (script : Path) :
    Except Failure Sources → Prop where
  | unreadableScript {cause : FileError} (hread : tree.read script = .error cause) :
      Discovers tree command script (.error (.unreadable script cause))
  | noInvocation {text : Text} (hread : tree.read script = .ok text)
      (hnone : ∀ line ∈ Text.lines text, ∀ words, ¬ Invokes command line words) :
      Discovers tree command script (.error (.missing script (.invocation command)))
  | noModule {words : List Text} (hinvocation : HoldsInvocation tree command script words)
      (hnone : words[1]? = none ∨ ∃ word, words[1]? = some word ∧ word.head? = some '-') :
      Discovers tree command script (.error (.missing script (.moduleWord command)))
  | noProject {words : List Text} {moduleName : Text}
      (hinvocation : HoldsInvocation tree command script words)
      (hmodule : NamesModule words moduleName)
      (hnone : "-prj".toList ∉ words ∨ words.getLast? = some "-prj".toList) :
      Discovers tree command script (.error (.missing script .projectFlag))
  | unreadableProject {moduleName : Text} {projectFile : Path} {cause : FileError}
      (hreferences : HoldsReferences tree command script moduleName projectFile)
      (hread : tree.read projectFile = .error cause) :
      Discovers tree command script (.error (.unreadable projectFile cause))
  | noSource {moduleName text : Text} {projectFile : Path}
      (hreferences : HoldsReferences tree command script moduleName projectFile)
      (hread : tree.read projectFile = .ok text)
      (hnone : ∀ line ∈ Text.lines text, ∀ reference, ¬ ListsSource moduleName line reference) :
      Discovers tree command script (.error (.missing projectFile (.source moduleName)))
  | found {moduleName text reference : Text} {projectFile sourceFile : Path}
      (hreferences : HoldsReferences tree command script moduleName projectFile)
      (hread : tree.read projectFile = .ok text)
      (hsource : IsLast (ListsSource moduleName) (Text.lines text) reference)
      (hseen : projectFile.SeenFrom ⟨reference⟩ sourceFile) :
      Discovers tree command script (.ok ⟨moduleName, script, projectFile, sourceFile⟩)

theorem discovers_value (tree : FileTree) (command : Text) (script : Path) :
    Discovers tree command script ((discover command script).outcome tree).value := by
  unfold discover
  rw [value_readLines_bind]
  cases hscript : tree.read script with
  | error cause => exact .unreadableScript hscript
  | ok scriptText =>
    dsimp only
    rw [value_require_bind]
    cases hinvocation : invocation? command (Text.lines scriptText) with
    | none => exact .noInvocation hscript (invocation?_eq_none_iff.1 hinvocation)
    | some words =>
      have hholds : HoldsInvocation tree command script words :=
        ⟨scriptText, hscript, invocation?_eq_some_iff.1 hinvocation⟩
      dsimp only
      rw [value_tell_bind, value_require_bind]
      cases hmodule : moduleWord? words with
      | none => exact .noModule hholds (moduleWord?_eq_none_iff.1 hmodule)
      | some moduleName =>
        have hnames := moduleWord?_eq_some_iff.1 hmodule
        dsimp only
        rw [value_require_bind]
        cases hflag : wordAfterLast? projectFlag words with
        | none => exact .noProject hholds hnames (wordAfterLast?_eq_none_iff.1 hflag)
        | some reference =>
          have hreferences : HoldsReferences tree command script moduleName
              (script.resolve ⟨reference⟩) :=
            ⟨words, reference, hholds, hnames, wordAfterLast?_eq_some_iff.1 hflag,
              Path.seenFrom_iff.2 rfl⟩
          dsimp only
          rw [value_tell_bind, value_readLines_bind]
          cases hproject : tree.read (script.resolve ⟨reference⟩) with
          | error cause => exact .unreadableProject hreferences hproject
          | ok projectText =>
            dsimp only
            rw [value_require_bind]
            cases hsource : source? moduleName (Text.lines projectText) with
            | none => exact .noSource hreferences hproject (source?_eq_none_iff.1 hsource)
            | some source =>
              exact .found hreferences hproject (source?_eq_some_iff.1 hsource)
                (Path.seenFrom_iff.2 rfl)

theorem HoldsInvocation.exists_text {words : List Text}
    (h : HoldsInvocation tree command script words) :
    ∃ text, tree.read script = .ok text ∧ invocation? command (Text.lines text) = some words := by
  obtain ⟨text, hscript, hlast⟩ := h
  exact ⟨text, hscript, invocation?_eq_some_iff.2 hlast⟩

theorem HoldsReferences.exists_text {projectFile : Path}
    (h : HoldsReferences tree command script moduleName projectFile) :
    ∃ text words reference, tree.read script = .ok text ∧
      invocation? command (Text.lines text) = some words ∧ moduleWord? words = some moduleName ∧
      wordAfterLast? projectFlag words = some reference ∧
      projectFile = script.resolve ⟨reference⟩ := by
  obtain ⟨words, reference, hholds, hnames, hfollows, hseen⟩ := h
  obtain ⟨text, hscript, hinvocation⟩ := hholds.exists_text
  exact ⟨text, words, reference, hscript, hinvocation, moduleWord?_eq_some_iff.2 hnames,
    wordAfterLast?_eq_some_iff.2 hfollows, Path.seenFrom_iff.1 hseen⟩

theorem value_of_discovers (h : Discovers tree command script result) :
    ((discover command script).outcome tree).value = result := by
  unfold discover
  simp only [value_readLines_bind, value_require_bind, value_tell_bind]
  cases h with
  | unreadableScript hscript => simp only [hscript]
  | noInvocation hscript hnone => simp only [hscript, invocation?_eq_none_iff.2 hnone]
  | noModule hholds hnone =>
    obtain ⟨text, hscript, hinvocation⟩ := hholds.exists_text
    simp only [hscript, hinvocation, moduleWord?_eq_none_iff.2 hnone]
  | @noProject words moduleName hholds hnames hnone =>
    obtain ⟨text, hscript, hinvocation⟩ := hholds.exists_text
    have hflag : wordAfterLast? projectFlag words = none := wordAfterLast?_eq_none_iff.2 hnone
    simp only [hscript, hinvocation, moduleWord?_eq_some_iff.2 hnames, hflag]
  | unreadableProject hreferences hproject =>
    obtain ⟨text, words, reference, hscript, hinvocation, hmodule, hflag, rfl⟩ :=
      hreferences.exists_text
    simp only [hscript, hinvocation, hmodule, hflag, hproject]
  | noSource hreferences hproject hnone =>
    obtain ⟨text, words, reference, hscript, hinvocation, hmodule, hflag, rfl⟩ :=
      hreferences.exists_text
    simp only [hscript, hinvocation, hmodule, hflag, hproject, source?_eq_none_iff.2 hnone]
  | found hreferences hproject hsource hseen =>
    obtain ⟨text, words, reference, hscript, hinvocation, hmodule, hflag, rfl⟩ :=
      hreferences.exists_text
    obtain rfl := Path.seenFrom_iff.1 hseen
    simp only [hscript, hinvocation, hmodule, hflag, hproject, source?_eq_some_iff.2 hsource,
      outcome_pure]

/-- **The chain of references.** Discovery ends with a result exactly if the chain does: with the
sources if every link is there, and else with the failure of the first one that is missing. -/
theorem discover_ends_as_chain (tree : FileTree) (command : Text) (script : Path)
    (result : Except Failure Sources) :
    ((discover command script).outcome tree).value = result ↔
      Discovers tree command script result := by
  constructor
  · rintro rfl
    exact discovers_value tree command script
  · exact value_of_discovers

/-- A script in a directory, a project file in another one, and a source in a third. The last
invocation and the last flag count, and another command has no invocation. -/
theorem chain_through_directories :
    let tree : FileTree := {
      entries :=
        [([("sim" : Text)], .directory), ([("prj" : Text)], .directory),
         (["run.sh", "sim"],
          .file (.text "xelab old -prj old.prj\n/opt/xelab m glbl -prj a -prj ../prj/top.prj\n")),
         (["top.prj", "prj"], .file (.text "verilog work m.v\nsv work \"n.v\" \"../rtl/m.sv\"\n"))]
      workingDirectory := [] }
    let script : Path := ⟨"sim/run.sh"⟩
    let sources : Sources :=
      ⟨"m", script, ⟨"sim/../prj/top.prj"⟩, ⟨"sim/../prj/../rtl/m.sv"⟩⟩
    ((discover "xelab" script).outcome tree).value = .ok sources ∧
      Discovers tree "xelab" script (.ok sources) ∧
      Discovers tree "vsim" script (.error (.missing script (.invocation "vsim"))) := by
  intro tree script sources
  have hfound : ((discover "xelab" script).outcome tree).value = .ok sources := by decide +kernel
  have hmissing : ((discover "vsim" script).outcome tree).value =
      .error (.missing script (.invocation "vsim")) := by decide +kernel
  exact ⟨hfound, (discover_ends_as_chain tree "xelab" script _).1 hfound,
    (discover_ends_as_chain tree "vsim" script _).1 hmissing⟩

end Chain

end Project

end WaveLayout

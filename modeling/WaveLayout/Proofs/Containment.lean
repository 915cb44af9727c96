import WaveLayout.Proofs.Delivery
import WaveLayout.Proofs.Paths

/-!
# Where a run writes

**Theorem.** A run touches two files at most, the entries `<module>.<extension>` and
`dump.<extension>` of the output directory, whatever the script says and whether or not the run
succeeds.

Nothing tests the name of the module for slashes. It is a word of the script, but building a
layout succeeds only if the project file lists a file that is called after the module, and a file
name is a single piece of a path (`not_mem_slash_of_discover`). So the name of a layout file is
one piece as well, and the layout file lies directly in the output directory.

What a run does to the tree is what its last step does (`effect_run`), and that step writes and
removes at the two output paths only (`path_eq_outputPath_of_touched`). So every location that the
run changes is where one of them leads (`target_eq_of_entry?_run_ne`).
-/

namespace WaveLayout

open Attempt FileTree Text

variable {tree : FileTree}

/-! ## Module names -/

namespace Project

theorem isSourceOf_of_source? {moduleName reference : Text} {project : List Text}
    (h : source? moduleName project = some reference) : isSourceOf moduleName reference = true := by
  obtain ⟨entry, -, he⟩ := List.mem_filterMap.1 (List.mem_of_getLast? h)
  unfold entrySource? at he
  split at he
  · split at he
    · exact List.find?_some he
    · cases he
  · cases he

theorem not_mem_slash_of_isSourceOf {moduleName reference : Text}
    (h : isSourceOf moduleName reference = true) : '/' ∉ moduleName := by
  obtain ⟨name, hname, hmem⟩ := (Option.any_eq_true _ _).1 h
  have hslash := Path.not_mem_slash_of_fileName? hname
  have hcases : name = moduleName ++ ".v" ∨ name = moduleName ++ ".sv" := by
    simpa [sourceNames] using hmem
  intro hm
  rcases hcases with rfl | rfl
  · exact hslash (List.mem_append_left _ hm)
  · exact hslash (List.mem_append_left _ hm)

/-- **Module names hold no slash**, if the source of the module is found. -/
theorem not_mem_slash_of_discover {command : Text} {script : Path} {sources : Sources}
    (h : ((discover command script).outcome tree).value = .ok sources) :
    '/' ∉ sources.moduleName := by
  obtain ⟨_, _, _, _, reference, -, -, -, -, -, hsource, -⟩ := value_discover_eq_ok_iff.1 h
  exact not_mem_slash_of_isSourceOf (isSourceOf_of_source? hsource)

end Project

namespace Generation

theorem not_mem_slash_of_build {script : Path} {settings : Settings} {generated : Generated}
    (h : ((build script settings).outcome tree).value = .ok generated) :
    '/' ∉ generated.sources.moduleName := by
  obtain ⟨_, _, hs, -⟩ := value_build_eq_ok_iff.1 h
  exact Project.not_mem_slash_of_discover hs

/-! ## The effect of a run -/

/-- The settings and the layout with which a run comes to write. -/
structure Prepared (request : Request) (tree : FileTree) (settings : Settings)
    (generated : Generated) : Prop where
  settings_found : ∃ layer, FindsLayer tree request.settingsFile layer ∧
    Settings.resolve layer request.overrides = .ok settings
  layout_built : ((build request.script settings).outcome tree).value = .ok generated

/-- A run has no effect at all, or the effect of writing the layout that it has built. -/
theorem effect_run (request : Request) (tree : FileTree) :
    (run request).effect tree = (tree, []) ∨
      ∃ settings generated, Prepared request tree settings generated ∧
        (run request).effect tree =
          (write generated.layout generated.sources.moduleName settings.format
            request.outputDirectory).effect tree := by
  unfold run
  rw [effect_bind (confined_loadLayer _)]
  cases hlayer : ((loadLayer request.settingsFile).outcome tree).value with
  | error failure => exact .inl rfl
  | ok layer =>
    dsimp only
    rw [effect_bind (.check _ _)]
    cases hsettings :
        ((check (Settings.resolve layer request.overrides) .settings).outcome tree).value with
    | error failure => exact .inl rfl
    | ok settings =>
      dsimp only
      rw [effect_bind (confined_build _ _)]
      cases hbuild : ((build request.script settings).outcome tree).value with
      | error failure => exact .inl rfl
      | ok generated =>
        have hfound := value_check_eq_ok_iff.1 hsettings
        exact .inr ⟨settings, generated,
          ⟨⟨layer, value_loadLayer_eq_ok_iff.1 hlayer, hfound⟩, hbuild⟩, rfl⟩

/-! ## Containment -/

theorem not_mem_slash_dumpStem : '/' ∉ dumpStem := by decide

theorem not_mem_slash_outputName {stem : Text} (h : '/' ∉ stem) (format : Format) :
    '/' ∉ stem ++ "." ++ format.extension := by
  have hextension : '/' ∉ format.extension := by cases format <;> decide
  have hdot : '/' ∉ ("." : Text) := by decide
  simp only [List.mem_append, not_or]
  exact ⟨⟨h, hdot⟩, hextension⟩

theorem isEntryOf_of_output {moduleName : Text} (hm : '/' ∉ moduleName) {format : Format}
    {directory path : Path}
    (hp : path = outputPath directory moduleName format ∨
      path = outputPath directory dumpStem format) :
    ∃ stem ∈ [moduleName, dumpStem], path = outputPath directory stem format ∧
      ∀ location, tree.target path = .ok location →
        tree.IsEntryOf directory (stem ++ "." ++ format.extension) location := by
  have hslash : ∀ stem ∈ [moduleName, dumpStem], '/' ∉ stem := by
    simpa using And.intro hm not_mem_slash_dumpStem
  obtain ⟨stem, hs, rfl⟩ : ∃ stem ∈ [moduleName, dumpStem],
      path = outputPath directory stem format := by simpa using hp
  refine ⟨stem, hs, rfl, ?_⟩
  intro location ht
  exact target_join (not_mem_slash_outputName (hslash stem hs) format) ht

theorem path_eq_outputPath_of_touched {request : Request} {path : Path}
    (hp : path ∈ (run request).touched tree) :
    ∃ settings generated, Prepared request tree settings generated ∧
      (path = outputPath request.outputDirectory generated.sources.moduleName settings.format ∨
        path = outputPath request.outputDirectory dumpStem settings.format) := by
  rcases effect_run request tree with hnone | ⟨settings, generated, hprepared, heffect⟩
  · have htouched : (run request).touched tree = [] := (Prod.ext_iff.1 hnone).2
    rw [htouched] at hp
    cases hp
  · have htouched : (run request).touched tree = _ := (Prod.ext_iff.1 heffect).2
    rw [htouched] at hp
    have hconfined := confined_write generated.layout generated.sources.moduleName settings.format
      request.outputDirectory
    exact ⟨settings, generated, hprepared, Job.Confined.allowed_of_mem_touched hconfined hp⟩

theorem target_eq_of_entry?_run_ne {request : Request} {location : Location}
    (hl : ((run request).outcome tree).tree.entry? location ≠ tree.entry? location) :
    ∃ settings generated, Prepared request tree settings generated ∧
      ∃ path, (path = outputPath request.outputDirectory generated.sources.moduleName
          settings.format ∨ path = outputPath request.outputDirectory dumpStem settings.format) ∧
        tree.target path = .ok location := by
  rcases effect_run request tree with hnone | ⟨settings, generated, hprepared, heffect⟩
  · have htree : ((run request).outcome tree).tree = tree := (Prod.ext_iff.1 hnone).1
    exact absurd (congrArg (fun final => final.entry? location) htree) hl
  · have htree : ((run request).outcome tree).tree = _ := (Prod.ext_iff.1 heffect).1
    have hframe := (confined_write generated.layout generated.sources.moduleName settings.format
      request.outputDirectory).changesOnlyAt tree
    refine ⟨settings, generated, hprepared, ?_⟩
    -- Where no output path leads, the tree holds what it held.
    by_contra hnot
    refine hl ?_
    rw [htree]
    refine hframe.entry?_eq location ?_
    intro path hallowed ht
    exact hnot ⟨path, hallowed, ht⟩

/-- **What a run touches.** A module name that is found is a word without slash or leading dash.
Every path at which a run writes or removes is one of the two output paths, which lead to direct
entries of the output directory, and every location where the run leaves something else than it
found is such an entry. -/
theorem run_stays_in_output_directory (request : Request) (tree : FileTree) :
    let after := ((run request).outcome tree).tree
    (∀ script settings generated, ((build script settings).outcome tree).value = .ok generated →
      let name := generated.sources.moduleName
      name ≠ [] ∧ '/' ∉ name ∧ (∀ c ∈ name, isBlank c = false) ∧ name.head? ≠ some '-') ∧
    (∀ path ∈ (run request).touched tree,
      ∃ settings generated, Prepared request tree settings generated ∧
        ∃ stem ∈ [generated.sources.moduleName, dumpStem],
          path = outputPath request.outputDirectory stem settings.format ∧
          ∀ location, tree.target path = .ok location →
            tree.IsEntryOf request.outputDirectory (stem ++ "." ++ settings.format.extension)
              location) ∧
    ∀ location, after.entry? location ≠ tree.entry? location →
      ∃ settings generated, Prepared request tree settings generated ∧
        ∃ stem ∈ [generated.sources.moduleName, dumpStem],
          tree.IsEntryOf request.outputDirectory (stem ++ "." ++ settings.format.extension)
            location := by
  intro after
  refine ⟨?_, ?_, ?_⟩
  · intro script settings generated h
    have hword := isModuleWord_of_build h
    exact ⟨hword.ne_nil, not_mem_slash_of_build h, hword.not_isBlank, hword.head?_ne⟩
  · intro path hp
    obtain ⟨settings, generated, hprepared, houtput⟩ := path_eq_outputPath_of_touched hp
    have hslash := not_mem_slash_of_build hprepared.layout_built
    exact ⟨settings, generated, hprepared, isEntryOf_of_output hslash houtput⟩
  · intro location hl
    obtain ⟨settings, generated, hprepared, path, houtput, ht⟩ := target_eq_of_entry?_run_ne hl
    have hslash := not_mem_slash_of_build hprepared.layout_built
    obtain ⟨stem, hs, -, hentry⟩ := isEntryOf_of_output hslash houtput
    exact ⟨settings, generated, hprepared, stem, hs, hentry location ht⟩

/-- A layout that is written into a directory below the working directory. -/
theorem written_below_working_directory :
    let request : Request := ⟨⟨"run.sh"⟩, none, ⟨"out/"⟩, {}⟩
    let tree :=
      (exampleTree "m" "module m (\ninput a,\nalways @*\n").put [("out" : Text)] .directory
    let after := ((run request).outcome tree).tree
    let location : Location := ["m.gtkw", "out"]
    after.entry? location ≠ tree.entry? location ∧
      ∃ settings generated, Prepared request tree settings generated ∧
        ∃ stem ∈ [generated.sources.moduleName, dumpStem],
          tree.IsEntryOf ⟨"out/"⟩ (stem ++ "." ++ settings.format.extension) location := by
  intro request tree after location
  have hne : after.entry? location ≠ tree.entry? location := by decide +kernel
  exact ⟨hne, (run_stays_in_output_directory request tree).2.2 location hne⟩

end Generation

end WaveLayout

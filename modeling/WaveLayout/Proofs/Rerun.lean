import WaveLayout.Proofs.Containment

/-!
# A second run

**Theorem.** A run that succeeds and leaves the files that it reads as they were is idempotent: the
same request on the tree that it leaves succeeds with the same paths and leaves that tree, entry by
entry.

The two output files may be new, so the second run starts from another tree than the first one. But
a run that succeeds reads four files at most (`reads_run`), and what is built depends on them only
(`Prepared.of_reads`). Their paths lead to the same places as before, because no run changes the set
of directories. For the same reason both output files can be written again, and what is put at two
locations in turn is there after the first turn (`write_again`).
-/

namespace WaveLayout

open Attempt FileTree

variable {tree : FileTree}

/-! ## What is read -/

namespace Attempt

variable {α : Type}

/-- The attempt leaves the files that it reads as they were. -/
def KeepsReads (attempt : Attempt α) (tree : FileTree) : Prop :=
  ∀ path ∈ attempt.reads tree, ∀ location,
    tree.locateFrom tree.workingDirectory path = .ok location →
      (attempt.outcome tree).tree.entry? location = tree.entry? location

instance decidableKeepsReads (attempt : Attempt α) (tree : FileTree) :
    Decidable (attempt.KeepsReads tree) :=
  decidable_of_iff
    (∀ path ∈ attempt.reads tree,
      ∀ location ∈ (tree.locateFrom tree.workingDirectory path).toOption,
        (attempt.outcome tree).tree.entry? location = tree.entry? location)
    (by
      have hmem : ∀ (result : Except FileError Location) (location : Location),
          location ∈ result.toOption ↔ result = .ok location := by
        intro result location
        cases result <;> simp [Except.toOption, eq_comm]
      simp only [KeepsReads, hmem])

theorem value_eq_of_reads {attempt : Attempt α} {before after : FileTree}
    (h : attempt.Confined fun _ => False)
    (hread : ∀ path ∈ attempt.reads before, after.read path = before.read path) :
    (attempt.outcome after).value = (attempt.outcome before).value :=
  Job.Confined.value_eq_of_reads h hread

end Attempt

theorem Project.reads_discover {command : Text} {script : Path} {sources : Sources}
    (h : ((discover command script).outcome tree).value = .ok sources) :
    (discover command script).reads tree = [script, sources.projectFile] := by
  obtain ⟨_, _, _, _, _, hscript, hinvocation, hmodule, hproject, hread, hsource, -, hfile, -⟩ :=
    value_discover_eq_ok_iff.1 h
  unfold discover
  simp only [reads_readLines_bind, reads_require_bind, reads_tell_bind, reads_pure, hscript,
    hinvocation, hmodule, hproject, hread, hsource, hfile]

namespace Generation

theorem reads_loadLayer (file? : Option Path) (tree : FileTree) :
    (loadLayer file?).reads tree = file?.toList := by
  cases file? with
  | none => rfl
  | some file =>
    unfold loadLayer
    rw [reads_bind, reads_lift, outcome_lift]
    simp only [Job.readText, Job.reads, Job.run, reads_check_bind, reads_check]
    cases tree.read file <;> rfl

theorem reads_build {script : Path} {settings : Settings} {generated : Generated}
    (h : ((build script settings).outcome tree).value = .ok generated) :
    (build script settings).reads tree =
      [script, generated.sources.projectFile, generated.sources.sourceFile] := by
  obtain ⟨source, block, hs, hr, hb, -, -⟩ := value_build_eq_ok_iff.1 h
  unfold build
  rw [reads_bind_of_ok (Project.confined_discover _ _) hs, Project.reads_discover hs]
  simp only [reads_readLines_bind, reads_check_bind, hr, hb]
  rw [reads_bind_of_ok (confined_tellAll _) (by rw [outcome_lift]), reads_lift, Job.reads_tellAll,
    reads_tell_bind]
  rfl

theorem reads_write (layout : Layout) (moduleName : Text) (format : Format) (directory : Path)
    (tree : FileTree) : (write layout moduleName format directory).reads tree = [] := by
  unfold write
  rw [reads_bind, reads_lift, Job.reads_writeText, outcome_lift]
  dsimp only
  rw [reads_check_bind]
  split
  · rfl
  · rw [reads_tell_bind, reads_bind, reads_lift, Job.reads_writeText, outcome_lift]
    dsimp only
    split
    · rw [reads_tell_bind]
      rfl
    · rw [reads_bind, reads_lift, Job.reads_removeFile, outcome_lift]
      dsimp only
      split
      · rw [reads_tell_bind]
        rfl
      · rfl

/-! ## The steps of a run -/

variable {request : Request} {settings : Settings} {generated : Generated} {written : Written}
  {after : FileTree}

theorem Prepared.outcome_run (h : Prepared request tree settings generated) :
    let last := write generated.layout generated.sources.moduleName settings.format
      request.outputDirectory
    ((run request).outcome tree).value = (last.outcome tree).value ∧
      ((run request).outcome tree).tree = (last.outcome tree).tree := by
  obtain ⟨⟨layer, hlayer, hsettings⟩, hbuild⟩ := h
  unfold run
  rw [outcome_bind, value_loadLayer_eq_ok_iff.2 hlayer, tree_loadLayer]
  dsimp only
  rw [outcome_bind, outcome_check, hsettings]
  dsimp only [Except.mapError]
  rw [outcome_bind, hbuild, tree_build]
  exact ⟨rfl, rfl⟩

/-- **What a run reads**, if it comes to write: the settings file if there is one, the script, the
project file and the source. -/
theorem Prepared.reads_run (h : Prepared request tree settings generated) :
    (run request).reads tree = request.settingsFile.toList ++
      [request.script, generated.sources.projectFile, generated.sources.sourceFile] := by
  obtain ⟨⟨layer, hlayer, hsettings⟩, hbuild⟩ := h
  unfold run
  rw [reads_bind_of_ok (confined_loadLayer _) (value_loadLayer_eq_ok_iff.2 hlayer),
    reads_check_bind, hsettings]
  dsimp only
  rw [reads_bind_of_ok (confined_build _ _) hbuild, reads_write, List.append_nil, reads_loadLayer,
    reads_build hbuild]

theorem Prepared.exists_text (h : Prepared request tree settings generated) {path : Path}
    (hp : path ∈ (run request).reads tree) : ∃ text, tree.read path = .ok text := by
  rw [h.reads_run, List.mem_append] at hp
  obtain ⟨⟨layer, hlayer, -⟩, hbuild⟩ := h
  obtain ⟨source, _, hdiscover, hsource, -⟩ := value_build_eq_ok_iff.1 hbuild
  obtain ⟨scriptText, _, _, projectText, _, hscript, -, -, -, hproject, -, -, hfile, -⟩ :=
    Project.value_discover_eq_ok_iff.1 hdiscover
  rcases hp with hp | hp
  · rw [Option.mem_toList.1 hp] at hlayer
    cases hlayer with
    | file hread _ => exact ⟨_, hread⟩
  · simp only [List.mem_cons, List.not_mem_nil, or_false] at hp
    rcases hp with rfl | rfl | rfl
    · exact ⟨scriptText, hscript⟩
    · exact ⟨projectText, hfile ▸ hproject⟩
    · exact ⟨source, hsource⟩

theorem prepared_of_run (h : ((run request).outcome tree).value = .ok written) :
    ∃ settings generated, Prepared request tree settings generated := by
  obtain ⟨layer, settings, generated, hlayer, hsettings, hbuild, -⟩ := exists_build_of_run h
  exact ⟨settings, generated, ⟨layer, hlayer, hsettings⟩, hbuild⟩

/-- The same layout is built on a tree that answers every read of the run in the same way. -/
theorem Prepared.of_reads (h : Prepared request tree settings generated)
    (hread : ∀ path ∈ (run request).reads tree, after.read path = tree.read path) :
    Prepared request after settings generated := by
  rw [h.reads_run] at hread
  obtain ⟨hlayer, hbuild⟩ := List.forall_mem_append.1 hread
  obtain ⟨⟨layer, hfound, hsettings⟩, hbuilt⟩ := h
  refine ⟨⟨layer, ?_, hsettings⟩, ?_⟩
  · rw [← value_loadLayer_eq_ok_iff] at hfound ⊢
    rw [← hfound]
    exact value_eq_of_reads (confined_loadLayer _) (by rwa [reads_loadLayer])
  · rw [← hbuilt]
    exact value_eq_of_reads (confined_build _ _) (by rwa [reads_build hbuilt])

/-! ## The second write -/

theorem write_of_sameDirectories (h : SameDirectories tree after) {path : Path}
    {location : Location} (ht : tree.target path = .ok location)
    (hd : tree.entry? location ≠ some .directory) (text : Text) :
    after.write path text = .ok (after.put location (.file (.text text))) :=
  write_eq_ok_iff.2 ⟨location, h.target ht, mt (h.directory_iff location).1 hd, rfl⟩

theorem writes_again {first second : Path} {text : Text} {between : FileTree}
    (h₁ : tree.write first text = .ok between) (h₂ : between.write second text = .ok after) :
    ∃ again, after.write first text = .ok again ∧ again.write second text = .ok after := by
  have hbetween := SameDirectories.of_write h₁
  have hafter := hbetween.trans (SameDirectories.of_write h₂)
  obtain ⟨location, ht₁, hd₁, rfl⟩ := write_eq_ok_iff.1 h₁
  obtain ⟨other, ht₂, hd₂, rfl⟩ := write_eq_ok_iff.1 h₂
  -- Neither target has moved, and no directory has come in the way.
  have hagain := write_of_sameDirectories hafter ht₁ hd₁ text
  have hsecond := write_of_sameDirectories
    ((SameDirectories.of_write h₂).trans (SameDirectories.of_write hagain)) ht₂ hd₂ text
  rw [put_put_put] at hsecond
  exact ⟨_, hagain, hsecond⟩

theorem write_again {layout : Layout} {moduleName : Text} {format : Format} {directory : Path}
    (h : ((write layout moduleName format directory).outcome tree).value = .ok written) :
    let after := ((write layout moduleName format directory).outcome tree).tree
    ((write layout moduleName format directory).outcome after).value = .ok written ∧
      ((write layout moduleName format directory).outcome after).tree = after := by
  intro after
  obtain ⟨rfl, between, h₁, h₂⟩ := exists_writes_of_write_ok h
  obtain ⟨again, hfirst, hsecond⟩ := writes_again h₁ h₂
  rw [outcome_write_of_writes hfirst hsecond]
  exact ⟨rfl, rfl⟩

/-! ## The second run -/

/-- **A second run changes nothing.** A run that succeeds has read the settings file, the script,
the project file and the source. If it leaves them as they were, the same request succeeds on the
tree that it leaves, with the same paths, and leaves that tree. -/
theorem rerun_changes_nothing (h : ((run request).outcome tree).value = .ok written)
    (hkept : (run request).KeepsReads tree) :
    let after := ((run request).outcome tree).tree
    (∃ settings generated, Prepared request tree settings generated ∧
      (run request).reads tree = request.settingsFile.toList ++
        [request.script, generated.sources.projectFile, generated.sources.sourceFile]) ∧
    ((run request).outcome after).value = .ok written ∧
    ((run request).outcome after).tree = after := by
  intro after
  obtain ⟨settings, generated, hprepared⟩ := prepared_of_run h
  obtain ⟨hvalue, htree⟩ := hprepared.outcome_run
  have hframe : SameDirectories tree after := by
    rw [show after = _ from htree]
    exact ((confined_write _ _ _ _).changesOnlyAt tree).sameDirectories
  -- What a path leads to stays, so the second run finds the same settings and sources.
  have hagain : Prepared request after settings generated := by
    refine hprepared.of_reads fun path hp => ?_
    obtain ⟨text, hr⟩ := hprepared.exists_text hp
    rw [hr, hframe.read hr (hkept path hp)]
  obtain ⟨hvalue', htree'⟩ := hagain.outcome_run
  obtain ⟨hwritten, hsame⟩ := write_again (hvalue ▸ h)
  rw [← htree] at hwritten hsame
  exact ⟨⟨settings, generated, hprepared, hprepared.reads_run⟩, hvalue'.trans hwritten,
    htree'.trans hsame⟩

/-- A second run where the settings, the script and the output directory are reached through `..`,
and both copies are one file. -/
theorem second_run_through_parents :
    let request : Request := ⟨⟨"out/../run.sh"⟩, some ⟨"out/..//wave.toml"⟩, ⟨"out//.."⟩, {}⟩
    let sources := exampleTree "dump" "module dump (\ninput a,\nalways @*\n"
    let tree := (sources.put [("out" : Text)] .directory).put [("wave.toml" : Text)]
      (.file (.text "layout.format = 'sav'"))
    let after := ((run request).outcome tree).tree
    let written : Written := ⟨⟨"out//../dump.sav"⟩, ⟨"out//../dump.sav"⟩⟩
    ((run request).outcome tree).value = .ok written ∧ (run request).KeepsReads tree ∧
      after ≠ tree ∧ ((run request).outcome after).value = .ok written ∧
      ((run request).outcome after).tree = after := by
  intro request sources tree after written
  have hok : ((run request).outcome tree).value = .ok written := by decide +kernel
  have hkept : (run request).KeepsReads tree := by decide +kernel
  obtain ⟨-, hagain, hsame⟩ := rerun_changes_nothing hok hkept
  exact ⟨hok, hkept, by decide +kernel, hagain, hsame⟩

end Generation

end WaveLayout

import WaveLayout.Proofs.Blocks
import WaveLayout.Proofs.Discovery
import WaveLayout.Proofs.Writing

/-!
# What a run delivers

**Theorem.** A run that succeeds leaves two files with the same text, which is spelled out by
`layoutText`: it shows the declarations in the body of the source that the settings and the script
lead to. Everything else in the tree is as it was. A run that fails before it writes leaves the
whole tree as it was.

A run is four steps, and all but the last one only read. So the source is found in the tree before
the run, also if a layout is written over it afterwards, and what the run changes is what the last
step changes.
-/

namespace WaveLayout.Generation

open Attempt FileTree Text Verilog

/-! ## The text of a layout -/

/-- The lines of a group, nothing if there are no names. -/
def groupText (moduleName label : Text) (names : List SignalName) : Text :=
  let traces : List Text := names.map fun name => moduleName ++ "." ++ name.render ++ "\n"
  if names = [] then [] else "-" ++ label ++ ":\n" ++ traces.flatten

/-- The layout of a module whose signals are declared in the body, spelled out. -/
def layoutText (moduleName : Text) (window : WindowSize) (body : List Text) : Text :=
  "[*]\n" ++
    ("[size] " ++ ofNat window.width.toNat ++ " " ++ ofNat window.height.toNat ++ "\n") ++
    ("-" ++ moduleName ++ "\n") ++
    groupText moduleName "Inputs" (namesIn .inputs body) ++
    groupText moduleName "Outputs" (namesIn .outputs body) ++
    groupText moduleName "Internals" (namesIn .internals body)

theorem flatMap_groupLines (moduleName : Text) (group : Group) (names : List SignalName) :
    (Layout.groupLines moduleName (group, names)).flatMap (· ++ ['\n']) =
      groupText moduleName group.label names := by
  cases names with
  | nil => rfl
  | cons name names =>
    have hlabel : Layout.groupLabel group ++ ['\n'] = "-" ++ group.label ++ ":\n" := by
      cases group <;> rfl
    rw [Layout.groupLines, List.flatMap_cons, hlabel, List.flatMap_map, groupText,
      if_neg (List.cons_ne_nil name names), ← List.flatMap_def]
    rfl

theorem text_ofSignals (moduleName : Text) (block : Block) (window : WindowSize) :
    (Layout.ofSignals moduleName block.signals window).text =
      layoutText moduleName window (block.lines.map (·.text)) := by
  have hgroup : ∀ group, (Layout.groupLines moduleName (group, block.signals.group group)).flatMap
      (· ++ ['\n']) =
        groupText moduleName group.label (namesIn group (block.lines.map (·.text))) := by
    intro group
    rw [flatMap_groupLines, Block.group_signals]
  show "[*]\n" ++ (("[size] " ++ ofNat window.width.toNat ++ " " ++ ofNat window.height.toNat ++
    "\n") ++ (("-" ++ moduleName ++ "\n") ++
      (block.signals.groups.flatMap (Layout.groupLines moduleName)).flatMap (· ++ ['\n']))) = _
  unfold layoutText
  generalize
    "[size] " ++ ofNat window.width.toNat ++ " " ++ ofNat window.height.toNat ++ "\n" = size
  simp only [Signals.groups, Group.all, List.map_cons, List.map_nil, List.flatMap_cons,
    List.flatMap_nil, List.flatMap_append, hgroup, List.append_assoc, List.append_nil]
  rfl

/-! ## The steps of a run -/

variable {request : Request} {tree : FileTree} {written : Written}

theorem confined_loadLayer {allowed : Path → Prop} (file? : Option Path) :
    (loadLayer file?).Confined allowed := by
  cases file? with
  | none => exact .pure _
  | some file =>
    exact .bind (.lift fun _ => trivial) fun _ => .bind (.check _ _) fun _ => .check _ _

theorem tree_loadLayer (file? : Option Path) (tree : FileTree) :
    ((loadLayer file?).outcome tree).tree = tree :=
  (confined_loadLayer file?).tree_eq tree

/-- The layer of the settings file in the tree. It is empty if no file is given, and otherwise the
file is read and its text gives the layer. -/
inductive FindsLayer (tree : FileTree) : Option Path → Settings.Layer → Prop where
  | none : FindsLayer tree none {}
  | file {file : Path} {text : Text} {layer : Settings.Layer} (hread : tree.read file = .ok text)
      (hparse : Settings.Layer.parse text = .ok layer) : FindsLayer tree (some file) layer

theorem value_loadLayer_eq_ok_iff {file? : Option Path} {layer : Settings.Layer} :
    ((loadLayer file?).outcome tree).value = .ok layer ↔ FindsLayer tree file? layer := by
  cases file? with
  | none =>
    constructor
    · intro h
      obtain rfl := Except.ok.inj h
      exact .none
    · intro h
      cases h
      rfl
  | some file =>
    have hload : ((loadLayer (some file)).outcome tree).value = .ok layer ↔
        ∃ text, tree.read file = .ok text ∧ Settings.Layer.parse text = .ok layer := by
      simp only [loadLayer, value_bind_eq_ok_iff, value_check_eq_ok_iff, outcome_lift,
        tree_check, Except.ok.injEq, exists_eq_left', Job.readText, Job.run]
    rw [hload]
    constructor
    · rintro ⟨text, hread, hparse⟩
      exact .file hread hparse
    · intro h
      cases h with
      | file hread hparse => exact ⟨_, hread, hparse⟩

/-- A run that succeeds has loaded its settings and built a layout on the tree that it started
from, and it has written that layout there. -/
theorem exists_build_of_run (h : ((run request).outcome tree).value = .ok written) :
    ∃ layer settings generated, FindsLayer tree request.settingsFile layer ∧
      Settings.resolve layer request.overrides = .ok settings ∧
      ((build request.script settings).outcome tree).value = .ok generated ∧
      let last := write generated.layout generated.sources.moduleName settings.format
        request.outputDirectory
      (last.outcome tree).value = .ok written ∧
        ((run request).outcome tree).tree = (last.outcome tree).tree := by
  unfold run at h ⊢
  obtain ⟨layer, hlayer, h⟩ := value_bind_eq_ok_iff.1 h
  rw [tree_bind_of_ok hlayer]
  rw [tree_loadLayer] at h ⊢
  obtain ⟨settings, hsettings, h⟩ := value_bind_eq_ok_iff.1 h
  rw [tree_bind_of_ok hsettings]
  rw [tree_check] at h ⊢
  obtain ⟨generated, hbuild, h⟩ := value_bind_eq_ok_iff.1 h
  rw [tree_bind_of_ok hbuild]
  rw [tree_build] at h ⊢
  exact ⟨layer, settings, generated, value_loadLayer_eq_ok_iff.1 hlayer,
    value_check_eq_ok_iff.1 hsettings, hbuild, h, rfl⟩

/-- Writing fails only because a file cannot be written. -/
theorem keepsTreeOn_write (layout : Layout) (moduleName : Text) (format : Format)
    (directory : Path) :
    KeepsTreeOn (fun failure => ∀ file cause, failure ≠ .unwritable file cause)
      (write layout moduleName format directory) := by
  intro tree failure hv hf
  have hkind : ∃ file cause, failure = .unwritable file cause := by
    rw [outcome_write] at hv
    dsimp only at hv
    split at hv
    · exact ⟨_, _, (Except.error.inj hv).symm⟩
    · split at hv
      · cases hv
      · split at hv <;> exact ⟨_, _, (Except.error.inj hv).symm⟩
  obtain ⟨file, cause, heq⟩ := hkind
  exact absurd heq (hf file cause)

theorem keepsTreeOn_run (request : Request) :
    KeepsTreeOn (fun failure => ∀ file cause, failure ≠ .unwritable file cause) (run request) :=
  .bind (confined_loadLayer _) fun _ => .bind (.check _ _) fun _ => .bind (confined_build _ _)
    fun _ => keepsTreeOn_write _ _ _ _

/-! ## Delivery -/

/-- The settings of a run, the files that its script leads to and the body of the source, as they
are found in the tree. -/
structure Found (request : Request) (tree : FileTree) (settings : Settings) (sources : Sources)
    (body : List Text) : Prop where
  settings_found : ∃ layer, FindsLayer tree request.settingsFile layer ∧
    Settings.resolve layer request.overrides = .ok settings
  sources_found :
    ((Project.discover settings.elaborateCommand request.script).outcome tree).value = .ok sources
  body_found : ∃ source, tree.read sources.sourceFile = .ok source ∧ IsBody (lines source) body

/-- Both files hold the text and are read as the text, and nothing else differs from the tree
before. -/
structure Delivered (written : Written) (text : Text) (before after : FileTree) : Prop where
  layout_holds : after.Holds written.layout text
  dump_holds : after.Holds written.dump text
  layout_read : after.read written.layout = .ok text
  dump_read : after.read written.dump = .ok text
  changesOnlyAt : ChangesOnlyAt (fun path => path = written.layout ∨ path = written.dump)
    before after

theorem found_of_build {layer : Settings.Layer} {settings : Settings} {generated : Generated}
    (hlayer : FindsLayer tree request.settingsFile layer)
    (hsettings : Settings.resolve layer request.overrides = .ok settings)
    (hbuild : ((build request.script settings).outcome tree).value = .ok generated) :
    ∃ body, Found request tree settings generated.sources body ∧
      generated.layout.text = layoutText generated.sources.moduleName settings.window body := by
  obtain ⟨source, block, hs, hr, hb, hsignals, hlayout⟩ := value_build_eq_ok_iff.1 hbuild
  have hbody := exists_block_iff.1 ⟨block, hb, rfl⟩
  refine ⟨_, ⟨⟨layer, hlayer, hsettings⟩, hs, source, hr, hbody⟩, ?_⟩
  rw [hlayout, hsignals, text_ofSignals]

/-- **What a run delivers.** If it succeeds, the files called after the module and `dump` in the
output directory hold the text that the settings and the body found in the tree make, and nothing
else has changed. If it fails for any reason but a refused write, nothing has changed at all. -/
theorem run_delivers (request : Request) (tree : FileTree) :
    let after := ((run request).outcome tree).tree
    (∀ written, ((run request).outcome tree).value = .ok written →
      ∃ settings sources body, Found request tree settings sources body ∧
        written.layout =
          request.outputDirectory.join ⟨sources.moduleName ++ "." ++ settings.format.extension⟩ ∧
        written.dump = request.outputDirectory.join ⟨"dump" ++ "." ++ settings.format.extension⟩ ∧
        Delivered written (layoutText sources.moduleName settings.window body) tree after) ∧
    ∀ failure, ((run request).outcome tree).value = .error failure →
      (∀ file cause, failure ≠ .unwritable file cause) → after = tree := by
  intro after
  refine ⟨?_, keepsTreeOn_run request tree⟩
  intro written h
  obtain ⟨layer, settings, generated, hlayer, hsettings, hbuild, hwrite, htree⟩ :=
    exists_build_of_run h
  obtain ⟨body, hfound, htext⟩ := found_of_build hlayer hsettings hbuild
  obtain ⟨hwritten, hlayout, hdump⟩ := holds_of_write_ok hwrite
  have hframe := (confined_write generated.layout generated.sources.moduleName settings.format
    request.outputDirectory).changesOnlyAt tree
  rw [htext, ← htree] at hlayout hdump
  refine ⟨settings, generated.sources, body, hfound, by rw [hwritten]; rfl, by rw [hwritten]; rfl,
    hlayout, hdump, hlayout.read, hdump.read, ?_⟩
  rw [hwritten, show after = _ from htree]
  exact hframe

/-- A module called `dump` has one file for both copies, and a source without a header has
none. -/
theorem dump_delivered_once :
    let request : Request := ⟨⟨"run.sh"⟩, none, ⟨"."⟩, {}⟩
    let tree := exampleTree "dump" "module dump (\ninput a,\nalways @*\n"
    let after := ((run request).outcome tree).tree
    let bare := exampleTree "dump" ""
    ((run request).outcome tree).value = .ok ⟨⟨"./dump.gtkw"⟩, ⟨"./dump.gtkw"⟩⟩ ∧
      (∃ settings sources body, Found request tree settings sources body ∧
        Delivered ⟨⟨"./dump.gtkw"⟩, ⟨"./dump.gtkw"⟩⟩
          (layoutText sources.moduleName settings.window body) tree after) ∧
      after.read ⟨"./dump.gtkw"⟩ = .ok "[*]\n[size] 1900 900\n-dump\n-Inputs:\ndump.a\n" ∧
      ((run request).outcome bare).tree = bare := by
  intro request tree after bare
  have hok : ((run request).outcome tree).value =
      .ok ⟨⟨"./dump.gtkw"⟩, ⟨"./dump.gtkw"⟩⟩ := by decide +kernel
  have herror : ((run request).outcome bare).value =
      .error (.noBlock ⟨"dump.v"⟩ .missingHeader) := by decide +kernel
  obtain ⟨settings, sources, body, hfound, -, -, hdelivered⟩ := (run_delivers request tree).1 _ hok
  exact ⟨hok, ⟨settings, sources, body, hfound, hdelivered⟩, by decide +kernel,
    (run_delivers request bare).2 _ herror nofun⟩

end WaveLayout.Generation

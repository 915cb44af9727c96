import WaveLayout.Proofs.Blocks
import WaveLayout.Proofs.Discovery

/-!
# Which module the signals belong to

A layout is built for the module that the script names, and its signals come from the block behind
the **first** header of the source. Nothing compares the two: the name in that header is kept for
messages only, and a block may run over the end of its module.

So a trace can name a signal of another module. If a helper module stands first in the source, all
its signals are shown as signals of the module that the script names (`helper_signals_shown`).

**Theorem.** The signals are those that are declared between the first header and the first marker
after it. If no line there begins or ends a module before the last declaration, they are the first
signals declared **inside** the module that the header names, in order. Then, if the header names
the module of the script, every trace comes from a declaration inside that module.

What is inside a module is said by `linesInside`, which reads the whole source and follows the
headers and the lines that end a module.
-/

namespace WaveLayout

open Text Verilog

/-! ## Lines inside a module -/

namespace Verilog

/-- The line ends a module. -/
def isFooter (line : Text) : Bool := (tokens line).head? = some ("endmodule" : Text)

/-- The line begins or ends a module. -/
def isBoundary (line : Text) : Bool := OpensModule line || isFooter line

/-- The module that is open after a line, if `opened` is the one before it. -/
def enter (opened : Option Text) (line : Text) : Option Text :=
  if OpensModule line then some (headerName line) else if isFooter line then none else opened

/-- The lines in front of which the module is open. -/
def linesInside (moduleName : Text) (opened : Option Text) : List Text → List Text
  | [] => []
  | line :: rest =>
    let inside := linesInside moduleName (enter opened line) rest
    if opened = some moduleName then line :: inside else inside

/-- No declaration stands behind a line that begins or ends a module. -/
def DeclaresBeforeBoundary (body : List Text) : Prop :=
  ∀ line ∈ body.dropWhile (!isBoundary ·), classify line = none

instance decidableDeclaresBeforeBoundary (body : List Text) :
    Decidable (DeclaresBeforeBoundary body) :=
  inferInstanceAs (Decidable (∀ line ∈ body.dropWhile (!isBoundary ·), classify line = none))

variable {moduleName : Text} {opened : Option Text} {lines before body after : List Text}
  {header marker : Text} {group : Group}

theorem enter_of_not_isBoundary {line : Text} (h : isBoundary line = false) :
    enter opened line = opened := by
  obtain ⟨hh, hf⟩ := Bool.or_eq_false_iff.1 h
  simp [enter, of_decide_eq_false hh, hf]

theorem linesInside_append (xs ys : List Text) :
    linesInside moduleName opened (xs ++ ys) =
      linesInside moduleName opened xs ++ linesInside moduleName (xs.foldl enter opened) ys := by
  induction xs generalizing opened with
  | nil => rfl
  | cons line rest ih =>
    simp only [List.cons_append, linesInside, List.foldl_cons, ih]
    split
    · rfl
    · rfl

theorem linesInside_eq_self (h : ∀ line ∈ body, isBoundary line = false) :
    linesInside moduleName (some moduleName) body = body := by
  induction body with
  | nil => rfl
  | cons line rest ih =>
    obtain ⟨hline, hrest⟩ := List.forall_mem_cons.1 h
    rw [linesInside, enter_of_not_isBoundary hline, if_pos rfl, ih hrest]

theorem linesInside_of_not_opensModule (moduleName : Text)
    (h : ∀ line ∈ before, ¬ OpensModule line) :
    linesInside moduleName none before = [] ∧ before.foldl enter none = none := by
  induction before with
  | nil => exact ⟨rfl, rfl⟩
  | cons line rest ih =>
    obtain ⟨hline, hrest⟩ := List.forall_mem_cons.1 h
    have henter : enter none line = none := by
      simp [enter, hline]
    obtain ⟨hinside, hopened⟩ := ih hrest
    constructor
    · rw [linesInside, henter, if_neg (by simp), hinside]
    · rw [List.foldl_cons, henter, hopened]

theorem namesIn_eq_nil (h : ∀ line ∈ lines, classify line = none) : namesIn group lines = [] := by
  have hnone : lines.filterMap classify = [] := List.filterMap_eq_nil_iff.2 h
  rw [namesIn, hnone]
  rfl

/-- **The first signals inside the module.** The names of a body are the first ones that are
declared inside the module of the first header, if they stand before every boundary. -/
theorem IsCut.namesIn_prefix (h : IsCut lines before header body marker after)
    (hbody : DeclaresBeforeBoundary body) (group : Group) :
    namesIn group body <+: namesIn group (linesInside (headerName header) none lines) := by
  obtain ⟨front, back, hsplit, hfront, hback⟩ : ∃ front back, body = front ++ back ∧
      (∀ line ∈ front, isBoundary line = false) ∧ ∀ line ∈ back, classify line = none := by
    refine ⟨body.takeWhile (!isBoundary ·), body.dropWhile (!isBoundary ·),
      List.takeWhile_append_dropWhile.symm, ?_, hbody⟩
    intro line hl
    simpa using List.mem_takeWhile_imp hl
  obtain ⟨hbefore, hopened⟩ :=
    linesInside_of_not_opensModule (headerName header) h.not_opensModule
  have henter : enter none header = some (headerName header) := by
    simp [enter, h.opensModule]
  have hnames : namesIn group body = namesIn group front := by
    rw [hsplit, namesIn_append, namesIn_eq_nil hback, List.append_nil]
  have hlines : linesInside (headerName header) none lines =
      front ++ linesInside (headerName header) (front.foldl enter (some (headerName header)))
        (back ++ marker :: after) := by
    rw [h.lines_eq, linesInside_append, hbefore, hopened, List.nil_append, linesInside, henter,
      if_neg (by simp), hsplit, List.append_assoc, linesInside_append, linesInside_eq_self hfront]
  rw [hnames, hlines, namesIn_append]
  exact List.prefix_append _ _

end Verilog

/-! ## Built layouts -/

namespace Generation

variable {tree : FileTree} {script : Path} {settings : Settings} {generated : Generated}

theorem mem_groupLines {moduleName line : Text} {group : Group} {names : List SignalName}
    (h : line ∈ Layout.groupLines moduleName (group, names)) :
    line = Layout.groupLabel group ∨ ∃ name ∈ names, line = Layout.traceLine moduleName name := by
  cases names with
  | nil => cases h
  | cons name names =>
    rcases List.mem_cons.1 h with rfl | h
    · exact .inl rfl
    · obtain ⟨other, ho, rfl⟩ := List.mem_map.1 h
      exact .inr ⟨other, ho, rfl⟩

theorem mem_layout_of_build (h : ((build script settings).outcome tree).value = .ok generated)
    {line : Text} (hl : line ∈ generated.layout.lines.drop 3) :
    (∃ group, line = Layout.groupLabel group) ∨ ∃ group, ∃ name ∈ generated.signals.group group,
      line = Layout.traceLine generated.sources.moduleName name := by
  obtain ⟨_, _, -, -, -, -, hlayout⟩ := value_build_eq_ok_iff.1 h
  rw [hlayout] at hl
  obtain ⟨entry, he, hl⟩ := List.mem_flatMap.1 hl
  obtain ⟨group, -, rfl⟩ := List.mem_map.1 he
  rcases mem_groupLines hl with rfl | ⟨name, hn, rfl⟩
  · exact .inl ⟨group, rfl⟩
  · exact .inr ⟨group, name, hn, rfl⟩

/-- **Where signals come from.** The block is the one behind the first header of the source,
whatever that header names, and the signals are those that are declared between this header and the
first marker after it. If no boundary stands before a declaration there, they are the first signals
declared inside the module that the header names. If moreover that is the module of the script,
every trace comes from a declaration inside the module that it names. -/
theorem signals_of_first_module
    (h : ((build script settings).outcome tree).value = .ok generated) :
    ∃ source before header body marker after,
      tree.read generated.sources.sourceFile = .ok source ∧
      IsCut (lines source) before header body marker after ∧
      Block.locate (lines source) =
        .ok ⟨headerName header, before.length + 1, numberFrom (before.length + 2) body⟩ ∧
      (∀ group, generated.signals.group group = namesIn group body) ∧
      (DeclaresBeforeBoundary body → ∀ group, generated.signals.group group <+:
        namesIn group (linesInside (headerName header) none (lines source))) ∧
      (headerName header = generated.sources.moduleName → DeclaresBeforeBoundary body →
        ∀ line ∈ generated.layout.lines.drop 3, (∃ group, line = Layout.groupLabel group) ∨
          ∃ group, ∃ name ∈ namesIn group
              (linesInside generated.sources.moduleName none (lines source)),
            line = Layout.traceLine generated.sources.moduleName name) := by
  obtain ⟨source, block, -, hread, hblock, hsignals, -⟩ := value_build_eq_ok_iff.1 h
  obtain ⟨before, header, body, marker, after, hcut, rfl⟩ := locate_eq_ok_iff.1 hblock
  have hnames : ∀ group, generated.signals.group group = namesIn group body := by
    intro group
    rw [hsignals, Block.group_signals, map_text_numberFrom]
  have hfirst : DeclaresBeforeBoundary body → ∀ group, generated.signals.group group <+:
      namesIn group (linesInside (headerName header) none (lines source)) := by
    intro hbody group
    rw [hnames]
    exact hcut.namesIn_prefix hbody group
  refine ⟨source, before, header, body, marker, after, hread, hcut, hblock, hnames, hfirst, ?_⟩
  intro hheader hbody line hl
  rcases mem_layout_of_build h hl with hlabel | ⟨group, name, hn, rfl⟩
  · exact .inl hlabel
  · refine .inr ⟨group, name, ?_, rfl⟩
    rw [← hheader]
    exact (hfirst hbody group).mem hn

theorem trace_of_single_module :
    let source : Text := "module m (\ninput a,\nalways @*\nendmodule\n"
    ∃ generated,
      ((build ⟨"run.sh"⟩ .defaults).outcome (exampleTree "m" source)).value = .ok generated ∧
      ∀ line ∈ generated.layout.lines.drop 3, (∃ group, line = Layout.groupLabel group) ∨
        ∃ group, ∃ name ∈ namesIn group (linesInside "m" none (lines source)),
          line = Layout.traceLine "m" name := by
  intro source
  have h : ((build ⟨"run.sh"⟩ .defaults).outcome (exampleTree "m" source)).value =
      .ok ⟨⟨"m", ⟨"run.sh"⟩, ⟨"top.prj"⟩, ⟨"m.v"⟩⟩, ⟨[⟨"a", none⟩], [], []⟩,
        .ofSignals "m" ⟨[⟨"a", none⟩], [], []⟩ ⟨1900, 900⟩⟩ := by decide +kernel
  obtain ⟨text, before, header, body, marker, after, hread, -, hblock, -, -, htraces⟩ :=
    signals_of_first_module h
  have hsource : (exampleTree "m" source).read ⟨"m.v"⟩ = .ok source := by decide +kernel
  have hlocate : Block.locate (lines source) = .ok ⟨"m", 1, [⟨2, "input a,"⟩]⟩ := by
    decide +kernel
  obtain rfl : source = text := Except.ok.inj (hsource.symm.trans hread)
  have heq := Except.ok.inj (hlocate.symm.trans hblock)
  have hbody : [("input a," : Text)] = body := by
    have htexts := congrArg (fun block => block.lines.map (·.text)) heq
    rwa [map_text_numberFrom] at htexts
  refine ⟨_, h, htraces (congrArg Block.moduleName heq).symm ?_⟩
  rw [← hbody]
  decide +kernel

/-- **A helper module is taken for the module of the script.** The first header need not name the
module of the script, and a signal need not be declared inside it. -/
theorem helper_signals_shown :
    ¬ ∀ (tree : FileTree) (script : Path) (settings : Settings) (generated : Generated),
      ((build script settings).outcome tree).value = .ok generated →
      ∀ source block, tree.read generated.sources.sourceFile = .ok source →
        Block.locate (lines source) = .ok block →
        block.moduleName = generated.sources.moduleName ∧
          DeclaresBeforeBoundary (block.lines.map (·.text)) ∧
          ∀ group, ∀ name ∈ generated.signals.group group, name ∈ namesIn group
            (linesInside generated.sources.moduleName none (lines source)) := by
  intro hall
  let source : Text :=
    "module helper (\ninput a,\nalways @*\nendmodule\nmodule top (\ninput b,\nalways @*\n"
  have h : ((build ⟨"run.sh"⟩ .defaults).outcome (exampleTree "top" source)).value =
      .ok ⟨⟨"top", ⟨"run.sh"⟩, ⟨"top.prj"⟩, ⟨"top.v"⟩⟩, ⟨[⟨"a", none⟩], [], []⟩,
        .ofSignals "top" ⟨[⟨"a", none⟩], [], []⟩ ⟨1900, 900⟩⟩ := by decide +kernel
  have hsource : (exampleTree "top" source).read ⟨"top.v"⟩ = .ok source := by decide +kernel
  have hblock : Block.locate (lines source) = .ok ⟨"helper", 1, [⟨2, "input a,"⟩]⟩ := by
    decide +kernel
  obtain ⟨-, -, hinside⟩ := hall _ _ _ _ h source _ hsource hblock
  exact absurd (hinside .inputs ⟨"a", none⟩ List.mem_cons_self) (by decide +kernel)

end Generation

end WaveLayout

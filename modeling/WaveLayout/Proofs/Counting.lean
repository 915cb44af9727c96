import WaveLayout.Proofs.Decoding

/-!
# Counting traces

The number of traces in a layout is not stored. It is found again from the first character of each
line: a dash stands for a label and an opening bracket for a directive, and every other line is
counted.

A trace starts as the name of its module does, and that name is a word of the script. Discovery
takes a word with a dash in front for an option, but it lets a word with a bracket in front pass.

**Theorem.** No label and no directive is counted. The traces are counted all together or not at
all: if the name of the module starts with a bracket, each of them is taken for a directive. So the
count is the number of signals exactly if the name does not start with a bracket or there is no
signal.
-/

namespace WaveLayout

open Project (IsModuleWord)

namespace Layout

variable {moduleName : Text}

/-- The traces of the signals, group by group. -/
def traces (moduleName : Text) (signals : Signals) : List Text :=
  Group.all.flatMap fun group => (signals.group group).map (traceLine moduleName)

theorem length_traces (moduleName : Text) (signals : Signals) :
    (traces moduleName signals).length = signals.size := by
  simp [traces, Group.all, Signals.group, Signals.size, Nat.add_assoc]

theorem filter_isTrace_groupLines (moduleName : Text) (group : Group) (names : List SignalName) :
    (groupLines moduleName (group, names)).filter isTrace =
      (names.map (traceLine moduleName)).filter isTrace := by
  cases names with
  | nil => rfl
  | cons name names =>
    have hlabel : isTrace (groupLabel group) = false := rfl
    rw [groupLines, List.filter_cons_of_neg (by simp [hlabel])]

theorem filter_isTrace_lines (moduleName : Text) (signals : Signals) (window : WindowSize) :
    (ofSignals moduleName signals window).lines.filter isTrace =
      (traces moduleName signals).filter isTrace := by
  have hsize : isTrace (sizeLine window) = false := rfl
  have htitle : isTrace ("-" ++ moduleName) = false := rfl
  have hmarker : isTrace startMarker = false := rfl
  simp only [ofSignals, List.filter_cons, hmarker, hsize, htitle, Bool.false_eq_true, if_false,
    traces, Signals.groups, List.flatMap_map, List.filter_flatMap, filter_isTrace_groupLines]

theorem isTrace_traceLine (hm : IsModuleWord moduleName) (name : SignalName) :
    isTrace (traceLine moduleName name) = true ↔ moduleName.head? ≠ some '[' := by
  have hhead := hm.head?_ne
  cases moduleName with
  | nil => exact absurd rfl hm.ne_nil
  | cons c rest =>
    have hdash : c ≠ '-' := by simpa using hhead
    simp [isTrace, traceLine, hdash]

/-- The traces of a module are counted all together or not at all. -/
theorem filter_isTrace_traces (hm : IsModuleWord moduleName) (signals : Signals) :
    (traces moduleName signals).filter isTrace =
      if moduleName.head? = some '[' then [] else traces moduleName signals := by
  have htrace : ∀ line ∈ traces moduleName signals,
      (isTrace line = true ↔ moduleName.head? ≠ some '[') := by
    intro line hl
    obtain ⟨group, -, hl⟩ := List.mem_flatMap.1 hl
    obtain ⟨name, -, rfl⟩ := List.mem_map.1 hl
    exact isTrace_traceLine hm name
  by_cases hbracket : moduleName.head? = some '['
  · rw [if_pos hbracket, List.filter_eq_nil_iff]
    intro line hl htrue
    exact (htrace line hl).1 htrue hbracket
  · rw [if_neg hbracket, List.filter_eq_self]
    intro line hl
    exact (htrace line hl).2 hbracket

end Layout

/-! ## Built layouts -/

namespace Generation

open Layout

variable {tree : FileTree} {script : Path} {settings : Settings} {generated : Generated}

/-- **Which lines are counted.** In a built layout they are the traces of all signals in order,
unless the name of the module starts with a bracket. Then no line is counted, so the count is the
number of signals only if there is none. -/
theorem traces_counted_iff (h : ((build script settings).outcome tree).value = .ok generated) :
    let name := generated.sources.moduleName
    (generated.layout.lines.filter isTrace =
      if name.head? = some '[' then [] else traces name generated.signals) ∧
    (generated.layout.traceCount = generated.signals.size ↔
      name.head? ≠ some '[' ∨ generated.signals.size = 0) := by
  intro name
  have hlines : generated.layout.lines.filter isTrace =
      if name.head? = some '[' then [] else traces name generated.signals := by
    rw [layout_of_build h, filter_isTrace_lines, filter_isTrace_traces (isModuleWord_of_build h)]
  refine ⟨hlines, ?_⟩
  rw [traceCount, List.countP_eq_length_filter, hlines]
  by_cases hbracket : name.head? = some '['
  · simp [hbracket, eq_comm]
  · simp [hbracket, length_traces]

theorem inner_bracket_counted :
    ∃ generated,
      ((build ⟨"run.sh"⟩ .defaults).outcome
        (exampleTree "m[0]" "module m (\ninput [7:0] a,\nreg a;\nalways @*\n")).value =
          .ok generated ∧
      generated.layout.traceCount = 2 := by
  have h : ((build ⟨"run.sh"⟩ .defaults).outcome
      (exampleTree "m[0]" "module m (\ninput [7:0] a,\nreg a;\nalways @*\n")).value =
    .ok ⟨⟨"m[0]", ⟨"run.sh"⟩, ⟨"top.prj"⟩, ⟨"m[0].v"⟩⟩,
      ⟨[⟨"a", some ⟨"7", "0"⟩⟩], [], [⟨"a", none⟩]⟩,
      .ofSignals "m[0]" ⟨[⟨"a", some ⟨"7", "0"⟩⟩], [], [⟨"a", none⟩]⟩ ⟨1900, 900⟩⟩ := by
    decide +kernel
  exact ⟨_, h, (traces_counted_iff h).2.2 (.inl (by decide))⟩

/-- **A trace can be taken for a directive.** The number of traces that is found again need not be
the number of signals. -/
theorem bracketed_module_not_counted :
    ¬ ∀ (tree : FileTree) (script : Path) (settings : Settings) (generated : Generated),
      ((build script settings).outcome tree).value = .ok generated →
        generated.layout.traceCount = generated.signals.size := by
  intro hall
  have h : ((build ⟨"run.sh"⟩ .defaults).outcome
      (exampleTree "[m" "module m (\ninput a,\nalways @*\n")).value =
    .ok ⟨⟨"[m", ⟨"run.sh"⟩, ⟨"top.prj"⟩, ⟨"[m.v"⟩⟩, ⟨[⟨"a", none⟩], [], []⟩,
      .ofSignals "[m" ⟨[⟨"a", none⟩], [], []⟩ ⟨1900, 900⟩⟩ := by decide +kernel
  exact absurd (hall _ _ _ _ h) (by decide)

end Generation

end WaveLayout

import WaveLayout.Proofs.Blocks
import WaveLayout.Proofs.Discovery

/-!
# Reading a layout back

The text of a layout determines what it was made from. The **decoder** `Layout.decode?` finds the
name of the module, the size of the window and every name of every group.

- **Lines.** No line of a layout holds a line break, so the lines are found as they were.
- **Title.** The third line is the title, whatever it says. A module called `Inputs:` has the title
  of a group.
- **Traces.** A trace starts with the name of the module, which does not start with a dash. So the
  traces of a group end at the next label or at the end.
- **Names.** The name of the module is cut off by its length, since it may hold dots and brackets.
  An identifier holds no bracket and a bound holds no delimiter, so what is left is cut at the
  first bracket and at the first colon.
-/

namespace WaveLayout

open Text Verilog

open Project (IsModuleWord)

namespace Layout

/-! ## The decoder -/

/-- What a layout shows. -/
structure Contents where
  moduleName : Text
  window : WindowSize
  signals : Signals
  deriving DecidableEq, Repr

/-- The name that is rendered as the text. -/
def decodeName (s : Text) : SignalName :=
  match splitAtFirst (· == '[') s with
  | none => ⟨s, none⟩
  | some (base, _, bounds) =>
    ⟨base, (splitAtFirst (· == ':') bounds.dropLast).map fun (msb, _, lsb) => ⟨msb, lsb⟩⟩

/-- The name in a trace of the module. -/
def decodeTrace (moduleName line : Text) : SignalName :=
  decodeName (line.drop (moduleName.length + 1))

/-- The line is a label. -/
def isLabel (line : Text) : Bool := line.head? == some '-'

/-- The traces of a group, if its label is at the front of the lines, and the lines after them. -/
def splitGroup (group : Group) : List Text → List Text × List Text
  | [] => ([], [])
  | line :: rest =>
    if line = groupLabel group then
      (rest.takeWhile (!isLabel ·), rest.dropWhile (!isLabel ·))
    else ([], line :: rest)

/-- The names in groups that follow each other. -/
def decodeGroups (moduleName : Text) : List Group → List Text → List (List SignalName)
  | [], _ => []
  | group :: groups, lines =>
    let (traces, rest) := splitGroup group lines
    traces.map (decodeTrace moduleName) :: decodeGroups moduleName groups rest

/-- The window size in the directive. -/
def decodeWindow? (line : Text) : Option WindowSize :=
  match words line with
  | [_, width, height] =>
    some ⟨.ofNat (Nat.ofDigitChars 10 width 0), .ofNat (Nat.ofDigitChars 10 height 0)⟩
  | _ => none

/-- What the layout with the text shows. -/
def decode? (text : Text) : Option Contents :=
  match Text.lines text with
  | _ :: size :: title :: body =>
    let moduleName := title.tail
    match decodeWindow? size, decodeGroups moduleName Group.all body with
    | some window, [inputs, outputs, internals] =>
      some ⟨moduleName, window, ⟨inputs, outputs, internals⟩⟩
    | _, _ => none
  | _ => none

/-! ## Names -/

theorem ne_bracket_of_isName {token : Text} (h : IsName token) :
    ∀ c ∈ token, (c == '[') = false := by
  intro c hc
  refine beq_eq_false_iff_ne.2 ?_
  rintro rfl
  exact absurd (not_isRangeDelimiter_of_isName h '[' hc) (by decide)

theorem ne_colon_of_isCleanBound {bound : Text} (h : IsCleanBound bound) :
    ∀ c ∈ bound, (c == ':') = false := by
  intro c hc
  refine beq_eq_false_iff_ne.2 ?_
  rintro rfl
  exact absurd (h.2 ':' hc).2 (by decide)

/-- **Names are read back.** -/
theorem decodeName_render {name : SignalName} (h : WellFormed name) :
    decodeName name.render = name := by
  obtain ⟨base, range⟩ := name
  have hbase := ne_bracket_of_isName h.base_name
  cases range with
  | none =>
    show decodeName base = ⟨base, none⟩
    rw [decodeName, splitAtFirst_eq_none_iff.2 hbase]
  | some range =>
    obtain ⟨msb, lsb⟩ := range
    have hmsb := ne_colon_of_isCleanBound (h.bounds _ rfl).1
    have hrender : SignalName.render ⟨base, some ⟨msb, lsb⟩⟩ =
        base ++ '[' :: ((msb ++ ':' :: lsb) ++ [']']) := by
      simp [SignalName.render, BitRange.render]
    rw [hrender, decodeName, splitAtFirst_append_cons hbase rfl]
    dsimp only
    rw [List.dropLast_concat, splitAtFirst_append_cons hmsb rfl]
    rfl

theorem not_isBlank_render {name : SignalName} (h : WellFormed name) :
    ∀ c ∈ name.render, isBlank c = false :=
  fun c hc => isBlank_eq_false_of_not_isSeparator (h.not_isSeparator c hc)

theorem decodeTrace_traceLine {moduleName : Text} {name : SignalName} (h : WellFormed name) :
    decodeTrace moduleName (traceLine moduleName name) = name := by
  have hlength : (moduleName ++ ("." : Text)).length = moduleName.length + 1 := by simp
  rw [decodeTrace, traceLine, ← hlength, List.drop_left, decodeName_render h]

/-! ## Window sizes -/

theorem words_sizeLine (window : WindowSize) :
    words (sizeLine window) =
      [("[size]" : Text), ofNat window.width.toNat, ofNat window.height.toNat] := by
  have hsize : ∀ width height : Text,
      "[size] " ++ width ++ " " ++ height =
        ("[size]" : Text) ++ ' ' :: (width ++ ' ' :: height) := by
    simp
  have hspace : isBlank ' ' = true := by decide
  have hdirective : words "[size]" = [("[size]" : Text)] := by decide
  unfold sizeLine
  rw [hsize, words, wordsBy_append_cons hspace, wordsBy_append_cons hspace]
  show words _ ++ (words _ ++ words _) = _
  rw [hdirective, words_ofNat, words_ofNat]
  rfl

theorem decodeWindow?_sizeLine (window : WindowSize) :
    decodeWindow? (sizeLine window) = some window := by
  have hnumber : ∀ n, Nat.ofDigitChars 10 (ofNat n) 0 = n := fun n =>
    Nat.ofDigitChars_ten_toDigits
  rw [decodeWindow?, words_sizeLine]
  simp only [hnumber, UInt32.ofNat_toNat]

/-! ## Groups -/

theorem groupLabel_injective {g h : Group} (heq : groupLabel g = groupLabel h) : g = h := by
  cases g <;> cases h <;> first | rfl | exact absurd heq (by decide)

theorem isLabel_groupLabel (group : Group) : isLabel (groupLabel group) = true := rfl

variable {moduleName : Text} {signals : Signals}

theorem not_isLabel_traceLine (hm : IsModuleWord moduleName) (name : SignalName) :
    isLabel (traceLine moduleName name) = false := by
  have hne := hm.head?_ne
  cases moduleName with
  | nil => exact absurd rfl hm.ne_nil
  | cons c rest => simpa [isLabel, traceLine] using hne

/-- What is at the front of groups is the label of one of them. -/
theorem head?_flatMap_groupLines {groups : List (Group × List SignalName)} {line : Text}
    (h : (groups.flatMap (groupLines moduleName)).head? = some line) :
    ∃ group ∈ groups.map (·.1), line = groupLabel group := by
  induction groups with
  | nil => cases h
  | cons entry rest ih =>
    obtain ⟨group, names⟩ := entry
    cases names with
    | nil =>
      obtain ⟨other, ho, hl⟩ := ih h
      exact ⟨other, List.mem_cons_of_mem _ ho, hl⟩
    | cons name names => exact ⟨group, List.mem_cons_self, (Option.some.inj h).symm⟩

/-- A group is split off in front of lines that start with the label of another group. -/
theorem splitGroup_groupLines (hm : IsModuleWord moduleName) (group : Group)
    (names : List SignalName) {rest : List Text}
    (hrest : ∀ line, rest.head? = some line → isLabel line = true ∧ line ≠ groupLabel group) :
    splitGroup group (groupLines moduleName (group, names) ++ rest) =
      (names.map (traceLine moduleName), rest) := by
  cases names with
  | nil =>
    cases rest with
    | nil => rfl
    | cons line rest => exact if_neg (hrest line rfl).2
  | cons name names =>
    have htraces : ∀ line ∈ (name :: names).map (traceLine moduleName), (!isLabel line) = true := by
      intro line hl
      obtain ⟨other, -, rfl⟩ := List.mem_map.1 hl
      rw [not_isLabel_traceLine hm]
      rfl
    rw [groupLines, List.cons_append, splitGroup, if_pos rfl,
      List.takeWhile_append_of_pos htraces, List.dropWhile_append_of_pos htraces]
    cases rest with
    | nil => simp
    | cons line rest => simp [(hrest line rfl).1]

/-- **Groups are read back**, if no two of them have the same label. -/
theorem decodeGroups_flatMap_groupLines (hm : IsModuleWord moduleName)
    {groups : List (Group × List SignalName)} (hd : (groups.map (·.1)).Nodup)
    (hw : ∀ entry ∈ groups, ∀ name ∈ entry.2, WellFormed name) :
    decodeGroups moduleName (groups.map (·.1)) (groups.flatMap (groupLines moduleName)) =
      groups.map (·.2) := by
  induction groups with
  | nil => rfl
  | cons entry rest ih =>
    obtain ⟨group, names⟩ := entry
    obtain ⟨hgroup, hd⟩ := List.nodup_cons.1 hd
    obtain ⟨hnames, hw⟩ := List.forall_mem_cons.1 hw
    have hrest : ∀ line, (rest.flatMap (groupLines moduleName)).head? = some line →
        isLabel line = true ∧ line ≠ groupLabel group := by
      intro line hl
      obtain ⟨other, ho, rfl⟩ := head?_flatMap_groupLines hl
      refine ⟨isLabel_groupLabel other, fun heq => hgroup ?_⟩
      rw [← groupLabel_injective heq]
      exact ho
    have htraces : (names.map (traceLine moduleName)).map (decodeTrace moduleName) = names := by
      rw [List.map_map]
      refine (List.map_congr_left fun name hn => ?_).trans (List.map_id names)
      exact decodeTrace_traceLine (hnames name hn)
    rw [List.map_cons, List.flatMap_cons, decodeGroups, splitGroup_groupLines hm group names hrest]
    dsimp only
    rw [htraces, ih hd hw, List.map_cons]

/-! ## Lines -/

theorem isUnbroken_traceLine (hm : IsModuleWord moduleName) {name : SignalName}
    (h : WellFormed name) : IsUnbroken (traceLine moduleName name) := by
  have hdot : IsUnbroken "." := by decide
  exact ((isUnbroken_of_not_isBlank hm.not_isBlank).append hdot).append
    (isUnbroken_of_not_isBlank (not_isBlank_render h))

theorem isUnbroken_sizeLine (window : WindowSize) : IsUnbroken (sizeLine window) := by
  have hnumber : ∀ n, IsUnbroken (ofNat n) := fun n =>
    isUnbroken_of_not_isBlank (mem_words (s := ofNat n) (by simp [words_ofNat])).2
  have hdirective : IsUnbroken "[size] " := by decide
  have hspace : IsUnbroken " " := by decide
  exact ((hdirective.append (hnumber _)).append hspace).append (hnumber _)

theorem isUnbroken_of_mem_groupLines (hm : IsModuleWord moduleName) {group : Group}
    {names : List SignalName} (h : ∀ name ∈ names, WellFormed name) :
    ∀ line ∈ groupLines moduleName (group, names), IsUnbroken line := by
  cases names with
  | nil => exact fun line hl => absurd hl List.not_mem_nil
  | cons name names =>
    intro line hl
    rcases List.mem_cons.1 hl with rfl | hl
    · cases group <;> decide
    · obtain ⟨other, ho, rfl⟩ := List.mem_map.1 hl
      exact isUnbroken_traceLine hm (h other ho)

/-- The lines of the text are the lines of the layout. -/
theorem lines_text_ofSignals (hm : IsModuleWord moduleName)
    (hw : ∀ group, ∀ name ∈ signals.group group, WellFormed name) (window : WindowSize) :
    Text.lines (ofSignals moduleName signals window).text =
      (ofSignals moduleName signals window).lines := by
  have hlines : ∀ line ∈ (ofSignals moduleName signals window).lines, IsUnbroken line := by
    simp only [ofSignals, List.forall_mem_cons, List.forall_mem_flatMap, Signals.groups,
      List.forall_mem_map]
    refine ⟨?_, isUnbroken_sizeLine window, ?_, fun group _ => ?_⟩
    · decide
    · have hdash : IsUnbroken "-" := by decide
      exact hdash.append (isUnbroken_of_not_isBlank hm.not_isBlank)
    · exact isUnbroken_of_mem_groupLines hm (hw group)
  exact lines_flatMap_newline hlines

/-- **Layouts are read back.** -/
theorem decode?_text_ofSignals (hm : IsModuleWord moduleName)
    (hw : ∀ group, ∀ name ∈ signals.group group, WellFormed name) (window : WindowSize) :
    decode? (ofSignals moduleName signals window).text = some ⟨moduleName, window, signals⟩ := by
  have hnodup : (signals.groups.map (·.1)).Nodup := by
    show Group.all.Nodup
    decide
  have hnames : ∀ entry ∈ signals.groups, ∀ name ∈ entry.2, WellFormed name := by
    intro entry he
    obtain ⟨group, -, rfl⟩ := List.mem_map.1 he
    exact hw group
  have hgroups :
      decodeGroups moduleName Group.all (signals.groups.flatMap (groupLines moduleName)) =
        [signals.inputs, signals.outputs, signals.internals] :=
    decodeGroups_flatMap_groupLines hm hnodup hnames
  have htitle : (("-" : Text) ++ moduleName).tail = moduleName := rfl
  rw [decode?, lines_text_ofSignals hm hw]
  simp only [ofSignals, htitle, decodeWindow?_sizeLine, hgroups]

end Layout

/-! ## Built layouts -/

namespace Generation

variable {script : Path} {settings : Settings} {tree : FileTree} {generated : Generated}

theorem wellFormed_of_build
    (h : ((build script settings).outcome tree).value = .ok generated) :
    ∀ group, ∀ name ∈ generated.signals.group group, WellFormed name := by
  obtain ⟨_, block, -, -, -, hsignals, -⟩ := value_build_eq_ok_iff.1 h
  intro group name hn
  rw [hsignals] at hn
  exact Block.wellFormed_of_mem_group hn

theorem layout_of_build (h : ((build script settings).outcome tree).value = .ok generated) :
    generated.layout =
      .ofSignals generated.sources.moduleName generated.signals settings.window := by
  obtain ⟨_, _, -, -, -, -, hlayout⟩ := value_build_eq_ok_iff.1 h
  exact hlayout

theorem decode?_of_build (h : ((build script settings).outcome tree).value = .ok generated) :
    Layout.decode? generated.layout.text =
      some ⟨generated.sources.moduleName, settings.window, generated.signals⟩ := by
  rw [layout_of_build h]
  exact Layout.decode?_text_ofSignals (isModuleWord_of_build h) (wellFormed_of_build h) _

/-- **The text determines the layout.** The decoder finds what a built layout shows, its lines are
those of the text, and builds with the same text show the same. -/
theorem text_determines_build
    (h : ((build script settings).outcome tree).value = .ok generated) :
    Layout.decode? generated.layout.text =
        some ⟨generated.sources.moduleName, settings.window, generated.signals⟩ ∧
      Text.lines generated.layout.text = generated.layout.lines ∧
      ∀ (script' : Path) (settings' : Settings) (tree' : FileTree) (generated' : Generated),
        ((build script' settings').outcome tree').value = .ok generated' →
        generated'.layout.text = generated.layout.text →
          generated'.sources.moduleName = generated.sources.moduleName ∧
            settings'.window = settings.window ∧ generated'.signals = generated.signals := by
  refine ⟨decode?_of_build h, ?_, ?_⟩
  · rw [layout_of_build h]
    exact Layout.lines_text_ofSignals (isModuleWord_of_build h) (wellFormed_of_build h) _
  · intro script' settings' tree' generated' h' htext
    have hcontents := decode?_of_build h'
    rw [htext, decode?_of_build h] at hcontents
    simp only [Option.some.injEq, Layout.Contents.mk.injEq] at hcontents
    obtain ⟨hname, hwindow, hsignals⟩ := hcontents
    exact ⟨hname.symm, hwindow.symm, hsignals.symm⟩

/-- A module that is called like the label of a group is found again. -/
theorem inputs_determined_by_text :
    ∃ generated,
      ((build ⟨"run.sh"⟩ .defaults).outcome
        (exampleTree "Inputs:" "module m (\ninput [7:0] a,\nalways @*\n")).value = .ok generated ∧
      Layout.decode? generated.layout.text =
        some ⟨"Inputs:", ⟨1900, 900⟩, ⟨[⟨"a", some ⟨"7", "0"⟩⟩], [], []⟩⟩ := by
  have h : ((build ⟨"run.sh"⟩ .defaults).outcome
      (exampleTree "Inputs:" "module m (\ninput [7:0] a,\nalways @*\n")).value =
    .ok ⟨⟨"Inputs:", ⟨"run.sh"⟩, ⟨"top.prj"⟩, ⟨"Inputs:.v"⟩⟩, ⟨[⟨"a", some ⟨"7", "0"⟩⟩], [], []⟩,
      .ofSignals "Inputs:" ⟨[⟨"a", some ⟨"7", "0"⟩⟩], [], []⟩ ⟨1900, 900⟩⟩ := by decide +kernel
  exact ⟨_, h, (text_determines_build h).1⟩

end Generation

end WaveLayout

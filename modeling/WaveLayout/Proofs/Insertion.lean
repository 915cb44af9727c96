import WaveLayout.Layout
import WaveLayout.Proofs.Blocks

/-!
# One line more

A line is inserted into a source, somewhere between the first header and the first marker behind
it.

**Theorem.** There is a block again, with the same name and the same header line. It has the new
line at its place, and the lines behind that place have numbers that are one higher. If the line
declares nothing, the layout stays as it is. Otherwise the layout has one trace more, in the group
of the declaration, behind the traces of that group that are declared above the new line and in
front of those that are declared below it. If the group was empty, its label comes with the trace.

Nothing that is done to a line looks at other lines, but for the search for the header and the
marker, and neither is moved. So the names of a group are those from above the new line, the one
from the line itself, and those from below (`namesIn_append`), and a layout changes only where the
names of a group do (`addsTrace_ofSignals`).
-/

namespace WaveLayout

open Text

/-! ## Places for a line -/

namespace Text

/-- The text is cut behind a newline, with the given number of lines in front. -/
structure CutsLines (source : Text) (count : Nat) (front back : Text) : Prop where
  source_eq : source = front ++ back
  getLast?_front : front.getLast? = some '\n'
  length_lines : (lines front).length = count

theorem exists_cutsLines {source : Text} {count : Nat} (hpos : 0 < count)
    (hlt : count < (lines source).length) : ∃ front back, CutsLines source count front back := by
  induction source using runInduction (· == '\n') generalizing count with
  | last run hr =>
    have hlines : (lines run).length ≤ 1 := by
      have hrun : '\n' ∉ run := fun hm => by simpa using hr '\n' hm
      rw [lines, List.splitOn_eq_singleton hrun]
      cases run <;> simp
    omega
  | cut run c rest hr hc _ ih =>
    obtain rfl : c = '\n' := by simpa using hc
    have hrun : '\n' ∉ run := fun hm => by simpa using hr '\n' hm
    rw [lines_append_newline hrun, List.length_cons] at hlt
    by_cases hone : count = 1
    · refine ⟨run ++ ['\n'], rest, by simp, by simp, ?_⟩
      rw [lines_append_newline hrun, hone]
      rfl
    · have hbefore : 0 < count - 1 := by omega
      obtain ⟨front, back, hcut⟩ := ih hbefore (by omega)
      refine ⟨run ++ '\n' :: front, back, by simp [hcut.source_eq], ?_, ?_⟩
      · rw [List.getLast?_append, List.getLast?_cons, hcut.getLast?_front]
        rfl
      · rw [lines_append_newline hrun, List.length_cons, hcut.length_lines]
        omega

/-- The ends that a line can have. -/
def lineEnds : List Text := ["\n", "\r\n"]

/-- An inserted line is read as it is, between the lines in front of it and behind it. -/
theorem CutsLines.lines_insert {source front back line ending : Text} {count : Nat}
    (h : CutsLines source count front back) (hline : IsUnbroken line)
    (hending : ending ∈ lineEnds) :
    lines (front ++ (line ++ (ending ++ back))) = lines front ++ line :: lines back := by
  have hnewline : '\n' ∉ line := fun hm => (hline '\n' hm).1 rfl
  rw [lines_append_of_getLast? h.getLast?_front]
  congr 1
  rcases List.mem_pair.1 hending with rfl | rfl
  · exact (lines_append_newline hnewline back).trans (by rw [dropReturn_of_isUnbroken hline])
  · have hreturn : '\n' ∉ line ++ ['\r'] := by simp [hnewline]
    have hdrop : dropReturn (line ++ ['\r']) = line := by simp [dropReturn]
    rw [← hdrop, ← lines_append_newline hreturn back, hdrop, List.append_assoc]
    rfl

end Text

namespace Verilog

variable {lines before earlier later after : List Text} {header marker line : Text}

/-! ## Blocks with one line more -/

theorem IsCut.insert (h : IsCut lines before header (earlier ++ later) marker after)
    (hline : ¬ OpensProcedure line) :
    IsCut (before ++ header :: (earlier ++ line :: later) ++ marker :: after) before header
      (earlier ++ line :: later) marker after where
  lines_eq := by simp
  not_opensModule := h.not_opensModule
  opensModule := h.opensModule
  not_opensProcedure := by
    obtain ⟨hearlier, hlater⟩ := List.forall_mem_append.1 h.not_opensProcedure
    exact List.forall_mem_append.2 ⟨hearlier, List.forall_mem_cons.2 ⟨hline, hlater⟩⟩
  opensProcedure := h.opensProcedure

theorem numberFrom_append (first : Nat) (xs ys : List Text) :
    numberFrom first (xs ++ ys) = numberFrom first xs ++ numberFrom (first + xs.length) ys := by
  rw [numberFrom, List.zipIdx_append, List.map_append]
  rfl

theorem numberFrom_succ (first : Nat) (xs : List Text) :
    numberFrom (first + 1) xs =
      (numberFrom first xs).map fun line => { line with number := line.number + 1 } := by
  rw [numberFrom, List.zipIdx_succ, numberFrom, List.map_map, List.map_map]
  rfl

theorem numberFrom_insert (first : Nat) (earlier later : List Text) (line : Text) :
    numberFrom first (earlier ++ line :: later) =
      (numberFrom first (earlier ++ later)).take earlier.length ++
        ⟨first + earlier.length, line⟩ ::
          ((numberFrom first (earlier ++ later)).drop earlier.length).map
            fun line => { line with number := line.number + 1 } := by
  have hlength : (numberFrom first earlier).length = earlier.length := by simp [numberFrom]
  rw [numberFrom_append, numberFrom_append, List.take_left' hlength, List.drop_left' hlength,
    ← numberFrom_succ]
  rfl

namespace Block

/-- The block with one line more, in front of the line with the index. The lines from there on have
numbers that are one higher. -/
def insert (block : Block) (index : Nat) (line : Text) : Block :=
  { block with
    lines := block.lines.take index ++ ⟨block.headerLine + 1 + index, line⟩ ::
      (block.lines.drop index).map fun line => { line with number := line.number + 1 } }

/-- The texts of the lines in front of the index. -/
def textsAbove (block : Block) (index : Nat) : List Text := (block.lines.take index).map (·.text)

/-- The texts of the lines from the index on. -/
def textsBelow (block : Block) (index : Nat) : List Text := (block.lines.drop index).map (·.text)

variable {block : Block} {source front back ending : Text} {index : Nat}

theorem map_text_insert (block : Block) (index : Nat) (line : Text) :
    (block.insert index line).lines.map (·.text) =
      block.textsAbove index ++ line :: block.textsBelow index := by
  simp [insert, textsAbove, textsBelow, Function.comp_def]

theorem map_text_eq (block : Block) (index : Nat) :
    block.lines.map (·.text) = block.textsAbove index ++ block.textsBelow index := by
  rw [textsAbove, textsBelow, ← List.map_append, List.take_append_drop]

/-- **The block with one line more.** The line is inserted anywhere between the header and the
marker. -/
theorem locate_insert (hblock : locate (Text.lines source) = .ok block)
    (hindex : index ≤ block.lines.length)
    (hcut : CutsLines source (block.headerLine + index) front back) (hending : ending ∈ lineEnds)
    (hline : IsUnbroken line) (hmarker : ¬ OpensProcedure line) :
    locate (Text.lines (front ++ (line ++ (ending ++ back)))) = .ok (block.insert index line) := by
  obtain ⟨before, header, body, marker, after, hof, rfl⟩ := locate_eq_ok_iff.1 hblock
  obtain ⟨earlier, later, rfl, rfl⟩ :
      ∃ earlier later, body = earlier ++ later ∧ earlier.length = index := by
    have hlength : index ≤ body.length := by simpa [numberFrom] using hindex
    exact ⟨body.take index, body.drop index, (List.take_append_drop index body).symm,
      List.length_take_of_le hlength⟩
  -- The front of the source reaches up to the earlier lines of the body.
  have hlines : Text.lines front ++ Text.lines back =
      (before ++ header :: earlier) ++ (later ++ marker :: after) := by
    rw [← lines_append_of_getLast? hcut.getLast?_front, ← hcut.source_eq, hof.lines_eq]
    simp
  have hlength : (Text.lines front).length = (before ++ header :: earlier).length := by
    rw [hcut.length_lines, List.length_append, List.length_cons]
    dsimp only
    omega
  obtain ⟨hfront, hback⟩ := List.append_inj hlines hlength
  have hinserted : Text.lines (front ++ (line ++ (ending ++ back))) =
      before ++ header :: (earlier ++ line :: later) ++ marker :: after := by
    rw [hcut.lines_insert hline hending, hfront, hback]
    simp
  rw [hinserted, (hof.insert hmarker).locate_eq, numberFrom_insert]
  rfl

end Block

/-! ## Signals with one line more -/

theorem namesIn_cons_of_none (h : classify line = none) (group : Group) (lines : List Text) :
    namesIn group (line :: lines) = namesIn group lines := by
  rw [namesIn, List.filterMap_cons_none h, namesIn]

theorem namesIn_cons_of_some {declaration : Declaration} (h : classify line = some declaration)
    (group : Group) (lines : List Text) :
    namesIn group (line :: lines) =
      if declaration.direction.group = group then declaration.name :: namesIn group lines
      else namesIn group lines := by
  rw [namesIn, List.filterMap_cons_some h, List.filter_cons, namesIn]
  simp only [decide_eq_true_eq]
  split <;> rfl

namespace Block

variable {block : Block} {index : Nat}

theorem group_signals_split (block : Block) (index : Nat) (group : Group) :
    block.signals.group group =
      namesIn group (block.textsAbove index) ++ namesIn group (block.textsBelow index) := by
  rw [group_signals, map_text_eq block index, namesIn_append]

theorem group_signals_insert (block : Block) (index : Nat) (line : Text) (group : Group) :
    (block.insert index line).signals.group group =
      namesIn group (block.textsAbove index) ++ namesIn group (line :: block.textsBelow index) := by
  rw [group_signals, map_text_insert, namesIn_append]

end Block

end Verilog

/-! ## Layouts with one trace more -/

namespace Layout

/-- The lines of a layout above a group. -/
def linesAbove (moduleName : Text) (signals : Signals) (window : WindowSize) (group : Group) :
    List Text :=
  startMarker :: sizeLine window :: ("-" ++ moduleName) ::
    (signals.groups.takeWhile (·.1 ≠ group)).flatMap (groupLines moduleName)

/-- The lines of a layout below a group. -/
def linesBelow (moduleName : Text) (signals : Signals) (group : Group) : List Text :=
  (signals.groups.dropWhile (·.1 ≠ group)).tail.flatMap (groupLines moduleName)

variable {moduleName : Text} {signals others : Signals} {window : WindowSize} {group : Group}
  {name : SignalName} {earlier later : List SignalName}

theorem lines_eq_around (moduleName : Text) (signals : Signals) (window : WindowSize)
    (group : Group) :
    (ofSignals moduleName signals window).lines =
      linesAbove moduleName signals window group ++
        (groupLines moduleName (group, signals.group group) ++
          linesBelow moduleName signals group) := by
  cases group <;> simp [ofSignals, linesAbove, linesBelow, Signals.groups, Group.all]

/-- The lines around a group depend on the other groups only. -/
theorem around_congr (moduleName : Text) (window : WindowSize)
    (h : ∀ other, other ≠ group → others.group other = signals.group other) :
    linesAbove moduleName others window group = linesAbove moduleName signals window group ∧
      linesBelow moduleName others group = linesBelow moduleName signals group := by
  cases group <;>
    simp_all [linesAbove, linesBelow, Signals.groups, Group.all]

/-- The second layout is the first one with a trace of the name more, in a group with the given
lines above and below it. It stands behind the traces of the earlier names and in front of those of
the later ones. A group without traces gets its label with the new one. -/
inductive AddsTrace (moduleName : Text) (group : Group) (name : SignalName)
    (above below : List Text) : List SignalName → List SignalName → Layout → Layout → Prop where
  | toNone :
    AddsTrace moduleName group name above below [] []
      ⟨above ++ below⟩
      ⟨above ++ groupLabel group :: traceLine moduleName name :: below⟩
  | toSome {earlier later : List SignalName} (h : earlier ++ later ≠ []) :
    AddsTrace moduleName group name above below earlier later
      ⟨above ++ groupLabel group ::
        (earlier.map (traceLine moduleName) ++ (later.map (traceLine moduleName) ++ below))⟩
      ⟨above ++ groupLabel group ::
        (earlier.map (traceLine moduleName) ++
          traceLine moduleName name :: (later.map (traceLine moduleName) ++ below))⟩

theorem groupLines_of_ne_nil {names : List SignalName} (h : names ≠ []) :
    groupLines moduleName (group, names) =
      groupLabel group :: names.map (traceLine moduleName) := by
  cases names with
  | nil => exact absurd rfl h
  | cons name names => rfl

/-- One name more in one group is one trace more. -/
theorem addsTrace_ofSignals (hgroup : signals.group group = earlier ++ later)
    (hwith : others.group group = earlier ++ name :: later)
    (hothers : ∀ other, other ≠ group → others.group other = signals.group other) :
    AddsTrace moduleName group name (linesAbove moduleName signals window group)
      (linesBelow moduleName signals group) earlier later
      (ofSignals moduleName signals window) (ofSignals moduleName others window) := by
  obtain ⟨habove, hbelow⟩ := around_congr moduleName window hothers
  have hbefore := lines_eq_around moduleName signals window group
  have hafter := lines_eq_around moduleName others window group
  rw [hgroup] at hbefore
  rw [hwith, habove, hbelow, groupLines_of_ne_nil (by simp)] at hafter
  generalize ofSignals moduleName signals window = before at hbefore ⊢
  generalize ofSignals moduleName others window = after at hafter ⊢
  obtain ⟨beforeLines⟩ := before
  obtain ⟨afterLines⟩ := after
  dsimp only at hbefore hafter
  subst hbefore hafter
  by_cases hempty : earlier ++ later = []
  · obtain ⟨rfl, rfl⟩ := List.append_eq_nil_iff.1 hempty
    exact .toNone
  · rw [groupLines_of_ne_nil hempty, List.map_append, List.map_append, List.map_cons,
      List.cons_append, List.cons_append, List.append_assoc, List.append_assoc, List.cons_append]
    exact .toSome hempty

end Layout

/-! ## One line and its trace -/

namespace Verilog.Block

open Layout

variable {source line : Text} {block : Block} {index : Nat}

theorem exists_place (hblock : locate (Text.lines source) = .ok block)
    (hindex : index ≤ block.lines.length) :
    ∃ front back, CutsLines source (block.headerLine + index) front back := by
  obtain ⟨before, header, body, marker, after, hof, rfl⟩ := locate_eq_ok_iff.1 hblock
  have hlength : index ≤ body.length := by simpa [numberFrom] using hindex
  refine exists_cutsLines (Nat.add_pos_left (Nat.succ_pos before.length) index) ?_
  rw [hof.lines_eq]
  simp only [List.length_append, List.length_cons]
  omega

/-- **One line more changes its own trace only.** There is a place for the line in front of each
line of the block and behind the last one. Inserted there, it is in the block at that place. If it
declares nothing, every layout of the signals stays as it is. Otherwise the layout has the trace of
the declaration more, between the traces that its group has from above the place and from below. -/
theorem inserted_line_adds_own_trace (hblock : locate (Text.lines source) = .ok block)
    (hindex : index ≤ block.lines.length) (hline : IsUnbroken line)
    (hmarker : ¬ OpensProcedure line) :
    (∃ front back, CutsLines source (block.headerLine + index) front back) ∧
    (∀ front back ending, CutsLines source (block.headerLine + index) front back →
      ending ∈ lineEnds →
        locate (Text.lines (front ++ (line ++ (ending ++ back)))) = .ok (block.insert index line)) ∧
    ∀ moduleName window,
      let before := ofSignals moduleName block.signals window
      let after := ofSignals moduleName (block.insert index line).signals window
      (classify line = none → after = before) ∧
      ∀ declaration, classify line = some declaration →
        let group := declaration.direction.group
        AddsTrace moduleName group declaration.name
          (linesAbove moduleName block.signals window group)
          (linesBelow moduleName block.signals group)
          (namesIn group (block.textsAbove index)) (namesIn group (block.textsBelow index))
          before after := by
  refine ⟨exists_place hblock hindex, ?_, ?_⟩
  · intro front back ending hcut hending
    exact locate_insert hblock hindex hcut hending hline hmarker
  · intro moduleName window before after
    constructor
    · intro hnone
      have hsignals : (block.insert index line).signals = block.signals := by
        apply Signals.ext_group
        intro group
        rw [group_signals_insert, namesIn_cons_of_none hnone, ← group_signals_split]
      rw [show after = before from congrArg (ofSignals moduleName · window) hsignals]
    · intro declaration hsome group
      apply addsTrace_ofSignals (group_signals_split block index group)
      · rw [group_signals_insert, namesIn_cons_of_some hsome, if_pos rfl]
      · intro other hother
        rw [group_signals_insert, namesIn_cons_of_some hsome, if_neg (Ne.symm hother),
          ← group_signals_split]

/-- A vector of a group that has a trace already is declared behind that one, in a source with both
ends of lines. -/
theorem vector_added_behind_scalar :
    let front : Text := "module m (\r\ninput b,\n"
    let back : Text := "reg a;\nalways @*\n"
    let line : Text := "inout [1:0] a,"
    let block : Block := ⟨"m", 1, [⟨2, "input b,"⟩, ⟨3, "reg a;"⟩]⟩
    locate (Text.lines (front ++ back)) = .ok block ∧ 1 ≤ block.lines.length ∧
      IsUnbroken line ∧ ¬ OpensProcedure line ∧ CutsLines (front ++ back) 2 front back ∧
      locate (Text.lines (front ++ (line ++ ("\r\n" ++ back)))) = .ok (block.insert 1 line) ∧
      block.insert 1 line = ⟨"m", 1, [⟨2, "input b,"⟩, ⟨3, line⟩, ⟨4, "reg a;"⟩]⟩ ∧
      classify line = some ⟨.inout, ⟨"a", some ⟨"1", "0"⟩⟩⟩ ∧
      AddsTrace "m" .inputs ⟨"a", some ⟨"1", "0"⟩⟩ ["[*]", "[size] 8 6", "-m"]
        ["-Internals:", "m.a"] [⟨"b", none⟩] []
        ⟨["[*]", "[size] 8 6", "-m", "-Inputs:", "m.b", "-Internals:", "m.a"]⟩
        ⟨["[*]", "[size] 8 6", "-m", "-Inputs:", "m.b", "m.a[1:0]", "-Internals:", "m.a"]⟩ := by
  intro front back line block
  have hblock : locate (Text.lines (front ++ back)) = .ok block := by decide +kernel
  have hindex : 1 ≤ block.lines.length := by decide
  have hline : IsUnbroken line := by decide
  have hmarker : ¬ OpensProcedure line := by decide
  have hcut : CutsLines (front ++ back) 2 front back := ⟨rfl, by decide, by decide +kernel⟩
  have hclassify : classify line = some ⟨.inout, ⟨"a", some ⟨"1", "0"⟩⟩⟩ := by decide +kernel
  obtain ⟨-, hlocate, htrace⟩ :=
    inserted_line_adds_own_trace hblock hindex hline hmarker
  exact ⟨hblock, hindex, hline, hmarker, hcut, hlocate _ _ _ hcut (by decide), rfl, hclassify,
    (htrace "m" ⟨8, 6⟩).2 _ hclassify⟩

end Verilog.Block

end WaveLayout

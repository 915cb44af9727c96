import WaveLayout.Proofs.Blocks

/-!
# What the log says about a block

Each line of a block can leave a name in a group of signals and an event in the log. The two are
kept apart, and whether a line is blank is judged by trimming while a declaration is found among
tokens.

**Theorem.** The events belong to the lines that are not blank, one to each and in order: the event
of a line has its number and says which signal the line declares, or that it is skipped. The names
of a group are read off the events that declare a signal. Both go with the lines: the lines of two
blocks together give what the blocks give, one after the other.

The two judgements agree because a declaration starts with a keyword, whose characters are not blank
(`classify_of_trim_eq_nil`). So a line that declares a signal always has an event.
-/

namespace WaveLayout

open Text

/-- The declaration that an event reports. -/
def Event.declaration? : Event → Option Declaration
  | .declared _ declaration => some declaration
  | _ => none

namespace Verilog

variable {line : Text} {numbered : NumberedLine} {event : Event}

/-! ## Events of a line -/

theorem classify_of_trim_eq_nil (h : trim line = []) : classify line = none := by
  cases hc : classify line with
  | none => rfl
  | some declaration =>
    obtain ⟨keyword, rest, hkeyword, -⟩ := classify_eq_some_iff.1 hc
    obtain ⟨hne, hchars⟩ := mem_wordsBy (List.mem_of_mem_head? hkeyword)
    obtain ⟨c, hc⟩ := List.exists_mem_of_ne_nil keyword hne
    obtain ⟨hseparator, hline⟩ := hchars c hc
    have hblank := trimBy_eq_nil_iff.1 h c hline
    rw [isBlank_eq_false_of_not_isSeparator hseparator] at hblank
    cases hblank

/-- The event has the number of the line and reports the declaration that the line makes. If it
makes none, the event says that the line is skipped. -/
def IsEventOf (line : NumberedLine) (event : Event) : Prop :=
  event.level = .debug ∧
    match classify line.text with
    | some declaration =>
      event = .declared line.number declaration ∧
        event.message = "line " ++ ofNat line.number ++ ": " ++ declaration.name.render ++ " -> " ++
          declaration.direction.label
    | none =>
      event = .skipped line.number (trim line.text) ∧
        event.message = "line " ++ ofNat line.number ++ ": skipped `" ++ trim line.text ++ "`"

theorem event?_of_trim_eq_nil (h : trim numbered.text = []) : numbered.event? = none := by
  rw [NumberedLine.event?, classify_of_trim_eq_nil h]
  exact if_pos h

theorem exists_event?_of_trim_ne_nil (h : trim numbered.text ≠ []) :
    ∃ event, numbered.event? = some event ∧ IsEventOf numbered event := by
  unfold NumberedLine.event? IsEventOf
  cases classify numbered.text with
  | some declaration => exact ⟨_, rfl, rfl, rfl, rfl⟩
  | none => exact ⟨_, if_neg h, rfl, rfl, rfl⟩

theorem declaration?_of_event? :
    numbered.event?.bind Event.declaration? = classify numbered.text := by
  unfold NumberedLine.event?
  cases classify numbered.text with
  | some declaration => rfl
  | none =>
    dsimp only
    split <;> rfl

/-! ## Events of a block -/

/-- The lines that are not blank. -/
def nonblankLines (lines : List NumberedLine) : List NumberedLine :=
  lines.filter fun line => trim line.text ≠ []

theorem forall₂_isEventOf (lines : List NumberedLine) :
    List.Forall₂ IsEventOf (nonblankLines lines) (lines.filterMap NumberedLine.event?) := by
  induction lines with
  | nil => exact .nil
  | cons line rest ih =>
    by_cases hblank : trim line.text = []
    · rw [List.filterMap_cons_none (event?_of_trim_eq_nil hblank), nonblankLines,
        List.filter_cons_of_neg (by simpa using hblank)]
      exact ih
    · obtain ⟨event, hevent, hof⟩ := exists_event?_of_trim_ne_nil hblank
      rw [List.filterMap_cons_some hevent, nonblankLines,
        List.filter_cons_of_pos (by simpa using hblank)]
      exact .cons hof ih

namespace Block

/-- The declarations of a block are those that its events report. -/
theorem filterMap_declaration?_events (block : Block) :
    block.events.filterMap Event.declaration? = block.declarations := by
  rw [events, declarations, List.filterMap_filterMap]
  simp only [declaration?_of_event?]

/-- The names that events report for a group, in order. -/
def reportedIn (group : Group) (events : List Event) : List SignalName :=
  ((events.filterMap Event.declaration?).filter (·.direction.group = group)).map (·.name)

theorem group_signals_eq_reportedIn (block : Block) (group : Group) :
    block.signals.group group = reportedIn group block.events := by
  rw [reportedIn, filterMap_declaration?_events, group_signals, declarations_eq, namesIn]

theorem size_signals (block : Block) :
    block.signals.size = block.events.countP (·.declaration?.isSome) := by
  rw [signals, Signals.size_ofDeclarations, ← filterMap_declaration?_events,
    List.length_filterMap_eq_countP]

/-- **What the log says.** The lines that are not blank have one event each, in order, with their
number and with what the classifier finds. The signals of a group are the names that the events
report for it, a blank line declares none, and as many signals are declared as events report one.
The lines of two blocks together give the signals and the events of the one and then of the
other. -/
theorem events_account_for_lines (block : Block) :
    List.Forall₂ IsEventOf (nonblankLines block.lines) block.events ∧
    (∀ group, block.signals.group group = reportedIn group block.events) ∧
    block.signals.size = block.events.countP (·.declaration?.isSome) ∧
    (∀ line, trim line = [] → classify line = none) ∧
    ∀ other : Block,
      let both : Block := { block with lines := block.lines ++ other.lines }
      (∀ group, both.signals.group group =
        block.signals.group group ++ other.signals.group group) ∧
      both.events = block.events ++ other.events := by
  refine ⟨forall₂_isEventOf block.lines, group_signals_eq_reportedIn block, size_signals block,
    fun line => classify_of_trim_eq_nil, ?_⟩
  intro other both
  constructor
  · intro group
    rw [group_signals, group_signals, group_signals, List.map_append, namesIn_append]
  · exact List.filterMap_append

/-- A line of blanks has no event, and a line with a separator only is skipped. A signal that is
declared twice has two events. -/
theorem separator_skipped :
    let block : Block :=
      ⟨"m", 1, [⟨2, "output a,"⟩, ⟨3, "\u00a0\u2003"⟩, ⟨4, " ; "⟩, ⟨5, "reg a;"⟩]⟩
    List.Forall₂ IsEventOf [⟨2, "output a,"⟩, ⟨4, " ; "⟩, ⟨5, "reg a;"⟩] block.events ∧
      block.events = [.declared 2 ⟨.output, ⟨"a", none⟩⟩, .skipped 4 ";",
        .declared 5 ⟨.internal, ⟨"a", none⟩⟩] ∧
      block.signals.size = 2 ∧ trim "\u00a0\u2003" = [] ∧ classify "\u00a0\u2003" = none := by
  intro block
  obtain ⟨hevents, -, hsize, hblank, -⟩ := events_account_for_lines block
  have hblanks : trim "\u00a0\u2003" = [] := by decide
  refine ⟨hevents, by decide, ?_, hblanks, hblank _ hblanks⟩
  rw [hsize]
  decide

end Block

end Verilog

end WaveLayout

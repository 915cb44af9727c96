import Mathlib
import WaveLayout.CommandLine

/-!
# Arrangements of a command line

The same values can be given in many **arrangements**. Positionals keep their order, options stand
anywhere between them, and an option has its value attached or in the next argument. Each
constructor of `Draft.Arranges` is one way to write the next argument.

**Theorem.** Every arrangement of the values says exactly these values. All values have one
(`Draft.exists_arranges`).

While the names in `names` are still to come, the draft is `values.without names`. This is said of
the draft after the value that waits is judged (`Progress.Reaches`), so it does not matter which
argument makes a value final. Each way to write an argument closes one name (`step_positional`,
`step_attached`, `step_separate`, `step_verbose`), and the induction over an arrangement ends with
no name to come (`Draft.Arranges.leadsTo`).
-/

namespace WaveLayout.CommandLine

/-! ## Written values -/

/-- The text is a decimal for the size. Leading zeros are allowed. -/
structure IsDecimal (size : UInt32) (text : Text) : Prop where
  ne_nil : text ≠ []
  isDigit : ∀ c ∈ text, c.isDigit = true
  value : Nat.ofDigitChars 10 text 0 = size.toNat

theorem IsDecimal.ofNat (size : UInt32) : IsDecimal size (Text.ofNat size.toNat) where
  ne_nil := Nat.toDigits_ne_nil
  isDigit _ hc := Nat.isDigit_of_mem_toDigits (by decide) (by decide) hc
  value := Nat.ofDigitChars_toDigits (by decide) (by decide)

/-- The text is the value for the place. -/
def Draft.Writes (values : Draft) : Slot → Text → Prop
  | .script, text => values.script = some ⟨text⟩
  | .width, text => ∃ size, values.width = some size ∧ IsDecimal size text
  | .height, text => ∃ size, values.height = some size ∧ IsDecimal size text
  | .format, text => values.format = some .gtkw ∧ text = "gtkw".toList ∨
      values.format = some .sav ∧ text = "sav".toList
  | .settingsFile, text => values.settingsFile = some ⟨text⟩
  | .outputDirectory, text => values.outputDirectory = some ⟨text⟩
  | .elaborateCommand, text => values.elaborateCommand = some text
  | .logLevel, text => values.logLevel = some text

/-- There is a value for the name. -/
def Draft.gives (values : Draft) : Named → Bool
  | .slot .script => values.script.isSome
  | .slot .width => values.width.isSome
  | .slot .height => values.height.isSome
  | .slot .format => values.format.isSome
  | .slot .settingsFile => values.settingsFile.isSome
  | .slot .outputDirectory => values.outputDirectory.isSome
  | .slot .elaborateCommand => values.elaborateCommand.isSome
  | .slot .logLevel => values.logLevel.isSome
  | .flag .verbose => values.verbose
  | .flag _ => false

/-- The places of the positionals that are given, in the order of a command line. -/
def Draft.givenPositionals (values : Draft) : List Slot :=
  ([.script, .width, .height, .format] : List Slot).filter fun slot => values.gives (.slot slot)

/-- What the given options stand for. -/
def Draft.givenOptions (values : Draft) : List Named :=
  ([.slot .settingsFile, .slot .outputDirectory, .slot .elaborateCommand, .slot .logLevel,
    .flag .verbose] : List Named).filter values.gives

/-- The long names of the options with a value. -/
def valueNames : List (Text × Slot) :=
  [("config", .settingsFile), ("out-dir", .outputDirectory), ("elaborate-cmd", .elaborateCommand),
   ("log-level", .logLevel)]

/-- The values can be given: paths are not empty, and a positional is given with all before it. -/
structure Draft.IsAdmissible (values : Draft) : Prop where
  script : ∀ path ∈ values.script, path.text ≠ []
  settingsFile : ∀ path ∈ values.settingsFile, path.text ≠ []
  outputDirectory : ∀ path ∈ values.outputDirectory, path.text ≠ []
  isPrefix : values.givenPositionals <+: [.script, .width, .height, .format]

/-! ## Arrangements -/

/-- The arguments give the values for the places, in this order, and those for the options, in this
order. Places and options mix freely. -/
inductive Draft.Arranges (values : Draft) : List Slot → List Named → List Text → Prop where
  | done : values.Arranges [] [] []
  /-- The positionals that remain stand behind `--`. -/
  | escaped {slots : List Slot} {texts : List Text} (h : List.Forall₂ values.Writes slots texts) :
      values.Arranges slots [] ("--" :: texts)
  | positional {slot : Slot} {slots : List Slot} {options : List Named} {value : Text}
      {arguments : List Text} (hvalue : values.Writes slot value) (hdash : value.head? ≠ some '-')
      (h : values.Arranges slots options arguments) :
      values.Arranges (slot :: slots) options (value :: arguments)
  /-- An option `--name=value` -/
  | attached {name : Text} {slot : Slot} {slots : List Slot} {options : List Named} {value : Text}
      {arguments : List Text} (hname : (name, slot) ∈ valueNames)
      (hvalue : values.Writes slot value) (h : values.Arranges slots options arguments) :
      values.Arranges slots (.slot slot :: options) (("--" ++ name ++ "=" ++ value) :: arguments)
  /-- An option `--name value` -/
  | separate {name : Text} {slot : Slot} {slots : List Slot} {options : List Named} {value : Text}
      {arguments : List Text} (hname : (name, slot) ∈ valueNames)
      (hvalue : values.Writes slot value) (hdash : value.head? ≠ some '-')
      (h : values.Arranges slots options arguments) :
      values.Arranges slots (.slot slot :: options) (("--" ++ name) :: value :: arguments)
  | verbose {slots : List Slot} {options : List Named} {spelling : Text} {arguments : List Text}
      (hspelling : spelling = "-v".toList ∨ spelling = "--verbose".toList)
      (hvalue : values.verbose = true) (h : values.Arranges slots options arguments) :
      values.Arranges slots (.flag .verbose :: options) (spelling :: arguments)

variable {values draft next : Draft} {slot : Slot} {value name : Text} {slots places : List Slot}
  {names rest options : List Named} {arguments texts : List Text} {progress : Progress}
  {escaped : Bool}

theorem Draft.exists_writes (h : values.gives (.slot slot) = true) :
    ∃ text, values.Writes slot text := by
  cases slot with
  | script | settingsFile | outputDirectory | elaborateCommand | logLevel =>
    obtain ⟨given, hgiven⟩ := Option.isSome_iff_exists.1 h
    exact ⟨_, hgiven⟩
  | width | height =>
    obtain ⟨size, hsize⟩ := Option.isSome_iff_exists.1 h
    exact ⟨_, size, hsize, .ofNat size⟩
  | format =>
    obtain ⟨named, hnamed⟩ := Option.isSome_iff_exists.1 h
    cases named with
    | gtkw => exact ⟨_, .inl ⟨hnamed, rfl⟩⟩
    | sav => exact ⟨_, .inr ⟨hnamed, rfl⟩⟩

theorem Draft.exists_forall₂_writes (h : ∀ slot ∈ slots, values.gives (.slot slot) = true) :
    ∃ texts, List.Forall₂ values.Writes slots texts := by
  induction slots with
  | nil => exact ⟨[], .nil⟩
  | cons slot slots ih =>
    obtain ⟨hslot, hslots⟩ := List.forall_mem_cons.1 h
    obtain ⟨text, htext⟩ := exists_writes hslot
    obtain ⟨texts, htexts⟩ := ih hslots
    exact ⟨text :: texts, .cons htext htexts⟩

theorem Draft.exists_arranges_of_gives (hslots : ∀ slot ∈ slots, values.gives (.slot slot) = true)
    (hoptions : ∀ named ∈ options, values.gives named = true ∧
      ∀ slot, named = .slot slot → ∃ name, (name, slot) ∈ valueNames) :
    ∃ arguments, values.Arranges slots options arguments := by
  induction options with
  | nil =>
    obtain ⟨texts, htexts⟩ := exists_forall₂_writes hslots
    exact ⟨_, .escaped htexts⟩
  | cons named options ih =>
    obtain ⟨⟨hgives, hnamed⟩, hrest⟩ := List.forall_mem_cons.1 hoptions
    obtain ⟨arguments, harguments⟩ := ih hrest
    cases named with
    | slot slot =>
      obtain ⟨name, hname⟩ := hnamed slot rfl
      obtain ⟨text, htext⟩ := exists_writes hgives
      exact ⟨_, .attached hname htext harguments⟩
    | flag flag =>
      cases flag with
      | verbose => exact ⟨_, .verbose (.inl rfl) hgives harguments⟩
      | help | version => cases hgives

/-- All values have an arrangement: options with their values attached, and then the positionals
behind `--`. -/
theorem Draft.exists_arranges (values : Draft) :
    ∃ arguments, values.Arranges values.givenPositionals values.givenOptions arguments := by
  apply exists_arranges_of_gives
  · intro slot hslot
    exact (List.mem_filter.1 hslot).2
  · intro named hnamed
    obtain ⟨hmem, hgives⟩ := List.mem_filter.1 hnamed
    refine ⟨hgives, ?_⟩
    rintro slot rfl
    simp only [List.mem_cons, Named.slot.injEq, reduceCtorEq, List.not_mem_nil, or_false] at hmem
    rcases hmem with rfl | rfl | rfl | rfl <;> exact ⟨_, by simp [valueNames]; rfl⟩

/-! ## Reading a value -/

theorem readPath_eq_ok (h : value ≠ []) : readPath value = .ok ⟨value⟩ := if_neg h

theorem IsDecimal.splitSign_eq {size : UInt32} (h : IsDecimal size value) :
    Text.splitSign value = (false, value) := by
  unfold Text.splitSign
  split
  · exact absurd (h.isDigit '-' (by simp)) (by decide)
  · exact absurd (h.isDigit '+' (by simp)) (by decide)
  · rfl

theorem IsDecimal.readSize_eq {size : UInt32} (h : IsDecimal size value) :
    readSize value = .ok size := by
  have hdigits : ¬ (value = [] ∨ (!value.all Char.isDigit) = true) := by
    simpa [h.ne_nil] using h.isDigit
  rw [readSize, h.splitSign_eq]
  dsimp only
  rw [if_neg hdigits, h.value, if_pos ⟨size.toNat_lt_size, nofun⟩, UInt32.ofNat_toNat]

/-! ## Names still to come -/

/-- The values without those for the names. -/
def Draft.without (values : Draft) (names : List Named) : Draft where
  script := if .slot .script ∈ names then none else values.script
  width := if .slot .width ∈ names then none else values.width
  height := if .slot .height ∈ names then none else values.height
  format := if .slot .format ∈ names then none else values.format
  settingsFile := if .slot .settingsFile ∈ names then none else values.settingsFile
  outputDirectory := if .slot .outputDirectory ∈ names then none else values.outputDirectory
  elaborateCommand := if .slot .elaborateCommand ∈ names then none else values.elaborateCommand
  logLevel := if .slot .logLevel ∈ names then none else values.logLevel
  verbose := if .flag .verbose ∈ names then false else values.verbose

theorem Draft.without_nil (values : Draft) : values.without [] = values := by
  simp [without]

theorem Draft.without_perm (values : Draft) (h : names.Perm rest) :
    values.without names = values.without rest := by
  simp only [without, h.mem_iff]

/-- **Entering a value** closes its name. -/
theorem Draft.enter_without (h : values.IsAdmissible) (hclosed : .slot slot ∉ rest)
    (hvalue : values.Writes slot value) :
    (values.without (.slot slot :: rest)).enter slot value = .ok (values.without rest) := by
  cases slot with
  | script =>
    have hpath : values.script = some ⟨value⟩ := hvalue
    have hread := readPath_eq_ok (h.script _ hpath)
    simp [enter, enterOnce, without, hclosed, hpath, hread, Except.map]
  | width =>
    obtain ⟨size, hsize, hdecimal⟩ := hvalue
    simp [enter, enterOnce, without, hclosed, hsize, hdecimal.readSize_eq, Except.map]
  | height =>
    obtain ⟨size, hsize, hdecimal⟩ := hvalue
    simp [enter, enterOnce, without, hclosed, hsize, hdecimal.readSize_eq, Except.map]
  | format =>
    obtain ⟨named, hnamed, hread⟩ : ∃ named, values.format = some named ∧
        readFormat value = .ok named := by
      obtain ⟨hnamed, rfl⟩ | ⟨hnamed, rfl⟩ := hvalue
      · exact ⟨_, hnamed, rfl⟩
      · exact ⟨_, hnamed, rfl⟩
    simp [enter, enterOnce, without, hclosed, hnamed, hread, Except.map]
  | settingsFile =>
    have hpath : values.settingsFile = some ⟨value⟩ := hvalue
    have hread := readPath_eq_ok (h.settingsFile _ hpath)
    simp [enter, enterOnce, without, hclosed, hpath, hread, Except.map]
  | outputDirectory =>
    have hpath : values.outputDirectory = some ⟨value⟩ := hvalue
    have hread := readPath_eq_ok (h.outputDirectory _ hpath)
    simp [enter, enterOnce, without, hclosed, hpath, hread, Except.map]
  | elaborateCommand =>
    have htext : values.elaborateCommand = some value := hvalue
    simp [enter, enterOnce, without, hclosed, htext, Except.map]
  | logLevel =>
    have htext : values.logLevel = some value := hvalue
    simp [enter, enterOnce, without, hclosed, htext, Except.map]

theorem Draft.verbose_without (hclosed : .flag .verbose ∉ rest) (hvalue : values.verbose = true) :
    { values.without (.flag .verbose :: rest) with verbose := true } = values.without rest := by
  simp [without, hclosed, hvalue]

theorem Draft.without_given (values : Draft) :
    values.without (values.givenPositionals.map .slot ++ values.givenOptions) = {} := by
  simp [without, givenPositionals, givenOptions, gives]

/-! ## Reading one argument -/

/-- The value that waits fits, and with it the draft is reached. -/
def Progress.Reaches (progress : Progress) (draft : Draft) (places : List Slot) (escaped : Bool) :
    Prop :=
  progress.settle = .ok ⟨draft, none, places, escaped⟩

namespace Progress

/-- What waits is nothing, or a value that fits. -/
theorem reaches_iff : progress.Reaches draft places escaped ↔
    progress.places = places ∧ progress.escaped = escaped ∧
      (progress.pending = none ∧ progress.draft = draft ∨
        ∃ slot value, progress.pending = some ⟨slot, some value⟩ ∧
          progress.draft.enter slot value = .ok draft) := by
  obtain ⟨old, _ | ⟨slot, _ | value⟩, _, _⟩ := progress
  · simp only [Reaches, settle, Except.ok.injEq, mk.injEq]
    tauto
  · simp [Reaches, settle]
  · have hwaiting : (∃ awaited text,
        some (⟨slot, some value⟩ : Pending) = some ⟨awaited, some text⟩ ∧
          old.enter awaited text = .ok draft) ↔ old.enter slot value = .ok draft := by
      simp
    cases hentered : old.enter slot value with
    | error error => simp [Reaches, settle, hentered, Except.map]
    | ok entered =>
      simp only [hwaiting, hentered, Reaches, settle, Except.map, Except.ok.injEq, mk.injEq]
      tauto

theorem step_of_escaped (h : progress.escaped = true) (value : Text) :
    progress.step value = progress.positional value := if_pos h

theorem step_of_head? (h : progress.escaped = false) (hdash : value.head? ≠ some '-') :
    progress.step value = progress.plain value := by
  unfold step
  rw [if_neg (by simp [h])]
  split
  · exact absurd rfl hdash
  · exact absurd rfl hdash
  · exact absurd rfl hdash
  · rfl

theorem step_dashes (h : progress.escaped = false) {body : Text} (hne : body ≠ []) :
    progress.step ('-' :: '-' :: body) =
      progress.long (body.takeWhile (· ≠ '=')) (body.dropWhile (· ≠ '=')).tail? := by
  obtain ⟨first, rest, rfl⟩ := List.exists_cons_of_ne_nil hne
  unfold step
  rw [if_neg (by simp [h])]
  rfl

/-- A long name is looked up, and it is neither empty nor split at a `=`. -/
theorem longNames_wellFormed {named : Named} (h : (name, named) ∈ longNames) :
    longNames.lookup name = some named ∧ name ≠ [] ∧ name.all (· ≠ '=') := by
  have hall : ∀ entry ∈ longNames, longNames.lookup entry.1 = some entry.2 ∧
      entry.1 ≠ [] ∧ entry.1.all (· ≠ '=') := by decide +kernel
  exact hall _ h

theorem mem_longNames (h : (name, slot) ∈ valueNames) : (name, .slot slot) ∈ longNames := by
  have hall : ∀ entry ∈ valueNames, (entry.1, Named.slot entry.2) ∈ longNames := by
    decide +kernel
  exact hall _ h

theorem step_name (h : progress.escaped = false) {named : Named}
    (hname : (name, named) ∈ longNames) :
    progress.step ("--" ++ name) = progress.long name none := by
  obtain ⟨-, hne, hequals⟩ := longNames_wellFormed hname
  have hall := List.all_eq_true.1 hequals
  have hstep := step_dashes h hne
  rw [List.takeWhile_eq_self_iff.2 hall, List.dropWhile_eq_nil_iff.2 hall] at hstep
  exact hstep

theorem step_name_equals (h : progress.escaped = false) {named : Named}
    (hname : (name, named) ∈ longNames) (value : Text) :
    progress.step ("--" ++ name ++ "=" ++ value) = progress.long name (some value) := by
  obtain ⟨-, hne, hequals⟩ := longNames_wellFormed hname
  have hall := List.all_eq_true.1 hequals
  have hstep := step_dashes h (List.append_ne_nil_of_left_ne_nil hne ('=' :: value))
  rw [List.takeWhile_append_of_pos hall, List.dropWhile_append_of_pos hall] at hstep
  simpa using hstep

namespace Reaches

theorem settle_eq (h : progress.Reaches draft places escaped) :
    progress.settle = .ok ⟨draft, none, places, escaped⟩ := h

theorem escaped_eq (h : progress.Reaches draft places escaped) : progress.escaped = escaped :=
  (reaches_iff.1 h).2.1

/-- No option waits for its value. -/
theorem plain_eq (h : progress.Reaches draft places escaped) (value : Text) :
    progress.plain value = progress.positional value := by
  obtain ⟨-, -, ⟨hpending, -⟩ | ⟨slot, waiting, hpending, -⟩⟩ := reaches_iff.1 h
  · rw [plain, hpending]
  · rw [plain, hpending]

theorem positional (h : progress.Reaches draft (slot :: places) escaped)
    (hentered : draft.enter slot value = .ok next) :
    ∃ after, progress.positional value = .ok after ∧ after.Reaches next places escaped := by
  have hplaces := (reaches_iff.1 h).1
  refine ⟨⟨draft, some ⟨slot, some value⟩, places, escaped⟩, ?_, ?_⟩
  · rw [Progress.positional, hplaces]
    show progress.settle.map _ = _
    rw [h.settle_eq]
    rfl
  · exact reaches_iff.2 ⟨rfl, rfl, .inr ⟨slot, value, rfl, hentered⟩⟩

theorem step_positional (h : progress.Reaches draft (slot :: places) false)
    (hdash : value.head? ≠ some '-') (hentered : draft.enter slot value = .ok next) :
    ∃ after, progress.step value = .ok after ∧ after.Reaches next places false := by
  rw [step_of_head? h.escaped_eq hdash, h.plain_eq]
  exact h.positional hentered

theorem step_attached (h : progress.Reaches draft places false)
    (hname : (name, slot) ∈ valueNames) (hentered : draft.enter slot value = .ok next) :
    ∃ after, progress.step ("--" ++ name ++ "=" ++ value) = .ok after ∧
      after.Reaches next places false := by
  refine ⟨⟨next, none, places, false⟩, ?_, rfl⟩
  have hlong := mem_longNames hname
  rw [step_name_equals h.escaped_eq hlong, long, (longNames_wellFormed hlong).1]
  show progress.option slot (some value) = _
  rw [option, h.settle_eq]
  show (draft.enter slot value).map _ = _
  rw [hentered]
  rfl

/-- The name of an option makes it wait for the value in the next argument. -/
theorem step_separate (h : progress.Reaches draft places false)
    (hname : (name, slot) ∈ valueNames) (hdash : value.head? ≠ some '-')
    (hentered : draft.enter slot value = .ok next) :
    ∃ waiting after, progress.step ("--" ++ name) = .ok waiting ∧
      waiting.step value = .ok after ∧ after.Reaches next places false := by
  have hlong := mem_longNames hname
  refine ⟨⟨draft, some ⟨slot, none⟩, places, false⟩,
    ⟨draft, some ⟨slot, some value⟩, places, false⟩, ?_, ?_, ?_⟩
  · rw [step_name h.escaped_eq hlong, long, (longNames_wellFormed hlong).1]
    show progress.option slot none = _
    rw [option, h.settle_eq]
    rfl
  · rw [step_of_head? rfl hdash]
    rfl
  · exact reaches_iff.2 ⟨rfl, rfl, .inr ⟨slot, value, rfl, hentered⟩⟩

theorem step_verbose (h : progress.Reaches draft places false) (hfirst : draft.verbose = false)
    {spelling : Text} (hspelling : spelling = "-v".toList ∨ spelling = "--verbose".toList) :
    ∃ after, progress.step spelling = .ok after ∧
      after.Reaches { draft with verbose := true } places false := by
  have hflag : progress.flag .verbose =
      .ok ⟨{ draft with verbose := true }, none, places, false⟩ := by
    rw [flag, h.settle_eq]
    show (if draft.verbose then _ else _) = _
    rw [if_neg (by simp [hfirst])]
  refine ⟨⟨{ draft with verbose := true }, none, places, false⟩, ?_, rfl⟩
  have hescaped := h.escaped_eq
  rcases hspelling with rfl | rfl
  · unfold step
    rw [if_neg (by simp [hescaped])]
    show (progress.flag .verbose >>= _) = _
    rw [hflag]
    rfl
  · have hname : ("verbose".toList, Named.flag .verbose) ∈ longNames := by decide +kernel
    show progress.step ("--" ++ "verbose") = _
    rw [step_name hescaped hname, long, (longNames_wellFormed hname).1]
    exact hflag

theorem step_escape (h : progress.Reaches draft places false) :
    ∃ after, progress.step "--" = .ok after ∧ after.Reaches draft places true := by
  refine ⟨{ progress with escaped := true }, ?_, ?_⟩
  · unfold step
    rw [if_neg (by simp [h.escaped_eq])]
    rfl
  · obtain ⟨hplaces, -, hpending⟩ := reaches_iff.1 h
    exact reaches_iff.2 ⟨hplaces, rfl, hpending⟩

end Reaches

end Progress

/-! ## Reading an arrangement -/

/-- The arguments are read from here on, and with them the draft is reached. -/
def Progress.LeadsTo (progress : Progress) (arguments : List Text) (draft : Draft)
    (places : List Slot) : Prop :=
  ∃ last escaped, arguments.foldlM Progress.step progress = .ok last ∧
    last.Reaches draft places escaped

theorem Progress.Reaches.leadsTo (h : progress.Reaches draft places escaped) :
    progress.LeadsTo [] draft places :=
  ⟨progress, escaped, rfl, h⟩

theorem Progress.LeadsTo.cons {after : Progress} {argument : Text}
    (h : after.LeadsTo arguments draft places) (hstep : progress.step argument = .ok after) :
    progress.LeadsTo (argument :: arguments) draft places := by
  obtain ⟨last, escaped, hrun, hlast⟩ := h
  refine ⟨last, escaped, ?_, hlast⟩
  rw [List.foldlM_cons, hstep]
  exact hrun

variable {unfilled : List Slot}

theorem leadsTo_of_writes (h : values.IsAdmissible)
    (hwrites : List.Forall₂ values.Writes slots texts) (hdistinct : slots.Nodup)
    (hready : progress.Reaches (values.without (slots.map Named.slot)) (slots ++ unfilled) true) :
    progress.LeadsTo texts values unfilled := by
  induction hwrites generalizing progress with
  | nil =>
    apply Progress.Reaches.leadsTo
    simpa [Draft.without_nil] using hready
  | @cons slot text slots texts hvalue _ ih =>
    obtain ⟨hnew, hdistinct⟩ := List.nodup_cons.1 hdistinct
    have hclosed : Named.slot slot ∉ slots.map Named.slot := by simpa using hnew
    have hentered := Draft.enter_without h hclosed hvalue
    obtain ⟨after, hstep, hafter⟩ := hready.positional hentered
    rw [← Progress.step_of_escaped hready.escaped_eq] at hstep
    exact (ih hdistinct hafter).cons hstep

/-- **An arrangement** of the values still to come leads to the values. -/
theorem Draft.Arranges.leadsTo (h : values.IsAdmissible)
    (harranges : values.Arranges slots options arguments)
    (hdistinct : (slots.map Named.slot ++ options).Nodup)
    (hready : progress.Reaches (values.without (slots.map Named.slot ++ options))
      (slots ++ unfilled) false) :
    progress.LeadsTo arguments values unfilled := by
  induction harranges generalizing progress with
  | done =>
    apply Progress.Reaches.leadsTo
    simpa [without_nil] using hready
  | escaped hwrites =>
    obtain ⟨after, hstep, hafter⟩ := hready.step_escape
    simp only [List.append_nil] at hafter hdistinct
    exact (leadsTo_of_writes h hwrites (hdistinct.of_map _) hafter).cons hstep
  | positional hvalue hdash _ ih =>
    obtain ⟨hclosed, hdistinct⟩ := List.nodup_cons.1 hdistinct
    obtain ⟨after, hstep, hafter⟩ := hready.step_positional hdash (enter_without h hclosed hvalue)
    exact (ih hdistinct hafter).cons hstep
  | attached hname hvalue _ ih =>
    obtain ⟨hclosed, hdistinct⟩ := List.nodup_cons.1 (List.nodup_middle.1 hdistinct)
    rw [without_perm values List.perm_middle] at hready
    obtain ⟨after, hstep, hafter⟩ := hready.step_attached hname (enter_without h hclosed hvalue)
    exact (ih hdistinct hafter).cons hstep
  | separate hname hvalue hdash _ ih =>
    obtain ⟨hclosed, hdistinct⟩ := List.nodup_cons.1 (List.nodup_middle.1 hdistinct)
    rw [without_perm values List.perm_middle] at hready
    obtain ⟨waiting, after, hstep, hnext, hafter⟩ :=
      hready.step_separate hname hdash (enter_without h hclosed hvalue)
    exact ((ih hdistinct hafter).cons hnext).cons hstep
  | verbose hspelling hvalue _ ih =>
    obtain ⟨hclosed, hdistinct⟩ := List.nodup_cons.1 (List.nodup_middle.1 hdistinct)
    rw [without_perm values List.perm_middle] at hready
    obtain ⟨after, hstep, hafter⟩ := hready.step_verbose (by simp [without]) hspelling
    rw [verbose_without hclosed hvalue] at hafter
    exact (ih hdistinct hafter).cons hstep

theorem nodup_given (values : Draft) :
    (values.givenPositionals.map Named.slot ++ values.givenOptions).Nodup := by
  have hall : (([.script, .width, .height, .format] : List Slot).map Named.slot ++
      ([.slot .settingsFile, .slot .outputDirectory, .slot .elaborateCommand, .slot .logLevel,
        .flag .verbose] : List Named)).Nodup := by decide
  refine hall.sublist (List.Sublist.append ?_ ?_)
  · exact List.filter_sublist.map _
  · exact List.filter_sublist

theorem parse_eq_finish (h : values.IsAdmissible) (hoptions : options.Perm values.givenOptions)
    (harranges : values.Arranges values.givenPositionals options arguments) :
    parse arguments = values.finish := by
  obtain ⟨unfilled, hunfilled⟩ := h.isPrefix
  have hperm := hoptions.append_left (values.givenPositionals.map Named.slot)
  have hready : Progress.Reaches {} (values.without
      (values.givenPositionals.map Named.slot ++ options)) (values.givenPositionals ++ unfilled)
      false := by
    rw [Draft.without_perm values hperm, Draft.without_given, hunfilled]
    rfl
  obtain ⟨last, escaped, hrun, hlast⟩ :=
    harranges.leadsTo h (hperm.nodup_iff.2 (nodup_given values)) hready
  rw [parse, hrun]
  show (last.settle >>= fun progress => progress.draft.finish) = _
  rw [hlast.settle_eq]
  rfl

/-- **A command line says what is written on it**, in whatever arrangement. Values that can be
given have an arrangement, and each of them is read as exactly these values, with the built-in
directory and log level where none is given. So no two arrangements differ. -/
theorem arrangements_round_trip {script : Path} (h : values.IsAdmissible)
    (hscript : values.script = some script) :
    (∃ arguments, values.Arranges values.givenPositionals values.givenOptions arguments) ∧
    ∀ options arguments, options.Perm values.givenOptions →
      values.Arranges values.givenPositionals options arguments →
      parse arguments = .ok {
        script := script
        settingsFile := values.settingsFile
        outputDirectory := values.outputDirectory.getD ⟨"."⟩
        overrides := ⟨values.width, values.height, values.format, values.elaborateCommand⟩
        logLevel := values.logLevel.getD "warn"
        verbose := values.verbose } ∧
      ∀ otherOptions other, otherOptions.Perm values.givenOptions →
        values.Arranges values.givenPositionals otherOptions other →
        parse other = parse arguments := by
  refine ⟨values.exists_arranges, ?_⟩
  intro options arguments hoptions harranges
  have hparse := parse_eq_finish h hoptions harranges
  constructor
  · rw [hparse, Draft.finish, hscript]
    rfl
  · intro otherOptions other hother harranged
    rw [hparse, parse_eq_finish h hother harranged]

/-- A script that starts with a dash stands behind `--`; values keep their signs and blanks. -/
theorem dashed_script_read_alike :
    let values : Draft := {
      script := some ⟨"-a b=1.do"⟩
      width := some 640
      settingsFile := some ⟨"x=--y"⟩
      elaborateCommand := some []
      verbose := true }
    values.IsAdmissible ∧
    parse ["--config=x=--y", "-v", "--elaborate-cmd", "", "--", "-a b=1.do", "0640"] = .ok {
      script := ⟨"-a b=1.do"⟩
      settingsFile := some ⟨"x=--y"⟩
      outputDirectory := ⟨"."⟩
      overrides := ⟨some 640, none, none, some []⟩
      logLevel := "warn"
      verbose := true } ∧
    parse ["--elaborate-cmd=", "--config", "x=--y", "--verbose", "--", "-a b=1.do", "640"] =
      parse ["--config=x=--y", "-v", "--elaborate-cmd", "", "--", "-a b=1.do", "0640"] := by
  intro values
  have hadmissible : values.IsAdmissible := by
    refine ⟨?_, ?_, nofun, by decide⟩
    · rintro _ ⟨⟩
      decide
    · rintro _ ⟨⟩
      decide
  have hconfig : (("config" : Text), Slot.settingsFile) ∈ valueNames := by decide
  have hcommand : (("elaborate-cmd" : Text), Slot.elaborateCommand) ∈ valueNames := by decide
  have hwrites (text : Text) (h : IsDecimal 640 text) :
      List.Forall₂ values.Writes [.script, .width] ["-a b=1.do", text] :=
    .cons rfl (.cons ⟨640, rfl, h⟩ .nil)
  have hfirst : values.Arranges values.givenPositionals
      [.slot .settingsFile, .flag .verbose, .slot .elaborateCommand]
      ["--config=x=--y", "-v", "--elaborate-cmd", "", "--", "-a b=1.do", "0640"] := by
    refine .attached hconfig rfl (.verbose (.inl rfl) rfl (.separate hcommand rfl (by decide) ?_))
    exact .escaped (hwrites "0640" ⟨by decide, List.all_eq_true.1 rfl, rfl⟩)
  have hsecond : values.Arranges values.givenPositionals
      [.slot .elaborateCommand, .slot .settingsFile, .flag .verbose]
      ["--elaborate-cmd=", "--config", "x=--y", "--verbose", "--", "-a b=1.do", "640"] := by
    refine .attached hcommand rfl (.separate hconfig rfl (by decide) (.verbose (.inr rfl) rfl ?_))
    exact .escaped (hwrites "640" (.ofNat 640))
  obtain ⟨-, hall⟩ := arrangements_round_trip hadmissible rfl
  obtain ⟨hparse, hsame⟩ := hall _ _ (by decide) hfirst
  exact ⟨hadmissible, hparse, hsame _ _ (by decide) hsecond⟩

end WaveLayout.CommandLine

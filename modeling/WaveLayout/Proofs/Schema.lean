import WaveLayout.Proofs.Keys
import WaveLayout.Settings.File

/-!
# The schema of settings files

A document **keeps to the schema** if it has no keys but the names of the two sections and each of
them holds a section: a table with no keys but those of its settings, or an array. Such a document
**assigns** values to settings, by key or by place. A value **stands for** what a setting is set to:
an integer below 2^32 for a size, a text for the command. A format is given by its name. The name
may also be the only key of a table that holds nothing else, which no other setting admits.

**Theorem (`parse_by_schema`).** A text is read exactly if it is a document that keeps to the schema
and every value assigned stands for something. Each setting is then set to that, and it is open
exactly if nothing is assigned to it. So the order of entries and the notation of tables play no
part.

A table is entered entry by entry, and a layer records what has been set so far. Keys are distinct,
so no later entry touches a setting that has been set: `takes_cons_iff` says this for the settings
of a section and `takes_section_cons_iff` for the sections of a document. The two inductions
(`enterTable_settings_eq_some_iff`, `enterTable_sections_eq_some_iff`) rest on these steps.
-/

namespace WaveLayout.Settings

open Toml (Value Table)

/-! ## Settings and sections -/

/-- The settings that a file can give. -/
inductive Setting where
  | width
  | height
  | format
  | elaborateCommand
  deriving DecidableEq, Repr

/-- The sections of a settings file. -/
inductive Part where
  | layout
  | project
  deriving DecidableEq, Repr

/-- The name of a section. -/
def Part.name : Part → Text
  | .layout => "layout"
  | .project => "project"

/-- All sections. -/
def Part.all : List Part := [.layout, .project]

/-- The settings of a section, in the order of an array. -/
def Part.settings : Part → List Setting
  | .layout => [.width, .height, .format]
  | .project => [.elaborateCommand]

theorem Part.mem_all (part : Part) : part ∈ all := by cases part <;> decide

theorem Part.name_injective {part other : Part} (h : part.name = other.name) : part = other := by
  cases part <;> cases other <;> first | rfl | exact absurd h (by decide)

namespace Setting

/-- The key of a setting. -/
def key : Setting → Text
  | .width => "width"
  | .height => "height"
  | .format => "format"
  | .elaborateCommand => "elaborate_command"

/-- The section of a setting. -/
def part : Setting → Part
  | .width | .height | .format => .layout
  | .elaborateCommand => .project

/-- What a setting is set to. -/
abbrev Domain : Setting → Type
  | .width | .height => UInt32
  | .format => Format
  | .elaborateCommand => Text

theorem key_injective {setting other : Setting} (h : setting.key = other.key) :
    setting = other := by
  cases setting <;> cases other <;> first | rfl | exact absurd h (by decide)

theorem mem_settings_iff {setting : Setting} {part : Part} :
    setting ∈ part.settings ↔ setting.part = part := by
  cases setting <;> cases part <;> decide

/-! ## Values of settings -/

/-- The value stands for what the setting is set to. A size is an integer below 2^32, and the
command is a text. A format is a text, its name, or a table with that name as the only key and an
empty table or array there. -/
def Reads : (setting : Setting) → Value → setting.Domain → Prop
  | .width, value, size | .height, value, size => value = .integer (UInt32.toNat size)
  | .format, value, named =>
    value = .text (Format.extension named) ∨
      value = .table [(Format.extension named, .table [])] ∨
      value = .table [(Format.extension named, .array [])]
  | .elaborateCommand, value, command => value = .text command

/-- What the value sets the setting to. -/
def read : (setting : Setting) → Value → Option setting.Domain
  | .width | .height => size?
  | .format => format?
  | .elaborateCommand => text?

theorem size?_eq_some_iff {value : Value} {size : UInt32} :
    size? value = some size ↔ value = .integer size.toNat := by
  unfold size?
  split
  · next number =>
    rw [Value.integer.injEq]
    split
    · next h =>
      obtain ⟨n, rfl⟩ := Int.eq_ofNat_of_zero_le h.1
      have hn : n < UInt32.size := by omega
      rw [Option.some.injEq, Int.toNat_natCast]
      constructor
      · rintro rfl
        rw [UInt32.toNat_ofNat_of_lt' hn]
      · intro heq
        rw [Int.natCast_inj.1 heq, UInt32.ofNat_toNat]
    · next h =>
      refine ⟨nofun, ?_⟩
      rintro rfl
      have hsize := size.toNat_lt_size
      omega
  · next h =>
    refine ⟨nofun, ?_⟩
    rintro rfl
    exact absurd rfl (h _)

theorem ofName?_eq_some_iff {word : Text} {named : Format} :
    Format.ofName? word = some named ↔ word = named.extension := by
  have hsav : (("sav" : String) : Text) ≠ "gtkw" := by decide
  unfold Format.ofName?
  cases named with
  | gtkw => split <;> simp_all [Format.extension]
  | sav => split <;> simp_all [Format.extension]

theorem format?_eq_some_iff {value : Value} {named : Format} :
    format? value = some named ↔ Reads .format value named := by
  unfold format? Reads
  split
  · simp [ofName?_eq_some_iff]
  · simp [ofName?_eq_some_iff]
  · simp [ofName?_eq_some_iff]
  · next htext htable harray =>
    refine ⟨nofun, ?_⟩
    rintro (rfl | rfl | rfl)
    · exact absurd rfl (htext _)
    · exact absurd rfl (htable _)
    · exact absurd rfl (harray _)

theorem text?_eq_some_iff {value : Value} {text : Text} :
    text? value = some text ↔ value = .text text := by
  unfold text?
  split <;> simp_all

theorem read_eq_some_iff {setting : Setting} {value : Value} {x : setting.Domain} :
    setting.read value = some x ↔ setting.Reads value x := by
  cases setting with
  | width => exact size?_eq_some_iff
  | height => exact size?_eq_some_iff
  | format => exact format?_eq_some_iff
  | elaborateCommand => exact text?_eq_some_iff

end Setting

/-! ## Layers by setting -/

namespace Layer

/-- What the layer sets the setting to. -/
def get (layer : Layer) : (setting : Setting) → Option setting.Domain
  | .width => layer.width
  | .height => layer.height
  | .format => layer.format
  | .elaborateCommand => layer.elaborateCommand

/-- The layer with one setting more, or with another value for it. -/
def set (layer : Layer) : (setting : Setting) → setting.Domain → Layer
  | .width, size => { layer with width := some size }
  | .height, size => { layer with height := some size }
  | .format, named => { layer with format := some named }
  | .elaborateCommand, command => { layer with elaborateCommand := some command }

/-- The layer that sets each setting as given. -/
def ofGet (given : (setting : Setting) → Option setting.Domain) : Layer :=
  ⟨given .width, given .height, given .format, given .elaborateCommand⟩

variable {layer other : Layer} {setting : Setting}

@[simp] theorem get_ofGet (given : (setting : Setting) → Option setting.Domain) :
    (ofGet given).get setting = given setting := by
  cases setting <;> rfl

@[simp] theorem get_set_self (x : setting.Domain) : (layer.set setting x).get setting = some x := by
  cases setting <;> rfl

theorem get_set_of_ne {changed : Setting} (h : setting ≠ changed) (x : changed.Domain) :
    (layer.set changed x).get setting = layer.get setting := by
  cases setting <;> cases changed <;> first | rfl | exact absurd rfl h

theorem ext_get (h : ∀ setting, layer.get setting = other.get setting) : layer = other := by
  cases layer
  cases other
  rw [mk.injEq]
  exact ⟨h .width, h .height, h .format, h .elaborateCommand⟩

end Layer

/-! ## Fields -/

/-- A setting as a field of its section. -/
def Setting.field (setting : Setting) : Field :=
  ⟨setting.key, fun value layer => (setting.read value).map (layer.set setting)⟩

/-- A section as a field of the document. -/
def Part.field (part : Part) : Field :=
  ⟨part.name, enterSection (part.settings.map Setting.field)⟩

theorem map_some_bind {α β : Type} (read : Option α) (enter : Option α → β) :
    ((do let x ← read; pure (some x)) : Option (Option α)).map enter =
      read.map fun x => enter (some x) := by
  cases read <;> rfl

theorem layoutFields_eq : layoutFields = Part.layout.settings.map Setting.field := by
  simp only [layoutFields, map_some_bind]
  rfl

theorem projectFields_eq : projectFields = Part.project.settings.map Setting.field := by
  simp only [projectFields, map_some_bind]
  rfl

theorem sections_eq : sections = Part.all.map Part.field := by
  rw [sections, layoutFields_eq, projectFields_eq]
  rfl

section

variable {ι : Type} {xs : List ι} {f : ι → Field} {layer result : Layer}

theorem find?_map_eq_some_iff (hinj : ∀ x y, (f x).key = (f y).key → x = y) {key : Text}
    {field : Field} :
    (xs.map f).find? (·.key = key) = some field ↔ ∃ x ∈ xs, (f x).key = key ∧ f x = field := by
  rw [List.find?_map, Option.map_eq_some_iff]
  constructor
  · rintro ⟨x, hx, rfl⟩
    exact ⟨x, List.mem_of_find?_eq_some hx, by simpa using List.find?_some hx, rfl⟩
  · rintro ⟨x, hx, rfl, rfl⟩
    refine ⟨x, ?_, rfl⟩
    cases hfound : xs.find? ((fun field => decide (field.key = (f x).key)) ∘ f) with
    | none => simpa using List.find?_eq_none.1 hfound x hx
    | some y =>
      have hkey : (f y).key = (f x).key := by simpa using List.find?_some hfound
      rw [hinj y x hkey]

theorem enterTable_cons (fields : List Field) (key : Text) (value : Value) (rest : Table)
    (layer : Layer) :
    enterTable fields ((key, value) :: rest) layer =
      ((fields.find? (·.key = key)).bind fun field => field.enter value layer).bind
        (enterTable fields rest) := rfl

/-- An entry is entered by the field with its key, and then the others are. -/
theorem enterTable_cons_eq_some_iff (hinj : ∀ x y, (f x).key = (f y).key → x = y) {key : Text}
    {value : Value} {rest : Table} :
    enterTable (xs.map f) ((key, value) :: rest) layer = some result ↔
      ∃ x ∈ xs, (f x).key = key ∧ ∃ next, (f x).enter value layer = some next ∧
        enterTable (xs.map f) rest next = some result := by
  rw [enterTable_cons, Option.bind_eq_some_iff]
  constructor
  · rintro ⟨next, hnext, hrest⟩
    obtain ⟨field, hfield, henter⟩ := Option.bind_eq_some_iff.1 hnext
    obtain ⟨x, hx, hkey, rfl⟩ := (find?_map_eq_some_iff hinj).1 hfield
    exact ⟨x, hx, hkey, next, henter, hrest⟩
  · rintro ⟨x, hx, hkey, next, henter, hrest⟩
    have hfield := (find?_map_eq_some_iff hinj).2 ⟨x, hx, hkey, rfl⟩
    exact ⟨next, Option.bind_eq_some_iff.2 ⟨f x, hfield, henter⟩, hrest⟩

end

/-! ## Taking values -/

namespace Setting

variable {setting : Setting} {value : Value} {given : Option Value}
  {old new other : Option setting.Domain}

theorem Reads.unique {x y : setting.Domain} (hx : setting.Reads value x)
    (hy : setting.Reads value y) : x = y :=
  Option.some.inj ((read_eq_some_iff.2 hx).symm.trans (read_eq_some_iff.2 hy))

/-- The setting is set to what the value given for it stands for. If none is given, it stays. -/
def Takes (setting : Setting) (given : Option Value) (old new : Option setting.Domain) : Prop :=
  match given with
  | none => new = old
  | some value => ∃ x, setting.Reads value x ∧ new = some x

theorem takes_iff_of_takes (h : setting.Takes given old new) :
    setting.Takes given old other ↔ other = new := by
  cases given with
  | none =>
    obtain rfl := h
    exact Iff.rfl
  | some value =>
    obtain ⟨x, hx, rfl⟩ := h
    constructor
    · rintro ⟨y, hy, rfl⟩
      rw [hx.unique hy]
    · rintro rfl
      exact ⟨x, hx, rfl⟩

theorem takes_none_iff :
    setting.Takes given none new ↔ Option.Rel setting.Reads given new := by
  cases given with
  | none =>
    constructor
    · rintro rfl
      exact .none
    · rintro ⟨⟩
      rfl
  | some value =>
    constructor
    · rintro ⟨x, hx, rfl⟩
      exact .some hx
    · rintro ⟨hx⟩
      exact ⟨_, hx, rfl⟩

end Setting

/-! ## Tables of settings -/

section

variable {settings : List Setting} {entries : Table} {layer result : Layer}

/-- The value that the table gives for a setting among those of the list. -/
def givenAmong (settings : List Setting) (entries : Table) (setting : Setting) : Option Value :=
  if setting ∈ settings then entries.lookup setting.key else none

theorem givenAmong_cons_of_ne {setting first : Setting} (hne : setting ≠ first) (value : Value) :
    givenAmong settings ((first.key, value) :: entries) setting =
      givenAmong settings entries setting := by
  have hkey : (setting.key == first.key) = false :=
    beq_eq_false_iff_ne.2 fun h => hne (Setting.key_injective h)
  simp only [givenAmong, List.lookup_cons, hkey]

/-- Of the settings that are still to come, none is the one that has been set. -/
theorem takes_cons_iff {first setting : Setting} {value : Value} {x : first.Domain}
    (hfirst : first ∈ settings) (hx : first.Reads value x)
    (hnone : entries.lookup first.key = none) :
    setting.Takes (givenAmong settings ((first.key, value) :: entries) setting)
        (layer.get setting) (result.get setting) ↔
      setting.Takes (givenAmong settings entries setting)
        ((layer.set first x).get setting) (result.get setting) := by
  by_cases hne : setting = first
  · subst hne
    have hgiven : givenAmong settings ((setting.key, value) :: entries) setting = some value := by
      rw [givenAmong, if_pos hfirst, List.lookup_cons_self]
    have hrest : givenAmong settings entries setting = none := by
      rw [givenAmong, if_pos hfirst, hnone]
    have htakes : setting.Takes (some value) (layer.get setting) (some x) := ⟨x, hx, rfl⟩
    rw [hgiven, hrest, Setting.takes_iff_of_takes htakes, Layer.get_set_self]
    rfl
  · rw [givenAmong_cons_of_ne hne, Layer.get_set_of_ne hne]

/-- **A table of settings.** Its keys are keys of the settings, and each setting takes the value at
its key. -/
theorem enterTable_settings_eq_some_iff (hkeys : (entries.map Prod.fst).Nodup) :
    enterTable (settings.map Setting.field) entries layer = some result ↔
      (∀ entry ∈ entries, ∃ setting ∈ settings, setting.key = entry.1) ∧
        ∀ setting : Setting, setting.Takes (givenAmong settings entries setting)
          (layer.get setting) (result.get setting) := by
  induction entries generalizing layer with
  | nil =>
    have hgiven : ∀ setting, givenAmong settings [] setting = none := fun setting => ite_self none
    simp only [hgiven]
    constructor
    · intro h
      obtain rfl := Option.some.inj h
      exact ⟨nofun, fun _ => rfl⟩
    · rintro ⟨-, h⟩
      exact congrArg some (Layer.ext_get fun setting => (h setting).symm)
  | cons entry rest ih =>
    obtain ⟨key, value⟩ := entry
    obtain ⟨hkey, hrest⟩ := List.nodup_cons.1 hkeys
    have hnone := Toml.lookup_eq_none_iff_not_mem.2 hkey
    rw [enterTable_cons_eq_some_iff fun x y => Setting.key_injective, List.forall_mem_cons]
    constructor
    · rintro ⟨first, hfirst, rfl, next, hnext, hresult⟩
      obtain ⟨x, hx, rfl⟩ := Option.map_eq_some_iff.1 hnext
      obtain ⟨hknown, htakes⟩ := (ih hrest).1 hresult
      exact ⟨⟨⟨first, hfirst, rfl⟩, hknown⟩, fun setting =>
        (takes_cons_iff hfirst (Setting.read_eq_some_iff.1 hx) hnone).2 (htakes setting)⟩
    · rintro ⟨⟨⟨first, hfirst, rfl⟩, hknown⟩, htakes⟩
      have hvalue := htakes first
      rw [givenAmong, if_pos hfirst, List.lookup_cons_self] at hvalue
      obtain ⟨x, hx, -⟩ := hvalue
      refine ⟨first, hfirst, rfl, layer.set first x,
        Option.map_eq_some_iff.2 ⟨x, Setting.read_eq_some_iff.2 hx, rfl⟩, (ih hrest).2 ?_⟩
      exact ⟨hknown, fun setting => (takes_cons_iff hfirst hx hnone).1 (htakes setting)⟩

end

/-! ## Sections -/

/-- The value is a section: a table with no keys but those of its settings, or any array. -/
def Part.IsSection (part : Part) : Value → Prop
  | .table entries => ∀ entry ∈ entries, ∃ setting ∈ part.settings, setting.key = entry.1
  | .array _ => True
  | _ => False

/-- What a section assigns: the entries of a table, or the items of an array to the settings in
order. An array may stop early, and what it holds beyond the settings is ignored. -/
def Part.assignments? (part : Part) : Value → Option Table
  | .table entries => some entries
  | .array items => some ((part.settings.map Setting.key).zip items)
  | _ => none

/-- The value that a section gives for one of its settings. -/
def Setting.givenBy (setting : Setting) (value : Value) : Option Value :=
  (setting.part.assignments? value).bind (·.lookup setting.key)

/-- The value that a document assigns to a setting. -/
def assigned? (document : Table) (setting : Setting) : Option Value :=
  (document.lookup setting.part.name).bind setting.givenBy

theorem map_fst_zip_sublist (keys : List Text) (items : List Value) :
    ((keys.zip items).map Prod.fst).Sublist keys := by
  induction keys generalizing items with
  | nil => exact List.Sublist.refl _
  | cons key keys ih =>
    cases items with
    | nil => exact List.nil_sublist _
    | cons item items => exact (ih items).cons_cons key

/-- An array is entered as the table of what it assigns. -/
theorem enterArray_eq_enterTable {settings : List Setting} (items : List Value) (layer : Layer) :
    enterArray (settings.map Setting.field) items layer =
      enterTable (settings.map Setting.field) ((settings.map Setting.key).zip items) layer := by
  have hinj : ∀ x y : Setting, x.field.key = y.field.key → x = y :=
    fun x y => Setting.key_injective
  -- The fields found are those among all settings, while the settings left to enter get fewer.
  suffices h : ∀ rest ⊆ settings, ∀ items layer,
      enterArray (rest.map Setting.field) items layer =
        enterTable (settings.map Setting.field) ((rest.map Setting.key).zip items) layer from
    h settings (List.Subset.refl _) items layer
  intro rest hrest
  induction rest with
  | nil => intros; rfl
  | cons setting rest ih =>
    intro items layer
    rw [List.cons_subset] at hrest
    cases items with
    | nil => rfl
    | cons item items =>
      have hfield := (find?_map_eq_some_iff hinj).2 ⟨setting, hrest.1, rfl, rfl⟩
      have hmore : enterArray (rest.map Setting.field) items =
          enterTable (settings.map Setting.field) ((rest.map Setting.key).zip items) :=
        funext (ih hrest.2 items)
      rw [List.map_cons, List.map_cons, List.zip_cons_cons, enterTable_cons,
        show setting.key = setting.field.key from rfl, hfield, ← hmore]
      rfl

theorem enterSection_eq_some_iff {part : Part} {value : Value} {layer result : Layer}
    (hvalue : value.KeysDistinct) :
    enterSection (part.settings.map Setting.field) value layer = some result ↔
      part.IsSection value ∧
        ∀ setting : Setting,
          setting.Takes (if setting.part = part then setting.givenBy value else none)
            (layer.get setting) (result.get setting) := by
  have hgiven : ∀ entries, part.assignments? value = some entries → ∀ setting : Setting,
      (if setting.part = part then setting.givenBy value else none) =
        givenAmong part.settings entries setting := by
    intro entries hentries setting
    simp only [givenAmong, Setting.mem_settings_iff]
    split
    · next hpart =>
      rw [Setting.givenBy, hpart, hentries]
      rfl
    · rfl
  cases value with
  | table entries =>
    cases hvalue with
    | table hkeys hvalues =>
      simp only [hgiven entries rfl]
      exact enterTable_settings_eq_some_iff hkeys
  | array items =>
    have hkeys : (part.settings.map Setting.key).Nodup := by cases part <;> decide
    have hzip := (map_fst_zip_sublist _ items).nodup hkeys
    simp only [hgiven _ rfl]
    rw [enterSection, enterArray_eq_enterTable, enterTable_settings_eq_some_iff hzip]
    refine and_congr_left fun _ => ⟨fun _ => trivial, fun _ entry he => ?_⟩
    exact List.mem_map.1 ((map_fst_zip_sublist _ items).subset (List.mem_map_of_mem he))
  | text _ | integer _ | float _ | boolean _ | moment _ =>
    refine ⟨nofun, ?_⟩
    rintro ⟨⟨⟩, -⟩

/-! ## Documents -/

/-- The document has no keys but the names of sections, with a section at each of them. -/
def KeepsSchema (document : Table) : Prop :=
  ∀ entry ∈ document, ∃ part : Part, part.name = entry.1 ∧ part.IsSection entry.2

section

variable {document rest : Table} {part : Part} {value : Value} {setting : Setting}

theorem assigned?_eq_none (hnone : document.lookup setting.part.name = none) :
    assigned? document setting = none := by
  rw [assigned?, hnone]
  rfl

theorem assigned?_cons (part : Part) (value : Value) (rest : Table) (setting : Setting) :
    assigned? ((part.name, value) :: rest) setting =
      if setting.part = part then setting.givenBy value else assigned? rest setting := by
  split
  · next hpart =>
    subst hpart
    rw [assigned?, List.lookup_cons_self]
    rfl
  · next hpart =>
    have hname : (setting.part.name == part.name) = false :=
      beq_eq_false_iff_ne.2 fun h => hpart (Part.name_injective h)
    rw [assigned?, List.lookup_cons, hname]
    rfl

/-- The sections that are still to come assign nothing to the settings of the one entered. -/
theorem takes_section_cons_iff {old next new : Option setting.Domain}
    (hnone : rest.lookup part.name = none)
    (hnext : setting.Takes (if setting.part = part then setting.givenBy value else none) old next) :
    setting.Takes (assigned? ((part.name, value) :: rest) setting) old new ↔
      setting.Takes (assigned? rest setting) next new := by
  rw [assigned?_cons]
  by_cases hpart : setting.part = part
  · rw [if_pos hpart] at hnext ⊢
    rw [Setting.takes_iff_of_takes hnext, assigned?_eq_none (by rw [hpart, hnone])]
    rfl
  · rw [if_neg hpart] at hnext ⊢
    obtain rfl := hnext
    exact Iff.rfl

/-- **A document.** It keeps to the schema, and each setting takes the value assigned to it. -/
theorem enterTable_sections_eq_some_iff {layer result : Layer}
    (hdocument : (Value.table document).KeysDistinct) :
    enterTable (Part.all.map Part.field) document layer = some result ↔
      KeepsSchema document ∧ ∀ setting : Setting,
        setting.Takes (assigned? document setting) (layer.get setting) (result.get setting) := by
  induction document generalizing layer with
  | nil =>
    constructor
    · intro h
      obtain rfl := Option.some.inj h
      exact ⟨nofun, fun _ => rfl⟩
    · rintro ⟨-, h⟩
      exact congrArg some (Layer.ext_get fun setting => (h setting).symm)
  | cons entry rest ih =>
    obtain ⟨name, value⟩ := entry
    obtain ⟨hnone, hvalue, hrest⟩ := hdocument.of_cons
    rw [enterTable_cons_eq_some_iff fun x y => Part.name_injective, KeepsSchema,
      List.forall_mem_cons]
    constructor
    · rintro ⟨part, -, rfl, next, hnext, hresult⟩
      obtain ⟨hsection, htakes⟩ := (enterSection_eq_some_iff hvalue).1 hnext
      obtain ⟨hschema, hmore⟩ := (ih hrest).1 hresult
      exact ⟨⟨⟨part, rfl, hsection⟩, hschema⟩, fun setting =>
        (takes_section_cons_iff hnone (htakes setting)).2 (hmore setting)⟩
    · rintro ⟨⟨⟨part, rfl, hsection⟩, hschema⟩, htakes⟩
      -- The section sets its own settings, for good, and leaves the others as they were.
      let next := Layer.ofGet fun setting =>
        if setting.part = part then result.get setting else layer.get setting
      have hnext : ∀ setting : Setting,
          setting.Takes (if setting.part = part then setting.givenBy value else none)
            (layer.get setting) (next.get setting) := by
        intro setting
        have hsetting := htakes setting
        rw [assigned?_cons] at hsetting
        rw [Layer.get_ofGet]
        by_cases hpart : setting.part = part
        · rw [if_pos hpart] at hsetting ⊢
          rwa [if_pos hpart]
        · rw [if_neg hpart, if_neg hpart]
          rfl
      refine ⟨part, part.mem_all, rfl, next, (enterSection_eq_some_iff hvalue).2 ⟨hsection, hnext⟩,
        (ih hrest).2 ⟨hschema, fun setting => ?_⟩⟩
      exact (takes_section_cons_iff hnone (hnext setting)).1 (htakes setting)

end

theorem ofTable?_eq_some_iff {document : Table} {layer : Layer}
    (hdocument : (Value.table document).KeysDistinct) :
    Layer.ofTable? document = some layer ↔
      KeepsSchema document ∧
        ∀ setting : Setting, Option.Rel setting.Reads (assigned? document setting)
          (layer.get setting) := by
  have hopen : ∀ setting : Setting, Layer.get {} setting = none := by
    intro setting
    cases setting <;> rfl
  rw [Layer.ofTable?, sections_eq, enterTable_sections_eq_some_iff hdocument]
  simp only [hopen, Setting.takes_none_iff]

/-! ## Rearranged documents -/

section

variable {value other : Value} {setting : Setting}

theorem Setting.Reads.rearranged {x : setting.Domain} (h : setting.Reads value x)
    (hsame : value.Rearranged other) (hother : other.KeysDistinct) : setting.Reads other x := by
  cases setting with
  | width | height | elaborateCommand =>
    obtain rfl := h
    cases hsame
    rfl
  | format =>
    rcases h with rfl | rfl | rfl
    · cases hsame
      exact .inl rfl
    · obtain ⟨inner, rfl, hinner⟩ := hsame.of_table_singleton hother
      rw [hinner.of_table_nil]
      exact .inr (.inl rfl)
    · obtain ⟨inner, rfl, hinner⟩ := hsame.of_table_singleton hother
      rw [hinner.of_array_nil]
      exact .inr (.inr rfl)

theorem Setting.rel_reads_rearranged {given regiven : Option Value} {x : Option setting.Domain}
    (h : Option.Rel setting.Reads given x) (hsame : Option.Rel Value.Rearranged given regiven)
    (hregiven : ∀ value ∈ regiven, value.KeysDistinct) : Option.Rel setting.Reads regiven x := by
  cases hsame with
  | none => exact h
  | some hvalue =>
    cases h with
    | some hreads => exact .some (hreads.rearranged hvalue (hregiven _ rfl))

theorem Part.IsSection.rearranged {part : Part} (h : part.IsSection value)
    (hsame : value.Rearranged other) : part.IsSection other := by
  cases hsame with
  | table hkeys _ =>
    intro entry he
    obtain ⟨old, hold, hkey⟩ := List.mem_map.1 ((hkeys entry.1).2 (List.mem_map_of_mem he))
    rw [← hkey]
    exact h old hold
  | array _ _ => trivial
  | _ => exact h

/-- A rearranged section gives rearranged values. -/
theorem Setting.givenBy_rearranged (hsame : value.Rearranged other) (setting : Setting) :
    Option.Rel Value.Rearranged (setting.givenBy value) (setting.givenBy other) := by
  have hlookup : ∀ xs ys : List Value, (Value.array xs).Rearranged (.array ys) →
      Option.Rel Value.Rearranged (setting.givenBy (.array xs)) (setting.givenBy (.array ys)) :=
    fun xs ys h => Value.Rearranged.lookup_zip h.forall₂ _ _
  cases hsame with
  | table hkeys hvalues => exact (Value.Rearranged.table hkeys hvalues).lookup setting.key
  | array hlength hitems => exact hlookup _ _ (.array hlength hitems)
  | _ => exact .none

end

/-- Rearranged documents assign rearranged values. -/
theorem assigned?_rearranged {document other : Table}
    (h : (Value.table document).Rearranged (.table other)) (setting : Setting) :
    Option.Rel Value.Rearranged (assigned? document setting) (assigned? other setting) := by
  have hbind : ∀ given regiven : Option Value, Option.Rel Value.Rearranged given regiven →
      Option.Rel Value.Rearranged (given.bind setting.givenBy) (regiven.bind setting.givenBy) := by
    rintro _ _ (hsame | _)
    · exact Setting.givenBy_rearranged hsame setting
    · exact .none
  exact hbind _ _ (h.lookup setting.part.name)

theorem keysDistinct_of_assigned? {document : Table} {setting : Setting} {value : Value}
    (hdocument : (Value.table document).KeysDistinct)
    (h : assigned? document setting = some value) : value.KeysDistinct := by
  obtain ⟨part, hpart, h⟩ := Option.bind_eq_some_iff.1 h
  obtain ⟨entries, hentries, hlookup⟩ := Option.bind_eq_some_iff.1 h
  have hdistinct := hdocument.of_lookup hpart
  cases part with
  | table inner =>
    obtain rfl := Option.some.inj hentries
    exact hdistinct.of_lookup hlookup
  | array items =>
    obtain rfl := Option.some.inj hentries
    cases hdistinct with
    | array hitems => exact hitems value (List.of_mem_zip (Toml.mem_of_lookup hlookup)).2
  | text _ | integer _ | float _ | boolean _ | moment _ => cases hentries

theorem KeepsSchema.rearranged {document other : Table} (h : KeepsSchema document)
    (hsame : (Value.table document).Rearranged (.table other)) : KeepsSchema other := by
  cases hsame with
  | table hkeys hvalues =>
    intro entry he
    obtain ⟨old, hold, hkey⟩ := List.mem_map.1 ((hkeys entry.1).2 (List.mem_map_of_mem he))
    obtain ⟨part, hname, hsection⟩ := h old hold
    refine ⟨part, hname.trans hkey, hsection.rearranged (hvalues entry.1 old.2 entry.2 ?_ he)⟩
    rw [← hkey]
    exact hold

theorem ofTable?_rearranged {document other : Table}
    (hdocument : (Value.table document).KeysDistinct) (hother : (Value.table other).KeysDistinct)
    (h : (Value.table document).Rearranged (.table other)) :
    Layer.ofTable? other = Layer.ofTable? document := by
  have hstep : ∀ {document other : Table} {layer : Layer}, (Value.table document).KeysDistinct →
      (Value.table other).KeysDistinct → (Value.table document).Rearranged (.table other) →
      Layer.ofTable? document = some layer → Layer.ofTable? other = some layer := by
    intro document other layer hdocument hother hsame hlayer
    obtain ⟨hschema, hreads⟩ := (ofTable?_eq_some_iff hdocument).1 hlayer
    refine (ofTable?_eq_some_iff hother).2 ⟨hschema.rearranged hsame, fun setting => ?_⟩
    exact Setting.rel_reads_rearranged (hreads setting) (assigned?_rearranged hsame setting)
      fun value hvalue => keysDistinct_of_assigned? hother hvalue
  ext layer
  exact ⟨hstep hother hdocument h.symm, hstep hdocument hother h⟩

/-! ## Settings files -/

theorem parse_eq_ok_iff {text : Text} {layer : Layer} :
    Layer.parse text = .ok layer ↔
      ∃ document, Toml.parse text = some document ∧ Layer.ofTable? document = some layer := by
  rw [← Option.bind_eq_some_iff, Layer.parse]
  split
  · next other hother => simp [hother]
  · next hnone => simp [hnone]

theorem parse_of_document {text : Text} {document : Table}
    (h : Toml.parse text = some document) :
    Layer.parse text = match Layer.ofTable? document with
      | some layer => .ok layer
      | none => .error .malformed := by
  rw [Layer.parse, h]
  rfl

/-- **The schema is strict.** A text is read as a layer exactly if it is a TOML document that keeps
to the schema and every value that it assigns to a setting stands for what the layer sets it to. A
setting is open exactly if the document assigns nothing to it. Documents that differ in the order of
entries are read alike. -/
theorem parse_by_schema (text : Text) :
    (∀ layer, Layer.parse text = .ok layer ↔
      ∃ document, Toml.parse text = some document ∧ KeepsSchema document ∧
        ∀ setting : Setting, Option.Rel setting.Reads (assigned? document setting)
          (layer.get setting)) ∧
    ∀ (other : Text) (document rearranged : Table), Toml.parse text = some document →
      Toml.parse other = some rearranged →
      (Value.table document).Rearranged (.table rearranged) →
        Layer.parse other = Layer.parse text := by
  constructor
  · intro layer
    rw [parse_eq_ok_iff]
    refine exists_congr fun document => and_congr_right fun hdocument => ?_
    exact ofTable?_eq_some_iff (Toml.keysDistinct_of_parse hdocument)
  · intro other document rearranged hdocument hother hsame
    rw [parse_of_document hdocument, parse_of_document hother,
      ofTable?_rearranged (Toml.keysDistinct_of_parse hdocument)
        (Toml.keysDistinct_of_parse hother) hsame]

/-- Headers are read like an inline table with a dotted key, in another order and notation. -/
theorem inline_file_read_alike :
    let text : Text :=
      "[project]\nelaborate_command = 'vlog'\n[layout]\nheight = 720\nwidth = 0x500\nformat = 'sav'"
    let other : Text :=
      "layout = \x7bwidth = 1_280, format = 'sav', height = 720\x7d\n" ++
        "project.elaborate_command = \"vlog\""
    let document : Table :=
      [("project".toList, .table [("elaborate_command".toList, .text "vlog")]),
        ("layout".toList, .table [("height".toList, .integer 720), ("width".toList, .integer 1280),
          ("format".toList, .text "sav")])]
    let rearranged : Table :=
      [("layout".toList, .table [("width".toList, .integer 1280), ("format".toList, .text "sav"),
          ("height".toList, .integer 720)]),
        ("project".toList, .table [("elaborate_command".toList, .text "vlog")])]
    Toml.parse text = some document ∧ Toml.parse other = some rearranged ∧
      (Value.table document).Rearranged (.table rearranged) ∧
      Layer.parse other = Layer.parse text ∧
      Layer.parse text = .ok ⟨some 1280, some 720, some .sav, some "vlog"⟩ := by
  intro text other document rearranged
  have hdocument : Toml.parse text = some document := by decide +kernel
  have hother : Toml.parse other = some rearranged := by decide +kernel
  have hdistinct := Toml.keysDistinct_of_parse hdocument
  have hfirst : document.lookup ("project".toList) = some _ := rfl
  have hsecond : document.lookup ("layout".toList) = some _ := rfl
  have hlayout : (Value.table [("height".toList, .integer 720), ("width".toList, .integer 1280),
      ("format".toList, .text "sav")]).Rearranged (.table [("width".toList, .integer 1280),
        ("format".toList, .text "sav"), ("height".toList, .integer 720)]) :=
    .of_perm (hdistinct.of_lookup hsecond) (by decide)
  have hsame : (Value.table document).Rearranged (.table rearranged) := by
    refine .table (by simp [document, rearranged, or_comm]) fun key x y hx hy => ?_
    simp only [document, rearranged, List.mem_cons, Prod.mk.injEq, List.not_mem_nil, or_false]
      at hx hy
    rcases hx with ⟨rfl, rfl⟩ | ⟨rfl, rfl⟩ <;> rcases hy with ⟨h, rfl⟩ | ⟨h, rfl⟩
    · exact absurd h (by decide)
    · exact .refl (hdistinct.of_lookup hfirst)
    · exact hlayout
    · exact absurd h (by decide)
  refine ⟨hdocument, hother, hsame,
    (parse_by_schema text).2 other document rearranged hdocument hother hsame, ?_⟩
  decide +kernel

/-- **A table can stand for a format.** A value that is no text is read as a format. -/
theorem format_read_from_table :
    ¬ ∀ (text : Text) (layer : Layer), Layer.parse text = .ok layer →
      ∃ document, Toml.parse text = some document ∧
        ∀ value ∈ assigned? document .format, value = .text "gtkw" ∨ value = .text "sav" := by
  intro hall
  have hlayer : Layer.parse "layout.format = \x7bsav = \x7b\x7d\x7d" =
      .ok ⟨none, none, some .sav, none⟩ := by decide +kernel
  have hdocument : Toml.parse "layout.format = \x7bsav = \x7b\x7d\x7d" =
      some [("layout".toList, .table [("format".toList, .table [("sav".toList, .table [])])])] := by
    decide +kernel
  obtain ⟨document, hparse, hvalues⟩ := hall _ _ hlayer
  obtain rfl := Option.some.inj (hdocument.symm.trans hparse)
  have hnone := hvalues (.table [("sav".toList, .table [])]) (by decide)
  rcases hnone with h | h <;> cases h

end WaveLayout.Settings

import Mathlib
import WaveLayout.Toml.Document

/-!
# Distinct keys

No key stands twice in a table of a TOML document, at any depth. So the entries of a table are a
finite map, and what is looked up at a key is the only value there.

The tables under construction keep their keys distinct: a node that is set replaces the one at its
key or follows as a new last entry (`Entries.KeysDistinct.set`), and both ways of adding, dotted
keys (`Entries.KeysDistinct.assign`) and headers (`Entries.KeysDistinct.modify`), set nodes only.
Inline tables are built the same way, so the readers find values with distinct keys
(`keysDistinct_readers`).

**Theorem (`keysDistinct_of_parse`).** The table of a document has distinct keys.

Two values are **rearranged** if they differ in the order of entries at most, at any depth. With
distinct keys nothing depends on that order: what is looked up in rearranged tables is rearranged
(`Value.Rearranged.lookup`).
-/

namespace WaveLayout.Toml

/-! ## Look-ups -/

section

variable {α : Type} {entries : List (Text × α)} {key : Text} {entry : α}

theorem lookup_eq_none_iff_not_mem :
    entries.lookup key = none ↔ key ∉ entries.map Prod.fst := by
  rw [List.lookup_eq_none_iff]
  constructor
  · intro h hmem
    obtain ⟨other, hother, rfl⟩ := List.mem_map.1 hmem
    simpa using h other hother
  · intro h other hother
    rw [bne_iff_ne]
    rintro rfl
    exact h (List.mem_map_of_mem hother)

theorem mem_of_lookup (h : entries.lookup key = some entry) : (key, entry) ∈ entries := by
  obtain ⟨before, after, rfl, -⟩ := List.lookup_eq_some_iff.1 h
  simp

/-- Where keys are distinct, what is looked up is what stands in the list. -/
theorem lookup_eq_some_iff_mem (hkeys : (entries.map Prod.fst).Nodup) :
    entries.lookup key = some entry ↔ (key, entry) ∈ entries := by
  refine ⟨mem_of_lookup, fun h => ?_⟩
  induction entries with
  | nil => cases h
  | cons first rest ih =>
    obtain ⟨hfirst, hrest⟩ := List.nodup_cons.1 hkeys
    rcases List.mem_cons.1 h with rfl | h
    · exact List.lookup_cons_self
    · have hmem : key ∈ rest.map Prod.fst := List.mem_map_of_mem h
      have hne : key ≠ first.1 := by
        rintro rfl
        exact hfirst hmem
      rw [List.lookup_cons, beq_eq_false_iff_ne.2 hne]
      exact ih hrest h

end

/-! ## Values and nodes with distinct keys -/

/-- No key stands twice in a table of the value. -/
inductive Value.KeysDistinct : Value → Prop
  | text (text : Text) : KeysDistinct (.text text)
  | integer (number : Int) : KeysDistinct (.integer number)
  | float (spelling : Text) : KeysDistinct (.float spelling)
  | boolean (value : Bool) : KeysDistinct (.boolean value)
  | moment (spelling : Text) : KeysDistinct (.moment spelling)
  | array {items : List Value} : (∀ item ∈ items, item.KeysDistinct) → KeysDistinct (.array items)
  | table {entries : Table} : (entries.map Prod.fst).Nodup →
      (∀ entry ∈ entries, entry.2.KeysDistinct) → KeysDistinct (.table entries)

/-- No key stands twice in a table of the node. -/
inductive Node.KeysDistinct : Node → Prop
  | leaf {value : Value} : value.KeysDistinct → KeysDistinct (.leaf value)
  | table {origin : Origin} {entries : Entries} : (entries.map Prod.fst).Nodup →
      (∀ entry ∈ entries, entry.2.KeysDistinct) → KeysDistinct (.table origin entries)
  | rows {tables : List Entries} : (∀ entries ∈ tables, (entries.map Prod.fst).Nodup) →
      (∀ entries ∈ tables, ∀ entry ∈ entries, entry.2.KeysDistinct) → KeysDistinct (.rows tables)

/-- No key stands twice among the entries or in a table of their nodes. -/
structure Entries.KeysDistinct (entries : Entries) : Prop where
  keys : (entries.map Prod.fst).Nodup
  nodes : ∀ entry ∈ entries, entry.2.KeysDistinct

theorem Node.keysDistinct_table_iff {origin : Origin} {entries : Entries} :
    (Node.table origin entries).KeysDistinct ↔ Entries.KeysDistinct entries := by
  constructor
  · rintro ⟨⟩
    exact ⟨‹_›, ‹_›⟩
  · rintro ⟨hkeys, hnodes⟩
    exact .table hkeys hnodes

theorem Node.keysDistinct_rows_iff {tables : List Entries} :
    (Node.rows tables).KeysDistinct ↔ ∀ entries ∈ tables, Entries.KeysDistinct entries := by
  constructor
  · rintro (_ | _ | ⟨hkeys, hnodes⟩) entries hmem
    exact ⟨hkeys entries hmem, hnodes entries hmem⟩
  · intro h
    exact .rows (fun entries hmem => (h entries hmem).keys)
      fun entries hmem => (h entries hmem).nodes

theorem Value.KeysDistinct.of_lookup {key : Text} {value : Value} {entries : Table}
    (h : (Value.table entries).KeysDistinct) (hl : entries.lookup key = some value) :
    value.KeysDistinct := by
  cases h with
  | table _ hvalues => exact hvalues _ (mem_of_lookup hl)

/-- The first entry of a table and the others. -/
theorem Value.KeysDistinct.of_cons {key : Text} {value : Value} {rest : Table}
    (h : (Value.table ((key, value) :: rest)).KeysDistinct) :
    rest.lookup key = none ∧ value.KeysDistinct ∧ (Value.table rest).KeysDistinct := by
  cases h with
  | table hkeys hvalues =>
    obtain ⟨hkey, hrest⟩ := List.nodup_cons.1 hkeys
    obtain ⟨hvalue, hmore⟩ := List.forall_mem_cons.1 hvalues
    exact ⟨lookup_eq_none_iff_not_mem.2 hkey, hvalue, .table hrest hmore⟩

/-! ## Adding -/

namespace Entries.KeysDistinct

variable {entries result : Entries} {key : Text} {node : Node} {path : List Text}

theorem nil : Entries.KeysDistinct [] := ⟨List.nodup_nil, nofun⟩

theorem of_lookup (h : Entries.KeysDistinct entries) (hl : entries.lookup key = some node) :
    node.KeysDistinct :=
  h.nodes _ (mem_of_lookup hl)

/-- A new last entry. -/
theorem concat (h : Entries.KeysDistinct entries) (hl : entries.lookup key = none)
    (hnode : node.KeysDistinct) : Entries.KeysDistinct (entries ++ [(key, node)]) := by
  constructor
  · rw [List.map_append, List.nodup_append]
    refine ⟨h.keys, List.nodup_singleton _, ?_⟩
    rintro name hname _ hlast rfl
    rw [List.map_singleton, List.mem_singleton] at hlast
    subst hlast
    exact lookup_eq_none_iff_not_mem.1 hl hname
  · intro entry he
    rcases List.mem_append.1 he with he | he
    · exact h.nodes entry he
    · rw [List.mem_singleton.1 he]
      exact hnode

theorem set (h : Entries.KeysDistinct entries) (hnode : node.KeysDistinct) :
    Entries.KeysDistinct (entries.set key node) := by
  unfold Entries.set
  split
  · constructor
    · have hsame : ∀ change : Text × Node → Text × Node, (∀ entry, (change entry).1 = entry.1) →
          (entries.map change).map Prod.fst = entries.map Prod.fst := by
        intro change hchange
        rw [List.map_map]
        exact List.map_congr_left fun entry _ => hchange entry
      rw [hsame _ fun entry => by dsimp only; split <;> rfl]
      exact h.keys
    · intro entry he
      obtain ⟨old, hold, rfl⟩ := List.mem_map.1 he
      dsimp only
      split
      · exact hnode
      · exact h.nodes old hold
  · next hl => exact h.concat (Option.not_isSome_iff_eq_none.1 hl) hnode

/-- **Dotted keys** keep keys distinct. -/
theorem assign (h : Entries.KeysDistinct entries) (hnode : node.KeysDistinct)
    (ha : Entries.assign key node path entries = some result) : Entries.KeysDistinct result := by
  induction path generalizing entries result with
  | nil =>
    rw [Entries.assign] at ha
    split at ha
    · cases ha
    · next hl =>
      obtain rfl := Option.some.inj ha
      exact h.concat (Option.not_isSome_iff_eq_none.1 hl) hnode
  | cons first path ih =>
    rw [Entries.assign] at ha
    split at ha
    · obtain ⟨inner, hinner, rfl⟩ := Option.map_eq_some_iff.1 ha
      exact h.set (Node.keysDistinct_table_iff.2 (ih nil hinner))
    · next old hl =>
      obtain ⟨inner, hinner, rfl⟩ := Option.map_eq_some_iff.1 ha
      have hold := Node.keysDistinct_table_iff.1 (h.of_lookup hl)
      exact h.set (Node.keysDistinct_table_iff.2 (ih hold hinner))
    · cases ha

theorem assignAll {assignments : List Assignment} (h : Entries.KeysDistinct entries)
    (hnodes : ∀ assignment ∈ assignments, assignment.node.KeysDistinct)
    (ha : Entries.assignAll entries assignments = some result) : Entries.KeysDistinct result := by
  induction assignments generalizing entries with
  | nil =>
    obtain rfl := Option.some.inj ha
    exact h
  | cons assignment rest ih =>
    obtain ⟨next, hnext, hrest⟩ := Option.bind_eq_some_iff.1 ha
    rw [List.forall_mem_cons] at hnodes
    exact ih (h.assign hnodes.1 hnext) hnodes.2 hrest

/-- **Headers** keep keys distinct if what they make of a node does. -/
theorem modify {change : Option Node → Option Node} (h : Entries.KeysDistinct entries)
    (hchange : ∀ old new, (∀ node ∈ old, node.KeysDistinct) → change old = some new →
      new.KeysDistinct)
    (hm : Entries.modify key change path entries = some result) : Entries.KeysDistinct result := by
  induction path generalizing entries result with
  | nil =>
    rw [Entries.modify] at hm
    obtain ⟨new, hnew, rfl⟩ := Option.map_eq_some_iff.1 hm
    exact h.set (hchange _ new (fun node hnode => h.of_lookup hnode) hnew)
  | cons first path ih =>
    rw [Entries.modify] at hm
    split at hm
    · obtain ⟨inner, hinner, rfl⟩ := Option.map_eq_some_iff.1 hm
      exact h.set (Node.keysDistinct_table_iff.2 (ih nil hinner))
    · next origin old hl =>
      obtain ⟨inner, hinner, rfl⟩ := Option.map_eq_some_iff.1 hm
      have hold := Node.keysDistinct_table_iff.1 (h.of_lookup hl)
      exact h.set (Node.keysDistinct_table_iff.2 (ih hold hinner))
    · next tables hl =>
      have htables := Node.keysDistinct_rows_iff.1 (h.of_lookup hl)
      split at hm
      · cases hm
      · next last hlast =>
        obtain ⟨inner, hinner, rfl⟩ := Option.map_eq_some_iff.1 hm
        refine h.set (Node.keysDistinct_rows_iff.2 fun table ht => ?_)
        rcases List.mem_append.1 ht with ht | ht
        · exact htables table (List.mem_of_mem_dropLast ht)
        · rw [List.mem_singleton.1 ht]
          exact ih (htables last (List.mem_of_getLast? hlast)) hinner
    · cases hm

/-- A section keeps keys distinct. -/
theorem addSection {part : Section} (h : Entries.KeysDistinct entries)
    (hnodes : ∀ assignment ∈ part.assignments, assignment.node.KeysDistinct)
    (ha : Entries.addSection entries part = some result) : Entries.KeysDistinct result := by
  rw [Entries.addSection] at ha
  refine h.modify ?_ ha
  intro old new hold hnew
  split at hnew
  · obtain ⟨inner, hinner, rfl⟩ := Option.map_eq_some_iff.1 hnew
    have hdistinct := nil.assignAll hnodes hinner
    split
    · exact Node.keysDistinct_rows_iff.2 (by simpa using hdistinct)
    · exact Node.keysDistinct_table_iff.2 hdistinct
  · next inner =>
    split at hnew
    · cases hnew
    · obtain ⟨more, hmore, rfl⟩ := Option.map_eq_some_iff.1 hnew
      have hinner := Node.keysDistinct_table_iff.1 (hold _ rfl)
      exact Node.keysDistinct_table_iff.2 (hinner.assignAll hnodes hmore)
  · next tables =>
    split at hnew
    · obtain ⟨inner, hinner, rfl⟩ := Option.map_eq_some_iff.1 hnew
      have htables := Node.keysDistinct_rows_iff.1 (hold _ rfl)
      refine Node.keysDistinct_rows_iff.2 fun table ht => ?_
      rcases List.mem_append.1 ht with ht | ht
      · exact htables table ht
      · rw [List.mem_singleton.1 ht]
        exact nil.assignAll hnodes hinner
    · cases hnew
  · cases hnew

end Entries.KeysDistinct

/-! ## Forgetting -/

theorem entryValues_eq_map (entries : Entries) :
    entryValues entries = entries.map fun entry => (entry.1, entry.2.value) := by
  induction entries with
  | nil => rfl
  | cons entry rest ih => rw [entryValues, ih, List.map_cons]

theorem rowValues_eq_map (tables : List Entries) :
    rowValues tables = tables.map fun entries => .table (entryValues entries) := by
  induction tables with
  | nil => rfl
  | cons entries rest ih => rw [rowValues, ih, List.map_cons]

/-- Entries become a table with the same keys. -/
theorem keysDistinct_entryValues {entries : Entries} (hkeys : (entries.map Prod.fst).Nodup)
    (hvalues : ∀ entry ∈ entries, entry.2.value.KeysDistinct) :
    (Value.table (entryValues entries)).KeysDistinct := by
  rw [entryValues_eq_map]
  refine .table ?_ ?_
  · rw [List.map_map]
    exact hkeys
  · intro entry he
    obtain ⟨old, hold, rfl⟩ := List.mem_map.1 he
    exact hvalues old hold

theorem Node.KeysDistinct.value {node : Node} (h : node.KeysDistinct) :
    node.value.KeysDistinct := by
  induction h with
  | leaf hvalue => exact hvalue
  | table hkeys _ ih => exact keysDistinct_entryValues hkeys ih
  | rows hkeys _ ih =>
    rw [Node.value, rowValues_eq_map]
    refine .array fun item hi => ?_
    obtain ⟨entries, he, rfl⟩ := List.mem_map.1 hi
    exact keysDistinct_entryValues (hkeys entries he) (ih entries he)

theorem Entries.KeysDistinct.table {entries : Entries} (h : Entries.KeysDistinct entries) :
    (Value.table (entryValues entries)).KeysDistinct :=
  keysDistinct_entryValues h.keys fun entry he => (h.nodes entry he).value

/-! ## Reading -/

theorem keysDistinct_scalar {s : Text} {value : Value} (h : scalar? s = some value) :
    value.KeysDistinct := by
  unfold scalar? at h
  split at h
  · obtain rfl := Option.some.inj h
    exact .boolean true
  split at h
  · obtain rfl := Option.some.inj h
    exact .boolean false
  split at h
  · next number _ =>
    obtain rfl := Option.some.inj h
    exact .integer number
  split at h
  · obtain rfl := Option.some.inj h
    exact .float s
  split at h
  · obtain rfl := Option.some.inj h
    exact .moment s
  · cases h

theorem keysDistinct_bareScalar {s : Text} {found : Found Value s} (h : bareScalar s = some found) :
    found.value.KeysDistinct := by
  obtain ⟨run, -, h⟩ := Option.bind_eq_some_iff.1 h
  obtain ⟨value, hvalue, h⟩ := Option.bind_eq_some_iff.1 h
  obtain rfl := Option.some.inj h
  exact keysDistinct_scalar hvalue

/-- **The readers for values** find values with distinct keys. -/
theorem keysDistinct_readers :
    (∀ room s, ∀ found ∈ value room s, found.value.KeysDistinct) ∧
    (∀ room s, ∀ found ∈ assignments room s, ∀ a ∈ found.value, a.node.KeysDistinct) ∧
    (∀ room s, ∀ found ∈ assignment room s, found.value.node.KeysDistinct) ∧
    (∀ room s, ∀ found ∈ items room s, ∀ item ∈ found.value, item.KeysDistinct) := by
  -- The cases follow the four readers: the branches of `value`, then `assignments`, `assignment`
  -- and the two branches of `items`.
  apply value.mutual_induct
  case case1 | case3 | case8 =>
    intros
    rename_i h
    rw [value] at h
    cases h
  case case2 =>
    intro rest room ih found h
    rw [value] at h
    obtain ⟨array, harray, rfl⟩ := Option.map_eq_some_iff.1 h
    exact .array (ih array harray)
  case case4 =>
    intro rest room closing hclosing found h
    rw [value, hclosing] at h
    obtain rfl := Option.some.inj h
    exact Entries.KeysDistinct.nil.table
  case case5 =>
    intro rest room hclosing ih found h
    rw [value, hclosing] at h
    obtain ⟨table, htable, h⟩ := Option.bind_eq_some_iff.1 h
    obtain ⟨entries, hentries, h⟩ := Option.bind_eq_some_iff.1 h
    obtain rfl := Option.some.inj h
    exact (Entries.KeysDistinct.nil.assignAll (ih table htable) hentries).table
  case case6 =>
    intro room c rest hbracket hbrace hquote found h
    rw [value.eq_5 _ _ _ hbracket hbrace, if_pos hquote] at h
    obtain ⟨text, -, rfl⟩ := Option.map_eq_some_iff.1 h
    exact .text _
  case case7 =>
    intro room c rest hbracket hbrace hquote found h
    rw [value.eq_5 _ _ _ hbracket hbrace, if_neg hquote] at h
    exact keysDistinct_bareScalar h
  case case9 =>
    intro room s ihfirst ihmore found h
    rw [assignments] at h
    obtain ⟨first, hfirst, h⟩ := Option.bind_eq_some_iff.1 h
    have hnode := ihfirst first hfirst
    dsimp only at h
    split at h
    · next comma _ =>
      obtain ⟨more, hmore, h⟩ := Option.bind_eq_some_iff.1 h
      obtain rfl := Option.some.inj h
      exact List.forall_mem_cons.2 ⟨hnode, ihmore first comma more hmore⟩
    · obtain ⟨closing, -, h⟩ := Option.bind_eq_some_iff.1 h
      obtain rfl := Option.some.inj h
      exact List.forall_mem_singleton.2 hnode
  case case10 =>
    intro room s ih found h
    rw [assignment] at h
    obtain ⟨name, -, h⟩ := Option.bind_eq_some_iff.1 h
    obtain ⟨equals, -, h⟩ := Option.bind_eq_some_iff.1 h
    obtain ⟨inner, hinner, h⟩ := Option.bind_eq_some_iff.1 h
    obtain rfl := Option.some.inj h
    exact .leaf (ih name equals inner hinner)
  case case11 =>
    intro room s _ closing hclosing found h
    rw [items, hclosing] at h
    obtain rfl := Option.some.inj h
    exact List.forall_mem_nil _
  case case12 =>
    intro room s _ hclosing ihfirst ihmore found h
    rw [items, hclosing] at h
    obtain ⟨item, hitem, h⟩ := Option.bind_eq_some_iff.1 h
    have hfirst := ihfirst item hitem
    dsimp only at h
    split at h
    · next comma _ =>
      obtain ⟨more, hmore, h⟩ := Option.bind_eq_some_iff.1 h
      obtain rfl := Option.some.inj h
      exact List.forall_mem_cons.2 ⟨hfirst, ihmore item comma more hmore⟩
    · obtain ⟨closing, -, h⟩ := Option.bind_eq_some_iff.1 h
      obtain rfl := Option.some.inj h
      exact List.forall_mem_singleton.2 hfirst

/-! ## Documents -/

/-- What the statement assigns has distinct keys. -/
def Statement.KeysDistinct : Statement → Prop
  | .assignment a => a.node.KeysDistinct
  | .header _ _ => True

theorem keysDistinct_statement {s : Text} {found : Found Statement s}
    (h : statement s = some found) : found.value.KeysDistinct := by
  unfold statement at h
  split at h
  · unfold header at h
    split at h
    · obtain ⟨name, -, h⟩ := Option.bind_eq_some_iff.1 h
      obtain ⟨inner, -, h⟩ := Option.bind_eq_some_iff.1 h
      obtain ⟨outer, -, h⟩ := Option.bind_eq_some_iff.1 h
      obtain rfl := Option.some.inj h
      trivial
    · obtain ⟨name, -, h⟩ := Option.bind_eq_some_iff.1 h
      obtain ⟨closing, -, h⟩ := Option.bind_eq_some_iff.1 h
      obtain rfl := Option.some.inj h
      trivial
    · cases h
  · obtain ⟨inner, hinner, rfl⟩ := Option.map_eq_some_iff.1 h
    exact keysDistinct_readers.2.2.1 _ _ inner hinner

theorem keysDistinct_statements {s : Text} {found : List Statement}
    (h : statements s = some found) : ∀ statement ∈ found, statement.KeysDistinct := by
  fun_induction statements s generalizing found with
  | case1 s hend =>
    obtain rfl := Option.some.inj h
    exact nofun
  | case2 s hend ih =>
    obtain ⟨first, hfirst, h⟩ := Option.bind_eq_some_iff.1 h
    have hstatement := keysDistinct_statement hfirst
    split at h
    · obtain rfl := Option.some.inj h
      exact List.forall_mem_singleton.2 hstatement
    · obtain ⟨lineEnd, -, h⟩ := Option.bind_eq_some_iff.1 h
      obtain ⟨more, hmore, h⟩ := Option.bind_eq_some_iff.1 h
      obtain rfl := Option.some.inj h
      exact List.forall_mem_cons.2 ⟨hstatement, ih first lineEnd hmore⟩

theorem keysDistinct_sections {found : List Statement}
    (h : ∀ statement ∈ found, statement.KeysDistinct) :
    (∀ a ∈ (sections found).1, a.node.KeysDistinct) ∧
      ∀ part ∈ (sections found).2, ∀ a ∈ part.assignments, a.node.KeysDistinct := by
  induction found with
  | nil => exact ⟨nofun, nofun⟩
  | cons statement rest ih =>
    obtain ⟨hstatement, hrest⟩ := List.forall_mem_cons.1 h
    obtain ⟨htop, hparts⟩ := ih hrest
    cases statement with
    | assignment a => exact ⟨List.forall_mem_cons.2 ⟨hstatement, htop⟩, hparts⟩
    | header parts isRow => exact ⟨nofun, List.forall_mem_cons.2 ⟨htop, hparts⟩⟩

theorem Entries.KeysDistinct.addSections {parts : List Section} {entries result : Entries}
    (h : Entries.KeysDistinct entries)
    (hnodes : ∀ part ∈ parts, ∀ a ∈ part.assignments, a.node.KeysDistinct)
    (ha : parts.foldlM Entries.addSection entries = some result) :
    Entries.KeysDistinct result := by
  induction parts generalizing entries with
  | nil =>
    obtain rfl := Option.some.inj ha
    exact h
  | cons part rest ih =>
    obtain ⟨next, hnext, hrest⟩ := Option.bind_eq_some_iff.1 ha
    rw [List.forall_mem_cons] at hnodes
    exact ih (h.addSection hnodes.1 hnext) hnodes.2 hrest

/-- **The table of a document has distinct keys**, at every depth. -/
theorem keysDistinct_of_parse {s : Text} {document : Table} (h : parse s = some document) :
    (Value.table document).KeysDistinct := by
  obtain ⟨found, hfound, h⟩ := Option.bind_eq_some_iff.1 h
  obtain ⟨htop, hparts⟩ := keysDistinct_sections (keysDistinct_statements hfound)
  dsimp only at h
  obtain ⟨entries, hentries, h⟩ := Option.bind_eq_some_iff.1 h
  obtain ⟨all, hall, h⟩ := Option.bind_eq_some_iff.1 h
  obtain rfl := Option.some.inj h
  exact ((Entries.KeysDistinct.nil.assignAll htop hentries).addSections hparts hall).table

/-! ## Rearranged trees -/

/-- The values differ in the order of entries at most. Floats and moments are not told apart. -/
inductive Value.Rearranged : Value → Value → Prop
  | text (text : Text) : Rearranged (.text text) (.text text)
  | integer (number : Int) : Rearranged (.integer number) (.integer number)
  | boolean (value : Bool) : Rearranged (.boolean value) (.boolean value)
  | float (spelling other : Text) : Rearranged (.float spelling) (.float other)
  | moment (spelling other : Text) : Rearranged (.moment spelling) (.moment other)
  | array {xs ys : List Value} : xs.length = ys.length →
      (∀ x y, (x, y) ∈ xs.zip ys → Rearranged x y) → Rearranged (.array xs) (.array ys)
  | table {xs ys : Table} : (∀ key, key ∈ xs.map Prod.fst ↔ key ∈ ys.map Prod.fst) →
      (∀ key x y, (key, x) ∈ xs → (key, y) ∈ ys → Rearranged x y) →
      Rearranged (.table xs) (.table ys)

namespace Value.Rearranged

theorem symm {a b : Value} (h : Rearranged a b) : Rearranged b a := by
  induction h with
  | text s => exact .text s
  | integer number => exact .integer number
  | boolean value => exact .boolean value
  | float spelling other => exact .float other spelling
  | moment spelling other => exact .moment other spelling
  | array hlength _ ih =>
    refine .array hlength.symm fun y x hmem => ih x y ?_
    rw [← List.zip_swap]
    exact List.mem_map_of_mem hmem
  | table hkeys _ ih =>
    exact .table (fun key => (hkeys key).symm) fun key y x hy hx => ih key x y hx hy

theorem refl {value : Value} (h : value.KeysDistinct) : Rearranged value value := by
  induction h with
  | text s => exact .text s
  | integer number => exact .integer number
  | float spelling => exact .float spelling spelling
  | boolean value => exact .boolean value
  | moment spelling => exact .moment spelling spelling
  | @array items _ ih =>
    refine .array rfl fun x y hmem => ?_
    have hsame : items.zip items = items.map fun item => (item, item) := by
      rw [List.zip_eq_zipWith, List.zipWith_self]
    rw [hsame] at hmem
    obtain ⟨item, hitem, heq⟩ := List.mem_map.1 hmem
    obtain ⟨rfl, rfl⟩ := Prod.mk.inj heq
    exact ih item hitem
  | table hkeys _ ih =>
    refine .table (fun key => Iff.rfl) fun key x y hx hy => ?_
    rw [← lookup_eq_some_iff_mem hkeys] at hy
    obtain rfl := Option.some.inj (((lookup_eq_some_iff_mem hkeys).2 hx).symm.trans hy)
    exact ih (key, x) hx

/-- The entries of a table in another order. -/
theorem of_perm {xs ys : Table} (h : (Value.table xs).KeysDistinct) (hperm : xs.Perm ys) :
    Rearranged (.table xs) (.table ys) := by
  cases refl h with
  | table _ hvalues =>
    refine .table (fun key => (hperm.map Prod.fst).mem_iff) fun key x y hx hy => ?_
    exact hvalues key x y hx (hperm.mem_iff.2 hy)

/-- Items of rearranged arrays are rearranged one by one. -/
theorem forall₂ {xs ys : List Value} (h : Rearranged (.array xs) (.array ys)) :
    List.Forall₂ Rearranged xs ys := by
  cases h with
  | array hlength hitems => exact List.forall₂_iff_zip.2 ⟨hlength, fun {x y} => hitems x y⟩

/-- Rearranged tables have rearranged values at each key. -/
theorem lookup {xs ys : Table} (h : Rearranged (.table xs) (.table ys)) (key : Text) :
    Option.Rel Rearranged (xs.lookup key) (ys.lookup key) := by
  cases h with
  | table hkeys hvalues =>
    cases hx : xs.lookup key with
    | none =>
      have hy : ys.lookup key = none := by
        rw [lookup_eq_none_iff_not_mem, ← hkeys, ← lookup_eq_none_iff_not_mem, hx]
      rw [hy]
      exact .none
    | some x =>
      have hmem : key ∈ ys.map Prod.fst :=
        (hkeys key).1 (List.mem_map_of_mem (mem_of_lookup hx))
      cases hy : ys.lookup key with
      | none => exact absurd hmem (lookup_eq_none_iff_not_mem.1 hy)
      | some y => exact .some (hvalues key x y (mem_of_lookup hx) (mem_of_lookup hy))

/-- What is looked up in a list of keys and items goes with the items. -/
theorem lookup_zip {xs ys : List Value} (h : List.Forall₂ Rearranged xs ys) (keys : List Text)
    (key : Text) :
    Option.Rel Rearranged ((keys.zip xs).lookup key) ((keys.zip ys).lookup key) := by
  induction h generalizing keys with
  | nil =>
    rw [List.zip_nil_right]
    exact .none
  | cons hitem _ ih =>
    cases keys with
    | nil => exact .none
    | cons first keys =>
      rw [List.zip_cons_cons, List.zip_cons_cons, List.lookup_cons, List.lookup_cons]
      split
      · exact .some hitem
      · exact ih keys

theorem of_table_nil {value : Value} (h : Rearranged (.table []) value) : value = .table [] := by
  cases h with
  | @table _ entries hkeys _ =>
    cases entries with
    | nil => rfl
    | cons entry rest => exact absurd ((hkeys entry.1).2 List.mem_cons_self) List.not_mem_nil

theorem of_array_nil {value : Value} (h : Rearranged (.array []) value) : value = .array [] := by
  cases h with
  | array hlength _ => rw [List.length_eq_zero_iff.1 hlength.symm]

/-- There is only one way to arrange a single entry. -/
theorem of_table_singleton {key : Text} {value other : Value}
    (h : Rearranged (.table [(key, value)]) other) (hother : other.KeysDistinct) :
    ∃ inner, other = .table [(key, inner)] ∧ Rearranged value inner := by
  cases h with
  | @table _ entries hsame hvalues =>
    have hkey : ∀ entry ∈ entries, entry.1 = key := fun entry he =>
      List.mem_singleton.1 ((hsame entry.1).2 (List.mem_map_of_mem he))
    match entries with
    | [] => exact absurd ((hsame key).1 List.mem_cons_self) List.not_mem_nil
    | [(name, inner)] =>
      obtain rfl : name = key := hkey _ List.mem_cons_self
      exact ⟨inner, rfl, hvalues name value inner List.mem_cons_self List.mem_cons_self⟩
    | (name, inner) :: second :: rest =>
      obtain rfl : name = key := hkey _ List.mem_cons_self
      have hsecond := hkey second (List.mem_cons_of_mem _ List.mem_cons_self)
      have hnone := lookup_eq_none_iff_not_mem.1 hother.of_cons.1
      exact absurd (by rw [← hsecond]; exact List.mem_cons_self) hnone

end Value.Rearranged

end WaveLayout.Toml

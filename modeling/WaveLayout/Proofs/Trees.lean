import Mathlib
import WaveLayout.FileTree

/-!
# File trees under writing and removing

**Entries.** `put` and `erase` change what stands at one location only. Putting something at a
location and erasing it again leaves the tree without the location, which is the tree itself if
nothing stood there.

**Directories.** Writing never replaces a directory and removing takes away a file, so both keep
the set of directories (`SameDirectories`). A walk that ends in a directory passes through
directories only, hence a path has the same target in two trees with the same directories
(`SameDirectories.target_iff`).

**Reading.** What stands at the target of a path is what reading the path gives. A file that is read
is read the same in a tree with the same directories where it stands as it was
(`SameDirectories.read`).
-/

namespace WaveLayout.FileTree

variable {tree before after : FileTree} {location other : Location} {path : Path}

/-! ## Entries -/

theorem lookup_filter_ne (entries : List (Location × Entry)) (location other : Location) :
    (entries.filter (·.1 ≠ location)).lookup other =
      if other = location then none else entries.lookup other := by
  induction entries with
  | nil => simp
  | cons entry rest ih =>
    obtain ⟨place, what⟩ := entry
    by_cases hp : place = location
    · subst hp
      rw [List.filter_cons_of_neg (by simp), ih, List.lookup_cons]
      by_cases ho : other = place
      · rw [if_pos ho, if_pos ho]
      · rw [if_neg ho, if_neg ho, beq_eq_false_iff_ne.2 ho]
    · rw [List.filter_cons_of_pos (by simpa using hp), List.lookup_cons, List.lookup_cons, ih]
      by_cases ho : other = place
      · subst ho
        simp [hp]
      · rw [beq_eq_false_iff_ne.2 ho]

theorem entry?_eq_lookup (h : location ≠ []) :
    tree.entry? location = tree.entries.lookup location := by
  cases location with
  | nil => exact absurd rfl h
  | cons name above => rfl

theorem entry?_put (h : location ≠ []) (entry : Entry) (other : Location) :
    entry? (tree.put location entry) other =
      if other = location then some entry else tree.entry? other := by
  cases other with
  | nil => rw [if_neg (Ne.symm h)]; rfl
  | cons name above =>
    rw [entry?_eq_lookup (List.cons_ne_nil name above), put, List.lookup_cons, lookup_filter_ne]
    by_cases ho : name :: above = location
    · subst ho
      simp
    · rw [if_neg ho, if_neg ho, beq_eq_false_iff_ne.2 ho]
      rfl

theorem entry?_erase (h : location ≠ []) (other : Location) :
    entry? (tree.erase location) other =
      if other = location then none else tree.entry? other := by
  cases other with
  | nil => rw [if_neg (Ne.symm h)]; rfl
  | cons name above =>
    rw [entry?_eq_lookup (List.cons_ne_nil name above), erase, lookup_filter_ne]
    rfl

/-- What is put at a location and erased again leaves no trace but the erasure. -/
theorem erase_put (tree : FileTree) (location : Location) (entry : Entry) :
    (tree.put location entry).erase location = tree.erase location := by
  simp [put, erase]

/-- What is put at two locations in turn is there after the first turn. -/
theorem put_put_put (tree : FileTree) (location other : Location) (entry : Entry) :
    (((tree.put location entry).put other entry).put location entry).put other entry =
      (tree.put location entry).put other entry := by
  by_cases ho : location = other
  · subst ho
    simp [put]
  · simp only [put, List.filter_cons, List.filter_filter, decide_not, ho, Ne.symm ho, decide_true,
      decide_false, Bool.not_true, Bool.not_false, if_true, Bool.false_eq_true, if_false]
    congr 3
    -- The rest of the entries is filtered twice in the same way.
    refine List.filter_congr fun old _ => ?_
    cases decide (old.1 = other) <;> cases decide (old.1 = location) <;> rfl

theorem erase_eq_self (h : location ≠ []) (hnone : tree.entry? location = none) :
    tree.erase location = tree := by
  rw [entry?_eq_lookup h, List.lookup_eq_none_iff] at hnone
  have hfilter : tree.entries.filter (·.1 ≠ location) = tree.entries :=
    List.filter_eq_self.2 fun entry he =>
      decide_eq_true (Ne.symm (bne_iff_ne.1 (hnone entry he)))
  rw [erase, hfilter]

/-! ## Trees with the same directories -/

/-- The trees have the same directories, and relative paths start from the same one. -/
structure SameDirectories (before after : FileTree) : Prop where
  workingDirectory : after.workingDirectory = before.workingDirectory
  directory_iff : ∀ location,
    after.entry? location = some .directory ↔ before.entry? location = some .directory

namespace SameDirectories

@[refl] theorem refl (tree : FileTree) : SameDirectories tree tree := ⟨rfl, fun _ => Iff.rfl⟩

theorem symm (h : SameDirectories before after) : SameDirectories after before :=
  ⟨h.workingDirectory.symm, fun location => (h.directory_iff location).symm⟩

theorem trans {between : FileTree} (h : SameDirectories before between)
    (h' : SameDirectories between after) : SameDirectories before after :=
  ⟨h'.workingDirectory.trans h.workingDirectory,
    fun location => (h'.directory_iff location).trans (h.directory_iff location)⟩

theorem put_file (h : location ≠ []) (hd : tree.entry? location ≠ some .directory)
    (content : Content) : SameDirectories tree (tree.put location (.file content)) := by
  refine ⟨rfl, ?_⟩
  intro other
  rw [entry?_put h]
  by_cases ho : other = location
  · subst ho
    simp [hd]
  · rw [if_neg ho]

theorem erase (h : location ≠ []) (hd : tree.entry? location ≠ some .directory) :
    SameDirectories tree (tree.erase location) := by
  refine ⟨rfl, ?_⟩
  intro other
  rw [entry?_erase h]
  by_cases ho : other = location
  · subst ho
    simp [hd]
  · rw [if_neg ho]

end SameDirectories

/-! ## Walks -/

theorem step_eq_ok_iff {piece : Text} {next : Location} :
    tree.step location piece = .ok next ↔
      tree.entry? location = some .directory ∧
        if Path.isFiller piece then next = location
        else if piece = ['.', '.'] then next = location.tail
        else Text.byteLength piece ≤ maxNameLength ∧ next = piece :: location ∧
          (tree.entry? next).isSome := by
  unfold step
  cases hl : tree.entry? location with
  | none => simp
  | some entry =>
    cases entry with
    | file content => simp
    | directory =>
      by_cases hf : Path.isFiller piece
      · simp [hf, eq_comm]
      · by_cases hdd : piece = ['.', '.']
        · simp [hdd, eq_comm, show ¬ Path.isFiller ['.', '.'] by decide]
        · by_cases hlen : maxNameLength < Text.byteLength piece
          · simp [hf, hdd, hlen, Nat.not_le.2 hlen]
          · by_cases he : (tree.entry? (piece :: location)).isSome
            · simp only [hf, hdd, hlen, he, Bool.false_eq_true, if_false, if_true, true_and,
                Except.ok.injEq, Nat.not_lt.1 hlen]
              constructor
              · rintro rfl
                exact ⟨rfl, he⟩
              · rintro ⟨rfl, -⟩
                rfl
            · simp only [hf, hdd, hlen, he, Bool.false_eq_true, if_false, true_and,
                reduceCtorEq, false_iff, not_and]
              rintro - rfl
              exact he

theorem walk_cons_eq_ok_iff {piece : Text} {pieces : List Text} {last : Location} :
    tree.walk location (piece :: pieces) = .ok last ↔
      ∃ next, tree.step location piece = .ok next ∧ tree.walk next pieces = .ok last := by
  rw [walk, List.foldlM_cons]
  cases hs : tree.step location piece with
  | error cause => simp [bind, Except.bind]
  | ok next => simp [bind, Except.bind, walk]

/-- A walk goes on from where its front part ends. -/
theorem walk_append {front : List Text} {next : Location}
    (h : tree.walk location front = .ok next) (rest : List Text) :
    tree.walk location (front ++ rest) = tree.walk next rest := by
  rw [walk, List.foldlM_append, ← walk, h]
  rfl

theorem walk_concat_eq_ok_iff {piece : Text} {pieces : List Text} {last : Location} :
    tree.walk location (pieces ++ [piece]) = .ok last ↔
      ∃ next, tree.walk location pieces = .ok next ∧ tree.step next piece = .ok last := by
  rw [walk, List.foldlM_append, ← walk]
  cases hw : tree.walk location pieces with
  | error cause => simp [bind, Except.bind]
  | ok next => cases hs : tree.step next piece <;> simp [bind, Except.bind, pure, Except.pure, hs]

theorem entry?_of_walk {pieces : List Text} {last : Location}
    (hw : tree.walk location pieces = .ok last) (hlast : tree.entry? last = some .directory) :
    tree.entry? location = some .directory := by
  cases pieces with
  | nil =>
    obtain rfl := Except.ok.inj hw
    exact hlast
  | cons piece pieces =>
    obtain ⟨next, hs, -⟩ := walk_cons_eq_ok_iff.1 hw
    exact (step_eq_ok_iff.1 hs).1

/-- A step leads the same way in every tree with the same directories where something still stands
at its end. -/
theorem SameDirectories.step (h : SameDirectories before after) {piece : Text} {next : Location}
    (hs : before.step location piece = .ok next) (hnext : (after.entry? next).isSome) :
    after.step location piece = .ok next := by
  obtain ⟨hl, hcase⟩ := step_eq_ok_iff.1 hs
  refine step_eq_ok_iff.2 ⟨(h.directory_iff location).2 hl, ?_⟩
  by_cases hf : Path.isFiller piece
  · rw [if_pos hf] at hcase ⊢
    exact hcase
  · rw [if_neg hf] at hcase ⊢
    by_cases hdd : piece = ['.', '.']
    · rw [if_pos hdd] at hcase ⊢
      exact hcase
    · rw [if_neg hdd] at hcase ⊢
      exact ⟨hcase.1, hcase.2.1, hnext⟩

/-- **Walks keep to directories.** A walk that ends in a directory goes the same way in every tree
with the same directories. -/
theorem SameDirectories.walk (h : SameDirectories before after) {pieces : List Text}
    {last : Location} (hw : before.walk location pieces = .ok last)
    (hlast : before.entry? last = some .directory) : after.walk location pieces = .ok last := by
  induction pieces generalizing location with
  | nil => exact hw
  | cons piece pieces ih =>
    obtain ⟨next, hs, hrest⟩ := walk_cons_eq_ok_iff.1 hw
    -- The next location is a directory before, so it stands there after as well.
    have hnext := (h.directory_iff next).2 (entry?_of_walk hrest hlast)
    exact walk_cons_eq_ok_iff.2 ⟨next, h.step hs (by rw [hnext]; rfl), ih hrest⟩

/-- A walk to a file goes the same way in every tree with the same directories where something still
stands at its end. Before its last step it is in directories only. -/
theorem SameDirectories.walk_of_isSome (h : SameDirectories before after) {pieces : List Text}
    {last : Location} (hw : before.walk location pieces = .ok last)
    (hlast : (after.entry? last).isSome) : after.walk location pieces = .ok last := by
  obtain rfl | ⟨front, piece, rfl⟩ := List.eq_nil_or_concat' pieces
  · exact hw
  · obtain ⟨next, hfront, hs⟩ := walk_concat_eq_ok_iff.1 hw
    have hnext := (step_eq_ok_iff.1 hs).1
    exact walk_concat_eq_ok_iff.2 ⟨next, h.walk hfront hnext, h.step hs hlast⟩

/-! ## Targets -/

/-- The target of a path is a name in the directory that the pieces before it lead to. -/
theorem target_eq_ok_iff :
    tree.target path = .ok location ↔
      check path = .ok () ∧ ∃ directory name,
        tree.walk (origin tree.workingDirectory path) path.pieces.dropLast = .ok directory ∧
        tree.entry? directory = some .directory ∧ path.pieces.getLastD [] = name ∧
        ¬ Path.isFiller name ∧ name ≠ ['.', '.'] ∧ Text.byteLength name ≤ maxNameLength ∧
        location = name :: directory := by
  unfold target
  cases hc : check path with
  | error cause => simp [bind, Except.bind]
  | ok _ =>
    cases hw : tree.walk (origin tree.workingDirectory path) path.pieces.dropLast with
    | error cause => simp [bind, Except.bind]
    | ok directory =>
      simp only [bind, Except.bind, true_and, Except.ok.injEq, exists_eq_left', exists_and_left]
      cases he : tree.entry? directory with
      | none => simp
      | some entry =>
        cases entry with
        | file content => simp
        | directory =>
          generalize path.pieces.getLastD [] = name
          by_cases hf : Path.isFiller name ∨ name = ['.', '.']
          · rcases hf with hf | hf <;> simp [hf]
          · by_cases hlen : maxNameLength < Text.byteLength name
            · simp [hf, hlen, Nat.not_le.2 hlen]
            · have hnot := not_or.1 hf
              simp [hnot.1, hnot.2, hlen, Nat.not_lt.1 hlen, eq_comm]

theorem ne_nil_of_target (h : tree.target path = .ok location) : location ≠ [] := by
  obtain ⟨-, directory, name, -, -, -, -, -, -, rfl⟩ := target_eq_ok_iff.1 h
  exact List.cons_ne_nil name directory

theorem SameDirectories.target (h : SameDirectories before after)
    (ht : before.target path = .ok location) : after.target path = .ok location := by
  obtain ⟨hc, directory, name, hw, hd, hrest⟩ := target_eq_ok_iff.1 ht
  refine target_eq_ok_iff.2 ⟨hc, directory, name, ?_, (h.directory_iff directory).2 hd, hrest⟩
  rw [h.workingDirectory]
  exact h.walk hw hd

/-- **Targets stay.** A path has the same target in trees with the same directories. -/
theorem SameDirectories.target_iff (h : SameDirectories before after) :
    after.target path = .ok location ↔ before.target path = .ok location :=
  ⟨h.symm.target, h.target⟩

/-! ## Requests -/

theorem write_eq_ok_iff {text : Text} :
    tree.write path text = .ok after ↔
      ∃ location, tree.target path = .ok location ∧ tree.entry? location ≠ some .directory ∧
        after = tree.put location (.file (.text text)) := by
  unfold write
  cases ht : tree.target path with
  | error cause => simp [bind, Except.bind]
  | ok location =>
    simp only [bind, Except.bind, Except.ok.injEq, exists_eq_left']
    split
    · next he => simp [he]
    · next he =>
      have hne : tree.entry? location ≠ some .directory := he
      simp [hne, eq_comm (a := after)]

theorem remove_eq_ok_iff :
    tree.remove path = .ok after ↔
      ∃ location content, tree.target path = .ok location ∧
        tree.entry? location = some (.file content) ∧ after = tree.erase location := by
  unfold remove
  cases ht : tree.target path with
  | error cause => simp [bind, Except.bind]
  | ok location =>
    simp only [bind, Except.bind, Except.ok.injEq, exists_eq_left', exists_and_left]
    split
    · next he => simp [he]
    · next he => simp [he]
    · next content he => simp [he, eq_comm]

/-! ## Reading -/

theorem locateFrom_eq_ok_iff {start : Location} :
    tree.locateFrom start path = .ok location ↔
      check path = .ok () ∧ tree.walk (origin start path) path.pieces = .ok location := by
  unfold locateFrom
  cases hc : check path with
  | error cause => simp [bind, Except.bind]
  | ok _ => simp [bind, Except.bind]

theorem read_eq_ok_iff {text : Text} :
    tree.read path = .ok text ↔
      ∃ location, tree.locateFrom tree.workingDirectory path = .ok location ∧
        tree.entry? location = some (.file (.text text)) := by
  unfold read readFrom
  cases hl : tree.locateFrom tree.workingDirectory path with
  | error cause => simp [bind, Except.bind]
  | ok location =>
    simp only [bind, Except.bind, Except.ok.injEq, exists_eq_left']
    split
    · next he => simp [he]
    · next he => simp [he]
    · next he => simp [he]
    · next content he => simp [he]

/-- **Reading what stands at a target.** The path leads there and gives the text of the file. -/
theorem read_of_target {text : Text} (ht : tree.target path = .ok location)
    (he : tree.entry? location = some (.file (.text text))) : tree.read path = .ok text := by
  obtain ⟨hc, directory, name, hw, hd, hname, hf, hdd, hlen, rfl⟩ := target_eq_ok_iff.1 ht
  have hne : path.pieces ≠ [] := List.splitOn_ne_nil _ _
  have hpieces : path.pieces.dropLast ++ [name] = path.pieces := by
    rw [← hname, List.getLastD_eq_getLast?, List.getLast?_eq_some_getLast hne]
    exact List.dropLast_concat_getLast hne
  refine read_eq_ok_iff.2 ⟨name :: directory, locateFrom_eq_ok_iff.2 ⟨hc, ?_⟩, he⟩
  refine hpieces ▸ walk_concat_eq_ok_iff.2 ⟨directory, hw, step_eq_ok_iff.2 ⟨hd, ?_⟩⟩
  rw [if_neg hf, if_neg hdd, he]
  exact ⟨hlen, rfl, rfl⟩

/-- **Reading stays.** A file that is read gives the same text in every tree with the same
directories where it stands as it was. -/
theorem SameDirectories.read (h : SameDirectories before after) {text : Text}
    (hr : before.read path = .ok text)
    (hkept : ∀ location, before.locateFrom before.workingDirectory path = .ok location →
      after.entry? location = before.entry? location) : after.read path = .ok text := by
  obtain ⟨location, hl, he⟩ := read_eq_ok_iff.1 hr
  have hentry : after.entry? location = some (.file (.text text)) := (hkept location hl).trans he
  obtain ⟨hc, hw⟩ := locateFrom_eq_ok_iff.1 hl
  refine read_eq_ok_iff.2 ⟨location, locateFrom_eq_ok_iff.2 ⟨hc, ?_⟩, hentry⟩
  rw [h.workingDirectory]
  exact h.walk_of_isSome hw (by rw [hentry]; rfl)

/-! ## Files with a text -/

/-- A file with the text stands at the target of the path. -/
def Holds (tree : FileTree) (path : Path) (text : Text) : Prop :=
  ∃ location, tree.target path = .ok location ∧ tree.entry? location = some (.file (.text text))

theorem Holds.read {text : Text} (h : tree.Holds path text) : tree.read path = .ok text := by
  obtain ⟨location, ht, he⟩ := h
  exact read_of_target ht he

theorem SameDirectories.of_write {text : Text} (h : tree.write path text = .ok after) :
    SameDirectories tree after := by
  obtain ⟨location, ht, hd, rfl⟩ := write_eq_ok_iff.1 h
  exact .put_file (ne_nil_of_target ht) hd _

theorem holds_of_write {text : Text} (h : tree.write path text = .ok after) :
    after.Holds path text := by
  obtain ⟨location, ht, -, hafter⟩ := write_eq_ok_iff.1 h
  refine ⟨location, (SameDirectories.of_write h).target ht, ?_⟩
  rw [hafter, entry?_put (ne_nil_of_target ht), if_pos rfl]

/-- A write of the same text keeps a file with this text, also where the two paths meet. -/
theorem Holds.of_write {other : Path} {text : Text} (h : tree.Holds path text)
    (hw : tree.write other text = .ok after) : after.Holds path text := by
  obtain ⟨location, ht, he⟩ := h
  refine ⟨location, (SameDirectories.of_write hw).target ht, ?_⟩
  obtain ⟨place, hp, -, rfl⟩ := write_eq_ok_iff.1 hw
  rw [entry?_put (ne_nil_of_target hp)]
  by_cases hl : location = place
  · rw [if_pos hl]
  · rw [if_neg hl, he]

/-- What is written can be removed, and without it the tree is the one before less the target. -/
theorem remove_of_write {text : Text} (h : tree.write path text = .ok after) :
    ∃ location, tree.target path = .ok location ∧ tree.entry? location ≠ some .directory ∧
      after.remove path = .ok (tree.erase location) := by
  obtain ⟨location, ht, hd, hafter⟩ := write_eq_ok_iff.1 h
  refine ⟨location, ht, hd, remove_eq_ok_iff.2
    ⟨location, .text text, (SameDirectories.of_write h).target ht, ?_, ?_⟩⟩
  · rw [hafter, entry?_put (ne_nil_of_target ht), if_pos rfl]
  · rw [hafter, erase_put]

end WaveLayout.FileTree

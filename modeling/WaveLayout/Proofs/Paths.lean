import WaveLayout.Proofs.Trees
import WaveLayout.Proofs.Words

/-!
# Paths by pieces

**File names.** A file name is a piece of its path, so it holds no slash
(`not_mem_slash_of_fileName?`).

**Joining.** Joining a directory and a relative path puts their pieces one after the other, up to
the filler that a slash at the end of the directory leaves (`pieces_join`). So the joined path
leads where the relative path leads from that directory (`walk_join`). A name without slash adds one
piece, and the joined path has no other target than the entry with that name in that very directory
(`target_join`). An absolute name would take the place of the directory, and a name with slashes
would lead on.

**Parents.** The parent of a path is a front part of its text (`text_parent_isPrefix`). It leads to
where the pieces before the last one lead (`namesDirectory_parent`): filler is dropped from it, but
filler leads nowhere, and `..` is kept.
-/

namespace WaveLayout

open Text

namespace Path

/-! ## File names -/

theorem dropFiller_isSuffix (pieces : List Text) : dropFiller pieces <:+ pieces := by
  induction pieces with
  | nil => exact List.suffix_rfl
  | cons last before ih =>
    cases before with
    | nil => exact List.suffix_rfl
    | cons next rest =>
      rw [dropFiller]
      split
      · exact ih.trans (List.suffix_cons last _)
      · exact List.suffix_rfl

theorem dropFiller_ne_nil {pieces : List Text} (h : pieces ≠ []) : dropFiller pieces ≠ [] := by
  induction pieces with
  | nil => exact h
  | cons last before ih =>
    cases before with
    | nil => exact h
    | cons next rest =>
      rw [dropFiller]
      split
      · exact ih (List.cons_ne_nil next rest)
      · exact List.cons_ne_nil last _

theorem mem_pieces_of_fileName? {path : Path} {name : Text} (h : path.fileName? = some name) :
    name ∈ path.pieces := by
  unfold fileName? at h
  split at h
  · cases h
  · next last before heq =>
    split at h
    · cases h
    · obtain rfl := Option.some.inj h
      have hlast : last ∈ dropFiller path.pieces.reverse := by
        rw [heq]
        exact List.mem_cons_self
      exact List.mem_reverse.1 ((dropFiller_isSuffix _).subset hlast)

theorem not_mem_slash_of_fileName? {path : Path} {name : Text}
    (h : path.fileName? = some name) : '/' ∉ name :=
  not_mem_of_mem_splitOn (mem_pieces_of_fileName? h)

/-! ## Joining -/

variable {name : Text} {reference : Path}

theorem isAbsolute_eq_false_of_not_mem (h : '/' ∉ name) : isAbsolute ⟨name⟩ = false := by
  cases name with
  | nil => rfl
  | cons c rest =>
    have hc : c ≠ '/' := by
      rintro rfl
      exact h List.mem_cons_self
    simpa [isAbsolute] using hc

theorem text_join (directory : Path) (h : reference.isAbsolute = false) :
    ∃ separator, (directory.join reference).text = directory.text ++ separator ++ reference.text ∧
      (separator = [] ∨ separator = ['/']) := by
  unfold join
  rw [h, if_neg Bool.false_ne_true]
  split
  · exact ⟨[], by simp, .inl rfl⟩
  · exact ⟨['/'], by simp, .inr rfl⟩

theorem isAbsolute_join (directory : Path) (h : reference.isAbsolute = false) :
    (directory.join reference).isAbsolute = directory.isAbsolute := by
  unfold join
  rw [h, if_neg Bool.false_ne_true]
  by_cases hempty : directory.text = []
  · simpa [isAbsolute, hempty] using h
  · have hhead : ∀ s : Text, (directory.text ++ s).head? = directory.text.head? :=
      fun s => List.head?_append_of_ne_nil _ hempty
    by_cases hslash : directory.text.getLast? = some '/'
    · simp [isAbsolute, hslash, hhead]
    · simp [isAbsolute, hempty, hslash, hhead]

/-- The pieces of the reference come after those of the directory, in place of an empty last
piece. -/
theorem pieces_join (directory : Path) (h : reference.isAbsolute = false) :
    ∃ before, (directory.join reference).pieces = before ++ reference.pieces ∧
      (directory.pieces = before ∨ directory.pieces = before ++ [[]]) := by
  unfold join
  rw [h, if_neg Bool.false_ne_true]
  by_cases hempty : directory.text = []
  · refine ⟨[], ?_, .inr ?_⟩
    · simp [pieces, hempty]
    · simp [pieces, hempty]
  · by_cases hslash : directory.text.getLast? = some '/'
    · obtain ⟨front, hfront⟩ := List.getLast?_eq_some_iff.1 hslash
      rw [if_pos (.inr hslash)]
      refine ⟨front.splitOn '/', ?_, .inr ?_⟩
      · rw [pieces, hfront, List.append_assoc, List.singleton_append,
          List.splitOn_append_cons_self, pieces]
      · rw [pieces, hfront, List.splitOn_append_cons_self]
        simp
    · rw [if_neg (not_or.2 ⟨hempty, hslash⟩)]
      refine ⟨directory.pieces, ?_, .inl rfl⟩
      rw [pieces, List.splitOn_append_cons_self, pieces, pieces]

/-! ## Parents -/

theorem join_pieces (path : Path) : Text.join ['/'] path.pieces = path.text :=
  List.intercalate_splitOn '/'

theorem join_isPrefix (pieces rest : List Text) :
    Text.join ['/'] pieces <+: Text.join ['/'] (pieces ++ rest) := by
  induction pieces with
  | nil => exact List.nil_prefix
  | cons piece pieces ih =>
    unfold Text.join at ih ⊢
    cases pieces with
    | nil =>
      rw [List.intercalate_singleton]
      cases rest with
      | nil => rw [List.append_nil, List.intercalate_singleton]
      | cons next rest =>
        rw [List.singleton_append, List.intercalate_cons_cons, List.append_assoc]
        exact List.prefix_append piece _
    | cons next pieces =>
      rw [List.cons_append, List.cons_append, List.intercalate_cons_cons,
        List.intercalate_cons_cons]
      exact (List.prefix_append_right_inj _).2 ih

theorem text_ofPieces_isPrefix {path : Path} {front rest : List Text}
    (h : path.pieces = front ++ rest) (hrest : rest ≠ []) :
    (ofPieces front).text <+: path.text := by
  have htext : path.text = Text.join ['/'] (front ++ rest) := by
    rw [← h, join_pieces]
  unfold ofPieces
  split
  · -- The root: an empty piece in front of others leaves a slash.
    obtain ⟨next, more, rfl⟩ := List.exists_cons_of_ne_nil hrest
    rw [htext, Text.join, List.singleton_append, List.intercalate_cons_cons, List.nil_append]
    exact List.prefix_append ['/'] _
  · rw [htext]
    exact join_isPrefix front rest

/-- **The parent is a front part of the path.** -/
theorem text_parent_isPrefix {path parent : Path} (h : path.parent? = some parent) :
    parent.text <+: path.text := by
  unfold parent? at h
  obtain ⟨filler, hfiller⟩ := dropFiller_isSuffix path.pieces.reverse
  split at h
  · cases h
  · split at h
    · cases h
    · obtain rfl := Option.some.inj h
      exact List.nil_prefix
  · next last before _ heq =>
    obtain rfl := Option.some.inj h
    obtain ⟨filler', hfiller'⟩ := dropFiller_isSuffix before
    have hpieces : path.pieces =
        (dropFiller before).reverse ++ (filler'.reverse ++ last :: filler.reverse) := by
      rw [← List.reverse_inj, ← hfiller, heq]
      simp [hfiller']
    exact text_ofPieces_isPrefix hpieces (by simp)

theorem isAbsolute_of_isPrefix {front path : Path} (h : front.text <+: path.text)
    (hne : front.text ≠ []) : front.isAbsolute = path.isAbsolute := by
  obtain ⟨rest, hrest⟩ := h
  rw [isAbsolute, isAbsolute, ← hrest, List.head?_append_of_ne_nil _ hne]

/-- Pieces without slashes are the pieces of their path, but for the root, which has two. -/
theorem pieces_ofPieces {front : List Text} (hne : front ≠ [])
    (hslash : ∀ piece ∈ front, '/' ∉ piece) :
    (ofPieces front).text ≠ [] ∧
      ((ofPieces front).pieces = front ∨ (ofPieces front).pieces = front ++ [[]]) := by
  unfold ofPieces
  split
  · exact ⟨List.cons_ne_nil _ _, .inr (by decide)⟩
  · next hroot =>
    have hpieces : (Text.join ['/'] front).splitOn '/' = front :=
      List.splitOn_intercalate '/' hslash hne
    refine ⟨?_, .inl hpieces⟩
    intro hempty
    rw [show Text.join ['/'] front = [] from hempty] at hpieces
    exact hroot hpieces.symm

end Path

/-! ## Directories -/

namespace FileTree

variable {tree : FileTree} {path directory reference : Path} {name : Text} {location : Location}

/-- The path leads to the directory at the location. The empty path leads to the working
directory. -/
def NamesDirectory (tree : FileTree) (path : Path) (location : Location) : Prop :=
  tree.walk (origin tree.workingDirectory path) path.pieces = .ok location ∧
    tree.entry? location = some .directory

theorem walk_concat_nil_iff {pieces : List Text} {start : Location} :
    tree.walk start (pieces ++ [[]]) = .ok location ↔
      tree.walk start pieces = .ok location ∧ tree.entry? location = some .directory := by
  rw [walk_concat_eq_ok_iff]
  constructor
  · rintro ⟨next, hw, hs⟩
    obtain ⟨hd, rfl⟩ := step_eq_ok_iff.1 hs
    exact ⟨hw, hd⟩
  · rintro ⟨hw, hd⟩
    exact ⟨location, hw, step_eq_ok_iff.2 ⟨hd, rfl⟩⟩

/-- A walk along the pieces of a directory may leave out an empty piece at the end, and it may have
one more. -/
theorem namesDirectory_iff {before : List Text}
    (h : path.pieces = before ∨ path.pieces = before ++ [[]]) :
    tree.NamesDirectory path location ↔
      tree.walk (origin tree.workingDirectory path) before = .ok location ∧
        tree.entry? location = some .directory := by
  rcases h with h | h
  · rw [NamesDirectory, h]
  · rw [NamesDirectory, h, walk_concat_nil_iff, and_assoc, and_self]

theorem walk_join (hd : tree.NamesDirectory directory location) (h : reference.isAbsolute = false) :
    tree.walk (origin tree.workingDirectory (directory.join reference))
        (directory.join reference).pieces =
      tree.walk location reference.pieces := by
  obtain ⟨before, hpieces, hdirectory⟩ := Path.pieces_join directory h
  have horigin : origin tree.workingDirectory (directory.join reference) =
      origin tree.workingDirectory directory := by
    rw [origin, origin, Path.isAbsolute_join directory h]
  rw [hpieces, horigin]
  exact walk_append ((namesDirectory_iff hdirectory).1 hd).1 reference.pieces

theorem walk_dropFiller {pieces : List Text} {start : Location}
    (h : tree.walk start pieces.reverse = .ok location) :
    tree.walk start (Path.dropFiller pieces).reverse = .ok location := by
  induction pieces with
  | nil => exact h
  | cons last before ih =>
    cases before with
    | nil => exact h
    | cons piece rest =>
      rw [Path.dropFiller]
      split
      · next hfiller =>
        rw [List.reverse_cons, walk_concat_eq_ok_iff] at h
        obtain ⟨next, hw, hs⟩ := h
        have hstay := (step_eq_ok_iff.1 hs).2
        rw [if_pos hfiller] at hstay
        exact ih (hstay ▸ hw)
      · exact h

/-- **The parent leads to the directory of the last piece.** -/
theorem namesDirectory_parent {before : List Text} (hpieces : path.pieces = before ++ [name])
    (hname : ¬ Path.isFiller name)
    (hwalk : tree.walk (origin tree.workingDirectory path) before = .ok location)
    (hd : tree.entry? location = some .directory) :
    ∃ parent, path.parent? = some parent ∧ tree.NamesDirectory parent location := by
  have hslash : ∀ piece ∈ path.pieces, '/' ∉ piece := fun piece hp => not_mem_of_mem_splitOn hp
  have hdrop : Path.dropFiller path.pieces.reverse = name :: before.reverse := by
    rw [hpieces, List.reverse_concat]
    cases before.reverse with
    | nil => rfl
    | cons last rest => rw [Path.dropFiller, if_neg hname]
  by_cases hbefore : before = []
  · -- A single name, whose parent is the empty path.
    subst hbefore
    have hne : name ≠ [] := by
      rintro rfl
      exact hname rfl
    have htext : path.text = name := by
      rw [← Path.join_pieces, hpieces]
      exact List.intercalate_singleton
    have hrelative : path.isAbsolute = false := by
      have hnot := hslash name (by simp [hpieces])
      rw [← htext] at hnot
      exact Path.isAbsolute_eq_false_of_not_mem hnot
    have hempty : Path.pieces ⟨[]⟩ = [] ++ [[]] := rfl
    refine ⟨⟨[]⟩, by simp [Path.parent?, hdrop, hne], (namesDirectory_iff (.inr hempty)).2 ⟨?_, hd⟩⟩
    rwa [origin, hrelative] at hwalk
  · obtain ⟨kept, hkept⟩ : ∃ kept, kept = (Path.dropFiller before.reverse).reverse := ⟨_, rfl⟩
    have hparent : path.parent? = some (Path.ofPieces kept) := by
      obtain ⟨last, rest, hlast⟩ :=
        List.exists_cons_of_ne_nil (List.reverse_ne_nil_iff.2 hbefore)
      rw [Path.parent?, hdrop, hkept, hlast]
    have hmem : ∀ piece ∈ kept, '/' ∉ piece := by
      intro piece hp
      rw [hkept, List.mem_reverse] at hp
      have hkeptOf := List.mem_reverse.1 ((Path.dropFiller_isSuffix _).subset hp)
      exact hslash piece (hpieces ▸ List.mem_append_left _ hkeptOf)
    have hne : kept ≠ [] := by
      rw [hkept]
      exact List.reverse_ne_nil_iff.2
        (Path.dropFiller_ne_nil (List.reverse_ne_nil_iff.2 hbefore))
    obtain ⟨htext, hpieces'⟩ := Path.pieces_ofPieces hne hmem
    have horigin : origin tree.workingDirectory (Path.ofPieces kept) =
        origin tree.workingDirectory path := by
      rw [origin, origin, Path.isAbsolute_of_isPrefix (Path.text_parent_isPrefix hparent) htext]
    refine ⟨_, hparent, (namesDirectory_iff hpieces').2 ⟨?_, hd⟩⟩
    rw [horigin, hkept]
    exact walk_dropFiller (by rwa [List.reverse_reverse])

/-! ## Entries -/

/-- The location is that of an entry with the name in the directory that the path leads to. -/
def IsEntryOf (tree : FileTree) (directory : Path) (name : Text) (location : Location) : Prop :=
  ∃ place, tree.NamesDirectory directory place ∧ location = name :: place

/-- **A name joined to a directory is an entry of it.** -/
theorem target_join (h : '/' ∉ name)
    (ht : tree.target (directory.join ⟨name⟩) = .ok location) :
    tree.IsEntryOf directory name location := by
  obtain ⟨-, place, last, hwalk, hplace, hlast, -, -, -, rfl⟩ := target_eq_ok_iff.1 ht
  have hrelative := Path.isAbsolute_eq_false_of_not_mem h
  obtain ⟨before, hpieces, hdirectory⟩ := Path.pieces_join directory hrelative
  have hname : Path.pieces ⟨name⟩ = [name] := List.splitOn_eq_singleton h
  have horigin : origin tree.workingDirectory (directory.join ⟨name⟩) =
      origin tree.workingDirectory directory := by
    rw [origin, origin, Path.isAbsolute_join directory hrelative]
  rw [hpieces, hname, List.dropLast_concat, horigin] at hwalk
  rw [hpieces, hname, List.getLastD_concat] at hlast
  subst hlast
  exact ⟨place, (namesDirectory_iff hdirectory).2 ⟨hwalk, hplace⟩, rfl⟩

end FileTree

end WaveLayout

import WaveLayout.Proofs.References

/-!
# Quoted entries of a project file

An entry is read word by word, and the quotes are taken off each word on its own. So quotes do not
keep a path with blanks together: of `"my dir/m.v"`, the source is `dir/m.v`.

**Theorem.** Let the last entry that lists a source of a module have a single path between double
quotes, let that path hold no quote, and let it have the file name of such a source. Then the source
is the first word of the path that has the file name of a source by itself, and the earlier entries
count if there is no such word. So the path is read back exactly if it holds no blank.

The quotes stick to the first and the last word of the path, and to no other one. Taking the quotes
off leaves these words, and an empty one where a quote stood alone (`unquotedWords_quoted`).
-/

namespace WaveLayout.Project

open Text

variable {moduleName kind library path line : Text} {before after : List Text}

/-! ## Words between quotes -/

/-- The words of the text without their quotes, as far as something is left of them. -/
def unquotedWords (s : Text) : List Text :=
  ((words s).map (trimBy (· == '"'))).filter (· ≠ [])

theorem unquotedWords_append_cons {c : Char} (hc : isBlank c = true) (s t : Text) :
    unquotedWords (s ++ c :: t) = unquotedWords s ++ unquotedWords t := by
  rw [unquotedWords, words, wordsBy_append_cons hc, List.map_append, List.filter_append]
  rfl

theorem unquotedWords_of_forall_not {run : Text} (h : ∀ c ∈ run, isBlank c = false) :
    unquotedWords run = if trimBy (· == '"') run = [] then [] else [trimBy (· == '"') run] := by
  by_cases hrun : run = []
  · subst hrun
    rfl
  · rw [unquotedWords, words, wordsBy_of_forall_not hrun h]
    by_cases htrim : trimBy (· == '"') run = []
    · simp [htrim]
    · simp [htrim]

theorem unquotedWords_cons_quote (s : Text) : unquotedWords ('"' :: s) = unquotedWords s := by
  have hquote : isBlank '"' = false := by decide
  induction s using runInduction isBlank with
  | last run hr =>
    rw [unquotedWords_of_forall_not (List.forall_mem_cons.2 ⟨hquote, hr⟩),
      unquotedWords_of_forall_not hr, trimBy_cons rfl]
  | cut run c rest hr hc ihrun _ =>
    rw [← List.cons_append, unquotedWords_append_cons hc, unquotedWords_append_cons hc, ihrun]

theorem unquotedWords_concat_quote (s : Text) :
    unquotedWords (s ++ ['"']) = unquotedWords s := by
  have hquote : isBlank '"' = false := by decide
  induction s using runInduction isBlank with
  | last run hr =>
    rw [unquotedWords_of_forall_not (List.forall_mem_append.2 ⟨hr, by simpa using hquote⟩),
      unquotedWords_of_forall_not hr, trimBy_concat rfl]
  | cut run c rest hr hc _ ih =>
    rw [List.append_assoc, List.cons_append, unquotedWords_append_cons hc,
      unquotedWords_append_cons hc, ih]

theorem unquotedWords_of_not_mem {s : Text} (h : '"' ∉ s) : unquotedWords s = words s := by
  have htrim : ∀ word ∈ words s, trimBy (· == '"') word = id word := by
    intro word hword
    apply trimBy_eq_self
    intro c hc
    rw [beq_eq_false_iff_ne]
    rintro rfl
    exact h ((mem_wordsBy hword).2 '"' hc).2
  rw [unquotedWords, List.map_congr_left htrim, List.map_id, List.filter_eq_self]
  intro word hword
  simpa using (mem_words hword).1

/-- **Words between quotes.** They are the words of the text, although a quote may stick to one of
them or stand alone. -/
theorem unquotedWords_quoted (h : '"' ∉ path) :
    unquotedWords ('"' :: (path ++ ['"'])) = words path := by
  rw [unquotedWords_cons_quote, unquotedWords_concat_quote, unquotedWords_of_not_mem h]

/-! ## Entries -/

/-- The line is an entry with a single path between double quotes, with blanks between its three
parts and maybe around them. -/
def IsQuotedEntry (kind library path line : Text) : Prop :=
  ∃ front first second back,
    line = front ++ (kind ++ (first ++ (library ++ (second ++ ('"' :: (path ++ ['"']) ++ back))))) ∧
    (∀ c ∈ front, isBlank c = true) ∧ (first ≠ [] ∧ ∀ c ∈ first, isBlank c = true) ∧
    (second ≠ [] ∧ ∀ c ∈ second, isBlank c = true) ∧ ∀ c ∈ back, isBlank c = true

theorem IsQuotedEntry.words_eq (h : IsQuotedEntry kind library path line)
    (hkind : kind ∈ sourceKinds) (hlibrary : library ≠ [] ∧ ∀ c ∈ library, isBlank c = false) :
    words line = kind :: library :: words ('"' :: (path ++ ['"'])) := by
  obtain ⟨front, first, second, back, rfl, hfront, hfirst, hsecond, hback⟩ := h
  have hword : ∀ kind ∈ sourceKinds, kind ≠ [] ∧ kind.all (!isBlank ·) = true := by decide
  obtain ⟨hne, hall⟩ := hword kind hkind
  have hnot : ∀ c ∈ kind, isBlank c = false := by simpa using hall
  rw [words, wordsBy_append_of_forall hfront, wordsBy_append_gap hne hnot hfirst.1 hfirst.2,
    wordsBy_append_gap hlibrary.1 hlibrary.2 hsecond.1 hsecond.2,
    wordsBy_append_of_forall_right hback]
  rfl

/-- The source in a quoted entry is the first word of the path that can be one. -/
theorem IsQuotedEntry.entrySource?_eq (h : IsQuotedEntry kind library path line)
    (hkind : kind ∈ sourceKinds) (hlibrary : library ≠ [] ∧ ∀ c ∈ library, isBlank c = false)
    (hquote : '"' ∉ path) :
    entrySource? moduleName line = (words path).find? (isSourceOf moduleName) := by
  have hnonempty : ∀ s : Text, (s ≠ [] ∧ isSourceOf moduleName s = true) ↔
      isSourceOf moduleName s = true := by
    intro s
    constructor
    · exact And.right
    · intro hs
      refine ⟨?_, hs⟩
      rintro rfl
      simp [isSourceOf_nil] at hs
  rw [entrySource?, h.words_eq hkind hlibrary, ← unquotedWords_quoted hquote, unquotedWords,
    List.find?_filter]
  simp [hkind, hnonempty]

/-! ## The source of a module -/

/-- A listed source is made of characters of a word, so it holds no blank. -/
theorem not_isBlank_of_source? {project : List Text} {reference : Text}
    (h : source? moduleName project = some reference) : ∀ c ∈ reference, isBlank c = false := by
  obtain ⟨_, line, _, -, hlists, -⟩ := source?_eq_some_iff.1 h
  obtain ⟨_, _, _, word, _, hwords, -, ⟨front, back, hword, -⟩, -⟩ := hlists
  have hmem : word ∈ words line := by simp [hwords]
  intro c hc
  exact (mem_words hmem).2 c (by simp [hword, hc])

/-- **When a quoted path is read back.** If no entry behind a quoted entry lists a source of the
module, the source is the first word of the quoted path that is a path of a source by itself, and
that of the entries in front if there is no such word. A quoted path of a source is read back
exactly if it holds no blank. -/
theorem source?_of_quoted_entry (hkind : kind ∈ sourceKinds)
    (hlibrary : library ≠ [] ∧ ∀ c ∈ library, isBlank c = false) (hquote : '"' ∉ path)
    (hsource : IsSource moduleName path) (hentry : IsQuotedEntry kind library path line)
    (hlast : ∀ other ∈ after, ∀ reference, ¬ ListsSource moduleName other reference) :
    source? moduleName (before ++ line :: after) =
        ((words path).find? (isSourceOf moduleName)).or (source? moduleName before) ∧
      (source? moduleName (before ++ line :: after) = some path ↔
        ∀ c ∈ path, isBlank c = false) := by
  have hafter : after.filterMap (entrySource? moduleName) = [] := by
    rw [List.filterMap_eq_nil_iff]
    intro other hother
    exact (eq_none_iff_of_rel (entrySource?_eq_some_iff moduleName) other).2 (hlast other hother)
  have heq : source? moduleName (before ++ line :: after) =
      ((words path).find? (isSourceOf moduleName)).or (source? moduleName before) := by
    rw [source?, source?, List.filterMap_append, List.filterMap_cons, hafter,
      hentry.entrySource?_eq hkind hlibrary hquote, List.getLast?_append]
    cases (words path).find? (isSourceOf moduleName) with
    | none => rfl
    | some reference => rfl
  refine ⟨heq, not_isBlank_of_source?, ?_⟩
  intro hblank
  rw [heq, words, wordsBy_of_forall_not (ne_nil_of_isSource hsource) hblank]
  simp [isSource_iff.1 hsource]

theorem isQuotedEntry (kind library path : Text) :
    IsQuotedEntry kind library path
      (kind ++ ([' '] ++ (library ++ ([' '] ++ '"' :: (path ++ ['"']))))) := by
  have hgap : [' '] ≠ [] ∧ ∀ c ∈ [' '], isBlank c = true :=
    ⟨List.cons_ne_nil _ _, List.forall_mem_singleton.2 (by decide)⟩
  exact ⟨[], [' '], [' '], [], by simp, nofun, hgap, hgap, nofun⟩

theorem not_isBlank_of_all {s : Text} (h : s.all (!isBlank ·) = true) :
    ∀ c ∈ s, isBlank c = false := by
  simpa using h

/-- One entry whose path is read back, and one whose path loses the words up to its last blank. -/
theorem quoted_path_with_blank_cut :
    source? "m" ["sv lib \"rtl/m.sv\""] = some "rtl/m.sv" ∧
      source? "m" ["verilog work \"my dir/m.v\""] = some "dir/m.v" := by
  constructor
  · have hread := @source?_of_quoted_entry "m" "sv" "lib" "rtl/m.sv" _ [] [] (by decide)
      ⟨by decide, not_isBlank_of_all (by decide)⟩ (by decide) (isSource_iff.2 (by decide))
      (isQuotedEntry "sv" "lib" "rtl/m.sv") nofun
    exact hread.2.2 (not_isBlank_of_all (by decide))
  · have hread := @source?_of_quoted_entry "m" "verilog" "work" "my dir/m.v" _ [] [] (by decide)
      ⟨by decide, not_isBlank_of_all (by decide)⟩ (by decide) (isSource_iff.2 (by decide))
      (isQuotedEntry "verilog" "work" "my dir/m.v") nofun
    exact hread.1.trans (by decide)

/-- **A quoted path with a blank is not read back.** -/
theorem quoted_path_not_read_back :
    ¬ ∀ (moduleName kind library path line : Text) (before after : List Text),
      kind ∈ sourceKinds → (library ≠ [] ∧ ∀ c ∈ library, isBlank c = false) → '"' ∉ path →
      IsUnbroken path → IsSource moduleName path → IsQuotedEntry kind library path line →
      (∀ other ∈ after, ∀ reference, ¬ ListsSource moduleName other reference) →
        source? moduleName (before ++ line :: after) = some path := by
  intro hall
  have hread := hall "m" "verilog" "work" "my dir/m.v" _ [] [] (by decide)
    ⟨by decide, not_isBlank_of_all (by decide)⟩ (by decide) (by decide) (isSource_iff.2 (by decide))
    (isQuotedEntry "verilog" "work" "my dir/m.v") nofun
  exact absurd hread (by decide)

end WaveLayout.Project

import WaveLayout.Proofs.Decoding
import WaveLayout.Proofs.Runs

/-!
# Printing declarations

A declaration is **printed** as a line of words with a blank between neighbours: a keyword of its
direction, any qualifiers, the range if there is one, and the identifier.

**Theorem.** The classifier reads a printed declaration back, whatever the qualifiers, provided that
the name is well formed. All names that the classifier finds are well formed, so these are exactly
the names that some line declares. Well-formed names are told apart by how they are rendered.

The printed words hold no separators, so they are the plain tokens of the line (`tokens_printed`).
The range is the only word with delimiters, and it is cut into its five ranged tokens
(`isSegmentation_range`).
-/

namespace WaveLayout

namespace Verilog

open Text

/-! ## Printed declarations -/

/-- The words of a declaration: keyword, qualifiers, range and identifier. -/
def printedWords (keyword : Text) (words : List Text) (name : SignalName) : List Text :=
  keyword :: (words ++ ((name.range.map BitRange.render).toList ++ [name.base]))

/-- The line that declares the name, its words with a blank between neighbours. -/
def printed (keyword : Text) (words : List Text) (name : SignalName) : Text :=
  join [' '] (printedWords keyword words name)

/-- **The range is cut into five pieces.** -/
theorem isSegmentation_range {range : BitRange}
    (h : IsCleanBound range.msb ∧ IsCleanBound range.lsb) :
    IsSegmentation range.render (rangeTokens (some range)) := by
  have hdelimiter : ∀ c, isRangeDelimiter c = true → IsDelimiter [c] := fun c hc => ⟨c, hc, rfl⟩
  have hopen := hdelimiter '[' (by decide)
  have hcolon := hdelimiter ':' (by decide)
  have hclose := hdelimiter ']' (by decide)
  have hbound : ∀ bound, IsCleanBound bound →
      bound ≠ [] ∧ ∀ c ∈ bound, isRangeDelimiter c = false :=
    fun bound hb => ⟨hb.1, fun c hc => (hb.2 c hc).2⟩
  refine ⟨flatten_rangeTokens range, ?_, ?_⟩
  · simp only [rangeTokens, List.forall_mem_cons]
    exact ⟨.inl hopen, .inr (hbound _ h.1), .inl hcolon, .inr (hbound _ h.2), .inl hclose,
      List.forall_mem_nil _⟩
  · simp only [rangeTokens, List.isChain_cons_cons, List.isChain_singleton, and_true]
    exact ⟨.inl hopen, .inr hcolon, .inl hcolon, .inr hclose⟩

section

variable {keyword : Text} {words : List Text} {name : SignalName}

theorem isName_of_printed (hkeyword : (Direction.ofKeyword? keyword).isSome)
    (hwords : ∀ word ∈ words, IsQualifierWord word) (h : WellFormed name) :
    ∀ word ∈ keyword :: (words ++ [name.base]), IsName word := by
  have hmem : keyword ∈ (["input", "output", "inout", "wire", "reg"] : List Text) := by
    simpa using Direction.ofKeyword?_isSome_iff.1 hkeyword
  simp only [List.forall_mem_cons, List.forall_mem_append]
  exact ⟨isName_of_mem_keywords hmem, fun word hw => (hwords word hw).isName, h.base_name, nofun⟩

theorem tokens_printed (hkeyword : (Direction.ofKeyword? keyword).isSome)
    (hwords : ∀ word ∈ words, IsQualifierWord word) (h : WellFormed name) :
    tokens (printed keyword words name) = printedWords keyword words name := by
  have hnames := isName_of_printed hkeyword hwords h
  have hname : ∀ word, IsName word → word ≠ [] ∧ ∀ c ∈ word, isSeparator c = false :=
    fun word hw => ⟨ne_nil_of_isName hw, not_isSeparator_of_isName hw⟩
  refine wordsBy_join (by decide) fun word hw => ?_
  simp only [printedWords, List.mem_cons, List.mem_append, Option.mem_toList,
    Option.map_eq_some_iff] at hw
  rcases hw with rfl | hw | ⟨range, hr, rfl⟩ | hw
  · exact hname _ (hnames _ (by simp))
  · exact hname word (hnames word (by simp [hw]))
  · refine ⟨?_, not_isSeparator_range (h.bounds range hr)⟩
    simp [BitRange.render]
  · exact hname word (hnames word (by simp_all))

theorem rangedTokens_printed (hkeyword : (Direction.ofKeyword? keyword).isSome)
    (hwords : ∀ word ∈ words, IsQualifierWord word) (h : WellFormed name) :
    rangedTokens (printed keyword words name) =
      keyword :: (words ++ (rangeTokens name.range ++ [name.base])) := by
  have htokens := tokens_printed hkeyword hwords h
  have hfixed : ∀ word ∈ keyword :: (words ++ [name.base]), tokens (spread word) = [word] :=
    fun word hw => tokens_spread_of_isName (isName_of_printed hkeyword hwords h word hw)
  cases hr : name.range with
  | none =>
    have hplain : printedWords keyword words name = keyword :: (words ++ [name.base]) := by
      simp [printedWords, hr]
    rw [hplain] at htokens
    unfold rangedTokens
    split
    · rw [tokens_spread, htokens, List.flatMap_congr hfixed, List.flatMap_singleton']
      rfl
    · exact htokens
  | some range =>
    have hvector : printedWords keyword words name =
        (keyword :: words) ++ range.render :: [name.base] := by
      simp [printedWords, hr]
    have hclean := h.bounds range hr
    have hcut : tokens (spread range.render) = rangeTokens (some range) :=
      (isSegmentation_iff (not_isSeparator_range hclean)).1 (isSegmentation_range hclean)
    have hbefore : ∀ word ∈ keyword :: words, tokens (spread word) = [word] := fun word hw =>
      hfixed word (List.cons_subset_cons keyword (List.subset_append_left words _) hw)
    have hbracket : '[' ∈ printed keyword words name := by
      have hmem : range.render ∈ tokens (printed keyword words name) := by simp [htokens, hvector]
      exact ((mem_wordsBy hmem).2 '[' (by simp [BitRange.render])).2
    rw [rangedTokens, if_pos hbracket, tokens_spread, htokens, hvector, List.flatMap_append,
      List.flatMap_congr hbefore, List.flatMap_singleton', List.flatMap_cons, hcut,
      List.flatMap_singleton, hfixed name.base (by simp)]
    rfl

theorem classify_printed {direction : Direction} (hkeyword : keyword ∈ direction.keywords)
    (hwords : ∀ word ∈ words, IsQualifierWord word) (h : WellFormed name) :
    classify (printed keyword words name) = some ⟨direction, name⟩ := by
  have hdirection := Direction.ofKeyword?_eq_some_iff.2 hkeyword
  have hsome : (Direction.ofKeyword? keyword).isSome := by rw [hdirection]; rfl
  have hof : Decomposition.Of (printed keyword words name)
      ⟨keyword, words, name.range, name.base, []⟩ := {
    keyword_first := by rw [tokens_printed hsome hwords h]; rfl
    keyword_mem := by simpa using Direction.ofKeyword?_isSome_iff.1 hsome
    tokens_eq := rangedTokens_printed hsome hwords h
    qualifiers_mem := hwords
    bounds := fun range hr => by
      obtain ⟨hmsb, hlsb⟩ := h.bounds range hr
      simp only [List.forall_mem_cons]
      exact ⟨not_mem_delimiters_of_isCleanBound hmsb, not_mem_delimiters_of_isCleanBound hlsb,
        nofun⟩
    base_name := h.base_name
    scalar := h.scalar }
  exact classify_of_decomposition hof hdirection

end

/-! ## The round trip -/

theorem render_injective {name other : SignalName} (h : WellFormed name)
    (hother : WellFormed other) (heq : name.render = other.render) : name = other := by
  rw [← Layout.decodeName_render h, heq, Layout.decodeName_render hother]

/-- **Printing and classifying undo each other.** A declaration with a well-formed name is read
back from every line that prints it, exactly the declarations with well-formed names are found in
some line, and their names are told apart by how they are rendered. -/
theorem classify_round_trip :
    (∀ declaration : Declaration,
      (∃ line, classify line = some declaration) ↔ WellFormed declaration.name) ∧
    (∀ declaration : Declaration, WellFormed declaration.name →
      ∀ keyword ∈ declaration.direction.keywords, ∀ words : List Text,
        (∀ word ∈ words, IsQualifierWord word) →
          classify (printed keyword words declaration.name) = some declaration) ∧
    ∀ name other : SignalName, WellFormed name → WellFormed other →
      name.render = other.render → name = other := by
  refine ⟨fun declaration => ⟨?_, fun h => ?_⟩, ?_, fun name other => render_injective⟩
  · rintro ⟨line, hline⟩
    exact wellFormed_of_classify hline
  · obtain ⟨keyword, hkeyword⟩ : ∃ keyword, keyword ∈ declaration.direction.keywords := by
      cases declaration.direction <;> exact ⟨_, List.mem_cons_self⟩
    exact ⟨printed keyword [] declaration.name, classify_printed hkeyword nofun h⟩
  · intro declaration h keyword hkeyword words hwords
    exact classify_printed hkeyword hwords h

/-- After a range, a qualifier is a name. -/
theorem qualifier_read_back_after_range :
    WellFormed ⟨"reg", some ⟨"W-1", "0"⟩⟩ ∧
      classify "reg wire signed [W-1:0] reg" =
        some ⟨.internal, ⟨"reg", some ⟨"W-1", "0"⟩⟩⟩ := by
  have hname : IsName "reg" := isIdentifier_iff.1 (by decide)
  have hmsb : IsCleanBound "W-1" := by decide
  have hlsb : IsCleanBound "0" := by decide
  have h : WellFormed ⟨"reg", some ⟨"W-1", "0"⟩⟩ :=
    ⟨hname, nofun, fun range hr => by obtain rfl := Option.some.inj hr; exact ⟨hmsb, hlsb⟩⟩
  exact ⟨h, classify_round_trip.2.1 ⟨.internal, ⟨"reg", some ⟨"W-1", "0"⟩⟩⟩ h "reg" (by decide)
    ["wire", "signed"] (by decide)⟩

end Verilog

end WaveLayout

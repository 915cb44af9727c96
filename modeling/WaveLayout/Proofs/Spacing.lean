import WaveLayout.Proofs.Grammar
import WaveLayout.Proofs.Runs

/-!
# Spacing of declarations

**Theorem.** A line that declares a signal declares the same signal after any number of changes to
its spacing: a run of separators is exchanged for another one, separators are added at either end,
or they are inserted directly before or after a range delimiter.

Not every token survives such a change. A line without `[` keeps `a:b` in one token, and a blank
beside the colon cuts it. What survives is

* the tokens of the spread line (`tokens_spread_of_respacing`), which are the ranged tokens of a
  line with a `[`, and
* the tokens without delimiters at the front of the line (`prefix_tokens_of_respacing`), since a
  change beside a delimiter only cuts the token that holds it.

On a line without `[` all tokens up to the declared identifier are names, so the second fact is
enough. The keyword is a name on every line. The converse fails: a change can also uncover a
declaration, as `input a:b` declares nothing and `input a :b` declares `a`.
-/

namespace WaveLayout.Verilog

open Text

/-! ## Changes -/

/-- The text consists of separators. -/
def IsGap (gap : Text) : Prop := ∀ c ∈ gap, isSeparator c = true

/-- One change to the spacing of a line. -/
inductive Respacing : Text → Text → Prop where
  /-- A run of separators is exchanged for another one. -/
  | exchange (before after : Text) {old new : Text} (hold : old ≠ []) (hnew : new ≠ [])
      (hgap : IsGap old) (hgap' : IsGap new) :
      Respacing (before ++ (old ++ after)) (before ++ (new ++ after))
  | front (line : Text) {gap : Text} (hgap : IsGap gap) : Respacing line (gap ++ line)
  | back (line : Text) {gap : Text} (hgap : IsGap gap) : Respacing line (line ++ gap)
  | beforeDelimiter (before after : Text) {c : Char} {gap : Text}
      (hc : isRangeDelimiter c = true) (hgap : IsGap gap) :
      Respacing (before ++ c :: after) (before ++ (gap ++ c :: after))
  | afterDelimiter (before after : Text) {c : Char} {gap : Text}
      (hc : isRangeDelimiter c = true) (hgap : IsGap gap) :
      Respacing (before ++ c :: after) (before ++ c :: (gap ++ after))

variable {line edited : Text}

theorem IsGap.spread_eq {gap : Text} (h : IsGap gap) : spread gap = gap :=
  spread_eq_self fun c hc => not_isRangeDelimiter_of_isSeparator (h c hc)

/-! ## What survives -/

/-- **Spread lines keep their tokens.** -/
theorem tokens_spread_of_respacing (h : Respacing line edited) :
    tokens (spread edited) = tokens (spread line) := by
  cases h with
  | exchange before after hold hnew hgap hgap' =>
    simp only [spread_append, hgap.spread_eq, hgap'.spread_eq]
    rw [tokens, tokens, wordsBy_append_gap_append hold hgap, wordsBy_append_gap_append hnew hgap']
  | front line hgap =>
    rw [spread_append, hgap.spread_eq]
    exact wordsBy_append_of_forall hgap _
  | back line hgap =>
    rw [spread_append, hgap.spread_eq]
    exact wordsBy_append_of_forall_right hgap _
  | beforeDelimiter before after hc hgap =>
    rw [← List.append_assoc, tokens_spread_append_cons hc, tokens_spread_append_cons hc,
      spread_append, hgap.spread_eq]
    exact congrArg (· ++ _) (wordsBy_append_of_forall_right hgap _)
  | afterDelimiter before after hc hgap =>
    rw [tokens_spread_append_cons hc, tokens_spread_append_cons hc, spread_append, hgap.spread_eq]
    exact congrArg (_ ++ _ :: ·) (wordsBy_append_of_forall hgap _)

theorem bracket_mem_iff_of_respacing (h : Respacing line edited) : '[' ∈ edited ↔ '[' ∈ line := by
  rw [← bracket_mem_filter_iff, ← filter_spread, ← flatten_wordsBy, ← tokens,
    tokens_spread_of_respacing h, tokens, flatten_wordsBy, filter_spread, bracket_mem_filter_iff]

/-- Tokens without delimiters that stand in front of a delimiter are complete where it stands. -/
theorem prefix_tokens_append {front : List Text} {before after : Text} {c : Char}
    (hc : isRangeDelimiter c = true)
    (hfront : ∀ token ∈ front, ∀ d ∈ token, isRangeDelimiter d = false)
    (h : front <+: tokens (before ++ c :: after)) (t : Text) : front <+: tokens (before ++ t) := by
  obtain ⟨closed, run, hrun, heq⟩ := exists_open_run isSeparator before
  have hopen : ∀ d ∈ run ++ [c], isSeparator d = false := by
    intro d hd
    rcases List.mem_append.1 hd with hd | hd
    · exact hrun d hd
    · rw [List.mem_singleton.1 hd]
      exact not_isSeparator_of_isRangeDelimiter hc
  rw [tokens, heq, List.append_cons, wordsBy_append_of_forall_not (by simp) hopen] at h
  have hclosed : front <+: closed := by
    rcases List.prefix_or_prefix_of_prefix h (List.prefix_append closed _) with hp | ⟨rest, rfl⟩
    · exact hp
    · have hrest := (List.prefix_append_right_inj closed).1 h
      cases rest with
      | nil => simp
      | cons token more =>
        -- The token with the delimiter would be one of those in front.
        obtain ⟨rfl, -⟩ := List.cons_prefix_cons.1 hrest
        have hplain := hfront _ (List.mem_append_right closed List.mem_cons_self) c (by simp)
        exact absurd hc (by simp [hplain])
  rw [tokens, heq]
  exact hclosed.trans (List.prefix_append _ _)

theorem prefix_tokens_of_respacing {front : List Text} (h : Respacing line edited)
    (hfront : ∀ token ∈ front, ∀ d ∈ token, isRangeDelimiter d = false)
    (hstart : front <+: tokens line) : front <+: tokens edited := by
  cases h with
  | exchange before after hold hnew hgap hgap' =>
    rw [tokens, wordsBy_append_gap_append hold hgap] at hstart
    rw [tokens, wordsBy_append_gap_append hnew hgap']
    exact hstart
  | front line hgap =>
    rw [tokens, wordsBy_append_of_forall hgap]
    exact hstart
  | back line hgap =>
    rw [tokens, wordsBy_append_of_forall_right hgap]
    exact hstart
  | beforeDelimiter before after hc hgap => exact prefix_tokens_append hc hfront hstart _
  | afterDelimiter before after hc hgap => exact prefix_tokens_append hc hfront hstart _

/-! ## Declarations -/

theorem Decomposition.Of.respacing {d : Decomposition} (h : d.Of line)
    (hr : Respacing line edited) : ∃ rest, { d with rest := rest }.Of edited := by
  have hnames : ∀ token ∈ d.keyword :: (d.qualifiers ++ [d.base]), ∀ c ∈ token,
      isRangeDelimiter c = false :=
    fun token ht => not_isRangeDelimiter_of_isName (h.isName_of_mem token ht)
  have hkeyword : (Verilog.tokens edited).head? = some d.keyword := by
    obtain ⟨more, hmore⟩ := List.head?_eq_some_iff.1 h.keyword_first
    have hplain : ∀ token ∈ [d.keyword], ∀ c ∈ token, isRangeDelimiter c = false := by
      intro token ht
      exact hnames token (List.mem_singleton.1 ht ▸ List.mem_cons_self)
    obtain ⟨rest, hrest⟩ := prefix_tokens_of_respacing hr hplain (hmore ▸ by simp)
    rw [← hrest]
    rfl
  obtain ⟨rest, htokens⟩ : ∃ rest, rangedTokens edited = { d with rest := rest }.tokens := by
    have hranged := h.tokens_eq
    unfold rangedTokens at hranged ⊢
    by_cases hbracket : '[' ∈ line
    · rw [if_pos hbracket] at hranged
      rw [if_pos ((bracket_mem_iff_of_respacing hr).2 hbracket), tokens_spread_of_respacing hr]
      exact ⟨d.rest, hranged⟩
    · have hscalar := h.range_eq_none hbracket
      rw [if_neg hbracket, Decomposition.tokens, hscalar] at hranged
      rw [if_neg fun hm => hbracket ((bracket_mem_iff_of_respacing hr).1 hm)]
      have hstart : d.keyword :: (d.qualifiers ++ [d.base]) <+: Verilog.tokens line :=
        ⟨d.rest, by simp [hranged, rangeTokens]⟩
      obtain ⟨rest, hrest⟩ := prefix_tokens_of_respacing hr hnames hstart
      exact ⟨rest, by simp [← hrest, Decomposition.tokens, hscalar, rangeTokens]⟩
  exact ⟨rest, {
    keyword_first := hkeyword
    keyword_mem := h.keyword_mem
    tokens_eq := htokens
    qualifiers_mem := h.qualifiers_mem
    bounds := h.bounds
    base_name := h.base_name
    scalar := h.scalar }⟩

theorem classify_of_respacing {declaration : Declaration} (hr : Respacing line edited)
    (h : classify line = some declaration) : classify edited = some declaration := by
  obtain ⟨d, hof, hdirection, hname⟩ := exists_decomposition_of_classify h
  obtain ⟨rest, hof'⟩ := hof.respacing hr
  rw [classify_of_decomposition hof' hdirection, ← hname]

/-- **Declarations ignore spacing.** A line that declares a signal declares the same after any
number of changes to its spacing. -/
theorem same_declaration_of_respaced {declaration : Declaration}
    (h : classify line = some declaration) (hr : Relation.ReflTransGen Respacing line edited) :
    classify edited = some declaration := by
  induction hr with
  | refl => exact h
  | tail _ hstep ih => exact classify_of_respacing hstep ih

theorem spaced_range_declared :
    classify "input [7:0] a" = some ⟨.input, ⟨"a", some ⟨"7", "0"⟩⟩⟩ ∧
      Relation.ReflTransGen Respacing "input [7:0] a" "\tinput,[7: 0] a;" ∧
      classify "\tinput,[7: 0] a;" = some ⟨.input, ⟨"a", some ⟨"7", "0"⟩⟩⟩ := by
  have h : classify "input [7:0] a" = some ⟨.input, ⟨"a", some ⟨"7", "0"⟩⟩⟩ := by decide +kernel
  have hgap : ∀ c, isSeparator c = true → IsGap [c] := fun c hc d hd => by
    rwa [List.mem_singleton.1 hd]
  have hcomma : Respacing "input [7:0] a" "input,[7:0] a" :=
    .exchange "input" "[7:0] a" (List.cons_ne_nil ' ' []) (List.cons_ne_nil ',' [])
      (hgap ' ' (by decide)) (hgap ',' (by decide))
  have hcolon : Respacing "input,[7:0] a" "input,[7: 0] a" :=
    .afterDelimiter "input,[7" "0] a" (c := ':') (by decide) (hgap ' ' (by decide))
  have hfront : Respacing "input,[7: 0] a" "\tinput,[7: 0] a" :=
    .front "input,[7: 0] a" (hgap '\t' (by decide))
  have hback : Respacing "\tinput,[7: 0] a" "\tinput,[7: 0] a;" :=
    .back "\tinput,[7: 0] a" (hgap ';' (by decide))
  have hr : Relation.ReflTransGen Respacing "input [7:0] a" "\tinput,[7: 0] a;" :=
    (((Relation.ReflTransGen.single hcomma).tail hcolon).tail hfront).tail hback
  exact ⟨h, hr, same_declaration_of_respaced h hr⟩

-- The converse fails: a blank in front of the colon uncovers a declaration.
example : classify "input a:b" = none ∧ classify "input a :b" = some ⟨.input, ⟨"a", none⟩⟩ := by
  decide +kernel

end WaveLayout.Verilog

import WaveLayout.Proofs.Grammar

/-!
# What follows an identifier

A line may go on after the identifier that it declares. The classifier does not read the tokens
after the identifier, but it reads the identifier as a token, and a **tail** that is glued to the
identifier makes that token longer.

**Theorem.** Let a line end with the identifier that it declares, and let the tail be empty or start
with a character that cannot continue an identifier. The line with the tail declares the same if
the tail is **detached**, and it declares nothing if it is not. A tail is detached if it is
empty, if it starts with a separator, or if it starts with a range delimiter on a line that holds
a `[`, since delimiters are tokens of their own there.

So `reg m[0:3];` declares `m`, whereas `input a)` and `wire a=0;` declare nothing.

The proof follows the token in the place of the identifier. It is the identifier and a run
of the tail (`exists_run`), the run is empty exactly if the tail is detached, and no other token of
the declaration changes.
-/

namespace WaveLayout.Verilog

open Text

/-! ## Tails -/

/-- The character is ASCII punctuation: printable, and neither a letter nor a digit. -/
def isPunctuation (c : Char) : Bool := 0x21 ≤ c.toNat && c.toNat ≤ 0x7E && !c.isAlphanum

/-- The character ends an identifier: a blank, or punctuation other than `_` and `$`. -/
def endsIdentifier (c : Char) : Bool :=
  isBlank c || (isPunctuation c && c != '_' && c != '$')

/-- The line ends with the identifier that it declares. -/
def EndsWithName (line : Text) : Prop :=
  ∃ d : Decomposition, d.Of line ∧ d.rest = [] ∧ d.base <:+ line

/-- The tail is empty or starts with a separator, or with a range delimiter on a line that holds a
`[`. -/
def Detached (line : Text) : Text → Prop
  | [] => True
  | c :: rest => isSeparator c = true ∨ (isRangeDelimiter c = true ∧ '[' ∈ line ++ c :: rest)

instance decidableDetached (line : Text) : (tail : Text) → Decidable (Detached line tail)
  | [] => .isTrue trivial
  | c :: rest => inferInstanceAs
      (Decidable (isSeparator c = true ∨ (isRangeDelimiter c = true ∧ '[' ∈ line ++ c :: rest)))

/-- The part of the tail that belongs to the token before it. -/
def glued (line tail : Text) : Text :=
  (if '[' ∈ line ++ tail then spread tail else tail).takeWhile (!isSeparator ·)

theorem not_isIdentifierPart_of_endsIdentifier {c : Char} (h : endsIdentifier c = true) :
    isIdentifierPart c = false := by
  have hblank : isBlank c = true → isIdentifierPart c = false := by
    intro hb
    have halnum : c.isAlphanum = false := by
      cases ha : c.isAlphanum with
      | false => rfl
      | true => simp [isBlank_eq_false_of_isAlphanum ha] at hb
    have hunderscore : c ≠ '_' := by
      rintro rfl
      exact absurd hb (by decide)
    have hdollar : c ≠ '$' := by
      rintro rfl
      exact absurd hb (by decide)
    simp [isIdentifierPart, halnum, hunderscore, hdollar]
  simp only [endsIdentifier, isPunctuation, Bool.or_eq_true, Bool.and_eq_true] at h
  rcases h with hb | ⟨⟨⟨-, halnum⟩, hunderscore⟩, hdollar⟩
  · exact hblank hb
  · simp_all [isIdentifierPart]

theorem glued_of_detached {line tail : Text} (h : Detached line tail) : glued line tail = [] := by
  cases tail with
  | nil => simp [glued, spread]
  | cons c rest =>
    unfold glued
    by_cases hd : isRangeDelimiter c = true
    · rcases h with hs | ⟨-, hb⟩
      · simp [not_isSeparator_of_isRangeDelimiter hd] at hs
      · rw [if_pos hb, spread_cons hd]
        rfl
    · rcases h with hs | ⟨hd', -⟩
      · split
        · rw [spread_cons_of_not (not_isRangeDelimiter_of_isSeparator hs)]
          simp [hs]
        · simp [hs]
      · exact absurd hd' hd

theorem exists_mem_glued {line tail : Text} (h : ¬ Detached line tail) :
    ∃ c, tail.head? = some c ∧ c ∈ glued line tail := by
  cases tail with
  | nil => exact absurd trivial h
  | cons c rest =>
    obtain ⟨hs, hd⟩ := not_or.1 h
    refine ⟨c, rfl, ?_⟩
    unfold glued
    split
    · next hb =>
      have hnot : isRangeDelimiter c = false := by simpa [hb] using hd
      rw [spread_cons_of_not hnot]
      simp [hs]
    · simp [hs]

theorem isIdentifier_append_iff {base run : Text} (h : IsName base) :
    isIdentifier (base ++ run) = true ↔ ∀ c ∈ run, isIdentifierPart c = true := by
  have hbase := isIdentifier_iff.2 h
  obtain ⟨first, rest, rfl, -⟩ := h
  simp only [isIdentifier, Bool.and_eq_true, List.all_eq_true] at hbase
  simp only [List.cons_append, isIdentifier, Bool.and_eq_true, List.all_eq_true, List.mem_append]
  constructor
  · intro hall c hc
    exact hall.2 c (.inr hc)
  · intro hrun
    exact ⟨hbase.1, fun c hc => hc.elim (hbase.2 c) (hrun c)⟩

/-! ## Tokens in front of a tail -/

namespace Decomposition

variable {line tail : Text} {d : Decomposition}

/-- The line is spread anyway, or spreading it changes none of its tokens. -/
theorem Of.tokens_spread_eq (h : d.Of line) (hrest : d.rest = []) :
    Verilog.tokens (spread line) = d.tokens := by
  have hranged := h.tokens_eq
  unfold rangedTokens at hranged
  split at hranged
  · exact hranged
  · next hbracket =>
    have hname : ∀ token ∈ Verilog.tokens line, IsName token := by
      intro token ht
      rw [hranged, Decomposition.tokens, h.range_eq_none hbracket, hrest] at ht
      exact h.isName_of_mem token ht
    have htoken : ∀ token ∈ Verilog.tokens line, Verilog.tokens (spread token) = [token] :=
      fun token ht => tokens_spread_of_isName (hname token ht)
    rw [tokens_spread, List.flatMap_congr htoken, ← hranged, List.flatMap_singleton']

/-- The keyword is closed by what follows it on the line, so it stays the first token. -/
theorem Of.head?_tokens_append (h : d.Of line) (hrest : d.rest = []) (tail : Text) :
    (Verilog.tokens (line ++ tail)).head? = some d.keyword := by
  obtain ⟨closed, run, hrun, heq⟩ := exists_open_run isSeparator line
  have hline : Verilog.tokens line = closed ++ Verilog.tokens run := by
    simpa [Verilog.tokens] using heq []
  have hfirst := h.keyword_first
  cases closed with
  | cons word words =>
    rw [hline] at hfirst
    rw [Verilog.tokens, heq]
    exact hfirst
  | nil =>
    -- A line that is a single run holds the keyword only, and no identifier.
    have hne : run ≠ [] := by
      rintro rfl
      rw [hline] at hfirst
      cases hfirst
    rw [List.nil_append, tokens_of_forall_not hne hrun] at hline
    rw [hline] at hfirst
    obtain rfl := Option.some.inj hfirst
    have hspread := h.tokens_spread_eq hrest
    rw [tokens_spread, hline, List.flatMap_singleton,
      tokens_spread_of_isName (h.isName_of_mem _ List.mem_cons_self), Decomposition.tokens]
      at hspread
    simp at hspread

/-- **The token in the place of the identifier.** It is the identifier and the part of the tail
that is glued to it, and the tokens before it are those of the line. -/
theorem Of.rangedTokens_append (h : d.Of line) (hrest : d.rest = []) (hend : d.base <:+ line)
    (tail : Text) :
    ∃ more, rangedTokens (line ++ tail) =
      d.keyword ::
        (d.qualifiers ++ (rangeTokens d.range ++ (d.base ++ glued line tail) :: more)) := by
  obtain ⟨front, rfl⟩ := hend
  have hne := ne_nil_of_isName h.base_name
  have hsep := not_isSeparator_of_isName h.base_name
  have hbase := spread_eq_self (not_isRangeDelimiter_of_isName h.base_name)
  have hparts : d.tokens =
      (d.keyword :: (d.qualifiers ++ rangeTokens d.range)) ++ [d.base] := by
    simp [Decomposition.tokens, hrest]
  -- Whatever is read in place of the tail, the tokens before the identifier are cut.
  have hcut : ∀ s u : Text, Verilog.tokens (s ++ d.base) = d.tokens →
      Verilog.tokens (s ++ (d.base ++ u)) = d.keyword :: (d.qualifiers ++ (rangeTokens d.range ++
        (d.base ++ u.takeWhile (!isSeparator ·)) ::
          Verilog.tokens (u.dropWhile (!isSeparator ·)))) := by
    intro s u hs
    rw [Verilog.tokens, wordsBy_append_of_last hne hsep (hs.trans hparts),
      wordsBy_append_of_forall_not hne hsep]
    simp [Verilog.tokens]
  unfold rangedTokens glued
  split
  · rw [List.append_assoc, spread_append, spread_append, hbase]
    refine ⟨_, hcut (spread front) (spread tail) ?_⟩
    have hline := h.tokens_spread_eq hrest
    rwa [spread_append, hbase] at hline
  · next hb =>
    rw [List.append_assoc]
    refine ⟨_, hcut front tail ?_⟩
    have hline := h.tokens_eq
    rwa [rangedTokens, if_neg fun hm => hb (List.mem_append_left tail hm)] at hline

end Decomposition

/-! ## Classification in front of a tail -/

theorem declaration?_parts {keyword : Text} {direction : Direction} {words : List Text}
    {range : Option BitRange} {token : Text} (hk : Direction.ofKeyword? keyword = some direction)
    (hq : ∀ word ∈ words, isQualifier word = true)
    (hb : ∀ r, range = some r → isBound r.msb = true ∧ isBound r.lsb = true)
    (ht : OpensName range token) (rest : List Text) :
    declaration? (keyword :: (words ++ (rangeTokens range ++ token :: rest))) =
      if isIdentifier token then some ⟨direction, ⟨token, range⟩⟩ else none := by
  simp [declaration?, hk, (span_qualifiers hq ht rest).2, splitRange_append hb ht rest]

theorem classify_eq_declaration? {line keyword : Text}
    (h : (tokens line).head? = some keyword) (hk : (Direction.ofKeyword? keyword).isSome) :
    classify line = declaration? (rangedTokens line) := by
  simp [classify, h, hk]

theorem opensName_append {range : Option BitRange} {base run : Text} (h : IsName base) {c : Char}
    (hc : c ∈ run) (hpart : isIdentifierPart c = false) : OpensName range (base ++ run) := by
  have hnot : isIdentifier (base ++ run) ≠ true := by
    rw [Ne, isIdentifier_append_iff h]
    intro hall
    simp [hall c hc] at hpart
  intro _
  constructor
  · cases hq : isQualifier (base ++ run) with
    | false => rfl
    | true =>
      exact absurd (isIdentifier_iff.2 (isQualifier_iff.1 hq).isName) hnot
  · intro heq
    have hlength := congrArg List.length heq
    have hbase := List.length_pos_iff.2 (ne_nil_of_isName h)
    have hrun := List.length_pos_iff.2 (List.ne_nil_of_mem hc)
    simp at hlength
    omega

theorem classify_append {line tail : Text} {declaration : Declaration}
    (h : classify line = some declaration) (hend : EndsWithName line)
    (htail : ∀ c ∈ tail.head?, isIdentifierPart c = false) :
    classify (line ++ tail) = if Detached line tail then some declaration else none := by
  obtain ⟨d, hof, hrest, hsuffix⟩ := hend
  obtain ⟨e, heof, hdir, hname⟩ := exists_decomposition_of_classify h
  obtain rfl := hof.unique heof
  have hdeclaration : declaration = ⟨declaration.direction, ⟨d.base, d.range⟩⟩ := by
    rw [← hname]
  obtain ⟨more, htokens⟩ := hof.rangedTokens_append hrest hsuffix tail
  rw [classify_eq_declaration? (hof.head?_tokens_append hrest tail) (by rw [hdir]; rfl), htokens]
  by_cases hdetached : Detached line tail
  · rw [if_pos hdetached, glued_of_detached hdetached, List.append_nil,
      declaration?_parts hdir hof.isQualifier_of_mem hof.isBound_range hof.opensName,
      if_pos (isIdentifier_iff.2 hof.base_name), ← hdeclaration]
  · obtain ⟨c, hc, hmem⟩ := exists_mem_glued hdetached
    have hpart := htail c hc
    rw [if_neg hdetached, declaration?_parts hdir hof.isQualifier_of_mem hof.isBound_range
      (opensName_append hof.base_name hmem hpart), if_neg]
    rw [isIdentifier_append_iff hof.base_name]
    intro hall
    simp [hall c hmem] at hpart

/-- **Which tails are ignored.** Let a line end with the identifier that it declares, and let the
tail be empty or start with a blank or with punctuation that cannot continue an identifier. The line
with the tail declares the same exactly if the tail is detached, and nothing otherwise. -/
theorem same_declaration_iff_detached {line tail : Text} {declaration : Declaration}
    (h : classify line = some declaration) (hend : EndsWithName line)
    (htail : ∀ c ∈ tail.head?, endsIdentifier c = true) :
    (classify (line ++ tail) = some declaration ↔ Detached line tail) ∧
      (¬ Detached line tail → classify (line ++ tail) = none) := by
  have happend := classify_append h hend fun c hc =>
    not_isIdentifierPart_of_endsIdentifier (htail c hc)
  rw [happend]
  by_cases hdetached : Detached line tail
  · simp [hdetached]
  · simp [hdetached]

theorem endsWithName_scalar (keyword base : Text)
    (hk : keyword ∈ (["input", "output", "inout", "wire", "reg"] : List Text)) (hb : IsName base)
    (hq : ¬ IsQualifierWord base) : EndsWithName (keyword ++ ' ' :: base) := by
  have hkeyword : IsName keyword := isName_of_mem_keywords hk
  have htokens : tokens (keyword ++ ' ' :: base) = [keyword, base] := by
    rw [tokens_append_cons (by decide),
      tokens_of_forall_not (ne_nil_of_isName hkeyword) (not_isSeparator_of_isName hkeyword),
      tokens_of_forall_not (ne_nil_of_isName hb) (not_isSeparator_of_isName hb)]
    rfl
  have hbracket : '[' ∉ keyword ++ ' ' :: base := by
    intro hm
    rcases List.mem_append.1 hm with hm | hm
    · exact absurd (not_isRangeDelimiter_of_isName hkeyword _ hm) (by decide)
    · rcases List.mem_cons.1 hm with hm | hm
      · exact absurd hm (by decide)
      · exact absurd (not_isRangeDelimiter_of_isName hb _ hm) (by decide)
  refine ⟨⟨keyword, [], none, base, []⟩, ?_, rfl, ⟨keyword ++ [' '], by simp⟩⟩
  exact {
    keyword_first := by rw [htokens]; rfl
    keyword_mem := hk
    tokens_eq := by rw [rangedTokens, if_neg hbracket, htokens]; rfl
    qualifiers_mem := nofun
    bounds := nofun
    base_name := hb
    scalar := fun _ => hq }

theorem dimension_ignored :
    classify ("reg m" ++ "[0:3];") = some ⟨.internal, ⟨"m", none⟩⟩ ∧
      classify ("reg m" ++ "=0;") = none := by
  have h : classify "reg m" = some ⟨.internal, ⟨"m", none⟩⟩ := by decide +kernel
  have hend : EndsWithName "reg m" :=
    endsWithName_scalar "reg" "m" (by decide) (isIdentifier_iff.1 (by decide)) (by decide)
  exact ⟨(same_declaration_iff_detached h hend (by rintro _ ⟨⟩; decide)).1.2 (by decide),
    (same_declaration_iff_detached h hend (by rintro _ ⟨⟩; decide)).2 (by decide)⟩

/-- **A parenthesis hides the name.** Not every tail that ends the identifier is ignored. -/
theorem parenthesis_hides_name :
    ¬ ∀ (line tail : Text) (declaration : Declaration), classify line = some declaration →
      EndsWithName line → (∀ c ∈ tail.head?, endsIdentifier c = true) →
        classify (line ++ tail) = some declaration := by
  intro hall
  have h : classify "input a" = some ⟨.input, ⟨"a", none⟩⟩ := by decide +kernel
  have hend : EndsWithName "input a" :=
    endsWithName_scalar "input" "a" (by decide) (isIdentifier_iff.1 (by decide)) (by decide)
  exact absurd (hall "input a" ")" _ h hend (by rintro _ ⟨⟩; decide)) (by decide +kernel)

end WaveLayout.Verilog

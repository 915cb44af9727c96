import WaveLayout.Proofs.Tokens
import WaveLayout.Verilog.Classification

/-!
# The grammar of declarations

**Theorem.** A line declares a signal exactly if its ranged tokens can be decomposed as

```text
keyword qualifier* range? identifier rest
```

where the keyword is also the first plain token. The decomposition is unique, so the line declares
one signal at most.

The classifier is greedy: it takes all the qualifiers it finds, then a range if one stands there
complete, and never gives a token back. A decomposition is found that way because neither an
opening bracket nor the identifier of a scalar is a qualifier (`Decomposition.Of.takeWhile_eq`), and
because the identifier of a scalar is no opening bracket (`Decomposition.Of.splitRange_eq`).

The names that the classifier finds are **well formed** (`wellFormed_of_classify`): their bounds
come from the tokens of a spread line, so they hold no separator and no delimiter.
-/

namespace WaveLayout

/-! ## Words of the grammar -/

/-- The keywords that declare a signal of the direction. -/
def Direction.keywords : Direction → List Text
  | .input => ["input"]
  | .output => ["output"]
  | .inout => ["inout"]
  | .internal => ["wire", "reg"]

theorem Direction.ofKeyword?_eq_some_iff {direction : Direction} {word : Text} :
    ofKeyword? word = some direction ↔ word ∈ direction.keywords := by
  constructor
  · intro h
    have hword := ofKeyword?_isSome_iff.1 (Option.isSome_of_eq_some h)
    rcases hword with rfl | rfl | rfl | rfl | rfl <;> cases h <;> decide
  · intro h
    cases direction <;> simp only [keywords, List.mem_cons, List.not_mem_nil, or_false] at h
    case internal => rcases h with rfl | rfl <;> rfl
    all_goals
      subst h
      rfl

namespace Verilog

open Text

/-- The word may stand between the keyword and the range. -/
def IsQualifierWord (word : Text) : Prop :=
  word ∈ (["wire", "reg", "logic", "tri", "wand", "wor", "var", "signed", "unsigned", "integer",
    "int", "bit", "byte", "shortint", "longint", "time", "real", "realtime"] : List Text)

instance (word : Text) : Decidable (IsQualifierWord word) :=
  inferInstanceAs (Decidable (word ∈ _))

theorem isQualifier_iff {word : Text} : isQualifier word = true ↔ IsQualifierWord word :=
  decide_eq_true_iff

theorem isQualifier_eq_false_iff {word : Text} :
    isQualifier word = false ↔ ¬ IsQualifierWord word :=
  decide_eq_false_iff_not

/-! ## Identifiers -/

/-- An ASCII letter or `_`, then ASCII letters, digits, `_` and `$`. -/
def IsName (token : Text) : Prop :=
  ∃ first rest, token = first :: rest ∧ (first.isAlpha ∨ first = '_') ∧
    ∀ c ∈ rest, c.isAlphanum ∨ c = '_' ∨ c = '$'

theorem isIdentifier_iff {token : Text} : isIdentifier token ↔ IsName token := by
  cases token with
  | nil => simp [isIdentifier, IsName]
  | cons first rest =>
    simp only [isIdentifier, isIdentifierStart, isIdentifierPart, Bool.and_eq_true,
      Bool.or_eq_true, beq_iff_eq, List.all_eq_true, or_assoc]
    constructor
    · rintro ⟨hf, hr⟩
      exact ⟨first, rest, rfl, hf, hr⟩
    · rintro ⟨_, _, heq, hf, hr⟩
      obtain ⟨rfl, rfl⟩ := List.cons.inj heq
      exact ⟨hf, hr⟩

theorem IsName.mem {token : Text} (h : IsName token) :
    ∀ c ∈ token, c.isAlphanum ∨ c = '_' ∨ c = '$' := by
  obtain ⟨first, rest, rfl, hf, hr⟩ := h
  intro c hc
  rcases List.mem_cons.1 hc with rfl | hc
  · rcases hf with hf | hf
    · exact .inl (by simp [Char.isAlphanum, hf])
    · exact .inr (.inl hf)
  · exact hr c hc

theorem not_isSeparator_of_isName {token : Text} (h : IsName token) :
    ∀ c ∈ token, isSeparator c = false := by
  intro c hc
  rcases h.mem c hc with ha | rfl | rfl
  · have hcomma : c ≠ ',' := by
      rintro rfl
      exact absurd ha (by decide)
    have hsemicolon : c ≠ ';' := by
      rintro rfl
      exact absurd ha (by decide)
    simp [isSeparator, isBlank_eq_false_of_isAlphanum ha, hcomma, hsemicolon]
  · decide
  · decide

theorem not_isRangeDelimiter_of_isName {token : Text} (h : IsName token) :
    ∀ c ∈ token, isRangeDelimiter c = false := by
  intro c hc
  cases hd : isRangeDelimiter c with
  | false => rfl
  | true =>
    simp only [isRangeDelimiter, Bool.or_eq_true, beq_iff_eq] at hd
    rcases hd with (rfl | rfl) | rfl <;> exact absurd (h.mem _ hc) (by decide)

theorem ne_nil_of_isName {token : Text} (h : IsName token) : token ≠ [] := by
  obtain ⟨first, rest, rfl, -⟩ := h
  exact List.cons_ne_nil first rest

theorem tokens_spread_of_isName {token : Text} (h : IsName token) :
    tokens (spread token) = [token] := by
  rw [spread_eq_self (not_isRangeDelimiter_of_isName h),
    tokens_of_forall_not (ne_nil_of_isName h) (not_isSeparator_of_isName h)]

theorem isName_of_mem_keywords {word : Text}
    (h : word ∈ (["input", "output", "inout", "wire", "reg"] : List Text)) : IsName word := by
  have hall :
      (["input", "output", "inout", "wire", "reg"] : List Text).all isIdentifier = true := by
    decide
  exact isIdentifier_iff.1 (List.all_eq_true.1 hall word h)

theorem IsQualifierWord.isName {word : Text} (h : IsQualifierWord word) : IsName word := by
  have hall : qualifiers.all isIdentifier = true := by decide
  exact isIdentifier_iff.1 (List.all_eq_true.1 hall word h)

/-! ## Ranges -/

/-- The tokens of a range, if there is one. -/
def rangeTokens : Option BitRange → List Text
  | none => []
  | some range => ["[", range.msb, ":", range.lsb, "]"]

/-- Splitting off a range loses no token, and the bounds that it finds are bounds. -/
theorem splitRange_spec (ts : List Text) :
    ts = rangeTokens (splitRange ts).1 ++ (splitRange ts).2 ∧
      ∀ range, (splitRange ts).1 = some range → isBound range.msb ∧ isBound range.lsb := by
  unfold splitRange
  split
  · next opening msb colon lsb closing rest =>
    split
    · next h =>
      obtain ⟨rfl, hm, rfl, hl, rfl⟩ := h
      refine ⟨rfl, ?_⟩
      intro range hr
      obtain rfl := Option.some.inj hr
      exact ⟨hm, hl⟩
    · exact ⟨rfl, nofun⟩
  · exact ⟨rfl, nofun⟩

theorem splitRange_rangeTokens {range : BitRange} (hm : isBound range.msb)
    (hl : isBound range.lsb) (rest : List Text) :
    splitRange (rangeTokens (some range) ++ rest) = (some range, rest) := by
  show splitRange ("[" :: range.msb :: ":" :: range.lsb :: "]" :: rest) = (some range, rest)
  simp [splitRange, hm, hl]

/-- Where no opening bracket stands, there is no range. -/
theorem splitRange_cons_of_ne {token : Text} (h : token ≠ "[") (rest : List Text) :
    splitRange (token :: rest) = (none, token :: rest) := by
  unfold splitRange
  split
  · next heq =>
    obtain ⟨rfl, rfl⟩ := List.cons.inj heq
    exact if_neg fun hc => h hc.1
  · rfl

/-- A token after a range, or one that is taken neither for a qualifier nor for the start of a
range. -/
def OpensName (range : Option BitRange) (token : Text) : Prop :=
  range = none → isQualifier token = false ∧ token ≠ "["

/-- Qualifiers are taken up to the range, or up to the token after them if there is none. -/
theorem span_qualifiers {words : List Text} {range : Option BitRange} {token : Text}
    (hq : ∀ word ∈ words, isQualifier word = true) (ht : OpensName range token)
    (rest : List Text) :
    (words ++ (rangeTokens range ++ token :: rest)).takeWhile isQualifier = words ∧
    (words ++ (rangeTokens range ++ token :: rest)).dropWhile isQualifier =
      rangeTokens range ++ token :: rest := by
  rw [List.takeWhile_append_of_pos hq, List.dropWhile_append_of_pos hq]
  cases range with
  | none => simp [rangeTokens, (ht rfl).1]
  | some range =>
    have hopening : isQualifier ['['] = false := by decide
    simp [rangeTokens, hopening]

theorem splitRange_append {range : Option BitRange} {token : Text}
    (hb : ∀ r, range = some r → isBound r.msb = true ∧ isBound r.lsb = true)
    (ht : OpensName range token) (rest : List Text) :
    splitRange (rangeTokens range ++ token :: rest) = (range, token :: rest) := by
  cases range with
  | none => exact splitRange_cons_of_ne (ht rfl).2 rest
  | some range => exact splitRange_rangeTokens (hb range rfl).1 (hb range rfl).2 (token :: rest)

/-! ## Decompositions -/

/-- The parts of a declaration line. -/
structure Decomposition where
  keyword : Text
  qualifiers : List Text
  range : Option BitRange
  base : Text
  /-- What follows the identifier. -/
  rest : List Text

namespace Decomposition

/-- The parts one after the other. -/
def tokens (d : Decomposition) : List Text :=
  d.keyword :: (d.qualifiers ++ (rangeTokens d.range ++ d.base :: d.rest))

/-- The parts are what the grammar asks for, and the line consists of them. -/
structure Of (line : Text) (d : Decomposition) : Prop where
  keyword_first : (Verilog.tokens line).head? = some d.keyword
  keyword_mem : d.keyword ∈ (["input", "output", "inout", "wire", "reg"] : List Text)
  tokens_eq : rangedTokens line = d.tokens
  qualifiers_mem : ∀ token ∈ d.qualifiers, IsQualifierWord token
  bounds : ∀ range, d.range = some range →
    ∀ bound ∈ [range.msb, range.lsb], bound ∉ (["[", ":", "]"] : List Text)
  base_name : IsName d.base
  scalar : d.range = none → ¬ IsQualifierWord d.base

variable {line : Text} {d e : Decomposition}

theorem Of.base_ne_bracket (h : d.Of line) : d.base ≠ "[" := by
  intro hb
  have hname := isIdentifier_iff.2 h.base_name
  rw [hb] at hname
  exact absurd hname (by decide)

theorem Of.isQualifier_of_mem (h : d.Of line) :
    ∀ token ∈ d.qualifiers, isQualifier token = true := by
  intro token ht
  exact isQualifier_iff.2 (h.qualifiers_mem token ht)

theorem Of.isBound_range (h : d.Of line) :
    ∀ range, d.range = some range → isBound range.msb = true ∧ isBound range.lsb = true := by
  intro range hr
  have hb : ∀ bound ∈ [range.msb, range.lsb], isBound bound = true := by
    intro bound hm
    simpa [isBound] using h.bounds range hr bound hm
  exact ⟨hb _ (by simp), hb _ (by simp)⟩

theorem Of.opensName (h : d.Of line) : OpensName d.range d.base := by
  intro hr
  exact ⟨isQualifier_eq_false_iff.2 (h.scalar hr), h.base_ne_bracket⟩

theorem Of.isName_of_mem (h : d.Of line) :
    ∀ token ∈ d.keyword :: (d.qualifiers ++ [d.base]), IsName token := by
  intro token ht
  simp only [List.mem_cons, List.mem_append, List.not_mem_nil, or_false] at ht
  rcases ht with rfl | ht | rfl
  · exact isName_of_mem_keywords h.keyword_mem
  · exact (h.qualifiers_mem token ht).isName
  · exact h.base_name

theorem Of.range_eq_none (h : d.Of line) (hbracket : '[' ∉ line) : d.range = none := by
  cases hr : d.range with
  | none => rfl
  | some range =>
    have hmem : ['['] ∈ Verilog.tokens line := by
      have htokens := h.tokens_eq
      rw [rangedTokens, if_neg hbracket] at htokens
      rw [htokens, Decomposition.tokens, hr]
      simp [rangeTokens]
    exact absurd ((mem_wordsBy hmem).2 '[' List.mem_cons_self).2 hbracket

/-- Taking qualifiers greedily takes the qualifiers of the decomposition. -/
theorem Of.takeWhile_eq (h : d.Of line) :
    (d.qualifiers ++ (rangeTokens d.range ++ d.base :: d.rest)).takeWhile isQualifier =
      d.qualifiers ∧
    (d.qualifiers ++ (rangeTokens d.range ++ d.base :: d.rest)).dropWhile isQualifier =
      rangeTokens d.range ++ d.base :: d.rest :=
  span_qualifiers h.isQualifier_of_mem h.opensName d.rest

theorem Of.splitRange_eq (h : d.Of line) :
    splitRange (rangeTokens d.range ++ d.base :: d.rest) = (d.range, d.base :: d.rest) :=
  splitRange_append h.isBound_range h.opensName d.rest

/-- **A line has one decomposition.** -/
theorem Of.unique (h : d.Of line) (he : e.Of line) : d = e := by
  obtain ⟨hk, hrest⟩ := List.cons.inj (h.tokens_eq.symm.trans he.tokens_eq)
  have hq : d.qualifiers = e.qualifiers := by
    rw [← h.takeWhile_eq.1, ← he.takeWhile_eq.1, hrest]
  have hsplit : (d.range, d.base :: d.rest) = (e.range, e.base :: e.rest) := by
    rw [← h.splitRange_eq, ← he.splitRange_eq, ← h.takeWhile_eq.2, ← he.takeWhile_eq.2, hrest]
  obtain ⟨hr, hbase⟩ := Prod.mk.inj hsplit
  obtain ⟨hb, ht⟩ := List.cons.inj hbase
  cases d
  cases e
  simp_all

end Decomposition

/-! ## The classifier -/

theorem not_isRangeDelimiter_of_keyword {keyword : Text}
    (h : (Direction.ofKeyword? keyword).isSome) : ∀ c ∈ keyword, isRangeDelimiter c = false := by
  have hall : keyword.all (!isRangeDelimiter ·) = true := by
    rcases Direction.ofKeyword?_isSome_iff.1 h with rfl | rfl | rfl | rfl | rfl <;> decide
  intro c hc
  simpa using List.all_eq_true.1 hall c hc

/-- The classifier finds a keyword that is the first plain and the first ranged token. -/
theorem classify_eq_some_iff {line : Text} {declaration : Declaration} :
    classify line = some declaration ↔
      ∃ keyword rest, (tokens line).head? = some keyword ∧ rangedTokens line = keyword :: rest ∧
        (Direction.ofKeyword? keyword).isSome ∧
          declaration? (keyword :: rest) = some declaration := by
  simp only [classify, Option.bind_eq_bind, Option.bind_eq_some_iff]
  constructor
  · rintro ⟨keyword, hf, h⟩
    split at h
    · next hk =>
      have hhead := head?_rangedTokens hf (not_isRangeDelimiter_of_keyword hk)
      obtain ⟨rest, hr⟩ := List.head?_eq_some_iff.1 hhead
      exact ⟨keyword, rest, hf, hr, hk, hr ▸ h⟩
    · exact absurd h (by simp)
  · rintro ⟨keyword, rest, hf, hr, hk, h⟩
    exact ⟨keyword, hf, by rw [if_pos hk, hr, h]⟩

theorem declaration?_cons_eq_some_iff {keyword : Text} {ts : List Text}
    {declaration : Declaration} :
    declaration? (keyword :: ts) = some declaration ↔
      ∃ range base rest, Direction.ofKeyword? keyword = some declaration.direction ∧
        splitRange (ts.dropWhile isQualifier) = (range, base :: rest) ∧ isIdentifier base ∧
        declaration.name = ⟨base, range⟩ := by
  simp only [declaration?, Option.bind_eq_bind, Option.bind_eq_some_iff]
  constructor
  · rintro ⟨direction, hd, base, hb, h⟩
    split at h
    · next hi =>
      obtain ⟨rest, hr⟩ := List.head?_eq_some_iff.1 hb
      obtain rfl := Option.some.inj h
      exact ⟨_, base, rest, hd, Prod.ext rfl hr, hi, rfl⟩
    · exact absurd h (by simp)
  · rintro ⟨range, base, rest, hd, hs, hi, hn⟩
    refine ⟨declaration.direction, hd, base, by rw [hs]; rfl, ?_⟩
    rw [if_pos hi, hs, ← hn]

/-- What the classifier finds is a decomposition of the line. -/
theorem exists_decomposition_of_classify {line : Text} {declaration : Declaration}
    (h : classify line = some declaration) :
    ∃ d : Decomposition, d.Of line ∧ Direction.ofKeyword? d.keyword = some declaration.direction ∧
      declaration.name = ⟨d.base, d.range⟩ := by
  obtain ⟨keyword, ts, hf, hts, hk, hd⟩ := classify_eq_some_iff.1 h
  obtain ⟨range, base, rest, hdir, hs, hi, hn⟩ := declaration?_cons_eq_some_iff.1 hd
  obtain ⟨hspec, hbounds⟩ := splitRange_spec (ts.dropWhile isQualifier)
  rw [hs] at hspec hbounds
  refine ⟨⟨keyword, ts.takeWhile isQualifier, range, base, rest⟩, ?_, hdir, hn⟩
  exact {
    keyword_first := hf
    keyword_mem := by simpa using Direction.ofKeyword?_isSome_iff.1 hk
    tokens_eq := by rw [hts, Decomposition.tokens, ← hspec, List.takeWhile_append_dropWhile]
    qualifiers_mem := fun token ht => isQualifier_iff.1 (List.mem_takeWhile_imp ht)
    bounds := fun r hr bound hm => by
      obtain ⟨hmsb, hlsb⟩ := hbounds r hr
      simp only [List.mem_cons, List.not_mem_nil, or_false] at hm
      rcases hm with rfl | rfl
      · simpa [isBound] using hmsb
      · simpa [isBound] using hlsb
    base_name := isIdentifier_iff.1 hi
    scalar := fun hr => by
      -- The identifier of a scalar is where the greedy reading of qualifiers stopped.
      have hnot := List.head?_dropWhile_not isQualifier ts
      rw [hspec, show range = none from hr] at hnot
      simpa [rangeTokens, isQualifier_eq_false_iff] using hnot }

/-- Any decomposition of the line is what the classifier finds. -/
theorem classify_of_decomposition {line : Text} {d : Decomposition} {direction : Direction}
    (h : d.Of line) (hd : Direction.ofKeyword? d.keyword = some direction) :
    classify line = some ⟨direction, ⟨d.base, d.range⟩⟩ := by
  refine classify_eq_some_iff.2 ⟨d.keyword, _, h.keyword_first, h.tokens_eq, by rw [hd]; rfl, ?_⟩
  refine declaration?_cons_eq_some_iff.2
    ⟨d.range, d.base, d.rest, hd, ?_, isIdentifier_iff.2 h.base_name, rfl⟩
  rw [h.takeWhile_eq.2, h.splitRange_eq]

/-- **The classifier accepts exactly its grammar.** It finds a declaration exactly if the line has
a decomposition with the keyword of that direction, with that identifier and with that range. A
line has one decomposition at most, and one without any declares nothing. -/
theorem classify_iff_decomposition (line : Text) :
    (∀ declaration, classify line = some declaration ↔
      ∃ d : Decomposition, d.Of line ∧ d.keyword ∈ declaration.direction.keywords ∧
        declaration.name = ⟨d.base, d.range⟩) ∧
    (∀ d e : Decomposition, d.Of line → e.Of line → d = e) ∧
    (classify line = none ↔ ∀ d : Decomposition, ¬ d.Of line) := by
  refine ⟨?_, ?_, ?_, ?_⟩
  · intro declaration
    simp only [← Direction.ofKeyword?_eq_some_iff]
    constructor
    · exact exists_decomposition_of_classify
    · rintro ⟨d, hof, hd, hn⟩
      rw [classify_of_decomposition hof hd, ← hn]
  · intro d e hd he
    exact hd.unique he
  · intro hnone d hof
    have hk : (Direction.ofKeyword? d.keyword).isSome :=
      Direction.ofKeyword?_isSome_iff.2 (by simpa using hof.keyword_mem)
    obtain ⟨direction, hd⟩ := Option.isSome_iff_exists.1 hk
    rw [classify_of_decomposition hof hd] at hnone
    exact absurd hnone (by simp)
  · intro hnot
    cases h : classify line with
    | none => rfl
    | some declaration =>
      obtain ⟨d, hof, -⟩ := exists_decomposition_of_classify h
      exact absurd hof (hnot d)

/-! ## Well-formed names -/

/-- The bound is not empty and holds neither a separator nor a delimiter. -/
def IsCleanBound (bound : Text) : Prop :=
  bound ≠ [] ∧ ∀ c ∈ bound, isSeparator c = false ∧ isRangeDelimiter c = false

instance (bound : Text) : Decidable (IsCleanBound bound) :=
  decidable_of_iff
    (bound ≠ [] ∧ bound.all (fun c => !isSeparator c && !isRangeDelimiter c) = true)
    (by simp [IsCleanBound])

/-- The base is an identifier, no qualifier if there is no range, and the bounds are clean. -/
structure WellFormed (name : SignalName) : Prop where
  base_name : IsName name.base
  scalar : name.range = none → ¬ IsQualifierWord name.base
  bounds : ∀ range, name.range = some range → IsCleanBound range.msb ∧ IsCleanBound range.lsb

theorem isCleanBound_of_mem {line bound : Text} (hm : bound ∈ tokens (spread line))
    (hb : bound ∉ (["[", ":", "]"] : List Text)) : IsCleanBound bound := by
  obtain ⟨hne, hsep⟩ := mem_wordsBy hm
  refine ⟨hne, fun c hc => ⟨(hsep c hc).1, ?_⟩⟩
  rcases mem_tokens_spread hm with ⟨d, hd, rfl⟩ | h
  · simp only [isRangeDelimiter, Bool.or_eq_true, beq_iff_eq] at hd
    rcases hd with (rfl | rfl) | rfl <;> exact absurd (by decide) hb
  · exact h c hc

theorem not_mem_delimiters_of_isCleanBound {bound : Text} (h : IsCleanBound bound) :
    bound ∉ (["[", ":", "]"] : List Text) := by
  intro hm
  simp only [List.mem_cons, List.not_mem_nil, or_false] at hm
  have hplain : ∀ c ∈ bound, isRangeDelimiter c = false := fun c hc => (h.2 c hc).2
  rcases hm with rfl | rfl | rfl <;> exact absurd (hplain _ List.mem_cons_self) (by decide)

/-- **Names are well formed.** So is every name that the classifier finds, in any line. -/
theorem wellFormed_of_classify {line : Text} {declaration : Declaration}
    (h : classify line = some declaration) : WellFormed declaration.name := by
  obtain ⟨d, hof, -, hn⟩ := exists_decomposition_of_classify h
  rw [hn]
  refine ⟨hof.base_name, hof.scalar, ?_⟩
  intro range hr
  have hts : tokens (spread line) = d.tokens := by
    rw [← hof.tokens_eq, rangedTokens_eq_of_bracket_mem]
    rw [hof.tokens_eq, Decomposition.tokens, show d.range = some range from hr]
    exact List.mem_cons_of_mem _ (List.mem_append_right _ List.mem_cons_self)
  have hmem : ∀ bound ∈ [range.msb, range.lsb], bound ∈ tokens (spread line) := by
    intro bound hb
    rw [hts, Decomposition.tokens, show d.range = some range from hr]
    refine List.mem_cons_of_mem _ (List.mem_append_right _ (List.mem_append_left _ ?_))
    simp only [List.mem_cons, List.not_mem_nil, or_false] at hb
    rcases hb with rfl | rfl <;> simp [rangeTokens]
  exact ⟨isCleanBound_of_mem (hmem _ (by simp)) (hof.bounds range hr _ (by simp)),
    isCleanBound_of_mem (hmem _ (by simp)) (hof.bounds range hr _ (by simp))⟩

theorem flatten_rangeTokens (range : BitRange) :
    (rangeTokens (some range)).flatten = range.render := by
  simp [rangeTokens, BitRange.render]

theorem not_isSeparator_range {range : BitRange}
    (h : IsCleanBound range.msb ∧ IsCleanBound range.lsb) :
    ∀ c ∈ range.render, isSeparator c = false := by
  have hdelimiter : ∀ c, isRangeDelimiter c = true → ∀ d ∈ [c], isSeparator d = false := by
    intro c hc d hd
    rw [List.mem_singleton.1 hd]
    exact not_isSeparator_of_isRangeDelimiter hc
  rw [← flatten_rangeTokens, List.forall_mem_flatten]
  simp only [rangeTokens, List.forall_mem_cons]
  exact ⟨hdelimiter '[' (by decide), fun c hc => (h.1.2 c hc).1, hdelimiter ':' (by decide),
    fun c hc => (h.2.2 c hc).1, hdelimiter ']' (by decide), nofun⟩

/-- A well-formed name is rendered without separators. -/
theorem WellFormed.not_isSeparator {name : SignalName} (h : WellFormed name) :
    ∀ c ∈ name.render, isSeparator c = false := by
  have hbase := not_isSeparator_of_isName h.base_name
  intro c hc
  unfold SignalName.render at hc
  split at hc
  · exact hbase c hc
  · next range hr =>
    rcases List.mem_append.1 hc with hc | hc
    · exact hbase c hc
    · exact not_isSeparator_range (h.bounds range hr) c hc

end Verilog

end WaveLayout

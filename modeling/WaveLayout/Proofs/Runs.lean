import WaveLayout.Proofs.Tokens

/-!
# Tokens as runs of the line

**Theorem.** The tokens of a line are its maximal runs outside the separators, in order. If the
line holds a `[`, its ranged tokens are those tokens, each cut into single delimiters and maximal
pieces without delimiters; otherwise they are the same tokens. So neither reading loses anything
but separators, and both find their tokens again when these are written with a blank between
neighbours.

**By replacement.** The two readings can be made by replacing characters on the whole line: first
`,` and `;` by blanks, then each delimiter by itself between blanks, one delimiter after the other,
and at last cutting at the blanks. A later replacement works on what an earlier one has put in, but
blanks are no delimiters, so the order does not matter (`spread_eq_pad`). Terminators and blanks are
the separators, so cutting at the blanks finds the tokens (`tokens_eq_words`).

A text is cut into runs (`IsRuns`) and a token into pieces (`IsSegmentation`) in one way only, which
both equivalences below say at once: what the readers give satisfies the description, and nothing
else does.
-/

namespace WaveLayout

namespace Text

variable {p q : Char → Bool} {s w : Text} {ws : List Text}

/-! ## Maximal runs -/

/-- The words are the maximal runs of characters outside the class, in order. Only the class stands
in front of the first word, the word reaches up to the class or up to the end, and the other words
are the runs of what follows it. -/
def IsRuns (p : Char → Bool) : Text → List Text → Prop
  | s, [] => ∀ c ∈ s, p c = true
  | s, w :: ws => ∃ gap rest, s = gap ++ (w ++ rest) ∧ (∀ c ∈ gap, p c = true) ∧
      (w ≠ [] ∧ ∀ c ∈ w, p c = false) ∧ (∀ c ∈ rest.head?, p c = true) ∧ IsRuns p rest ws

theorem flatten_wordsBy (p : Char → Bool) (s : Text) :
    (wordsBy p s).flatten = s.filter (!p ·) := by
  induction s using runInduction p with
  | last run hr =>
    rw [wordsBy_of_run hr, List.filter_eq_self.2 fun c hc => by simp [hr c hc]]
    split
    · next hne =>
      rw [hne]
      rfl
    · rw [List.flatten_singleton]
  | cut run c rest hr hc ihrun ih =>
    rw [wordsBy_append_cons hc, List.flatten_append, ihrun, ih, List.filter_append,
      List.filter_cons_of_neg (by simp [hc])]

theorem wordsBy_eq_nil_iff : wordsBy p s = [] ↔ ∀ c ∈ s, p c = true := by
  constructor
  · intro h
    have hfilter := flatten_wordsBy p s
    rw [h, List.flatten_nil, eq_comm, List.filter_eq_nil_iff] at hfilter
    intro c hc
    simpa using hfilter c hc
  · intro h
    exact wordsBy_append_of_forall_right h []

theorem wordsBy_eq_cons_iff :
    wordsBy p s = w :: ws ↔ ∃ gap rest, s = gap ++ (w ++ rest) ∧ (∀ c ∈ gap, p c = true) ∧
      (w ≠ [] ∧ ∀ c ∈ w, p c = false) ∧ (∀ c ∈ rest.head?, p c = true) ∧ wordsBy p rest = ws := by
  constructor
  · intro h
    obtain ⟨gap, rest, rfl, hgap⟩ := exists_of_head?_wordsBy (s := s) (by rw [h]; rfl)
    obtain ⟨hne, hw⟩ := mem_wordsBy (h ▸ List.mem_cons_self)
    have hword : ∀ c ∈ w, p c = false := fun c hc => (hw c hc).1
    rw [wordsBy_append_of_forall hgap, wordsBy_append_of_forall_not hne hword] at h
    obtain ⟨hfirst, hrest⟩ := List.cons.inj h
    have hopen : rest.takeWhile (!p ·) = [] := by simpa using hfirst
    obtain ⟨hsplit, -, hhead⟩ := takeWhile_dropWhile_eq_iff.1 ⟨hopen, rfl⟩
    refine ⟨gap, rest, rfl, hgap, ⟨hne, hword⟩, ?_, ?_⟩
    · intro c hc
      rw [hsplit] at hc
      simpa using hhead c hc
    · rw [hsplit]
      exact hrest
  · rintro ⟨gap, rest, rfl, hgap, ⟨hne, hw⟩, hhead, rfl⟩
    have hstop : rest.takeWhile (!p ·) = [] ∧ rest.dropWhile (!p ·) = rest :=
      takeWhile_dropWhile_eq_iff.2 ⟨rfl, nofun, fun c hc => by simp [hhead c hc]⟩
    rw [wordsBy_append_of_forall hgap, wordsBy_append_of_forall_not hne hw, hstop.1, hstop.2,
      List.append_nil]

/-- **Words are the maximal runs.** -/
theorem wordsBy_eq_iff_isRuns : wordsBy p s = ws ↔ IsRuns p s ws := by
  induction ws generalizing s with
  | nil => exact wordsBy_eq_nil_iff
  | cons w ws ih => simp only [wordsBy_eq_cons_iff, IsRuns, ih]

theorem wordsBy_join {c : Char} (hc : p c = true)
    (h : ∀ w ∈ ws, w ≠ [] ∧ ∀ d ∈ w, p d = false) : wordsBy p (join [c] ws) = ws := by
  induction ws with
  | nil => rfl
  | cons w ws ih =>
    obtain ⟨⟨hne, hw⟩, hws⟩ := List.forall_mem_cons.1 h
    cases ws with
    | nil => rw [join, List.intercalate_singleton, wordsBy_of_forall_not hne hw]
    | cons v vs =>
      have hsep : ∀ d ∈ [c], p d = true := by simpa using hc
      rw [join, List.intercalate_cons_cons, List.append_assoc,
        wordsBy_append_gap hne hw (List.cons_ne_nil c []) hsep, ← join, ih hws]

/-- The words of a text stay the same when separators become separators of another class and all
other characters stay. -/
theorem wordsBy_map {f : Char → Char} (hsep : ∀ c, p c = true → q (f c) = true)
    (hrest : ∀ c, p c = false → f c = c ∧ q c = false) (s : Text) :
    wordsBy q (s.map f) = wordsBy p s := by
  induction s using runInduction p with
  | last run hr =>
    have hmap : run.map f = run :=
      (List.map_congr_left fun c hc => (hrest c (hr c hc)).1).trans (List.map_id run)
    rw [hmap, wordsBy_of_run hr, wordsBy_of_run fun c hc => (hrest c (hr c hc)).2]
  | cut run c rest hr hc ihrun ih =>
    rw [List.map_append, List.map_cons, wordsBy_append_cons (hsep c hc), wordsBy_append_cons hc,
      ihrun, ih]

end Text

namespace Verilog

open Text

/-! ## Reading by replacement -/

/-- The line with a blank in place of each comma and each semicolon. -/
def clearTerminators (line : Text) : Text :=
  line.map fun c => if c = ',' ∨ c = ';' then ' ' else c

/-- The line with a blank on both sides of each occurrence of the delimiter. -/
def pad (delimiter : Char) (line : Text) : Text :=
  line.flatMap fun c => if c = delimiter then [' ', delimiter, ' '] else [c]

theorem spread_eq_pad (line : Text) : spread line = pad ']' (pad ':' (pad '[' line)) := by
  unfold spread pad
  rw [List.flatMap_assoc, List.flatMap_assoc]
  refine List.flatMap_congr fun c _ => ?_
  by_cases hopen : c = '['
  · subst hopen
    rfl
  · by_cases hcolon : c = ':'
    · subst hcolon
      rfl
    · by_cases hclose : c = ']'
      · subst hclose
        rfl
      · simp [isRangeDelimiter, hopen, hcolon, hclose]

theorem tokens_eq_words (line : Text) : tokens line = words (clearTerminators line) := by
  refine (wordsBy_map ?_ ?_ line).symm
  · intro c hc
    by_cases hterminator : c = ',' ∨ c = ';'
    · rw [if_pos hterminator]
      decide
    · rw [if_neg hterminator]
      simpa [isSeparator, not_or.1 hterminator] using hc
  · intro c hc
    have hterminator : ¬ (c = ',' ∨ c = ';') := by
      rintro (rfl | rfl) <;> exact absurd hc (by decide)
    exact ⟨if_neg hterminator, isBlank_eq_false_of_not_isSeparator hc⟩

theorem spread_clearTerminators (line : Text) :
    spread (clearTerminators line) = clearTerminators (spread line) := by
  unfold spread clearTerminators
  rw [List.flatMap_map, List.map_flatMap]
  refine List.flatMap_congr fun c _ => ?_
  by_cases hterminator : c = ',' ∨ c = ';'
  · rcases hterminator with rfl | rfl <;> rfl
  · by_cases hdelimiter : isRangeDelimiter c = true
    · simp [hterminator, hdelimiter]
    · simp [hterminator, hdelimiter]

/-- Ranged tokens are read by five replacements, if the line holds a `[`. -/
theorem rangedTokens_eq_words (line : Text) :
    rangedTokens line =
      words (if '[' ∈ line then pad ']' (pad ':' (pad '[' (clearTerminators line)))
        else clearTerminators line) := by
  unfold rangedTokens
  split
  · rw [tokens_eq_words, ← spread_eq_pad, spread_clearTerminators]
  · rw [tokens_eq_words]

/-! ## Pieces of a token -/

/-- The piece is a single delimiter. -/
def IsDelimiter (piece : Text) : Prop := ∃ c, isRangeDelimiter c = true ∧ piece = [c]

/-- The pieces make up the token. Each is a single delimiter or holds none, and of two neighbours
one is a delimiter, so the others are as long as they can be. -/
structure IsSegmentation (token : Text) (pieces : List Text) : Prop where
  flatten_eq : pieces.flatten = token
  piece : ∀ piece ∈ pieces,
    IsDelimiter piece ∨ (piece ≠ [] ∧ ∀ c ∈ piece, isRangeDelimiter c = false)
  apart : pieces.IsChain fun left right => IsDelimiter left ∨ IsDelimiter right

theorem filter_spread (line : Text) :
    (spread line).filter (!isSeparator ·) = line.filter (!isSeparator ·) := by
  induction line with
  | nil => rfl
  | cons c rest ih =>
    by_cases hc : isRangeDelimiter c = true
    · have hsep := not_isSeparator_of_isRangeDelimiter hc
      have hblank : isSeparator ' ' = true := by decide
      simp [spread_cons hc, hsep, hblank, ih]
    · rw [spread_cons_of_not (by simpa using hc), List.filter_cons, List.filter_cons, ih]

theorem isChain_tokens_spread {line : Text} (h : ∀ c ∈ line, isSeparator c = false) :
    (tokens (spread line)).IsChain fun left right => IsDelimiter left ∨ IsDelimiter right := by
  induction line using runInduction isRangeDelimiter with
  | last run hr =>
    rw [spread_eq_self hr, tokens, wordsBy_of_run h]
    split
    · exact List.isChain_nil
    · exact List.isChain_singleton run
  | cut run c rest hr hc _ ih =>
    obtain ⟨hsep, hcons⟩ := List.forall_mem_append.1 h
    have hrest := ih fun d hd => hcons d (List.mem_cons_of_mem c hd)
    have hdelimiter : IsDelimiter [c] := ⟨c, hc, rfl⟩
    have htail : (([c] : Text) :: tokens (spread rest)).IsChain fun left right =>
        IsDelimiter left ∨ IsDelimiter right :=
      List.isChain_cons.2 ⟨fun right _ => .inl hdelimiter, hrest⟩
    rw [tokens_spread_append_cons hc, spread_eq_self hr, tokens, wordsBy_of_run hsep]
    split
    · exact htail
    · refine List.isChain_cons.2 ⟨?_, htail⟩
      intro right hright
      obtain rfl := Option.some.inj hright
      exact .inr hdelimiter

/-- **Pieces are the tokens of the spread token.** -/
theorem isSegmentation_iff {token : Text} {pieces : List Text}
    (h : ∀ c ∈ token, isSeparator c = false) :
    IsSegmentation token pieces ↔ tokens (spread token) = pieces := by
  constructor
  · rintro ⟨rfl, hpiece, hapart⟩
    induction pieces with
    | nil => rfl
    | cons piece rest ih =>
      obtain ⟨hfirst, hrest⟩ := List.forall_mem_cons.1 hpiece
      rw [List.flatten_cons] at h ⊢
      have hsep := (List.forall_mem_append.1 h).1
      have ih := ih hrest hapart.tail (List.forall_mem_append.1 h).2
      rcases hfirst with ⟨c, hc, rfl⟩ | ⟨hne, hplain⟩
      · rw [← List.nil_append ([c] ++ rest.flatten), List.singleton_append,
          tokens_spread_append_cons hc, ih]
        rfl
      · have htoken : tokens (spread piece) = [piece] := by
          rw [spread_eq_self hplain, tokens_of_forall_not hne hsep]
        cases rest with
        | nil => rw [List.flatten_nil, List.append_nil, htoken]
        | cons next later =>
          -- The piece goes up to the next one, which is a delimiter.
          have hdelimiter : IsDelimiter next := by
            rcases (List.isChain_cons.1 hapart).1 next rfl with ⟨d, hd, rfl⟩ | hnext
            · exact absurd hd (by simp [hplain d List.mem_cons_self])
            · exact hnext
          obtain ⟨c, hc, rfl⟩ := hdelimiter
          rw [List.flatten_cons, List.singleton_append, ← List.nil_append (c :: later.flatten),
            tokens_spread_append_cons hc] at ih
          rw [List.flatten_cons, List.singleton_append, tokens_spread_append_cons hc, htoken]
          exact congrArg (piece :: ·) ih
  · rintro rfl
    refine ⟨?_, ?_, isChain_tokens_spread h⟩
    · rw [tokens, flatten_wordsBy, filter_spread]
      exact List.filter_eq_self.2 fun c hc => by simp [h c hc]
    · intro piece hp
      exact (mem_tokens_spread hp).imp id fun hplain => ⟨(mem_wordsBy hp).1, hplain⟩

theorem forall₂_isSegmentation_iff {ts : List Text} {cuts : List (List Text)}
    (h : ∀ token ∈ ts, ∀ c ∈ token, isSeparator c = false) :
    List.Forall₂ IsSegmentation ts cuts ↔ ts.map (fun token => tokens (spread token)) = cuts := by
  induction ts generalizing cuts with
  | nil => simp [eq_comm]
  | cons token ts ih =>
    obtain ⟨htoken, hts⟩ := List.forall_mem_cons.1 h
    cases cuts with
    | nil => simp
    | cons pieces cuts => simp [isSegmentation_iff htoken, ih hts]

/-! ## Both readings of a line -/

theorem mem_rangedTokens {line token : Text} (h : token ∈ rangedTokens line) :
    token ≠ [] ∧ ∀ c ∈ token, isSeparator c = false := by
  unfold rangedTokens at h
  split at h
  all_goals exact ⟨(mem_wordsBy h).1, fun c hc => ((mem_wordsBy h).2 c hc).1⟩

theorem flatten_rangedTokens (line : Text) :
    (rangedTokens line).flatten = line.filter (!isSeparator ·) := by
  unfold rangedTokens
  split
  · rw [tokens, flatten_wordsBy, filter_spread]
  · exact flatten_wordsBy isSeparator line

theorem rangedTokens_eq_iff {line : Text} {ts : List Text} :
    rangedTokens line = ts ↔
      if '[' ∈ line then
        ∃ cuts, List.Forall₂ IsSegmentation (tokens line) cuts ∧ cuts.flatten = ts
      else tokens line = ts := by
  have htokens : ∀ token ∈ tokens line, ∀ c ∈ token, isSeparator c = false :=
    fun token ht c hc => ((mem_wordsBy ht).2 c hc).1
  unfold rangedTokens
  split
  · rw [tokens_spread, List.flatMap_def]
    constructor
    · intro h
      exact ⟨_, (forall₂_isSegmentation_iff htokens).2 rfl, h⟩
    · rintro ⟨cuts, hcuts, rfl⟩
      rw [(forall₂_isSegmentation_iff htokens).1 hcuts]
  · rfl

theorem bracket_mem_filter_iff (line : Text) :
    '[' ∈ line.filter (!isSeparator ·) ↔ '[' ∈ line := by
  have hsep : isSeparator '[' = false := by decide
  simp [List.mem_filter, hsep]

theorem rangedTokens_join (line : Text) :
    rangedTokens (join [' '] (rangedTokens line)) = rangedTokens line := by
  have hjoin : tokens (join [' '] (rangedTokens line)) = rangedTokens line :=
    wordsBy_join (by decide) fun token ht => mem_rangedTokens ht
  have hbracket : '[' ∈ join [' '] (rangedTokens line) ↔ '[' ∈ line := by
    rw [← bracket_mem_filter_iff, ← flatten_wordsBy, ← tokens, hjoin, flatten_rangedTokens,
      bracket_mem_filter_iff]
  rw [rangedTokens]
  split
  · next h =>
    rw [tokens_spread, hjoin, rangedTokens, if_pos (hbracket.1 h)]
    have hfixed : ∀ token ∈ tokens (spread line), tokens (spread token) = [token] := by
      intro token ht
      obtain ⟨hne, hsep⟩ := mem_wordsBy ht
      rcases mem_tokens_spread ht with ⟨c, hc, rfl⟩ | hplain
      · exact tokens_spread_append_cons hc [] []
      · rw [spread_eq_self hplain, tokens_of_forall_not hne fun c hc => (hsep c hc).1]
    rw [List.flatMap_congr hfixed, List.flatMap_singleton']
  · exact hjoin

/-- **Both readings cut the line into runs and lose only separators.** -/
theorem rangedTokens_refine_tokens (line : Text) :
    (∀ ts, tokens line = ts ↔ IsRuns isSeparator line ts) ∧
    (∀ ts, rangedTokens line = ts ↔
      if '[' ∈ line then
        ∃ cuts, List.Forall₂ IsSegmentation (tokens line) cuts ∧ cuts.flatten = ts
      else tokens line = ts) ∧
    (∀ ts ∈ [tokens line, rangedTokens line],
      [] ∉ ts ∧ ts.flatten = line.filter (!isSeparator ·)) ∧
    tokens (join [' '] (tokens line)) = tokens line ∧
    rangedTokens (join [' '] (rangedTokens line)) = rangedTokens line ∧
    tokens line = words (clearTerminators line) ∧
    rangedTokens line =
      words (if '[' ∈ line then pad ']' (pad ':' (pad '[' (clearTerminators line)))
        else clearTerminators line) := by
  have htokens : ∀ token ∈ tokens line, token ≠ [] ∧ ∀ c ∈ token, isSeparator c = false :=
    fun token ht => ⟨(mem_wordsBy ht).1, fun c hc => ((mem_wordsBy ht).2 c hc).1⟩
  refine ⟨fun ts => wordsBy_eq_iff_isRuns, fun ts => rangedTokens_eq_iff, ?_, ?_,
    rangedTokens_join line, tokens_eq_words line, rangedTokens_eq_words line⟩
  · intro ts hts
    simp only [List.mem_cons, List.not_mem_nil, or_false] at hts
    rcases hts with rfl | rfl
    · exact ⟨fun hnil => (htokens [] hnil).1 rfl, flatten_wordsBy isSeparator line⟩
    · exact ⟨fun hnil => (mem_rangedTokens hnil).1 rfl, flatten_rangedTokens line⟩
  · exact wordsBy_join (by decide) htokens

end Verilog

end WaveLayout

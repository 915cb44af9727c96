import WaveLayout.Proofs.Location

/-!
# Sensitivity lists without a blank

A procedural block may start with a keyword and a sensitivity list directly behind it, as in
`always@(posedge clk)`. The first token of such a **glued** line is longer than the keyword. Only
for the keyword `always` it is a marker all the same: `always_ff@(posedge clk)` is not one, although
`always_ff @(posedge clk)` is.

**Theorem.** A blank between keyword and list leaves the location of the block as it is exactly if
the keyword is `always` or the lines in front are not open. For another keyword behind open lines,
the block ends in front of the line with the blank, whereas the glued line becomes a line of the
block, if a marker follows at all.

In front of the first header a line only counts (`locate_append_congr`), and behind the block it
does not even count. Open lines are cut by the next marker (`IsOpen.isCut`), and any other line
lengthens them (`IsOpen.concat`).
-/

namespace WaveLayout.Verilog

open Text

variable {before after : List Text} {keyword line : Text}

/-! ## Glued lines -/

/-- The keywords that start a procedural block. -/
def proceduralKeywords : List Text := ["always", "always_ff", "always_comb", "always_latch"]

/-- The first token of the line is a keyword directly followed by `@` and some text. -/
structure IsGlued (keyword line : Text) : Prop where
  keyword_mem : keyword ∈ proceduralKeywords
  first_token : ∃ more, (tokens line).head? = some (keyword ++ '@' :: more)

/-- The line with a blank in front of its first `@`. -/
def spaced (line : Text) : Text := line.takeWhile (· != '@') ++ ' ' :: line.dropWhile (· != '@')

theorem not_mem_of_proceduralKeyword (h : keyword ∈ proceduralKeywords) : '@' ∉ keyword := by
  have hall : ∀ word ∈ proceduralKeywords, '@' ∉ word := by decide
  exact hall keyword h

theorem IsGlued.exists_spaced_eq (h : IsGlued keyword line) :
    ∃ front rest, (∀ c ∈ front, isSeparator c = true) ∧
      spaced line = (front ++ keyword) ++ ' ' :: '@' :: rest := by
  obtain ⟨hkeyword, more, hfirst⟩ := h
  obtain ⟨front, rest, rfl, hfront⟩ := exists_of_head?_wordsBy hfirst
  refine ⟨front, more ++ rest, hfront, ?_⟩
  have hat : ∀ c ∈ front ++ keyword, (c != '@') = true := by
    intro c hc
    rw [bne_iff_ne]
    rintro rfl
    rcases List.mem_append.1 hc with hc | hc
    · exact absurd (hfront '@' hc) (by decide)
    · exact not_mem_of_proceduralKeyword hkeyword hc
  have hline : front ++ ((keyword ++ '@' :: more) ++ rest) =
      (front ++ keyword) ++ '@' :: (more ++ rest) := by simp
  rw [spaced, hline, List.takeWhile_append_of_pos hat, List.dropWhile_append_of_pos hat]
  simp

theorem IsGlued.head?_tokens_spaced (h : IsGlued keyword line) :
    (tokens (spaced line)).head? = some keyword := by
  obtain ⟨front, rest, hfront, heq⟩ := h.exists_spaced_eq
  have hblank : isSeparator ' ' = true := by decide
  have hword : tokens (front ++ keyword) = [keyword] := by
    have hall : ∀ word ∈ proceduralKeywords, tokens word = [word] := by decide
    rw [tokens, wordsBy_append_of_forall hfront]
    exact hall keyword h.keyword_mem
  rw [heq, tokens_append_cons hblank, hword]
  rfl

theorem IsGlued.opensProcedure_spaced (h : IsGlued keyword line) :
    OpensProcedure (spaced line) :=
  ⟨keyword, h.head?_tokens_spaced, .inl h.keyword_mem⟩

theorem not_opensModule_of_head? {token : Text} (h : (tokens line).head? = some token)
    (hne : token ≠ ("module" : Text)) : ¬ OpensModule line := by
  rw [OpensModule, h, Option.some.injEq]
  exact hne

theorem IsGlued.not_opensModule_spaced (h : IsGlued keyword line) :
    ¬ OpensModule (spaced line) := by
  have hall : ∀ word ∈ proceduralKeywords, word ≠ ("module" : Text) := by decide
  exact not_opensModule_of_head? h.head?_tokens_spaced (hall keyword h.keyword_mem)

theorem IsGlued.not_opensModule (h : IsGlued keyword line) : ¬ OpensModule line := by
  obtain ⟨-, more, hfirst⟩ := h
  apply not_opensModule_of_head? hfirst
  intro heq
  have hat : '@' ∈ ("module" : Text) := by rw [← heq]; simp
  exact absurd hat (by decide)

theorem IsGlued.opensProcedure_iff (h : IsGlued keyword line) :
    OpensProcedure line ↔ keyword = ("always" : Text) := by
  obtain ⟨hkeyword, more, hfirst⟩ := h
  have hword : keyword ++ '@' :: more ∉ proceduralKeywords := fun hmem =>
    not_mem_of_proceduralKeyword hmem (by simp)
  have hglued : OpensProcedure line ↔
      ∃ glued, keyword ++ '@' :: more = ("always@" : Text) ++ glued := by
    simp only [OpensProcedure, hfirst, Option.some.injEq, exists_eq_left']
    exact or_iff_right hword
  rw [hglued]
  simp only [proceduralKeywords, List.mem_cons, List.not_mem_nil, or_false] at hkeyword
  rcases hkeyword with rfl | rfl | rfl | rfl <;> simp

/-! ## Locations -/

namespace Block

theorem locate_append_congr {other : Text} (h : ∀ l ∈ before, ¬ OpensModule l)
    (hline : ¬ OpensModule line) (hother : ¬ OpensModule other) (after : List Text) :
    locate (before ++ line :: after) = locate (before ++ other :: after) := by
  have hsplit : ∀ l, ¬ OpensModule l → splitAtFirst isHeader (before ++ l :: after) =
      (splitAtFirst isHeader after).map fun (between, header, rest) =>
        (before ++ [l] ++ between, header, rest) := by
    intro l hl
    rw [List.append_cons, splitAtFirst_append]
    simp only [isHeader_eq_false_iff]
    exact List.forall_mem_append.2 ⟨h, List.forall_mem_singleton.2 hl⟩
  rw [locate, locate, hsplit line hline, hsplit other hother]
  cases splitAtFirst isHeader after with
  | none => rfl
  | some cut => simp

/-- Open lines and a line behind them that is no marker: a block holds them and that line. -/
theorem exists_texts_eq {front body : List Text} {header : Text} {block : Block}
    (hopen : IsOpen before front header body) (hline : ¬ OpensProcedure line)
    (h : locate (before ++ line :: after) = .ok block) :
    ∃ rest, block.lines.map (·.text) = body ++ line :: rest := by
  rw [List.append_cons] at h
  obtain ⟨front', header', body', marker, rest, hcut, rfl⟩ := locate_eq_ok_iff.1 h
  obtain ⟨more, hmore⟩ := (hopen.concat hline).isPrefix hcut
  refine ⟨more, ?_⟩
  rw [map_text_numberFrom, ← hmore]
  simp

/-- **When a blank in front of the sensitivity list makes no difference.** It makes none exactly if
the keyword is `always` or the lines in front are not open. Otherwise the block ends in front of the
line with the blank, and a block of the glued line holds that line. -/
theorem locate_spaced_iff (h : IsGlued keyword line) :
    (locate (before ++ spaced line :: after) = locate (before ++ line :: after) ↔
      keyword = ("always" : Text) ∨ ¬ ∃ front header body, IsOpen before front header body) ∧
    (keyword ≠ ("always" : Text) → ∀ front header body, IsOpen before front header body →
      (∃ block, locate (before ++ spaced line :: after) = .ok block ∧
        block.lines.map (·.text) = body) ∧
      ∀ block, locate (before ++ line :: after) = .ok block →
        ∃ rest, block.lines.map (·.text) = body ++ line :: rest) := by
  -- Behind open lines, the blank ends the block in front of the line.
  have hspaced : ∀ front header body, IsOpen before front header body →
      ∃ block, locate (before ++ spaced line :: after) = .ok block ∧
        block.lines.map (·.text) = body := by
    intro front header body hopen
    exact ⟨_, (hopen.isCut h.opensProcedure_spaced after).locate_eq, map_text_numberFrom _ body⟩
  have hglued : keyword ≠ ("always" : Text) → ∀ front header body,
      IsOpen before front header body → ∀ block, locate (before ++ line :: after) = .ok block →
        ∃ rest, block.lines.map (·.text) = body ++ line :: rest := by
    intro hne front header body hopen block hblock
    exact exists_texts_eq hopen (h.opensProcedure_iff.not.2 hne) hblock
  refine ⟨?_, fun hne front header body hopen =>
    ⟨hspaced front header body hopen, hglued hne front header body hopen⟩⟩
  constructor
  · intro heq
    by_cases hkeyword : keyword = ("always" : Text)
    · exact .inl hkeyword
    · refine .inr ?_
      intro hexists
      obtain ⟨front, header, body, hopen⟩ := hexists
      obtain ⟨block, hblock, htexts⟩ := hspaced front header body hopen
      obtain ⟨rest, hrest⟩ := hglued hkeyword front header body hopen block (heq ▸ hblock)
      rw [htexts] at hrest
      simpa using congrArg List.length hrest
  · intro hcondition
    rcases header_cases before with hnone | ⟨front, header, body, hopen⟩ |
      ⟨front, header, body, marker, rest, hcut⟩
    · exact locate_append_congr hnone h.not_opensModule_spaced h.not_opensModule after
    · have hkeyword : keyword = ("always" : Text) := by
        rcases hcondition with hkeyword | hclosed
        · exact hkeyword
        · exact absurd ⟨front, header, body, hopen⟩ hclosed
      have hmarker := h.opensProcedure_iff.2 hkeyword
      rw [(hopen.isCut h.opensProcedure_spaced after).locate_eq,
        (hopen.isCut hmarker after).locate_eq]
    · rw [(hcut.append _).locate_eq, (hcut.append _).locate_eq]

theorem isGlued_always_ff : IsGlued "always_ff" "always_ff@(posedge clk)" :=
  ⟨by decide, "(posedge", by decide⟩

/-- In front of the header the blank makes no difference, and for `always` it never does. Behind the
header, a glued `always_ff` is a line of the block. -/
theorem glued_line_in_block :
    let lines : List Text := ["module m", "input a,"]
    let early : Text := "always_ff@(posedge clk)"
    let late : Text := " always@(posedge clk)"
    locate ([] ++ spaced early :: lines) = locate ([] ++ early :: lines) ∧
      locate (lines ++ spaced late :: []) = locate (lines ++ late :: []) ∧
      ∀ block, locate (lines ++ early :: ["always"]) = .ok block →
        ∃ rest, block.lines.map (·.text) = ("input a," : Text) :: early :: rest := by
  intro lines early late
  have hglued : IsGlued "always" late := ⟨by decide, "(posedge", by decide⟩
  have hclosed : ¬ ∃ front header body, IsOpen [] front header body := by
    intro hexists
    obtain ⟨front, header, body, hopen⟩ := hexists
    simpa using hopen.lines_eq
  have hopen : IsOpen lines [] "module m" ["input a,"] := ⟨rfl, by decide, by decide, by decide⟩
  exact ⟨(locate_spaced_iff isGlued_always_ff).1.2 (.inr hclosed),
    (locate_spaced_iff hglued).1.2 (.inl rfl),
    ((locate_spaced_iff isGlued_always_ff).2 (by decide) [] "module m" ["input a,"] hopen).2⟩

/-- **A glued `always_ff` is missed.** A blank in front of a sensitivity list may change what is
located. -/
theorem glued_sensitivity_list_missed :
    ¬ ∀ (before after : List Text) (keyword line : Text), IsGlued keyword line →
      locate (before ++ spaced line :: after) = locate (before ++ line :: after) := by
  intro hall
  exact absurd (hall ["module m", "input a,"] [] _ _ isGlued_always_ff) (by decide)

end Block

end WaveLayout.Verilog

import WaveLayout.Proofs.Blocks

/-!
# Where a block is located

The lines of a source are in one of three states. They hold no header. Or they are **open**: they
hold a header, and no marker stands behind the first one. Or they can be cut at that header and at
the first marker behind it.

**Theorem.** There is a block exactly in the third state, and the two errors say exactly which of
the other states holds. The block **records** the cut: the name in the header, the number of the
header line, and the lines of the body with their numbers. The cut is the only one, and the line of
the source at a recorded number is the recorded line.

Markers in front of the first header play no part, and neither do headers behind it.
-/

namespace WaveLayout.Verilog

variable {lines before body after : List Text} {header marker name : Text} {block : Block}

/-! ## Names in headers -/

/-- The name in a header is its second token, cut before the first `(` or `#`. It is empty if there
is no second token. -/
def IsHeaderName (header name : Text) : Prop :=
  ((tokens header)[1]? = none ∧ name = []) ∨
    ∃ rest, (tokens header)[1]? = some (name ++ rest) ∧ (∀ c ∈ name, c ≠ '(' ∧ c ≠ '#') ∧
      ∀ c ∈ rest.head?, c = '(' ∨ c = '#'

theorem isHeaderName_iff : IsHeaderName header name ↔ name = headerName header := by
  unfold IsHeaderName headerName
  cases hsecond : (tokens header)[1]? with
  | none => simp
  | some token =>
    simp only [Option.getD_some, eq_comm (a := name), Text.takeWhile_eq_iff]
    simp [eq_comm (a := token), or_iff_not_imp_left]

/-! ## Open sources -/

/-- The lines hold a header, and no marker stands behind the first one. -/
structure IsOpen (lines before : List Text) (header : Text) (body : List Text) : Prop where
  lines_eq : lines = before ++ header :: body
  not_opensModule : ∀ line ∈ before, ¬ OpensModule line
  opensModule : OpensModule header
  not_opensProcedure : ∀ line ∈ body, ¬ OpensProcedure line

theorem isOpen_iff :
    IsOpen lines before header body ↔
      splitAtFirst isHeader lines = some (before, header, body) ∧
        splitAtFirst isMarker body = none := by
  simp only [splitAtFirst_eq_some_iff, splitAtFirst_eq_none_iff, isHeader_iff,
    isHeader_eq_false_iff, isMarker_eq_false_iff]
  constructor
  · intro h
    obtain ⟨heq, hbefore, hheader, hbody⟩ := h
    exact ⟨⟨heq, hbefore, hheader⟩, hbody⟩
  · intro h
    obtain ⟨⟨heq, hbefore, hheader⟩, hbody⟩ := h
    exact ⟨heq, hbefore, hheader, hbody⟩

theorem header_cases (lines : List Text) :
    (∀ line ∈ lines, ¬ OpensModule line) ∨
      (∃ before header body, IsOpen lines before header body) ∨
      ∃ before header body marker after, IsCut lines before header body marker after := by
  cases hheader : splitAtFirst isHeader lines with
  | none =>
    have hnone := splitAtFirst_eq_none_iff.1 hheader
    exact .inl fun line hline => isHeader_eq_false_iff.1 (hnone line hline)
  | some cut =>
    obtain ⟨before, header, rest⟩ := cut
    cases hmarker : splitAtFirst isMarker rest with
    | none => exact .inr (.inl ⟨before, header, rest, isOpen_iff.2 ⟨hheader, hmarker⟩⟩)
    | some found =>
      obtain ⟨body, marker, after⟩ := found
      obtain ⟨rfl, -, -⟩ := splitAtFirst_eq_some_iff.1 hmarker
      exact .inr (.inr ⟨before, header, body, marker, after, isCut_iff.2 ⟨hheader, hmarker⟩⟩)

/-! ## Longer sources -/

theorem IsCut.append (h : IsCut lines before header body marker after) (more : List Text) :
    IsCut (lines ++ more) before header body marker (after ++ more) :=
  { h with lines_eq := by simp [h.lines_eq] }

theorem IsOpen.isCut {line : Text} (h : IsOpen lines before header body)
    (hline : OpensProcedure line) (more : List Text) :
    IsCut (lines ++ line :: more) before header body line more :=
  { h with lines_eq := by simp [h.lines_eq], opensProcedure := hline }

theorem IsOpen.concat {line : Text} (h : IsOpen lines before header body)
    (hline : ¬ OpensProcedure line) :
    IsOpen (lines ++ [line]) before header (body ++ [line]) :=
  { h with
    lines_eq := by simp [h.lines_eq]
    not_opensProcedure :=
      List.forall_mem_append.2 ⟨h.not_opensProcedure, List.forall_mem_singleton.2 hline⟩ }

/-- What open lines hold behind their header starts the body, wherever the cut comes. -/
theorem IsOpen.isPrefix {more before' body' : List Text} {header' : Text}
    (h : IsOpen lines before header body)
    (hcut : IsCut (lines ++ more) before' header' body' marker after) : body <+: body' := by
  have hsplit : splitAtFirst isHeader (lines ++ more) = some (before, header, body ++ more) := by
    simp only [splitAtFirst_eq_some_iff, isHeader_iff, isHeader_eq_false_iff]
    exact ⟨by simp [h.lines_eq], h.not_opensModule, h.opensModule⟩
  rw [(isCut_iff.1 hcut).1] at hsplit
  have hrest : body' ++ marker :: after = body ++ more := by
    simpa using congrArg (·.map (·.2.2)) hsplit
  rcases List.append_eq_append_iff.1 hrest with ⟨between, hbody, htail⟩ | ⟨between, hbody, -⟩
  · cases between with
    | nil => simp [hbody]
    | cons first more' =>
      -- The marker would stand among the open lines.
      obtain ⟨rfl, -⟩ := List.cons.inj htail
      exact absurd hcut.opensProcedure (h.not_opensProcedure marker (by simp [hbody]))
  · exact ⟨between, hbody.symm⟩

/-! ## Recorded cuts -/

/-- The block records the name in the header, the number of the header line, and the lines of the
body in order, numbered from the line behind the header. -/
structure Records (block : Block) (before : List Text) (header : Text) (body : List Text) :
    Prop where
  isHeaderName : IsHeaderName header block.moduleName
  headerLine_eq : block.headerLine = before.length + 1
  texts_eq : block.lines.map (·.text) = body
  number_eq : ∀ i line, block.lines[i]? = some line → line.number = before.length + 2 + i

theorem getElem?_numberFrom (first : Nat) (lines : List Text) (i : Nat) :
    (numberFrom first lines)[i]? = lines[i]?.map fun text => ⟨first + i, text⟩ := by
  rw [numberFrom, List.getElem?_map, List.getElem?_zipIdx, Option.map_map]
  rfl

theorem records_iff :
    Records block before header body ↔
      block = ⟨headerName header, before.length + 1, numberFrom (before.length + 2) body⟩ := by
  constructor
  · intro h
    obtain ⟨name, headerLine, numbered⟩ := block
    obtain ⟨hname, hheader, htexts, hnumbers⟩ := h
    have hlines : numbered = numberFrom (before.length + 2) body := by
      apply List.ext_getElem?
      intro i
      rw [getElem?_numberFrom, ← htexts, List.getElem?_map]
      cases hline : numbered[i]? with
      | none => rfl
      | some line =>
        have hnumber := hnumbers i line hline
        simp [← hnumber]
    simp only [Block.mk.injEq]
    exact ⟨isHeaderName_iff.1 hname, hheader, hlines⟩
  · rintro rfl
    refine ⟨isHeaderName_iff.2 rfl, rfl, map_text_numberFrom _ body, ?_⟩
    intro i line hline
    rw [getElem?_numberFrom, Option.map_eq_some_iff] at hline
    obtain ⟨text, -, rfl⟩ := hline
    rfl

/-- The line of the source at a recorded number, counted from one, is the recorded line. -/
theorem IsCut.getElem?_of_records (h : IsCut lines before header body marker after)
    (hr : Records block before header body) {line : NumberedLine} (hline : line ∈ block.lines) :
    ∃ n, line.number = n + 1 ∧ lines[n]? = some line.text := by
  obtain ⟨i, hi⟩ := List.mem_iff_getElem?.1 hline
  have hbody : body[i]? = some line.text := by
    rw [← hr.texts_eq, List.getElem?_map, hi]
    rfl
  have hlt : i < body.length := (List.getElem?_eq_some_iff.1 hbody).1
  refine ⟨before.length + 1 + i, ?_, ?_⟩
  · rw [hr.number_eq i line hi]
    omega
  · rw [h.lines_eq, List.append_cons, List.getElem?_append_right (by simp),
      List.getElem?_append_left (by simp; omega), ← hbody]
    congr 1
    simp

/-! ## Location -/

namespace Block

theorem locate_eq_missingHeader_iff :
    locate lines = .error .missingHeader ↔ ∀ line ∈ lines, ¬ OpensModule line := by
  simp only [← isHeader_eq_false_iff]
  rw [← splitAtFirst_eq_none_iff, locate]
  cases splitAtFirst isHeader lines with
  | none => simp
  | some cut =>
    obtain ⟨before, header, after⟩ := cut
    cases hmarker : splitAtFirst isMarker after with
    | none => simp [hmarker]
    | some found => simp [hmarker]

theorem locate_eq_missingMarker_iff {number : Nat} :
    locate lines = .error (.missingMarker name number) ↔
      ∃ before header body, IsOpen lines before header body ∧ IsHeaderName header name ∧
        number = before.length + 1 := by
  simp only [isOpen_iff, isHeaderName_iff, locate]
  cases splitAtFirst isHeader lines with
  | none => simp
  | some cut =>
    obtain ⟨before, header, after⟩ := cut
    cases hmarker : splitAtFirst isMarker after with
    | none => simp [hmarker, eq_comm]
    | some found => simp [hmarker]

/-- **Where blocks are located.** There is a block exactly if the lines can be cut, and it records
that cut, which is the only one. Each recorded line stands in the source at its number. The header
is missing exactly if no line is one, and the marker is missing exactly if the lines are open; the
error then has the name and the number of the first header. -/
theorem located_exactly_at_cut (lines : List Text) :
    (∀ block, locate lines = .ok block ↔ ∃ before header body marker after,
      IsCut lines before header body marker after ∧ Records block before header body) ∧
    (∀ before header body marker after before' header' body' marker' after',
      IsCut lines before header body marker after →
      IsCut lines before' header' body' marker' after' →
      before = before' ∧ header = header' ∧ body = body' ∧ marker = marker' ∧ after = after') ∧
    (∀ block, locate lines = .ok block → ∀ line ∈ block.lines,
      ∃ n, line.number = n + 1 ∧ lines[n]? = some line.text) ∧
    (locate lines = .error .missingHeader ↔ ∀ line ∈ lines, ¬ OpensModule line) ∧
    (∀ name number, locate lines = .error (.missingMarker name number) ↔
      ∃ before header body, IsOpen lines before header body ∧ IsHeaderName header name ∧
        number = before.length + 1) := by
  have hblock : ∀ block, locate lines = .ok block ↔ ∃ before header body marker after,
      IsCut lines before header body marker after ∧ Records block before header body := by
    intro block
    simp only [locate_eq_ok_iff, records_iff]
  refine ⟨hblock, ?_, ?_, locate_eq_missingHeader_iff, ?_⟩
  · intro before header body marker after before' header' body' marker' after' hcut hcut'
    exact hcut.unique hcut'
  · intro block h line hline
    obtain ⟨before, header, body, marker, after, hcut, hrecords⟩ := (hblock block).1 h
    exact hcut.getElem?_of_records hrecords hline
  · intro name number
    exact locate_eq_missingMarker_iff

/-- A marker in front of the first header and a header behind the body, with the numbers of the
body between them. -/
theorem located_between_other_modules :
    let lines : List Text :=
      ["always @*", "module m#(", "input a,", "", "module n;", "always@(a)", "module o", "always"]
    let found : Block := ⟨"m", 2, [⟨3, "input a,"⟩, ⟨4, ""⟩, ⟨5, "module n;"⟩]⟩
    locate lines = .ok found ∧
      (∀ line ∈ found.lines, ∃ n, line.number = n + 1 ∧ lines[n]? = some line.text) ∧
      ∀ before header body marker after, IsCut lines before header body marker after →
        body = ["input a,", "", "module n;"] := by
  intro lines found
  have hcut : IsCut lines ["always @*"] "module m#(" ["input a,", "", "module n;"] "always@(a)"
      ["module o", "always"] := ⟨rfl, by decide, by decide, by decide, by decide⟩
  have hrecords : Records found ["always @*"] "module m#(" ["input a,", "", "module n;"] :=
    records_iff.2 (by decide)
  obtain ⟨hblock, hunique, hnumbered, -, -⟩ := located_exactly_at_cut lines
  have h : locate lines = .ok found := (hblock found).2 ⟨_, _, _, _, _, hcut, hrecords⟩
  refine ⟨h, hnumbered found h, ?_⟩
  intro before header body marker after hother
  exact (hunique _ _ _ _ _ _ _ _ _ _ hother hcut).2.2.1

end Block

end WaveLayout.Verilog

import WaveLayout.Proofs.Grammar
import WaveLayout.Verilog.Scan

/-!
# The declarations of a block

A block is located exactly where the lines of a source can be **cut** into a part without header,
the header, a **body** without marker, a marker and a rest, and it consists of the numbered body
(`locate_eq_ok_iff`). A source is cut in one way at most (`IsCut.unique`).

The signals of a group are the names that the classifier finds in the body for that group, in the
order of the lines (`group_signals`), and they are well formed (`wellFormed_of_mem_group`).
-/

namespace WaveLayout.Verilog

/-! ## The first element of a class -/

section SplitAtFirst

variable {α : Type} {p : α → Bool} {xs before after : List α} {x : α}

theorem splitAtFirst_append_cons (hb : ∀ y ∈ before, p y = false) (hx : p x = true)
    (after : List α) : splitAtFirst p (before ++ x :: after) = some (before, x, after) := by
  induction before with
  | nil => exact if_pos hx
  | cons y ys ih =>
    rw [List.cons_append, splitAtFirst, hb y List.mem_cons_self,
      ih fun z hz => hb z (List.mem_cons_of_mem y hz)]
    rfl

theorem splitAtFirst_eq_none_iff : splitAtFirst p xs = none ↔ ∀ y ∈ xs, p y = false := by
  induction xs with
  | nil => simp [splitAtFirst]
  | cons y ys ih =>
    rw [splitAtFirst, List.forall_mem_cons, ← ih]
    by_cases hy : p y = true
    · simp [hy]
    · simp [hy]

theorem splitAtFirst_eq_some_iff :
    splitAtFirst p xs = some (before, x, after) ↔
      xs = before ++ x :: after ∧ (∀ y ∈ before, p y = false) ∧ p x = true := by
  constructor
  · intro h
    induction xs generalizing before with
    | nil => cases h
    | cons y ys ih =>
      by_cases hy : p y
      · rw [splitAtFirst, if_pos hy] at h
        cases h
        exact ⟨rfl, fun z hz => absurd hz List.not_mem_nil, hy⟩
      · rw [splitAtFirst, if_neg hy, Option.map_eq_some_iff] at h
        obtain ⟨⟨rest, _, _⟩, hrest, heq⟩ := h
        cases heq
        obtain ⟨rfl, hb, hx⟩ := ih hrest
        exact ⟨rfl, List.forall_mem_cons.2 ⟨by simpa using hy, hb⟩, hx⟩
  · rintro ⟨rfl, hb, hx⟩
    exact splitAtFirst_append_cons hb hx after

/-- A front without elements of the class stays in front. -/
theorem splitAtFirst_append {front : List α} (h : ∀ y ∈ front, p y = false) (rest : List α) :
    splitAtFirst p (front ++ rest) =
      (splitAtFirst p rest).map fun (before, found, after) => (front ++ before, found, after) := by
  cases hrest : splitAtFirst p rest with
  | none =>
    rw [splitAtFirst_eq_none_iff] at hrest
    rw [Option.map_none, splitAtFirst_eq_none_iff]
    exact List.forall_mem_append.2 ⟨h, hrest⟩
  | some cut =>
    obtain ⟨before, found, after⟩ := cut
    obtain ⟨rfl, hbefore, hfound⟩ := splitAtFirst_eq_some_iff.1 hrest
    rw [Option.map_some, splitAtFirst_eq_some_iff]
    exact ⟨by simp, List.forall_mem_append.2 ⟨h, hbefore⟩, hfound⟩

/-- Lists whose elements are related are split at the same place. -/
theorem splitAtFirst_rel {rel : α → α → Prop} {ys : List α}
    (h : List.Forall₂ rel xs ys) (hp : ∀ x y, rel x y → p x = p y) :
    Option.Rel (fun first second => List.Forall₂ rel first.1 second.1 ∧
        rel first.2.1 second.2.1 ∧ List.Forall₂ rel first.2.2 second.2.2)
      (splitAtFirst p xs) (splitAtFirst p ys) := by
  induction h with
  | nil => exact .none
  | @cons x y xs ys hxy hrest ih =>
    rw [splitAtFirst, splitAtFirst, hp x y hxy]
    split
    · exact .some ⟨.nil, hxy, hrest⟩
    · generalize splitAtFirst p xs = first at ih ⊢
      generalize splitAtFirst p ys = second at ih ⊢
      cases ih with
      | none => exact .none
      | some hrel => exact .some ⟨.cons hxy hrel.1, hrel.2⟩

end SplitAtFirst

/-! ## Headers and markers -/

/-- The first token of the line is `module`. -/
def OpensModule (line : Text) : Prop := (tokens line).head? = some ("module" : Text)

/-- The first token of the line is one of the four procedural keywords, or it is `always@` with
anything glued to it. -/
def OpensProcedure (line : Text) : Prop :=
  ∃ token, (tokens line).head? = some token ∧
    (token ∈ (["always", "always_ff", "always_comb", "always_latch"] : List Text) ∨
      ∃ glued, token = ("always@" : Text) ++ glued)

variable {line : Text}

theorem isHeader_iff : isHeader line = true ↔ OpensModule line := decide_eq_true_iff

theorem isHeader_eq_false_iff : isHeader line = false ↔ ¬ OpensModule line :=
  decide_eq_false_iff_not

theorem isMarker_iff : isMarker line = true ↔ OpensProcedure line := by
  simp only [isMarker, isProcedural, OpensProcedure, Option.any_eq_true, Bool.or_eq_true,
    decide_eq_true_iff, List.isPrefixOf_iff_prefix, List.prefix_iff_exists_eq_append]

theorem isMarker_eq_false_iff : isMarker line = false ↔ ¬ OpensProcedure line := by
  rw [Bool.eq_false_iff, Ne, isMarker_iff]

instance (line : Text) : Decidable (OpensModule line) := decidable_of_iff _ isHeader_iff

instance (line : Text) : Decidable (OpensProcedure line) := decidable_of_iff _ isMarker_iff

/-! ## Cuts and bodies -/

/-- The lines are cut at the first header and at the first marker after it. -/
structure IsCut (lines before : List Text) (header : Text) (body : List Text) (marker : Text)
    (after : List Text) : Prop where
  lines_eq : lines = before ++ header :: (body ++ marker :: after)
  not_opensModule : ∀ line ∈ before, ¬ OpensModule line
  opensModule : OpensModule header
  not_opensProcedure : ∀ line ∈ body, ¬ OpensProcedure line
  opensProcedure : OpensProcedure marker

/-- The body stands strictly between the first header of the lines and the first marker after
it. -/
def IsBody (lines body : List Text) : Prop :=
  ∃ before header marker after, lines = before ++ header :: (body ++ marker :: after) ∧
    (∀ line ∈ before, ¬ OpensModule line) ∧ OpensModule header ∧
    (∀ line ∈ body, ¬ OpensProcedure line) ∧ OpensProcedure marker

variable {lines before body after : List Text} {header marker : Text}

theorem isBody_iff :
    IsBody lines body ↔
      ∃ before header marker after, IsCut lines before header body marker after := by
  constructor
  · rintro ⟨before, header, marker, after, heq, hb, hh, hbody, hm⟩
    exact ⟨before, header, marker, after, heq, hb, hh, hbody, hm⟩
  · rintro ⟨before, header, marker, after, heq, hb, hh, hbody, hm⟩
    exact ⟨before, header, marker, after, heq, hb, hh, hbody, hm⟩

theorem isCut_iff :
    IsCut lines before header body marker after ↔
      splitAtFirst isHeader lines = some (before, header, body ++ marker :: after) ∧
        splitAtFirst isMarker (body ++ marker :: after) = some (body, marker, after) := by
  simp only [splitAtFirst_eq_some_iff, isHeader_iff, isHeader_eq_false_iff, isMarker_iff,
    isMarker_eq_false_iff]
  constructor
  · rintro ⟨heq, hb, hh, hbody, hm⟩
    exact ⟨⟨heq, hb, hh⟩, trivial, hbody, hm⟩
  · rintro ⟨⟨heq, hb, hh⟩, -, hbody, hm⟩
    exact ⟨heq, hb, hh, hbody, hm⟩

/-- Lines are cut in one way. -/
theorem IsCut.unique {before' body' after' : List Text} {header' marker' : Text}
    (h : IsCut lines before header body marker after)
    (h' : IsCut lines before' header' body' marker' after') :
    before = before' ∧ header = header' ∧ body = body' ∧ marker = marker' ∧ after = after' := by
  obtain ⟨hheader, hmarker⟩ := isCut_iff.1 h
  obtain ⟨hheader', hmarker'⟩ := isCut_iff.1 h'
  rw [hheader] at hheader'
  obtain ⟨hbefore, hname, hrest⟩ : before = before' ∧ header = header' ∧
      body ++ marker :: after = body' ++ marker' :: after' := by simpa using hheader'
  rw [hrest, hmarker'] at hmarker
  obtain ⟨hbody, hline, hafter⟩ : body' = body ∧ marker' = marker ∧ after' = after := by
    simpa using hmarker
  exact ⟨hbefore, hname, hbody.symm, hline.symm, hafter.symm⟩

/-- A source has one body. -/
theorem IsBody.unique {other : List Text} (h : IsBody lines body) (ho : IsBody lines other) :
    body = other := by
  obtain ⟨before, header, marker, after, hcut⟩ := isBody_iff.1 h
  obtain ⟨before', header', marker', after', hcut'⟩ := isBody_iff.1 ho
  exact (hcut.unique hcut').2.2.1

/-! ## Blocks -/

theorem map_text_numberFrom (first : Nat) (lines : List Text) :
    (numberFrom first lines).map (·.text) = lines := by
  rw [numberFrom, List.map_map]
  exact List.zipIdx_map_fst first lines

/-- The block of the lines is the numbered body of their cut. -/
theorem locate_eq_ok_iff {block : Block} :
    Block.locate lines = .ok block ↔
      ∃ before header body marker after, IsCut lines before header body marker after ∧
        block = ⟨headerName header, before.length + 1, numberFrom (before.length + 2) body⟩ := by
  constructor
  · intro h
    unfold Block.locate at h
    split at h
    · cases h
    · next before header rest hheader =>
      dsimp only at h
      split at h
      · cases h
      · next body marker after hmarker =>
        obtain ⟨rfl, -, -⟩ := splitAtFirst_eq_some_iff.1 hmarker
        exact ⟨before, header, body, marker, after, isCut_iff.2 ⟨hheader, hmarker⟩,
          (Except.ok.inj h).symm⟩
  · rintro ⟨before, header, body, marker, after, hcut, rfl⟩
    obtain ⟨hheader, hmarker⟩ := isCut_iff.1 hcut
    simp only [Block.locate, hheader, hmarker]

theorem IsCut.locate_eq (h : IsCut lines before header body marker after) :
    Block.locate lines =
      .ok ⟨headerName header, before.length + 1, numberFrom (before.length + 2) body⟩ :=
  locate_eq_ok_iff.2 ⟨before, header, body, marker, after, h, rfl⟩

/-- **Where blocks are.** A block with the body is located exactly if the source has that body. -/
theorem exists_block_iff :
    (∃ block, Block.locate lines = .ok block ∧ block.lines.map (·.text) = body) ↔
      IsBody lines body := by
  rw [isBody_iff]
  constructor
  · rintro ⟨block, h, rfl⟩
    obtain ⟨before, header, body, marker, after, hcut, rfl⟩ := locate_eq_ok_iff.1 h
    rw [map_text_numberFrom]
    exact ⟨before, header, marker, after, hcut⟩
  · rintro ⟨before, header, marker, after, hcut⟩
    exact ⟨_, locate_eq_ok_iff.2 ⟨before, header, body, marker, after, hcut, rfl⟩,
      map_text_numberFrom _ body⟩

/-! ## Signals -/

/-- The names that lines declare for a group, in order. -/
def namesIn (group : Group) (lines : List Text) : List SignalName :=
  ((lines.filterMap classify).filter (·.direction.group = group)).map (·.name)

theorem namesIn_append (group : Group) (xs ys : List Text) :
    namesIn group (xs ++ ys) = namesIn group xs ++ namesIn group ys := by
  simp [namesIn]

namespace Block

theorem declarations_eq (block : Block) :
    block.declarations = (block.lines.map (·.text)).filterMap classify := by
  rw [declarations, List.filterMap_map]
  rfl

/-- The signals of a group are those that the lines of the block declare for it. -/
theorem group_signals (block : Block) (group : Group) :
    block.signals.group group = namesIn group (block.lines.map (·.text)) := by
  rw [signals, Signals.group_ofDeclarations, declarations_eq, namesIn]

theorem wellFormed_of_mem_group {block : Block} {group : Group} {name : SignalName}
    (h : name ∈ block.signals.group group) : WellFormed name := by
  rw [group_signals, namesIn, List.mem_map] at h
  obtain ⟨declaration, hd, rfl⟩ := h
  obtain ⟨line, -, hl⟩ := List.mem_filterMap.1 (List.mem_filter.1 hd).1
  exact wellFormed_of_classify hl

end Block

end WaveLayout.Verilog

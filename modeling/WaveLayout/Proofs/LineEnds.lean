import WaveLayout.Proofs.Agreement
import WaveLayout.Proofs.Blocks

/-!
# Line ends

**Theorem.** Whether lines end in a newline or in a return and a newline makes no difference to a
build: if returns are added directly before any of the newlines in any files of the tree, the build
finds, builds and says the same, or fails for the same reason.

One return before a newline belongs to the line end, and any other one stays in the line. So a line
may have one more return at its end afterwards (`lines_of_addsReturns`), and that is all that the
build gets to see. A return is blank, so it is in no word and no token, and trimming removes it.
What the build makes of lines is made of these.
-/

namespace WaveLayout

/-! ## Lists of related elements -/

section Related

variable {α β : Type} {rel : α → α → Prop} {xs ys : List α}

theorem map_eq_of_forall₂ {f : α → β} (h : List.Forall₂ rel xs ys)
    (hf : ∀ x y, rel x y → f x = f y) : xs.map f = ys.map f := by
  induction h with
  | nil => rfl
  | cons hxy _ ih => rw [List.map_cons, List.map_cons, hf _ _ hxy, ih]

theorem filterMap_eq_of_forall₂ {f : α → Option β} (h : List.Forall₂ rel xs ys)
    (hf : ∀ x y, rel x y → f x = f y) : xs.filterMap f = ys.filterMap f := by
  have hmap := congrArg (List.filterMap id) (map_eq_of_forall₂ h hf)
  rwa [List.filterMap_map, List.filterMap_map] at hmap

end Related

/-! ## Added returns -/

namespace Text

/-- The second text is the first one with a return added directly before some of its newlines. -/
inductive AddsReturns : Text → Text → Prop where
  | nil : AddsReturns [] []
  | keep (c : Char) {s t : Text} : AddsReturns s t → AddsReturns (c :: s) (c :: t)
  | add {s t : Text} : AddsReturns s t → AddsReturns ('\n' :: s) ('\r' :: '\n' :: t)

theorem AddsReturns.refl (s : Text) : AddsReturns s s := by
  induction s with
  | nil => exact .nil
  | cons c rest ih => exact .keep c ih

theorem AddsReturns.append (s : Text) {t u : Text} (h : AddsReturns t u) :
    AddsReturns (s ++ t) (s ++ u) := by
  induction s with
  | nil => exact h
  | cons c rest ih => exact .keep c ih

/-- The lines are the same, or the second one has one more return at its end. -/
def SameToReturn (line other : Text) : Prop := other = line ∨ other = line ++ ['\r']

theorem sameToReturn_dropReturn (line : Text) :
    SameToReturn (dropReturn line) (dropReturn (line ++ ['\r'])) := by
  have hreturn : dropReturn (line ++ ['\r']) = line := by simp [dropReturn]
  rw [hreturn]
  by_cases hlast : line.getLast? = some '\r'
  · obtain ⟨front, rfl⟩ := List.getLast?_eq_some_iff.1 hlast
    refine .inr ?_
    simp [dropReturn]
  · refine .inl ?_
    simp [dropReturn, hlast]

theorem forall₂_sameToReturn (ls : List Text) : List.Forall₂ SameToReturn ls ls :=
  List.forall₂_same.2 fun _ _ => .inl rfl

/-- **Lines under added returns.** Each line stays as it is or gets one more return at its end. -/
theorem lines_of_addsReturns {s t : Text} (h : AddsReturns s t) :
    List.Forall₂ SameToReturn (lines s) (lines t) := by
  -- The line that is still open is the same in both texts, and it is carried along.
  suffices hopen : ∀ line : Text, '\n' ∉ line →
      List.Forall₂ SameToReturn (lines (line ++ s)) (lines (line ++ t)) from
    hopen [] List.not_mem_nil
  induction h with
  | nil =>
    intro line _
    exact forall₂_sameToReturn _
  | @keep c s t h ih =>
    intro line hline
    by_cases hc : c = '\n'
    · subst hc
      rw [lines_append_newline hline, lines_append_newline hline]
      exact .cons (.inl rfl) (ih [] List.not_mem_nil)
    · rw [List.append_cons, List.append_cons line c t]
      apply ih
      simp [hline, Ne.symm hc]
  | @add s t h ih =>
    intro line hline
    have hreturn : '\n' ∉ line ++ ['\r'] := by simp [hline]
    rw [lines_append_newline hline, List.append_cons, lines_append_newline hreturn]
    exact .cons (sameToReturn_dropReturn line) (ih [] List.not_mem_nil)

/-! ### What is made of such lines -/

variable {line other : Text}

theorem SameToReturn.wordsBy_eq {p : Char → Bool} (hp : p '\r' = true)
    (h : SameToReturn line other) : wordsBy p line = wordsBy p other := by
  rcases h with rfl | rfl
  · rfl
  · rw [wordsBy_concat hp]

theorem SameToReturn.words_eq (h : SameToReturn line other) : words line = words other :=
  h.wordsBy_eq (by decide)

theorem SameToReturn.trim_eq (h : SameToReturn line other) : trim line = trim other := by
  rcases h with rfl | rfl
  · rfl
  · rw [trim, trim, trimBy_concat (by decide)]

end Text

namespace Verilog

open Text

variable {line other : Text} {lines others : List Text}

theorem tokens_eq_of_sameToReturn (h : SameToReturn line other) : tokens line = tokens other :=
  h.wordsBy_eq (by decide)

theorem classify_eq_of_sameToReturn (h : SameToReturn line other) :
    classify line = classify other := by
  have hranged : rangedTokens line = rangedTokens other := by
    rcases h with rfl | rfl
    · rfl
    · have hspread : spread (line ++ ['\r']) = spread line ++ ['\r'] := spread_append line ['\r']
      have hconcat : ∀ s, tokens (s ++ ['\r']) = tokens s := fun s => wordsBy_concat (by decide) s
      simp [rangedTokens, hspread, hconcat]
  rw [classify, classify, tokens_eq_of_sameToReturn h, hranged]

theorem isHeader_eq_of_sameToReturn (h : SameToReturn line other) :
    isHeader line = isHeader other := by
  rw [isHeader, isHeader, tokens_eq_of_sameToReturn h]

theorem isMarker_eq_of_sameToReturn (h : SameToReturn line other) :
    isMarker line = isMarker other := by
  rw [isMarker, isMarker, tokens_eq_of_sameToReturn h]

theorem headerName_eq_of_sameToReturn (h : SameToReturn line other) :
    headerName line = headerName other := by
  rw [headerName, headerName, tokens_eq_of_sameToReturn h]

/-! ## Blocks -/

theorem event?_eq_of_sameToReturn {first second : NumberedLine}
    (hnumber : first.number = second.number) (htext : SameToReturn first.text second.text) :
    first.event? = second.event? := by
  rw [NumberedLine.event?, NumberedLine.event?, classify_eq_of_sameToReturn htext, htext.trim_eq,
    hnumber]

theorem numberFrom_rel (h : List.Forall₂ SameToReturn lines others) (first : Nat) :
    List.Forall₂ (fun line other => line.number = other.number ∧ SameToReturn line.text other.text)
      (numberFrom first lines) (numberFrom first others) := by
  induction h generalizing first with
  | nil => exact .nil
  | cons hline _ ih => exact .cons ⟨rfl, hline⟩ (ih (first + 1))

/-- **Blocks under added returns.** There is a block in both sources, with the same events and the
same signals, or none in both for the same reason. -/
theorem locate_of_sameToReturn (h : List.Forall₂ SameToReturn lines others) :
    SameResult (fun first second => first.events = second.events ∧ first.signals = second.signals)
      (Block.locate lines) (Block.locate others) := by
  have hheader := splitAtFirst_rel h fun _ _ => isHeader_eq_of_sameToReturn
  unfold Block.locate
  generalize splitAtFirst isHeader lines = first at hheader ⊢
  generalize splitAtFirst isHeader others = second at hheader ⊢
  cases hheader with
  | none => exact .error _
  | @some first second hrel =>
    obtain ⟨before, header, after⟩ := first
    obtain ⟨before', header', after'⟩ := second
    obtain ⟨hbefore, hname, hafter⟩ := hrel
    have hmarker := splitAtFirst_rel hafter fun _ _ => isMarker_eq_of_sameToReturn
    dsimp only at hbefore hname hmarker ⊢
    rw [hbefore.length_eq, headerName_eq_of_sameToReturn hname]
    generalize splitAtFirst isMarker after = first at hmarker ⊢
    generalize splitAtFirst isMarker after' = second at hmarker ⊢
    cases hmarker with
    | none => exact .error _
    | some hrel =>
      have hbody := numberFrom_rel hrel.1 (before'.length + 1 + 1)
      refine .ok ⟨?_, congrArg Signals.ofDeclarations ?_⟩
      · exact filterMap_eq_of_forall₂ hbody fun _ _ h => event?_eq_of_sameToReturn h.1 h.2
      · exact filterMap_eq_of_forall₂ hbody fun _ _ h => classify_eq_of_sameToReturn h.2

end Verilog

/-! ## Projects -/

namespace Project

open Text

variable {lines others : List Text}

theorem invocation?_of_sameToReturn (command : Text)
    (h : List.Forall₂ SameToReturn lines others) :
    invocation? command lines = invocation? command others := by
  have hwords : lines.map words = others.map words :=
    map_eq_of_forall₂ h fun _ _ hsame => hsame.words_eq
  rw [invocation?, invocation?, hwords]

theorem source?_of_sameToReturn (moduleName : Text)
    (h : List.Forall₂ SameToReturn lines others) :
    source? moduleName lines = source? moduleName others := by
  have hentries : lines.filterMap (entrySource? moduleName) =
      others.filterMap (entrySource? moduleName) := by
    apply filterMap_eq_of_forall₂ h
    intro line other hsame
    rw [entrySource?, entrySource?, hsame.words_eq]
  rw [source?, source?, hentries]

end Project

/-! ## Trees -/

namespace FileTree

/-- The entries are the same, or they are files and the text of the second one has added
returns. -/
inductive SameEntry : Entry → Entry → Prop where
  | same (entry : Entry) : SameEntry entry entry
  | text {s t : Text} : Text.AddsReturns s t → SameEntry (.file (.text s)) (.file (.text t))

/-- The second tree is the first one with returns added to the texts of some files. -/
structure AddsReturns (before after : FileTree) : Prop where
  workingDirectory : after.workingDirectory = before.workingDirectory
  entry?_rel : ∀ location, Option.Rel SameEntry (before.entry? location) (after.entry? location)

namespace AddsReturns

variable {before after : FileTree}

theorem step_eq (h : before.AddsReturns after) (location : Location) (piece : Text) :
    after.step location piece = before.step location piece := by
  have hisSome : (after.entry? (piece :: location)).isSome =
      (before.entry? (piece :: location)).isSome := by
    have hrel := h.entry?_rel (piece :: location)
    generalize before.entry? (piece :: location) = first at hrel ⊢
    generalize after.entry? (piece :: location) = second at hrel ⊢
    cases hrel with
    | none => rfl
    | some _ => rfl
  have hrel := h.entry?_rel location
  unfold step
  rw [hisSome]
  generalize before.entry? location = first at hrel ⊢
  generalize after.entry? location = second at hrel ⊢
  cases hrel with
  | none => rfl
  | some hentry =>
    cases hentry with
    | same => rfl
    | text _ => rfl

theorem locateFrom_eq (h : before.AddsReturns after) (directory : Location) (path : Path) :
    after.locateFrom directory path = before.locateFrom directory path := by
  have hstep : after.step = before.step := by
    funext location piece
    exact h.step_eq location piece
  simp only [locateFrom, walk, hstep]

/-- What is read has added returns, and what cannot be read is refused for the same reason. -/
theorem read_rel (h : before.AddsReturns after) (path : Path) :
    SameResult Text.AddsReturns (before.read path) (after.read path) := by
  simp only [read, readFrom, h.locateFrom_eq, h.workingDirectory]
  cases before.locateFrom before.workingDirectory path with
  | error cause => exact .error cause
  | ok location =>
    have hrel := h.entry?_rel location
    simp only [bind, Except.bind]
    generalize before.entry? location = first at hrel ⊢
    generalize after.entry? location = second at hrel ⊢
    cases hrel with
    | none => exact .error _
    | @some entry _ hentry =>
      cases hentry with
      | text htext => exact .ok htext
      | same =>
        cases entry with
        | directory => exact .error _
        | file content =>
          cases content with
          | bytes _ => exact .error _
          | text s => exact .ok (.refl s)

/-- Writing the text with added returns over the text of a file. -/
theorem put {location : Location} {s t : Text} (hl : location ≠ [])
    (hs : before.entry? location = some (.file (.text s))) (h : Text.AddsReturns s t) :
    before.AddsReturns (before.put location (.file (.text t))) := by
  refine ⟨rfl, ?_⟩
  intro other
  rw [entry?_put hl]
  by_cases ho : other = location
  · rw [if_pos ho, ho, hs]
    exact .some (.text h)
  · rw [if_neg ho]
    cases before.entry? other with
    | none => exact .none
    | some entry => exact .some (.same entry)

end AddsReturns

end FileTree

/-! ## Builds -/

namespace Generation

open Attempt FileTree Text

variable {before after : FileTree}

theorem agree_readLines (h : before.AddsReturns after) (path : Path) :
    Agree before after (List.Forall₂ SameToReturn) (readLines path) (readLines path) := by
  apply Agree.readLines
  have hread := h.read_rel path
  generalize before.read path = first at hread ⊢
  generalize after.read path = second at hread ⊢
  cases hread with
  | ok htext => exact .ok (lines_of_addsReturns htext)
  | error cause => exact .error cause

theorem agree_discover (h : before.AddsReturns after) (command : Text) (script : Path) :
    Agree before after Eq (Project.discover command script) (Project.discover command script) := by
  unfold Project.discover
  refine (agree_readLines h script).bind ?_
  intro lines others hscript
  rw [Project.invocation?_of_sameToReturn command hscript]
  refine (Agree.require _ _).bind ?_
  rintro invocation _ rfl
  refine (Agree.tell _).bind ?_
  rintro _ _ -
  refine (Agree.require _ _).bind ?_
  rintro moduleName _ rfl
  refine (Agree.require _ _).bind ?_
  rintro reference _ rfl
  refine (Agree.tell _).bind ?_
  rintro _ _ -
  refine (agree_readLines h _).bind ?_
  intro lines others hproject
  rw [Project.source?_of_sameToReturn moduleName hproject]
  refine (Agree.require _ _).bind ?_
  rintro source _ rfl
  refine (Agree.tell _).bind ?_
  rintro _ _ -
  exact .pure rfl

theorem agree_build (h : before.AddsReturns after) (script : Path) (settings : Settings) :
    Agree before after Eq (build script settings) (build script settings) := by
  unfold build
  refine (agree_discover h settings.elaborateCommand script).bind ?_
  rintro sources _ rfl
  refine (agree_readLines h sources.sourceFile).bind ?_
  intro lines others hsource
  refine (Agree.check (Verilog.locate_of_sameToReturn hsource) _).bind ?_
  rintro block other ⟨hevents, hsignals⟩
  rw [hevents, hsignals]
  refine (Agree.tellAll _).bind ?_
  rintro _ _ -
  refine (Agree.tell _).bind ?_
  rintro _ _ -
  exact .pure rfl

/-- **Line ends make no difference.** If returns are added directly before any newlines in files of
the tree, a build gives the same sources, signals and layout or fails for the same reason, and it
says the same. -/
theorem build_ignores_returns (h : before.AddsReturns after) (script : Path)
    (settings : Settings) :
    ((build script settings).outcome after).value =
        ((build script settings).outcome before).value ∧
      ((build script settings).outcome after).log =
        ((build script settings).outcome before).log := by
  have hagree := agree_build h script settings
  exact ⟨hagree.value_rel.eq.symm, hagree.log_eq.symm⟩

/-- Returns are added to two lines of a source, one of which ends in a return already. -/
theorem returns_added_to_source :
    let before := exampleTree "m" "module m (\ninput a,\nx\r\nalways @*\n"
    let after := before.put [("m.v" : Text)]
      (.file (.text "module m (\r\ninput a,\nx\r\r\nalways @*\n"))
    before.AddsReturns after ∧
      ((build ⟨"run.sh"⟩ .defaults).outcome after).value =
        ((build ⟨"run.sh"⟩ .defaults).outcome before).value ∧
      ((build ⟨"run.sh"⟩ .defaults).outcome after).log =
        ((build ⟨"run.sh"⟩ .defaults).outcome before).log := by
  intro before after
  have htext : Text.AddsReturns "module m (\ninput a,\nx\r\nalways @*\n"
      "module m (\r\ninput a,\nx\r\r\nalways @*\n" :=
    .append "module m (" (.add (.append "input a,\nx\r" (.add (.refl "always @*\n"))))
  have hsource : before.entry? [("m.v" : Text)] =
      some (.file (.text "module m (\ninput a,\nx\r\nalways @*\n")) := by decide +kernel
  have hadds : before.AddsReturns after := .put (List.cons_ne_nil _ _) hsource htext
  exact ⟨hadds, build_ignores_returns hadds ⟨"run.sh"⟩ .defaults⟩

end Generation

end WaveLayout

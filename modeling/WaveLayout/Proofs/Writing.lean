import WaveLayout.Generation
import WaveLayout.Proofs.Jobs

/-!
# Writing a layout twice

Writing a layout comes to at most three requests: the first copy is written, then the second one,
and if that is refused the first one is removed again (`outcome_write`).

**Success.** Both paths hold the text of the layout, even if they lead to the same file.

**Roll-back.** The removal is never refused, since what was just written is a file. It takes away
what stands at the path of the first copy, and the tree does not remember whether a file stood
there before. So a failed attempt leaves the tree as it was exactly if there was none: a layout
from an earlier run is lost.
-/

namespace WaveLayout.Generation

open FileTree

variable {tree : FileTree} {layout : Layout} {moduleName : Text} {format : Format}
  {directory : Path}

/-! ## The requests -/

theorem outcome_write (layout : Layout) (moduleName : Text) (format : Format) (directory : Path)
    (tree : FileTree) :
    (write layout moduleName format directory).outcome tree =
      let first := outputPath directory moduleName format
      let second := outputPath directory dumpStem format
      match tree.write first layout.text with
      | .error cause => ⟨.error (.unwritable first cause), [], tree⟩
      | .ok written =>
        match written.write second layout.text with
        | .ok after => ⟨.ok ⟨first, second⟩, [.wrote first, .wrote second], after⟩
        | .error cause =>
          match written.remove first with
          | .ok removed => ⟨.error (.unwritable second cause), [.wrote first], removed⟩
          | .error obstacle =>
            ⟨.error (.unwritable second cause), [.wrote first, .notRemoved first obstacle],
              written⟩ := by
  simp only [write, Attempt.outcome_bind, Attempt.outcome_lift, Attempt.outcome_check,
    Job.writeText, Job.run]
  cases tree.write (outputPath directory moduleName format) layout.text with
  | error cause => rfl
  | ok written =>
    simp only [Except.mapError, Job.tell, Job.run]
    cases written.write (outputPath directory dumpStem format) layout.text with
    | ok after => rfl
    | error cause =>
      simp only [Attempt.outcome_bind, Attempt.outcome_lift, Job.removeFile, Job.run]
      cases written.remove (outputPath directory moduleName format) <;> rfl

theorem confined_write (layout : Layout) (moduleName : Text) (format : Format)
    (directory : Path) :
    (write layout moduleName format directory).Confined fun path =>
      path = outputPath directory moduleName format ∨
        path = outputPath directory dumpStem format := by
  unfold write
  refine .bind (.lift ⟨.inl rfl, fun _ => trivial⟩) fun answer => ?_
  refine .bind (.check _ _) fun _ => .bind (.tell _) fun _ => ?_
  refine .bind (.lift ⟨.inr rfl, fun _ => trivial⟩) fun answer => ?_
  cases answer with
  | ok _ => exact .bind (.tell _) fun _ => .pure _
  | error cause =>
    refine .bind (.lift ⟨.inl rfl, fun _ => trivial⟩) fun answer => ?_
    cases answer with
    | ok _ => exact .throw _
    | error obstacle => exact .bind (.tell _) fun _ => .throw _

/-! ## Success -/

theorem outcome_write_of_writes {between after : FileTree}
    (h₁ : tree.write (outputPath directory moduleName format) layout.text = .ok between)
    (h₂ : between.write (outputPath directory dumpStem format) layout.text = .ok after) :
    let first := outputPath directory moduleName format
    let second := outputPath directory dumpStem format
    (write layout moduleName format directory).outcome tree =
      ⟨.ok ⟨first, second⟩, [.wrote first, .wrote second], after⟩ := by
  rw [outcome_write]
  simp only [h₁, h₂]

theorem exists_writes_of_write_ok {written : Written}
    (h : ((write layout moduleName format directory).outcome tree).value = .ok written) :
    written = ⟨outputPath directory moduleName format, outputPath directory dumpStem format⟩ ∧
      ∃ between, tree.write (outputPath directory moduleName format) layout.text = .ok between ∧
        between.write (outputPath directory dumpStem format) layout.text =
          .ok ((write layout moduleName format directory).outcome tree).tree := by
  rw [outcome_write] at h ⊢
  dsimp only at h ⊢
  cases h₁ : tree.write (outputPath directory moduleName format) layout.text with
  | error cause => simp [h₁] at h
  | ok between =>
    cases h₂ : between.write (outputPath directory dumpStem format) layout.text with
    | error cause =>
      simp only [h₁, h₂] at h
      split at h <;> cases h
    | ok after =>
      simp only [h₁, h₂, Except.ok.injEq] at h
      exact ⟨h.symm, between, rfl, by simp only [h₂]⟩

theorem holds_of_write_ok {written : Written}
    (h : ((write layout moduleName format directory).outcome tree).value = .ok written) :
    let after := ((write layout moduleName format directory).outcome tree).tree
    written = ⟨outputPath directory moduleName format, outputPath directory dumpStem format⟩ ∧
      after.Holds written.layout layout.text ∧ after.Holds written.dump layout.text := by
  obtain ⟨rfl, between, h₁, h₂⟩ := exists_writes_of_write_ok h
  exact ⟨rfl, (holds_of_write h₁).of_write h₂, holds_of_write h₂⟩

/-! ## Roll-back -/

/-- A failed attempt leaves the tree as it was, or the tree less the target of the first copy. The
first case is that of a first copy that cannot be written. -/
theorem tree_write_of_error {failure : Failure}
    (h : ((write layout moduleName format directory).outcome tree).value = .error failure) :
    let first := outputPath directory moduleName format
    let after := ((write layout moduleName format directory).outcome tree).tree
    (∃ cause, tree.write first layout.text = .error cause ∧ after = tree) ∨
      ∃ location cause, tree.target first = .ok location ∧
        tree.entry? location ≠ some .directory ∧ after = tree.erase location ∧
        failure = .unwritable (outputPath directory dumpStem format) cause := by
  rw [outcome_write] at h ⊢
  dsimp only at h ⊢
  cases h₁ : tree.write (outputPath directory moduleName format) layout.text with
  | error cause => exact .inl ⟨cause, rfl, by simp⟩
  | ok between =>
    obtain ⟨location, ht, hd, hr⟩ := remove_of_write h₁
    cases h₂ : between.write (outputPath directory dumpStem format) layout.text with
    | ok after => simp [h₁, h₂] at h
    | error cause =>
      simp only [h₁, h₂, hr, Except.error.injEq] at h ⊢
      exact .inr ⟨location, cause, ht, hd, rfl, h.symm⟩

theorem write_of_file {path : Path} {location : Location} {content : Content} (text : Text)
    (ht : tree.target path = .ok location) (he : tree.entry? location = some (.file content)) :
    ∃ after, tree.write path text = .ok after :=
  ⟨_, write_eq_ok_iff.2 ⟨location, ht, by simp [he], rfl⟩⟩

theorem tree_of_write_error_of_file {failure : Failure} {location : Location} {content : Content}
    (h : ((write layout moduleName format directory).outcome tree).value = .error failure)
    (ht : tree.target (outputPath directory moduleName format) = .ok location)
    (he : tree.entry? location = some (.file content)) :
    ((write layout moduleName format directory).outcome tree).tree = tree.erase location ∧
      ∃ cause, failure = .unwritable (outputPath directory dumpStem format) cause := by
  rcases tree_write_of_error h with ⟨cause, hw, -⟩ | ⟨place, cause, hp, -, hafter, hf⟩
  · obtain ⟨written, hw'⟩ := write_of_file layout.text ht he
    rw [hw] at hw'
    cases hw'
  · obtain rfl := Except.ok.inj (ht.symm.trans hp)
    exact ⟨hafter, cause, hf⟩

theorem tree_of_write_error_of_no_file {failure : Failure}
    (h : ((write layout moduleName format directory).outcome tree).value = .error failure)
    (hnone : ∀ location content,
      tree.target (outputPath directory moduleName format) = .ok location →
        tree.entry? location ≠ some (.file content)) :
    ((write layout moduleName format directory).outcome tree).tree = tree := by
  rcases tree_write_of_error h with ⟨cause, -, hafter⟩ | ⟨location, cause, ht, hd, hafter, -⟩
  · exact hafter
  · -- The first copy was written, so no directory stood at its target.
    have hn : tree.entry? location = none := by
      cases he : tree.entry? location with
      | none => rfl
      | some entry =>
        cases entry with
        | file content => exact absurd he (hnone location content ht)
        | directory => exact absurd he hd
    exact hafter.trans (erase_eq_self (ne_nil_of_target ht) hn)

/-- **What a failed attempt loses.** It leaves the tree as it was exactly if no file stood at the
path of the first copy. A file that stood there is gone, for want of a second copy. -/
theorem tree_eq_iff_of_write_error {failure : Failure}
    (h : ((write layout moduleName format directory).outcome tree).value = .error failure) :
    let first := outputPath directory moduleName format
    let after := ((write layout moduleName format directory).outcome tree).tree
    (after = tree ↔ ∀ location content, tree.target first = .ok location →
      tree.entry? location ≠ some (.file content)) ∧
    ∀ location content, tree.target first = .ok location →
      tree.entry? location = some (.file content) →
      after = tree.erase location ∧ after.entry? location = none ∧
        ∃ cause, failure = .unwritable (outputPath directory dumpStem format) cause := by
  intro first after
  have hgone : ∀ location, tree.target first = .ok location → after = tree.erase location →
      after.entry? location = none := by
    intro location ht hafter
    rw [hafter, entry?_erase (ne_nil_of_target ht), if_pos rfl]
  refine ⟨⟨?_, tree_of_write_error_of_no_file h⟩, ?_⟩
  · intro heq location content ht he
    have hnone := hgone location ht (tree_of_write_error_of_file h ht he).1
    rw [heq, he] at hnone
    cases hnone
  · intro location content ht he
    obtain ⟨hafter, hcause⟩ := tree_of_write_error_of_file h ht he
    exact ⟨hafter, hgone location ht hafter, hcause⟩

/-- A working directory at the root, with a directory in the way of the second copy. -/
def blockedTree (others : List (Location × Entry)) : FileTree :=
  ⟨([("dump.gtkw" : Text)], .directory) :: others, []⟩

/-- A first copy where nothing stood is taken back. -/
theorem write_over_nothing_undone :
    let attempt := (write ⟨[]⟩ "m" .gtkw ⟨"."⟩).outcome (blockedTree [])
    attempt.value = .error (.unwritable ⟨"./dump.gtkw"⟩ .isADirectory) ∧
      attempt.tree = blockedTree [] := by
  have h : ((write ⟨[]⟩ "m" .gtkw ⟨"."⟩).outcome (blockedTree [])).value =
      .error (.unwritable ⟨"./dump.gtkw"⟩ .isADirectory) := rfl
  refine ⟨h, (tree_eq_iff_of_write_error h).1.2 fun location content ht he => ?_⟩
  obtain rfl : [("m.gtkw" : Text)] = location := Except.ok.inj ht
  cases he

/-- **An older layout is lost.** Where a file stood at the path of the first copy, a failed attempt
does not leave the tree as it was. -/
theorem older_layout_lost :
    ¬ ∀ (layout : Layout) (moduleName : Text) (format : Format) (directory : Path)
      (tree : FileTree) (failure : Failure),
      ((write layout moduleName format directory).outcome tree).value = .error failure →
        ((write layout moduleName format directory).outcome tree).tree = tree := by
  intro hall
  have h := hall ⟨[]⟩ "m" .gtkw ⟨"."⟩
    (blockedTree [([("m.gtkw" : Text)], .file (.text "older"))]) _ rfl
  exact absurd (congrArg (fun tree => tree.entries.length) h) (by decide)

end WaveLayout.Generation

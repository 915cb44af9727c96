import WaveLayout.Job
import WaveLayout.Proofs.Trees

/-!
# What jobs do to a file tree

**Confinement.** A job is confined to a class of paths if every write and every removal that it can
come to, whatever the answers to its requests, is at a path of the class. Then a run of it changes
the tree at the targets of those paths only (`Job.Confined.changesOnlyAt`), and a job that is
confined to no path at all leaves the tree as it was (`Job.Confined.tree_eq`). The value of such a
job depends only on what the files that it reads hold (`Job.Confined.value_eq_of_reads`).

The targets are those in the tree before the run. They do not move while the job runs, because no
request changes the set of directories.

**Outcomes.** The outcome of an attempt in steps comes from the outcomes of its steps
(`Attempt.value_bind_eq_ok_iff`). If the first step only reads, the attempt leaves the tree as it
was on the failures on which the second step does (`Attempt.KeepsTreeOn.bind`).
-/

namespace WaveLayout

/-! ## Changes of a tree -/

namespace FileTree

/-- The trees have the same directories, and they differ at targets of the paths only. -/
structure ChangesOnlyAt (allowed : Path → Prop) (before after : FileTree) : Prop where
  sameDirectories : SameDirectories before after
  entry?_eq : ∀ location, (∀ path, allowed path → before.target path ≠ .ok location) →
    after.entry? location = before.entry? location

variable {allowed : Path → Prop} {before between after tree : FileTree} {path : Path}

theorem ChangesOnlyAt.refl (allowed : Path → Prop) (tree : FileTree) :
    ChangesOnlyAt allowed tree tree := ⟨.refl tree, fun _ _ => rfl⟩

theorem ChangesOnlyAt.trans (h : ChangesOnlyAt allowed before between)
    (h' : ChangesOnlyAt allowed between after) : ChangesOnlyAt allowed before after := by
  refine ⟨h.sameDirectories.trans h'.sameDirectories, ?_⟩
  intro location hl
  have hbetween : ∀ path, allowed path → between.target path ≠ .ok location := fun path hp ht =>
    hl path hp (h.sameDirectories.target_iff.1 ht)
  rw [h'.entry?_eq location hbetween, h.entry?_eq location hl]

theorem changesOnlyAt_of_write {text : Text} (h : tree.write path text = .ok after) :
    ChangesOnlyAt (· = path) tree after := by
  refine ⟨.of_write h, ?_⟩
  intro other ho
  obtain ⟨location, ht, -, rfl⟩ := write_eq_ok_iff.1 h
  rw [entry?_put (ne_nil_of_target ht), if_neg]
  rintro rfl
  exact ho path rfl ht

theorem changesOnlyAt_of_remove (h : tree.remove path = .ok after) :
    ChangesOnlyAt (· = path) tree after := by
  obtain ⟨location, content, ht, he, rfl⟩ := remove_eq_ok_iff.1 h
  have hne := ne_nil_of_target ht
  refine ⟨.erase hne (by simp [he]), ?_⟩
  intro other ho
  rw [entry?_erase hne, if_neg]
  rintro rfl
  exact ho path rfl ht

theorem ChangesOnlyAt.mono {allowed' : Path → Prop} (h : ChangesOnlyAt allowed before after)
    (hsub : ∀ path, allowed path → allowed' path) : ChangesOnlyAt allowed' before after :=
  ⟨h.sameDirectories, fun location hl => h.entry?_eq location fun path hp => hl path (hsub path hp)⟩

end FileTree

/-! ## Confined jobs -/

namespace Job

open FileTree

variable {α β : Type} {allowed : Path → Prop}

/-- Every write and every removal that the job can come to is at a path of the class. -/
def Confined (allowed : Path → Prop) : Job α → Prop
  | .done _ => True
  | .read _ next => ∀ answer, (next answer).Confined allowed
  | .write path _ next => allowed path ∧ ∀ answer, (next answer).Confined allowed
  | .remove path next => allowed path ∧ ∀ answer, (next answer).Confined allowed
  | .say _ next => next.Confined allowed

namespace Confined

theorem bind {job : Job α} {next : α → Job β} (h : job.Confined allowed)
    (hnext : ∀ value, (next value).Confined allowed) : (job.bind next).Confined allowed := by
  induction job with
  | done value => exact hnext value
  | read path rest ih => exact fun answer => ih answer (h answer)
  | write path text rest ih => exact ⟨h.1, fun answer => ih answer (h.2 answer)⟩
  | remove path rest ih => exact ⟨h.1, fun answer => ih answer (h.2 answer)⟩
  | say event rest ih => exact ih h

theorem tellAll (events : List Event) : (Job.tellAll events).Confined allowed := by
  induction events with
  | nil => trivial
  | cons event rest ih => exact ih

/-- **Frame.** A run of a confined job changes the tree at targets of the class only. -/
theorem changesOnlyAt {job : Job α} (h : job.Confined allowed) (tree : FileTree) :
    ChangesOnlyAt allowed tree (job.run tree).tree := by
  induction job generalizing tree with
  | done value => exact .refl allowed tree
  | read path rest ih => exact ih _ (h _) tree
  | write path text rest ih =>
    rw [run]
    cases hw : tree.write path text with
    | error cause => exact ih _ (h.2 _) tree
    | ok written =>
      refine .trans ?_ (ih _ (h.2 _) written)
      exact (changesOnlyAt_of_write hw).mono fun _ hp => hp ▸ h.1
  | remove path rest ih =>
    rw [run]
    cases hr : tree.remove path with
    | error cause => exact ih _ (h.2 _) tree
    | ok removed =>
      refine .trans ?_ (ih _ (h.2 _) removed)
      exact (changesOnlyAt_of_remove hr).mono fun _ hp => hp ▸ h.1
  | say event rest ih => exact ih h tree

/-- **Reading changes nothing.** A job that never comes to a write or a removal leaves the tree as
it was. -/
theorem tree_eq {job : Job α} (h : job.Confined fun _ => False) (tree : FileTree) :
    (job.run tree).tree = tree := by
  induction job generalizing tree with
  | done value => rfl
  | read path rest ih => exact ih _ (h _) tree
  | write path text rest ih => exact h.1.elim
  | remove path rest ih => exact h.1.elim
  | say event rest ih => exact ih h tree

end Confined

end Job

/-! ## Touched paths -/

namespace Job

variable {α β : Type} {allowed : Path → Prop}

/-- The paths of the writes and removals that the job comes to on a file tree, in order. -/
def touched : Job α → FileTree → List Path
  | .done _, _ => []
  | .read path next, tree => (next (tree.read path)).touched tree
  | .write path text next, tree =>
    path :: match tree.write path text with
      | .ok written => (next (.ok ())).touched written
      | .error cause => (next (.error cause)).touched tree
  | .remove path next, tree =>
    path :: match tree.remove path with
      | .ok removed => (next (.ok ())).touched removed
      | .error cause => (next (.error cause)).touched tree
  | .say _ next, tree => next.touched tree

theorem touched_bind (job : Job α) (next : α → Job β) (tree : FileTree) :
    (job.bind next).touched tree =
      job.touched tree ++ (next (job.run tree).value).touched (job.run tree).tree := by
  induction job generalizing tree with
  | done value => rfl
  | read path rest ih => exact ih _ tree
  | write path text rest ih =>
    simp only [bind, touched, run]
    cases tree.write path text with
    | ok written => simp [ih]
    | error cause => simp [ih]
  | remove path rest ih =>
    simp only [bind, touched, run]
    cases tree.remove path with
    | ok removed => simp [ih]
    | error cause => simp [ih]
  | say event rest ih => exact ih tree

/-- A confined job touches paths of the class only. -/
theorem Confined.allowed_of_mem_touched {job : Job α} (h : job.Confined allowed)
    {tree : FileTree} {path : Path} (hp : path ∈ job.touched tree) : allowed path := by
  induction job generalizing tree with
  | done value => cases hp
  | read place rest ih => exact ih _ (h _) hp
  | write place text rest ih =>
    rw [touched, List.mem_cons] at hp
    rcases hp with rfl | hp
    · exact h.1
    · cases hw : tree.write place text with
      | ok written =>
        rw [hw] at hp
        exact ih _ (h.2 _) hp
      | error cause =>
        rw [hw] at hp
        exact ih _ (h.2 _) hp
  | remove place rest ih =>
    rw [touched, List.mem_cons] at hp
    rcases hp with rfl | hp
    · exact h.1
    · cases hr : tree.remove place with
      | ok removed =>
        rw [hr] at hp
        exact ih _ (h.2 _) hp
      | error cause =>
        rw [hr] at hp
        exact ih _ (h.2 _) hp
  | say event rest ih => exact ih h hp

end Job

/-! ## Read paths -/

namespace Job

variable {α β : Type}

/-- The paths of the files that the job reads on a file tree, in order. -/
def reads : Job α → FileTree → List Path
  | .done _, _ => []
  | .read path next, tree => path :: (next (tree.read path)).reads tree
  | .write path text next, tree =>
    match tree.write path text with
    | .ok written => (next (.ok ())).reads written
    | .error cause => (next (.error cause)).reads tree
  | .remove path next, tree =>
    match tree.remove path with
    | .ok removed => (next (.ok ())).reads removed
    | .error cause => (next (.error cause)).reads tree
  | .say _ next, tree => next.reads tree

theorem reads_bind (job : Job α) (next : α → Job β) (tree : FileTree) :
    (job.bind next).reads tree =
      job.reads tree ++ (next (job.run tree).value).reads (job.run tree).tree := by
  induction job generalizing tree with
  | done value => rfl
  | read path rest ih => simp only [bind, reads, run, ih, List.cons_append]
  | write path text rest ih =>
    simp only [bind, reads, run]
    cases tree.write path text with
    | ok written => exact ih _ written
    | error cause => exact ih _ tree
  | remove path rest ih =>
    simp only [bind, reads, run]
    cases tree.remove path with
    | ok removed => exact ih _ removed
    | error cause => exact ih _ tree
  | say event rest ih => exact ih tree

theorem reads_writeText (path : Path) (text : Text) (tree : FileTree) :
    (writeText path text).reads tree = [] := by
  simp only [writeText, reads]
  split <;> rfl

theorem reads_removeFile (path : Path) (tree : FileTree) : (removeFile path).reads tree = [] := by
  simp only [removeFile, reads]
  split <;> rfl

theorem reads_tellAll (events : List Event) (tree : FileTree) :
    (tellAll events).reads tree = [] := by
  induction events with
  | nil => rfl
  | cons event rest ih => exact ih

/-- **Only what is read matters.** A job that never comes to a write or a removal has the same value
on two trees that answer each of its reads in the same way. -/
theorem Confined.value_eq_of_reads {job : Job α} (h : job.Confined fun _ => False)
    {before after : FileTree}
    (hread : ∀ path ∈ job.reads before, after.read path = before.read path) :
    (job.run after).value = (job.run before).value := by
  induction job with
  | done value => rfl
  | read path rest ih =>
    obtain ⟨hfirst, hrest⟩ := List.forall_mem_cons.1 hread
    rw [run, run, hfirst]
    exact ih _ (h _) hrest
  | write path text rest ih => exact h.1.elim
  | remove path rest ih => exact h.1.elim
  | say event rest ih => exact ih h hread

end Job

/-! ## Attempts -/

instance decidableEqExcept {ε α : Type} [DecidableEq ε] [DecidableEq α] :
    DecidableEq (Except ε α)
  | .ok a, .ok b => decidable_of_iff (a = b) (by simp)
  | .error a, .error b => decidable_of_iff (a = b) (by simp)
  | .ok _, .error _ => .isFalse nofun
  | .error _, .ok _ => .isFalse nofun

namespace Attempt

variable {α β : Type} {allowed : Path → Prop} {tree : FileTree}

/-- The outcome of an attempt on a file tree. -/
def outcome (attempt : Attempt α) (tree : FileTree) : Outcome (Except Failure α) :=
  Job.run (ExceptT.run attempt) tree

/-- The paths that the attempt touches on a file tree. -/
def touched (attempt : Attempt α) (tree : FileTree) : List Path :=
  Job.touched (ExceptT.run attempt) tree

/-- The paths of the files that the attempt reads on a file tree. -/
def reads (attempt : Attempt α) (tree : FileTree) : List Path :=
  Job.reads (ExceptT.run attempt) tree

/-- The attempt writes and removes at paths of the class only. -/
def Confined (allowed : Path → Prop) (attempt : Attempt α) : Prop :=
  Job.Confined allowed (ExceptT.run attempt)

/-! ### Outcomes of steps -/

@[simp] theorem outcome_pure (value : α) (tree : FileTree) :
    outcome (pure value) tree = ⟨.ok value, [], tree⟩ := rfl

@[simp] theorem outcome_lift (job : Job α) (tree : FileTree) :
    outcome (liftM job) tree =
      ⟨.ok (job.run tree).value, (job.run tree).log, (job.run tree).tree⟩ := by
  show Job.run (job.bind fun value => .done (Except.ok value : Except Failure α)) tree = _
  rw [Job.run_bind]
  simp [Job.run]

@[simp] theorem outcome_require (value? : Option α) (failure : Failure) (tree : FileTree) :
    outcome (require value? failure) tree =
      ⟨match value? with | some value => .ok value | none => .error failure, [], tree⟩ := by
  cases value? <;> rfl

@[simp] theorem outcome_check {ε : Type} (result : Except ε α) (failure : ε → Failure)
    (tree : FileTree) :
    outcome (check result failure) tree = ⟨result.mapError failure, [], tree⟩ := by
  cases result <;> rfl

/-! ### Steps one after the other -/

theorem outcome_bind (attempt : Attempt α) (next : α → Attempt β) (tree : FileTree) :
    outcome (attempt >>= next) tree =
      match (attempt.outcome tree).value with
      | .ok value =>
        let rest := (next value).outcome (attempt.outcome tree).tree
        ⟨rest.value, (attempt.outcome tree).log ++ rest.log, rest.tree⟩
      | .error failure =>
        ⟨.error failure, (attempt.outcome tree).log, (attempt.outcome tree).tree⟩ := by
  show Job.run (Job.bind (ExceptT.run attempt) (ExceptT.bindCont next)) tree = _
  rw [Job.run_bind]
  unfold outcome
  cases hv : (Job.run (ExceptT.run attempt) tree).value with
  | ok value => simp only [hv]; rfl
  | error failure => simp [hv, ExceptT.bindCont, pure, Job.run]

theorem value_bind_eq_ok_iff {attempt : Attempt α} {next : α → Attempt β} {value : β} :
    (outcome (attempt >>= next) tree).value = .ok value ↔
      ∃ first, (attempt.outcome tree).value = .ok first ∧
        ((next first).outcome (attempt.outcome tree).tree).value = .ok value := by
  rw [outcome_bind]
  cases (attempt.outcome tree).value <;> simp

theorem tree_bind_of_ok {attempt : Attempt α} {next : α → Attempt β} {value : α}
    (h : (attempt.outcome tree).value = .ok value) :
    (outcome (attempt >>= next) tree).tree =
      ((next value).outcome (attempt.outcome tree).tree).tree := by
  rw [outcome_bind, h]

theorem touched_bind (attempt : Attempt α) (next : α → Attempt β) (tree : FileTree) :
    touched (attempt >>= next) tree =
      attempt.touched tree ++
        match (attempt.outcome tree).value with
        | .ok value => (next value).touched (attempt.outcome tree).tree
        | .error _ => [] := by
  show Job.touched (Job.bind (ExceptT.run attempt) (ExceptT.bindCont next)) tree = _
  rw [Job.touched_bind]
  unfold outcome touched
  cases hv : (Job.run (ExceptT.run attempt) tree).value with
  | ok value => rfl
  | error failure => simp [ExceptT.bindCont, pure, Job.touched]

/-! ### Confinement of steps -/

theorem Confined.pure (value : α) : Confined allowed (pure value : Attempt α) := trivial

theorem Confined.throw (failure : Failure) : Confined allowed (throw failure : Attempt α) := trivial

theorem Confined.bind {attempt : Attempt α} {next : α → Attempt β} (h : attempt.Confined allowed)
    (hnext : ∀ value, (next value).Confined allowed) : Confined allowed (attempt >>= next) := by
  refine Job.Confined.bind h ?_
  intro result
  cases result with
  | ok value => exact hnext value
  | error failure => trivial

theorem Confined.lift {job : Job α} (h : job.Confined allowed) :
    Confined allowed (liftM job : Attempt α) := Job.Confined.bind h fun _ => trivial

theorem Confined.require (value? : Option α) (failure : Failure) :
    Confined allowed (Attempt.require value? failure) := by
  cases value? <;> trivial

theorem Confined.check {ε : Type} (result : Except ε α) (failure : ε → Failure) :
    Confined allowed (Attempt.check result failure) := by
  cases result <;> trivial

theorem Confined.tell (event : Event) : Confined allowed (liftM (Job.tell event) : Attempt Unit) :=
  .lift trivial

/-! ### Effects -/

/-- What an attempt does on a file tree: the tree that it leaves and the paths that it touches. -/
def effect (attempt : Attempt α) (tree : FileTree) : FileTree × List Path :=
  ((attempt.outcome tree).tree, attempt.touched tree)

theorem effect_of_reading {attempt : Attempt α} (h : attempt.Confined fun _ => False)
    (tree : FileTree) : attempt.effect tree = (tree, []) := by
  have htouched : attempt.touched tree = [] :=
    List.eq_nil_iff_forall_not_mem.2 fun path hp => Job.Confined.allowed_of_mem_touched h hp
  rw [effect, htouched]
  exact Prod.ext (Job.Confined.tree_eq h tree) rfl

/-- After a step that only reads, the effect is that of the step that follows. -/
theorem effect_bind {attempt : Attempt α} (h : attempt.Confined fun _ => False)
    (next : α → Attempt β) (tree : FileTree) :
    effect (attempt >>= next) tree =
      match (attempt.outcome tree).value with
      | .ok value => (next value).effect tree
      | .error _ => (tree, []) := by
  obtain ⟨htree, htouched⟩ := Prod.ext_iff.1 (effect_of_reading h tree)
  dsimp only [effect] at htree htouched
  rw [effect, outcome_bind, touched_bind]
  cases (attempt.outcome tree).value with
  | ok value => simp [effect, htree, htouched]
  | error failure => simp [htree, htouched]

/-! ### Reads of steps -/

@[simp] theorem reads_pure (value : α) (tree : FileTree) : reads (pure value) tree = [] := rfl

@[simp] theorem reads_lift (job : Job α) (tree : FileTree) :
    reads (liftM job) tree = job.reads tree := by
  show Job.reads (job.bind fun value => .done (Except.ok value : Except Failure α)) tree = _
  rw [Job.reads_bind]
  simp [Job.reads]

@[simp] theorem reads_require (value? : Option α) (failure : Failure) (tree : FileTree) :
    reads (require value? failure) tree = [] := by
  cases value? <;> rfl

@[simp] theorem reads_check {ε : Type} (result : Except ε α) (failure : ε → Failure)
    (tree : FileTree) : reads (check result failure) tree = [] := by
  cases result <;> rfl

theorem reads_bind (attempt : Attempt α) (next : α → Attempt β) (tree : FileTree) :
    reads (attempt >>= next) tree =
      attempt.reads tree ++
        match (attempt.outcome tree).value with
        | .ok value => (next value).reads (attempt.outcome tree).tree
        | .error _ => [] := by
  show Job.reads (Job.bind (ExceptT.run attempt) (ExceptT.bindCont next)) tree = _
  rw [Job.reads_bind]
  unfold outcome reads
  cases hv : (Job.run (ExceptT.run attempt) tree).value with
  | ok value => rfl
  | error failure => simp [ExceptT.bindCont, pure, Job.reads]

/-- After a step that only reads and succeeds, the reads are its own and those of the next step. -/
theorem reads_bind_of_ok {attempt : Attempt α} {next : α → Attempt β} {value : α}
    (h : attempt.Confined fun _ => False) (hv : (attempt.outcome tree).value = .ok value) :
    reads (attempt >>= next) tree = attempt.reads tree ++ (next value).reads tree := by
  have htree : (attempt.outcome tree).tree = tree := Job.Confined.tree_eq h tree
  rw [reads_bind, hv, htree]

/-! ### Failures that leave no trace -/

/-- A failure of the class leaves the tree as it was. -/
def KeepsTreeOn (failures : Failure → Prop) (attempt : Attempt α) : Prop :=
  ∀ tree failure, (attempt.outcome tree).value = .error failure → failures failure →
    (attempt.outcome tree).tree = tree

/-- A step that only reads may come before. -/
theorem KeepsTreeOn.bind {failures : Failure → Prop} {attempt : Attempt α}
    {next : α → Attempt β} (h : attempt.Confined fun _ => False)
    (hnext : ∀ value, KeepsTreeOn failures (next value)) :
    KeepsTreeOn failures (attempt >>= next) := by
  intro tree failure hv hf
  have htree : (attempt.outcome tree).tree = tree := Job.Confined.tree_eq h tree
  rw [outcome_bind] at hv ⊢
  cases hfirst : (attempt.outcome tree).value with
  | error cause => simp only [htree]
  | ok value =>
    simp only [hfirst, htree] at hv ⊢
    exact hnext value tree failure hv hf

end Attempt

end WaveLayout

import WaveLayout.Event
import WaveLayout.Text.Lines

/-!
# Jobs

A **job** is a computation that reads and writes files and says things on the way, given as data: it
is done, or it is a request together with what follows for each answer. The same job runs on a file
tree, where its outcome is a function of the tree, and on the disk, where the outer layer answers
the requests.

An **attempt** is a job that may fail.
-/

namespace WaveLayout

/-- A computation on files, as its next request and what follows each answer. -/
inductive Job (α : Type) where
  | done (value : α)
  | read (path : Path) (next : Except FileError Text → Job α)
  | write (path : Path) (text : Text) (next : Except FileError Unit → Job α)
  | remove (path : Path) (next : Except FileError Unit → Job α)
  | say (event : Event) (next : Job α)

/-- What a job leaves behind: its value, what it said, and the tree. -/
structure Outcome (α : Type) where
  value : α
  log : List Event
  tree : FileTree

namespace Job

variable {α β : Type}

/-! ## Composition -/

/-- The job followed by another one that depends on its value. -/
def bind : Job α → (α → Job β) → Job β
  | .done value, next => next value
  | .read path rest, next => .read path fun answer => (rest answer).bind next
  | .write path text rest, next => .write path text fun answer => (rest answer).bind next
  | .remove path rest, next => .remove path fun answer => (rest answer).bind next
  | .say event rest, next => .say event (rest.bind next)

instance : Monad Job where
  pure := .done
  bind := Job.bind

/-- Reads the file at a path. -/
def readText (path : Path) : Job (Except FileError Text) := .read path .done

/-- Writes a text to a path. -/
def writeText (path : Path) (text : Text) : Job (Except FileError Unit) := .write path text .done

/-- Removes the file at a path. -/
def removeFile (path : Path) : Job (Except FileError Unit) := .remove path .done

/-- Says one thing. -/
def tell (event : Event) : Job Unit := .say event (.done ())

/-- Says things in order. -/
def tellAll : List Event → Job Unit
  | [] => .done ()
  | event :: rest => .say event (tellAll rest)

/-! ## Runs on a file tree -/

/-- The outcome of the job on a file tree. A refused request leaves the tree as it was. -/
def run : Job α → FileTree → Outcome α
  | .done value, tree => ⟨value, [], tree⟩
  | .read path next, tree => (next (tree.read path)).run tree
  | .write path text next, tree =>
    match tree.write path text with
    | .ok written => (next (.ok ())).run written
    | .error cause => (next (.error cause)).run tree
  | .remove path next, tree =>
    match tree.remove path with
    | .ok removed => (next (.ok ())).run removed
    | .error cause => (next (.error cause)).run tree
  | .say event next, tree =>
    let outcome := next.run tree
    { outcome with log := event :: outcome.log }

/-- The second job runs on the tree that the first one leaves, and the logs follow each other. -/
theorem run_bind (job : Job α) (next : α → Job β) (tree : FileTree) :
    (job.bind next).run tree =
      let first := job.run tree
      let second := (next first.value).run first.tree
      ⟨second.value, first.log ++ second.log, second.tree⟩ := by
  induction job generalizing tree with
  | done value => rfl
  | read path rest ih => exact ih _ tree
  | write path text rest ih =>
    simp only [bind, run]
    cases tree.write path text with
    | ok written => exact ih _ written
    | error cause => exact ih _ tree
  | remove path rest ih =>
    simp only [bind, run]
    cases tree.remove path with
    | ok removed => exact ih _ removed
    | error cause => exact ih _ tree
  | say event rest ih => simp only [bind, run, ih, List.cons_append]

end Job

/-! ## Attempts -/

/-- A job that may fail. -/
abbrev Attempt := ExceptT Failure Job

namespace Attempt

variable {α : Type}

/-- The value, or the failure where there is none. -/
def require (value? : Option α) (failure : Failure) : Attempt α :=
  match value? with
  | some value => pure value
  | none => throw failure

/-- The value of a result, or the failure that its error makes. -/
def check {ε : Type} (result : Except ε α) (failure : ε → Failure) : Attempt α :=
  match result with
  | .ok value => pure value
  | .error cause => throw (failure cause)

/-- The lines of the file at a path. -/
def readLines (path : Path) : Attempt (List Text) := do
  let text ← check (← Job.readText path) (.unreadable path)
  pure (Text.lines text)

end Attempt

end WaveLayout

import WaveLayout.Proofs.Discovery

/-!
# Attempts that agree

Two attempts **agree** on two file trees if both leave their tree as it was, say the same things,
and either fail for the same reason or end with values that a relation holds between. Agreement is
kept by the steps of attempts: a pair of attempts that agree may be followed by attempts that agree
for all related values (`Agree.bind`). So attempts agree on two trees if the files that they read
there do, up to what is made of them.
-/

namespace WaveLayout

variable {ε α β γ δ : Type}

/-- The same error, or two values between which the relation holds. -/
inductive SameResult (rel : α → β → Prop) : Except ε α → Except ε β → Prop where
  | ok {a : α} {b : β} : rel a b → SameResult rel (.ok a) (.ok b)
  | error (cause : ε) : SameResult rel (.error cause) (.error cause)

theorem SameResult.eq {x y : Except ε α} (h : SameResult Eq x y) : x = y := by
  cases h with
  | ok h => rw [h]
  | error cause => rfl

namespace Attempt

/-- The attempts do the same on their trees, up to a relation between their values. -/
structure Agree (before after : FileTree) (rel : α → β → Prop) (x : Attempt α) (y : Attempt β) :
    Prop where
  tree_left : (x.outcome before).tree = before
  tree_right : (y.outcome after).tree = after
  log_eq : (x.outcome before).log = (y.outcome after).log
  value_rel : SameResult rel (x.outcome before).value (y.outcome after).value

namespace Agree

variable {before after : FileTree} {rel : α → β → Prop} {rel' : γ → δ → Prop}

theorem pure {a : α} {b : β} (h : rel a b) :
    Agree before after rel (pure a : Attempt α) (pure b : Attempt β) := ⟨rfl, rfl, rfl, .ok h⟩

/-- Attempts that agree, followed by attempts that agree for all related values. -/
theorem bind {x : Attempt α} {y : Attempt β} {f : α → Attempt γ} {g : β → Attempt δ}
    (h : Agree before after rel x y)
    (hnext : ∀ a b, rel a b → Agree before after rel' (f a) (g b)) :
    Agree before after rel' (x >>= f) (y >>= g) := by
  obtain ⟨hleft, hright, hlog, hvalue⟩ := h
  cases hx : (x.outcome before).value with
  | error cause =>
    rw [hx] at hvalue
    generalize hy : (y.outcome after).value = value at hvalue
    cases hvalue
    constructor
    · simpa [outcome_bind, hx] using hleft
    · simpa [outcome_bind, hy] using hright
    · simpa [outcome_bind, hx, hy] using hlog
    · simpa [outcome_bind, hx, hy] using SameResult.error cause
  | ok a =>
    rw [hx] at hvalue
    generalize hy : (y.outcome after).value = value at hvalue
    cases hvalue with
    | ok hab =>
      obtain ⟨hleft', hright', hlog', hvalue'⟩ := hnext _ _ hab
      constructor
      · simpa [outcome_bind, hx, hleft] using hleft'
      · simpa [outcome_bind, hy, hright] using hright'
      · simp [outcome_bind, hx, hy, hleft, hright, hlog, hlog']
      · simpa [outcome_bind, hx, hy, hleft, hright] using hvalue'

theorem tellAll (events : List Event) :
    Agree before after Eq (liftM (Job.tellAll events) : Attempt Unit)
      (liftM (Job.tellAll events)) := by
  have hrun : ∀ tree, (Job.tellAll events).run tree = ⟨(), events, tree⟩ := by
    intro tree
    induction events with
    | nil => rfl
    | cons event rest ih => simp [Job.tellAll, Job.run, ih]
  constructor
  · simp [hrun]
  · simp [hrun]
  · simp [hrun]
  · simpa [hrun] using SameResult.ok rfl

theorem tell (event : Event) :
    Agree before after Eq (liftM (Job.tell event) : Attempt Unit) (liftM (Job.tell event)) :=
  tellAll [event]

theorem require (value? : Option α) (failure : Failure) :
    Agree before after Eq (Attempt.require value? failure) (Attempt.require value? failure) := by
  cases value? with
  | none => exact ⟨rfl, rfl, rfl, .error failure⟩
  | some value => exact .pure rfl

theorem check {x : Except ε α} {y : Except ε β} (h : SameResult rel x y) (failure : ε → Failure) :
    Agree before after rel (Attempt.check x failure) (Attempt.check y failure) := by
  cases h with
  | ok h => exact .pure h
  | error cause => exact ⟨rfl, rfl, rfl, .error (failure cause)⟩

/-- The lines of a file agree as its texts in the two trees do. -/
theorem readLines {path : Path} {rel : List Text → List Text → Prop}
    (h : SameResult (fun s t => rel (Text.lines s) (Text.lines t)) (before.read path)
      (after.read path)) :
    Agree before after rel (Attempt.readLines path) (Attempt.readLines path) := by
  have hread : Agree before after
      (SameResult fun s t => rel (Text.lines s) (Text.lines t))
      (liftM (Job.readText path)) (liftM (Job.readText path)) := by
    refine ⟨rfl, rfl, rfl, ?_⟩
    simpa [Job.readText, Job.run] using SameResult.ok h
  refine hread.bind ?_
  intro x y hxy
  refine (check hxy _).bind ?_
  intro s t hst
  exact .pure hst

end Agree

end Attempt

end WaveLayout

import WaveLayout.Signal

/-!
# Grouped signals

The signals of a module, sorted into the three display groups and otherwise kept in the order in
which they are supplied. A group only grows: nothing is sorted, merged or dropped, so a signal
declared `output` and again as `reg` appears in two groups.
-/

namespace WaveLayout

/-- Signal names by display group, each group in the order of supply. -/
structure Signals where
  inputs : List SignalName
  outputs : List SignalName
  internals : List SignalName
  deriving DecidableEq, Repr

namespace Signals

/-- No signals. -/
def empty : Signals := ⟨[], [], []⟩

/-- The names in a group. -/
def group (signals : Signals) : Group → List SignalName
  | .inputs => signals.inputs
  | .outputs => signals.outputs
  | .internals => signals.internals

/-- All groups with their names, in display order. -/
def groups (signals : Signals) : List (Group × List SignalName) :=
  Group.all.map fun group => (group, signals.group group)

/-- The number of names over all groups. -/
def size (signals : Signals) : Nat :=
  signals.inputs.length + signals.outputs.length + signals.internals.length

/-- No group holds a name. -/
def isEmpty (signals : Signals) : Bool := signals.size == 0

/-- The signals with one more declaration, at the end of its group. -/
def push (signals : Signals) (declaration : Declaration) : Signals :=
  match declaration.direction.group with
  | .inputs => { signals with inputs := signals.inputs ++ [declaration.name] }
  | .outputs => { signals with outputs := signals.outputs ++ [declaration.name] }
  | .internals => { signals with internals := signals.internals ++ [declaration.name] }

/-- The signals with the declarations pushed one by one. -/
def extend (signals : Signals) (declarations : List Declaration) : Signals :=
  declarations.foldl push signals

/-- The signals that the declarations make. -/
def ofDeclarations (declarations : List Declaration) : Signals := empty.extend declarations

theorem ext_group {signals others : Signals}
    (h : ∀ group, others.group group = signals.group group) : others = signals := by
  cases signals
  cases others
  rw [mk.injEq]
  exact ⟨h .inputs, h .outputs, h .internals⟩

/-- A pushed name is the last one of its group, and the other groups stay. -/
theorem group_push (signals : Signals) (declaration : Declaration) (group : Group) :
    (signals.push declaration).group group =
      signals.group group ++
        if declaration.direction.group = group then [declaration.name] else [] := by
  unfold push
  cases declaration.direction.group <;> cases group <;> simp [Signals.group]

theorem group_extend (signals : Signals) (declarations : List Declaration) (group : Group) :
    (signals.extend declarations).group group =
      signals.group group ++
        (declarations.filter (·.direction.group = group)).map (·.name) := by
  induction declarations generalizing signals with
  | nil => simp [extend]
  | cons declaration rest ih =>
    have h := ih (signals.push declaration)
    rw [group_push] at h
    by_cases hg : declaration.direction.group = group <;> simp_all [extend]

/-- A pushed name counts once, whatever its group. -/
theorem size_push (signals : Signals) (declaration : Declaration) :
    (signals.push declaration).size = signals.size + 1 := by
  unfold push size
  cases declaration.direction.group <;> simp <;> omega

theorem size_extend (signals : Signals) (declarations : List Declaration) :
    (signals.extend declarations).size = signals.size + declarations.length := by
  induction declarations generalizing signals with
  | nil => rfl
  | cons declaration rest ih =>
    have h := ih (signals.push declaration)
    rw [size_push] at h
    rw [List.length_cons, extend, List.foldl_cons, ← extend, h]
    omega

theorem group_ofDeclarations (declarations : List Declaration) (group : Group) :
    (ofDeclarations declarations).group group =
      (declarations.filter (·.direction.group = group)).map (·.name) := by
  rw [ofDeclarations, group_extend]
  cases group <;> rfl

theorem size_ofDeclarations (declarations : List Declaration) :
    (ofDeclarations declarations).size = declarations.length := by
  rw [ofDeclarations, size_extend]
  exact Nat.zero_add _

end Signals

end WaveLayout

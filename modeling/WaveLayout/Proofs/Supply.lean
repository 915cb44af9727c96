import Mathlib
import WaveLayout.Signals
import WaveLayout.Verilog.Classification

/-!
# Supplying signals

Signals are fed with declarations in any sequence of **operations**: one declaration, several at
once, or those that the classifier finds in some lines. Two operations start over, one with nothing
and one with declarations of its own.

**Theorem.** After any sequence of operations the signals are those of the declarations supplied
since the last start: a group lists the names of its declarations in the order of supply, none lost,
merged or moved. In which portions the declarations come plays no part.

The invariant is one equation, `run_eq_ofDeclarations`: the signals are `ofDeclarations` of what has
been supplied. One operation appends its declarations on both sides, after it has dropped the old
ones on both sides if it starts over (`step_ofDeclarations`, `supplied_concat`).
-/

namespace WaveLayout.Signals

/-! ## Operations -/

/-- A way to go on with signals. -/
inductive Operation where
  /-- Start over with no signals. -/
  | new
  | push (declaration : Declaration)
  | extend (declarations : List Declaration)
  /-- Extend with the declarations that the lines make. -/
  | extendLines (lines : List Text)
  /-- Start over with the declarations. -/
  | collect (declarations : List Declaration)

/-- The declarations that the operation supplies. -/
def Operation.supply : Operation → List Declaration
  | .new => []
  | .push declaration => [declaration]
  | .extend declarations | .collect declarations => declarations
  | .extendLines lines => lines.filterMap Verilog.classify

/-- The operation drops the signals so far. -/
def Operation.startsOver : Operation → Bool
  | .new | .collect _ => true
  | .push _ | .extend _ | .extendLines _ => false

/-- The signals after an operation. -/
def step (signals : Signals) : Operation → Signals
  | .new => empty
  | .push declaration => signals.push declaration
  | .extend declarations => signals.extend declarations
  | .extendLines lines => signals.extend (lines.filterMap Verilog.classify)
  | .collect declarations => ofDeclarations declarations

/-- The signals after the operations, from none at all. -/
def run (operations : List Operation) : Signals := operations.foldl step empty

/-! ## What has been supplied -/

/-- The operations from the last start on, or all if none of them starts over. -/
def sinceStart : List Operation → List Operation
  | [] => []
  | operation :: rest =>
    if rest.any Operation.startsOver then sinceStart rest else operation :: rest

/-- The declarations supplied since the last start, in order. -/
def supplied (operations : List Operation) : List Declaration :=
  (sinceStart operations).flatMap Operation.supply

theorem sinceStart_eq_self {operations : List Operation}
    (h : operations.any Operation.startsOver = false) : sinceStart operations = operations := by
  cases operations with
  | nil => rfl
  | cons operation rest =>
    rw [List.any_cons, Bool.or_eq_false_iff] at h
    rw [sinceStart, if_neg (by simp [h.2])]

theorem sinceStart_append (before after : List Operation) :
    sinceStart (before ++ after) =
      if after.any Operation.startsOver then sinceStart after else sinceStart before ++ after := by
  by_cases ha : after.any Operation.startsOver
  · rw [if_pos ha]
    induction before with
    | nil => rfl
    | cons operation rest ih =>
      rw [List.cons_append, sinceStart, if_pos (by simp [List.any_append, ha]), ih]
  · rw [if_neg ha]
    induction before with
    | nil => exact sinceStart_eq_self (by simpa using ha)
    | cons operation rest ih =>
      rw [List.cons_append, sinceStart, sinceStart, List.any_append, Bool.eq_false_iff.2 ha,
        Bool.or_false, ih]
      by_cases hr : rest.any Operation.startsOver
      · rw [if_pos hr, if_pos hr]
      · rw [if_neg hr, if_neg hr, List.cons_append]

theorem supplied_append {before after : List Operation}
    (h : after.any Operation.startsOver = false) :
    supplied (before ++ after) = supplied before ++ after.flatMap Operation.supply := by
  rw [supplied, sinceStart_append, if_neg (by simp [h]), List.flatMap_append, supplied]

/-- A new start drops what has been supplied before. -/
theorem supplied_append_cons {operation : Operation} (hs : operation.startsOver = true)
    (before after : List Operation) (h : after.any Operation.startsOver = false) :
    supplied (before ++ operation :: after) = (operation :: after).flatMap Operation.supply := by
  rw [supplied, sinceStart_append, if_pos (by simp [hs]), sinceStart, if_neg (by simp [h])]

theorem supplied_concat (operations : List Operation) (operation : Operation) :
    supplied (operations ++ [operation]) =
      (if operation.startsOver then [] else supplied operations) ++ operation.supply := by
  by_cases hs : operation.startsOver
  · rw [if_pos hs, supplied_append_cons hs operations [] rfl, List.flatMap_singleton]
    rfl
  · rw [if_neg hs, supplied_append (by simpa using hs), List.flatMap_singleton]

/-! ## The invariant -/

theorem extend_append (signals : Signals) (declarations more : List Declaration) :
    signals.extend (declarations ++ more) = (signals.extend declarations).extend more :=
  List.foldl_append

/-- **One operation.** Old declarations stay unless the operation starts over, and new ones
follow. -/
theorem step_ofDeclarations (declarations : List Declaration) (operation : Operation) :
    (ofDeclarations declarations).step operation =
      ofDeclarations
        ((if operation.startsOver then [] else declarations) ++ operation.supply) := by
  cases operation with
  | new => rfl
  | push declaration => exact (extend_append empty declarations [declaration]).symm
  | extend more => exact (extend_append empty declarations more).symm
  | extendLines lines => exact (extend_append empty declarations _).symm
  | collect more => rfl

/-- **All operations.** The signals are those of what has been supplied. -/
theorem run_eq_ofDeclarations (operations : List Operation) :
    run operations = ofDeclarations (supplied operations) := by
  induction operations using List.reverseRecOn with
  | nil => rfl
  | append_singleton operations operation ih =>
    rw [run, List.foldl_append, ← run, ih, supplied_concat]
    exact step_ofDeclarations (supplied operations) operation

theorem run_eq_of_supplied_eq {operations others : List Operation}
    (h : supplied operations = supplied others) : run operations = run others := by
  rw [run_eq_ofDeclarations, run_eq_ofDeclarations, h]

/-! ## What the signals show -/

/-- The names that are declared with one of the directions, in order. -/
def namesOf (directions : List Direction) (declarations : List Declaration) : List SignalName :=
  (declarations.filter (·.direction ∈ directions)).map (·.name)

theorem group_eq_namesOf (declarations : List Declaration) (group : Group)
    (directions : List Direction)
    (h : ∀ direction : Direction, direction.group = group ↔ direction ∈ directions) :
    (ofDeclarations declarations).group group = namesOf directions declarations := by
  rw [group_ofDeclarations, namesOf]
  simp only [h]

theorem ofDeclarations_eq (declarations : List Declaration) :
    ofDeclarations declarations =
      ⟨namesOf [.input, .inout] declarations, namesOf [.output] declarations,
        namesOf [.internal] declarations⟩ := by
  apply ext_group
  intro group
  cases group with
  | inputs =>
    exact group_eq_namesOf _ .inputs _ fun direction => by cases direction <;> decide
  | outputs =>
    exact group_eq_namesOf _ .outputs _ fun direction => by cases direction <;> decide
  | internals =>
    exact group_eq_namesOf _ .internals _ fun direction => by cases direction <;> decide

/-! ## Portions -/

theorem any_startsOver_map_extend (portions : List (List Declaration)) :
    (portions.map Operation.extend).any Operation.startsOver = false := by
  simp [Operation.startsOver]

theorem any_startsOver_map_push (declarations : List Declaration) :
    (declarations.map Operation.push).any Operation.startsOver = false := by
  simp [Operation.startsOver]

theorem flatMap_supply_map_extend (portions : List (List Declaration)) :
    (portions.map Operation.extend).flatMap Operation.supply = portions.flatten := by
  rw [List.flatMap_map, List.flatMap_def]
  exact congrArg List.flatten (List.map_id portions)

theorem flatMap_supply_map_push (declarations : List Declaration) :
    (declarations.map Operation.push).flatMap Operation.supply = declarations := by
  rw [List.flatMap_map]
  exact List.flatMap_singleton' declarations

/-- **Signals are what has been supplied.** After any operations each group holds, in order, the
names of the declarations supplied since the last start that have a direction of the group. The
groups are listed in display order, empty ones too, the size is the number of these declarations,
and no group holds a name exactly if there are none. Operations that supply the same declarations
make the same signals: pushed one by one, in portions, or all at once after a new start. -/
theorem run_keeps_supply (operations : List Operation) :
    let declarations := supplied operations
    let inputs := namesOf [.input, .inout] declarations
    let outputs := namesOf [.output] declarations
    let internals := namesOf [.internal] declarations
    run operations = ⟨inputs, outputs, internals⟩ ∧
    (run operations).groups =
      [(.inputs, inputs), (.outputs, outputs), (.internals, internals)] ∧
    (run operations).size = declarations.length ∧
    ((run operations).isEmpty = true ↔ declarations = []) ∧
    (∀ others, supplied others = declarations → run others = run operations) ∧
    ∀ portions : List (List Declaration),
      run (operations ++ portions.map .extend) =
        run (operations ++ portions.flatten.map .push) ∧
      run (operations ++ .new :: portions.map .extend) =
        run (operations ++ [.collect portions.flatten]) := by
  intro declarations inputs outputs internals
  have hrun : run operations = ofDeclarations declarations := run_eq_ofDeclarations operations
  have hgroups : run operations = ⟨inputs, outputs, internals⟩ := by
    rw [hrun]
    exact ofDeclarations_eq declarations
  refine ⟨hgroups, ?_, ?_, ?_, fun others => run_eq_of_supplied_eq, ?_⟩
  · rw [hgroups]
    rfl
  · rw [hrun, size_ofDeclarations]
  · rw [hrun, isEmpty, size_ofDeclarations, beq_iff_eq, List.length_eq_zero_iff]
  · intro portions
    have hextend := any_startsOver_map_extend portions
    constructor
    · apply run_eq_of_supplied_eq
      rw [supplied_append hextend, supplied_append (any_startsOver_map_push _),
        flatMap_supply_map_extend, flatMap_supply_map_push]
    · apply run_eq_of_supplied_eq
      rw [supplied_append_cons rfl operations _ hextend, supplied_append_cons rfl operations [] rfl,
        List.flatMap_cons, flatMap_supply_map_extend, List.flatMap_singleton]
      rfl

/-- A name that is supplied twice is listed twice, and what came before the last start is gone. -/
theorem collected_after_push :
    let operations : List Operation :=
      [.push ⟨.output, ⟨"old", none⟩⟩, .collect [⟨.inout, ⟨"a", none⟩⟩, ⟨.output, ⟨"q", none⟩⟩],
        .extendLines ["input [7:0] a;", "assign a = q;", "reg q"], .push ⟨.output, ⟨"q", none⟩⟩]
    let others : List Operation :=
      [.push ⟨.inout, ⟨"a", none⟩⟩,
        .extend [⟨.output, ⟨"q", none⟩⟩, ⟨.input, ⟨"a", some ⟨"7", "0"⟩⟩⟩],
        .extendLines ["reg q;", "output q"]]
    (run operations).groups =
      [(.inputs, [⟨"a", none⟩, ⟨"a", some ⟨"7", "0"⟩⟩]), (.outputs, [⟨"q", none⟩, ⟨"q", none⟩]),
        (.internals, [⟨"q", none⟩])] ∧
      supplied others = supplied operations ∧ run others = run operations := by
  intro operations others
  obtain ⟨-, hgroups, -, -, hsame, -⟩ := run_keeps_supply operations
  have hsupplied : supplied others = supplied operations := by decide
  refine ⟨?_, hsupplied, hsame others hsupplied⟩
  rw [hgroups]
  decide

end WaveLayout.Signals

import WaveLayout.Text.Basic

/-!
# TOML values

The value tree of a TOML document. Tables list their entries with distinct keys; their order says
nothing. Floats and moments (dates, times and both together) keep their spelling, since no setting
takes one.
-/

namespace WaveLayout.Toml

/-- A TOML value. -/
inductive Value where
  | text (text : Text)
  | integer (number : Int)
  | float (spelling : Text)
  | boolean (value : Bool)
  | moment (spelling : Text)
  | array (items : List Value)
  | table (entries : List (Text × Value))

/-- The entries of a table. -/
abbrev Table := List (Text × Value)

/-! ## Equality -/

mutual

def Value.decEq : (a b : Value) → Decidable (a = b)
  | .text s, b => match b with
    | .text t => decidable_of_iff (s = t) ⟨congrArg Value.text, Value.text.inj⟩
    | .integer _ | .float _ | .boolean _ | .moment _ | .array _ | .table _ => isFalse nofun
  | .integer m, b => match b with
    | .integer n => decidable_of_iff (m = n) ⟨congrArg Value.integer, Value.integer.inj⟩
    | .text _ | .float _ | .boolean _ | .moment _ | .array _ | .table _ => isFalse nofun
  | .float s, b => match b with
    | .float t => decidable_of_iff (s = t) ⟨congrArg Value.float, Value.float.inj⟩
    | .text _ | .integer _ | .boolean _ | .moment _ | .array _ | .table _ => isFalse nofun
  | .boolean p, b => match b with
    | .boolean q => decidable_of_iff (p = q) ⟨congrArg Value.boolean, Value.boolean.inj⟩
    | .text _ | .integer _ | .float _ | .moment _ | .array _ | .table _ => isFalse nofun
  | .moment s, b => match b with
    | .moment t => decidable_of_iff (s = t) ⟨congrArg Value.moment, Value.moment.inj⟩
    | .text _ | .integer _ | .float _ | .boolean _ | .array _ | .table _ => isFalse nofun
  | .array xs, b => match b with
    | .array ys => match decEqItems xs ys with
      | isTrue h => isTrue (congrArg Value.array h)
      | isFalse h => isFalse fun heq => h (Value.array.inj heq)
    | .text _ | .integer _ | .float _ | .boolean _ | .moment _ | .table _ => isFalse nofun
  | .table xs, b => match b with
    | .table ys => match decEqEntries xs ys with
      | isTrue h => isTrue (congrArg Value.table h)
      | isFalse h => isFalse fun heq => h (Value.table.inj heq)
    | .text _ | .integer _ | .float _ | .boolean _ | .moment _ | .array _ => isFalse nofun

def decEqItems : (xs ys : List Value) → Decidable (xs = ys)
  | [], [] => isTrue rfl
  | [], _ :: _ => isFalse nofun
  | _ :: _, [] => isFalse nofun
  | x :: xs, y :: ys => match x.decEq y, decEqItems xs ys with
    | isTrue h, isTrue h' => isTrue (by rw [h, h'])
    | isFalse h, _ => isFalse fun heq => h (List.cons.inj heq).1
    | _, isFalse h => isFalse fun heq => h (List.cons.inj heq).2

def decEqEntries : (xs ys : List (Text × Value)) → Decidable (xs = ys)
  | [], [] => isTrue rfl
  | [], _ :: _ => isFalse nofun
  | _ :: _, [] => isFalse nofun
  | (k, x) :: xs, (l, y) :: ys =>
    match decEq k l, x.decEq y, decEqEntries xs ys with
    | isTrue h, isTrue h', isTrue h'' => isTrue (by rw [h, h', h''])
    | isFalse h, _, _ => isFalse fun heq => h (Prod.mk.inj (List.cons.inj heq).1).1
    | _, isFalse h, _ => isFalse fun heq => h (Prod.mk.inj (List.cons.inj heq).1).2
    | _, _, isFalse h => isFalse fun heq => h (List.cons.inj heq).2

end

instance : DecidableEq Value := Value.decEq

end WaveLayout.Toml

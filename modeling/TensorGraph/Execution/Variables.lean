import TensorGraph.Graph.Node
import TensorGraph.Memory.Tensor
import TensorGraph.Text.Quoted

/-!
# Variables

Stateful operators keep tensors in variables, which outlive the calls that write them.  `Variables`
maps names to tensors; each name has at most one value.
-/

namespace TensorGraph

/-- The values of variables by name, in the order in which they were first set. -/
structure Variables where
  entries : List (VariableId × Tensor)
deriving DecidableEq, Repr, Inhabited

namespace Variables

/-- No variable has a value. -/
def empty : Variables := ⟨[]⟩

/-- The value entered for a name. -/
def getIn (id : VariableId) : List (VariableId × Tensor) → Option Tensor
  | [] => none
  | (k, t) :: rest => if id = k then some t else getIn id rest

/-- The value of a variable. -/
def get? (v : Variables) (id : VariableId) : Option Tensor := getIn id v.entries

/-- Whether a variable has a value. -/
def contains (v : Variables) (id : VariableId) : Bool := (v.get? id).isSome

/-- Enters a value over an old one or behind the last entry. -/
def setIn (id : VariableId) (value : Tensor) :
    List (VariableId × Tensor) → List (VariableId × Tensor)
  | [] => [(id, value)]
  | (k, t) :: rest => if id = k then (k, value) :: rest else (k, t) :: setIn id value rest

/-- Gives a variable a value. -/
def set (v : Variables) (id : VariableId) (value : Tensor) : Variables :=
  ⟨setIn id value v.entries⟩

/-- The values of all variables. -/
def values (v : Variables) : List Tensor := v.entries.map (·.2)

/-- Number of variables that have a value. -/
def count (v : Variables) : Nat := v.entries.length

/-- The variables as a record, with the names of those that have a value in ascending order. -/
def describe (v : Variables) : String :=
  Text.record "VariableContext"
    [("variables", Text.quotedList (v.entries.map (·.1.name)).mergeSort)]

@[simp] theorem get?_set_same (v : Variables) (id : VariableId) (t : Tensor) :
    (v.set id t).get? id = some t := by
  obtain ⟨entries⟩ := v
  simp only [set, get?]
  induction entries with
  | nil => simp [setIn, getIn]
  | cons e rest ih =>
    by_cases h : id = e.1
    · simp [setIn, getIn, h]
    · simp [setIn, getIn, h, ih]

theorem get?_set_ne (v : Variables) {id other : VariableId} (h : other ≠ id) (t : Tensor) :
    (v.set id t).get? other = v.get? other := by
  obtain ⟨entries⟩ := v
  simp only [set, get?]
  induction entries with
  | nil => simp [setIn, getIn, h]
  | cons e rest ih =>
    by_cases hk : id = e.1
    · subst hk
      simp [setIn, getIn, h]
    · simp [setIn, getIn, hk, ih]

end Variables

end TensorGraph

/-!
# Lists and records in messages

Messages and descriptions show a list as `[a, b]` and a record as its name followed by its fields
in braces.
-/

namespace TensorGraph.Text

/-- The items between square brackets, separated by a comma and a blank. -/
def bracketed (items : List String) : String := "[" ++ ", ".intercalate items ++ "]"

/-- A list of numbers between square brackets. -/
def numbers (ns : List Nat) : String := bracketed (ns.map toString)

/-- A list of signed numbers between square brackets. -/
def integers (is : List Int) : String := bracketed (is.map toString)

/-- A record: its name, and its fields with their values between braces. -/
def record (name : String) (fields : List (String × String)) : String :=
  name ++ " \x7b " ++ ", ".intercalate (fields.map fun (field, value) => field ++ ": " ++ value)
    ++ " \x7d"

/-- An optional value: its text after `Some` in parentheses, or `None`. -/
def optional : Option String → String
  | some text => "Some(" ++ text ++ ")"
  | none => "None"

end TensorGraph.Text

/-
# Values on one line

Diagnostics show a value on one line: a record as its name and its fields in braces, an optional
value in a wrapper, a list in brackets.
-/
namespace FairCycle.Text

/-- A record: its name, then `field: value` for each field. -/
def record (name : String) (fields : List (String × String)) : String :=
  name ++ " \x7b " ++ ", ".intercalate (fields.map fun (field, value) => field ++ ": " ++ value)
    ++ " \x7d"

/-- An optional value. -/
def optional : Option String → String
  | some value => "Some(" ++ value ++ ")"
  | none => "None"

/-- A list of values. -/
def sequence (values : List String) : String :=
  "[" ++ ", ".intercalate values ++ "]"

/-- A truth value. -/
def truth (b : Bool) : String := if b then "true" else "false"

end FairCycle.Text

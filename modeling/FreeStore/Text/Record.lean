/-!
Descriptions of records, options and truth values in one line.
-/
namespace FreeStore.Text

/-- A record in one line: its name, and its fields in braces. A record with more fields than shown ends
in two dots. -/
def describeRecord (name : String) (fields : List (String × String)) (complete : Bool) : String :=
  let shown := fields.map fun (field, value) => field ++ ": " ++ value
  let shown := if complete then shown else shown ++ [".."]
  name ++ " \x7b " ++ String.intercalate ", " shown ++ " \x7d"

def describeOption : Option String → String
  | none => "None"
  | some s => "Some(" ++ s ++ ")"

def describeBool (b : Bool) : String := if b then "true" else "false"

end FreeStore.Text

import Daybook.Numeric.Binary

/-!
# TOML values
-/

namespace Daybook.Toml

/-- A value of a TOML document. Dates and times are kept apart from other values,
and what they say does not matter here. -/
inductive Value where
  | string (value : String)
  | integer (value : Int)
  | float (value : Numeric.Number)
  | boolean (value : Bool)
  | dateTime
  | array (items : List Value)
  | table (members : List (String × Value))

/-- The value under a key of a table. -/
def lookup? {α : Type} (key : String) (members : List (String × α)) : Option α :=
  (members.find? (·.1 == key)).map (·.2)

end Daybook.Toml

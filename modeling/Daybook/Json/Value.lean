import Daybook.Numeric.Score

/-!
# JSON values and their texts

A JSON value keeps the order of its members, and its numbers are numerals. There
are two texts of a value: one on a single line, and one with a line for each
member, indented by two spaces for each level.
-/

namespace Daybook

/-- A JSON value. -/
inductive Json where
  | null
  | bool (value : Bool)
  /-- A number, by its numeral. -/
  | number (numeral : String)
  | string (value : String)
  | array (items : List Json)
  | object (members : List (String × Json))
  deriving Inhabited

namespace Json

/-- The number for an integer. -/
def int (n : Int) : Json := number (Numeric.signedNumeral n)

/-- The number for a natural number. -/
def nat (n : Nat) : Json := number (Numeric.numeral n)

/-- The limits within which a JSON numeral has no exponent. -/
structure FloatForm where
  format : Numeric.BinaryFormat
  /-- The most digits before the point. -/
  maxWhole : Int
  /-- The most zeros that follow the point in a number below one. -/
  maxZeros : Int

/-- The form of numerals of 32 bits. -/
def FloatForm.single : FloatForm := ⟨.single, 13, 5⟩

/-- The form of numerals of 64 bits. -/
def FloatForm.double : FloatForm := ⟨.double, 16, 4⟩

/-- The shortest numeral of a positive or zero decimal: positional with a point
in it where that is short enough, and otherwise with one digit before the point
and an exponent. -/
def FloatForm.numeral (form : FloatForm) (decimal : Numeric.Decimal) : List Char :=
  let ds := Numeric.digits decimal.value
  let whole : Int := ds.length + decimal.exponent
  if decimal.value = 0 then "0.0".toList
  else if whole ≤ form.maxWhole ∧ -form.maxZeros ≤ whole then
    decimal.positional ++ if 0 ≤ decimal.exponent then ".0".toList else []
  else
    let places := if ds.length = 1 then [] else '.' :: ds.drop 1
    ds.take 1 ++ places ++ 'e' :: (Numeric.signedNumeral (whole - 1)).toList

/-- A floating-point number. What is no number is null. -/
def float (form : FloatForm) : Numeric.Number → Json
  | .nan | .infinite _ => null
  | .finite negative mantissa exponent =>
    let digits := form.numeral (form.format.shortest .even mantissa exponent)
    number ((if negative then "-" else "") ++ String.ofList digits)

/-- A score as a number of 32 bits. -/
def score (s : Score) : Json := float .single s.toNumber

/-- A score widened to 64 bits. -/
def wideScore (s : Score) : Json := float .double (Numeric.BinaryFormat.double.convert s.toNumber)

/-- A hexadecimal digit. -/
def hexDigit (n : Nat) : Char := (Nat.digitChar (n % 16))

/-- A character as it stands between quotation marks. -/
def escape (c : Char) : List Char :=
  match c with
  | '"' => ['\\', '"']
  | '\\' => ['\\', '\\']
  | '\n' => ['\\', 'n']
  | '\r' => ['\\', 'r']
  | '\t' => ['\\', 't']
  | '\x08' => ['\\', 'b']
  | '\x0c' => ['\\', 'f']
  | c =>
    if c.toNat < 32 then ['\\', 'u', '0', '0', hexDigit (c.toNat / 16), hexDigit c.toNat]
    else [c]

/-- A string between quotation marks. -/
def quoted (s : String) : String := "\"" ++ String.ofList (s.toList.flatMap escape) ++ "\""

mutual

/-- The text of a value on one line. -/
def compact : Json → String
  | null => "null"
  | bool b => if b then "true" else "false"
  | number numeral => numeral
  | string s => quoted s
  | array items => "[" ++ ",".intercalate (compactItems items) ++ "]"
  | object members => "\x7b" ++ ",".intercalate (compactMembers members) ++ "\x7d"

/-- The texts of the items of an array. -/
def compactItems : List Json → List String
  | [] => []
  | item :: items => item.compact :: compactItems items

/-- The texts of the members of an object. -/
def compactMembers : List (String × Json) → List String
  | [] => []
  | (key, value) :: members => (quoted key ++ ":" ++ value.compact) :: compactMembers members

end

/-- Lines within brackets, each on a line of its own, indented one level deeper
than the closing bracket. -/
def bracketed (opening closing : String) (depth : Nat) (lines : List String) : String :=
  if lines.isEmpty then opening ++ closing
  else
    let indent := fun n => String.ofList (List.replicate (2 * n) ' ')
    opening ++ "\n" ++ ",\n".intercalate (lines.map (indent (depth + 1) ++ ·)) ++ "\n" ++
      indent depth ++ closing

mutual

/-- The text of a value with a line for each member, at some depth. -/
def prettyAt (depth : Nat) : Json → String
  | array items => bracketed "[" "]" depth (prettyItems (depth + 1) items)
  | object members => bracketed "\x7b" "\x7d" depth (prettyMembers (depth + 1) members)
  | null => "null"
  | bool b => if b then "true" else "false"
  | number numeral => numeral
  | string s => quoted s

/-- The texts of the items of an array. -/
def prettyItems (depth : Nat) : List Json → List String
  | [] => []
  | item :: items => prettyAt depth item :: prettyItems depth items

/-- The texts of the members of an object. -/
def prettyMembers (depth : Nat) : List (String × Json) → List String
  | [] => []
  | (key, value) :: members =>
    (quoted key ++ ": " ++ prettyAt depth value) :: prettyMembers depth members

end

/-- The text of a value with a line for each member. -/
def pretty (value : Json) : String := prettyAt 0 value

/-- The member of an object with a given key. -/
def member? (key : String) : Json → Option Json
  | object members => (members.find? (·.1 == key)).map (·.2)
  | _ => none

end Json

end Daybook

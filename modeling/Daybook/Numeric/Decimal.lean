/-!
# Decimal numerals

Natural numbers as rows of the digits 0 to 9.
-/

namespace Daybook.Numeric

/-- The value of a decimal digit. -/
def digitValue (c : Char) : Nat := c.toNat - '0'.toNat

/-- The number that a row of digits stands for. -/
def ofDigits (cs : List Char) : Nat := cs.foldl (fun n c => 10 * n + digitValue c) 0

/-- The digits of a number, without leading zeros. -/
def digits (n : Nat) : List Char := Nat.toDigits 10 n

/-- The digits of a number with zeros in front, at least `width` of them. -/
def padded (width n : Nat) : List Char :=
  List.replicate (width - (digits n).length) '0' ++ digits n

/-- The numeral of a number. -/
def numeral (n : Nat) : String := String.ofList (digits n)

/-- The numeral of an integer, with a minus sign if it is negative. -/
def signedNumeral (n : Int) : String :=
  if n < 0 then "-" ++ numeral n.natAbs else numeral n.natAbs

/-- Reads exactly `count` digits from the front of a text. -/
def readDigits? (count : Nat) (cs : List Char) : Option (Nat × List Char) :=
  let front := cs.take count
  if front.length == count && front.all Char.isDigit then some (ofDigits front, cs.drop count)
  else none

end Daybook.Numeric

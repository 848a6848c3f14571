import Daybook.Numeric.Shortest
import Daybook.Settings.Basic

/-!
# The texts of scores

A score is written with the fewest digits that read back as the same score, in
positional notation. It is read from the decimal that is written, rounded once.
-/

namespace Daybook.Score

open Numeric

/-- The bit of a score that holds its sign. -/
def signBit : Nat := 0x80000000

/-- The bit of a mantissa that its score leaves out, unless the exponent is the least. -/
def hiddenBit : Nat := 0x800000

/-- The number that a score stands for. -/
def toNumber (s : Score) : Number :=
  let bits := s.toBits.toNat
  let negative := signBit ≤ bits
  let field : Nat := bits / hiddenBit % 256
  let fraction : Nat := bits % hiddenBit
  if field = 255 then (if fraction = 0 then .infinite negative else .nan)
  else if field = 0 then .finite negative fraction (-149)
  else .finite negative (hiddenBit + fraction) ((field : Int) - 150)

/-- The score nearest to a number. -/
def ofNumber (x : Number) : Score :=
  let bits : Nat :=
    match BinaryFormat.single.convert x with
    | .nan => 0x7FC00000
    | .infinite negative => (if negative then signBit else 0) + 0x7F800000
    | .finite negative mantissa exponent =>
      (if negative then signBit else 0) +
        if mantissa < hiddenBit then mantissa else ((exponent + 149).toNat) * hiddenBit + mantissa
  Float32.ofBits bits.toUInt32

/-- The text of a number, with the words for what is none. -/
def numberText (f : BinaryFormat) (x : Number) : String :=
  match x with
  | .nan => "NaN"
  | .infinite negative => if negative then "-inf" else "inf"
  | .finite negative mantissa exponent =>
    (if negative then "-" else "") ++
      String.ofList (f.shortest .up mantissa exponent).positional

/-- The shortest text of a score. -/
def text (s : Score) : String := numberText .single s.toNumber

/-- A score with two digits after the point. -/
def twoPlaces (s : Score) : String :=
  match s.toNumber with
  | .finite negative mantissa exponent =>
    let (n, d) := scaled 2 (100 * mantissa) 1 (-exponent)
    let hundredths := roundQuotient n d
    (if negative then "-" else "") ++ numeral (hundredths / 100) ++ "." ++
      String.ofList (padded 2 (hundredths % 100))
  | x => numberText .single x

/-- An optional sign, and whether it was a minus. -/
def readSign : List Char → Bool × List Char
  | '-' :: cs => (true, cs)
  | '+' :: cs => (false, cs)
  | cs => (false, cs)

/-- The exponent of a decimal: nothing, or the letter e with an integer. -/
def readExponent? : List Char → Option Int
  | [] => some 0
  | c :: cs =>
    let (negative, ds) := readSign cs
    if (c == 'e' || c == 'E') && !ds.isEmpty && ds.all Char.isDigit then
      some (if negative then -(ofDigits ds : Int) else ofDigits ds)
    else none

/-- Reads a decimal without sign: digits with at most one point among or beside
them, and an exponent. -/
def readDecimal? (cs : List Char) : Option Decimal := do
  let whole := cs.takeWhile Char.isDigit
  let rest := cs.dropWhile Char.isDigit
  let (places, rest) :=
    match rest with
    | '.' :: rest => (rest.takeWhile Char.isDigit, rest.dropWhile Char.isDigit)
    | rest => ([], rest)
  if whole.isEmpty && places.isEmpty then none
  else
    let exponent ← readExponent? rest
    return ⟨ofDigits (whole ++ places), exponent - places.length⟩

/-- Reads a score that fills the whole text: a decimal, or the words for infinity
and for no number, in any case. -/
def read? (cs : List Char) : Option Score :=
  let (negative, cs) := readSign cs
  let word := String.ofList (cs.map Char.toLower)
  if word == "inf" || word == "infinity" then some (ofNumber (.infinite negative))
  else if word == "nan" then some (ofNumber .nan)
  else
    (readDecimal? cs).map fun d =>
      ofNumber (BinaryFormat.single.ofDecimal negative d.value d.exponent)

end Daybook.Score

/-!
# Binary formats

A binary format holds the numbers m · 2^e whose m has a limited number of bits
and whose e lies in a limited range. Any other number is rounded to the nearest
one that the format holds, and from halfway to the one whose m is even.
-/

namespace Daybook.Numeric

/-- The limits of a binary format. -/
structure BinaryFormat where
  /-- How many bits a number may have. -/
  precision : Nat
  /-- The exponent of the last bit of the smallest numbers. -/
  least : Int
  /-- The exponent of the last bit of the largest numbers. -/
  greatest : Int
  deriving DecidableEq, Repr

/-- The format of 32 bits. -/
def BinaryFormat.single : BinaryFormat := ⟨24, -149, 104⟩

/-- The format of 64 bits. -/
def BinaryFormat.double : BinaryFormat := ⟨53, -1074, 971⟩

/-- What a word of a binary format stands for. -/
inductive Number where
  | nan
  | infinite (negative : Bool)
  /-- The number `mantissa` · 2^`exponent` with its sign. -/
  | finite (negative : Bool) (mantissa : Nat) (exponent : Int)
  deriving DecidableEq, Repr

/-- A quotient rounded to the nearest integer, from halfway to the even one. -/
def roundQuotient (numerator denominator : Nat) : Nat :=
  let quotient := numerator / denominator
  let rest := 2 * (numerator % denominator)
  if denominator < rest ∨ (rest = denominator ∧ quotient % 2 = 1) then quotient + 1 else quotient

/-- The quotient `numerator / denominator / base ^ exponent` as a numerator and a
denominator. -/
def scaled (base numerator denominator : Nat) (exponent : Int) : Nat × Nat :=
  if 0 ≤ exponent then (numerator, denominator * Nat.pow base exponent.toNat)
  else (numerator * Nat.pow base (-exponent).toNat, denominator)

namespace BinaryFormat

/-- The number of a format that is nearest to a positive quotient. -/
def round (f : BinaryFormat) (negative : Bool) (numerator denominator : Nat) : Number :=
  let guess : Int := (Nat.log2 numerator : Int) - Nat.log2 denominator - f.precision
  let (n, d) := scaled 2 numerator denominator guess
  let exponent := max f.least (if Nat.pow 2 f.precision ≤ n / d then guess + 1 else guess)
  let (n, d) := scaled 2 numerator denominator exponent
  let mantissa := roundQuotient n d
  let (mantissa, exponent) :=
    if mantissa = Nat.pow 2 f.precision then (Nat.pow 2 (f.precision - 1), exponent + 1)
    else (mantissa, exponent)
  if f.greatest < exponent then .infinite negative else .finite negative mantissa exponent

/-- The number of a format that is nearest to `digits` · 10^`exponent`. No format
reaches 10^400, nor is there one in which 10^(-400) is not nearest to zero. -/
def ofDecimal (f : BinaryFormat) (negative : Bool) (value : Nat) (exponent : Int) : Number :=
  let size : Int := (Nat.toDigits 10 value).length + exponent
  if value = 0 ∨ size < -400 then .finite negative 0 0
  else if 400 < size then .infinite negative
  else
    let (n, d) := scaled 10 value 1 (-exponent)
    f.round negative n d

/-- The number of a format that is nearest to a number of another one. -/
def convert (f : BinaryFormat) : Number → Number
  | .nan => .nan
  | .infinite negative => .infinite negative
  | .finite negative mantissa exponent =>
    if mantissa = 0 then .finite negative 0 0
    else
      let (n, d) := scaled 2 mantissa 1 (-exponent)
      f.round negative n d

end BinaryFormat

end Daybook.Numeric

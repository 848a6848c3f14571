import Daybook.Numeric.Binary
import Daybook.Numeric.Decimal

/-!
# Shortest decimal form

A number of a binary format is the nearest one to every real number of an
interval around it; the ends of the interval are in it when the mantissa is even.
The shortest decimal form is the decimal in that interval with the fewest digits,
and of those the one nearest to the number.
-/

namespace Daybook.Numeric

/-- Which of two equally near decimals is taken. -/
inductive Tie where
  /-- The larger one. -/
  | up
  /-- The one whose last digit is even. -/
  | even
  deriving DecidableEq, Repr

/-- The number `value` · 10^`exponent`. -/
structure Decimal where
  value : Nat
  exponent : Int
  deriving DecidableEq, Repr

namespace Decimal

/-- The same number without zeros at the end of its digits. -/
def reduce (d : Decimal) : Decimal :=
  let zeros := ((digits d.value).reverse.takeWhile (· == '0')).length
  if d.value = 0 then ⟨0, 0⟩ else ⟨d.value / Nat.pow 10 zeros, d.exponent + zeros⟩

/-- The digits with a point where the exponent puts it, and no exponent. -/
def positional (d : Decimal) : List Char :=
  let ds := digits d.value
  if 0 ≤ d.exponent then ds ++ List.replicate d.exponent.toNat '0'
  else
    let places := (-d.exponent).toNat
    if places < ds.length then ds.take (ds.length - places) ++ '.' :: ds.drop (ds.length - places)
    else '0' :: '.' :: List.replicate (places - ds.length) '0' ++ ds

end Decimal

namespace BinaryFormat

/-- The interval that rounds to `mantissa` · 2^`exponent`, in quarters of
2^`exponent`. Below a power of two the numbers lie closer together. -/
def interval (f : BinaryFormat) (mantissa : Nat) (exponent : Int) : Nat × Nat :=
  let closer := mantissa = Nat.pow 2 (f.precision - 1) ∧ f.least < exponent
  (4 * mantissa - (if closer then 1 else 2), 4 * mantissa + 2)

/-- Whether the number of a format nearest to a decimal is `mantissa` ·
2^`exponent`. -/
def holds (f : BinaryFormat) (mantissa : Nat) (exponent : Int) (decimal : Decimal) : Bool :=
  let (low, high) := f.interval mantissa exponent
  let (n, d) := scaled 10 decimal.value 1 (-decimal.exponent)
  let (n, d) := scaled 2 n d (exponent - 2)
  if mantissa % 2 = 0 then low * d ≤ n && n ≤ high * d else low * d < n && n < high * d

/-- The nearer of the two multiples of 10^`power` around a number that round to
it, if there is one. -/
def onGrid? (f : BinaryFormat) (tie : Tie) (mantissa : Nat) (exponent power : Int) :
    Option Decimal :=
  let (n, d) := scaled 2 mantissa 1 (-exponent)
  let (n, d) := scaled 10 n d power
  let below := n / d
  let rest := 2 * (n % d)
  let above := d < rest ∨ (rest = d ∧ (tie = .up ∨ below % 2 = 1))
  let candidates := if above then [below + 1, below] else [below, below + 1]
  (candidates.map fun value => Decimal.mk value power).find? (f.holds mantissa exponent)

/-- The number of digits before the point; for a number below one, less the zeros
that follow the point. -/
def magnitude (mantissa : Nat) (exponent : Int) : Int :=
  let (n, d) := scaled 2 (mantissa * Nat.pow 10 400) 1 (-exponent)
  (digits (n / d)).length - 400

/-- The exact decimal of a binary number. -/
def exact (mantissa : Nat) (exponent : Int) : Decimal :=
  if 0 ≤ exponent then ⟨mantissa * Nat.pow 2 exponent.toNat, 0⟩
  else ⟨mantissa * Nat.pow 5 (-exponent).toNat, exponent⟩

/-- The shortest decimal form of `mantissa` · 2^`exponent`: grids are tried from
one digit on. Seventeen digits are enough for every number of 64 bits. -/
def shortest (f : BinaryFormat) (tie : Tie) (mantissa : Nat) (exponent : Int) : Decimal :=
  if mantissa = 0 then ⟨0, 0⟩
  else
    let top := magnitude mantissa exponent
    let found := (List.range 17).findSome? fun i : Nat =>
      f.onGrid? tie mantissa exponent (top - 1 - i)
    (found.getD (exact mantissa exponent)).reduce

end BinaryFormat

end Daybook.Numeric

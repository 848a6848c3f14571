import Daybook.Calendar.Date
import Daybook.Numeric.Score
import Daybook.Text.Reading
import Daybook.Toml.Value

/-!
# The lexical level of TOML

Blanks and comments, strings of the four kinds, keys, numbers and times. A reading
function takes the text from where its lexeme begins and gives what the lexeme
stands for with the text after it; it has no result where there is no such lexeme.
-/

namespace Daybook.Toml

/-- The text after leading spaces and tabs. -/
def skipBlank (cs : List Char) : List Char := cs.dropWhile fun c => c == ' ' || c == '\t'

/-- Whether a character may stand in a comment or a string as it is. -/
def isPlain (c : Char) : Bool := c == '\t' || (0x20 ≤ c.toNat && c.toNat != 0x7F)

/-- The text after a line break, if there is one. -/
def readBreak? : List Char → Option (List Char)
  | '\n' :: cs => some cs
  | '\r' :: '\n' :: cs => some cs
  | _ => none

/-- The text after a comment, if there is one; the line break stays. -/
def skipComment : List Char → List Char
  | '#' :: cs => cs.dropWhile isPlain
  | cs => cs

/-- The text after the end of a line: blanks, a comment and a line break, or the
end of the whole text. -/
def readLineEnd? (cs : List Char) : Option (List Char) :=
  match skipComment (skipBlank cs) with
  | [] => some []
  | cs => readBreak? cs

/-- The text after any blanks, comments and line breaks. A line is skipped only
as a whole, and at most `fuel` lines are. -/
def skipLines : (fuel : Nat) → List Char → List Char
  | 0, cs => skipBlank cs
  | fuel + 1, cs =>
    match readBreak? (skipComment (skipBlank cs)) with
    | some cs => skipLines fuel cs
    | none => skipBlank cs

/-- The character that a single letter after a backslash stands for. -/
def simpleEscape? : Char → Option Char
  | 'b' => some '\x08'
  | 't' => some '\t'
  | 'n' => some '\n'
  | 'f' => some '\x0c'
  | 'r' => some '\r'
  | '\x22' => some '\x22'
  | '\x5c' => some '\x5c'
  | _ => none

/-- The value of a digit in a base up to sixteen. -/
def digitIn? (base : Nat) (c : Char) : Option Nat :=
  let value :=
    if c.isDigit then c.toNat - '0'.toNat
    else if 'a' ≤ c ∧ c ≤ 'f' then c.toNat - 'a'.toNat + 10
    else if 'A' ≤ c ∧ c ≤ 'F' then c.toNat - 'A'.toNat + 10
    else base
  if value < base then some value else none

/-- The number that digits of a base stand for. -/
def ofDigitsIn? (base : Nat) (cs : List Char) : Option Nat :=
  cs.foldlM (fun n c => (digitIn? base c).map (base * n + ·)) 0

/-- The character with a hexadecimal code. -/
def ofCode? (cs : List Char) : Option Char := do
  let n ← ofDigitsIn? 16 cs
  if n.isValidChar then some (Char.ofNat n) else none

/-- Puts a character in front of a text that has been read. -/
def push (c : Char) (read : Option (List Char × List Char)) : Option (List Char × List Char) :=
  read.map fun (text, rest) => (c :: text, rest)

/-- Reads a string between quotation marks, from behind the first one. -/
def readBasic? : List Char → Option (List Char × List Char)
  | [] => none
  | '\x22' :: cs => some ([], cs)
  | '\x5c' :: 'u' :: a :: b :: c :: d :: cs => do
    let code ← ofCode? [a, b, c, d]
    push code (readBasic? cs)
  | '\x5c' :: 'U' :: a :: b :: c :: d :: e :: f :: g :: h :: cs => do
    let code ← ofCode? [a, b, c, d, e, f, g, h]
    push code (readBasic? cs)
  | '\x5c' :: e :: cs => do
    let c ← simpleEscape? e
    push c (readBasic? cs)
  | c :: cs => if isPlain c then push c (readBasic? cs) else none

/-- Whether a text begins with blanks and then a line break. -/
def startsWithLineEnd (cs : List Char) : Bool := (readBreak? (skipBlank cs)).isSome

/-- Reads a string between threefold quotation marks, from behind the first three.
Up to two further marks may stand before the last three. After a backslash at the
end of a line, blanks and line breaks are skipped; `skipping` says so. -/
def readLongBasic? (skipping : Bool) : List Char → Option (List Char × List Char)
  | [] => none
  | '\x22' :: '\x22' :: '\x22' :: '\x22' :: '\x22' :: cs => some (['\x22', '\x22'], cs)
  | '\x22' :: '\x22' :: '\x22' :: '\x22' :: cs => some (['\x22'], cs)
  | '\x22' :: '\x22' :: '\x22' :: cs => some ([], cs)
  | '\x5c' :: 'u' :: a :: b :: c :: d :: cs => do
    let code ← ofCode? [a, b, c, d]
    push code (readLongBasic? false cs)
  | '\x5c' :: 'U' :: a :: b :: c :: d :: e :: f :: g :: h :: cs => do
    let code ← ofCode? [a, b, c, d, e, f, g, h]
    push code (readLongBasic? false cs)
  | '\x5c' :: e :: cs =>
    match simpleEscape? e with
    | some c => push c (readLongBasic? false cs)
    | none => if startsWithLineEnd (e :: cs) then readLongBasic? true (e :: cs) else none
  | '\r' :: '\n' :: cs =>
    if skipping then readLongBasic? true cs else push '\n' (readLongBasic? false cs)
  | c :: cs =>
    if skipping && (c == ' ' || c == '\t' || c == '\n') then readLongBasic? true cs
    else if c == '\n' || isPlain c then push c (readLongBasic? false cs)
    else none

/-- Reads a string between apostrophes, from behind the first one. -/
def readLiteral? : List Char → Option (List Char × List Char)
  | [] => none
  | c :: cs =>
    if c == '\x27' then some ([], cs)
    else if isPlain c then push c (readLiteral? cs)
    else none

/-- Reads a string between threefold apostrophes, from behind the first three. Up
to two further ones may stand before the last three. -/
def readLongLiteral? : List Char → Option (List Char × List Char)
  | [] => none
  | '\x27' :: '\x27' :: '\x27' :: '\x27' :: '\x27' :: cs => some (['\x27', '\x27'], cs)
  | '\x27' :: '\x27' :: '\x27' :: '\x27' :: cs => some (['\x27'], cs)
  | '\x27' :: '\x27' :: '\x27' :: cs => some ([], cs)
  | '\r' :: '\n' :: cs => push '\n' (readLongLiteral? cs)
  | c :: cs => if c == '\n' || isPlain c then push c (readLongLiteral? cs) else none

/-- The text after a line break at its start, which does not count there. -/
def dropBreak (cs : List Char) : List Char := (readBreak? cs).getD cs

/-- Reads a string of any kind. -/
def readString? : List Char → Option (List Char × List Char)
  | '\x22' :: '\x22' :: '\x22' :: cs => readLongBasic? false (dropBreak cs)
  | '\x22' :: cs => readBasic? cs
  | '\x27' :: '\x27' :: '\x27' :: cs => readLongLiteral? (dropBreak cs)
  | '\x27' :: cs => readLiteral? cs
  | _ => none

/-- The characters of keys without quotes. -/
def isBareKeyChar (c : Char) : Bool := c.isAlphanum || c == '_' || c == '-'

/-- Reads one part of a key: bare, or a string on one line. -/
def readKeyPart? : List Char → Option (String × List Char)
  | '\x22' :: cs => (readBasic? cs).map fun (key, rest) => (String.ofList key, rest)
  | '\x27' :: cs => (readLiteral? cs).map fun (key, rest) => (String.ofList key, rest)
  | cs =>
    let key := cs.takeWhile isBareKeyChar
    if key.isEmpty then none else some (String.ofList key, cs.dropWhile isBareKeyChar)

/-- Reads a key of at most `limit` parts with points between them, and the blanks
around the parts. -/
def readKey? : (limit : Nat) → List Char → Option (List String × List Char)
  | 0, _ => none
  | limit + 1, cs => do
    let (part, cs) ← readKeyPart? (skipBlank cs)
    match skipBlank cs with
    | '.' :: cs =>
      let (parts, cs) ← readKey? limit cs
      return (part :: parts, cs)
    | cs => return ([part], cs)

/-- The characters of numbers, times and words. -/
def isTokenChar (c : Char) : Bool :=
  c.isAlphanum || c == '+' || c == '-' || c == '.' || c == '_' || c == ':'

/-- Digits with single underscores between them, without the underscores. -/
def ungroup? (isDigit : Char → Bool) : List Char → Option (List Char)
  | [] => none
  | [c] => if isDigit c then some [c] else none
  | c :: '_' :: cs => if isDigit c then (ungroup? isDigit cs).map (c :: ·) else none
  | c :: cs => if isDigit c then (ungroup? isDigit cs).map (c :: ·) else none

/-- The digits of a decimal integer without sign; a zero stands alone. -/
def readWhole? (cs : List Char) : Option (List Char) := do
  let ds ← ungroup? Char.isDigit cs
  if cs.head? == some '0' && cs.length != 1 then none else some ds

/-- An integer within 64 bits. -/
def checked? (negative : Bool) (n : Nat) : Option Int :=
  if n < Nat.pow 2 63 + (if negative then 1 else 0) then some (if negative then -(n : Int) else n)
  else none

/-- Reads an integer that fills a token: decimal with an optional sign, or
hexadecimal, octal or binary without one. -/
def readInteger? (token : List Char) : Option Int :=
  let inBase := fun (base : Nat) (cs : List Char) => do
    let ds ← ungroup? (fun c => (digitIn? base c).isSome) cs
    checked? false (← ofDigitsIn? base ds)
  match token with
  | '0' :: 'x' :: cs => inBase 16 cs
  | '0' :: 'o' :: cs => inBase 8 cs
  | '0' :: 'b' :: cs => inBase 2 cs
  | cs => do
    let (negative, cs) := Score.readSign cs
    checked? negative (Numeric.ofDigits (← readWhole? cs))

/-- Reads the exponent of a number from behind its letter. -/
def readExponent? (cs : List Char) : Option Int := do
  let (negative, cs) := Score.readSign cs
  let n := Numeric.ofDigits (← ungroup? Char.isDigit cs)
  return if negative then -(n : Int) else n

/-- Reads a floating-point number that fills a token: digits with a point and
further digits, or an exponent, or both; or a word for infinity or for no number.
A positive number may not be too large for 64 bits. -/
def readFloat? (token : List Char) : Option Numeric.Number := do
  let (negative, cs) := Score.readSign token
  if cs == "inf".toList then return .infinite negative
  if cs == "nan".toList then return .nan
  let isExponentMark := fun c : Char => c == 'e' || c == 'E'
  let mantissa := cs.takeWhile fun c => !isExponentMark c
  let whole ← readWhole? (mantissa.takeWhile (· != '.'))
  let places ←
    match mantissa.dropWhile (· != '.') with
    | [] => some []
    | _ :: places => ungroup? Char.isDigit places
  let exponent ←
    match cs.dropWhile fun c => !isExponentMark c with
    | [] => if places.isEmpty then none else some 0
    | _ :: exponent => readExponent? exponent
  let x := Numeric.BinaryFormat.double.ofDecimal negative (Numeric.ofDigits (whole ++ places))
    (exponent - places.length)
  if x = .infinite false then none else some x

/-- Whether a token is a time of day. -/
def isTime (token : List Char) : Bool :=
  (do
    let (hour, cs) ← Numeric.readDigits? 2 token
    let (minute, cs) ← Numeric.readDigits? 2 (← Text.readMark? ':' cs)
    let (second, cs) ← Numeric.readDigits? 2 (← Text.readMark? ':' cs)
    let places :=
      match cs with
      | [] => true
      | c :: cs => c == '.' && !cs.isEmpty && cs.all Char.isDigit
    return hour ≤ 23 && minute ≤ 59 && second ≤ 60 && places).getD false

/-- Whether a token is an offset from universal time. -/
def isOffset (token : List Char) : Bool :=
  match token with
  | [] => true
  | [c] => c == 'Z' || c == 'z'
  | sign :: cs =>
    (sign == '+' || sign == '-') &&
      (do
        let (hour, cs) ← Numeric.readDigits? 2 cs
        let (minute, cs) ← Numeric.readDigits? 2 (← Text.readMark? ':' cs)
        return hour ≤ 23 && minute ≤ 59 && cs.isEmpty).getD false

/-- Whether a token is a time of day with an offset from universal time, or
without one. -/
def isTimeWithOffset (token : List Char) : Bool :=
  let isTimeChar := fun c : Char => c.isDigit || c == ':' || c == '.'
  isTime (token.takeWhile isTimeChar) && isOffset (token.dropWhile isTimeChar)

/-- The rest of a token after a calendar date. -/
def readDate? (token : List Char) : Option (List Char) := do
  let (year, cs) ← Numeric.readDigits? 4 token
  let (month, cs) ← Numeric.readDigits? 2 (← Text.readMark? '-' cs)
  let (day, cs) ← Numeric.readDigits? 2 (← Text.readMark? '-' cs)
  (Date.ofCivil? year month day).map fun _ => cs

end Daybook.Toml

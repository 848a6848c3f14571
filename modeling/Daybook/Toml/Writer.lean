import Daybook.Numeric.Score
import Daybook.Toml.Value

/-!
# Writing TOML

A document is written table by table, with an empty line between tables and one
key on each line. A string is written in the first of four forms that needs no escapes
for it: between quotation marks, between apostrophes, and between threefold marks of
either kind. If each form needs some, it is written between quotation marks, which are
threefold if it has several lines. A list of several strings takes a line for each.
-/

namespace Daybook.Toml

/-- Four hexadecimal digits in upper case. -/
def fourHex (n : Nat) : List Char :=
  let digit := fun k => (Nat.digitChar (n / Nat.pow 16 k % 16)).toUpper
  [digit 3, digit 2, digit 1, digit 0]

/-- Whether a character cannot stand in a string as it is. -/
def isControl (c : Char) : Bool := c.toNat < 0x20 || c.toNat == 0x7F

/-- A character as it is written between quotation marks; `c` is no such mark. -/
def escape (c : Char) : List Char :=
  match c with
  | '\x5c' => ['\x5c', '\x5c']
  | '\x08' => ['\x5c', 'b']
  | '\t' => ['\x5c', 't']
  | '\n' => ['\x5c', 'n']
  | '\x0c' => ['\x5c', 'f']
  | '\r' => ['\x5c', 'r']
  | c => if isControl c then '\x5c' :: 'u' :: fourHex c.toNat else [c]

/-- A text as it is written between quotation marks. -/
def escapeAll (cs : List Char) : List Char :=
  cs.flatMap fun c => if c == '\x22' then ['\x5c', '\x22'] else escape c

/-- A text as it is written between threefold quotation marks: line breaks stand
as they are, and every third mark of a row is escaped. `marks` counts the marks
directly before the text. -/
def escapeLong (marks : Nat) : List Char → List Char
  | [] => []
  | c :: cs =>
    if c == '\x22' then
      if marks = 2 then '\x5c' :: '\x22' :: escapeLong 0 cs else '\x22' :: escapeLong (marks + 1) cs
    else if c == '\n' then '\n' :: escapeLong 0 cs
    else escape c ++ escapeLong 0 cs

/-- Whether three of a character stand in a row. -/
def hasThree (c : Char) : List Char → Bool
  | [] => false
  | d :: cs => [c, c, c].isPrefixOf (d :: cs) || hasThree c cs

/-- How a string is written. -/
inductive Quoting where
  /-- Between quotation marks. -/
  | basic
  /-- Between apostrophes. -/
  | literal
  /-- Between threefold quotation marks. -/
  | longBasic
  /-- Between threefold apostrophes. -/
  | longLiteral
  deriving DecidableEq, Repr

/-- Whether a form needs no escapes for a text, save for tabs. -/
def Quoting.isPlain (form : Quoting) (cs : List Char) : Bool :=
  !cs.any (fun c => isControl c && c != '\t' && c != '\n') &&
    match form with
    | .basic => !cs.any fun c => c == '\x5c' || c == '\x22' || c == '\n'
    | .literal => !cs.any fun c => c == '\x27' || c == '\n'
    | .longBasic => !cs.contains '\x5c' && !hasThree '\x22' cs
    | .longLiteral => !hasThree '\x27' cs

/-- The way to write a string: the first form that needs no escapes, or else one
with escapes, which is long if there are several lines. -/
def Quoting.of (cs : List Char) : Quoting :=
  ([basic, literal, longBasic, longLiteral].find? (·.isPlain cs)).getD
    (if cs.contains '\n' then .longBasic else .basic)

/-- A text between threefold marks. Several lines begin on a line of their own. -/
def writeLong (mark : Char) (cs text : List Char) : List Char :=
  let marks := [mark, mark, mark]
  marks ++ (if cs.contains '\n' then ['\n'] else []) ++ text ++ marks

/-- The text of a string. -/
def writeString (s : String) : List Char :=
  let cs := s.toList
  match Quoting.of cs with
  | .basic => '\x22' :: escapeAll cs ++ ['\x22']
  | .literal => '\x27' :: cs ++ ['\x27']
  | .longBasic => writeLong '\x22' cs (escapeLong 0 cs)
  | .longLiteral => writeLong '\x27' cs cs

/-- The text of a list of strings. -/
def writeStrings : List String → List Char
  | [] => ['[', ']']
  | [s] => '[' :: writeString s ++ [']']
  | items =>
    let line := fun s => List.replicate 4 ' ' ++ writeString s ++ [',', '\n']
    '[' :: '\n' :: items.flatMap line ++ [']']

/-- The text of a number of 64 bits: positional, with a point in it. -/
def writeFloat : Numeric.Number → List Char
  | .nan => "nan".toList
  | .infinite negative => if negative then "-inf".toList else "inf".toList
  | .finite negative mantissa exponent =>
    let decimal := Numeric.BinaryFormat.double.shortest .up mantissa exponent
    (if negative then ['-'] else []) ++ decimal.positional ++
      if 0 ≤ decimal.exponent then ['.', '0'] else []

/-- The text of a line that gives a value to a bare key. -/
def writeLine (key : String) (value : List Char) : List Char :=
  key.toList ++ ' ' :: '=' :: ' ' :: value ++ ['\n']

/-- The text of a table with a bare name. -/
def writeTable (name : String) (lines : List Char) : List Char :=
  '[' :: name.toList ++ ']' :: '\n' :: lines

end Daybook.Toml

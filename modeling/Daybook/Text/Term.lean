import Daybook.Text.Span

/-!
# Terms in a text

A term is looked for up to the case of ASCII letters. A term made of ASCII
words must stand on its own: no ASCII letter or digit may touch it. Any other
term, such as a Chinese word, may stand anywhere.
-/

namespace Daybook.Text

/-- A text with its ASCII letters in lower case. -/
def lower (cs : List Char) : List Char := cs.map Char.toLower

/-- Whether a term consists of ASCII words: letters and digits, at least one of
them, with spaces, apostrophes and hyphens between. -/
def isAsciiWord (term : List Char) : Bool :=
  term.any Char.isAlphanum &&
    term.all fun c => c.isAlphanum || c == ' ' || c == '\x27' || c == '-'

/-- A place where a term stands, with the characters around it. -/
structure Occurrence where
  span : Span
  /-- The character directly before the span. -/
  before : Option Char
  /-- The character directly after the span. -/
  after : Option Char
  deriving DecidableEq, Repr

/-- Whether no ASCII letter or digit touches the occurrence. -/
def Occurrence.isolated (o : Occurrence) : Bool :=
  !o.before.any Char.isAlphanum && !o.after.any Char.isAlphanum

/-- Whether a text begins with a lower-case needle, up to ASCII case. -/
def beginsWith : (needle cs : List Char) → Bool
  | [], _ => true
  | _ :: _, [] => false
  | n :: needle, c :: cs => n == c.toLower && beginsWith needle cs

/-- The occurrences of a lower-case needle from left to right, none overlapping
the one before it. The first `skip` characters belong to the last occurrence;
`offset` is the byte position of the text, and `before` the character there. -/
def occurrencesFrom (needle : List Char) (skip offset : Nat) (before : Option Char) :
    List Char → List Occurrence
  | [] => []
  | c :: cs =>
    match skip with
    | k + 1 => occurrencesFrom needle k (offset + c.utf8Size) (some c) cs
    | 0 =>
      if beginsWith needle (c :: cs) then
        ⟨⟨offset, offset + byteLength needle⟩, before, (c :: cs)[needle.length]?⟩ ::
          occurrencesFrom needle (needle.length - 1) (offset + c.utf8Size) (some c) cs
      else occurrencesFrom needle 0 (offset + c.utf8Size) (some c) cs

/-- The occurrences of `term` in `text`. The empty term occurs nowhere. -/
def occurrences (text term : List Char) : List Occurrence :=
  let needle := lower term
  if needle.isEmpty then []
  else
    (occurrencesFrom needle 0 0 none text).filter fun o => !isAsciiWord needle || o.isolated

/-- The byte spans of `term` in `text`. -/
def findTerm (text term : List Char) : List Span := (occurrences text term).map (·.span)

/-- Whether `term` occurs in `text`. -/
def containsTerm (text term : List Char) : Bool := !(findTerm text term).isEmpty

/-- `text` with every occurrence of `term` replaced by a space. -/
def removeTerm (text term : List Char) : Except Fault (List Char) :=
  replaceFrom text 0 (findTerm text term)

/-- `text` with the terms of a list removed one after the other. -/
def removeTerms (text : List Char) (terms : List String) : Except Fault (List Char) :=
  terms.foldlM (fun rest term => removeTerm rest term.toList) text

end Daybook.Text

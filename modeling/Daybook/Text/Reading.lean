/-!
# Reading from the front of a text

A reading function takes something off the front of a text and gives what remains,
or has no result. `readChar?` is the smallest one.
-/

namespace Daybook.Text

/-- The text after a first character that passes a test. -/
def readChar? (test : Char → Bool) : List Char → Option (List Char)
  | [] => none
  | c :: cs => if test c then some cs else none

/-- The text after a given first character. -/
def readMark? (mark : Char) (cs : List Char) : Option (List Char) := readChar? (· == mark) cs

end Daybook.Text

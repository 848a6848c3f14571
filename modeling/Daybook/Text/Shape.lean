/-!
# The shape of a text

Sentence punctuation, words that look like proper nouns, and the length of a
text in characters.
-/

namespace Daybook.Text

/-- The punctuation marks that separate the parts of a sentence. -/
def isSentenceMark (c : Char) : Bool :=
  ['？', '！', '，', '。', '、', '；', '：', '?', '!', ',', ';'].contains c

/-- A text with each sentence mark replaced by a space. -/
def blankPunctuation (cs : List Char) : List Char :=
  cs.map fun c => if isSentenceMark c then ' ' else c

/-- The characters that continue a word: ASCII letters, digits and underscore. -/
def continuesWord (c : Char) : Bool := c.isAlphanum || c == '_'

/-- Whether a word is an upper-case letter followed by one or more letters. -/
def isProperNoun : List Char → Bool
  | c :: d :: cs => c.isUpper && (d :: cs).all Char.isAlpha
  | _ => false

/-- Counts the proper nouns; `inWord` says that the text continues a word. A
word begins with a letter and goes on as long as it can. -/
def properNounsFrom (inWord : Bool) : List Char → Nat
  | [] => 0
  | c :: cs =>
    if inWord && continuesWord c then properNounsFrom true cs
    else if c.isAlpha then
      (if isProperNoun (c :: cs.takeWhile continuesWord) then 1 else 0) + properNounsFrom true cs
    else properNounsFrom false cs

/-- The number of words that look like proper nouns. -/
def countProperNouns (cs : List Char) : Nat := properNounsFrom false cs

/-- The first `limit` characters of a text, or all of it. -/
def truncate (text : String) (limit : Nat) : String := String.ofList (text.toList.take limit)

end Daybook.Text

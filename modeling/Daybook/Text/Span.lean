import Daybook.Fault

/-!
# Byte spans

Positions in a text count the bytes of its UTF-8 form. A position can be cut at
when it is the byte length of an initial part of the text; cutting anywhere
else is a fault.
-/

namespace Daybook.Text

/-- The number of bytes in the UTF-8 form of a text. -/
def byteLength : List Char → Nat
  | [] => 0
  | c :: cs => c.utf8Size + byteLength cs

/-- The empty text has no bytes. -/
@[simp] theorem byteLength_nil : byteLength [] = 0 := rfl

/-- The bytes of a text are those of its first character and those of the rest. -/
@[simp] theorem byteLength_cons (c : Char) (cs : List Char) :
    byteLength (c :: cs) = c.utf8Size + byteLength cs := rfl

/-- The bytes of two texts add up when they are joined. -/
@[simp] theorem byteLength_append (as bs : List Char) :
    byteLength (as ++ bs) = byteLength as + byteLength bs := by
  induction as with
  | nil => simp
  | cons c as ih => simp [ih, Nat.add_assoc]

/-- The bytes from `start` up to, and without, `stop`. -/
structure Span where
  start : Nat
  stop : Nat
  deriving DecidableEq, Repr

/-- The order of spans: by start, then by stop. -/
def Span.le (a b : Span) : Bool :=
  a.start < b.start || (a.start == b.start && a.stop ≤ b.stop)

/-- The first `n` bytes of a text and the rest. -/
def splitAtByte (n : Nat) : List Char → Except Fault (List Char × List Char)
  | [] => if n = 0 then .ok ([], []) else .error .beyondText
  | c :: cs =>
    if n = 0 then .ok ([], c :: cs)
    else if n < c.utf8Size then .error .insideCharacter
    else (splitAtByte (n - c.utf8Size) cs).map fun (front, back) => (c :: front, back)

/-- Cutting off the bytes of an initial part gives back the two parts. -/
theorem splitAtByte_byteLength (as bs : List Char) :
    splitAtByte (byteLength as) (as ++ bs) = .ok (as, bs) := by
  induction as with
  | nil => cases bs <;> rfl
  | cons c as ih =>
    have hpos : c.utf8Size ≠ 0 := Nat.pos_iff_ne_zero.mp (Char.utf8Size_pos c)
    have hlt : ¬ c.utf8Size + byteLength as < c.utf8Size := by omega
    simp [splitAtByte, hpos, hlt, ih, Except.map]

/-- The text from byte `start` on. -/
def dropBytes (start : Nat) (cs : List Char) : Except Fault (List Char) :=
  (splitAtByte start cs).map Prod.snd

/-- The text from byte `start` up to byte `stop`. -/
def slice (start stop : Nat) (cs : List Char) : Except Fault (List Char) :=
  if stop < start then .error .endsBeforeStart
  else do
    let rest ← dropBytes start cs
    (splitAtByte (stop - start) rest).map Prod.fst

/-- Replaces spans, in ascending order, by one space each. Each span begins at
the end of the one before it or later; anything else is a fault. -/
def replaceFrom (cs : List Char) (cursor : Nat) : List Span → Except Fault (List Char)
  | [] => dropBytes cursor cs
  | span :: spans => do
    let kept ← slice cursor span.start cs
    let rest ← replaceFrom cs span.stop spans
    return kept ++ ' ' :: rest

/-- Replaces spans, in ascending order, by one space each. A span that ends at
or before `cursor` is skipped; one that begins before it only moves `cursor` on. -/
def blankFrom (cs : List Char) (cursor : Nat) : List Span → Except Fault (List Char)
  | [] => dropBytes cursor cs
  | span :: spans =>
    if span.stop ≤ cursor then blankFrom cs cursor spans
    else if span.start < cursor then blankFrom cs span.stop spans
    else do
      let kept ← slice cursor span.start cs
      let rest ← blankFrom cs span.stop spans
      return kept ++ ' ' :: rest

/-- Replaces every span by a space, and overlapping ones by one space together. -/
def blankSpans (cs : List Char) (spans : List Span) : Except Fault (List Char) :=
  blankFrom cs 0 (spans.mergeSort Span.le)

end Daybook.Text

import Daybook.Settings.Basic

/-!
# Similarity of vectors

The cosine of the angle between two vectors of scores, in the arithmetic of
scores, and the order of things by descending score.
-/

namespace Daybook.Score

/-- The sum of some scores from left to right. The sum of none is a negative
zero, to which adding changes no score. -/
def sum (scores : List Score) : Score := scores.foldl (· + ·) (-0.0)

/-- The Euclidean length of a vector. -/
def norm (v : List Score) : Score := Float32.sqrt (sum (v.map fun x => x * x))

/-- The cosine of the angle between two vectors; zero if one of them has no
length. Coordinates that only one of them has count for its length alone. -/
def cosine (a b : List Score) : Score :=
  let normA := norm a
  let normB := norm b
  if normA == 0 || normB == 0 then 0
  else sum (List.zipWith (· * ·) a b) / (normA * normB)

/-- Puts an element behind the end of a reversed list, and moves it toward the
front as long as the element before it has a smaller score. -/
def insertRanked {α : Type} (score : α → Score) (x : α) : List α → List α
  | [] => [x]
  | y :: ys => if score y < score x then y :: insertRanked score x ys else x :: y :: ys

/-- A list by descending score, in which equal scores keep their order. An element
whose score is no number stays where it is found, and others do not pass it. -/
def rank {α : Type} (score : α → Score) (xs : List α) : List α :=
  (xs.foldl (fun ranked x => insertRanked score x ranked) []).reverse

end Daybook.Score

import Daybook.Retrieval.Result

/-!
# Quality of a result list

A result list is judged by its best two scores: a clear lead counts as much as a
high score.
-/

namespace Daybook

/-- How good a result list is. -/
inductive Quality where
  | low
  | medium
  | high
  deriving DecidableEq, Repr

namespace Quality

/-- The name of a level. -/
def name : Quality → String
  | low => "low"
  | medium => "medium"
  | high => "high"

/-- The level of a best score alone. -/
def ofTop (scoring : Settings.Scoring) (top : Score) : Quality :=
  if scoring.highQualityThreshold < top then high
  else if scoring.mediumQualityThreshold < top then medium
  else low

/-- The level of some descending scores. -/
def ofScores (scoring : Settings.Scoring) : List Score → Quality
  | [] => low
  | [top] => ofTop scoring top
  | top :: second :: _ =>
    if scoring.qualityGapThreshold < top - second then high else ofTop scoring top

/-- The level of a ranked result list. -/
def ofResults (scoring : Settings.Scoring) (results : List SearchResult) : Quality :=
  ofScores scoring (results.map (·.score))

end Quality

end Daybook

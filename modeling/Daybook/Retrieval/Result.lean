import Daybook.Records.Store

/-!
# Retrieval results

A result is an entity with its score; its identifier, kind and content are those
of the entity. Two result lists are merged by identifier and ranked again.
-/

namespace Daybook

/-- One ranked result. -/
structure SearchResult where
  id : Int
  kind : Kind
  score : Score
  /-- The content of a note, or the title of a schedule. -/
  content : String
  entity : Entity

namespace SearchResult

/-- The result for an entity with a score. -/
def ofEntity (entity : Entity) (score : Score) : SearchResult :=
  ⟨entity.id, entity.kind, score, entity.content, entity⟩

/-- The result for a hit. -/
def ofHit (hit : Hit) : SearchResult := ofEntity hit.entity hit.score

/-- The start of a schedule; none for a note. -/
def scheduleStart? (r : SearchResult) : Option Instant := r.entity.schedule?.map (·.start)

/-- The results without those whose identifier is in `seen` or occurs before. -/
def distinctFrom (seen : List Int) : List SearchResult → List SearchResult
  | [] => []
  | r :: rs =>
    if seen.contains r.id then distinctFrom seen rs
    else r :: distinctFrom (r.id :: seen) rs

/-- The first result for each identifier. -/
def distinct (results : List SearchResult) : List SearchResult := distinctFrom [] results

/-- Two result lists in one, ranked by score; of results with one identifier the
first is kept. At most `limit` results are kept, or all if it is zero. -/
def merge (first second : List SearchResult) (limit : Nat) : List SearchResult :=
  let ranked := Score.rank SearchResult.score (distinct (first ++ second))
  if 0 < limit then ranked.take limit else ranked

end SearchResult

end Daybook

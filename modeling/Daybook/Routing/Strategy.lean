/-!
# Retrieval strategies

The ways in which a query can be answered. A strategy has a name, under which it
is stored, and a description for people.
-/

namespace Daybook

/-- How a query is answered. -/
inductive Strategy where
  /-- List the schedules of a time range. -/
  | scheduleOnly
  /-- Search the notes by meaning. -/
  | memoSemantic
  /-- Search by meaning and by words, where words weigh more. -/
  | hybridLexical
  /-- Search everything within a time range. -/
  | hybridTimed
  /-- Search everything. -/
  | hybridStandard
  /-- Search everything, and have the candidates ranked again. -/
  | reranked
  deriving DecidableEq, Repr

namespace Strategy

/-- All strategies. -/
def all : List Strategy :=
  [scheduleOnly, memoSemantic, hybridLexical, hybridTimed, hybridStandard, reranked]

/-- The name of a strategy. -/
def name : Strategy → String
  | scheduleOnly => "schedule_bm25_only"
  | memoSemantic => "memo_semantic_only"
  | hybridLexical => "hybrid_bm25_weighted"
  | hybridTimed => "hybrid_with_time_filter"
  | hybridStandard => "hybrid_standard"
  | reranked => "full_pipeline_with_reranker"

/-- What a strategy does, in words. -/
def description : Strategy → String
  | scheduleOnly => "Schedules only (BM25 + time filter)"
  | memoSemantic => "Notes only (semantic vectors)"
  | hybridLexical => "Hybrid retrieval (BM25 weighted)"
  | hybridTimed => "Hybrid retrieval (time filtered)"
  | hybridStandard => "Standard hybrid retrieval (BM25 + semantic)"
  | reranked => "Full pipeline (hybrid retrieval + reranker)"

/-- Whether a strategy blends lexical and semantic scores. -/
def isHybrid : Strategy → Bool
  | scheduleOnly | memoSemantic => false
  | hybridLexical | hybridTimed | hybridStandard | reranked => true

/-- The strategy with a given name. -/
def ofName? (name : String) : Option Strategy := all.find? (·.name == name)

/-- The message about a name that no strategy has. -/
def unknownMessage (name : String) : String := "Unknown strategy: " ++ name

end Strategy

end Daybook

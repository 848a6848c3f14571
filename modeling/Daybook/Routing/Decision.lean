import Daybook.Routing.Strategy
import Daybook.Time.Resolution

/-!
# Routing decisions

What the router has found out about a query: the strategy and how sure it is of
it, the time range, and the content that is left to search for.
-/

namespace Daybook

/-- The outcome of routing one query. -/
structure Decision where
  strategy : Strategy
  /-- Between zero and one. -/
  confidence : Score
  range : Option Range
  /-- The query without phrases for times and stop words. -/
  semanticQuery : String
  needsReranker : Bool
  mode : MatchMode

/-- The decision for a query about which nothing is known. -/
def Decision.standard : Decision where
  strategy := .hybridStandard
  confidence := 0.80
  range := none
  semanticQuery := ""
  needsReranker := false
  mode := .auto

end Daybook

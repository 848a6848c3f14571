import Daybook.Retrieval.Result
import Daybook.Text.Term

/-!
# When to rerank

Reranking is left out where it is not to be had, where there are few candidates,
where the query is simple, and where the best candidate leads clearly.
-/

namespace Daybook.RerankPolicy

/-- A query with fewer characters than this is simple. -/
def simpleQueryLength : Nat := 10

/-- Whether a query is short or holds no mark of a complex one. -/
def isSimple (lexicon : Settings.Lexicon) (query : String) : Bool :=
  query.toList.length < simpleQueryLength ||
    !lexicon.complexMarkers.any fun marker => Text.containsTerm query.toList marker.toList

/-- Whether the first of some scores exceeds the second by more than a gap. -/
def hasClearLead (gap : Score) : List Score → Bool
  | first :: second :: _ => gap < first - second
  | _ => false

/-- Whether candidates with descending scores are worth a call of the reranker;
`available` says that it is attached and ready. -/
def shouldRerank (settings : Settings) (available : Bool) (query : String)
    (scores : List Score) : Bool :=
  available && settings.retrieval.enableReranker &&
    settings.scoring.minRerankResults ≤ scores.length &&
    !isSimple settings.lexicon query &&
    !hasClearLead settings.scoring.scoreGapThreshold scores

end Daybook.RerankPolicy

import Daybook.Retrieval.Program
import Daybook.Retrieval.Quality
import Daybook.Retrieval.RerankPolicy
import Daybook.Routing.Decision
import Daybook.Text.Shape

/-!
# Requests and how they are answered

A request carries a query, its strategy and its limits; it is answered under the
settings that hold when it starts. Each strategy is a program over the
collaborators.
-/

namespace Daybook

/-- One request for results. -/
structure Request where
  query : String
  userId : Int
  strategy : Strategy
  range : Option Range
  /-- The least score that a search for notes keeps. -/
  minScore : Score
  /-- The number of results asked for; zero asks for as many as are allowed. -/
  limit : Nat
  mode : MatchMode
  /-- The name under which the request is logged. -/
  requestId : String

namespace Request

/-- The request for a routed query. The trimmed query itself is searched for when
routing has left nothing of it. -/
def ofDecision (decision : Decision) (query : String) (userId : Int) (settings : Settings)
    (requestId : String) : Request where
  query :=
    if decision.semanticQuery.isEmpty then String.ofList (Text.trim query.toList)
    else decision.semanticQuery
  userId := userId
  strategy := decision.strategy
  range := decision.range
  minScore := settings.queryLimits.minScore
  limit := settings.queryLimits.defaultLimit
  mode := decision.mode
  requestId := requestId

/-- The number of results to return, given the most that are allowed. -/
def effectiveLimit (requested allowed : Nat) : Nat :=
  if requested = 0 then allowed else min requested allowed

/-- The number of results to return under some settings. -/
def resultLimit (request : Request) (settings : Settings) : Nat :=
  effectiveLimit request.limit settings.queryLimits.maxResults

/-- Issues a call under the time limit of the settings. -/
def issue (settings : Settings) (call : Call) : Retrieval call.Answer :=
  Retrieval.call call settings.retrieval.callTimeoutMs

/-- The vector of the query. -/
def embedQuery (request : Request) (settings : Settings) : Retrieval (List Score) :=
  issue settings (.embed request.query)

/-- The result for a listed schedule, with its description cut to a length. -/
def listedResult (maxLength : Nat) (schedule : Schedule) : SearchResult :=
  let description := Text.truncate schedule.description maxLength
  SearchResult.ofEntity (.schedule { schedule with description }) 1

/-- Whether schedules may be listed for the range of a request at `now`. -/
def checkListing (request : Request) (settings : Settings) (now : Instant) :
    Except RetrievalError Unit :=
  match request.range with
  | none => .ok ()
  | some range =>
    match range.error? now settings.timeRange with
    | .error fault => .error (.fault fault)
    | .ok (some error) => .error (.invalidRange error)
    | .ok none => .ok ()

/-- All schedules in the range of the request, if that is acceptable at `now`. -/
def listSchedules (request : Request) (settings : Settings) (now : Instant) :
    Retrieval (List SearchResult) := do
  Retrieval.ended (request.checkListing settings now)
  let schedules ← issue settings (.listSchedules request.userId request.range request.mode)
  return schedules.map (listedResult settings.retrieval.maxDescriptionLength)

/-- The results for the notes among some hits. -/
def memoResults (hits : List Hit) : List SearchResult :=
  (hits.filter (·.entity.kind == .memo)).map SearchResult.ofHit

/-- The notes most similar to a vector. -/
def memoPass (request : Request) (settings : Settings) (vector : List Score) (limit : Nat) :
    Retrieval (List SearchResult) := do
  let hits ← issue settings (.vectorSearch request.userId vector limit)
  return memoResults hits

/-- The first results whose score is high enough for the request. -/
def selectMemos (request : Request) (limit : Nat) (results : List SearchResult) :
    List SearchResult :=
  (results.filter fun r => request.minScore ≤ r.score).take limit

/-- A search for notes. Where the first pass is of medium quality and more results
are asked for than it looks for by itself, a second and wider pass adds to it. -/
def searchMemos (request : Request) (settings : Settings) : Retrieval (List SearchResult) := do
  let limit := request.resultLimit settings
  let sizes := settings.retrieval
  let vector ← request.embedQuery settings
  let first ← request.memoPass settings vector (max sizes.vectorLimit limit)
  if Quality.ofResults settings.scoring first = .medium ∧ sizes.vectorLimit < limit then
    let second ← request.memoPass settings vector sizes.expandLimit
    return request.selectMemos limit (SearchResult.merge first second limit)
  else return request.selectMemos limit first

/-- A result whose score counts with a weight. -/
def weighted (weight : Score) (r : SearchResult) : SearchResult :=
  { r with score := r.score * weight }

/-- The candidates of a hybrid search, weighted. -/
def candidates (request : Request) (settings : Settings) (weight : Score) :
    Retrieval (List SearchResult) := do
  let vector ← request.embedQuery settings
  let hits ←
    issue settings (.vectorSearch request.userId vector settings.retrieval.hybridLimit)
  return hits.map fun hit => weighted weight (SearchResult.ofHit hit)

/-- Whether a result is a note, or a schedule that starts in a range. -/
def startsWithin (range : Range) (r : SearchResult) : Bool := r.scheduleStart?.all range.contains

/-- Whether a hybrid search may be made within a range. -/
def checkWithin : Option Range → Except RetrievalError Unit
  | none => .ok ()
  | some range =>
    if range.isWellFormed then .ok ()
    else .error (.invalidRange (.notAfterStart range.start range.stop))

/-- A hybrid search, within a range if one is given. -/
def searchHybrid (request : Request) (settings : Settings) (weight : Score)
    (within : Option Range) : Retrieval (List SearchResult) := do
  Retrieval.ended (checkWithin within)
  let found ← request.candidates settings weight
  let kept := found.filter fun r => within.all fun range => startsWithin range r
  return kept.take (request.resultLimit settings)

/-- The candidates that a reranker has chosen, in its order and with its scores;
`used` holds the indices that have been taken already. -/
def rerankedFrom (candidates : List SearchResult) (used : List Nat) :
    List RerankHit → List SearchResult
  | [] => []
  | hit :: hits =>
    match if used.contains hit.index then none else candidates[hit.index]? with
    | none => rerankedFrom candidates used hits
    | some r => { r with score := hit.score } :: rerankedFrom candidates (hit.index :: used) hits

/-- A hybrid search whose candidates are ranked again where that is worth it. If
the reranker fails, the hybrid order stands; only a cancellation ends the
request. -/
def searchReranked (request : Request) (settings : Settings) (rerankerReady : Bool) :
    Retrieval (List SearchResult) := do
  let limit := request.resultLimit settings
  let found ← request.candidates settings settings.scoring.semanticWeight
  if RerankPolicy.shouldRerank settings rerankerReady request.query (found.map (·.score)) then
    let documents := found.map fun r => Text.truncate r.content settings.retrieval.maxDocLength
    match ← Retrieval.attempt (issue settings (.rerank request.query documents limit)) with
    | .ok hits => return (rerankedFrom found [] hits).take limit
    | .error error =>
      if error.isCancelled then Retrieval.ended (.error error) else return found.take limit
  else return found.take limit

/-- The program that answers a request by its strategy. -/
def byStrategy (request : Request) (settings : Settings) (rerankerReady : Bool) (now : Instant) :
    Retrieval (List SearchResult) :=
  let scoring := settings.scoring
  match request.strategy with
  | .scheduleOnly => request.listSchedules settings now
  | .memoSemantic => request.searchMemos settings
  | .hybridLexical => request.searchHybrid settings (1 - scoring.bm25WeightMax) none
  | .hybridTimed => request.searchHybrid settings scoring.semanticWeight request.range
  | .hybridStandard => request.searchHybrid settings scoring.semanticWeight none
  | .reranked => request.searchReranked settings rerankerReady

/-- The program that answers a request under some settings. -/
def retrieve (request : Request) (settings : Settings) (rerankerReady : Bool) (now : Instant) :
    Retrieval (List SearchResult) :=
  let length := request.query.toList.length
  let limit := settings.queryLimits.maxQueryLength
  if limit < length then Retrieval.ended (.error (.queryTooLong length limit))
  else request.byStrategy settings rerankerReady now

end Request

end Daybook

/-!
# Settings

Everything that can be tuned about routing and retrieval: limits on time ranges
and on queries, the sizes of retrieval passes, thresholds for scores, and the
word lists of the router. Scores are binary floating-point numbers of 32 bits.
-/

namespace Daybook

/-- A relevance score, or a threshold or weight for scores. -/
abbrev Score := Float32

namespace Settings

/-- The version of the settings layout that this library reads. -/
def schemaVersion : String := "1.0.0"

/-- What a settings document says about itself. -/
structure Meta where
  schemaVersion : String
  createdAt : String
  lastModified : String

/-- Limits on a time range before it reaches the schedules, in days. -/
structure TimeLimits where
  /-- How far in the future a range may start. -/
  maxFutureDays : Nat := 31
  /-- How long a range may be. -/
  maxRangeDays : Nat := 92
  deriving DecidableEq

/-- Limits on a query and its results. -/
structure QueryLimits where
  /-- The longest query, in characters. -/
  maxQueryLength : Nat := 1000
  /-- The most results any request can ask for. -/
  maxResults : Nat := 20
  /-- The least score that a search for notes keeps. -/
  minScore : Score := 0.5
  /-- The number of results asked for when a request does not say. -/
  defaultLimit : Nat := 10

/-- The sizes of retrieval passes. -/
structure RetrievalLimits where
  /-- Hits of the first pass over notes. -/
  vectorLimit : Nat := 5
  /-- Candidates of a hybrid search. -/
  hybridLimit : Nat := 20
  /-- Hits of the second pass over notes. -/
  expandLimit : Nat := 20
  enableReranker : Bool := true
  /-- Characters of a document that the reranker sees. -/
  maxDocLength : Nat := 5000
  /-- Characters of a schedule's description that a result shows. -/
  maxDescriptionLength : Nat := 10000
  /-- How long one call may take, in milliseconds. -/
  callTimeoutMs : Nat := 10000

/-- Weights and thresholds for scores. -/
structure Scoring where
  bm25WeightMin : Score := 0.3
  bm25WeightMax : Score := 0.7
  /-- The semantic share of a balanced hybrid score. -/
  semanticWeight : Score := 0.5
  highQualityThreshold : Score := 0.90
  mediumQualityThreshold : Score := 0.70
  /-- The lead of the best result above which a result list is of high quality. -/
  qualityGapThreshold : Score := 0.20
  /-- The lead of the best candidate above which reranking is left out. -/
  scoreGapThreshold : Score := 0.15
  minRerankResults : Nat := 5

/-- The word lists of the router and of the reranking policy. -/
structure Lexicon where
  /-- Words removed from a query before its content is used. -/
  stopWords : List String :=
    ["的", "有什么", "查询", "搜索", "查找", "关于", "安排", "呢", "吗", "啊", "呀", "内容", "笔记",
      "备忘", "记录", "about", "the", "my", "any", "me", "show", "a", "an", "on", "of", "for",
      "find", "search", "note", "notes", "memo", "memos", "what's", "what", "is", "are", "do", "i",
      "have"]
  /-- Words that leave a time query a query for the schedule only. -/
  scheduleWords : List String :=
    ["日程", "安排", "事", "计划", "schedule", "schedules", "plan", "plans", "agenda", "calendar",
      "events"]
  /-- Words that mark a query as one for notes. -/
  memoKeywords : List String :=
    ["笔记", "备忘", "记录", "搜索", "查找", "内容", "memo", "memos", "note", "notes", "search",
      "find", "content"]
  /-- Words that mark a query as an open question. -/
  questionKeywords : List String :=
    ["是什么", "怎么做", "如何", "为什么", "总结", "是什么意思", "what", "how", "why", "summarize",
      "explain"]
  /-- Question words, conjunctions and contrasts that make a query complex. -/
  complexMarkers : List String :=
    ["如何", "怎么", "为什么", "和", "或者", "但是", "how", "why", "and", "or", "but", "versus"]
  deriving DecidableEq

end Settings

/-- The settings of one program. -/
structure Settings where
  about : Settings.Meta
  timeRange : Settings.TimeLimits := {}
  queryLimits : Settings.QueryLimits := {}
  retrieval : Settings.RetrievalLimits := {}
  scoring : Settings.Scoring := {}
  lexicon : Settings.Lexicon := {}

/-- The settings that hold when nothing is configured, made at a given time.
One timestamp stands for two readings of the clock, of which the second follows
at once: the dates are texts that no check looks into. -/
def Settings.default (timestamp : String) : Settings where
  about := ⟨schemaVersion, timestamp, timestamp⟩

end Daybook

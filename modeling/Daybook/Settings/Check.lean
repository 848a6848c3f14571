import Daybook.Numeric.Score
import Daybook.Text.Blank

/-!
# Checking settings

Settings are used only if every value lies within its limits. A check collects
all violations, each with the path of the value and a sentence.
-/

namespace Daybook.Settings

/-- A value that is not within its limits. -/
structure Violation where
  path : String
  message : String
  deriving DecidableEq, Repr

/-- The violation that holds if a condition does. -/
def violationIf (condition : Bool) (path message : String) : List Violation :=
  if condition then [⟨path, message⟩] else []

/-- The sentence about a number that is not between two bounds. -/
def outsideMessage (low high value : String) : String :=
  "Must be between " ++ low ++ " and " ++ high ++ ", got " ++ value

/-- The violation of a natural number that is not between two bounds. -/
def checkBetween (low high : Nat) (path : String) (value : Nat) : List Violation :=
  violationIf (value < low || high < value) path
    (outsideMessage (Numeric.numeral low) (Numeric.numeral high) (Numeric.numeral value))

/-- The violation of a number of results that is not between 1 and 1000. -/
def checkLimit (path : String) (value : Nat) : List Violation := checkBetween 1 1000 path value

/-- The violation of a score that is not between zero and one, or is no number. -/
def checkUnit (path : String) (value : Score) : List Violation :=
  violationIf (!(0 ≤ value && value ≤ 1)) path (outsideMessage "0.0" "1.0" value.text)

/-- The violations of what the settings say about themselves. -/
def checkMeta (about : Meta) : List Violation :=
  violationIf (about.schemaVersion != schemaVersion) "_meta.schema_version"
    ("Unsupported schema version: " ++ about.schemaVersion)

/-- The violations of the limits on time ranges. -/
def checkTimeLimits (limits : TimeLimits) : List Violation :=
  checkBetween 0 365 "time_range.max_future_days" limits.maxFutureDays ++
    checkBetween 1 366 "time_range.max_range_days" limits.maxRangeDays

/-- The violations of the limits on queries. -/
def checkQueryLimits (limits : QueryLimits) : List Violation :=
  checkBetween 10 10000 "query_limits.max_query_length" limits.maxQueryLength ++
    checkLimit "query_limits.max_results" limits.maxResults ++
    checkLimit "query_limits.default_limit" limits.defaultLimit ++
    checkUnit "query_limits.min_score" limits.minScore

/-- The violations of the sizes of retrieval passes. -/
def checkRetrieval (sizes : RetrievalLimits) : List Violation :=
  checkLimit "retrieval.vector_limit" sizes.vectorLimit ++
    checkLimit "retrieval.hybrid_limit" sizes.hybridLimit ++
    checkLimit "retrieval.expand_limit" sizes.expandLimit ++
    violationIf (sizes.expandLimit < sizes.vectorLimit) "retrieval.expand_limit"
      ("Expand limit (" ++ Numeric.numeral sizes.expandLimit ++
        ") must not be smaller than vector limit (" ++ Numeric.numeral sizes.vectorLimit ++ ")") ++
    checkBetween 100 100000 "retrieval.max_doc_length" sizes.maxDocLength ++
    violationIf (sizes.maxDescriptionLength < 100) "retrieval.max_description_length"
      ("Must be at least 100, got " ++ Numeric.numeral sizes.maxDescriptionLength) ++
    violationIf (sizes.callTimeoutMs == 0) "retrieval.call_timeout_ms"
      "Call timeout must be greater than 0"

/-- The distance from one to the next larger score. -/
def scoreStep : Score := Float32.ofBits 0x34000000

/-- The violation of a lexical band that is upside down, or into which the lexical
share of a balanced score does not fall. -/
def checkBand (scoring : Scoring) : List Violation :=
  let low := scoring.bm25WeightMin
  let high := scoring.bm25WeightMax
  let share := 1 - scoring.semanticWeight
  if high < low then
    [⟨"scoring.bm25_weight_min",
      "BM25 weight min (" ++ low.text ++ ") exceeds max (" ++ high.text ++ ")"⟩]
  else
    violationIf (share < low - scoreStep || high + scoreStep < share) "scoring.semantic_weight"
      ("Semantic weight " ++ scoring.semanticWeight.text ++ " leaves a BM25 share outside [" ++
        low.text ++ ", " ++ high.text ++ "]")

/-- The violations of weights and thresholds. -/
def checkScoring (scoring : Scoring) : List Violation :=
  checkUnit "scoring.bm25_weight_min" scoring.bm25WeightMin ++
    checkUnit "scoring.bm25_weight_max" scoring.bm25WeightMax ++
    checkUnit "scoring.semantic_weight" scoring.semanticWeight ++
    checkUnit "scoring.high_quality_threshold" scoring.highQualityThreshold ++
    checkUnit "scoring.medium_quality_threshold" scoring.mediumQualityThreshold ++
    checkUnit "scoring.quality_gap_threshold" scoring.qualityGapThreshold ++
    checkUnit "scoring.score_gap_threshold" scoring.scoreGapThreshold ++
    checkBand scoring ++
    violationIf (scoring.highQualityThreshold < scoring.mediumQualityThreshold)
      "scoring.medium_quality_threshold"
      ("Medium threshold (" ++ scoring.mediumQualityThreshold.text ++
        ") exceeds high threshold (" ++ scoring.highQualityThreshold.text ++ ")") ++
    violationIf (scoring.minRerankResults == 0) "scoring.min_rerank_results"
      "Minimum rerank results must be greater than 0"

/-- The violation of a word list that is empty or has a blank entry. -/
def checkWords (path : String) (words : List String) : List Violation :=
  if words.isEmpty then [⟨path, "List cannot be empty"⟩]
  else
    violationIf (words.any fun word => Text.allBlank word.toList) path "Entries cannot be blank"

/-- The violations of the word lists. -/
def checkLexicon (lexicon : Lexicon) : List Violation :=
  checkWords "lexicon.stop_words" lexicon.stopWords ++
    checkWords "lexicon.schedule_words" lexicon.scheduleWords ++
    checkWords "lexicon.memo_keywords" lexicon.memoKeywords ++
    checkWords "lexicon.question_keywords" lexicon.questionKeywords ++
    checkWords "lexicon.complex_markers" lexicon.complexMarkers

/-- All violations of some settings. -/
def violations (s : Settings) : List Violation :=
  checkMeta s.about ++ checkTimeLimits s.timeRange ++ checkQueryLimits s.queryLimits ++
    checkRetrieval s.retrieval ++ checkScoring s.scoring ++ checkLexicon s.lexicon

/-- Whether every value lies within its limits. -/
def isValid (s : Settings) : Bool := s.violations.isEmpty

/-- The default settings have no violation. -/
theorem violations_default (timestamp : String) : (default timestamp).violations = [] := by
  have about : checkMeta ⟨schemaVersion, timestamp, timestamp⟩ = [] := by
    simp [checkMeta, violationIf]
  have rest : checkTimeLimits {} ++ checkQueryLimits {} ++ checkRetrieval {} ++
      checkScoring {} ++ checkLexicon {} = [] := by decide +kernel
  simp only [List.append_eq_nil_iff] at rest
  simp [violations, default, about, rest]

end Daybook.Settings

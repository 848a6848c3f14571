import Daybook.Settings.Override
import Daybook.Toml.Reader
import Daybook.Toml.Writer

/-!
# Settings as a document

Settings are stored as a TOML document with one table for each section. Sections
and keys that are missing have their defaults, except the version of the layout;
sections and keys that are not known are passed over.
-/

namespace Daybook.Settings

/-- One value of the settings. -/
inductive Field where
  | text (value : String)
  | size (value : Nat)
  | score (value : Score)
  | flag (value : Bool)
  | words (value : List String)

/-- The values under the key `_meta`. -/
def Meta.fields (about : Meta) : List (String × Field) :=
  [("schema_version", .text about.schemaVersion),
    ("created_at", .text about.createdAt),
    ("last_modified", .text about.lastModified)]

/-- The values of the limits on time ranges. -/
def TimeLimits.fields (limits : TimeLimits) : List (String × Field) :=
  [("max_future_days", .size limits.maxFutureDays),
    ("max_range_days", .size limits.maxRangeDays)]

/-- The values of the limits on queries. -/
def QueryLimits.fields (limits : QueryLimits) : List (String × Field) :=
  [("max_query_length", .size limits.maxQueryLength),
    ("max_results", .size limits.maxResults),
    ("min_score", .score limits.minScore),
    ("default_limit", .size limits.defaultLimit)]

/-- The values of the sizes of retrieval passes. -/
def RetrievalLimits.fields (sizes : RetrievalLimits) : List (String × Field) :=
  [("vector_limit", .size sizes.vectorLimit),
    ("hybrid_limit", .size sizes.hybridLimit),
    ("expand_limit", .size sizes.expandLimit),
    ("enable_reranker", .flag sizes.enableReranker),
    ("max_doc_length", .size sizes.maxDocLength),
    ("max_description_length", .size sizes.maxDescriptionLength),
    ("call_timeout_ms", .size sizes.callTimeoutMs)]

/-- The values of weights and thresholds. -/
def Scoring.fields (scoring : Scoring) : List (String × Field) :=
  [("bm25_weight_min", .score scoring.bm25WeightMin),
    ("bm25_weight_max", .score scoring.bm25WeightMax),
    ("semantic_weight", .score scoring.semanticWeight),
    ("high_quality_threshold", .score scoring.highQualityThreshold),
    ("medium_quality_threshold", .score scoring.mediumQualityThreshold),
    ("quality_gap_threshold", .score scoring.qualityGapThreshold),
    ("score_gap_threshold", .score scoring.scoreGapThreshold),
    ("min_rerank_results", .size scoring.minRerankResults)]

/-- The word lists. -/
def Lexicon.fields (lexicon : Lexicon) : List (String × Field) :=
  [("stop_words", .words lexicon.stopWords),
    ("schedule_words", .words lexicon.scheduleWords),
    ("memo_keywords", .words lexicon.memoKeywords),
    ("question_keywords", .words lexicon.questionKeywords),
    ("complex_markers", .words lexicon.complexMarkers)]

/-- All sections with their values, in the order of the document. -/
def sections (s : Settings) : List (String × List (String × Field)) :=
  [("_meta", s.about.fields),
    ("time_range", s.timeRange.fields),
    ("query_limits", s.queryLimits.fields),
    ("retrieval", s.retrieval.fields),
    ("scoring", s.scoring.fields),
    ("lexicon", s.lexicon.fields)]

/-- The text of a value; none if it is an integer too large for 64 bits. -/
def Field.write? : Field → Option (List Char)
  | .text s => some (Toml.writeString s)
  | .size n => if n < Nat.pow 2 63 then some (Numeric.digits n) else none
  | .score x => some (Toml.writeFloat (Numeric.BinaryFormat.double.convert x.toNumber))
  | .flag b => some (if b then "true".toList else "false".toList)
  | .words items => some (Toml.writeStrings items)

/-- The text of a section. -/
def writeSection? (name : String) (fields : List (String × Field)) : Option (List Char) := do
  let lines ← fields.mapM fun (key, field) => field.write?.map (Toml.writeLine key)
  return Toml.writeTable name lines.flatten

/-- The document of some settings. -/
def write (s : Settings) : Except SettingsError String :=
  match s.sections.mapM fun (name, fields) => writeSection? name fields with
  | some sections => .ok (String.ofList (['\n'].intercalate sections))
  | none => .error .notWritable

/-- A natural number below a bound. -/
def readSize? (bound : Nat) : Toml.Value → Option Nat
  | .integer n => if 0 ≤ n ∧ n < bound then some n.toNat else none
  | _ => none

/-- A score, also from an integer. -/
def readScore? : Toml.Value → Option Score
  | .integer n => some (Score.ofNumber (.finite (n < 0) n.natAbs 0))
  | .float x => some (Score.ofNumber x)
  | _ => none

/-- A truth value. -/
def readFlag? : Toml.Value → Option Bool
  | .boolean b => some b
  | _ => none

/-- A string. -/
def readText? : Toml.Value → Option String
  | .string s => some s
  | _ => none

/-- A list of strings. -/
def readWords? : Toml.Value → Option (List String)
  | .array items => items.mapM readText?
  | _ => none

/-- The limits on time ranges with one value replaced. -/
def TimeLimits.assign? (limits : TimeLimits) (key : String) (value : Toml.Value) :
    Option TimeLimits :=
  match key with
  | "max_future_days" =>
    (readSize? UInt32.size value).map fun n => { limits with maxFutureDays := n }
  | "max_range_days" => (readSize? UInt32.size value).map fun n => { limits with maxRangeDays := n }
  | _ => some limits

/-- The limits on queries with one value replaced. -/
def QueryLimits.assign? (limits : QueryLimits) (key : String) (value : Toml.Value) :
    Option QueryLimits :=
  match key with
  | "max_query_length" =>
    (readSize? UInt64.size value).map fun n => { limits with maxQueryLength := n }
  | "max_results" => (readSize? UInt64.size value).map fun n => { limits with maxResults := n }
  | "min_score" => (readScore? value).map fun x => { limits with minScore := x }
  | "default_limit" => (readSize? UInt64.size value).map fun n => { limits with defaultLimit := n }
  | _ => some limits

/-- The sizes of retrieval passes with one value replaced. -/
def RetrievalLimits.assign? (sizes : RetrievalLimits) (key : String) (value : Toml.Value) :
    Option RetrievalLimits :=
  let size := readSize? UInt64.size value
  match key with
  | "vector_limit" => size.map fun n => { sizes with vectorLimit := n }
  | "hybrid_limit" => size.map fun n => { sizes with hybridLimit := n }
  | "expand_limit" => size.map fun n => { sizes with expandLimit := n }
  | "enable_reranker" => (readFlag? value).map fun b => { sizes with enableReranker := b }
  | "max_doc_length" => size.map fun n => { sizes with maxDocLength := n }
  | "max_description_length" => size.map fun n => { sizes with maxDescriptionLength := n }
  | "call_timeout_ms" => size.map fun n => { sizes with callTimeoutMs := n }
  | _ => some sizes

/-- Weights and thresholds with one value replaced. -/
def Scoring.assign? (scoring : Scoring) (key : String) (value : Toml.Value) : Option Scoring :=
  let score := readScore? value
  match key with
  | "bm25_weight_min" => score.map fun x => { scoring with bm25WeightMin := x }
  | "bm25_weight_max" => score.map fun x => { scoring with bm25WeightMax := x }
  | "semantic_weight" => score.map fun x => { scoring with semanticWeight := x }
  | "high_quality_threshold" => score.map fun x => { scoring with highQualityThreshold := x }
  | "medium_quality_threshold" => score.map fun x => { scoring with mediumQualityThreshold := x }
  | "quality_gap_threshold" => score.map fun x => { scoring with qualityGapThreshold := x }
  | "score_gap_threshold" => score.map fun x => { scoring with scoreGapThreshold := x }
  | "min_rerank_results" =>
    (readSize? UInt64.size value).map fun n => { scoring with minRerankResults := n }
  | _ => some scoring

/-- The word lists with one of them replaced. -/
def Lexicon.assign? (lexicon : Lexicon) (key : String) (value : Toml.Value) : Option Lexicon :=
  let words := readWords? value
  match key with
  | "stop_words" => words.map fun ws => { lexicon with stopWords := ws }
  | "schedule_words" => words.map fun ws => { lexicon with scheduleWords := ws }
  | "memo_keywords" => words.map fun ws => { lexicon with memoKeywords := ws }
  | "question_keywords" => words.map fun ws => { lexicon with questionKeywords := ws }
  | "complex_markers" => words.map fun ws => { lexicon with complexMarkers := ws }
  | _ => some lexicon

/-- What the settings say about themselves with one value replaced. -/
def Meta.assign? (about : Meta) (key : String) (value : Toml.Value) : Option Meta :=
  let text := readText? value
  match key with
  | "schema_version" => text.map fun s => { about with schemaVersion := s }
  | "created_at" => text.map fun s => { about with createdAt := s }
  | "last_modified" => text.map fun s => { about with lastModified := s }
  | _ => some about

/-- The settings with one value replaced. -/
def assign? (s : Settings) (name key : String) (value : Toml.Value) : Option Settings :=
  match name with
  | "_meta" => (s.about.assign? key value).map fun x => { s with about := x }
  | "time_range" => (s.timeRange.assign? key value).map fun x => { s with timeRange := x }
  | "query_limits" => (s.queryLimits.assign? key value).map fun x => { s with queryLimits := x }
  | "retrieval" => (s.retrieval.assign? key value).map fun x => { s with retrieval := x }
  | "scoring" => (s.scoring.assign? key value).map fun x => { s with scoring := x }
  | "lexicon" => (s.lexicon.assign? key value).map fun x => { s with lexicon := x }
  | _ => some s

/-- The members of a section: those of a table, or the items of an array under the
keys of the section in their order. A date or a time has none. -/
def membersOf? (keys : List String) : Toml.Value → Option (List (String × Toml.Value))
  | .table members => some members
  | .array items => some (keys.zip items)
  | .dateTime => some []
  | _ => none

/-- The values of a section, which may be missing, put in place one by one. -/
def readSection? {α : Type} (assign? : α → String → Toml.Value → Option α)
    (fields : α → List (String × Field)) (start : α) (value : Option Toml.Value) : Option α :=
  match value with
  | none => some start
  | some value => do
    let members ← membersOf? ((fields start).map (·.1)) value
    members.foldlM (fun current (key, value) => assign? current key value) start

/-- What a document says about itself. The version is required. -/
def readMeta? (timestamp : String) (value : Toml.Value) : Option Meta := do
  let start : Meta := ⟨"", timestamp, timestamp⟩
  let members ← membersOf? (start.fields.map (·.1)) value
  if (Toml.lookup? "schema_version" members).isNone then none
  else readSection? Meta.assign? Meta.fields start (some value)

/-- The settings of a document. Times that it does not give are `timestamp`. -/
def ofMembers? (timestamp : String) (members : List (String × Toml.Value)) : Option Settings := do
  let about ← readMeta? timestamp (← Toml.lookup? "_meta" members)
  let find := fun (name : String) => Toml.lookup? name members
  return {
    about
    timeRange := ← readSection? TimeLimits.assign? TimeLimits.fields {} (find "time_range")
    queryLimits := ← readSection? QueryLimits.assign? QueryLimits.fields {} (find "query_limits")
    retrieval := ← readSection? RetrievalLimits.assign? RetrievalLimits.fields {} (find "retrieval")
    scoring := ← readSection? Scoring.assign? Scoring.fields {} (find "scoring")
    lexicon := ← readSection? Lexicon.assign? Lexicon.fields {} (find "lexicon") }

/-- Reads the settings of a text. -/
def read (timestamp text : String) : Except SettingsError Settings :=
  match (Toml.read? text).bind (ofMembers? timestamp) with
  | some s => .ok s
  | none => .error .malformed

/-- What there is in place of a file. -/
inductive FileContent where
  | missing
  /-- Something that is no text in UTF-8, such as a directory. -/
  | unreadable
  | text (content : String)

/-- The settings of a file, with variables applied and everything checked. -/
def load (timestamp : String) (file : FileContent) (environment : List (String × String)) :
    Except SettingsError Settings :=
  match file with
  | .missing => .error .fileMissing
  | .unreadable => .error .fileFault
  | .text content => do
    let s ← read timestamp content
    s.finish environment

/-- The settings of a file, or the default ones where there is no file. -/
def loadOrDefault (timestamp : String) (file : FileContent) (environment : List (String × String)) :
    Except SettingsError Settings :=
  match file with
  | .missing => (Settings.default timestamp).finish environment
  | file => load timestamp file environment

end Daybook.Settings

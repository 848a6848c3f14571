import Daybook.Routing.Decision
import Daybook.Text.Shape

/-!
# The router

A query that speaks of a time goes to the schedules, or to a search within that
time if it has other content. A query with a word for notes goes to the notes, a
question to the reranked search, and everything else to the standard search.
-/

namespace Daybook

/-- Words by descending number of characters; equally long ones keep their order. -/
def longestFirst (words : List String) : List String :=
  words.mergeSort fun a b => b.toList.length ≤ a.toList.length

/-- A router with its word lists. Longer words are removed from a query first, so
that no shorter word inside them is removed alone. -/
structure Router where
  lexicon : Settings.Lexicon

namespace Router

/-- The router for some word lists. -/
def ofLexicon (lexicon : Settings.Lexicon) : Router where
  lexicon :=
    { lexicon with
      stopWords := longestFirst lexicon.stopWords
      scheduleWords := longestFirst lexicon.scheduleWords }

/-- A query without punctuation and stop words. -/
def content (router : Router) (query : List Char) : Except Fault (List Char) := do
  let rest ← Text.removeTerms (Text.blankPunctuation query) router.lexicon.stopWords
  return Text.collapse rest

/-- Whether a content consists of words for schedules only. -/
def isScheduleOnly (router : Router) (content : List Char) : Except Fault Bool := do
  let rest ← Text.removeTerms content router.lexicon.scheduleWords
  return Text.allBlank rest

/-- Whether a query holds one of some terms. -/
def holdsAny (query : List Char) (terms : List String) : Bool :=
  terms.any fun term => Text.containsTerm query term.toList

/-- The decision for a query that speaks of a time. -/
def routeTimed (router : Router) (query : String) (time : Resolution) : Except Fault Decision := do
  let stripped ← Resolution.strip query
  let content ← router.content stripped.toList
  let mode := MatchMode.ofSource (some time.source)
  if ← router.isScheduleOnly content then
    return ⟨.scheduleOnly, 0.95, some time.range, "", false, mode⟩
  else
    return ⟨.hybridTimed, 0.90, some time.range, String.ofList content, false, mode⟩

/-- The decision for a query for notes. Where most words look like proper nouns,
the words themselves weigh more than the meaning. -/
def routeMemo (router : Router) (query : String) : Except Fault Decision := do
  let content ← router.content query.toList
  let words := (Text.words content).length
  if 0 < words && words < Text.countProperNouns content * 2 then
    return ⟨.hybridLexical, 0.85, none, String.ofList content, false, .auto⟩
  else
    return ⟨.memoSemantic, 0.90, none, String.ofList content, false, .auto⟩

/-- The decision for a query that is not blank. -/
def classify (router : Router) (query : String) (now : Instant) : Except Fault Decision := do
  match ← Resolution.resolve query now with
  | some time => router.routeTimed query time
  | none =>
    if holdsAny query.toList router.lexicon.memoKeywords then router.routeMemo query
    else if holdsAny query.toList router.lexicon.questionKeywords then
      return ⟨.reranked, 0.70, none, query, true, .auto⟩
    else return Decision.standard

/-- The decision for a query, seen from `now`. Blanks around it do not count. -/
def route (router : Router) (query : String) (now : Instant) : Except Fault Decision :=
  let trimmed := Text.trim query.toList
  if trimmed.isEmpty then .ok Decision.standard
  else router.classify (String.ofList trimmed) now

end Router

end Daybook

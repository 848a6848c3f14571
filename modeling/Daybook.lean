import Daybook.Main
import Daybook.Retrieval.Request
import Daybook.Retrieval.Run
import Daybook.Retrieval.Session
import Daybook.Proofs.Retrieval.Runs
import Daybook.Proofs.Retrieval.CallOrder
import Daybook.Proofs.Retrieval.Cancellation
import Daybook.Proofs.Retrieval.Isolation
import Daybook.Proofs.Records.Ranking
import Daybook.Proofs.Records.Search
import Daybook.Proofs.Retrieval.MemoSearch
import Daybook.Proofs.Records.Listing
import Daybook.Proofs.Retrieval.Contract
import Daybook.Proofs.Retrieval.Ownership
import Daybook.Proofs.Text.Occurrences
import Daybook.Proofs.Calendar.Years
import Daybook.Proofs.Calendar.Civil
import Daybook.Proofs.Calendar.Upcoming
import Daybook.Proofs.Calendar.Months
import Daybook.Proofs.Time.WrittenNumbers
import Daybook.Proofs.Time.WrittenDates
import Daybook.Proofs.Time.Resolving
import Daybook.Proofs.Text.Words
import Daybook.Proofs.Text.Blanking
import Daybook.Proofs.Time.Stripping
import Daybook.Proofs.Retrieval.Conclusions
import Daybook.Proofs.Retrieval.Degradation
import Daybook.Proofs.Text.Removal
import Daybook.Proofs.Routing.Decisions
import Daybook.Proofs.Time.Preference
import Daybook.Proofs.Time.LonePhrases
import Daybook.Proofs.Time.Bands
import Daybook.Proofs.Toml.Strings
import Daybook.Proofs.Numeric.Decimals
import Daybook.Proofs.Numeric.Rounding
import Daybook.Proofs.Numeric.Shortest
import Daybook.Proofs.Numeric.Scores
import Daybook.Proofs.Toml.Tokens
import Daybook.Proofs.Toml.Values
import Daybook.Proofs.Toml.Documents
import Daybook.Proofs.Settings.Checks
import Daybook.Proofs.Settings.RoundTrip
import Daybook.Proofs.Time.Places
import Daybook.Proofs.Time.SharedCharacters
import Daybook.Proofs.Time.Composition
import Daybook.Proofs.Time.FullDates
import Daybook.Proofs.Time.JoinedPhrases
import Daybook.Proofs.Time.Labels
import Daybook.Proofs.Retrieval.Expansion
import Daybook.Proofs.Text.LetterCase
import Daybook.Proofs.Time.LetterCase
import Daybook.Proofs.Routing.LetterCase
import Daybook.Proofs.Routing.Clock
import Daybook.Proofs.Records.Additions
import Daybook.Proofs.Records.BestHits
import Daybook.Proofs.Records.Windows
import Daybook.Proofs.Retrieval.Reranking
import Daybook.Proofs.Retrieval.TimeFilter
import Daybook.Proofs.Text.Clearing
import Daybook.Proofs.Routing.StopWords
import Daybook.Proofs.Settings.Overrides
import Daybook.Proofs.Settings.VariableOrder
import Daybook.Proofs.Settings.Dates
import Daybook.Proofs.Command.World
import Daybook.Proofs.Command.Environment
import Daybook.Proofs.Command.Init
import Daybook.Proofs.Time.Limits
import Daybook.Proofs.Text.Bytes
import Daybook.Proofs.Text.ByteSearch
import Daybook.Proofs.Time.Cuts
import Daybook.Proofs.Text.Containment
import Daybook.Proofs.Text.OverlapGroups
import Daybook.Proofs.Text.ProperNouns

import Daybook.Retrieval.Request
import Daybook.Settings.Shared

/-!
# The retrieval service

A service answers requests under shared settings. A request is answered under a
snapshot, the settings that are in use when it starts.
-/

namespace Daybook

/-- Settings in use, with what is known about the reranker. -/
structure Service where
  shared : SharedSettings
  /-- Whether a reranker is attached and ready. -/
  rerankerReady : Bool

namespace Service

/-- The program that answers a request which starts now. -/
def retrieve (service : Service) (request : Request) (now : Instant) :
    Retrieval (List SearchResult) :=
  request.retrieve service.shared.snapshot service.rerankerReady now

/-- The service with other settings in use, if they are valid; else with the error. -/
def update (service : Service) (settings : Settings) : Service × Option SettingsError :=
  let (shared, error) := service.shared.update settings
  ({ service with shared }, error)

end Service

end Daybook

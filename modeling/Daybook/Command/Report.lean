import Daybook.Json.Value
import Daybook.Routing.Decision
import Daybook.Settings.Document

/-!
# What the program prints

Decisions are printed as a listing or as JSON, and settings as JSON with the keys
in alphabetical order.
-/

namespace Daybook

/-- A range as JSON. -/
def Range.toJson (r : Range) : Json :=
  .object
    [("start", .string r.start.zulu), ("end", .string r.stop.zulu), ("label", .string r.label)]

namespace Decision

/-- A decision as JSON. A range that is not there is left out. -/
def toJson (d : Decision) : Json :=
  .object
    ([("strategy", .string d.strategy.name), ("confidence", .score d.confidence)] ++
      (d.range.toList.map fun r => ("time_range", r.toJson)) ++
      [("semantic_query", .string d.semanticQuery), ("needs_reranker", .bool d.needsReranker),
        ("schedule_query_mode", .string d.mode.name)])

/-- The lines about the time range of a decision. -/
def rangeLines (d : Decision) : List String :=
  match d.range with
  | none => ["Time range: none"]
  | some r =>
    ["Time range: " ++ r.label,
      "  Start:    " ++ r.start.listingForm,
      "  End:      " ++ r.stop.listingForm,
      "  Mode:     " ++ d.mode.name]

/-- The lines that describe a decision. -/
def listing (d : Decision) : List String :=
  let yesNo := fun b => if b then "yes" else "no"
  ["Strategy:   " ++ d.strategy.name,
    "            " ++ d.strategy.description,
    "Confidence: " ++ d.confidence.twoPlaces] ++
    d.rangeLines ++
    ["Semantic:   " ++ (if d.semanticQuery.isEmpty then "(none)" else d.semanticQuery),
      "Hybrid:     " ++ yesNo d.strategy.isHybrid,
      "Reranker:   " ++ yesNo d.needsReranker]

end Decision

namespace Settings

/-- A value of the settings as JSON. -/
def Field.toJson : Field → Json
  | .text s => .string s
  | .size n => .nat n
  | .score x => .wideScore x
  | .flag b => .bool b
  | .words items => .array (items.map .string)

/-- The members of an object in the order of their keys. -/
def sortedByKey {α : Type} (members : List (String × α)) : List (String × α) :=
  members.mergeSort fun a b => a.1 ≤ b.1

/-- The sections of some settings as JSON, in the order of their names. -/
def jsonSections (s : Settings) : List (String × Json) :=
  sortedByKey <| s.sections.map fun (name, fields) =>
    (name, .object (sortedByKey (fields.map fun (key, field) => (key, field.toJson))))

/-- All settings, or one section of them, as JSON. -/
def toJson (s : Settings) (name : Option String) : Except SettingsError Json :=
  match name with
  | none => .ok (.object s.jsonSections)
  | some name =>
    match Toml.lookup? name s.jsonSections with
    | some json => .ok json
    | none => .error (.unknownSection name)

end Settings

end Daybook

import Daybook.Proofs.Settings.Checks
import Daybook.Proofs.Toml.Documents
import Daybook.Settings.Document

/-!
# Settings that are written and read

Valid settings are written as a document unless one of the three sizes without an upper limit
is too large for 64 bits, and they are read back from that document.
-/

namespace Daybook.Settings

open Numeric

variable {s : Settings}

namespace Field

variable {field : Field}

/-- The text of a field, whether it is too large to be written or not. -/
def written : Field → List Char
  | .text s => Toml.writeString s
  | .size n => digits n
  | .score x => Toml.writeFloat (BinaryFormat.double.convert x.toNumber)
  | .flag b => if b then "true".toList else "false".toList
  | .words items => Toml.writeStrings items

/-- The value that a field is read back as. -/
def value : Field → Toml.Value
  | .text s => .string s
  | .size n => .integer n
  | .score x => .float (BinaryFormat.double.convert x.toNumber)
  | .flag b => .boolean b
  | .words items => .array (items.map .string)

/-- Whether a field is not too large to be written. -/
def isWritable : Field → Bool
  | .size n => n < 2 ^ 63
  | _ => true

/-- A field that is written and read back. -/
def Fits : Field → Prop
  | .size n => n < 2 ^ 63
  | .score x => x.IsFinite
  | _ => True

/-- A field is written as its text, unless it is too large. -/
theorem write?_eq (field : Field) :
    field.write? = if field.isWritable then some field.written else none := by
  cases field with
  | size n => simp [write?, isWritable, written]
  | text s => rfl
  | score x => rfl
  | flag b => rfl
  | words items => rfl

/-- A field that fits is written. -/
theorem Fits.isWritable (h : field.Fits) : field.isWritable = true := by
  cases field with
  | size n => exact decide_eq_true h
  | _ => rfl

/-- The text of a field that fits is read back as its value. -/
theorem Fits.standsFor (h : field.Fits) : Toml.StandsFor field.written field.value := by
  cases field with
  | text s => exact Toml.standsFor_writeString s
  | size n => exact Toml.standsFor_digits h
  | score x =>
    obtain ⟨negative, mantissa, exponent, hwide, -, hnormal⟩ := Score.exists_widened h
    rw [written, value, hwide]
    exact Toml.standsFor_writeFloat hnormal
  | flag b => exact Toml.standsFor_boolean b
  | words items => exact Toml.standsFor_writeStrings items

end Field

/-- Whether no field of a section is too large to be written. -/
def isWritable (fields : List (String × Field)) : Bool :=
  fields.all fun member => member.2.isWritable

/-- Texts that may be missing are put together if none is. -/
theorem mapM_guard {α β : Type} (p : α → Bool) (f : α → β) (xs : List α) :
    xs.mapM (fun a => if p a then some (f a) else none) =
      if xs.all p then some (xs.map f) else none := by
  induction xs with
  | nil => rfl
  | cons a xs ih =>
    rw [List.mapM_cons, ih]
    cases hp : p a with
    | false => simp [hp]
    | true => cases hall : xs.all p <;> simp [hp, hall]

/-- A section is written as a table of its fields, unless one of them is too large. -/
theorem writeSection?_eq (name : String) (fields : List (String × Field)) :
    writeSection? name fields = if isWritable fields then
      some (Toml.writeTable name (Toml.memberLines Field.written fields)) else none := by
  have hline : ∀ member : String × Field, member.2.write?.map (Toml.writeLine member.1) =
      if member.2.isWritable then some (Toml.writeLine member.1 member.2.written) else none := by
    intro member
    rw [Field.write?_eq]
    split <;> rfl
  change (fields.mapM fun member => member.2.write?.map (Toml.writeLine member.1)) >>= _ = _
  rw [funext hline, mapM_guard]
  unfold isWritable
  split <;> rfl

/-- Settings are written unless a field is too large. -/
theorem write_eq (s : Settings) : s.write =
    if s.sections.all fun table => isWritable table.2 then
      .ok (String.ofList (Toml.documentText Field.written s.sections))
    else .error .notWritable := by
  have htables : (s.sections.mapM fun table => writeSection? table.1 table.2) =
      if s.sections.all fun table => isWritable table.2 then
        some (s.sections.map fun table =>
          Toml.writeTable table.1 (Toml.memberLines Field.written table.2))
      else none := by
    rw [funext fun table : String × List (String × Field) => writeSection?_eq table.1 table.2]
    exact mapM_guard _ _ _
  unfold write
  cases hall : s.sections.all fun table => isWritable table.2 with
  | true =>
    rw [hall, if_pos rfl] at htables
    split
    · rename_i hsome
      cases htables.symm.trans hsome
      rfl
    · rename_i hnone
      cases htables.symm.trans hnone
  | false =>
    rw [hall, if_neg Bool.false_ne_true] at htables
    split
    · rename_i hsome
      cases htables.symm.trans hsome
    · rfl

/-- A field whose sizes lie below a bound is read back from a value. -/
def Field.IsReadFrom (bound : ℕ) : Field → Toml.Value → Prop
  | .text s, v => readText? v = some s
  | .size n, v => readSize? bound v = some n
  | .score x, v => readScore? v = some x
  | .flag b, v => readFlag? v = some b
  | .words items, v => readWords? v = some items

/-- A list of strings is read as the words that it was written for. -/
theorem readWords?_strings (items : List String) :
    readWords? (.array (items.map .string)) = some items := by
  have hitems : (items.map Toml.Value.string).mapM readText? = some items := by
    induction items with
    | nil => rfl
    | cons s items ih => simp [ih, readText?]
  exact hitems

/-- A size is read back from its number if the number is below the bound of its type. -/
theorem isReadFrom_size {bound n : ℕ} (h : n < bound) :
    (Field.size n).IsReadFrom bound (Field.size n).value :=
  if_pos ⟨Int.natCast_nonneg n, Int.ofNat_lt.mpr h⟩

/-- A field that fits is read back from its value, whatever the width of its sizes. -/
theorem Field.Fits.isReadFrom {field : Field} {bound : ℕ} (h : field.Fits)
    (hbound : 2 ^ 63 ≤ bound) : field.IsReadFrom bound field.value := by
  cases field with
  | text s => rfl
  | size n => exact isReadFrom_size (Nat.lt_of_lt_of_le h hbound)
  | score x =>
    obtain ⟨negative, mantissa, exponent, hwide, hback, -⟩ := Score.exists_widened h
    rw [IsReadFrom, value, hwide, readScore?, hback]
  | flag b => rfl
  | words items => exact readWords?_strings items

section Sections

variable {value : Field → Toml.Value}

/-- Every field of a section is read back from its value, whichever values these are. -/
def AreReadFrom (bound : ℕ) (value : Field → Toml.Value) (fields : List (String × Field)) : Prop :=
  ∀ member ∈ fields, member.2.IsReadFrom bound (value member.2)

/-- The values of a section are put in place one by one. -/
theorem readSection?_tableValue {α : Type} (assign? : α → String → Toml.Value → Option α)
    (fields : α → List (String × Field)) (start : α) (members : List (String × Field)) :
    readSection? assign? fields start (some (Toml.tableValue value members)) =
      members.foldlM (fun current member => assign? current member.1 (value member.2)) start := by
  unfold readSection? Toml.tableValue
  dsimp only
  rw [membersOf?, Option.bind_eq_bind, Option.bind_some, List.foldlM_map]

/-- The version and the dates are read back from their table. -/
theorem readMeta?_tableValue {about : Meta} (timestamp : String)
    (h : AreReadFrom UInt64.size value about.fields) :
    readMeta? timestamp (Toml.tableValue value about.fields) = some about := by
  simp only [AreReadFrom, Meta.fields, List.forall_mem_cons, Field.IsReadFrom] at h
  obtain ⟨hversion, hcreated, hmodified, -⟩ := h
  have hsection : ∀ start, readSection? Meta.assign? Meta.fields start
      (some (Toml.tableValue value about.fields)) = some about := by
    intro start
    simp [readSection?_tableValue, Meta.fields, Meta.assign?, hversion, hcreated, hmodified]
  unfold readMeta?
  dsimp only
  rw [hsection]
  rfl

/-- The limits for times are read back from their table, whatever stood there before. -/
theorem readSection?_timeLimits {start limits : TimeLimits}
    (h : AreReadFrom UInt32.size value limits.fields) :
    readSection? TimeLimits.assign? TimeLimits.fields start
      (some (Toml.tableValue value limits.fields)) = some limits := by
  simp only [AreReadFrom, TimeLimits.fields, List.forall_mem_cons, Field.IsReadFrom] at h
  obtain ⟨hfuture, hrange, -⟩ := h
  simp [readSection?_tableValue, TimeLimits.fields, TimeLimits.assign?, hfuture, hrange]

/-- The limits for queries are read back from their table. -/
theorem readSection?_queryLimits {start limits : QueryLimits}
    (h : AreReadFrom UInt64.size value limits.fields) :
    readSection? QueryLimits.assign? QueryLimits.fields start
      (some (Toml.tableValue value limits.fields)) = some limits := by
  simp only [AreReadFrom, QueryLimits.fields, List.forall_mem_cons, Field.IsReadFrom] at h
  obtain ⟨hlength, hresults, hscore, hlimit, -⟩ := h
  simp [readSection?_tableValue, QueryLimits.fields, QueryLimits.assign?, hlength, hresults,
    hscore, hlimit]

/-- The sizes of retrieval passes are read back from their table. -/
theorem readSection?_retrieval {start sizes : RetrievalLimits}
    (h : AreReadFrom UInt64.size value sizes.fields) :
    readSection? RetrievalLimits.assign? RetrievalLimits.fields start
      (some (Toml.tableValue value sizes.fields)) = some sizes := by
  simp only [AreReadFrom, RetrievalLimits.fields, List.forall_mem_cons, Field.IsReadFrom] at h
  obtain ⟨hvector, hhybrid, hexpand, hreranker, hdoc, hdescription, htimeout, -⟩ := h
  simp [readSection?_tableValue, RetrievalLimits.fields, RetrievalLimits.assign?, hvector,
    hhybrid, hexpand, hreranker, hdoc, hdescription, htimeout]

/-- The weights and thresholds are read back from their table. -/
theorem readSection?_scoring {start scoring : Scoring}
    (h : AreReadFrom UInt64.size value scoring.fields) :
    readSection? Scoring.assign? Scoring.fields start
      (some (Toml.tableValue value scoring.fields)) = some scoring := by
  simp only [AreReadFrom, Scoring.fields, List.forall_mem_cons, Field.IsReadFrom] at h
  obtain ⟨hmin, hmax, hsemantic, hhigh, hmedium, hquality, hgap, hrerank, -⟩ := h
  simp [readSection?_tableValue, Scoring.fields, Scoring.assign?, hmin, hmax, hsemantic, hhigh,
    hmedium, hquality, hgap, hrerank]

/-- The word lists are read back from their table. -/
theorem readSection?_lexicon {start lexicon : Lexicon}
    (h : AreReadFrom UInt64.size value lexicon.fields) :
    readSection? Lexicon.assign? Lexicon.fields start
      (some (Toml.tableValue value lexicon.fields)) = some lexicon := by
  simp only [AreReadFrom, Lexicon.fields, List.forall_mem_cons, Field.IsReadFrom] at h
  obtain ⟨hstop, hschedule, hmemo, hquestion, hcomplex, -⟩ := h
  simp [readSection?_tableValue, Lexicon.fields, Lexicon.assign?, hstop, hschedule, hmemo,
    hquestion, hcomplex]

/-- The settings of a document are read section by section. -/
theorem ofMembers?_sections (timestamp : String)
    (h : ∀ table ∈ s.sections, AreReadFrom UInt64.size value table.2)
    (hdays : AreReadFrom UInt32.size value s.timeRange.fields) :
    ofMembers? timestamp (s.sections.map fun table => (table.1, Toml.tableValue value table.2)) =
      some s := by
  simp only [sections, List.forall_mem_cons] at h
  obtain ⟨hmeta, -, hquery, hretrieval, hscoring, hlexicon, -⟩ := h
  simp [ofMembers?, sections, Toml.lookup?, readMeta?_tableValue timestamp hmeta,
    readSection?_timeLimits hdays, readSection?_queryLimits hquery,
    readSection?_retrieval hretrieval, readSection?_scoring hscoring,
    readSection?_lexicon hlexicon]

end Sections

/-- The names of the sections and the keys of each. -/
def names (s : Settings) : List (String × List String) :=
  s.sections.map fun table => (table.1, table.2.map (·.1))

/-- The names in a document do not depend on the values of the settings. -/
theorem names_eq_default (s : Settings) : s.names = (default "").names := rfl

/-- No name in the document of some settings needs quotes. -/
theorem names_isBare (s : Settings) :
    ∀ table ∈ s.names, Toml.IsBare table.1 ∧ ∀ key ∈ table.2, Toml.IsBare key := by
  rw [names_eq_default]
  decide +kernel

/-- The sections have different names, and so have the fields of each. -/
theorem names_nodup (s : Settings) :
    (s.names.map (·.1)).Nodup ∧ ∀ table ∈ s.names, table.2.Nodup := by
  rw [names_eq_default]
  decide +kernel

/-- The fields of a section are written and read back. -/
def FitsAll (fields : List (String × Field)) : Prop := ∀ member ∈ fields, member.2.Fits

/-- The fields of the settings are written and read back. -/
structure Fits (s : Settings) : Prop where
  fields : ∀ table ∈ s.sections, FitsAll table.2
  /-- Days are numbers of 32 bits. -/
  days : s.timeRange.maxFutureDays < UInt32.size ∧ s.timeRange.maxRangeDays < UInt32.size

/-- Settings are read back from their document. -/
theorem read_document (timestamp : String) (h : s.Fits) :
    read timestamp (String.ofList (Toml.documentText Field.written s.sections)) = .ok s := by
  have hreadable : ∀ table ∈ s.sections, Toml.IsBare table.1 ∧
      Toml.IsReadable Field.written Field.value table.2 := by
    intro table htable
    obtain ⟨hname, hkeys⟩ := names_isBare s _ (List.mem_map_of_mem htable)
    exact ⟨hname, fun member hmember => ⟨hkeys _ (List.mem_map_of_mem hmember),
      (h.fields table htable member hmember).standsFor⟩⟩
  have hnames : (s.sections.map (·.1)).Nodup := by
    have hnodup := (names_nodup s).1
    rw [names, List.map_map] at hnodup
    exact hnodup
  have hkeys : ∀ table ∈ s.sections, (table.2.map (·.1)).Nodup := fun table htable =>
    (names_nodup s).2 _ (List.mem_map_of_mem htable)
  have hsize : 2 ^ 63 ≤ UInt64.size := by decide
  have hdays : AreReadFrom UInt32.size Field.value s.timeRange.fields := by
    simp only [AreReadFrom, TimeLimits.fields, List.forall_mem_cons]
    exact ⟨isReadFrom_size h.days.1, isReadFrom_size h.days.2, by simp⟩
  have hmembers : ofMembers? timestamp
      (s.sections.map fun table => (table.1, Toml.tableValue Field.value table.2)) = some s :=
    ofMembers?_sections timestamp (fun table htable member hmember =>
      (h.fields table htable member hmember).isReadFrom hsize) hdays
  unfold read
  rw [Toml.read?_documentText hreadable hnames hkeys, Option.bind_some]
  rw [hmembers]

/-- The sizes that no check limits from above are small enough for a document. -/
structure IsSmall (s : Settings) : Prop where
  description : s.retrieval.maxDescriptionLength < 2 ^ 63
  timeout : s.retrieval.callTimeoutMs < 2 ^ 63
  results : s.scoring.minRerankResults < 2 ^ 63

/-- A size that is limited far enough below the range of integers fits. -/
theorem fits_size {n limit : ℕ} (h : n ≤ limit) (hlimit : limit < 2 ^ 63) :
    (Field.size n).Fits := Nat.lt_of_le_of_lt h hlimit

/-- Limits for times that pass the check fit. -/
theorem fitsAll_timeLimits {limits : TimeLimits} (h : checkTimeLimits limits = []) :
    FitsAll limits.fields := by
  simp only [checkTimeLimits, List.append_eq_nil_iff, checkBetween_eq_nil_iff] at h
  obtain ⟨⟨-, hfuture⟩, -, hrange⟩ := h
  simp only [FitsAll, TimeLimits.fields, List.forall_mem_cons]
  exact ⟨fits_size hfuture (by decide), fits_size hrange (by decide), by simp⟩

/-- Limits for queries that pass the check fit. -/
theorem fitsAll_queryLimits {limits : QueryLimits} (h : checkQueryLimits limits = []) :
    FitsAll limits.fields := by
  simp only [checkQueryLimits, checkLimit, List.append_eq_nil_iff, checkBetween_eq_nil_iff] at h
  obtain ⟨⟨⟨⟨-, hlength⟩, -, hresults⟩, -, hlimit⟩, hscore⟩ := h
  simp only [FitsAll, QueryLimits.fields, List.forall_mem_cons]
  exact ⟨fits_size hlength (by decide), fits_size hresults (by decide),
    isFinite_of_checkUnit hscore, fits_size hlimit (by decide), by simp⟩

/-- Sizes of retrieval passes that pass the check fit, if the two that are not limited from above
do. -/
theorem fitsAll_retrieval {sizes : RetrievalLimits} (h : checkRetrieval sizes = [])
    (hdescription : sizes.maxDescriptionLength < 2 ^ 63) (htimeout : sizes.callTimeoutMs < 2 ^ 63) :
    FitsAll sizes.fields := by
  simp only [checkRetrieval, checkLimit, List.append_eq_nil_iff, checkBetween_eq_nil_iff] at h
  obtain ⟨⟨⟨⟨⟨⟨⟨-, hvector⟩, -, hhybrid⟩, -, hexpand⟩, -⟩, -, hdoc⟩, -⟩, -⟩ := h
  simp only [FitsAll, RetrievalLimits.fields, List.forall_mem_cons]
  exact ⟨fits_size hvector (by decide), fits_size hhybrid (by decide),
    fits_size hexpand (by decide), trivial, fits_size hdoc (by decide), hdescription, htimeout,
    by simp⟩

/-- Weights and thresholds that pass the check fit, if the size that is not limited from above
does. -/
theorem fitsAll_scoring {scoring : Scoring} (h : checkScoring scoring = [])
    (hresults : scoring.minRerankResults < 2 ^ 63) : FitsAll scoring.fields := by
  simp only [checkScoring, List.append_eq_nil_iff] at h
  obtain ⟨⟨⟨⟨⟨⟨⟨⟨⟨hmin, hmax⟩, hsemantic⟩, hhigh⟩, hmedium⟩, hquality⟩, hgap⟩, -⟩, -⟩, -⟩ := h
  simp only [FitsAll, Scoring.fields, List.forall_mem_cons]
  exact ⟨isFinite_of_checkUnit hmin, isFinite_of_checkUnit hmax, isFinite_of_checkUnit hsemantic,
    isFinite_of_checkUnit hhigh, isFinite_of_checkUnit hmedium, isFinite_of_checkUnit hquality,
    isFinite_of_checkUnit hgap, hresults, by simp⟩

/-- The checks limit all other sizes, and all scores. -/
theorem fits_of_isValid (hvalid : s.isValid = true) (hsmall : s.IsSmall) : s.Fits := by
  obtain ⟨-, hdays, hquery, hretrieval, hscoring, -⟩ := isValid_iff.mp hvalid
  refine ⟨?_, ?_⟩
  · simp only [sections, List.forall_mem_cons]
    refine ⟨?_, fitsAll_timeLimits hdays, fitsAll_queryLimits hquery,
      fitsAll_retrieval hretrieval hsmall.description hsmall.timeout,
      fitsAll_scoring hscoring hsmall.results, ?_, by simp⟩
    · simp [FitsAll, Meta.fields, Field.Fits]
    · simp [FitsAll, Lexicon.fields, Field.Fits]
  · simp only [checkTimeLimits, List.append_eq_nil_iff, checkBetween_eq_nil_iff] at hdays
    obtain ⟨⟨-, hfuture⟩, -, hrange⟩ := hdays
    exact ⟨Nat.lt_of_le_of_lt hfuture (by decide), Nat.lt_of_le_of_lt hrange (by decide)⟩

/-- Settings that fit are written. -/
theorem write_of_fits (h : s.Fits) :
    s.write = .ok (String.ofList (Toml.documentText Field.written s.sections)) := by
  rw [write_eq, if_pos]
  refine List.all_eq_true.mpr fun table htable => List.all_eq_true.mpr fun member hmember => ?_
  exact (h.fields table htable member hmember).isWritable

/-- Settings are not written if a size is too large. -/
theorem write_of_not_isSmall (h : ¬s.IsSmall) : s.write = .error .notWritable := by
  rw [write_eq, if_neg]
  intro hall
  have hsize : ∀ name key n, ∀ fields, (name, fields) ∈ s.sections →
      (key, Field.size n) ∈ fields → n < 2 ^ 63 := by
    intro name key n fields htable hmember
    exact of_decide_eq_true (List.all_eq_true.mp (List.all_eq_true.mp hall _ htable) _ hmember)
  have hretrieval : ("retrieval", s.retrieval.fields) ∈ s.sections := by simp [sections]
  have hscoring : ("scoring", s.scoring.fields) ∈ s.sections := by simp [sections]
  refine h ⟨?_, ?_, ?_⟩
  · exact hsize _ "max_description_length" _ _ hretrieval (by simp [RetrievalLimits.fields])
  · exact hsize _ "call_timeout_ms" _ _ hretrieval (by simp [RetrievalLimits.fields])
  · exact hsize _ "min_rerank_results" _ _ hscoring (by simp [Scoring.fields])

/-- No variable belongs to the settings. -/
def IsUnrelated (environment : List (String × String)) : Prop :=
  ∀ entry ∈ environment, ¬OverrideKey.commonFront.toList <+: entry.1.toList

/-- A variable without the common front belongs to no key. -/
theorem ofVariable?_eq_none {name : String}
    (h : ¬OverrideKey.commonFront.toList <+: name.toList) :
    OverrideKey.ofVariable? name = none := by
  refine List.find?_eq_none.mpr fun key _ hkey => h ?_
  rw [← eq_of_beq hkey, OverrideKey.variableName, String.toList_append]
  exact List.prefix_append _ _

/-- Other variables leave the settings as they are. -/
theorem applyOverrides_of_isUnrelated {environment : List (String × String)}
    (h : IsUnrelated environment) : s.applyOverrides environment = (s, none) := by
  induction environment with
  | nil => rfl
  | cons entry environment ih =>
    obtain ⟨name, value⟩ := entry
    obtain ⟨hname, hrest⟩ := List.forall_mem_cons.mp h
    rw [applyOverrides, ofVariable?_eq_none hname]
    exact ih hrest

/-- Valid settings are left as they are by variables that belong to no key. -/
theorem finish_of_isValid {environment : List (String × String)} (hvalid : s.isValid = true)
    (h : IsUnrelated environment) : s.finish environment = .ok s := by
  rw [finish, applyOverrides_of_isUnrelated h]
  dsimp only
  rw [validate, if_pos hvalid]
  rfl

/-- Valid settings are either written as a document that gives them back when no variable
overrides them, or not written because a size does not fit a document. -/
theorem load_write (s : Settings) (timestamp : String) (environment : List (String × String))
    (hvalid : s.isValid = true) (henvironment : IsUnrelated environment) :
    (∃ text, s.write = .ok text ∧ load timestamp (.text text) environment = .ok s) ∨
      s.write = .error .notWritable ∧
        (9223372036854775807 < s.retrieval.maxDescriptionLength ∨
          9223372036854775807 < s.retrieval.callTimeoutMs ∨
          9223372036854775807 < s.scoring.minRerankResults) := by
  by_cases hsmall : s.IsSmall
  · have hfits := fits_of_isValid hvalid hsmall
    refine .inl ⟨_, write_of_fits hfits, ?_⟩
    rw [load, read_document timestamp hfits]
    exact finish_of_isValid hvalid henvironment
  · refine .inr ⟨write_of_not_isSmall hsmall, ?_⟩
    by_contra hnone
    simp only [not_or, Nat.not_lt] at hnone
    obtain ⟨hdescription, htimeout, hresults⟩ := hnone
    exact hsmall ⟨Nat.lt_succ_of_le hdescription, Nat.lt_succ_of_le htimeout,
      Nat.lt_succ_of_le hresults⟩

/-- Marks in rows, backslashes, line breaks and control characters come back too. -/
theorem load_write_marks :
    let s : Settings := { Settings.default "\x22 \x27\x27\x27 \x01" with
      lexicon.stopWords := ["\x22", "\x27\x27\x27", "笔记\n\x22\x22\x22\x22", "\x5c\t\x27\x07"] }
    (s.isValid = true ∧ IsUnrelated [("PATH", "/bin")]) ∧
      ∃ text, s.write = .ok text ∧ load "" (.text text) [("PATH", "/bin")] = .ok s := by
  intro s
  have hvalid : s.isValid = true := by decide +kernel
  have henvironment : IsUnrelated [("PATH", "/bin")] := by
    unfold IsUnrelated
    decide
  refine ⟨⟨hvalid, henvironment⟩, (load_write s "" _ hvalid henvironment).resolve_right ?_⟩
  rintro ⟨-, hsize⟩
  revert hsize
  decide

end Daybook.Settings

import Daybook.Proofs.Toml.Values

/-!
# Documents that are written and read

A document is written table by table, under bare names and keys. It is read back statement by
statement, and the statements put together the same tables: a header adds a table at the end
of the document, and an assignment adds a value at the end of the last table.
-/

namespace Daybook.Toml

variable {key name : String} {text rest cs : List Char} {value : Value} {fuel limit : ℕ}

/-- A key that is written without quotes. -/
def IsBare (key : String) : Prop := key.toList ≠ [] ∧ ∀ c ∈ key.toList, isBareKeyChar c = true

/-- Whether a key needs no quotes can be evaluated. -/
instance : DecidablePred IsBare := fun key =>
  decidable_of_iff ((!key.toList.isEmpty && key.toList.all isBareKeyChar) = true)
    (by simp [IsBare])

/-- A bare key has a first character, which needs no quotes. -/
theorem IsBare.exists_cons (h : IsBare key) :
    ∃ c cs, key.toList = c :: cs ∧ isBareKeyChar c = true := by
  obtain ⟨c, cs, hkey⟩ := List.exists_cons_of_ne_nil h.1
  exact ⟨c, cs, hkey, h.2 c (hkey ▸ List.mem_cons_self)⟩

/-- The characters of bare keys are those of tokens. -/
theorem isTokenChar_of_isBareKeyChar {c : Char} (h : isBareKeyChar c = true) :
    isTokenChar c = true := by
  simp only [isBareKeyChar, Bool.or_eq_true, beq_iff_eq] at h
  rcases h with (h | rfl) | rfl
  · simp [isTokenChar, h]
  · rfl
  · rfl

/-- Nothing of a bare key is skipped. -/
theorem IsBare.beginsSolid (h : IsBare key) : BeginsSolid key.toList := by
  obtain ⟨c, cs, hkey, hc⟩ := h.exists_cons
  exact ⟨c, cs, hkey, isSolid_of_isTokenChar (isTokenChar_of_isBareKeyChar hc)⟩

/-- A bare key is read back as a whole where it does not go on. -/
theorem readKeyPart?_bare (h : IsBare key) (hrest : ∀ c ∈ rest.head?, isBareKeyChar c = false) :
    readKeyPart? (key.toList ++ rest) = some (key, rest) := by
  obtain ⟨hfront, hback⟩ := split_front h.2 hrest
  obtain ⟨c, cs, hkey, hc⟩ := h.exists_cons
  have hne : ∀ d, isBareKeyChar d = false → c ≠ d := by
    rintro d hd rfl
    simp [hc] at hd
  rw [readKeyPart?]
  · rw [hfront, hback, String.ofList_toList, if_neg (by simp [hkey])]
  · rw [hkey]
    exact fun _ heq => hne '\x22' rfl (List.cons.inj heq).1
  · rw [hkey]
    exact fun _ heq => hne '\x27' rfl (List.cons.inj heq).1

/-- A bare key without points has one part. -/
theorem readKey?_bare (h : IsBare key) (hrest : ∀ c ∈ rest.head?, isBareKeyChar c = false)
    (hpoint : (skipBlank rest).head? ≠ some '.') :
    readKey? (limit + 1) (key.toList ++ rest) = some ([key], skipBlank rest) := by
  rw [readKey?, (h.beginsSolid.append rest).skipBlank, readKeyPart?_bare h hrest]
  simp only [Option.bind_eq_bind, Option.bind_some]
  split
  · rename_i heq
    simp [heq] at hpoint
  · rfl

/-- No line that begins with a bare key is the head of a table. -/
theorem IsBare.ne_bracket (h : IsBare key) (rest cs : List Char) :
    key.toList ++ rest ≠ '[' :: cs := by
  obtain ⟨c, ds, hkey, hc⟩ := h.exists_cons
  rw [hkey]
  rintro heq
  obtain rfl := (List.cons.inj heq).1
  simp [isBareKeyChar, Char.isAlphanum] at hc

/-- The head of a table is read as the name in it. -/
theorem readStatement?_table (h : IsBare name) :
    readStatement? ('[' :: (name.toList ++ ']' :: rest)) = some (.table [name], rest) := by
  have hkey : readKey? depthLimit (name.toList ++ ']' :: rest) = some ([name], ']' :: rest) :=
    readKey?_bare h (by rintro c ⟨⟩; rfl) (by simp [skipBlank])
  rw [readStatement?]
  · rw [hkey]
    rfl
  · exact h.ne_bracket _

/-- A line with a key and a value is read as their assignment. -/
theorem readStatement?_assign (h : IsBare key) (hvalue : StandsFor text value) :
    readStatement? (key.toList ++ ' ' :: '=' :: ' ' :: (text ++ '\n' :: rest)) =
      some (.assign [key] value, '\n' :: rest) := by
  have hkey : readKey? depthLimit (key.toList ++ ' ' :: '=' :: ' ' :: (text ++ '\n' :: rest)) =
      some ([key], '=' :: ' ' :: (text ++ '\n' :: rest)) :=
    readKey?_bare h (by rintro c ⟨⟩; rfl) (by simp [skipBlank])
  have hmark : Text.readMark? '=' ('=' :: ' ' :: (text ++ '\n' :: rest)) =
      some (' ' :: (text ++ '\n' :: rest)) := rfl
  rw [readStatement?]
  · rw [hkey]
    simp only [Option.bind_eq_bind, Option.bind_some, hmark]
    rw [skipBlank_space, (hvalue.beginsSolid.append _).skipBlank,
      hvalue.readValue? _ _ (by simp; omega)]
    rfl
  · exact fun cs => h.ne_bracket _ _
  · exact h.ne_bracket _

/-- A text that nothing is skipped of is not at the end of a line. -/
theorem BeginsSolid.readLineEnd? (h : BeginsSolid cs) : readLineEnd? cs = none := by
  unfold Toml.readLineEnd?
  rw [h.skipBlank, h.skipComment]
  obtain ⟨c, cs, rfl, hc⟩ := id h
  exact h.readBreak?

/-- A text is read as a row of statements. -/
def ReadsAs (cs : List Char) (statements : List Statement) : Prop :=
  ∀ fuel, cs.length ≤ fuel → readStatements? fuel cs = some statements

variable {statement : Statement} {statements : List Statement} {line : List Char}

/-- Nothing is read as no statements. -/
theorem readsAs_nil : ReadsAs [] [] := fun fuel _ => by cases fuel <;> rfl

/-- An empty line is passed over. -/
theorem ReadsAs.emptyLine (h : ReadsAs cs statements) : ReadsAs ('\n' :: cs) statements := by
  intro fuel hfuel
  obtain ⟨fuel, rfl⟩ := Nat.exists_eq_add_one.mpr (Nat.zero_lt_of_lt hfuel)
  exact h fuel (Nat.le_of_succ_le_succ hfuel)

/-- A line is read as one statement. -/
theorem ReadsAs.cons (hsolid : BeginsSolid line)
    (hline : readStatement? (line ++ '\n' :: rest) = some (statement, '\n' :: rest))
    (h : ReadsAs rest statements) : ReadsAs (line ++ '\n' :: rest) (statement :: statements) := by
  intro fuel hfuel
  obtain ⟨fuel, rfl⟩ : ∃ k, fuel = k + 1 := Nat.exists_eq_add_of_le' (by simp at hfuel; omega)
  have hend := (hsolid.append ('\n' :: rest)).readLineEnd?
  rw [readStatements?, if_neg (by simp), hend]
  simp only [(hsolid.append _).skipBlank, hline, Option.bind_eq_bind, Option.bind_some]
  have hrest : readLineEnd? ('\n' :: rest) = some rest := rfl
  rw [hrest, Option.bind_some, h fuel (by simp at hfuel; omega)]
  rfl

section Tables

variable {α : Type} {write : α → List Char} {value : α → Value} {members : List (String × α)}
  {tables : List (String × List (String × α))}

/-- The lines of the members of a table. -/
def memberLines (write : α → List Char) (members : List (String × α)) : List Char :=
  members.flatMap fun (key, a) => writeLine key (write a)

/-- The statements that give values to the members of a table. -/
def assignments (value : α → Value) (members : List (String × α)) : List Statement :=
  members.map fun (key, a) => .assign [key] (value a)

/-- The text of a document of tables. -/
def documentText (write : α → List Char) (tables : List (String × List (String × α))) :
    List Char :=
  ['\n'].intercalate (tables.map fun (name, members) => writeTable name (memberLines write members))

/-- The statements of a document of tables. -/
def tableStatements (value : α → Value) (tables : List (String × List (String × α))) :
    List Statement :=
  tables.flatMap fun (name, members) => .table [name] :: assignments value members

/-- The keys of a table are bare, and its values are read back from their texts. -/
def IsReadable (write : α → List Char) (value : α → Value) (members : List (String × α)) : Prop :=
  ∀ member ∈ members, IsBare member.1 ∧ StandsFor (write member.2) (value member.2)

/-- The lines of some members are read as their assignments, before what follows. -/
theorem readsAs_memberLines (h : IsReadable write value members) (hrest : ReadsAs rest statements) :
    ReadsAs (memberLines write members ++ rest) (assignments value members ++ statements) := by
  induction members with
  | nil => exact hrest
  | cons member members ih =>
    obtain ⟨key, a⟩ := member
    obtain ⟨⟨hkey, hvalue⟩, hmembers⟩ := List.forall_mem_cons.mp h
    have htext : memberLines write ((key, a) :: members) ++ rest =
        (key.toList ++ ' ' :: '=' :: ' ' :: write a) ++
          '\n' :: (memberLines write members ++ rest) := by
      simp [memberLines, writeLine]
    rw [htext]
    refine ReadsAs.cons (hkey.beginsSolid.append _) ?_ (ih hmembers)
    rw [List.append_assoc]
    exact readStatement?_assign hkey hvalue

/-- A table that is written is read as its head and the assignments of its members. -/
theorem readsAs_writeTable (hname : IsBare name) (h : IsReadable write value members)
    (hrest : ReadsAs rest statements) :
    ReadsAs (writeTable name (memberLines write members) ++ rest)
      (.table [name] :: assignments value members ++ statements) := by
  have htext : writeTable name (memberLines write members) ++ rest =
      ('[' :: name.toList ++ [']']) ++ '\n' :: (memberLines write members ++ rest) := by
    simp [writeTable]
  rw [htext]
  refine ReadsAs.cons ⟨_, _, rfl, rfl⟩ ?_ (readsAs_memberLines h hrest)
  rw [List.append_assoc]
  exact readStatement?_table hname

/-- A document is read as the statements of its tables. -/
theorem readsAs_documentText
    (h : ∀ table ∈ tables, IsBare table.1 ∧ IsReadable write value table.2) :
    ReadsAs (documentText write tables) (tableStatements value tables) := by
  induction tables with
  | nil => exact readsAs_nil
  | cons table tables ih =>
    obtain ⟨⟨hname, hmembers⟩, htables⟩ := List.forall_mem_cons.mp h
    cases tables with
    | nil =>
      have hread := readsAs_writeTable hname hmembers readsAs_nil
      simpa [documentText, tableStatements] using hread
    | cons next tables =>
      have hread := readsAs_writeTable hname hmembers (ih htables).emptyLine
      simpa [documentText, tableStatements, List.intercalate_cons_cons] using hread

variable {inner done : Members} {node old : Node} {header : List String} {v : Value}

/-- Nothing is found under a key that no entry has. -/
theorem lookup?_eq_none {β : Type} {entries : List (String × β)}
    (h : key ∉ entries.map (·.1)) : lookup? key entries = none := by
  unfold lookup?
  rw [Option.map_eq_none_iff, List.find?_eq_none]
  intro entry hentry hkey
  exact h (List.mem_map.mpr ⟨entry, hentry, eq_of_beq hkey⟩)

/-- A new entry at the end is found under its key. -/
theorem lookup?_concat {β : Type} {entries : List (String × β)} {b : β}
    (h : key ∉ entries.map (·.1)) : lookup? key (entries ++ [(key, b)]) = some b := by
  have hnone := lookup?_eq_none h
  unfold lookup? at hnone ⊢
  rw [Option.map_eq_none_iff] at hnone
  rw [List.find?_append, hnone]
  simp

/-- What is put under the key of the last entry takes the place of its node. -/
theorem put_concat (h : key ∉ done.map (·.1)) :
    Members.put key node (done ++ [(key, old)]) = done ++ [(key, node)] := by
  induction done with
  | nil => simp [Members.put]
  | cons entry done ih =>
    simp only [List.map_cons, List.mem_cons, not_or] at h
    simp [Members.put, Ne.symm h.1, ih h.2]

/-- The header of a table adds an empty table at the end of the document. -/
theorem perform?_table (h : name ∉ done.map (·.1)) :
    Draft.perform? ⟨header, done⟩ (.table [name]) =
      some ⟨[name], done ++ [(name, .table .explicit [])]⟩ := by
  simp [Draft.perform?, Members.openTable?, Members.change?, lookup?_eq_none h]

/-- An assignment adds a value at the end of the last table. -/
theorem perform?_assign (hname : name ∉ done.map (·.1)) (hkey : key ∉ inner.map (·.1)) :
    Draft.perform? ⟨[name], done ++ [(name, .table .explicit inner)]⟩ (.assign [key] v) =
      some ⟨[name], done ++ [(name, .table .explicit (inner ++ [(key, .leaf v)]))]⟩ := by
  have hassign : Members.assign? [key] v .explicit inner = some (inner ++ [(key, .leaf v)]) := by
    simp [Members.assign?, Members.change?, lookup?_eq_none hkey]
  simp [Draft.perform?, Members.change?, lookup?_concat hname, hassign, put_concat hname]

/-- The members of a table while a document is put together. -/
def leaves (value : α → Value) (members : List (String × α)) : Members :=
  members.map fun (key, a) => (key, .leaf (value a))

/-- The assignments of a table add its members one by one: the open table stays the last one of
the document, behind those that are done. -/
theorem foldlM_assignments (hname : name ∉ done.map (·.1))
    (hkeys : (inner.map (·.1) ++ members.map (·.1)).Nodup) :
    (assignments value members).foldlM Draft.perform?
        ⟨[name], done ++ [(name, .table .explicit inner)]⟩ =
      some ⟨[name], done ++ [(name, .table .explicit (inner ++ leaves value members))]⟩ := by
  induction members generalizing inner with
  | nil => simp [assignments, leaves]
  | cons member members ih =>
    obtain ⟨key, a⟩ := member
    have hkey : key ∉ inner.map (·.1) := by
      intro hmem
      exact (List.nodup_append.mp hkeys).2.2 key hmem key List.mem_cons_self rfl
    have hnext := @ih (inner ++ [(key, .leaf (value a))]) (by simpa using hkeys)
    rw [assignments, List.map_cons, List.foldlM_cons, perform?_assign hname hkey,
      Option.bind_eq_bind, Option.bind_some, ← assignments, hnext]
    simp [leaves]

/-- The tables of a document as they are put together. -/
def nodes (value : α → Value) (tables : List (String × List (String × α))) : Members :=
  tables.map fun (name, members) => (name, .table .explicit (leaves value members))

/-- The statements of a document add its tables one by one. -/
theorem foldlM_tableStatements (hnames : (done.map (·.1) ++ tables.map (·.1)).Nodup)
    (hkeys : ∀ table ∈ tables, (table.2.map (·.1)).Nodup) :
    ((tableStatements value tables).foldlM Draft.perform? ⟨header, done⟩).map Draft.root =
      some (done ++ nodes value tables) := by
  induction tables generalizing header done with
  | nil => simp [tableStatements, nodes]
  | cons table tables ih =>
    obtain ⟨name, members⟩ := table
    obtain ⟨hmembers, htables⟩ := List.forall_mem_cons.mp hkeys
    have hname : name ∉ done.map (·.1) := by
      intro hmem
      exact (List.nodup_append.mp hnames).2.2 name hmem name List.mem_cons_self rfl
    have hnext := @ih (done ++ [(name, .table .explicit (leaves value members))]) [name]
      (by simpa using hnames) htables
    have hstatements : tableStatements value ((name, members) :: tables) =
        .table [name] :: (assignments value members ++ tableStatements value tables) := rfl
    rw [hstatements, List.foldlM_cons, perform?_table hname, Option.bind_eq_bind,
      Option.bind_some, List.foldlM_append, foldlM_assignments hname (by simpa using hmembers),
      Option.bind_eq_bind, Option.bind_some, List.nil_append, hnext]
    simp [nodes]

/-- The values of members are those of their nodes, one by one. -/
theorem values_eq_map (members : Members) :
    Node.values members = members.map fun (key, node) => (key, node.value) := by
  induction members with
  | nil => rfl
  | cons member members ih =>
    obtain ⟨key, node⟩ := member
    rw [Node.values, ih, List.map_cons]

/-- A table with its members. -/
def tableValue (value : α → Value) (members : List (String × α)) : Value :=
  .table (members.map fun (key, a) => (key, value a))

/-- The statements of a document make up its tables. -/
theorem ofStatements?_tableStatements (hnames : (tables.map (·.1)).Nodup)
    (hkeys : ∀ table ∈ tables, (table.2.map (·.1)).Nodup) :
    ofStatements? (tableStatements value tables) =
      some (tables.map fun table => (table.1, tableValue value table.2)) := by
  have hroot : ((tableStatements value tables).foldlM Draft.perform? {}).map Draft.root =
      some (nodes value tables) := foldlM_tableStatements (by simpa using hnames) hkeys
  obtain ⟨draft, hdraft, hnodes⟩ := Option.map_eq_some_iff.mp hroot
  rw [ofStatements?, hdraft, Option.map_some, hnodes, values_eq_map]
  simp [nodes, leaves, tableValue, Node.value, values_eq_map]

/-- A document does not begin with a byte order mark. -/
theorem dropByteOrderMark_documentText :
    dropByteOrderMark (documentText write tables) = documentText write tables := by
  cases tables with
  | nil => rfl
  | cons table tables =>
    cases tables with
    | nil => simp [documentText, writeTable, dropByteOrderMark]
    | cons next tables =>
      simp [documentText, writeTable, List.intercalate_cons_cons, dropByteOrderMark]

/-- The tables of a document are read back from its text, if no name and no key of a table
stands twice. -/
theorem read?_documentText
    (h : ∀ table ∈ tables, IsBare table.1 ∧ IsReadable write value table.2)
    (hnames : (tables.map (·.1)).Nodup) (hkeys : ∀ table ∈ tables, (table.2.map (·.1)).Nodup) :
    read? (String.ofList (documentText write tables)) =
      some (tables.map fun table => (table.1, tableValue value table.2)) := by
  have hstatements := readsAs_documentText h _ (Nat.le_refl _)
  unfold read?
  rw [String.toList_ofList, dropByteOrderMark_documentText]
  dsimp only
  rw [hstatements, Option.bind_eq_bind, Option.bind_some]
  exact ofStatements?_tableStatements hnames hkeys

end Tables

end Daybook.Toml

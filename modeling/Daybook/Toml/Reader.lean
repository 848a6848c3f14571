import Daybook.Toml.Lexeme

/-!
# Values and statements of TOML

Arrays and inline tables hold values, at most 79 levels deep. A document is a row
of statements, each on a line of its own: a header opens a table or a new item of
an array of tables, and an assignment gives a value to a key.
-/

namespace Daybook.Toml

/-- How deep arrays and inline tables may be nested, and how many parts a key may
have. -/
def depthLimit : Nat := 79

/-- A member of a table before members with common keys are joined. -/
abbrev Assignment := List String × Value

/-- One statement of a document. -/
inductive Statement where
  /-- The header of a table. -/
  | table (path : List String)
  /-- The header of an item of an array of tables. -/
  | item (path : List String)
  | assign (path : List String) (value : Value)

/-- Where a table comes from. -/
inductive Origin where
  /-- A header or braces define the table. -/
  | explicit
  /-- The header of a table within the table implies it. -/
  | implied
  /-- A key with points implies the table. -/
  | dotted
  deriving DecidableEq, Repr

/-- A document while it is put together. -/
inductive Node where
  | leaf (value : Value)
  | table (origin : Origin) (members : List (String × Node))
  /-- The items of an array of tables, the last one first. -/
  | items (last : List (String × Node)) (before : List (List (String × Node)))

/-- The members of a table. -/
abbrev Members := List (String × Node)

/-- The members with a new value under a key, in its old place or at the end. -/
def Members.put (key : String) (node : Node) : Members → Members
  | [] => [(key, node)]
  | (k, old) :: members =>
    if k == key then (key, node) :: members else (k, old) :: Members.put key node members

/-- Changes the members of the table at a path, given its origin. Tables that are
missing on the way are made; a key with points may not enter a table that is
defined on its own. -/
def Members.change? (byKey : Bool) (f : Origin → Members → Option Members) :
    List String → Origin → Members → Option Members
  | [], origin, members => f origin members
  | key :: path, _, members =>
    match lookup? key members with
    | none => do
      let origin := if byKey then .dotted else .implied
      let inner ← Members.change? byKey f path origin []
      return Members.put key (.table origin inner) members
    | some (.leaf _) => none
    | some (.table origin inner) =>
      if byKey && origin == .explicit then none
      else do
        let inner ← Members.change? byKey f path origin inner
        return Members.put key (.table origin inner) members
    | some (.items last before) => do
      let last ← Members.change? byKey f path .explicit last
      return Members.put key (.items last before) members

/-- Gives a value to a key within a table. No key gets a value twice. -/
def Members.assign? (path : List String) (value : Value) (origin : Origin) (members : Members) :
    Option Members :=
  let insert := fun (key : String) (origin : Origin) (inner : Members) =>
    let byPoints := decide (1 < path.length)
    if (origin == .dotted) != byPoints || (lookup? key inner).isSome then none
    else some (inner ++ [(key, Node.leaf value)])
  match path.getLast? with
  | none => none
  | some key => Members.change? true (insert key) path.dropLast origin members

/-- Opens a table. A table that is defined already is not opened again. -/
def Members.openTable? (path : List String) (root : Members) : Option Members :=
  let define := fun (key : String) (_ : Origin) (members : Members) =>
    match lookup? key members with
    | none => some (members ++ [(key, Node.table .explicit [])])
    | some (.table .implied inner) => some (Members.put key (.table .explicit inner) members)
    | some _ => none
  match path.getLast? with
  | none => none
  | some key => Members.change? false (define key) path.dropLast .explicit root

/-- Adds an item to an array of tables. -/
def Members.openItem? (path : List String) (root : Members) : Option Members :=
  let extend := fun (key : String) (_ : Origin) (members : Members) =>
    match lookup? key members with
    | none => some (members ++ [(key, Node.items [] [])])
    | some (.items last before) => some (Members.put key (.items [] (last :: before)) members)
    | some _ => none
  match path.getLast? with
  | none => none
  | some key => Members.change? false (extend key) path.dropLast .explicit root

mutual

/-- The value that a node has in the end. -/
def Node.value : Node → Value
  | .leaf value => value
  | .table _ members => .table (Node.values members)
  | .items last before => .array (Node.tables before [.table (Node.values last)])

/-- The values of the members of a table. -/
def Node.values : List (String × Node) → List (String × Value)
  | [] => []
  | (key, node) :: members => (key, node.value) :: Node.values members

/-- Items in their order, given the last ones first, in front of later ones. -/
def Node.tables : List (List (String × Node)) → List Value → List Value
  | [], later => later
  | item :: before, later => Node.tables before (.table (Node.values item) :: later)

end

/-- The table that some assignments make up. -/
def tableOf? (assignments : List Assignment) : Option Value :=
  (assignments.foldlM (fun members (path, value) => Members.assign? path value .explicit members)
    []).map fun members => .table (Node.values members)

/-- Reads a value that is one token, or a date followed by a space and a time. -/
def readToken? (cs : List Char) : Option (Value × List Char) :=
  let token := cs.takeWhile isTokenChar
  let rest := cs.dropWhile isTokenChar
  if token == "true".toList then some (.boolean true, rest)
  else if token == "false".toList then some (.boolean false, rest)
  else if isTime token then some (.dateTime, rest)
  else
    match readDate? token with
    | some [] =>
      match rest with
      | ' ' :: next =>
        if next.head?.any Char.isDigit then
          if isTimeWithOffset (next.takeWhile isTokenChar) then
            some (.dateTime, next.dropWhile isTokenChar)
          else none
        else some (.dateTime, rest)
      | _ => some (.dateTime, rest)
    | some (c :: time) =>
      if (c == 'T' || c == 't') && isTimeWithOffset time then some (.dateTime, rest) else none
    | none =>
      match readInteger? token with
      | some n => some (.integer n, rest)
      | none => (readFloat? token).map fun x => (.float x, rest)

mutual

/-- Reads a value, at most `depth` levels of arrays and inline tables deep. -/
def readValue? : (fuel depth : Nat) → List Char → Option (Value × List Char)
  | 0, _, _ => none
  | fuel + 1, depth, cs =>
    match cs with
    | '\x22' :: _ | '\x27' :: _ =>
      (readString? cs).map fun (text, rest) => (.string (String.ofList text), rest)
    | '[' :: cs =>
      match depth with
      | 0 => none
      | depth + 1 => (readItems? fuel depth cs).map fun (items, rest) => (.array items, rest)
    | '\x7b' :: cs =>
      match depth with
      | 0 => none
      | depth + 1 => do
        let (assignments, rest) ←
          match skipBlank cs with
          | '\x7d' :: rest => some ([], rest)
          | cs => readAssignments? fuel depth cs
        return (← tableOf? assignments, rest)
    | cs => readToken? cs

/-- Reads the items of an array up to its closing bracket. A comma may stand after
the last item. -/
def readItems? : (fuel depth : Nat) → List Char → Option (List Value × List Char)
  | 0, _, _ => none
  | fuel + 1, depth, cs =>
    match skipLines cs.length cs with
    | ']' :: rest => some ([], rest)
    | cs => do
      let (item, cs) ← readValue? fuel depth cs
      match skipLines cs.length cs with
      | ']' :: rest => return ([item], rest)
      | ',' :: cs =>
        let (items, rest) ← readItems? fuel depth cs
        return (item :: items, rest)
      | _ => none

/-- Reads the members of an inline table, at least one, up to its closing brace. -/
def readAssignments? : (fuel depth : Nat) → List Char → Option (List Assignment × List Char)
  | 0, _, _ => none
  | fuel + 1, depth, cs => do
    let (path, cs) ← readKey? depthLimit cs
    let cs ← Text.readMark? '=' cs
    let (value, cs) ← readValue? fuel depth (skipBlank cs)
    match skipBlank cs with
    | '\x7d' :: rest => return ([(path, value)], rest)
    | ',' :: cs =>
      let (assignments, rest) ← readAssignments? fuel depth cs
      return ((path, value) :: assignments, rest)
    | _ => none

end

/-- Reads one statement, up to the end of its line. -/
def readStatement? : List Char → Option (Statement × List Char)
  | '[' :: '[' :: cs => do
    let (path, cs) ← readKey? depthLimit cs
    let cs ← Text.readMark? ']' (← Text.readMark? ']' cs)
    return (.item path, cs)
  | '[' :: cs => do
    let (path, cs) ← readKey? depthLimit cs
    return (.table path, ← Text.readMark? ']' cs)
  | cs => do
    let (path, cs) ← readKey? depthLimit cs
    let cs ← Text.readMark? '=' cs
    let (value, cs) ← readValue? (2 * cs.length + 2) depthLimit (skipBlank cs)
    return (.assign path value, cs)

/-- Reads the statements of a text. Each takes at least one character, so the
length of the text is fuel enough. -/
def readStatements? : (fuel : Nat) → List Char → Option (List Statement)
  | 0, cs => if cs.isEmpty then some [] else none
  | fuel + 1, cs =>
    if cs.isEmpty then some []
    else
      match readLineEnd? cs with
      | some rest => readStatements? fuel rest
      | none => do
        let (statement, cs) ← readStatement? (skipBlank cs)
        let rest ← readLineEnd? cs
        return statement :: (← readStatements? fuel rest)

/-- A document while its statements are put into effect. -/
structure Draft where
  /-- The path of the table that is open. -/
  header : List String := []
  root : Members := []

/-- Puts a statement into effect. -/
def Draft.perform? (draft : Draft) : Statement → Option Draft
  | .table path => (Members.openTable? path draft.root).map (Draft.mk path)
  | .item path => (Members.openItem? path draft.root).map (Draft.mk path)
  | .assign path value =>
    (Members.change? false (Members.assign? path value) draft.header .explicit draft.root).map
      (Draft.mk draft.header)

/-- The members of the document that statements make up. -/
def ofStatements? (statements : List Statement) : Option (List (String × Value)) :=
  (statements.foldlM Draft.perform? {}).map fun draft => Node.values draft.root

/-- The text without a byte order mark at its start. -/
def dropByteOrderMark : List Char → List Char
  | '\uFEFF' :: cs => cs
  | cs => cs

/-- Reads a document. -/
def read? (text : String) : Option (List (String × Value)) := do
  let cs := dropByteOrderMark text.toList
  ofStatements? (← readStatements? cs.length cs)

end Daybook.Toml

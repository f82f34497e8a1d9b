import PeerCache.Toml.Number
import PeerCache.Toml.Table

/-!
# Settings files

A file is a sequence of statements, one a line: a header that opens a table or one more table
of a list, or a key with its value. `parse?` reads the statements and then carries them out;
a file is refused as a whole or comes to one table.
-/

namespace PeerCache.Toml

open Reader

/-- A dotted key has fewer parts than this, and values lie within fewer others. -/
def nestingLimit : Nat := 80

def key (limit : Nat) : Reader Key := do
  let part : Reader String := do
    blanks
    let name ← simpleKey limit
    blanks
    return name
  let parts ← separated part (literal ['.']) limit
  match parts.getLast? with
  | some name => if parts.length < nestingLimit then return { path := parts.dropLast, name }
  | none => pure ()
  failure

def comment : Reader Unit := do
  literal ['#']
  let _ ← span isPrintable

/-- What may stand between the items of an array. -/
def gap (limit : Nat) : Reader Unit := do
  let _ ← many ((do let _ ← char isBlank) <|> newline <|> do comment; newline) limit

def boolean : Reader Value :=
  (do literal "true".toList; return .boolean true) <|>
  (do literal "false".toList; return .boolean false)

/-- A value that holds no others. -/
def scalar (limit : Nat) : Reader Value :=
  (do return .text (← text limit)) <|> moment limit <|> decimal limit <|> endless <|>
    integer limit <|> boolean <|> (do literal ['[', ']']; return .array [])

/-- Values in brackets; a comma may follow the last one. -/
def array (limit : Nat) (value : Reader Value) : Reader Value := do
  let item : Reader Value := do
    gap limit
    let v ← value
    gap limit
    return v
  literal ['[']
  let items ← maybe (do
    let items ← separated item (literal [',']) limit
    let _ ← maybe (literal [','])
    return items)
  gap limit
  literal [']']
  return .array (items.getD [])

/-- A key and its value. -/
def pair (limit : Nat) (value : Reader Value) : Reader (Key × Value) := do
  let k ← key limit
  literal ['=']
  blanks
  return (k, ← value)

/-- Keys with values between braces, on one line and without a comma at the end. -/
def inlineTable (limit : Nat) (value : Reader Value) : Reader Value := do
  let entry : Reader (Key × Value) := do
    let p ← pair limit value
    blanks
    return p
  literal ['\x7b']
  let pairs ← maybe (separated entry (literal [',']) limit)
  blanks
  literal ['\x7d']
  match Entries.ofPairs (pairs.getD []) with
  | some entries => return .table (Entries.values entries)
  | none => failure

/-- A value that holds others down to some depth. -/
def value (limit : Nat) : Nat → Reader Value
  | 0 => scalar limit
  | depth + 1 =>
    scalar limit <|> array limit (value limit depth) <|> inlineTable limit (value limit depth)

inductive Statement where
  | blank
  | assign (key : Key) (value : Value)
  | openTable (key : Key)
  | openItem (key : Key)

def lineEnd : Reader Unit := do
  blanks
  let _ ← maybe comment
  newline <|> atEnd

def header (limit : Nat) (brackets : Nat) : Reader Key := do
  literal (List.replicate brackets '[')
  let k ← key limit
  literal (List.replicate brackets ']')
  lineEnd
  return k

def statement (limit : Nat) : Reader Statement := do
  blanks
  (do newline; return .blank) <|>
    (do comment; newline <|> atEnd; return .blank) <|>
    (do return .openItem (← header limit 2)) <|>
    (do return .openTable (← header limit 1)) <|> do
      let (k, v) ← pair limit (value limit (nestingLimit - 1))
      lineEnd
      return .assign k v

/-- All statements of a file, which may begin with a byte order mark. -/
def statements (limit : Nat) : Reader (List Statement) := do
  let _ ← maybe (literal ['\ufeff'])
  let found ← many (statement limit) limit
  blanks
  atEnd
  return found

/-- A file half carried out: the tables so far and the path of the one that is open. -/
structure Draft where
  entries : Entries := []
  current : List String := []

def Draft.apply (d : Draft) : Statement → Option Draft
  | .blank => some d
  | .assign k v =>
    (Entries.change .implied (Entries.insert k v) d.current .opened d.entries).map fun entries =>
      { d with entries }
  | .openTable k => (Entries.openTable k d.entries).map fun entries => ⟨entries, k.parts⟩
  | .openItem k => (Entries.openItem k d.entries).map fun entries => ⟨entries, k.parts⟩

/-- The table that a file comes to. -/
def parse? (content : List Char) : Option Value := do
  let (found, _) ← statements content.length content
  let draft ← found.foldlM Draft.apply {}
  return .table (Entries.values draft.entries)

end PeerCache.Toml

import PeerCache.Toml.Value

/-!
# Tables in the making

A file builds its tables piece by piece: a header opens a table, a dotted key makes the
tables that it leads through, and both may come back to tables that are there. What may be
extended depends on how a table came to be. A table that a header opened is opened once; one
that only lay on the way to another header can still be opened; one that dotted keys made can
grow by dotted keys alone. A value is never extended.
-/

namespace PeerCache.Toml

/-- How a table came to be. -/
inductive Made where
  | opened
  /-- It lay on the way to a table that was opened. -/
  | implied
  /-- A dotted key leads through it. -/
  | dotted
  deriving DecidableEq, Repr

inductive Node where
  | leaf (value : Value)
  | table (made : Made) (entries : List (String × Node))
  /-- A list of tables that grows by headers: those that are finished, the latest first, and
  the one that is open. -/
  | series (finished : List Value) (entries : List (String × Node))

abbrev Entries := List (String × Node)

mutual

def Node.value : Node → Value
  | .leaf value => value
  | .table _ entries => .table (Entries.values entries)
  | .series finished entries => .array (finished.reverse ++ [.table (Entries.values entries)])

def Entries.values : List (String × Node) → List (String × Value)
  | [] => []
  | (key, node) :: rest => (key, node.value) :: Entries.values rest

end

/-- A key that may lead through tables: `a.b.c` gives the table `a.b` a value under `c`. -/
structure Key where
  path : List String
  name : String

def Key.parts (key : Key) : List String :=
  key.path ++ [key.name]

namespace Entries

/-- Put a node in the place of the one with the same key, or behind the others. -/
def put (key : String) (node : Node) : Entries → Entries
  | [] => [(key, node)]
  | e :: rest => if e.1 = key then (key, node) :: rest else e :: put key node rest

/-- Change the table that a path leads to. Tables that are missing are made on the way; a
list of tables is entered at the one that is open. -/
def change (made : Made) (f : Made → Entries → Option Entries) :
    List String → Made → Entries → Option Entries
  | [], own, entries => f own entries
  | key :: rest, _, entries =>
    match entries.lookup key with
    | none => (change made f rest made []).map fun inner => put key (.table made inner) entries
    | some (.leaf _) => none
    | some (.table own inner) =>
      if made = .dotted ∧ own = .opened then none
      else (change made f rest own inner).map fun inner => put key (.table own inner) entries
    | some (.series finished inner) =>
      (change made f rest .opened inner).map fun inner =>
        put key (.series finished inner) entries

/-- Give a key a value that it does not have yet. -/
def insert (key : Key) (value : Value) (own : Made) (entries : Entries) : Option Entries :=
  change .dotted (fun made entries =>
    if (key.path ≠ [] ∧ made ≠ .dotted) ∨ (entries.lookup key.name).isSome then none
    else some (entries ++ [(key.name, .leaf value)])) key.path own entries

/-- Open the table of a header. -/
def openTable (key : Key) (entries : Entries) : Option Entries :=
  change .implied (fun _ entries =>
    match entries.lookup key.name with
    | none => some (put key.name (.table .opened []) entries)
    | some (.table .implied inner) => some (put key.name (.table .opened inner) entries)
    | some _ => none) key.path .opened entries

/-- Open one more table of a list of tables. -/
def openItem (key : Key) (entries : Entries) : Option Entries :=
  change .implied (fun _ entries =>
    match entries.lookup key.name with
    | none => some (put key.name (.series [] []) entries)
    | some (.series finished inner) =>
      some (put key.name (.series (.table (values inner) :: finished) []) entries)
    | some _ => none) key.path .opened entries

/-- A table of keys with values, as it is written between braces. -/
def ofPairs (pairs : List (Key × Value)) : Option Entries :=
  pairs.foldlM (fun entries pair => insert pair.1 pair.2 .opened entries) []

end Entries

end PeerCache.Toml

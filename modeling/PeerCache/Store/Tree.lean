import PeerCache.Store.Basic

/-!
# File trees

A file holds bytes and a directory holds named entries. Every operation follows a path name
by name and fails the way a file system does: a missing name is not found, and a path that
goes on behind a file meets something that is not a directory. An operation that fails
leaves nothing changed, because it returns no tree.
-/

namespace PeerCache

abbrev Path := List String

inductive Tree where
  | file (content : Bytes)
  | dir (entries : List (String × Tree))

namespace Tree

abbrev Entries := List (String × Tree)

namespace Entries

/-- Put an entry in the place of the one with the same name, or behind the others. -/
def put (name : String) (tree : Tree) : Entries → Entries
  | [] => [(name, tree)]
  | e :: rest => if e.1 = name then (name, tree) :: rest else e :: put name tree rest

def erase (name : String) (entries : Entries) : Entries :=
  entries.filter fun e => e.1 != name

end Entries

def empty : Tree := .dir []

def isDir : Tree → Bool
  | .dir _ => true
  | .file _ => false

/-- What a path leads to. -/
def find : Path → Tree → Except IoError Tree
  | [], tree => .ok tree
  | _ :: _, .file _ => .error .notDirectory
  | name :: rest, .dir entries =>
    match entries.lookup name with
    | none => .error .notFound
    | some tree => find rest tree

/-- Change the entries of the directory at a path. -/
def modify (change : Entries → Except IoError Entries) : Path → Tree → Except IoError Tree
  | _, .file _ => .error .notDirectory
  | [], .dir entries => (change entries).map .dir
  | name :: rest, .dir entries =>
    match entries.lookup name with
    | none => .error .notFound
    | some tree => (modify change rest tree).map fun tree => .dir (Entries.put name tree entries)

/-- A directory at a path that does not exist yet, with those above it. -/
def newDirs : Path → Tree
  | [] => empty
  | name :: rest => .dir [(name, newDirs rest)]

/-- Make a path lead to a directory, creating what is missing. -/
def makeDirs : Path → Tree → Except IoError Tree
  | [], .dir entries => .ok (.dir entries)
  | [], .file _ => .error .alreadyExists
  | _ :: _, .file _ => .error .notDirectory
  | name :: rest, .dir entries =>
    match entries.lookup name with
    | none => .ok (.dir (Entries.put name (newDirs rest) entries))
    | some tree => (makeDirs rest tree).map fun tree => .dir (Entries.put name tree entries)

def read (path : Path) (tree : Tree) : Except IoError Bytes :=
  match find path tree with
  | .ok (.file content) => .ok content
  | .ok (.dir _) => .error .isDirectory
  | .error e => .error e

/-- Write a file in a directory, over the content of a file that is there. -/
def write (folder : Path) (name : String) (content : Bytes) : Tree → Except IoError Tree :=
  modify (fun entries =>
    match entries.lookup name with
    | some (.dir _) => .error .isDirectory
    | _ => .ok (Entries.put name (.file content) entries)) folder

/-- Remove a file from a directory. -/
def remove (folder : Path) (name : String) : Tree → Except IoError Tree :=
  modify (fun entries =>
    match entries.lookup name with
    | none => .error .notFound
    | some (.dir _) => .error .isDirectory
    | some (.file _) => .ok (Entries.erase name entries)) folder

/-- Give a file of a directory another name, in the place of a file that has it. -/
def rename (folder : Path) (old new : String) : Tree → Except IoError Tree :=
  modify (fun entries =>
    match entries.lookup old, entries.lookup new with
    | none, _ => .error .notFound
    | some _, some (.dir _) => .error .isDirectory
    | some tree, _ => .ok (Entries.put new tree (Entries.erase old entries))) folder

/-- Remove a directory with everything below it. -/
def removeDir (folder : Path) (name : String) : Tree → Except IoError Tree :=
  modify (fun entries =>
    match entries.lookup name with
    | none => .error .notFound
    | some (.file _) => .error .notDirectory
    | some (.dir _) => .ok (Entries.erase name entries)) folder

/-- The entries of the directory at a path. -/
def entriesAt (path : Path) (tree : Tree) : Except IoError Entries :=
  match find path tree with
  | .ok (.dir entries) => .ok entries
  | .ok (.file _) => .error .notDirectory
  | .error e => .error e

def inNameOrder (blocks : List (String × List String)) : List (String × List String) :=
  blocks.mergeSort fun a b => a.1 ≤ b.1

mutual

/-- One line per file and directory from a tree on, each directory before what it holds. -/
def lines (name : String) : Tree → List String
  | .file content => [name ++ " " ++ Nat.repr content.length]
  | .dir entries =>
    (name ++ "/") :: (inNameOrder (entryLines (name ++ "/") entries)).flatMap (·.2)

/-- The lines of each entry, with the entry's name. -/
def entryLines (above : String) : List (String × Tree) → List (String × List String)
  | [] => []
  | (name, tree) :: rest => (name, lines (above ++ name) tree) :: entryLines above rest

end

/-- The lines of everything below a directory. -/
def listing : Tree → List String
  | .file _ => []
  | .dir entries => (inNameOrder (entryLines "" entries)).flatMap (·.2)

end Tree

/-- The names that a relative path goes through. -/
def Path.ofText (text : String) : Path :=
  ((text.toList.splitOn '/').filter fun name => name ≠ [] ∧ name ≠ ['.']).map String.ofList

end PeerCache

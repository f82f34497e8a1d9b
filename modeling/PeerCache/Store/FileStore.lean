import PeerCache.Digest.Blake3
import PeerCache.Store.Tree

/-!
# File store

A value lies in a file of its own under the base directory, at `ab/cd/abcd…`, where the last
name is the hash of the key in hexadecimal and the two directories are its first digits. A
value is written to a temporary file beside it and then renamed, so a reader sees the old
value or the new one. What other files lie in the tree is left alone.
-/

namespace PeerCache

structure FileStore where
  tree : Tree
  /-- The directory that the values lie under. -/
  base : Path
  /-- Number of temporary files used so far; the next one is named after it. -/
  written : Nat := 0

namespace FileStore

/-- A store under a directory, which is created when it is missing. -/
def openAt (base : Path) (tree : Tree) : Except IoError FileStore :=
  (tree.makeDirs base).map fun tree => { tree, base }

def digest (key : String) : List Char :=
  Hex.encode (Blake3.hash (utf8 key))

def fileName (key : String) : String :=
  String.ofList (digest key)

/-- The directory that the file of a key lies in. -/
def folder (s : FileStore) (key : String) : Path :=
  let digits := digest key
  s.base ++ [String.ofList (digits.take 2), String.ofList ((digits.drop 2).take 2)]

def temporaryName (s : FileStore) (key : String) : String :=
  fileName key ++ "." ++ Nat.repr s.written ++ ".tmp"

def get (s : FileStore) (key : String) : Reply FileStore (Option Bytes) :=
  { after := s
    answer :=
      match s.tree.read (s.folder key ++ [fileName key]) with
      | .ok value => .ok (some value)
      | .error .notFound => .ok none
      | .error e => .error (.io e) }

def set (s : FileStore) (key : String) (value : Bytes) : Reply FileStore Unit :=
  match s.tree.makeDirs (s.folder key) with
  | .error e => { answer := .error (.io e), after := s }
  | .ok ready =>
    let next := { s with written := s.written + 1 }
    match ready.write (s.folder key) (s.temporaryName key) value with
    | .error e => { answer := .error (.io e), after := { next with tree := ready } }
    | .ok full =>
      match full.rename (s.folder key) (s.temporaryName key) (fileName key) with
      | .ok tree => { answer := .ok (), after := { next with tree } }
      | .error e =>
        let tree := (full.remove (s.folder key) (s.temporaryName key)).toOption.getD full
        { answer := .error (.io e), after := { next with tree } }

def delete (s : FileStore) (key : String) : Reply FileStore Unit :=
  match s.tree.remove (s.folder key) (fileName key) with
  | .ok tree => { answer := .ok (), after := { s with tree } }
  | .error .notFound => { answer := .ok (), after := s }
  | .error e => { answer := .error (.io e), after := s }

instance : ByteStore FileStore where
  get := get
  set := set
  delete := delete

def isFanOutDigit (c : Char) : Bool :=
  c.isDigit || ('a' ≤ c && c ≤ 'f')

/-- The directories that values lie under: two digits of a hash. -/
def isFanOut (entry : String × Tree) : Bool :=
  entry.1.toList.length == 2 && entry.1.toList.all isFanOutDigit && entry.2.isDir

/-- Remove all values and answer how many directories held them. -/
def clear (s : FileStore) : Reply FileStore Nat :=
  let cleared : Except IoError (Nat × Tree) := do
    let entries ← s.tree.entriesAt s.base
    let tree ← s.tree.modify (fun entries => .ok (entries.filter fun e => !isFanOut e)) s.base
    return ((entries.filter isFanOut).length, tree)
  match cleared with
  | .ok (count, tree) => { answer := .ok count, after := { s with tree } }
  | .error e => { answer := .error (.io e), after := s }

/-- Everything below the base directory, one line each. -/
def listing (s : FileStore) : List String :=
  match s.tree.find s.base with
  | .ok tree => tree.listing
  | .error _ => []

/-- Change the tree, or leave it when the change is refused. -/
def change (s : FileStore) (f : Tree → Except IoError Tree) : Reply FileStore Unit :=
  match f s.tree with
  | .ok tree => { answer := .ok (), after := { s with tree } }
  | .error e => { answer := .error (.io e), after := s }

/-- Directory and name that a path below the base directory ends in. -/
def place? (s : FileStore) (path : Path) : Option (Path × String) :=
  (s.base ++ path).getLast?.map fun name => ((s.base ++ path).dropLast, name)

def makeDirs (s : FileStore) (path : Path) : Reply FileStore Unit :=
  s.change fun tree => tree.makeDirs (s.base ++ path)

/-- Apply an operation on a directory and a name in it to a path below the base. -/
def changeAt (s : FileStore) (path : Path) (f : Path → String → Tree → Except IoError Tree) :
    Reply FileStore Unit :=
  s.change fun tree =>
    match s.place? path with
    | some (folder, name) => f folder name tree
    | none => .error .isDirectory

def writeFile (s : FileStore) (path : Path) (content : Bytes) : Reply FileStore Unit :=
  if path = [] then { answer := .error (.io .isDirectory), after := s }
  else s.changeAt path fun folder name => Tree.write folder name content

def removeFile (s : FileStore) (path : Path) : Reply FileStore Unit :=
  s.changeAt path Tree.remove

def removeDir (s : FileStore) (path : Path) : Reply FileStore Unit :=
  s.changeAt path Tree.removeDir

end FileStore

end PeerCache

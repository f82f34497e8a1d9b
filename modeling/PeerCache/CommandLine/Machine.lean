import PeerCache.CommandLine.Run

/-!
# Machines

A machine as a value: its variables and its files. It is alone: whatever it sends is refused,
and it has no address that others could be served at.
-/

namespace PeerCache.CommandLine

structure Machine where
  environment : List (String × String) := []
  files : Tree := .empty

namespace Machine

/-- Make a directory. An empty path asks for nothing. -/
def makeDirs (path : String) (machine : Machine) : Except IoError Unit × Machine :=
  if path.isEmpty then (.ok (), machine)
  else
    match machine.files.makeDirs (Path.ofText path) with
    | .ok files => (.ok (), { machine with files })
    | .error e => (.error e, machine)

/-- Remove the stored values below a directory. Nothing is at an empty path. -/
def clearStore (path : String) (machine : Machine) : Except IoError Unit × Machine :=
  if path.isEmpty then (.error .notFound, machine)
  else
    let r := FileStore.clear { tree := machine.files, base := Path.ofText path }
    match r.answer with
    | .ok _ => (.ok (), { machine with files := r.after.tree })
    | .error (.io e) => (.error e, machine)
    | .error (.task _) => (.ok (), machine)

/-- What becomes of a request where nobody listens. -/
def refused (req : Request) : List String :=
  let cause := "error sending request for url (" ++ req.uri.text ++ ")"
  ["http client error: " ++ cause, cause, "client error (Connect)", "tcp connect error",
   "Connection refused (os error 111)"]

def host : Host (StateM Machine) where
  environment name := do return (← get).environment.lookup name
  memory := return none
  readFile path := do return (← get).files.read (Path.ofText path)
  makeDirs path := makeDirs path
  clearStore path := clearStore path
  send req := return .error (refused req)
  serve endpoint := return .error (if endpoint.isNumeric then .foreign else .unknownHost)

/-- Carry out a command line on a machine. -/
def run (machine : Machine) (words : List String) : Outcome × Machine :=
  (CommandLine.run host words).run machine

end Machine

end PeerCache.CommandLine

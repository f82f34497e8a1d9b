import PeerCache.CommandLine.Machine

/-!
# The program

The command line on the machine that it runs on. Files and variables are the real ones. There
is no network behind it: a request is refused, and no address can be served.
-/

namespace PeerCache.CommandLine

def ioErrorOf : IO.Error → IoError
  | .alreadyExists .. => .alreadyExists
  | .inappropriateType _ code _ => if code = 21 then .isDirectory else .notDirectory
  | _ => .notFound

/-- Do something with files and tell how it failed. -/
def attempt {α : Type} (action : IO α) : IO (Except IoError α) := do
  try
    return .ok (← action)
  catch e =>
    return .error (ioErrorOf e)

/-- The names of the directories that stored values lie under. -/
def fanOutNames : List String :=
  (List.range 256).map fun n => String.ofList (Hex.encode [UInt8.ofNat n])

/-- Remove the stored values below a directory; what is not a directory of values stays. -/
def clearDirectory (path : String) : IO (Except IoError Unit) := do
  if path.isEmpty then return .error .notFound
  for name in fanOutNames do
    let _ ← attempt (IO.FS.removeDirAll (path ++ "/" ++ name))
  return .ok ()

def systemHost : Host IO where
  environment name := IO.getEnv name
  memory := do
    match ← attempt (IO.FS.readFile "/proc/meminfo") with
    | .ok report => return Settings.memoryOf? report.toList
    | .error _ => return none
  readFile path := do
    return (← attempt (IO.FS.readBinFile path)).map fun content => content.toList
  makeDirs path := do
    if path.isEmpty then return .ok ()
    attempt (IO.FS.createDirAll path)
  clearStore := clearDirectory
  send req := return .error (Machine.refused req)
  serve endpoint := return .error (if endpoint.isNumeric then .foreign else .unknownHost)

end PeerCache.CommandLine

open PeerCache CommandLine in
def main (words : List String) : IO UInt32 := do
  let outcome ← run systemHost words
  IO.print outcome.stdout
  IO.eprint outcome.stderr
  return outcome.exit.toUInt32

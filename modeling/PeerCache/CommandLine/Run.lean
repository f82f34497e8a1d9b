import PeerCache.CommandLine.Help
import PeerCache.CommandLine.Listen
import PeerCache.CommandLine.Report
import PeerCache.Http.Reason
import PeerCache.Settings

/-!
# Commands

What each command does, over a host that stands for everything outside: environment, files
and network. `run` decides every step, and a host only carries it out.
-/

namespace PeerCache.CommandLine

/-- What a command needs from outside. -/
structure Host (m : Type → Type) where
  environment : String → m (Option String)
  /-- Bytes of memory of the machine, if they are known. -/
  memory : m (Option Nat)
  readFile : String → m (Except IoError Bytes)
  /-- Create a directory with those above it. -/
  makeDirs : String → m (Except IoError Unit)
  /-- Remove the stored values below a directory. -/
  clearStore : String → m (Except IoError Unit)
  /-- Send a request over the network. -/
  send : Request → m (Except (List String) Response)
  /-- Serve the boundary until the end. -/
  serve : Endpoint → m (Except ListenError Unit)

/-- What a command leaves behind: its exit status and what it printed. -/
structure Outcome where
  exit : Nat
  stdout : String := ""
  stderr : String := ""
  deriving DecidableEq, Repr

namespace Outcome

def printed (text : String) : Outcome :=
  { exit := 0, stdout := text }

def failed (message : String) (causes : List String := []) : Outcome :=
  { exit := 1, stderr := Failure.report { message, causes } }

def misused : Outcome :=
  { exit := 2, stderr := "error: the arguments do not make a command\n\nUsage: " ++
      Level.program.usage ++ "\n\nFor more information, try '--help'.\n" }

end Outcome

/-- A failure of the file system with the layer above it. -/
def storeCauses (e : IoError) : List String :=
  [(StoreError.io e).message, e.message]

def Command.override (settings : Settings) : Command → Settings
  | .start identity listen peers inMemory =>
    { settings with
      identity := identity.getD settings.identity
      listen := listen.getD settings.listen
      peers := if peers.isEmpty then settings.peers else peers
      backend := if inMemory then "memory" else settings.backend }
  | .owner _ | .fetch _ => settings

/-- Print the peer that owns a resource. -/
def owner (settings : Settings) (url : String) : Outcome :=
  match settings.clientRouter.owner? url with
  | some peer => .printed (peer ++ "\n")
  | none => .failed "the pool is empty"

/-- The request for a resource from outside the pool. -/
def resourceRequest (uri : Uri) : Request :=
  { method := .get, uri, version := .http11, headers := .empty, body := [] }

/-- What is printed about a response from the pool. -/
def describeResponse (settings : Settings) (url : String) (resp : Response) : String :=
  let mark := (resp.headers.get? HeaderName.fromCache).bind HeaderValue.text?
  "owner:      " ++ (settings.clientRouter.owner? url).getD "" ++
    "\nstatus:     " ++ resp.status.text ++
    "\nfrom cache: " ++ String.ofList (mark.getD ['-']) ++
    "\nbody:       " ++ Nat.repr resp.body.length ++ " bytes\n"

def unknownBackend (backend : String) : String :=
  "unknown cache backend: " ++ backend ++ " (expected \"memory\" or \"file\")"

section Host

variable {m : Type → Type} [Monad m]

/-- Send a request over the network, which has to be for a web address. -/
def sendToWeb (host : Host m) (req : Request) : m (Except (List String) Response) :=
  if req.uri.scheme = some "http" ∨ req.uri.scheme = some "https" then host.send req
  else
    let refused := "builder error for url (" ++ req.uri.text ++ ")"
    return .error ["http client error: " ++ refused, refused, "URL scheme is not allowed"]

/-- Fetch a resource through the pool. -/
def fetch (host : Host m) (settings : Settings) (url : String) : m Outcome := do
  match Uri.ofText url with
  | .error e => return .failed ("invalid url " ++ url) [e.message]
  | .ok uri =>
    match settings.clientRouter.route (resourceRequest uri) with
    | .error e => return .failed "request failed" [e.message]
    | .ok .here => return .failed "request failed" []
    | .ok (.forward _ sent) =>
      match ← sendToWeb host sent with
      | .error causes => return .failed "request failed" causes
      | .ok resp => return .printed (describeResponse settings url resp)

/-- Open the store that the settings name. A file store starts without the values of an
earlier run. -/
def openStore (host : Host m) (settings : Settings) : m (Except Failure Unit) := do
  if settings.backend = "memory" then return .ok ()
  if settings.backend ≠ "file" then
    return .error { message := unknownBackend settings.backend }
  match ← host.makeDirs settings.directory with
  | .error e =>
    return .error ⟨"failed to open cache dir " ++ settings.directory, storeCauses e⟩
  | .ok () =>
    match ← host.clearStore settings.directory with
    | .error e =>
      return .error ⟨"failed to clear cache dir " ++ settings.directory, storeCauses e⟩
    | .ok () => return .ok ()

/-- Run a peer. -/
def start (host : Host m) (settings : Settings) : m Outcome := do
  match ← openStore host settings with
  | .error f => return .failed f.message f.causes
  | .ok () =>
    match Endpoint.ofText settings.listen with
    | .error e => return .failed "boundary proxy failed" [e.message]
    | .ok endpoint =>
      match ← host.serve endpoint with
      | .error e => return .failed "boundary proxy failed" [e.message]
      | .ok () => return .printed ""

def runCommand (host : Host m) (settings : Settings) : Command → m Outcome
  | .owner url => return owner settings url
  | .fetch url => fetch host settings url
  | .start .. => start host settings

/-- The settings of a file, or the detected ones when no file is named. -/
def loadSettings (host : Host m) (config : Option String) :
    m (Except SettingsError Settings) := do
  let home := (← host.environment "HOME").getD ""
  match config with
  | none => return .ok (Settings.detected home (← host.memory))
  | some path => return Settings.load home (← host.readFile path)

/-- Carry out a command line. -/
def run (host : Host m) (words : List String) : m Outcome := do
  let identity ← host.environment "FWDCACHE_SELF_URL"
  match parse words identity with
  | .error .usage => return .misused
  | .error .version => return .printed versionText
  | .error (.help topic) => return .printed (topic.text identity)
  | .ok invocation =>
    match ← loadSettings host invocation.config with
    | .error e => return .failed "failed to load config" [e.message]
    | .ok settings => runCommand host (invocation.command.override settings) invocation.command

end Host

end PeerCache.CommandLine

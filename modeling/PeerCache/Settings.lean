import PeerCache.Buffer
import PeerCache.Peer.Member
import PeerCache.Store.FileStore
import PeerCache.Toml.Document

/-!
# Settings

What a peer is started with. A settings file has five sections, and whatever it leaves out
has a default; what it holds besides is not looked at. A setting of the wrong kind spoils the
whole file.
-/

namespace PeerCache

structure Settings where
  /-- Address that other peers reach this one at; its name on the ring. -/
  identity : String := "http://127.0.0.1:4830"
  /-- Address that the boundary listens at. -/
  listen : String := "0.0.0.0:4830"
  /-- Path of the boundary. -/
  path : String := "/proxy"
  peers : List String := []
  replicas : Option Nat := none
  /-- `memory` or `file`. -/
  backend : String := "memory"
  /-- Directory of the file store. -/
  directory : String
  /-- Budget of the cache. -/
  maxBytes : Option Nat := none
  buffered : Bool := false
  bufferSize : Nat := BufferPool.defaultSize
  logLevel : String := "info"
  deriving DecidableEq, Repr

/-- Why a settings file was not used. -/
inductive SettingsError where
  | unreadable (cause : IoError)
  | notText
  | malformed
  deriving DecidableEq, Repr

def SettingsError.message : SettingsError → String
  | unreadable cause => cause.message
  | notText => "stream did not contain valid UTF-8"
  | malformed => "TOML parse error"

namespace Settings

/-- The fields of a section: by name in a table, by position in an array. A moment counts as
a section that sets nothing. -/
def fields? (names : List String) : Toml.Value → Option (String → Option Toml.Value)
  | .table entries => some fun name => entries.lookup name
  | .array items => some fun name => (names.zip items).lookup name
  | .moment _ => some fun _ => none
  | _ => none

/-- A section of a file, which is empty when it is missing. -/
def section? (file : Toml.Value) (name : String) (names : List String) :
    Option (String → Option Toml.Value) :=
  match file with
  | .table entries =>
    match entries.lookup name with
    | some found => fields? names found
    | none => some fun _ => none
  | _ => none

/-- A setting that has to be of some kind if it is there. -/
def setting {α : Type} (kind : Toml.Value → Option α) (default : α) :
    Option Toml.Value → Option α
  | none => some default
  | some found => kind found

def asText : Toml.Value → Option String
  | .text content => some content
  | _ => none

def asFlag : Toml.Value → Option Bool
  | .boolean b => some b
  | _ => none

def asCount : Toml.Value → Option Nat
  | .integer (.ofNat n) => some n
  | _ => none

def asTexts : Toml.Value → Option (List String)
  | .array items => items.mapM asText
  | _ => none

/-- The settings of a file over the defaults. -/
def ofFile? (default : Settings) (file : Toml.Value) : Option Settings := do
  let peer ← section? file "peer" ["self_url", "listen_addr", "path"]
  let pool ← section? file "pool" ["peers", "replicas"]
  let cache ← section? file "cache" ["backend", "dir", "max_bytes"]
  let buffers ← section? file "buffers" ["enabled", "size"]
  let log ← section? file "log" ["level"]
  return {
    identity := ← setting asText default.identity (peer "self_url")
    listen := ← setting asText default.listen (peer "listen_addr")
    path := ← setting asText default.path (peer "path")
    peers := ← setting asTexts default.peers (pool "peers")
    replicas := ← setting (fun v => some <$> asCount v) default.replicas (pool "replicas")
    backend := ← setting asText default.backend (cache "backend")
    directory := ← setting asText default.directory (cache "dir")
    maxBytes := ← setting (fun v => some <$> asCount v) default.maxBytes (cache "max_bytes")
    buffered := ← setting asFlag default.buffered (buffers "enabled")
    bufferSize := ← setting asCount default.bufferSize (buffers "size")
    logLevel := ← setting asText default.logLevel (log "level") }

/-- The directory that the file store has under a home directory, or without one. -/
def directoryUnder (home : String) : String :=
  if home.isEmpty then ".fwdcache/cache"
  else if home.endsWith "/" then home ++ ".fwdcache/cache"
  else home ++ "/.fwdcache/cache"

/-- The settings that hold where nothing is set. -/
def standard (home : String) : Settings :=
  { directory := directoryUnder home }

/-- The settings that the bytes of a file make. -/
def load (home : String) (content : Except IoError Bytes) : Except SettingsError Settings :=
  match content with
  | .error e => .error (.unreadable e)
  | .ok bytes =>
    match Utf8.decode? bytes with
    | none => .error .notText
    | some text =>
      match (Toml.parse? text).bind (ofFile? (standard home)) with
      | none => .error .malformed
      | some settings => .ok settings

/-- The bytes of memory that a report of a machine states in its line `MemTotal:`, in units of
1024. -/
def memoryOf? (report : List Char) : Option Nat := do
  let rest ← (report.splitOn '\n').findSome? fun line => "MemTotal:".toList.isPrefixOf? line
  let digits := (rest.dropWhile Text.isBlank).takeWhile fun c => !Text.isBlank c
  let units ← (String.ofList digits).toNat?
  return units * 1024

def mebibyte : Nat := 1048576

def gibibyte : Nat := 1024 * mebibyte

/-- A budget for a machine with little memory or a lot of it. -/
def budgetFor (memory : Nat) : Option Nat :=
  if memory < gibibyte then some (32 * mebibyte)
  else if 16 * gibibyte < memory then some (2 * gibibyte)
  else none

/-- The settings without a file; the budget follows the memory of the machine, if that is
known. -/
def detected (home : String) (memory : Option Nat) : Settings :=
  { standard home with maxBytes := memory.bind budgetFor }

/-- The budget that the cache gets. -/
def cacheBudget (s : Settings) : Nat :=
  s.maxBytes.getD (256 * mebibyte)

/-- The number of positions that each peer gets on the ring. -/
def ringReplicas (s : Settings) : Nat :=
  s.replicas.getD Ring.defaultReplicas

/-- What this peer and the others have to agree on. -/
def routerConfig (s : Settings) : RouterConfig :=
  { path := s.path, replicas := s.ringReplicas }

/-- The peers of the pool, this one among them. -/
def poolPeers (s : Settings) : List String :=
  if s.peers.contains s.identity then s.peers else s.peers ++ [s.identity]

/-- What the peer of these settings is built from, over its store. -/
def peerPlan {σ : Type} (s : Settings) (store : σ) : MemberPlan σ where
  identity := s.identity
  config := s.routerConfig
  pool := s.poolPeers
  buffers := if s.buffered then some { size := s.bufferSize } else none
  store

/-- A router for requests that enter the pool from outside. -/
def clientRouter (s : Settings) : Router :=
  (Router.new s.routerConfig).setPool s.poolPeers

theorem poolPeers_of_mem {s : Settings} (h : s.identity ∈ s.peers) : s.poolPeers = s.peers :=
  if_pos (List.contains_iff_mem.mpr h)

theorem poolPeers_of_not_mem {s : Settings} (h : s.identity ∉ s.peers) :
    s.poolPeers = s.peers ++ [s.identity] :=
  if_neg (mt List.contains_iff_mem.mp h)

end Settings

end PeerCache

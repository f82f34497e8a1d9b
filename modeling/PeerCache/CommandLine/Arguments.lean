import PeerCache.Text.Blank

/-!
# Arguments

A command line is read word by word. Switches of the program come before the command, those
of the command after it, and the one for the settings file may stand in both places. The
first word that asks for help or is out of place decides; whether something is missing is
looked at in the end.
-/

namespace PeerCache.CommandLine

inductive Switch where
  | config
  | selfUrl
  | listenAddr
  | peer
  | memory
  | help
  | version
  deriving DecidableEq, Repr

namespace Switch

def long : Switch → String
  | config => "config"
  | selfUrl => "self-url"
  | listenAddr => "listen-addr"
  | peer => "peer"
  | memory => "memory"
  | help => "help"
  | version => "version"

def short? : Switch → Option Char
  | config => some 'c'
  | selfUrl => none
  | listenAddr => some 'l'
  | peer => some 'p'
  | memory => some 'm'
  | help => some 'h'
  | version => some 'V'

def hasValue : Switch → Bool
  | config | selfUrl | listenAddr | peer => true
  | memory | help | version => false

/-- Whether a switch may be given more than once. -/
def repeats (s : Switch) : Bool :=
  s == peer

/-- A settings file has a name; any text is a value of the other switches. -/
def allows (s : Switch) (value : String) : Bool :=
  s != config || value != ""

end Switch

/-- Whose words are read. -/
inductive Level where
  | program
  | start
  | owner
  | fetch
  deriving DecidableEq, Repr

namespace Level

def name : Level → String
  | program => "fwdcached"
  | start => "start"
  | owner => "owner"
  | fetch => "fetch"

def commands : List Level := [start, owner, fetch]

def ofName? (name : String) : Option Level :=
  commands.find? fun level => level.name = name

/-- In the order in which help lists them. -/
def switches : Level → List Switch
  | program => [.config, .help, .version]
  | start => [.config, .selfUrl, .listenAddr, .peer, .memory, .help]
  | owner | fetch => [.config, .help]

/-- How many words a level takes that are not switches. -/
def plainWords : Level → Nat
  | program | start => 0
  | owner | fetch => 1

def longSwitch? (level : Level) (name : List Char) : Option Switch :=
  level.switches.find? fun s => s.long.toList = name

def shortSwitch? (level : Level) (c : Char) : Option Switch :=
  level.switches.find? fun s => s.short? = some c

end Level

/-- What help is about. -/
inductive Topic where
  | level (level : Level)
  /-- The command that prints help. -/
  | help
  deriving DecidableEq, Repr

/-- Why the words of a command line do not name something to be done. -/
inductive Stop where
  | usage
  | help (topic : Topic)
  | version
  deriving DecidableEq, Repr

/-- The words of a level that have been read. -/
structure Words where
  given : List (Switch × String) := []
  plain : List String := []
  deriving DecidableEq, Repr

namespace Words

def values (w : Words) (s : Switch) : List String :=
  (w.given.filter fun g => g.1 == s).map (·.2)

def value? (w : Words) (s : Switch) : Option String :=
  (w.values s).head?

def has (w : Words) (s : Switch) : Bool :=
  !(w.values s).isEmpty

/-- Take a switch with its value, or without one as an empty text. -/
def give (w : Words) (s : Switch) (value : String) : Except Stop Words :=
  if (w.has s && !s.repeats) || !s.allows value then .error .usage
  else .ok { w with given := w.given ++ [(s, value)] }

/-- Take a switch that has no value. -/
def flag (level : Level) (w : Words) : Switch → Except Stop Words
  | .help => .error (.help (.level level))
  | .version => .error .version
  | s => w.give s ""

def addPlain (level : Level) (w : Words) (word : String) : Except Stop Words :=
  if w.plain.length < level.plainWords then .ok { w with plain := w.plain ++ [word] }
  else .error .usage

/-- Take the letters of a word of switches. What follows a switch with a value is the value;
when nothing does, the switch waits for the next word. -/
def cluster (level : Level) : List Char → Words → Except Stop (Words × Option Switch)
  | [], w => .ok (w, none)
  | c :: rest, w =>
    match level.shortSwitch? c with
    | none => .error .usage
    | some s =>
      if s.hasValue then
        match rest with
        | [] => .ok (w, some s)
        | '=' :: value => (w.give s (String.ofList value)).map fun w => (w, none)
        | value => (w.give s (String.ofList value)).map fun w => (w, none)
      else
        match w.flag level s with
        | .error stop => .error stop
        | .ok w => cluster level rest w

/-- Take a switch by its long name, with a value after an equals sign or in the next word. -/
def longSwitch (level : Level) (word : List Char) (w : Words) :
    Except Stop (Words × Option Switch) :=
  let (name, value) := Text.cut (· == '=') word
  match level.longSwitch? name with
  | none => .error .usage
  | some s =>
    match s.hasValue, value with
    | true, some value => (w.give s (String.ofList value)).map fun w => (w, none)
    | true, none => .ok (w, some s)
    | false, some _ => .error .usage
    | false, none => (w.flag level s).map fun w => (w, none)

/-- Take a word that starts with a dash and is more than the dash. -/
def switchWord? (level : Level) (word : List Char) (w : Words) :
    Option (Except Stop (Words × Option Switch)) :=
  match word with
  | '-' :: '-' :: name => some (w.longSwitch level name)
  | '-' :: c :: rest => some (cluster level (c :: rest) w)
  | _ => none

/-- Whether a word can be the value of the switch before it. -/
def isValue (word : String) : Bool :=
  match word.toList with
  | '-' :: _ :: _ => false
  | _ => true

/-- Read the words of a level. The program stops at the first word that is not a switch,
which names a command, and leaves the words behind it. -/
def read (level : Level) : List String → Words → Except Stop (Words × List String)
  | [], w => .ok (w, [])
  | word :: rest, w =>
    if word = "--" then (rest.foldlM (addPlain level) w).map fun w => (w, [])
    else
      match w.switchWord? level word.toList with
      | some (.error stop) => .error stop
      | some (.ok (w, none)) => read level rest w
      | some (.ok (w, some s)) =>
        match rest with
        | [] => .error .usage
        | value :: rest =>
          if isValue value then
            match w.give s value with
            | .error stop => .error stop
            | .ok w => read level rest w
          else .error .usage
      | none =>
        if level = .program then .ok (w, word :: rest)
        else
          match w.addPlain level word with
          | .error stop => .error stop
          | .ok w => read level rest w

end Words

/-- What is to be done. -/
inductive Command where
  /-- Run a peer, with settings that go before those of the file. -/
  | start (identity listen : Option String) (peers : List String) (inMemory : Bool)
  /-- Print who owns a resource. -/
  | owner (url : String)
  /-- Fetch a resource through the pool. -/
  | fetch (url : String)
  deriving DecidableEq, Repr

structure Invocation where
  config : Option String
  command : Command
  deriving DecidableEq, Repr

/-- The topic that the words after `help` name. -/
def helpTopic : List String → Stop
  | [] => .help (.level .program)
  | [name] =>
    if name = "help" then .help .help
    else
      match Level.ofName? name with
      | some level => .help (.level level)
      | none => .usage
  | _ => .usage

def commandOf (level : Level) (w : Words) (defaultIdentity : Option String) :
    Except Stop Command :=
  match level, w.plain with
  | .start, [] =>
    .ok (.start ((w.value? .selfUrl).or defaultIdentity) (w.value? .listenAddr) (w.values .peer)
      (w.has .memory))
  | .owner, [url] => .ok (.owner url)
  | .fetch, [url] => .ok (.fetch url)
  | _, _ => .error .usage

/-- What a command line asks for. The identity of a peer that is not given may come from
elsewhere. -/
def parse (words : List String) (defaultIdentity : Option String) : Except Stop Invocation := do
  let (program, rest) ← Words.read .program words {}
  match rest with
  | [] => throw .usage
  | name :: rest =>
    if name = "help" then throw (helpTopic rest)
    match Level.ofName? name with
    | none => throw .usage
    | some level =>
      let (words, _) ← Words.read level rest {}
      return {
        config := (words.value? .config).or (program.value? .config)
        command := ← commandOf level words defaultIdentity }

end PeerCache.CommandLine

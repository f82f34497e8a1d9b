import PeerCache.CommandLine.Arguments

/-!
# Help

The texts that explain a command line: what a command is for, how it is used, and a list for
each kind of words that it takes, with the explanations in one column.
-/

namespace PeerCache.CommandLine

def programVersion : String := "0.1.0"

/-- A name and its explanation. -/
abbrev HelpLine := String × String

/-- Lines with the explanations in one column. -/
def helpColumn (lines : List HelpLine) : String :=
  let width := (lines.map fun line => line.1.length).foldl max 0
  String.join (lines.map fun line =>
    "  " ++ line.1.pushn ' ' (width - line.1.length + 2) ++ line.2 ++ "\n")

namespace Level

def about : Level → String
  | program => "fwdcache forward-caching peer daemon"
  | start => "Start a peer"
  | owner => "Print the peer owning a resource in the configured pool"
  | fetch => "Fetch a resource through the configured pool"

/-- What stands behind the name of a level in a line of use. -/
def usage : Level → String
  | program => "fwdcached [OPTIONS] <COMMAND>"
  | start => "fwdcached start [OPTIONS]"
  | owner => "fwdcached owner [OPTIONS] <URL>"
  | fetch => "fwdcached fetch [OPTIONS] <URL>"

end Level

/-- The name of a switch's value in help. -/
def Switch.valueName : Switch → String
  | config => " <CONFIG>"
  | selfUrl => " <SELF_URL>"
  | listenAddr => " <LISTEN_ADDR>"
  | peer => " <PEER>"
  | memory | help | version => ""

/-- What a switch is for. The identity of a peer can also be set from outside, and help shows
what it is set to. -/
def Switch.about (defaultIdentity : Option String) : Switch → String
  | config => "Path to TOML config file"
  | selfUrl =>
    "Base URL other peers reach this one at (e.g. \"http://10.0.0.2:4830\")" ++
      " [env: FWDCACHE_SELF_URL=" ++ defaultIdentity.getD "" ++ "]"
  | listenAddr => "Override listen address (e.g. \"127.0.0.1:4831\")"
  | peer => "Pool member base URL. Can be specified multiple times"
  | memory => "Keep cached responses in memory only"
  | help => "Print help"
  | version => "Print version"

def Switch.helpLine (defaultIdentity : Option String) (s : Switch) : HelpLine :=
  let short :=
    match s.short? with
    | some c => String.ofList ['-', c, ',', ' ']
    | none => "    "
  (short ++ "--" ++ s.long ++ s.valueName, s.about defaultIdentity)

def helpCommand : HelpLine :=
  ("help", "Print this message or the help of the given subcommand(s)")

def Level.helpText (defaultIdentity : Option String) (level : Level) : String :=
  let heads := level.about ++ "\n\nUsage: " ++ level.usage ++ "\n\n"
  let commands :=
    if level = .program then
      "Commands:\n" ++
        helpColumn (Level.commands.map (fun c => (c.name, c.about)) ++ [helpCommand]) ++ "\n"
    else ""
  let arguments :=
    if level.plainWords = 0 then ""
    else "Arguments:\n" ++ helpColumn [("<URL>", "Absolute URL of the resource")] ++ "\n"
  heads ++ commands ++ arguments ++ "Options:\n" ++
    helpColumn (level.switches.map (Switch.helpLine defaultIdentity))

def Topic.text (defaultIdentity : Option String) : Topic → String
  | .level l => l.helpText defaultIdentity
  | .help =>
    helpCommand.2 ++ "\n\nUsage: fwdcached help [COMMAND]...\n\nArguments:\n" ++
      helpColumn [("[COMMAND]...", "Print help for the subcommand(s)")]

def versionText : String :=
  "fwdcached " ++ programVersion ++ "\n"

end PeerCache.CommandLine

import PeerCache.Url.Path

/-!
# Addresses

Absolute addresses with a host, read leniently and kept in normal form: scheme and host in
lower case, the scheme's own port left out, the path resolved, and everything escaped that
may not stand where it is. Blanks around an address and line breaks and tabs within it are
ignored. Addresses without a host are only told apart by their scheme.
-/

namespace PeerCache

structure Url where
  scheme : String
  /-- Name and password, escaped and followed by `@`, or empty. -/
  userinfo : String
  host : String
  port : Option Nat
  path : String
  query : Option String
  fragment : Option String
  deriving DecidableEq, Repr

/-- What a text is read as. -/
inductive Address where
  | hosted (url : Url)
  | hostless (scheme : String)
  deriving DecidableEq, Repr

def Address.scheme : Address → String
  | hosted url => url.scheme
  | hostless scheme => scheme

namespace Url

/-- The port that a scheme uses when none is given. -/
def defaultPort? (scheme : List Char) : Option Nat :=
  if scheme = "http".toList ∨ scheme = "ws".toList then some 80
  else if scheme = "https".toList ∨ scheme = "wss".toList then some 443
  else if scheme = "ftp".toList then some 21
  else none

def rulesOf (scheme : List Char) : PathRules :=
  let file := decide (scheme = "file".toList)
  { usual := file || (defaultPort? scheme).isSome, file }

def isIgnored (c : Char) : Bool :=
  c == '\t' || c == '\n' || c == '\r'

/-- The text that is read: without blanks and controls at its ends, and without tabs and
line breaks. -/
def relevant (text : List Char) : List Char :=
  (Text.trimBy (fun c => c.toNat ≤ 32) text).filter fun c => !isIgnored c

/-- A scheme in lower case and what follows its colon. -/
def splitScheme (text : List Char) : Option (List Char × List Char) :=
  if text.head?.any Char.isAlpha then
    let isSchemeChar (c : Char) := c.isAlphanum || c == '+' || c == '-' || c == '.'
    match text.dropWhile isSchemeChar with
    | ':' :: rest => some (Text.lower (text.takeWhile isSchemeChar), rest)
    | _ => none
  else none

/-- Whether a character ends the part between the slashes and the path. -/
def endsAuthority (rules : PathRules) (c : Char) : Bool :=
  c == '/' || c == '?' || c == '#' || (rules.usual && c == '\\')

/-- Name and password in front of the last `@` of the authority, and what follows it. -/
def splitUserinfo (rules : PathRules) (text : List Char) : Option (List Char) × List Char :=
  let authority := text.takeWhile fun c => !endsAuthority rules c
  let beforeHost := authority.reverse.dropWhile (· != '@')
  match beforeHost with
  | [] => (none, text)
  | _ :: user => (some user.reverse, text.drop beforeHost.length)

/-- A name and a password as they are written; an empty password is left out. -/
def userinfoText (raw : List Char) : List Char :=
  let (name, password) := Text.cut (· == ':') raw
  let name := Percent.encodeText plainInUserinfo name
  let password := Percent.encodeText plainInUserinfo (password.getD [])
  let password := if password.isEmpty then [] else ':' :: password
  if name.isEmpty && password.isEmpty then [] else name ++ password ++ ['@']

/-- The host up to a colon outside brackets or the end of the authority, and what follows. -/
def splitHost (rules : PathRules) : Bool → List Char → List Char × List Char
  | _, [] => ([], [])
  | inside, c :: rest =>
    if endsAuthority rules c || (c == ':' && !inside) then ([], c :: rest)
    else
      let inside := if c = '[' then true else if c = ']' then false else inside
      let (host, rest) := splitHost rules inside rest
      (c :: host, rest)

/-- A port behind a colon, if there is one, and what follows. -/
def readPort : List Char → Except UrlError (Option Nat × List Char)
  | ':' :: text =>
    let digits := text.takeWhile Char.isDigit
    let port := Hex.fromDigits 10 digits
    let rest := text.dropWhile Char.isDigit
    if port > 65535 then .error .badPort
    else if rest.head?.all fun c => c == '/' || c == '\\' || c == '?' || c == '#' then
      .ok (if digits.isEmpty then none else some port, rest)
    else .error .badPort
  | text => .ok (none, text)

/-- Query and fragment in what follows a path, as they are written. -/
def readTail (rules : PathRules) (text : List Char) : Option String × Option String :=
  let (front, fragment) := Text.cut (· == '#') text
  let query :=
    match front with
    | '?' :: query =>
      some (String.ofList (Percent.encodeText (plainInQuery rules.usual) query))
    | _ => none
  (query, fragment.map fun f => String.ofList (Percent.encodeText plainInFragment f))

/-- The address of parts that have been read, and a text that starts with the path. -/
def assemble (rules : PathRules) (scheme userinfo host : List Char) (port : Option Nat)
    (text : List Char) : Url :=
  let ends (c : Char) := c == '?' || c == '#'
  let (query, fragment) := readTail rules (text.dropWhile fun c => !ends c)
  { scheme := String.ofList scheme, userinfo := String.ofList userinfo
    host := String.ofList host
    port := if port = defaultPort? scheme then none else port
    path := String.ofList (normalPath rules (text.takeWhile fun c => !ends c))
    query, fragment }

/-- Read what follows the slashes in front of the authority. -/
def readAuthority (scheme : List Char) (text : List Char) : Except UrlError Address := do
  let rules := rulesOf scheme
  let (user, text) := splitUserinfo rules text
  if user = some [] ∧ text.head?.any (endsAuthority rules) then throw .emptyHost
  let userinfo := (user.map userinfoText).getD []
  let (host, text) := splitHost rules false text
  if host.isEmpty then
    if rules.usual || text.head? = some ':' || !userinfo.isEmpty then throw .emptyHost
    return .hostless (String.ofList scheme)
  let host ← if rules.usual then Host.ofText host else Host.ofOpaque host
  let (port, text) ← readPort text
  return .hosted (assemble rules scheme userinfo host port text)

/-- Read what follows the scheme of a file address. A local host, a drive in the place of the
host and a drive at the front of the path leave no host. -/
def readFile (scheme : List Char) (text : List Char) : Except UrlError Address := do
  let rules := rulesOf scheme
  match text with
  | a :: b :: text =>
    let ends (c : Char) := isSlash rules c || c == '?' || c == '#'
    let host := text.takeWhile fun c => !ends c
    let text := text.dropWhile fun c => !ends c
    if !isSlash rules a || !isSlash rules b || host.isEmpty || isDrive host then
      return .hostless (String.ofList scheme)
    let host ← Host.ofText host
    if host = "localhost".toList ∨
        startsWithDrive rules (text.takeWhile fun c => c != '?' && c != '#') then
      return .hostless (String.ofList scheme)
    return .hosted (assemble rules scheme [] host none text)
  | _ => return .hostless (String.ofList scheme)

def parse (text : List Char) : Except UrlError Address :=
  match splitScheme (relevant text) with
  | none => .error .relative
  | some (scheme, rest) =>
    if (rulesOf scheme).file then readFile scheme rest
    else if (rulesOf scheme).usual then
      readAuthority scheme (rest.dropWhile fun c => c == '/' || c == '\\')
    else
      match rest with
      | '/' :: '/' :: rest => readAuthority scheme rest
      | _ => .ok (.hostless (String.ofList scheme))

def ofText (text : String) : Except UrlError Address :=
  parse text.toList

def portText (u : Url) : String :=
  u.port.elim "" fun port => ":" ++ Nat.repr port

/-- Host and port, as they stand in a `Host` field. -/
def hostAndPort (u : Url) : String :=
  u.host ++ u.portText

def text (u : Url) : String :=
  u.scheme ++ "://" ++ u.userinfo ++ u.host ++ u.portText ++ u.path ++
    (u.query.elim "" fun q => "?" ++ q) ++ u.fragment.elim "" fun f => "#" ++ f

/-- The address with another path. Marks that start a query or a fragment are escaped, but in
front of the path of an unusual scheme they leave it empty. -/
def withPath (u : Url) (path : String) : Url :=
  let rules := rulesOf u.scheme.toList
  let given := path.toList.filter fun c => !isIgnored c
  let given :=
    if rules.usual = false ∧ given.head?.any (fun c => c == '?' || c == '#') then [] else given
  { u with path := String.ofList (normalPath rules given) }

end Url

end PeerCache

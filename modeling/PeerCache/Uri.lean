import PeerCache.Text.Blank
import PeerCache.Text.Utf8

/-!
# Request targets

The target of a request: an absolute address, an authority alone, a path with a query, or a
star. A target is checked character by character and otherwise kept as it is given; only the
two usual schemes are brought to lower case, an empty path after an authority becomes `/`,
and a fragment is dropped.
-/

namespace PeerCache

inductive UriError where
  | empty
  | tooLong
  | badCharacter
  | badAuthority
  | badFormat
  | schemeTooLong
  deriving DecidableEq, Repr

def UriError.message : UriError → String
  | empty => "empty string"
  | tooLong => "uri too long"
  | badCharacter => "invalid uri character"
  | badAuthority => "invalid authority"
  | badFormat => "invalid format"
  | schemeTooLong => "scheme too long"

namespace Uri

def isSchemeChar (c : Char) : Bool :=
  c.isAlphanum || "+-.~".toList.contains c

def isAuthorityChar (c : Char) : Bool :=
  c.isAlphanum || "!$%&\x27()*+,-.:;=@[]_~".toList.contains c

/-- Characters of a path: all visible ones but `#<>?` and the grave accent. -/
def isPathChar (c : Char) : Bool :=
  c.toNat > 32 && c ≠ '\x7f' && c ≠ '#' && c ≠ '<' && c ≠ '>' && c ≠ '?' && c ≠ '\x60'

/-- Characters of a query: all visible ones but `"#<>`. -/
def isQueryChar (c : Char) : Bool :=
  c.toNat > 32 && c ≠ '\x7f' && c ≠ '"' && c ≠ '#' && c ≠ '<' && c ≠ '>'

end Uri

structure Uri where
  scheme : Option String
  authority : Option String
  /-- Empty only for an authority alone. -/
  path : String
  query : Option String
  scheme_valid : scheme.all (·.toList.all Uri.isSchemeChar) = true
  authority_valid : authority.all (·.toList.all Uri.isAuthorityChar) = true
  path_valid : path.toList.all Uri.isPathChar = true
  query_valid : query.all (·.toList.all Uri.isQueryChar) = true
  deriving DecidableEq

namespace Uri

def text (u : Uri) : String :=
  (u.scheme.elim "" fun s => s ++ "://") ++ u.authority.getD "" ++ u.path ++
    u.query.elim "" fun q => "?" ++ q

/-- What has been seen of an authority: the colons since the last `@` or `]`, the brackets,
and whether a `%` came since then. -/
structure AuthorityState where
  colons : Nat := 0
  opened : Bool := false
  closed : Bool := false
  percent : Bool := false

/-- One more character of an authority. Credentials may hold colons and escapes, so an `@`
forgets them, and so does the end of a bracketed address. -/
def AuthorityState.step (s : AuthorityState) (c : Char) : Except UriError AuthorityState :=
  if !isAuthorityChar c then .error .badCharacter
  else if c = ':' then
    if s.colons ≥ 8 then .error .badAuthority else .ok { s with colons := s.colons + 1 }
  else if c = '[' then
    if s.percent || s.opened then .error .badAuthority else .ok { s with opened := true }
  else if c = ']' then
    if !s.opened || s.closed then .error .badAuthority
    else .ok { s with closed := true, colons := 0, percent := false }
  else if c = '@' then .ok { s with colons := 0, percent := false }
  else if c = '%' then .ok { s with percent := true }
  else .ok s

def AuthorityState.run (s : AuthorityState) : List Char → Except UriError AuthorityState
  | [] => .ok s
  | c :: rest =>
    match s.step c with
    | .ok s => s.run rest
    | .error e => .error e

/-- Check an authority that has been cut out of a target. -/
def checkAuthority (authority : List Char) : Except UriError Unit :=
  match AuthorityState.run {} authority with
  | .error e => .error e
  | .ok s =>
    if s.opened != s.closed || s.colons > 1 || s.percent ||
        authority.getLast? = some '@' then .error .badAuthority
    else .ok ()

theorem AuthorityState.step_valid {s t : AuthorityState} {c : Char} (h : s.step c = .ok t) :
    isAuthorityChar c = true := by
  unfold step at h
  split at h
  · cases h
  · next hc => simpa using hc

theorem AuthorityState.all_of_run {s t : AuthorityState} {authority : List Char}
    (h : s.run authority = .ok t) : authority.all isAuthorityChar = true := by
  induction authority generalizing s with
  | nil => rfl
  | cons c rest ih =>
    unfold run at h
    split at h
    · next hs => exact List.all_cons.trans (by rw [step_valid hs, ih h]; rfl)
    · cases h

theorem all_of_checkAuthority {authority : List Char} (h : checkAuthority authority = .ok ()) :
    authority.all isAuthorityChar = true := by
  simp only [checkAuthority] at h
  split at h
  · cases h
  · next hr => exact AuthorityState.all_of_run hr

def endsAuthority (c : Char) : Bool :=
  c == '/' || c == '?' || c == '#'

/-- Take a scheme and `://` off the front, if they are there. -/
def splitScheme (text : List Char) : Except UriError (Option (List Char) × List Char) :=
  if Text.lower (text.take 7) = "http://".toList then .ok (some "http".toList, text.drop 7)
  else if Text.lower (text.take 8) = "https://".toList then
    .ok (some "https".toList, text.drop 8)
  else
    let name := text.takeWhile isSchemeChar
    match text.dropWhile isSchemeChar with
    | ':' :: '/' :: '/' :: rest =>
      if name.length > 64 then .error .schemeTooLong else .ok (some name, rest)
    | _ => .ok (none, text)

theorem splitScheme_valid {text rest name : List Char}
    (h : splitScheme text = .ok (some name, rest)) : name.all isSchemeChar = true := by
  simp only [splitScheme] at h
  split at h
  · cases h; decide
  split at h
  · cases h; decide
  split at h
  · split at h
    · cases h
    · cases h; exact List.all_takeWhile
  · cases h

/-- The path and the query of a text, up to a fragment. -/
def splitQuery (text : List Char) : List Char × Option (List Char) :=
  Text.cut (· == '?') (text.takeWhile (· != '#'))

/-- A target from its scheme and authority, which have been checked, and the rest of it. -/
def assemble (scheme authority : Option (List Char)) (rest : List Char)
    (hs : scheme.all (·.all isSchemeChar) = true)
    (ha : authority.all (·.all isAuthorityChar) = true) : Except UriError Uri :=
  let (path, query) := splitQuery rest
  let path := if path.isEmpty then ['/'] else path
  if h : path.all isPathChar = true ∧ query.all (·.all isQueryChar) = true then
    .ok
      { scheme := scheme.map String.ofList, authority := authority.map String.ofList
        path := String.ofList path, query := query.map String.ofList
        scheme_valid := by simpa [Option.all_map, Function.comp_def] using hs
        authority_valid := by simpa [Option.all_map, Function.comp_def] using ha
        path_valid := by simpa using h.1
        query_valid := by simpa [Option.all_map, Function.comp_def] using h.2 }
  else .error .badCharacter

/-- A target that is an authority and nothing else. -/
def ofAuthority (authority : List Char) (valid : authority.all isAuthorityChar = true) : Uri where
  scheme := none
  authority := some (String.ofList authority)
  path := ""
  query := none
  scheme_valid := rfl
  authority_valid := by simpa using valid
  path_valid := rfl
  query_valid := rfl

def star : Uri where
  scheme := none
  authority := none
  path := "*"
  query := none
  scheme_valid := rfl
  authority_valid := rfl
  path_valid := by decide
  query_valid := rfl

/-- A target that does not start with a slash: with a scheme, or an authority alone. The
error of a text that goes on behind a lone authority depends on its length. -/
def parseFull (text : List Char) : Except UriError Uri :=
  match hs : splitScheme text with
  | .error e => .error e
  | .ok (scheme, rest) =>
    let authority := rest.takeWhile fun c => !endsAuthority c
    match ha : checkAuthority authority with
    | .error e => .error e
    | .ok () =>
      match scheme, hs with
      | none, _ =>
        if authority.length = rest.length then
          .ok (ofAuthority authority (all_of_checkAuthority ha))
        else .error (if text.length = 1 then .badCharacter else .badFormat)
      | some name, hs =>
        if authority.isEmpty then .error .badFormat
        else
          assemble (some name) (some authority) (rest.dropWhile fun c => !endsAuthority c)
            (splitScheme_valid hs) (all_of_checkAuthority ha)

/-- The longest target in bytes. -/
def maxLength : Nat := 65534

def parse (text : List Char) : Except UriError Uri :=
  if (Utf8.encode text).length > maxLength then .error .tooLong
  else
    match text with
    | [] => .error .empty
    | ['*'] => .ok star
    | '/' :: _ => assemble none none text rfl rfl
    | _ => parseFull text

def ofText (text : String) : Except UriError Uri :=
  parse text.toList

end Uri

end PeerCache

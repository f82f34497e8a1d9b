import PeerCache.Url.Host

/-!
# Paths of addresses

A path is a list of segments behind slashes. Reading it escapes what may not stand in a
segment and carries out the segments that mean "here" and "up", also where their dots are
escaped.
-/

namespace PeerCache.Url

/-- Characters that a fragment holds unescaped. -/
def plainInFragment (c : Char) : Bool :=
  !Host.isControl c && !(" \"<>\x60".toList.contains c)

def plainInPath (c : Char) : Bool :=
  plainInFragment c && !("#?\x7b\x7d".toList.contains c)

def plainInUserinfo (c : Char) : Bool :=
  plainInPath c && !("/:;=@[\\]^|".toList.contains c)

/-- Characters that a query holds unescaped; the usual schemes escape the apostrophe too. -/
def plainInQuery (usual : Bool) (c : Char) : Bool :=
  !Host.isControl c && !(" \"#<>".toList.contains c) && !(usual && c == '\x27')

/-- Whether a segment means the one it stands in. -/
def isHere (segment : List Char) : Bool :=
  let s := Text.lower segment
  s = ['.'] || s = "%2e".toList

/-- Whether a segment means the one above. -/
def isUp (segment : List Char) : Bool :=
  let s := Text.lower segment
  s = "..".toList || s = "%2e.".toList || s = ".%2e".toList || s = "%2e%2e".toList

/-- A drive in a file address: a letter and a colon, or a bar in its place. -/
def isDrive (segment : List Char) : Bool :=
  match segment with
  | [letter, mark] => letter.isAlpha && (mark == ':' || mark == '|')
  | _ => false

/-- How the paths of a scheme are read. -/
structure PathRules where
  /-- A backslash counts as a slash, and the path is never empty. -/
  usual : Bool
  /-- A drive at the front stays there, and leading empty segments are dropped. -/
  file : Bool

/-- Leave the last segment, unless it is a drive on its own. -/
def shorten (rules : PathRules) (segments : List (List Char)) : List (List Char) :=
  match segments with
  | [only] => if rules.file && isDrive only then [only] else []
  | _ => segments.dropLast

/-- A drive is written with a colon. -/
def asSegment (rules : PathRules) (before : List (List Char)) (segment : List Char) : List Char :=
  match rules.file && before.isEmpty && isDrive segment, segment with
  | true, [letter, _] => [letter, ':']
  | _, _ => segment

/-- Add segments one after another; at the end of a path, "here" and "up" leave an empty
last segment. -/
def addSegments (rules : PathRules) : List (List Char) → List (List Char) → List (List Char)
  | done, [] => done
  | done, segment :: rest =>
    let close (segments : List (List Char)) :=
      if rest.isEmpty then segments ++ [[]] else segments
    if isUp segment then addSegments rules (close (shorten rules done)) rest
    else if isHere segment then addSegments rules (close done) rest
    else addSegments rules (done ++ [asSegment rules done segment]) rest

def isSlash (rules : PathRules) (c : Char) : Bool :=
  c == '/' || (rules.usual && c == '\\')

/-- The segments of a path, the slash in front of it left out. -/
def segments (rules : PathRules) (text : List Char) : List (List Char) :=
  let text :=
    match text with
    | c :: rest => if isSlash rules c then rest else text
    | [] => []
  let parts := (text.splitOnP (isSlash rules)).map (Percent.encodeText plainInPath)
  let done := addSegments rules [] parts
  if rules.file then done.dropLast.dropWhile (· == []) ++ done.getLast?.toList else done

/-- A path in its normal form. Only an unusual scheme has an empty one. -/
def normalPath (rules : PathRules) (text : List Char) : List Char :=
  if text = [] ∧ rules.usual = false then []
  else (segments rules text).flatMap fun segment => '/' :: segment

/-- Whether a path of a file address takes the place of its host. -/
def startsWithDrive (rules : PathRules) (text : List Char) : Bool :=
  rules.file && ((segments rules text).head?.any isDrive)

end PeerCache.Url

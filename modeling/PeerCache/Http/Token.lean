import PeerCache.Text.Blank

/-!
# Tokens

Methods and header names are tokens: words over letters, digits and a few marks. A method
keeps its letters as they are, while the letters of a header name count as lower-case.
-/

namespace PeerCache

def isTokenChar (c : Char) : Bool :=
  c.isAlphanum || "!#$%&\x27*+-.^_\x60|~".toList.contains c

structure Method where
  text : String
  valid : (text.toList ≠ [] ∧ text.toList.all isTokenChar = true)
  deriving DecidableEq

namespace Method

def ofText? (text : String) : Option Method :=
  if h : text.toList ≠ [] ∧ text.toList.all isTokenChar = true then some ⟨text, h⟩ else none

def get : Method := ⟨"GET", by decide⟩
def head : Method := ⟨"HEAD", by decide⟩
def options : Method := ⟨"OPTIONS", by decide⟩
def trace : Method := ⟨"TRACE", by decide⟩
def connect : Method := ⟨"CONNECT", by decide⟩

/-- Methods that only read. -/
def isSafe (m : Method) : Bool :=
  m == get || m == head || m == options || m == trace

end Method

/-- A header name in lower case. -/
structure HeaderName where
  text : String
  valid : text.toList ≠ [] ∧ text.toList.length ≤ 65535 ∧
    text.toList.all (fun c => isTokenChar c && !c.isUpper) = true
  deriving DecidableEq

namespace HeaderName

/-- Read a name, whatever the case of its letters is. -/
def ofChars? (text : List Char) : Option HeaderName :=
  let name := String.ofList (Text.lower text)
  if h : name.toList ≠ [] ∧ name.toList.length ≤ 65535 ∧
      name.toList.all (fun c => isTokenChar c && !c.isUpper) = true then some ⟨name, h⟩ else none

def ofText? (text : String) : Option HeaderName :=
  ofChars? text.toList

def age : HeaderName := ⟨"age", by decide⟩
def cacheControl : HeaderName := ⟨"cache-control", by decide⟩
def connection : HeaderName := ⟨"connection", by decide⟩
def contentLength : HeaderName := ⟨"content-length", by decide⟩
def date : HeaderName := ⟨"date", by decide⟩
def etag : HeaderName := ⟨"etag", by decide⟩
def expires : HeaderName := ⟨"expires", by decide⟩
def host : HeaderName := ⟨"host", by decide⟩
def ifModifiedSince : HeaderName := ⟨"if-modified-since", by decide⟩
def ifNoneMatch : HeaderName := ⟨"if-none-match", by decide⟩
def lastModified : HeaderName := ⟨"last-modified", by decide⟩
def pragma : HeaderName := ⟨"pragma", by decide⟩
def range : HeaderName := ⟨"range", by decide⟩
def vary : HeaderName := ⟨"vary", by decide⟩

/-- Marks a response that came from the cache. -/
def fromCache : HeaderName := ⟨"x-from-cache", by decide⟩

end HeaderName

end PeerCache

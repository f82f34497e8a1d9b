import PeerCache.Text.Blank
import PeerCache.Text.Percent

/-!
# Form values

The encoding of names and values in a query: a space is written as `+`, letters, digits
and `*-._` as themselves, and every other byte as a percent escape. Reading is lenient and
ends in text, so bytes that are not UTF-8 become replacement characters.
-/

namespace PeerCache.Form

def isPlain (c : Char) : Bool :=
  c.isAlphanum || c == '*' || c == '-' || c == '.' || c == '_'

def encodeChar (c : Char) : List Char :=
  if c = ' ' then ['+']
  else if isPlain c then [c]
  else (String.utf8EncodeChar c).flatMap Percent.escape

def encode (text : List Char) : List Char :=
  text.flatMap encodeChar

def decode (text : List Char) : List Char :=
  Utf8.decodeLossy (Percent.decode (text.map fun c => if c = '+' then ' ' else c))

/-- The raw name and value of one part of a query; a part without `=` is a name with an
empty value. -/
def splitPair (part : List Char) : List Char × List Char :=
  let (name, value) := Text.cut (· == '=') part
  (name, value.getD [])

end PeerCache.Form

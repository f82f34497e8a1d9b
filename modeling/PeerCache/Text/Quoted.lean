import PeerCache.Text.Hex
import PeerCache.Text.Invisible

/-!
# Quoted text

Text as diagnostics show it: between double quotes, with a backslash before a quote or a
backslash, letters for the usual controls, and code points in braces for everything that
cannot be seen.
-/

namespace PeerCache.Text

def quoteChar (c : Char) : List Char :=
  if c = '"' then ['\\', '"']
  else if c = '\\' then ['\\', '\\']
  else if c = '\t' then ['\\', 't']
  else if c = '\n' then ['\\', 'n']
  else if c = '\r' then ['\\', 'r']
  else if c = '\x00' then ['\\', '0']
  else if isInvisible c then "\\u\x7b".toList ++ Hex.ofNat c.toNat ++ ['\x7d']
  else [c]

def quoted (text : String) : String :=
  String.ofList ('"' :: text.toList.flatMap quoteChar ++ ['"'])

/-- A list of quoted texts in brackets. -/
def quotedList (texts : List String) : String :=
  "[" ++ String.intercalate ", " (texts.map quoted) ++ "]"

end PeerCache.Text

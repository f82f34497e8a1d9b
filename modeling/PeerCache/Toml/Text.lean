import PeerCache.Text.Hex
import PeerCache.Text.Reader

/-!
# Quoted text and keys

A text is quoted singly and then taken as it stands, or doubly and then has escapes. Three
quotes instead of one let it run over several lines. `limit` bounds the number of parts of
anything that is read; the length of the file is enough.
-/

namespace PeerCache.Toml

open Reader

def isBlank (c : Char) : Bool :=
  c == ' ' || c == '\t'

/-- Characters that comments and quoted texts may hold: control characters are left out. -/
def isPrintable (c : Char) : Bool :=
  c == '\t' || (' ' ≤ c && c != '\x7f')

def blanks : Reader Unit := do
  let _ ← span isBlank

def newline : Reader Unit :=
  literal ['\n'] <|> literal ['\r', '\n']

/-- A character given by the hexadecimal digits of its number. -/
def codePoint (width : Nat) : Reader Char := do
  let digits ← many (char Hex.isDigit) width
  let n := Hex.fromDigits 16 digits
  if digits.length = width ∧ n.isValidChar then return Char.ofNat n
  failure

def escape : Reader Char := do
  literal ['\\']
  match ← char fun _ => true with
  | 'b' => return '\x08'
  | 't' => return '\t'
  | 'n' => return '\n'
  | 'f' => return '\x0c'
  | 'r' => return '\r'
  | '"' => return '"'
  | '\\' => return '\\'
  | 'u' => codePoint 4
  | 'U' => codePoint 8
  | _ => failure

/-- A line end that a backslash takes away, with the blank space after it. -/
def foldedLine (limit : Nat) : Reader Unit := do
  literal ['\\']
  blanks
  newline
  let _ ← many (newline <|> do let _ ← char isBlank) limit

def plainFor (quote : Char) : Reader Char :=
  char fun c => isPrintable c && c != quote

/-- A quote that belongs to a text of several lines. The last three of up to five quotes in
a row close the text. -/
def innerQuote (quote : Char) : Reader Char := fun text =>
  if [1, 2, 4, 5].contains (text.takeWhile (· == quote)).length then char (· == quote) text
  else none

/-- A character that stands for itself in a text with escapes. -/
def quotedChar : Reader Char := do
  absent (literal ['\\'])
  plainFor '"'

def quoted (limit : Nat) : Reader String := do
  literal ['"']
  let content ← many (escape <|> quotedChar) limit
  literal ['"']
  return String.ofList content

def literalText (limit : Nat) : Reader String := do
  literal ['\'']
  let content ← many (plainFor '\'') limit
  literal ['\'']
  return String.ofList content

/-- Parts between three quotes and three quotes. A line end right at the start does not count;
a part without a character leaves nothing behind. -/
def lines (limit : Nat) (quote : Char) (part : Reader (Option Char)) : Reader String := do
  literal [quote, quote, quote]
  let _ ← maybe newline
  let content ← many part limit
  literal [quote, quote, quote]
  return String.ofList (content.filterMap id)

/-- A line end of either kind, which counts as a line feed. -/
def lineFeed : Reader Char := do
  newline
  return '\n'

def quotedLines (limit : Nat) : Reader String :=
  lines limit '"' <|
    (do foldedLine limit; return none) <|>
    some <$> (escape <|> lineFeed <|> innerQuote '"' <|> quotedChar)

def literalLines (limit : Nat) : Reader String :=
  lines limit '\'' (some <$> (lineFeed <|> innerQuote '\'' <|> plainFor '\''))

def text (limit : Nat) : Reader String :=
  quotedLines limit <|> quoted limit <|> literalLines limit <|> literalText limit

def isBare (c : Char) : Bool :=
  c.isAlphanum || c == '_' || c == '-'

def bareKey : Reader String := do
  let name ← span isBare
  if name.isEmpty then failure
  return String.ofList name

def simpleKey (limit : Nat) : Reader String :=
  quoted limit <|> literalText limit <|> bareKey

end PeerCache.Toml

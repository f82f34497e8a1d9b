/-!
# Blank characters

The characters that Unicode counts as white space, and the text without those at its ends.
-/

namespace PeerCache.Text

def isBlank (c : Char) : Bool :=
  let n := c.toNat
  (9 ≤ n && n ≤ 13) || n == 0x20 || n == 0x85 || n == 0xA0 || n == 0x1680 ||
    (0x2000 ≤ n && n ≤ 0x200A) || n == 0x2028 || n == 0x2029 || n == 0x202F || n == 0x205F ||
    n == 0x3000

/-- Drop the characters of a class at the end of a text. -/
def dropEnd (p : Char → Bool) (text : List Char) : List Char :=
  (text.reverse.dropWhile p).reverse

/-- Drop the characters of a class at both ends of a text. -/
def trimBy (p : Char → Bool) (text : List Char) : List Char :=
  dropEnd p (text.dropWhile p)

def trim (text : List Char) : List Char :=
  trimBy isBlank text

/-- Cut a text at the first character of a class: the part before it, and the part after
it when there is one. -/
def cut (p : Char → Bool) (text : List Char) : List Char × Option (List Char) :=
  match text.dropWhile fun c => !p c with
  | [] => (text, none)
  | _ :: rest => (text.takeWhile fun c => !p c, some rest)

/-- ASCII letters in lower case, everything else as it is. -/
def lower (text : List Char) : List Char :=
  text.map Char.toLower

@[simp] theorem trim_nil : trim [] = [] := rfl

end PeerCache.Text

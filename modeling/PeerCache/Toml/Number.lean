import PeerCache.Http.Date
import PeerCache.Toml.Text
import PeerCache.Toml.Value

/-!
# Numbers and moments

Digits may be parted by single underscores. Whole numbers fit in 64 bits with a sign; they
have no leading zeros, and no sign when they are written in another base than ten. A date is
one that exists.
-/

namespace PeerCache.Toml

open Reader

def isSign (c : Char) : Bool :=
  c == '+' || c == '-'

/-- Digits of some kind, without the underscores between them. -/
def digits (limit : Nat) (isDigit : Char → Bool) : Reader (List Char) := do
  let first ← char isDigit
  return first :: (← many (char isDigit <|> do literal ['_']; char isDigit) limit)

/-- Decimal digits without leading zeros. -/
def naturalDigits (limit : Nat) : Reader (List Char) :=
  (do literal ['0']; return ['0']) <|> digits limit Char.isDigit

/-- A whole number, when it fits in 64 bits. -/
def bounded (n : Int) : Reader Value := do
  if -9223372036854775808 ≤ n ∧ n < 9223372036854775808 then return .integer n
  failure

def inBase (limit : Nat) (mark : Char) (base : Nat) (isDigit : Char → Bool) : Reader Value := do
  literal ['0', mark]
  bounded (Hex.fromDigits base (← digits limit isDigit))

def decimalInteger (limit : Nat) : Reader Value := do
  let sign ← maybe (char isSign)
  let magnitude : Int := Hex.fromDigits 10 (← naturalDigits limit)
  bounded (if sign = some '-' then -magnitude else magnitude)

def integer (limit : Nat) : Reader Value :=
  inBase limit 'x' 16 Hex.isDigit <|>
  inBase limit 'o' 8 (fun c => '0' ≤ c && c ≤ '7') <|>
  inBase limit 'b' 2 (fun c => c == '0' || c == '1') <|>
  decimalInteger limit

/-- Half a step above the largest number that 64 bits of floating point hold. -/
def tooLarge : Nat :=
  Nat.pow 2 1024 - Nat.pow 2 970

/-- Whether `digits · 10 ^ scale` is as large as `tooLarge`. Far from that the number of
digits decides. -/
def overflows (digits : List Char) (scale : Int) : Bool :=
  let digits := digits.dropWhile (· == '0')
  let size := digits.length + scale
  let n := Hex.fromDigits 10 digits
  if digits.isEmpty || size < 300 then false
  else if 320 < size then true
  else if 0 ≤ scale then tooLarge ≤ n * Nat.pow 10 scale.toNat
  else tooLarge * Nat.pow 10 (-scale).toNat ≤ n

def fraction (limit : Nat) : Reader (List Char) := do
  literal ['.']
  digits limit Char.isDigit

/-- A power of ten: its sign and its digits. -/
def exponent (limit : Nat) : Reader (List Char × List Char) := do
  let _ ← char fun c => c == 'e' || c == 'E'
  let sign ← maybe (char isSign)
  return (sign.toList, ← digits limit Char.isDigit)

/-- A number with a fraction, a power of ten or both. One above all that floating point holds
is refused; one below all is not. -/
def decimal (limit : Nat) : Reader Value := do
  let sign ← maybe (char isSign)
  let whole ← naturalDigits limit
  let part ← maybe (fraction limit)
  let power ← maybe (exponent limit)
  if part.isNone ∧ power.isNone then failure
  let (powerSign, powerDigits) := power.getD ([], ['0'])
  let shift : Int := Hex.fromDigits 10 powerDigits
  let scale := (if powerSign = ['-'] then -shift else shift) - (part.getD []).length
  if sign ≠ some '-' ∧ overflows (whole ++ part.getD []) scale then failure
  return .decimal (String.ofList (sign.toList ++ whole ++ ['.'] ++ part.getD ['0'] ++
    ['e'] ++ powerSign ++ powerDigits))

def endless : Reader Value := do
  let sign ← maybe (char isSign)
  let name ← (do literal "inf".toList; return "inf") <|> (do literal "nan".toList; return "nan")
  return .decimal (String.ofList sign.toList ++ name)

/-- A number of two digits up to a bound. -/
def upTo (bound : Nat) : Reader Nat := do
  let n ← twoDigits
  if n ≤ bound then return n
  failure

def date : Reader Date := do
  let year ← fourDigits
  literal ['-']
  let month ← upTo 12
  literal ['-']
  let day ← upTo 31
  if 1 ≤ month ∧ 1 ≤ day ∧ day ≤ (HeaderDate.monthLengths year).getD (month - 1) 0 then
    return { year, month, day }
  failure

/-- A time of the day, with seconds; the last minute may have one more for a leap second. -/
def time (limit : Nat) : Reader Time := do
  let hour ← upTo 23
  literal [':']
  let minute ← upTo 59
  literal [':']
  let second ← upTo 60
  let part ← maybe (do
    literal ['.']
    let first ← char Char.isDigit
    return first :: (← many (char Char.isDigit) limit))
  return { hour, minute, second, part := part.getD [] }

def offset : Reader Int :=
  (do let _ ← char fun c => c == 'Z' || c == 'z'; return 0) <|> do
    let sign ← char isSign
    let hour ← upTo 23
    literal [':']
    let minute ← upTo 59
    let minutes : Int := 60 * hour + minute
    return if sign = '-' then -minutes else minutes

def moment (limit : Nat) : Reader Value :=
  (do
    let day ← date
    let rest ← maybe (do
      let _ ← char fun c => c == 'T' || c == 't' || c == ' '
      return (← time limit, ← maybe offset))
    return .moment
      { date := some day, time := rest.map (·.1), offset := rest.bind (·.2) }) <|> do
    return .moment { time := some (← time limit) }

end PeerCache.Toml

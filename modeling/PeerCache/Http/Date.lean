import PeerCache.Text.Blank
import PeerCache.Text.Reader

/-!
# Dates in headers

A date counts the seconds since the start of 1970. It is written in one form, with a fixed
width for every part, and read in that form and two older ones. Reading is strict: the day
has to exist, to fall on the weekday that is named, and to lie between 1970 and 9999.
-/

namespace PeerCache.HeaderDate

def monthNames : List String :=
  ["Jan", "Feb", "Mar", "Apr", "May", "Jun", "Jul", "Aug", "Sep", "Oct", "Nov", "Dec"]

def dayNames : List String :=
  ["Mon", "Tue", "Wed", "Thu", "Fri", "Sat", "Sun"]

def longDayNames : List String :=
  ["Monday", "Tuesday", "Wednesday", "Thursday", "Friday", "Saturday", "Sunday"]

/-- The parts of a date; weekday and month count from zero, the day of the month from one. -/
structure Fields where
  weekday : Nat
  day : Nat
  month : Nat
  year : Nat
  hour : Nat
  minute : Nat
  second : Nat
  deriving DecidableEq, Repr

def isLeap (year : Nat) : Bool :=
  year % 4 == 0 && (year % 100 != 0 || year % 400 == 0)

def yearLength (year : Nat) : Nat :=
  if isLeap year then 366 else 365

def monthLengths (year : Nat) : List Nat :=
  [31, if isLeap year then 29 else 28, 31, 30, 31, 30, 31, 31, 30, 31, 30, 31]

/-- Days before the start of the year `1970 + n`. -/
def daysBeforeYear : Nat → Nat
  | 0 => 0
  | n + 1 => daysBeforeYear n + yearLength (1970 + n)

/-- Step over whole years, at most `limit` of them. -/
def splitYears : Nat → Nat → Nat → Nat × Nat
  | 0, year, days => (year, days)
  | limit + 1, year, days =>
    if days < yearLength year then (year, days)
    else splitYears limit (year + 1) (days - yearLength year)

/-- Step over whole months. -/
def splitMonths : List Nat → Nat → Nat → Nat × Nat
  | length :: rest, month, days =>
    if days < length then (month, days) else splitMonths rest (month + 1) (days - length)
  | [], month, days => (month, days)

/-- The parts of a count of seconds. The first of January 1970 was a Thursday. -/
def fields (seconds : Nat) : Fields :=
  let days := seconds / 86400
  let time := seconds % 86400
  let (year, inYear) := splitYears (days / 365) 1970 days
  let (month, inMonth) := splitMonths (monthLengths year) 0 inYear
  { weekday := (days + 3) % 7, day := inMonth + 1, month, year
    hour := time / 3600, minute := time / 60 % 60, second := time % 60 }

/-- The seconds up to a date whose parts are in range. -/
def Fields.seconds (f : Fields) : Nat :=
  let inYear := ((monthLengths f.year).take f.month).foldr (· + ·) 0 + (f.day - 1)
  let days := daysBeforeYear (f.year - 1970) + inYear
  days * 86400 + f.hour * 3600 + f.minute * 60 + f.second

def Fields.isReal (f : Fields) : Bool :=
  f.second < 60 && f.minute < 60 && f.hour < 24 &&
    1970 ≤ f.year && f.year ≤ 9999 && f.month < 12 &&
    1 ≤ f.day && f.day ≤ (monthLengths f.year).getD f.month 0 &&
    f.weekday == (fields f.seconds).weekday

/-- A number with leading zeros up to a width. -/
def padded (width n : Nat) : List Char :=
  let digits := (Nat.toDigits 10 n)
  List.replicate (width - digits.length) '0' ++ digits

def nameAt (names : List String) (i : Nat) : List Char :=
  (names.getD i "").toList

def format (seconds : Nat) : List Char :=
  let f := fields seconds
  nameAt dayNames f.weekday ++ [',', ' '] ++ padded 2 f.day ++ [' '] ++
    nameAt monthNames f.month ++ [' '] ++ padded 4 f.year ++ [' '] ++ padded 2 f.hour ++ [':'] ++
    padded 2 f.minute ++ [':'] ++ padded 2 f.second ++ [' ', 'G', 'M', 'T']

open Reader

def time : Reader (Nat × Nat × Nat) := do
  let hour ← twoDigits
  literal [':']
  let minute ← twoDigits
  literal [':']
  let second ← twoDigits
  return (hour, minute, second)

/-- `Sun, 06 Nov 1994 08:49:37 GMT` -/
def fixed : Reader Fields := do
  let weekday ← oneOf dayNames
  literal [',', ' ']
  let day ← twoDigits
  literal [' ']
  let month ← oneOf monthNames
  literal [' ']
  let year ← fourDigits
  literal [' ']
  let (hour, minute, second) ← time
  literal " GMT".toList
  atEnd
  return { weekday, day, month, year, hour, minute, second }

/-- `Sunday, 06-Nov-94 08:49:37 GMT`; two digits of a year mean 1970 to 2069. -/
def longNames : Reader Fields := do
  let weekday ← oneOf longDayNames
  literal [',', ' ']
  let day ← twoDigits
  literal ['-']
  let month ← oneOf monthNames
  literal ['-']
  let short ← twoDigits
  let _ ← char fun _ => true
  let (hour, minute, second) ← time
  literal " GMT".toList
  atEnd
  let year := if short < 70 then 2000 + short else 1900 + short
  return { weekday, day, month, year, hour, minute, second }

/-- `Sun Nov  6 08:49:37 1994` -/
def yearLast : Reader Fields := do
  let weekday ← oneOf dayNames
  literal [' ']
  let month ← oneOf monthNames
  literal [' ']
  let tens ← char fun c => c == ' ' || c.isDigit
  let ones ← digit
  literal [' ']
  let (hour, minute, second) ← time
  literal [' ']
  let year ← fourDigits
  atEnd
  let day := if tens = ' ' then ones else 10 * (tens.toNat - 48) + ones
  return { weekday, day, month, year, hour, minute, second }

def parseFields? (text : List Char) : Option Fields :=
  ((fixed <|> longNames <|> yearLast) text).map (·.1)

/-- Read a date in any of the three forms. -/
def parse? (text : List Char) : Option Nat :=
  match parseFields? (Text.trim text) with
  | some f => if f.isReal then some f.seconds else none
  | none => none

end PeerCache.HeaderDate

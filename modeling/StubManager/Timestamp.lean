import StubManager.Text.Blank

/-!
# Points in time

A `Timestamp` is a date and a time of day in UTC. `Timestamp.render` writes it the way
registries store it, and `Timestamp.parse?` reads what `render` writes and a few laxer forms:
blanks around the parts, one digit where two are usual, an offset instead of `Z`.
-/

namespace StubManager

/-- A date of the proleptic Gregorian calendar and a time of day, in UTC. A leap second counts the
nanoseconds of the second before it on beyond a billion. -/
structure Timestamp where
  year : Int
  month : Nat
  day : Nat
  hour : Nat
  minute : Nat
  second : Nat
  nanosecond : Nat
deriving DecidableEq, Repr, Inhabited

namespace Timestamp

/-! ## The calendar -/

/-- Whether the year has a 29th of February. -/
def isLeapYear (year : Int) : Bool :=
  year % 4 == 0 && (year % 100 != 0 || year % 400 == 0)

/-- The number of days in a month. -/
def daysInMonth (year : Int) (month : Nat) : Nat :=
  if month = 2 then (if isLeapYear year then 29 else 28)
  else if month = 4 ∨ month = 6 ∨ month = 9 ∨ month = 11 then 30 else 31

/-- The years that can be represented. -/
def minYear : Int := -262143

/-- The last year that can be represented. -/
def maxYear : Int := 262142

/-- The nanoseconds of a second. -/
def nanosecondsPerSecond : Nat := 1000000000

/-- Whether the fields can be held. A leap second may come behind any second. -/
def isHeld (t : Timestamp) : Bool :=
  minYear ≤ t.year && t.year ≤ maxYear && 1 ≤ t.month && t.month ≤ 12 && 1 ≤ t.day
    && t.day ≤ daysInMonth t.year t.month && t.hour < 24 && t.minute < 60 && t.second < 60
    && t.nanosecond < 2 * nanosecondsPerSecond

/-- Whether the point in time is one that texts have: a leap second is the last of its minute. -/
def isValid (t : Timestamp) : Bool :=
  t.isHeld && (t.nanosecond < nanosecondsPerSecond || t.second == 59)

/-- The day after. -/
def nextDay (t : Timestamp) : Timestamp :=
  if t.day < daysInMonth t.year t.month then { t with day := t.day + 1 }
  else if t.month < 12 then { t with month := t.month + 1, day := 1 }
  else { t with year := t.year + 1, month := 1, day := 1 }

/-- The day before. -/
def previousDay (t : Timestamp) : Timestamp :=
  if 1 < t.day then { t with day := t.day - 1 }
  else if 1 < t.month then
    { t with month := t.month - 1, day := daysInMonth t.year (t.month - 1) }
  else { t with year := t.year - 1, month := 12, day := 31 }

/-- The same time of a clock that is `minutes` behind; at most one day apart. -/
def minusMinutes (t : Timestamp) (minutes : Int) : Timestamp :=
  let total := (t.hour * 60 + t.minute : Int) - minutes
  let ofDay := (total % 1440).toNat
  let moved := { t with hour := ofDay / 60, minute := ofDay % 60 }
  if total < 0 then moved.previousDay else if 1440 ≤ total then moved.nextDay else moved

/-- The start of the next second; no leap second comes in between. -/
def nextSecond (t : Timestamp) : Timestamp :=
  if t.second < 59 then { t with second := t.second + 1, nanosecond := 0 }
  else { t with second := 0, nanosecond := 0 }.minusMinutes (-1)

/-- One nanosecond later. -/
def tick (t : Timestamp) : Timestamp :=
  let next := t.nanosecond + 1
  if next = nanosecondsPerSecond ∨ next = 2 * nanosecondsPerSecond then t.nextSecond
  else { t with nanosecond := next }

/-! ## Writing -/

/-- A number with zeros in front, at least `width` digits. -/
def padded (width n : Nat) : String :=
  let digits := toString n
  String.ofList (List.replicate (width - digits.length) '0') ++ digits

/-- A year: four digits, with a sign and at least four digits outside 0 to 9999. -/
def renderYear (year : Int) : String :=
  if 0 ≤ year ∧ year ≤ 9999 then padded 4 year.toNat
  else (if year < 0 then "-" else "+") ++ padded 4 year.natAbs

/-- The fraction of a second: as many groups of three digits as it takes. -/
def renderFraction (nanosecond : Nat) : String :=
  if nanosecond = 0 then ""
  else if nanosecond % 1000000 = 0 then "." ++ padded 3 (nanosecond / 1000000)
  else if nanosecond % 1000 = 0 then "." ++ padded 6 (nanosecond / 1000)
  else "." ++ padded 9 nanosecond

/-- The date with a hyphen between its parts. -/
def renderDate (t : Timestamp) : String :=
  renderYear t.year ++ "-" ++ padded 2 t.month ++ "-" ++ padded 2 t.day

/-- The form in which registries store a point in time. A leap second is the one behind the second
it belongs to. -/
def render (t : Timestamp) : String :=
  let second := t.second + t.nanosecond / nanosecondsPerSecond
  t.renderDate ++ "T" ++ padded 2 t.hour ++ ":" ++ padded 2 t.minute ++ ":" ++ padded 2 second
    ++ renderFraction (t.nanosecond % nanosecondsPerSecond) ++ "Z"

/-- The form for tables: date and minute. -/
def renderMinute (t : Timestamp) : String :=
  t.renderDate ++ " " ++ padded 2 t.hour ++ ":" ++ padded 2 t.minute

/-! ## Reading -/

/-- The value of decimal digits. -/
def ofDigits (digits : List Char) : Nat :=
  digits.foldl (fun n c => n * 10 + (c.toNat - '0'.toNat)) 0

/-- A number of one to `most` digits at the front of a text. -/
def number? (most : Nat) (text : List Char) : Option (Nat × List Char) :=
  let digits := (text.takeWhile Char.isDigit).take most
  if digits.isEmpty then none else some (ofDigits digits, text.drop digits.length)

/-- A number of any length at the front of a text. -/
def longNumber? (text : List Char) : Option (Nat × List Char) := number? text.length text

/-- A year: up to four digits, or a sign and any number of digits. -/
def year? (text : List Char) : Option (Int × List Char) :=
  match Text.trimStart text with
  | '-' :: text => (longNumber? text).map fun (n, text) => (-(n : Int), text)
  | '+' :: text => (longNumber? text).map fun (n, text) => ((n : Int), text)
  | text => (number? 4 text).map fun (n, text) => ((n : Int), text)

/-- One or two digits behind blanks. -/
def pair? (text : List Char) : Option (Nat × List Char) := number? 2 (Text.trimStart text)

/-- A character behind blanks. -/
def mark? (c : Char) (text : List Char) : Option (List Char) :=
  match Text.trimStart text with
  | c' :: text => if c' = c then some text else none
  | [] => none

/-- A fraction of a second in nanoseconds; digits behind the ninth do not count. -/
def fraction? : List Char → Option (Nat × List Char)
  | '.' :: text =>
    let digits := text.takeWhile Char.isDigit
    if digits.isEmpty then none
    else
      let nine := digits.take 9
      some (ofDigits nine * Nat.pow 10 (9 - nine.length), text.drop digits.length)
  | text => some (0, text)

/-- The distance from UTC in minutes: `UTC` or `Z`, or a sign with hours and minutes. -/
def offset? (text : List Char) : Option (Int × List Char) :=
  let signed (sign : Int) (text : List Char) : Option (Int × List Char) := do
    let two (text : List Char) : Option (Nat × List Char) :=
      match text with
      | a :: b :: text =>
        if a.isDigit ∧ b.isDigit then some (ofDigits [a, b], text) else none
      | _ => none
    let (hours, text) ← two text
    let (minutes, text) ← two (text.dropWhile fun c => c = ':' || Text.isBlank c)
    if 59 < minutes then none else some (sign * (hours * 60 + minutes : Nat), text)
  match text with
  | u :: t :: c :: rest =>
    if [u, t, c].map Char.toUpper = ['U', 'T', 'C'] then some (0, rest) else other signed text
  | _ => other signed text
where
  /-- `Z`, or a sign with hours and minutes. -/
  other (signed : Int → List Char → Option (Int × List Char)) :
      List Char → Option (Int × List Char)
    | 'Z' :: text | 'z' :: text => some (0, text)
    | '+' :: text => signed 1 text
    | '-' :: text | '−' :: text => signed (-1) text
    | _ => none

/-- Reads a point in time. -/
def parse? (text : String) : Option Timestamp := do
  let (year, text) ← year? text.toList
  let (month, text) ← mark? '-' text >>= pair?
  let (day, text) ← mark? '-' text >>= pair?
  let text ← match text with
    | c :: text => if c = 'T' ∨ c = 't' ∨ c = ' ' then some text else none
    | [] => none
  let (hour, text) ← pair? text
  let (minute, text) ← mark? ':' text >>= pair?
  let (second, text) ← mark? ':' text >>= pair?
  let (fraction, text) ← fraction? text
  let (offset, text) ← offset? (Text.trimStart text)
  guard (Text.trimStart text).isEmpty
  guard (offset.natAbs < 1440)
  let read : Timestamp :=
    if second = 60 then
      { year, month, day, hour, minute, second := 59
        nanosecond := nanosecondsPerSecond + fraction }
    else { year, month, day, hour, minute, second, nanosecond := fraction }
  guard read.isValid
  let t := read.minusMinutes offset
  guard t.isValid
  return t

end Timestamp

end StubManager

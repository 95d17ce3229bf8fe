import Wireform.Decimal.Style
import Wireform.Decimal.Reading

/-!
# Instants as text

An instant is a number of milliseconds since the start of 1970. Its text is a date
of the Gregorian calendar, a time of day and an offset from universal time.

* `Timestamp.parse?`: the instant that a text stands for.
* `Timestamp.text?`: the text of an instant, in universal time.
-/

namespace Wireform.Timestamp

/-- A day of the Gregorian calendar. -/
structure Day where
  year : Int
  month : Int
  day : Int
deriving DecidableEq

/-- Days between the first of March of the year zero and the start of 1970. -/
def epochShift : Int := 719468

/-- Days since the start of 1970. Years are counted from March on, so that a leap day comes last. -/
def Day.number (d : Day) : Int :=
  let year := if d.month ≤ 2 then d.year - 1 else d.year
  let yearOfEra := year % 400
  let dayOfYear := (153 * ((d.month + 9) % 12) + 2) / 5 + d.day - 1
  let dayOfEra := yearOfEra * 365 + yearOfEra / 4 - yearOfEra / 100 + dayOfYear
  year / 400 * 146097 + dayOfEra - epochShift

/-- The day so many days after the start of 1970. -/
def Day.ofNumber (number : Int) : Day :=
  let shifted := number + epochShift
  let dayOfEra := shifted % 146097
  let yearOfEra := (dayOfEra - dayOfEra / 1460 + dayOfEra / 36524 - dayOfEra / 146096) / 365
  let dayOfYear := dayOfEra - (365 * yearOfEra + yearOfEra / 4 - yearOfEra / 100)
  let monthFromMarch := (5 * dayOfYear + 2) / 153
  let month := if monthFromMarch < 10 then monthFromMarch + 3 else monthFromMarch - 9
  let year := yearOfEra + shifted / 146097 * 400
  ⟨if month ≤ 2 then year + 1 else year, month, dayOfYear - (153 * monthFromMarch + 2) / 5 + 1⟩

/-- Whether a year has a leap day. -/
def isLeapYear (year : Int) : Bool := year % 4 = 0 && (year % 100 ≠ 0 || year % 400 = 0)

/-- The number of days of a month. -/
def monthLength (year month : Int) : Int :=
  if month = 2 then if isLeapYear year then 29 else 28
  else if month = 4 ∨ month = 6 ∨ month = 9 ∨ month = 11 then 30
  else 31

/-- Whether a day exists. -/
def Day.exists (d : Day) : Bool :=
  1 ≤ d.month && d.month ≤ 12 && 1 ≤ d.day && d.day ≤ monthLength d.year d.month

/-- Exactly `count` digits. -/
def digits? (count : Nat) (s : List Char) : Option (Nat × List Char) :=
  let found := s.take count
  if found.length = count ∧ found.all Char.isDigit then some (ofDigits found, s.drop count)
  else none

/-- One character that has to come next. -/
def char? (c : Char) : List Char → Option (List Char)
  | [] => none
  | first :: rest => if first = c then some rest else none

/-- `YYYY-MM-DD`, for a day that exists. -/
def day? (s : List Char) : Option (Day × List Char) := do
  let (year, s) ← digits? 4 s
  let (month, s) ← digits? 2 (← char? '-' s)
  let (day, s) ← digits? 2 (← char? '-' s)
  let result : Day := ⟨year, month, day⟩
  if result.exists then some (result, s) else none

/-- What stands between the date and the time. -/
def separator? : List Char → Option (List Char)
  | 'T' :: rest => some rest
  | 't' :: rest => some rest
  | ' ' :: rest => some rest
  | _ => none

/-- A fraction of a second in milliseconds: a point and digits, of which three count. -/
def milliseconds? : List Char → Option (Nat × List Char)
  | '.' :: rest =>
    match takeDigits rest with
    | ([], _) => none
    | (digits, rest) => some (ofDigits ((digits ++ ['0', '0']).take 3), rest)
  | s => some (0, s)

/-- `hh:mm:ss` with an optional fraction, in milliseconds. Second 60 is the instant after
second 59. -/
def time? (s : List Char) : Option (Nat × List Char) := do
  let (hour, s) ← digits? 2 s
  let (minute, s) ← digits? 2 (← char? ':' s)
  let (second, s) ← digits? 2 (← char? ':' s)
  let (fraction, s) ← milliseconds? s
  if hour ≤ 23 ∧ minute ≤ 59 ∧ second ≤ 60 then
    some (((hour * 60 + minute) * 60 + second) * 1000 + fraction, s)
  else none

/-- The sign of an offset: plus, hyphen or minus sign. -/
def sign? : List Char → Option (Int × List Char)
  | '+' :: rest => some (1, rest)
  | '-' :: rest => some (-1, rest)
  | '\u2212' :: rest => some (-1, rest)
  | _ => none

/-- An offset from universal time in minutes: `Z`, or a sign and `hh:mm`. -/
def offset? (s : List Char) : Option (Int × List Char) :=
  match s with
  | 'Z' :: rest => some (0, rest)
  | 'z' :: rest => some (0, rest)
  | _ => do
    let (sign, s) ← sign? s
    let (hours, s) ← digits? 2 s
    let (minutes, s) ← digits? 2 (← char? ':' s)
    if hours ≤ 23 ∧ minutes ≤ 59 then some (sign * (hours * 60 + minutes), s) else none

/-- Milliseconds in a day. -/
def dayMillis : Int := 86400000

/-- The instant that a text stands for. -/
def parse? (text : String) : Option Int := do
  let (day, s) ← day? text.toList
  let (time, s) ← time? (← separator? s)
  let (offset, s) ← offset? s
  if s.isEmpty then some (day.number * dayMillis + time - offset * 60000) else none

/-- The first instant that has a text. -/
def first : Int := -8334601228800000

/-- The last instant that has a text. -/
def last : Int := 8210266876799999

/-- Digits with zeros in front. -/
def padded (width : Nat) (n : Nat) : List Char :=
  let digits := Decimal.digitChars n
  List.replicate (width - digits.length) '0' ++ digits

/-- A year has at least four digits, and a sign if it is not from `0000` to `9999`. -/
def yearChars (year : Int) : List Char :=
  (if year < 0 then ['-'] else if 9999 < year then ['+'] else []) ++ padded 4 year.natAbs

/-- The text of an instant, if it has one. -/
def text? (millis : Int) : Option String :=
  if first ≤ millis ∧ millis ≤ last then
    let day := Day.ofNumber (millis / dayMillis)
    let time := (millis % dayMillis).toNat
    some (String.ofList (yearChars day.year ++ '-' :: padded 2 day.month.toNat ++
      '-' :: padded 2 day.day.toNat ++ 'T' :: padded 2 (time / 3600000) ++
      ':' :: padded 2 (time / 60000 % 60) ++ ':' :: padded 2 (time / 1000 % 60) ++
      '.' :: padded 3 (time % 1000) ++ ['Z']))
  else none

end Wireform.Timestamp

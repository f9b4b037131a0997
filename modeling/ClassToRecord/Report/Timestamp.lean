import ClassToRecord.Calendar
import ClassToRecord.Text.Blank
import ClassToRecord.Text.Reader

open ClassToRecord.Text (Reader decimalValue isDigit number)

namespace ClassToRecord

/-- A point in universal time: days since 1970, seconds of the day, nanoseconds of the second.
    Within a leap second, which belongs to the second before it, there are a billion nanoseconds
    more. -/
structure Timestamp where
  day : Int
  second : Nat
  nano : Nat
deriving DecidableEq, Repr, Inhabited

namespace Timestamp

def billion : Nat := 1000000000

/-- Decimal digits with zeros in front. -/
def padded (width n : Nat) : String :=
  let digits := n.repr
  String.ofList (List.replicate (width - digits.length) '0') ++ digits

/-- The fewest of three, six or nine digits that are exact, or none. -/
def fractionText (nano : Nat) : String :=
  if nano = 0 then ""
  else if nano % 1000000 = 0 then "." ++ padded 3 (nano / 1000000)
  else if nano % 1000 = 0 then "." ++ padded 6 (nano / 1000)
  else "." ++ padded 9 nano

/-- Years that four digits cannot write have a sign. -/
def yearText (year : Int) : String :=
  if year < 0 then "-" ++ padded 4 year.natAbs
  else if year ≤ 9999 then padded 4 year.natAbs
  else "+" ++ padded 4 year.natAbs

def render (t : Timestamp) : String :=
  let date := Date.ofDays t.day
  let leap : Nat := if billion ≤ t.nano then 1 else 0
  yearText date.year ++ "-" ++ padded 2 date.month ++ "-" ++ padded 2 date.day ++ "T" ++
    padded 2 (t.second / 3600) ++ ":" ++ padded 2 (t.second / 60 % 60) ++ ":" ++
    padded 2 (t.second % 60 + leap) ++ fractionText (t.nano - leap * billion) ++ "Z"

/-- The time that has passed, in whole milliseconds toward zero. A leap second counts on the way to
    a later time of day. -/
def millisecondsSince (t start : Timestamp) : Int :=
  let leap : Int :=
    if start.second < t.second then (if billion ≤ start.nano then 1 else 0)
    else if t.second < start.second then (if billion ≤ t.nano then -1 else 0)
    else 0
  let seconds := (t.day - start.day) * 86400 + t.second - start.second + leap
  Int.tdiv (seconds * billion + t.nano - start.nano) 1000000

def skipBlanks (s : List Char) : List Char := s.dropWhile Text.isBlank

def literal (c : Char) : Reader Unit := fun s =>
  match skipBlanks s with
  | d :: rest => if c = d then some ((), rest) else none
  | [] => none

def pair : Reader Nat := fun s => number 2 (skipBlanks s)

def year : Reader Int := fun s =>
  match skipBlanks s with
  | '-' :: rest => (number rest.length rest).map fun (n, rest) => (-(n : Int), rest)
  | '+' :: rest => (number rest.length rest).map fun (n, rest) => ((n : Int), rest)
  | s => (number 4 s).map fun (n, rest) => ((n : Int), rest)

/-- The nanoseconds of a fraction. Digits after the ninth do not count. -/
def fraction : Reader Nat
  | '.' :: rest => do
    let (n, _) ← number 9 rest
    let digits := rest.takeWhile isDigit
    let places := min digits.length 9
    some (n * Nat.pow 10 (9 - places), rest.drop digits.length)
  | s => some (0, s)

/-- The minutes by which local time is ahead of universal time. -/
def offset : Reader Int := fun s =>
  match s with
  | 'z' :: rest | 'Z' :: rest => some (0, rest)
  | sign :: h1 :: h2 :: rest =>
    if (String.ofList [sign, h1, h2]).toLower = "utc" then some (0, rest)
    else do
      let factor ← match sign with
        | '+' => some (1 : Int)
        | '-' | '−' => some (-1)
        | _ => none
      guard (isDigit h1 && isDigit h2)
      match rest.dropWhile fun c => c = ':' || Text.isBlank c with
      | m1 :: m2 :: rest =>
        guard (isDigit m1 && isDigit m2 && m1 < '6')
        some (factor * (decimalValue [h1, h2] * 60 + decimalValue [m1, m2] : Nat), rest)
      | _ => none
  | _ => none

def timeSeparator : Reader Unit
  | 't' :: rest | 'T' :: rest | ' ' :: rest => some ((), rest)
  | _ => none

/-- The first day that a timestamp can name. -/
def firstDate : Date := ⟨-262143, 1, 1⟩

/-- The last day that a timestamp can name. -/
def lastDate : Date := ⟨262142, 12, 31⟩

def inCalendar (day : Int) : Bool := firstDate.toDays ≤ day && day ≤ lastDate.toDays

/-- The local time that fields name, moved to universal time. The second may be a leap second. The
    calendar has to have the local day and the universal one. -/
def ofFields? (date : Date) (hour minute second nano : Nat) (offset : Int) : Option Timestamp := do
  guard (date.isValid && inCalendar date.toDays)
  guard (hour < 24 && minute < 60 && second ≤ 60 && offset.natAbs < 24 * 60)
  let leap : Nat := if second = 60 then 1 else 0
  let secondOfDay : Nat := hour * 3600 + minute * 60 + second - leap
  let universal : Int := date.toDays * 86400 + secondOfDay - offset * 60
  guard (inCalendar (universal / 86400))
  some ⟨universal / 86400, (universal % 86400).toNat, nano + leap * billion⟩

/-- Reads a date, a time of day and an offset. Blanks between the parts and missing leading zeros do
    no harm. -/
def ofString? (text : String) : Option Timestamp := do
  let (year, s) ← year text.toList
  let ((), s) ← literal '-' s
  let (month, s) ← pair s
  let ((), s) ← literal '-' s
  let (day, s) ← pair s
  let ((), s) ← timeSeparator s
  let (hour, s) ← pair s
  let ((), s) ← literal ':' s
  let (minute, s) ← pair s
  let ((), s) ← literal ':' s
  let (second, s) ← pair s
  let (nano, s) ← fraction s
  let (offset, s) ← offset (skipBlanks s)
  guard (skipBlanks s).isEmpty
  ofFields? ⟨year, month, day⟩ hour minute second nano offset

end Timestamp

end ClassToRecord

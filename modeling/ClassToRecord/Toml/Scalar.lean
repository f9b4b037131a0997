import ClassToRecord.Calendar
import ClassToRecord.Toml.Value

open ClassToRecord.Text (decimalValue isDigit splitAt)

namespace ClassToRecord.Toml

def twoDigits? (s : List Char) : Option Nat :=
  match s with
  | [a, b] => if isDigit a && isDigit b then some (decimalValue [a, b]) else none
  | _ => none

def isDate (s : List Char) : Bool :=
  match splitAt (· = '-') s with
  | [year, month, day] =>
    year.length = 4 && year.all isDigit &&
      match twoDigits? month, twoDigits? day with
      | some month, some day => Date.isValid ⟨decimalValue year, month, day⟩
      | _, _ => false
  | _ => false

def isSecond (s : List Char) : Bool :=
  match splitAt (· = '.') s with
  | [whole] => (twoDigits? whole).any (· ≤ 60)
  | [whole, fraction] =>
    (twoDigits? whole).any (· ≤ 60) && !fraction.isEmpty && fraction.all isDigit
  | _ => false

/-- A time of day. The seconds may be left out. -/
def isClock (s : List Char) : Bool :=
  match splitAt (· = ':') s with
  | [hour, minute] => (twoDigits? hour).any (· < 24) && (twoDigits? minute).any (· < 60)
  | [hour, minute, second] =>
    (twoDigits? hour).any (· < 24) && (twoDigits? minute).any (· < 60) && isSecond second
  | _ => false

/-- A time of day, with an offset from universal time if there is one. -/
def isClockWithOffset (s : List Char) : Bool :=
  match s.reverse with
  | 'z' :: rest | 'Z' :: rest => isClock rest.reverse
  | m2 :: m1 :: ':' :: h2 :: h1 :: '+' :: rest | m2 :: m1 :: ':' :: h2 :: h1 :: '-' :: rest =>
    isClock rest.reverse && isClock [h1, h2, ':', m1, m2]
  | _ => isClock s

def isTime (s : List Char) : Bool :=
  let date := s.take 10
  match s.drop 10 with
  | [] => isDate date || isClock s
  | 'T' :: clock | 't' :: clock | ' ' :: clock =>
    (isDate date && isClockWithOffset clock) || isClock s
  | _ => isClock s

/-- The value that a word without quotes stands for. -/
def scalar? (s : List Char) : Option Value :=
  if s = ['t', 'r', 'u', 'e'] then some (.flag true)
  else if s = ['f', 'a', 'l', 's', 'e'] then some (.flag false)
  else if isTime s then some (.time (String.ofList s))
  else ((numeral? s).map .integer).or ((decimal? s).map .decimal)

end ClassToRecord.Toml

namespace ClassToRecord.Text

/-- Reads a value from the start of a text and returns what is left. -/
abbrev Reader (α : Type) := List Char → Option (α × List Char)

def isDigit (c : Char) : Bool := '0' ≤ c && c ≤ '9'

/-- The value of a hexadecimal digit. -/
def hexValue? (c : Char) : Option Nat :=
  if isDigit c then some (c.toNat - '0'.toNat)
  else if 'a' ≤ c ∧ c ≤ 'f' then some (c.toNat - 'a'.toNat + 10)
  else if 'A' ≤ c ∧ c ≤ 'F' then some (c.toNat - 'A'.toNat + 10)
  else none

/-- The number that decimal digits write. -/
def decimalValue (digits : List Char) : Nat :=
  digits.foldl (fun n c => n * 10 + (c.toNat - '0'.toNat)) 0

/-- A number of at least one digit and at most as many as given. -/
def number (most : Nat) : Reader Nat := fun s =>
  let digits := (s.takeWhile isDigit).take most
  if digits.isEmpty then none else some (decimalValue digits, s.drop digits.length)

/-- The parts of a text between the characters that separate it. -/
def splitAt (isSeparator : Char → Bool) : List Char → List (List Char)
  | [] => [[]]
  | c :: rest =>
    if isSeparator c then [] :: splitAt isSeparator rest
    else
      match splitAt isSeparator rest with
      | [] => [[c]]
      | part :: parts => (c :: part) :: parts

end ClassToRecord.Text

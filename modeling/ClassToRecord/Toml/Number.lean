import ClassToRecord.Text.Reader

open ClassToRecord.Text (hexValue? isDigit splitAt)

namespace ClassToRecord.Toml

/-- A whole number as it is written, apart from underscores. What stands for its digits may turn out
    to be something else when the number is asked for. -/
structure Numeral where
  negative : Bool
  base : Nat
  digits : List Char
deriving DecidableEq, Repr, Inhabited

/-- A number that is written with a point or an exponent, or one of the words for what is no
    number. -/
inductive Decimal where
  | finite (negative : Bool) (digits : Nat) (exponent : Int)
  | infinite (negative : Bool)
  | undefined
deriving DecidableEq, Repr, Inhabited

/-- The number that at least one digit writes. -/
def digits? (base : Nat) (s : List Char) : Option Nat :=
  if s.isEmpty then none
  else s.foldlM
    (fun n c => ((hexValue? c).filter (· < base)).map fun digit => n * base + digit) 0

def withoutUnderscores (s : List Char) : List Char := s.filter (· ≠ '_')

/-- The number that digits with single underscores between them write. -/
def grouped? (base : Nat) (s : List Char) : Option Nat :=
  if (splitAt (· = '_') s).all fun group => !group.isEmpty then digits? base (withoutUnderscores s)
  else none

/-- Whether a number is negative, and what follows its sign. -/
def readSign : List Char → Bool × List Char
  | '-' :: rest => (true, rest)
  | '+' :: rest => (false, rest)
  | s => (false, s)

def signed (negative : Bool) (n : Nat) : Int := if negative then -(n : Int) else n

/-- A decimal number without a sign. It starts with zero only if it is zero. -/
def natural? (s : List Char) : Option Nat :=
  if s.head? = some '0' && s.length ≠ 1 then none else grouped? 10 s

/-- The number that a numeral stands for, if its digits are digits. -/
def Numeral.value? (n : Numeral) : Option Int :=
  (digits? n.base n.digits).map (signed n.negative)

/-- Digits after the mark of their base. They may be missing. -/
def marked? (base : Nat) (s : List Char) : Option Numeral :=
  if s.isEmpty || (grouped? base s).isSome then some ⟨false, base, withoutUnderscores s⟩
  else none

def isHexDigit (c : Char) : Bool := (hexValue? c).isSome

/-- Groups that an underscore is before. There is a digit on either side of an underscore, of
    whatever base, and the rest of a group is left to those who ask for the number. -/
def areLoose : List (List Char) → Bool
  | [] => true
  | [group] => group.head?.any isHexDigit
  | group :: rest =>
    group.head?.any isHexDigit && group.getLast?.any isHexDigit && areLoose rest

/-- The digits of a decimal numeral, which starts with zero only if it is zero. A point or an
    exponent makes it another kind of number. -/
def isDecimalNumeral (s : List Char) : Bool :=
  match splitAt (· = '_') s with
  | [digits] => (natural? digits).isSome
  | first :: groups =>
    !first.isEmpty && first.all isDigit && first.head? ≠ some '0' && areLoose groups &&
      !s.any fun c => c = '.' || c = 'e' || c = 'E'
  | [] => false

/-- A whole number. Only a decimal one may have a sign. -/
def numeral? : List Char → Option Numeral
  | '0' :: 'x' :: rest => marked? 16 rest
  | '0' :: 'o' :: rest => marked? 8 rest
  | '0' :: 'b' :: rest => marked? 2 rest
  | s =>
    let (negative, s) := readSign s
    if isDecimalNumeral s then some ⟨negative, 10, withoutUnderscores s⟩ else none

/-- The digits on both sides of a point, if there is one, and how many are behind it. -/
def mantissa? (s : List Char) : Option (Nat × Nat) :=
  match splitAt (· = '.') s with
  | [whole] => (natural? whole).map (·, 0)
  | [whole, fraction] => do
    let n ← natural? whole
    let m ← grouped? 10 fraction
    let places := (withoutUnderscores fraction).length
    some (n * Nat.pow 10 places + m, places)
  | _ => none

def exponent? (s : List Char) : Option Int :=
  let (negative, s) := readSign s
  (grouped? 10 s).map (signed negative)

def decimal? (s : List Char) : Option Decimal :=
  let (negative, s) := readSign s
  if s = ['i', 'n', 'f'] then some (.infinite negative)
  else if s = ['n', 'a', 'n'] then some .undefined
  else
    match splitAt (fun c => c = 'e' || c = 'E') s with
    | [mantissa] =>
      if mantissa.contains '.' then
        (mantissa? mantissa).map fun (digits, places) => .finite negative digits (-(places : Int))
      else none
    | [mantissa, exponent] => do
      let (digits, places) ← mantissa? mantissa
      let exponent ← exponent? exponent
      some (.finite negative digits (exponent - places))
    | _ => none

/-- The least number that double precision rounds to infinity. It is halfway between the greatest
    finite number and the power of two that would come next. -/
def overflowBound : Nat := (Nat.pow 2 54 - 1) * Nat.pow 2 970

/-- Whether a number is too great for double precision. The bound has 309 digits, so that only
    numbers with as many before the point have to be compared with it. -/
def Decimal.overflows : Decimal → Bool
  | .finite _ digits exponent =>
    let size := (Nat.toDigits 10 digits).length + exponent
    digits ≠ 0 && (309 < size ||
      (size = 309 &&
        overflowBound * Nat.pow 10 (-exponent).toNat ≤ digits * Nat.pow 10 exponent.toNat))
  | _ => false

/-- Whether a number fits into 128 bits, with or without a sign. -/
def isWide (n : Int) : Bool := -(Nat.pow 2 127 : Int) ≤ n && n < (Nat.pow 2 128 : Int)

end ClassToRecord.Toml

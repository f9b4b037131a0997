namespace ClassToRecord.Text

/-- The characters with the Unicode property White_Space. -/
def isBlank (c : Char) : Bool :=
  let n := c.toNat
  (9 ≤ n && n ≤ 13) || n == 0x20 || n == 0x85 || n == 0xA0 || n == 0x1680 ||
    (0x2000 ≤ n && n ≤ 0x200A) || n == 0x2028 || n == 0x2029 || n == 0x202F ||
    n == 0x205F || n == 0x3000

/-- What the reader of a text sees first. -/
def firstVisible? (s : String) : Option Char := s.toList.find? (!isBlank ·)

/-- What the reader of a text sees last. -/
def lastVisible? (s : String) : Option Char := s.toList.reverse.find? (!isBlank ·)

/-- A text without the blanks around it. -/
def trimmed (s : String) : List Char :=
  ((s.toList.dropWhile isBlank).reverse.dropWhile isBlank).reverse

end ClassToRecord.Text

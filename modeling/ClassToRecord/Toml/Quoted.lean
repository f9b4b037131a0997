import ClassToRecord.Text.Reader

open ClassToRecord.Text (Reader hexValue?)

namespace ClassToRecord.Toml

/-- Characters that may not stand in a document. -/
def isControl (c : Char) : Bool := (c.toNat < 0x20 && c ≠ '\t') || c.toNat = 0x7F

def isSpace (c : Char) : Bool := c = ' ' || c = '\t'

/-- The character with the code point that hexadecimal digits write. -/
def charOf? (digits : List Char) : Option Char := do
  let values ← digits.mapM hexValue?
  let n := values.foldl (fun n d => n * 16 + d) 0
  if n.isValidChar then some (Char.ofNat n) else none

/-- The character that an escape of one letter stands for. -/
def simpleEscape? : Char → Option Char
  | 'b' => some '\x08'
  | 't' => some '\t'
  | 'n' => some '\n'
  | 'f' => some '\x0c'
  | 'r' => some '\r'
  | 'e' => some '\x1b'
  | '"' => some '"'
  | '\\' => some '\\'
  | _ => none

/-- Whether a backslash here hides the line break and the blanks after it. -/
def endsLine (s : List Char) : Bool :=
  match s.dropWhile isSpace with
  | '\n' :: _ | '\r' :: '\n' :: _ => true
  | _ => false

/-- The text that the inside of double quotes stands for. Only text with three quotes on either side
    has line breaks. -/
def unescape (multiline skipping : Bool) : List Char → Option (List Char)
  | [] => some []
  | '\\' :: 'u' :: a :: b :: c :: d :: rest => do
    let x ← charOf? [a, b, c, d]
    (unescape multiline false rest).map (x :: ·)
  | '\\' :: 'U' :: a :: b :: c :: d :: e :: f :: g :: h :: rest => do
    let x ← charOf? [a, b, c, d, e, f, g, h]
    (unescape multiline false rest).map (x :: ·)
  | '\\' :: 'x' :: a :: b :: rest => do
    let x ← charOf? [a, b]
    (unescape multiline false rest).map (x :: ·)
  | '\\' :: c :: rest =>
    if multiline && endsLine (c :: rest) then unescape multiline true rest
    else do
      let x ← simpleEscape? c
      (unescape multiline false rest).map (x :: ·)
  | '\r' :: '\n' :: rest =>
    if !multiline then none
    else if skipping then unescape multiline true rest
    else (unescape multiline false rest).map ('\n' :: ·)
  | c :: rest =>
    if skipping && (isSpace c || c = '\n') then unescape multiline true rest
    else if c = '\n' then
      if multiline then (unescape multiline false rest).map (c :: ·) else none
    else if c = '\\' || isControl c then none
    else (unescape multiline false rest).map (c :: ·)

/-- The text between single quotes, which has no escapes. -/
def verbatim? (multiline : Bool) : List Char → Option (List Char)
  | [] => some []
  | '\r' :: '\n' :: rest =>
    if multiline then (verbatim? multiline rest).map ('\n' :: ·) else none
  | c :: rest =>
    if c = '\n' && multiline then (verbatim? multiline rest).map (c :: ·)
    else if isControl c then none
    else (verbatim? multiline rest).map (c :: ·)

/-- The text up to the next quote, and what follows the quote. -/
def upToQuote (quote : Char) (escapes : Bool) : List Char → Option (List Char × List Char)
  | [] => none
  | c :: rest =>
    if c = quote then some ([], rest)
    else if c = '\\' && escapes then
      match rest with
      | [] => none
      | d :: rest => (upToQuote quote escapes rest).map fun (s, r) => (c :: d :: s, r)
    else (upToQuote quote escapes rest).map fun (s, r) => (c :: s, r)

/-- The text up to three quotes. Up to two quotes before them belong to the text. -/
def upToQuotes (quote : Char) (escapes : Bool) : List Char → Option (List Char × List Char)
  | [] => none
  | c :: rest =>
    if c = quote ∧ rest.take 2 = [quote, quote] then
      let more := ((rest.drop 2).take 2).takeWhile (· = quote)
      some (more, (rest.drop 2).drop more.length)
    else if c = '\\' && escapes then
      match rest with
      | [] => none
      | d :: rest => (upToQuotes quote escapes rest).map fun (s, r) => (c :: d :: s, r)
    else (upToQuotes quote escapes rest).map fun (s, r) => (c :: s, r)

/-- A line break right after the opening quotes does not count. -/
def dropFirstBreak : List Char → List Char
  | '\n' :: rest | '\r' :: '\n' :: rest => rest
  | s => s

/-- A text on one line in quotes of either kind. -/
def lineText : Reader String
  | '"' :: rest => do
    let (s, rest) ← upToQuote '"' true rest
    let s ← unescape false false s
    some (String.ofList s, rest)
  | '\'' :: rest => do
    let (s, rest) ← upToQuote '\'' false rest
    let s ← verbatim? false s
    some (String.ofList s, rest)
  | _ => none

/-- A text in quotes of any kind. -/
def anyText : Reader String
  | '"' :: '"' :: '"' :: rest => do
    let (s, rest) ← upToQuotes '"' true rest
    let s ← unescape true false (dropFirstBreak s)
    some (String.ofList s, rest)
  | '\'' :: '\'' :: '\'' :: rest => do
    let (s, rest) ← upToQuotes '\'' false rest
    let s ← verbatim? true (dropFirstBreak s)
    some (String.ofList s, rest)
  | s => lineText s

end ClassToRecord.Toml

import ClassToRecord.Toml.Quoted
import ClassToRecord.Toml.Scalar

open ClassToRecord.Text (Reader)

namespace ClassToRecord.Toml

def skipSpace (s : List Char) : List Char := s.dropWhile isSpace

/-- Skips blanks, line breaks and comments. -/
def skipTrivia (inComment : Bool) : List Char → Option (List Char)
  | [] => some []
  | '\n' :: rest | '\r' :: '\n' :: rest => skipTrivia false rest
  | c :: rest =>
    if inComment then (if isControl c then none else skipTrivia true rest)
    else if isSpace c then skipTrivia false rest
    else if c = '#' then skipTrivia true rest
    else some (c :: rest)

/-- Skips what may stand at the end of a line. -/
def skipLineEnd (inComment : Bool) : List Char → Option (List Char)
  | [] => some []
  | '\n' :: rest | '\r' :: '\n' :: rest => some rest
  | c :: rest =>
    if inComment then (if isControl c then none else skipLineEnd true rest)
    else if isSpace c then skipLineEnd false rest
    else if c = '#' then skipLineEnd true rest
    else none

def isBareKey (c : Char) : Bool := c.isAlphanum || c = '_' || c = '-'

def keyPart : Reader String := fun s =>
  let bare := s.takeWhile isBareKey
  if bare.isEmpty then lineText s else some (String.ofList bare, s.dropWhile isBareKey)

/-- How deep arrays and inline tables may be nested, and of how many parts a key may be. -/
def depthLimit : Nat := 80

/-- A key of at most as many parts as given. All but the last lead to its table. -/
def dottedKey (s : List Char) : Nat → Option ((List String × String) × List Char)
  | 0 => none
  | most + 1 => do
    let (part, s) ← keyPart s
    match skipSpace s with
    | '.' :: rest =>
      let ((path, key), s) ← dottedKey (skipSpace rest) most
      some ((part :: path, key), s)
    | s => some (([], part), s)

/-- What ends a word: blanks, line breaks, and the marks of the structure around it. -/
def wordEnds : List Char :=
  ['=', ',', '[', ']', '\x7b', '\x7d', '#', ' ', '\t', '\r', '\n']

def isWordChar (c : Char) : Bool := !wordEnds.contains c

/-- A word without quotes. A date and a time of day with a blank between them are one word. -/
def word (s : List Char) : List Char × List Char :=
  let first := s.takeWhile isWordChar
  let rest := s.dropWhile isWordChar
  match rest with
  | ' ' :: d :: _ =>
    if isDate first && Text.isDigit d then
      (first ++ ' ' :: rest.tail.takeWhile isWordChar, rest.tail.dropWhile isWordChar)
    else (first, rest)
  | _ => (first, rest)

/-- Skips what may stand on either side of an equals sign. In an inline table the line may end
    there. -/
def skipBesideEquals (inline : Bool) (s : List Char) : Option (List Char) :=
  if inline then skipTrivia false s else some (skipSpace s)

mutual

/-- A value in which arrays and inline tables are nested at most as deep as given. -/
def value (depth : Nat) (s : List Char) : Nat → Option (Value × List Char)
  | 0 => none
  | fuel + 1 =>
    match s with
    | '[' :: rest => do
      guard (depth ≠ 0)
      let (items, s) ← items (depth - 1) rest fuel
      some (.array items, s)
    | '\x7b' :: rest => do
      guard (depth ≠ 0)
      let (entries, s) ← inlineEntries (depth - 1) [] rest fuel
      some (.table (entriesToValues entries), s)
    | '"' :: _ | '\'' :: _ => (anyText s).map fun (s, rest) => (.text s, rest)
    | _ =>
      let (first, rest) := word s
      (scalar? first).map (·, rest)
termination_by structural fuel => fuel

/-- The items of an array after its bracket or a comma. -/
def items (depth : Nat) (s : List Char) : Nat → Option (List Value × List Char)
  | 0 => none
  | fuel + 1 => do
    match ← skipTrivia false s with
    | ']' :: rest => some ([], rest)
    | s =>
      let (item, s) ← value depth s fuel
      match ← skipTrivia false s with
      | ',' :: rest =>
        let (more, s) ← items depth rest fuel
        some (item :: more, s)
      | ']' :: rest => some ([item], rest)
      | _ => none
termination_by structural fuel => fuel

/-- The entries of an inline table after its brace or a comma, added to those before. -/
def inlineEntries (depth : Nat) (entries : Entries) (s : List Char) :
    Nat → Option (Entries × List Char)
  | 0 => none
  | fuel + 1 => do
    match ← skipTrivia false s with
    | '\x7d' :: rest => some (entries, rest)
    | s =>
      let ((path, key), item, s) ← keyValue true depth s fuel
      let entries ← addKey path key item entries
      match ← skipTrivia false s with
      | ',' :: rest => inlineEntries depth entries rest fuel
      | '\x7d' :: rest => some (entries, rest)
      | _ => none
termination_by structural fuel => fuel

/-- A key and the value after its equals sign. -/
def keyValue (inline : Bool) (depth : Nat) (s : List Char) :
    Nat → Option ((List String × String) × Value × List Char)
  | 0 => none
  | fuel + 1 => do
    let (key, s) ← dottedKey s depthLimit
    match ← skipBesideEquals inline s with
    | '=' :: rest =>
      let (item, s) ← value depth (← skipBesideEquals inline rest) fuel
      some (key, item, s)
    | _ => none
termination_by structural fuel => fuel

end

/-- One entry of a document, apart from blank lines and comments. -/
inductive Item where
  | keyValue (path : List String) (key : String) (value : Value)
  | table (path : List String) (key : String)
  | element (path : List String) (key : String)

def headerKey (s : List Char) : Option ((List String × String) × List Char) :=
  dottedKey (skipSpace s) depthLimit

def item : Reader Item
  | '[' :: '[' :: rest => do
    let ((path, key), s) ← headerKey rest
    match s with
    | ']' :: ']' :: rest => some (.element path key, rest)
    | _ => none
  | '[' :: rest => do
    let ((path, key), s) ← headerKey rest
    match s with
    | ']' :: rest => some (.table path key, rest)
    | _ => none
  | s => do
    let ((path, key), value, s) ← keyValue false depthLimit s (2 * s.length + 2)
    some (.keyValue path key value, s)

def itemList (s : List Char) : Nat → Option (List Item)
  | 0 => none
  | fuel + 1 => do
    match ← skipTrivia false s with
    | [] => some []
    | s =>
      let (first, s) ← item s
      let s ← skipLineEnd false s
      (itemList s fuel).map (first :: ·)

/-- Adds the items in order. Keys go to the table of the last header. -/
def assemble (current : List String) (entries : Entries) : List Item → Option Entries
  | [] => some entries
  | .keyValue path key value :: rest => do
    let entries ← changeAt false (fun _ => addKey path key value) current .header entries
    assemble current entries rest
  | .table path key :: rest => do
    let entries ← changeAt false (fun _ => addTable key) path .header entries
    assemble (path ++ [key]) entries rest
  | .element path key :: rest => do
    let entries ← changeAt false (fun _ => addElement key) path .header entries
    assemble (path ++ [key]) entries rest

def dropByteOrderMark : List Char → List Char
  | '\ufeff' :: rest => rest
  | s => s

/-- Reads a document. -/
def ofString? (text : String) : Option (List (String × Value)) := do
  let s := dropByteOrderMark text.toList
  let items ← itemList s (s.length + 1)
  let entries ← assemble [] [] items
  some (entriesToValues entries)

end ClassToRecord.Toml

import ClassToRecord.Toml.Number

namespace ClassToRecord.Toml

/-- A value of a configuration file. Whole numbers and times are kept as they are written. -/
inductive Value where
  | text (value : String)
  | flag (value : Bool)
  | integer (value : Numeral)
  | decimal (value : Decimal)
  | time (literal : String)
  | array (items : List Value)
  | table (entries : List (String × Value))
deriving Repr, Inhabited

mutual

/-- Whether all numbers in a value are numbers, of a size that a program can take in. -/
def Value.isReadable : Value → Bool
  | .integer n => n.value?.any isWide
  | .decimal d => !d.overflows
  | .array items => areReadable items
  | .table entries => entriesReadable entries
  | .text _ | .flag _ | .time _ => true

def areReadable : List Value → Bool
  | [] => true
  | item :: rest => item.isReadable && areReadable rest

def entriesReadable : List (String × Value) → Bool
  | [] => true
  | (_, item) :: rest => item.isReadable && entriesReadable rest

end

/-- How a table has come to be, which decides what may be added to it. -/
inductive Origin where
  /-- By a header of its own, or as an element of an array of tables. -/
  | header
  /-- As part of a longer header. -/
  | outer
  /-- By a dotted key. -/
  | dotted
deriving DecidableEq, Repr

/-- A document under construction. Leaves are complete. -/
inductive Node where
  | leaf (value : Value)
  | table (origin : Origin) (entries : List (String × Node))
  | tables (items : List (List (String × Node)))
deriving Repr, Inhabited

abbrev Entries := List (String × Node)

/-- Puts a node under a key, given the one that is there. -/
def alter (key : String) (f : Option Node → Option Node) : Entries → Option Entries
  | [] => (f none).map fun node => [(key, node)]
  | (k, node) :: rest =>
    if k = key then (f (some node)).map fun node => (k, node) :: rest
    else (alter key f rest).map ((k, node) :: ·)

/-- Follows a path to a table, through the last element of every array of tables, and changes that
    table. Tables on the way are made if they are missing. A dotted key may not enter a table that
    has a header of its own, and nothing enters a leaf. -/
def changeAt (isKey : Bool) (f : Origin → Entries → Option Entries) :
    List String → Origin → Entries → Option Entries
  | [], origin, entries => f origin entries
  | key :: path, _, entries =>
    let made := if isKey then Origin.dotted else .outer
    entries |> alter key fun
      | none => (changeAt isKey f path made []).map (.table made)
      | some (.table origin inner) =>
        if isKey && origin = .header then none
        else (changeAt isKey f path origin inner).map (.table origin)
      | some (.tables items) =>
        match items.getLast? with
        | none => none
        | some last =>
          (changeAt isKey f path .header last).map fun last =>
            .tables (items.dropLast ++ [last])
      | some (.leaf _) => none

/-- Adds a value under a dotted key. No key is there twice, and a key with dots adds to tables that
    such keys have made only. -/
def addKey (path : List String) (key : String) (value : Value) (entries : Entries) :
    Option Entries :=
  let add (origin : Origin) (inner : Entries) : Option Entries :=
    if !path.isEmpty && origin ≠ .dotted then none
    else inner |> alter key fun
      | none => some (.leaf value)
      | some _ => none
  changeAt true add path .header entries

/-- Opens the table that a header names. -/
def addTable (key : String) (entries : Entries) : Option Entries :=
  entries |> alter key fun
    | none => some (.table .header [])
    | some (.table .outer inner) => some (.table .header inner)
    | some _ => none

/-- Opens one more element of an array of tables. -/
def addElement (key : String) (entries : Entries) : Option Entries :=
  entries |> alter key fun
    | none => some (.tables [[]])
    | some (.tables items) => some (.tables (items ++ [[]]))
    | some _ => none

mutual

def Node.toValue : Node → Value
  | .leaf value => value
  | .table _ entries => .table (entriesToValues entries)
  | .tables items => .array (itemsToValues items)

def entriesToValues : List (String × Node) → List (String × Value)
  | [] => []
  | (key, node) :: rest => (key, node.toValue) :: entriesToValues rest

def itemsToValues : List (List (String × Node)) → List Value
  | [] => []
  | entries :: rest => .table (entriesToValues entries) :: itemsToValues rest

end

end ClassToRecord.Toml

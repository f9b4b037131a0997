import ClassToRecord.Ids

namespace ClassToRecord

structure Conflict where
  element : ElementId
  messages : List String
deriving DecidableEq, Repr, Inhabited

/-- Messages grouped by the element that they are about, elements in the order of their first
    message. -/
structure ConflictReport where
  conflicts : List Conflict := []
deriving DecidableEq, Repr, Inhabited

namespace ConflictReport

def empty : ConflictReport := ⟨[]⟩

def putInto (element : ElementId) (message : String) : List Conflict → List Conflict
  | [] => [⟨element, [message]⟩]
  | c :: rest =>
    if c.element = element then { c with messages := c.messages ++ [message] } :: rest
    else c :: putInto element message rest

def put (report : ConflictReport) (element : ElementId) (message : String) : ConflictReport :=
  ⟨putInto element message report.conflicts⟩

def putAll (report : ConflictReport) (entries : List (ElementId × String)) : ConflictReport :=
  entries.foldl (fun report entry => report.put entry.1 entry.2) report

def isEmpty (report : ConflictReport) : Bool := report.conflicts.isEmpty

/-- The number of elements with a conflict. -/
def size (report : ConflictReport) : Nat := report.conflicts.length

def get? (report : ConflictReport) (element : ElementId) : Option (List String) :=
  (report.conflicts.find? (·.element = element)).map Conflict.messages

def elements (report : ConflictReport) : List ElementId := report.conflicts.map Conflict.element

/-- Every message, element by element. -/
def messages (report : ConflictReport) : List String := report.conflicts.flatMap Conflict.messages

def messageCount (report : ConflictReport) : Nat := report.messages.length

end ConflictReport

end ClassToRecord

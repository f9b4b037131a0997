namespace ClassToRecord

/-- Identity of a declaration, a member, a parameter or a record component. It outlives renames:
    a component keeps the id of the field that it replaces. The number is one of 32 bits, and it is
    unbounded here: that numbers run out after 2^32 ids is left out. -/
structure ElementId where
  index : Nat
deriving DecidableEq, Repr, Inhabited

/-- How an element is named in messages that have nothing better than its id. -/
def ElementId.label (id : ElementId) : String := "#" ++ id.index.repr

/-- Identity of one reference fragment inside code. Its number is unbounded here as well. -/
structure RefId where
  index : Nat
deriving DecidableEq, Repr, Inhabited

namespace RefId

/-- Carried by fragments that no project has numbered yet. -/
def unassigned : RefId := ⟨0⟩

def isAssigned (id : RefId) : Bool := id != unassigned

def label (id : RefId) : String := "ref#" ++ id.index.repr

end RefId

end ClassToRecord

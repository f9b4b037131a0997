import ClassToRecord.Ids
import ClassToRecord.OrderedMap

namespace ClassToRecord

/-- The method that reads a key field, and the field that it really returns. -/
structure AccessorBinding where
  accessor : ElementId
  backingField : ElementId
  /-- The accessor already has the name that a record would give it. -/
  recordStyle : Bool := false
deriving DecidableEq, Repr, Inhabited

/-- A class to convert, with its key fields paired with their accessors. -/
structure Candidate where
  declaration : ElementId
  fields : OrderedMap ElementId (Option AccessorBinding)
  constructor? : Option ElementId := none

namespace Candidate

def isKeyField (c : Candidate) (field : ElementId) : Bool := c.fields.contains field

/-- The fields that have a binding, with it. -/
def bindings (c : Candidate) : List (ElementId × AccessorBinding) :=
  c.fields.entries.filterMap fun (field, binding?) => binding?.map (field, ·)

def bindingForAccessor? (c : Candidate) (method : ElementId) : Option AccessorBinding :=
  (c.bindings.map Prod.snd).find? (·.accessor = method)

/-- Whether a field becomes a component: it has no accessor, or one that returns this field. -/
def isComponent (c : Candidate) (field : ElementId) : Bool :=
  match c.fields.get? field with
  | none => false
  | some none => true
  | some (some binding) => binding.backingField = field

end Candidate

end ClassToRecord

import ClassToRecord.Ids

namespace ClassToRecord

/-- Why an operation on a project gives up. -/
inductive Fault where
  | renameUnknown (element : ElementId)
  | searchUnknown (element : ElementId)
  | foreignSite (ref : RefId) (actual expected : ElementId)
  | referenceMissing (ref : RefId)
  | renamedMissing (element : ElementId)
  | notRenameable (element : ElementId)
  | declarationMissing (id : ElementId)
  | elementMissing (id : ElementId)
  | accessorMissing (accessor field : ElementId)
  | backingFieldMissing (field : ElementId)
  | fieldNotInBuilder (field : ElementId)
  | confirmationFailed (reason : String)
deriving DecidableEq, Repr

def Fault.message : Fault → String
  | .renameUnknown e => "cannot prepare rename of unknown element " ++ e.label
  | .searchUnknown e => "cannot search usages of unknown element " ++ e.label
  | .foreignSite ref actual expected =>
    ref.label ++ " resolves to " ++ actual.label ++ ", not " ++ expected.label
  | .referenceMissing ref => ref.label ++ " not found"
  | .renamedMissing e => "rename target " ++ e.label ++ " not found"
  | .notRenameable e => e.label ++ " is not a renameable member"
  | .declarationMissing id => "declaration " ++ id.label ++ " not found"
  | .elementMissing id => "element " ++ id.label ++ " not found"
  | .accessorMissing accessor field =>
    "accessor " ++ accessor.label ++ " of field " ++ field.label ++ " not found"
  | .backingFieldMissing field => "backing field " ++ field.label ++ " not found"
  | .fieldNotInBuilder field => "field " ++ field.label ++ " is not declared in this builder"
  | .confirmationFailed reason => reason

/-- What was under way when a fault arose. -/
inductive Activity where
  | collecting (subject : String)
  | preparingRename (element : ElementId) (newName : String)
  | findingUsages (element : ElementId)
  | renaming (element : ElementId) (newName : String)
  | replacing (declaration : ElementId)
deriving DecidableEq, Repr

def Activity.message : Activity → String
  | .collecting subject => "collect usages of " ++ subject
  | .preparingRename e name => "prepare rename of " ++ e.label ++ " to " ++ name
  | .findingUsages e => "find usages of " ++ e.label
  | .renaming e name => "rename " ++ e.label ++ " to " ++ name
  | .replacing id => "replace declaration " ++ id.label

/-- A fault and the activities around it, the outermost first. -/
structure Failure where
  fault : Fault
  during : List Activity := []
deriving DecidableEq, Repr

namespace Failure

def within (activity : Activity) (f : Failure) : Failure :=
  { f with during := activity :: f.during }

/-- One line per activity, and the fault last. -/
def layers (f : Failure) : List String := f.during.map Activity.message ++ [f.fault.message]

def outermost (f : Failure) : String := (f.layers.head?).getD ""

def message (f : Failure) : String := ": ".intercalate f.layers

end Failure

/-- Refuses with a fault that no activity surrounds. -/
def refuse {α : Type} (fault : Fault) : Except Failure α := .error ⟨fault, []⟩

/-- Names the activity that a failure interrupts. -/
def during {α : Type} (activity : Activity) (result : Except Failure α) : Except Failure α :=
  result.mapError (Failure.within activity)

/-- The value, or the fault that says what is missing. -/
def orRefuse {α : Type} (value : Option α) (fault : Fault) : Except Failure α :=
  match value with
  | some a => .ok a
  | none => refuse fault

end ClassToRecord

import ClassToRecord.Candidate
import ClassToRecord.Syntax.Declaration

namespace ClassToRecord

/-- Why a declaration cannot take the shape of a record. -/
inductive ShapeError where
  | declarationMissing (id : ElementId)
  | fieldNotMember (field : ElementId) (owner : String)
  | accessorNotMember (accessor : ElementId) (owner : String)
  | backingFieldNotMember (field : ElementId) (owner : String)
  | constructorNotMember (constructor : ElementId) (owner : String)
  | arityMismatch (signature : String) (parameters components : Nat)
  | typeMismatch (parameter component : Parameter) (signature : String)
  | crossAssignment (parameter signature other component : String)
  | noIdentifier (id : ElementId)
  | noHeaderPlace (subject : String)
deriving DecidableEq, Repr

private def notMember (kind : String) (id : ElementId) (owner : String) : String :=
  kind ++ " " ++ id.label ++ " is not a member of '" ++ owner ++ "'"

def ShapeError.message : ShapeError → String
  | .declarationMissing id => "declaration " ++ id.label ++ " not found"
  | .fieldNotMember id owner => notMember "field" id owner
  | .accessorNotMember id owner => notMember "accessor" id owner
  | .backingFieldNotMember id owner => notMember "backing field" id owner
  | .constructorNotMember id owner => notMember "constructor" id owner
  | .arityMismatch signature parameters components =>
    "canonical constructor '" ++ signature ++ "' has " ++ parameters.repr ++
      " parameters, record header has " ++ components.repr
  | .typeMismatch parameter component signature =>
    "parameter '" ++ parameter.render ++ "' of canonical constructor '" ++ signature ++
      "' does not match record component '" ++ component.render ++ "'"
  | .crossAssignment parameter signature other component =>
    "parameter '" ++ parameter ++ "' of canonical constructor '" ++ signature ++
      "' is assigned to '" ++ other ++ "', not to record component '" ++ component ++ "'"
  | .noIdentifier id => "declaration " ++ id.label ++ " has no identifier"
  | .noHeaderPlace subject => "no place for the record header in " ++ subject

namespace Candidate

/-- What is missing for a key field, its accessor or the field behind it. -/
def entryError? (c : Declaration) (entry : ElementId × Option AccessorBinding) :
    Option ShapeError :=
  let owner := c.name?.getD "?"
  let (field, binding?) := entry
  if (c.field? field).isNone then some (.fieldNotMember field owner)
  else
    match binding? with
    | none => none
    | some binding =>
      if (c.method? binding.accessor).isNone then
        some (.accessorNotMember binding.accessor owner)
      else if (c.field? binding.backingField).isNone then
        some (.backingFieldNotMember binding.backingField owner)
      else none

def constructorError? (candidate : Candidate) (c : Declaration) : Option ShapeError :=
  match candidate.constructor? with
  | none => none
  | some constructor =>
    if (c.method? constructor).isNone then
      some (.constructorNotMember constructor (c.name?.getD "?"))
    else none

/-- The first element of the candidate that the class does not have. -/
def memberError? (candidate : Candidate) (c : Declaration) : Option ShapeError :=
  (candidate.fields.entries.findSome? (entryError? c)).or (candidate.constructorError? c)

/-- The header that the record gets: its components in the order of the fields. -/
def componentsOf (candidate : Candidate) (c : Declaration) : List Parameter :=
  (c.fields.filter (candidate.isComponent ·.id)).map Field.toComponent

end Candidate

end ClassToRecord

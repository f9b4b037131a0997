import ClassToRecord.Record.Shape

namespace ClassToRecord.Method

/-- The component to which the body assigns a parameter, as far as its first assignment shows. -/
def assignedComponent? (m : Method) (components : List Parameter) (parameter : ElementId) :
    Option Parameter :=
  match m.body.assignments.find? (·.2 = parameter) with
  | none => none
  | some (field, _) => components.find? (·.id = field)

/-- Why a parameter does not fit the component at its position. -/
def parameterError? (m : Method) (components : List Parameter)
    (pair : Parameter × Parameter) : Option ShapeError :=
  let (parameter, component) := pair
  if parameter.type ≠ component.type then
    some (.typeMismatch parameter component m.signature)
  else
    match m.assignedComponent? components parameter.id with
    | none => none
    | some other =>
      if other.id = component.id then none
      else some (.crossAssignment parameter.name m.signature other.name component.name)

/-- Parameters keep their ids and take the types and names of the components. -/
def recordParameters (m : Method) (components : List Parameter) : List Parameter :=
  List.zipWith (fun parameter component => { component with id := parameter.id })
    m.parameters components

/-- Spells a reference to a parameter like the parameter. -/
def followParameter (parameters : List Parameter) (r : Reference) : Reference :=
  match parameters.find? (·.id = r.target) with
  | none => r
  | some parameter => r.renamed parameter.name

/-- The canonical constructor of the record. Parameters belong to components by position, so one
    that has another type or feeds another component is an error. -/
def toCanonical (m : Method) (components : List Parameter) (classVisibility : Visibility) :
    Except ShapeError Method :=
  if m.parameters.length ≠ components.length then
    .error (.arityMismatch m.signature m.parameters.length components.length)
  else
    match (m.parameters.zip components).findSome? (m.parameterError? components) with
    | some error => .error error
    | none =>
      let parameters := m.recordParameters components
      .ok { m with
        modifiers.visibility := m.modifiers.visibility.max classVisibility
        parameters
        body := m.body.mapReferences (followParameter parameters) }

end ClassToRecord.Method

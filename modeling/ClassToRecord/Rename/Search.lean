import ClassToRecord.Hierarchy
import ClassToRecord.OrderedMap
import ClassToRecord.Project.Description
import ClassToRecord.Text.Path

namespace ClassToRecord

/-- New names by element, in the order in which the renames have to run. -/
abbrev RenamePlan := OrderedMap ElementId String

namespace Project

/-- The elements that get a new name together: a method takes its overriders along. -/
def renamedTogether (p : Project) (element : ElementId) : List ElementId :=
  if (p.method? element).isSome then p.hierarchy element else [element]

/-- Adds the overriders of a method to a plan, except those that have a new name already. -/
def prepareRenaming (p : Project) (element : ElementId) (newName : String) (plan : RenamePlan) :
    Except Failure RenamePlan :=
  if (p.containing? element).isNone then refuse (.renameUnknown element)
  else
    .ok ((p.renamedTogether element).tail.foldl (fun plan e => plan.insertIfNew e newName) plan)

/-- A method that takes over plain calls by the new name, unless it loses that name itself. -/
def captures (newName : String) (plan : RenamePlan) (m : Method) : Bool :=
  !m.isConstructor && m.name == newName && m.parameters.isEmpty && !plan.contains m.id

/-- What goes wrong if an unqualified reference in a declaration gets the new name. References
    beside the target cannot be captured, because there the target itself comes first. -/
def collision? (p : Project) (d : Declaration) (target : ElementId) (newName : String)
    (plan : RenamePlan) : Option String :=
  match p.containing? target with
  | none => none
  | some owner =>
    if d.id = owner then none
    else
      (d.methods.find? (captures newName plan)).map fun captor =>
        "reference in " ++ p.describe d.id ++ " would resolve to " ++ p.describe captor.id ++
          " after renaming " ++ p.describe target

/-- The references in one declaration to any of the given elements. -/
def usagesIn (p : Project) (wanted : List ElementId) (newName : String) (plan : RenamePlan)
    (d : Declaration) : List ReferenceSite :=
  (d.qualifiedReferences.filter fun (r, _) => wanted.contains r.target).map fun (r, qualified) =>
    siteOf d r (if qualified then none else p.collision? d r.target newName plan)

/-- Every reference to an element and to those that are renamed with it, in project order. -/
def findUsages (p : Project) (element : ElementId) (newName : String) (plan : RenamePlan) :
    Except Failure (List ReferenceSite) :=
  if (p.containing? element).isNone then refuse (.searchUnknown element)
  else .ok (p.declarations.flatMap (p.usagesIn (p.renamedTogether element) newName plan))

/-- The methods that stand in the way of a new name for a method beside them. -/
def namesakes (newName : String) (plan : RenamePlan) (m : Method) (id : ElementId)
    (owner : Declaration) : List Method :=
  owner.methods.filter fun e =>
    e.id != id && !plan.contains e.id && e.name == newName &&
      e.parameters.length == m.parameters.length

/-- The methods that already have the new name where a method or one of its overriders lands, each
    reported against the method that lands there. -/
def nameConflicts (p : Project) (element : ElementId) (newName : String) (plan : RenamePlan) :
    List (ElementId × String) :=
  (p.hierarchy element).flatMap fun id =>
    match p.method? id, p.owner? id with
    | some m, some owner =>
      (namesakes newName plan m id owner).map fun e =>
        (id, p.describe e.id ++ " is already defined in " ++ p.describe owner.id)
    | _, _ => []

/-- Whether code in a declaration may use a member of another one that has this visibility. -/
def sees (d scope : Declaration) : Visibility → Bool
  | .private => d.id = scope.id
  | .package | .protected => Text.sameFolder d.file scope.file
  | .public => true

/-- The declarations that refer to an element and could not any more, if it had this visibility
    inside the scope. -/
def accessibilityConflicts (p : Project) (elements : List ElementId) (scope : ElementId)
    (visibility : Visibility) : List (ElementId × String) :=
  match p.declaration? scope with
  | none => []
  | some scopeDeclaration =>
    elements.flatMap fun element =>
      (p.declarations.filter fun d =>
        d.references.any (·.target = element) && !sees d scopeDeclaration visibility).map fun d =>
          (element, p.describe element ++ " with " ++ visibility.displayName ++
            " visibility won't be accessible from " ++ p.describe d.id)

end Project

end ClassToRecord

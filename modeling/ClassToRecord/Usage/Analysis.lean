import ClassToRecord.Conflict
import ClassToRecord.Usage.Collection

namespace ClassToRecord

namespace Project

def collisions (usages : List Usage) : List (ElementId × String) :=
  (sitesOf usages).filterMap fun site => site.collision?.map (site.element, ·)

/-- The conflict that a usage itself states, or those that its rename runs into. -/
def conflictsOf (p : Project) (plan : RenamePlan) : Usage → List (ElementId × String)
  | .encapsulationRisk element message => [(element, message)]
  | .accessorRename element newName none => p.nameConflicts element newName plan
  | _ => []

/-- The fields that become private, each once. -/
def fieldsToHide (usages : List Usage) : List ElementId :=
  newOnes [] (usages.filterMap fun
    | .directFieldReference field => some field
    | _ => none)

/-- The conflicts of a conversion: captured references, then what each usage brings, then
    references to fields that become private. -/
def analyze (p : Project) (c : Candidate) (usages : List Usage) (plan : RenamePlan) :
    ConflictReport :=
  ConflictReport.empty.putAll
    (collisions usages ++ usages.flatMap (p.conflictsOf plan) ++
      p.accessibilityConflicts (fieldsToHide usages) c.declaration .private)

end Project

end ClassToRecord

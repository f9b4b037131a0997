import ClassToRecord.Candidate
import ClassToRecord.Rename.Search

namespace ClassToRecord

/-- What a conversion has to do about the accessor of a key field. -/
inductive AccessorClass where
  | noAccessor
  /-- It has the name that the record gives it, or its binding says so. -/
  | recordStyle
  | needsRename (target : ElementId) (newName : String)
deriving DecidableEq, Repr

/-- Usages together with the renames that they imply. -/
structure CollectedUsages where
  usages : List Usage := []
  plan : RenamePlan := ∅

def CollectedUsages.siteCount (c : CollectedUsages) : Nat := (sitesOf c.usages).length

namespace Project

/-- An accessor takes the name of its backing field, and the rename starts at its topmost
    ancestor. -/
def classify (p : Project) (field : ElementId) (binding? : Option AccessorBinding) :
    Except Failure AccessorClass :=
  match binding? with
  | none => .ok .noAccessor
  | some binding =>
    if binding.recordStyle then .ok .recordStyle
    else do
      let accessor ← orRefuse (p.method? binding.accessor)
        (.accessorMissing binding.accessor field)
      let backing ← orRefuse (p.field? binding.backingField)
        (.backingFieldMissing binding.backingField)
      if accessor.name = backing.name then .ok .recordStyle
      else .ok (.needsRename (p.renameTarget binding.accessor) backing.name)

def knownVisibility (p : Project) (element : ElementId) : Except Failure Visibility :=
  orRefuse (p.visibility? element) (.elementMissing element)

/-- Plans the rename of a target and finds its references. The marker comes before the sites. -/
def collectRename (p : Project) (target : ElementId) (newName : String) (acc : CollectedUsages) :
    Except Failure CollectedUsages := do
  let plan ← during (.preparingRename target newName)
    (p.prepareRenaming target newName (acc.plan.insert target newName))
  let sites ← during (.findingUsages target) (p.findUsages target newName plan)
  let found := sites.map fun site => Usage.accessorRename site.element newName (some site)
  .ok { usages := acc.usages ++ .accessorRename target newName none :: found, plan }

/-- Collects what one key field brings. -/
def collectField (p : Project) (acc : CollectedUsages)
    (entry : ElementId × Option AccessorBinding) : Except Failure CollectedUsages := do
  let (field, binding?) := entry
  let visibility ← p.knownVisibility field
  let direct := if visibility = .private then [] else [Usage.directFieldReference field]
  let acc := { acc with usages := acc.usages ++ direct }
  match ← p.classify field binding? with
  | .needsRename target newName => p.collectRename target newName acc
  | _ => .ok acc

/-- A member that is less visible than its class although the record makes it as visible. -/
def riskOf (p : Project) (classVisibility : Visibility) (member : ElementId)
    (change : Visibility → String) : Except Failure (List Usage) := do
  let visibility ← p.knownVisibility member
  if visibility.isWeakerThan classVisibility then
    .ok [.encapsulationRisk member (p.describe member ++ " has " ++ visibility.displayName ++
      " visibility but " ++ change classVisibility)]
  else .ok []

/-- The member that decides how visible a component is so far, and what the record calls it. -/
def governingMember : ElementId × Option AccessorBinding → ElementId × String
  | (field, none) => (field, "component accessor")
  | (_, some binding) => (binding.accessor, "accessor")

/-- The risk that a key field brings. Record accessors are always public. -/
def fieldRisk (p : Project) (classVisibility : Visibility)
    (entry : ElementId × Option AccessorBinding) : Except Failure (List Usage) :=
  let (member, subject) := governingMember entry
  p.riskOf classVisibility member fun _ =>
    "its record " ++ subject ++ " will be " ++ Visibility.public.displayName

def constructorRisk (p : Project) (classVisibility : Visibility) (c : Candidate) :
    Except Failure (List Usage) :=
  match c.constructor? with
  | none => .ok []
  | some constructor =>
    p.riskOf classVisibility constructor fun v => "will be raised to " ++ v.displayName

/-- One usage per member that the record makes more visible, the constructor last. -/
def encapsulationRisks (p : Project) (c : Candidate) : Except Failure (List Usage) := do
  let classVisibility ← orRefuse (p.visibility? c.declaration) (.declarationMissing c.declaration)
  let risks ← c.fields.entries.mapM (p.fieldRisk classVisibility)
  let last ← p.constructorRisk classVisibility c
  .ok (risks.flatten ++ last)

/-- Everything that converting the candidate affects, field by field, and the risks at the end if
    they are asked for. -/
def collect (p : Project) (c : Candidate) (searchWeakened : Bool) :
    Except Failure CollectedUsages := do
  let collected ← c.fields.entries.foldlM p.collectField {}
  if searchWeakened then
    let risks ← p.encapsulationRisks c
    .ok { collected with usages := collected.usages ++ risks }
  else .ok collected

end Project

end ClassToRecord

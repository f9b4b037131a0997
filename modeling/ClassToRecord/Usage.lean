import ClassToRecord.Ids

namespace ClassToRecord

/-- A reference fragment that a search has found, and where it stands. -/
structure ReferenceSite where
  ref : RefId
  element : ElementId
  declaration : ElementId
  file : String
  /-- Says what the reference would mean instead, once its element is renamed. -/
  collision? : Option String := none
deriving DecidableEq, Repr, Inhabited

/-- One thing that a conversion affects. -/
inductive Usage where
  /-- References from outside to a field that the record makes private. -/
  | directFieldReference (field : ElementId)
  /-- A rename of an accessor, or with a site one reference that the rename rewrites. -/
  | accessorRename (element : ElementId) (newName : String) (site? : Option ReferenceSite)
  /-- A member that the record makes more visible. -/
  | encapsulationRisk (element : ElementId) (message : String)
deriving DecidableEq, Repr, Inhabited

inductive UsageKind where
  | directFieldReference
  | accessorRename
  | encapsulationRisk
deriving DecidableEq, Repr

namespace UsageKind

def name : UsageKind → String
  | .directFieldReference => "direct_field_reference"
  | .accessorRename => "accessor_rename_reference"
  | .encapsulationRisk => "encapsulation_risk"

end UsageKind

namespace Usage

def element : Usage → ElementId
  | .directFieldReference field => field
  | .accessorRename element _ _ => element
  | .encapsulationRisk element _ => element

def kind : Usage → UsageKind
  | .directFieldReference _ => .directFieldReference
  | .accessorRename _ _ _ => .accessorRename
  | .encapsulationRisk _ _ => .encapsulationRisk

/-- Structural usages are about the conversion itself and ask for no rename. -/
def isStructural : Usage → Bool
  | .accessorRename _ _ _ => false
  | _ => true

def site? : Usage → Option ReferenceSite
  | .accessorRename _ _ site => site
  | _ => none

end Usage

/-- The reference sites among usages, in order. -/
def sitesOf (usages : List Usage) : List ReferenceSite := usages.filterMap Usage.site?

end ClassToRecord

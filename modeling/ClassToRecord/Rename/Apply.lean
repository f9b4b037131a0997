import ClassToRecord.Rename.Search

namespace ClassToRecord

def Child.isMember (element : ElementId) : Child → Bool
  | .method m => m.id = element
  | .field f => f.id = element
  | _ => false

def Child.renameMember (element : ElementId) (newName : String) : Child → Child
  | .method m => .method (if m.id = element then { m with name := newName } else m)
  | .field f => .field (if f.id = element then { f with name := newName } else f)
  | child => child

namespace Declaration

def hasMember (d : Declaration) (element : ElementId) : Bool :=
  d.children.any (Child.isMember element)

def renameMember (element : ElementId) (newName : String) (d : Declaration) : Declaration :=
  { d with children := d.children.map (Child.renameMember element newName) }

/-- Spells the references with the given ids in a new way. -/
def respell (refs : List RefId) (newName : String) (d : Declaration) : Declaration :=
  d.mapReferences fun r => if refs.contains r.id then r.renamed newName else r

end Declaration

namespace Project

/-- The first thing that is wrong with a list of sites for a rename. -/
def siteFault? (p : Project) (element : ElementId) (sites : List ReferenceSite) : Option Fault :=
  sites.findSome? fun site =>
    if site.element ≠ element then some (.foreignSite site.ref site.element element)
    else if (p.reference? site.ref).isNone then some (.referenceMissing site.ref)
    else none

def renameInOwner (element : ElementId) (newName : String) : List Declaration → List Declaration
  | [] => []
  | d :: rest =>
    if d.declares element then d.renameMember element newName :: rest
    else d :: renameInOwner element newName rest

/-- Renames a method or a field and the references at the given sites. Nothing else changes, and
    nothing at all if any of it cannot be done. -/
def renameElement (p : Project) (element : ElementId) (newName : String)
    (sites : List ReferenceSite) : Except Failure Project :=
  match p.siteFault? element sites, p.owner? element with
  | some fault, _ => refuse fault
  | none, none => refuse (.renamedMissing element)
  | none, some owner =>
    if owner.hasMember element then
      .ok { p with
        declarations := (renameInOwner element newName p.declarations).map
          (Declaration.respell (sites.map ReferenceSite.ref) newName) }
    else refuse (.notRenameable element)

/-- How far a plan was carried out: the project as it is then, and the number of rewritten sites
    or the failure that stopped it. -/
structure RenameRun where
  project : Project
  result : Except Failure Nat

def renameEach (sites : List ReferenceSite) (p : Project) (rewritten : Nat) :
    List (ElementId × String) → RenameRun
  | [] => ⟨p, .ok rewritten⟩
  | (element, newName) :: rest =>
    let own := sites.filter (·.element = element)
    match during (.renaming element newName) (p.renameElement element newName own) with
    | .error failure => ⟨p, .error failure⟩
    | .ok p => renameEach sites p (rewritten + own.length) rest

/-- Carries out a plan in its order, each rename with the sites that name its element. -/
def applyRenames (p : Project) (plan : RenamePlan) (usages : List Usage) : RenameRun :=
  renameEach (sitesOf usages) p 0 plan.entries

end Project

end ClassToRecord

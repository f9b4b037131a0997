import ClassToRecord.Failure
import ClassToRecord.Syntax.Declaration
import ClassToRecord.Usage

namespace ClassToRecord

/-- An ordered list of top-level declarations, with the last element id and the last reference id
    that the project has given out. Both are counters of 32 bits, and neither overflows here: projects
    that have given out 2^32 ids are left out. -/
structure Project where
  declarations : List Declaration := []
  lastElement : Nat := 0
  lastReference : Nat := 0
deriving DecidableEq, Repr, Inhabited

namespace Project

def declarationIds (p : Project) : List ElementId := p.declarations.map Declaration.id

def declaration? (p : Project) (id : ElementId) : Option Declaration :=
  p.declarations.find? (·.id = id)

/-- The first declaration that is, or contains, the element. -/
def owner? (p : Project) (id : ElementId) : Option Declaration :=
  p.declarations.find? (·.declares id)

def containing? (p : Project) (id : ElementId) : Option ElementId :=
  (p.owner? id).map Declaration.id

/-- The declaration in which members with the id are looked up. -/
def home? (p : Project) (id : ElementId) : Option Declaration :=
  (p.containing? id).bind p.declaration?

def field? (p : Project) (id : ElementId) : Option Field := (p.home? id).bind (·.field? id)

def method? (p : Project) (id : ElementId) : Option Method := (p.home? id).bind (·.method? id)

def visibility? (p : Project) (id : ElementId) : Option Visibility :=
  ((p.declaration? id).map Declaration.visibility).or <|
    ((p.field? id).map (·.modifiers.visibility)).or <|
      (p.method? id).map (·.modifiers.visibility)

def methods (p : Project) : List Method := p.declarations.flatMap Declaration.methods

/-- The methods that a method overrides directly, in the order in which it lists them. -/
def superMethods (p : Project) (method : ElementId) : List ElementId :=
  (p.method? method).elim [] Method.superMethods

/-- The methods that directly override a method, in project order. -/
def overriders (p : Project) (method : ElementId) : List ElementId :=
  (p.methods.filter (·.superMethods.contains method)).map Method.id

def references (p : Project) : List Reference := p.declarations.flatMap Declaration.references

def reference? (p : Project) (id : RefId) : Option Reference := p.references.find? (·.id = id)

def render? (p : Project) (id : ElementId) : Option String :=
  (p.declaration? id).map Declaration.render

/-- Where a reference in a declaration stands. -/
def siteOf (d : Declaration) (r : Reference) (collision? : Option String) : ReferenceSite :=
  { ref := r.id, element := r.target, declaration := d.id, file := d.file, collision? }

/-- The references to exactly this element, in project order. -/
def referencesTo (p : Project) (element : ElementId) : List ReferenceSite :=
  p.declarations.flatMap fun d =>
    (d.references.filter (·.target = element)).map (siteOf d · none)

/-- A fresh id, without a look at the ids that declarations brought along. There is always a next
    one, as the overflow after 2^32 allocations is left out. -/
def allocate (p : Project) : ElementId × Project :=
  (⟨p.lastElement + 1⟩, { p with lastElement := p.lastElement + 1 })

def parameter (p : Project) (type name : String) : Parameter × Project :=
  let (id, p) := p.allocate
  (⟨id, type, name⟩, p)

/-- Adds a declaration at the end and numbers its new references. -/
def insert (p : Project) (d : Declaration) : Project :=
  let (d, last) := d.number p.lastReference
  { p with declarations := p.declarations ++ [d], lastReference := last }

def replaceFirst (id : ElementId) (new : Declaration) : List Declaration → List Declaration
  | [] => []
  | d :: rest => if d.id = id then new :: rest else d :: replaceFirst id new rest

/-- Puts a declaration in the place of the first one with the id, and numbers its new references. -/
def replaceDeclaration (p : Project) (id : ElementId) (d : Declaration) :
    Except Failure Project :=
  if (p.declaration? id).isNone then refuse (.declarationMissing id)
  else
    let (d, last) := d.number p.lastReference
    .ok { p with declarations := replaceFirst id d p.declarations, lastReference := last }

end Project

end ClassToRecord

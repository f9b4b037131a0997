import ClassToRecord.Project.Basic

namespace ClassToRecord

/-- A declaration under construction, with the project that gives out its ids. -/
structure DeclarationBuilder where
  project : Project
  declaration : Declaration
  /-- Whether the opening brace is written. -/
  opened : Bool := false
deriving Repr, Inhabited

namespace DeclarationBuilder

def space (s : String) : Child := .trivia (.whitespace s)

def verbatim (s : String) : Child := .code (Code.ofText s)

def start (p : Project) (keyword : Keyword) (file name : String) : DeclarationBuilder :=
  let (id, project) := p.allocate
  let children := [.keyword keyword, space " ", .identifier name, .typeParameters ""]
  { project, declaration := ⟨id, file, children⟩ }

def id (b : DeclarationBuilder) : ElementId := b.declaration.id

def mapChildren (b : DeclarationBuilder) (f : List Child → List Child) : DeclarationBuilder :=
  { b with declaration.children := f b.declaration.children }

def modifiers (b : DeclarationBuilder) (m : Modifiers) : DeclarationBuilder :=
  b.mapChildren fun
    | .modifiers _ :: rest => .modifiers m :: rest
    | children => .modifiers m :: children

def typeParameters (b : DeclarationBuilder) (text : String) : DeclarationBuilder :=
  b.mapChildren fun children => children.map fun
    | .typeParameters _ => .typeParameters text
    | child => child

/-- Adds a clause after what is there, so it has to come before the first member. -/
def implements (b : DeclarationBuilder) (clause : String) : DeclarationBuilder :=
  b.mapChildren (· ++ [verbatim (" implements " ++ clause)])

def openBrace (b : DeclarationBuilder) : DeclarationBuilder :=
  if b.opened then b else { b.mapChildren (· ++ [verbatim " \x7b"]) with opened := true }

/-- Every member starts on a line of its own. -/
def member (b : DeclarationBuilder) (child : Child) : DeclarationBuilder :=
  b.openBrace.mapChildren (· ++ [space "\n    ", child])

def allocate (b : DeclarationBuilder) : ElementId × DeclarationBuilder :=
  let (id, project) := b.project.allocate
  (id, { b with project })

def parameter (b : DeclarationBuilder) (type name : String) : Parameter × DeclarationBuilder :=
  let (param, project) := b.project.parameter type name
  (param, { b with project })

def field (b : DeclarationBuilder) (modifiers : Modifiers) (type name : String)
    (initializer? : Option Code) : ElementId × DeclarationBuilder :=
  let (id, b) := b.allocate
  (id, b.member (.field { id, modifiers, type, name, initializer? }))

def methodOrConstructor (b : DeclarationBuilder) (modifiers : Modifiers)
    (returnType? : Option String) (name : String) (parameters : List Parameter) (body : Code) :
    ElementId × DeclarationBuilder :=
  let (id, b) := b.allocate
  (id, b.member (.method { id, modifiers, returnType?, name, parameters, body }))

def method (b : DeclarationBuilder) (modifiers : Modifiers) (returnType name : String)
    (parameters : List Parameter) (body : Code) : ElementId × DeclarationBuilder :=
  b.methodOrConstructor modifiers (some returnType) name parameters body

/-- A method without a body, as an interface declares it. -/
def abstractMethod (b : DeclarationBuilder) (modifiers : Modifiers) (returnType name : String) :
    ElementId × DeclarationBuilder :=
  b.method modifiers returnType name [] (Code.ofText ";")

def constructor (b : DeclarationBuilder) (modifiers : Modifiers) (parameters : List Parameter)
    (body : Code) : ElementId × DeclarationBuilder :=
  b.methodOrConstructor modifiers none (b.declaration.name?.getD "") parameters body

def field? (b : DeclarationBuilder) (id : ElementId) : Except Failure Field :=
  orRefuse (b.declaration.field? id) (.fieldNotInBuilder id)

/-- A method that returns a field of the class. -/
def accessor (b : DeclarationBuilder) (modifiers : Modifiers) (name : String)
    (field : ElementId) : Except Failure ElementId × DeclarationBuilder :=
  match b.field? field with
  | .error failure => (.error failure, b)
  | .ok f =>
    let body := Code.ofText " \x7b\n        return " ++ Code.ofReference field f.name ++
      Code.ofText ";\n    \x7d"
    let (id, b) := b.method modifiers f.type name [] body
    (.ok id, b)

/-- The statement that stores a constructor parameter in its field. -/
def assignment (field : Field) (param : Parameter) : Code :=
  Code.ofText "\n        this." ++ Code.ofReference field.id field.name ++ Code.ofText " = " ++
    Code.ofReference param.id field.name ++ Code.ofText ";"

/-- One parameter and one assignment per field. The ids of parameters stay used even if a later
    field is unknown. -/
def assignFields (b : DeclarationBuilder) : List ElementId →
    Except Failure (List Parameter × Code) × DeclarationBuilder
  | [] => (.ok ([], ⟨[]⟩), b)
  | id :: rest =>
    match b.field? id with
    | .error failure => (.error failure, b)
    | .ok f =>
      let (param, b) := b.parameter f.type f.name
      let (result, b) := assignFields b rest
      (result.map fun (params, body) => (param :: params, assignment f param ++ body), b)

/-- A constructor with one parameter per field, in the given order, that assigns each of them. -/
def canonicalConstructor (b : DeclarationBuilder) (modifiers : Modifiers)
    (fields : List ElementId) : Except Failure ElementId × DeclarationBuilder :=
  match b.assignFields fields with
  | (.error failure, b) => (.error failure, b)
  | (.ok (params, body), b) =>
    let (id, b) := b.constructor modifiers params
      (Code.ofText " \x7b" ++ body ++ Code.ofText "\n    \x7d")
    (.ok id, b)

def addSuperMethod (method superMethod : ElementId) : List Child → List Child
  | [] => []
  | .method m :: rest =>
    if m.id = method then
      .method { m with superMethods := m.superMethods ++ [superMethod] } :: rest
    else .method m :: addSuperMethod method superMethod rest
  | child :: rest => child :: addSuperMethod method superMethod rest

/-- Notes that the first method with the id directly overrides another one. -/
def overrides (b : DeclarationBuilder) (method superMethod : ElementId) : DeclarationBuilder :=
  b.mapChildren (addSuperMethod method superMethod)

def comment (b : DeclarationBuilder) (text : String) : DeclarationBuilder :=
  b.member (.trivia (.comment text))

/-- Member code that is taken as it stands, such as a nested type. -/
def code (b : DeclarationBuilder) (code : Code) : DeclarationBuilder := b.member (.code code)

/-- Closes the declaration and hands it to the project. -/
def finish (b : DeclarationBuilder) : Project :=
  let closed := b.openBrace.mapChildren (· ++ [verbatim "\n\x7d"])
  closed.project.insert closed.declaration

end DeclarationBuilder

end ClassToRecord

import ClassToRecord.Syntax.Member

namespace ClassToRecord

inductive Keyword where
  | «class»
  | interface
  | record
deriving DecidableEq, Repr, Inhabited

def Keyword.render : Keyword → String
  | .class => "class"
  | .interface => "interface"
  | .record => "record"

/-- Text that has no meaning for the compiler. -/
inductive Trivia where
  | whitespace (text : String)
  | comment (text : String)
deriving DecidableEq, Repr, Inhabited

def Trivia.render : Trivia → String
  | .whitespace s | .comment s => s

/-- One piece of a declaration: a token, a member, or text between them. -/
inductive Child where
  | modifiers (value : Modifiers)
  | keyword (value : Keyword)
  | identifier (name : String)
  | typeParameters (text : String)
  | header (components : List Parameter)
  | field (value : Field)
  | method (value : Method)
  | trivia (value : Trivia)
  | code (value : Code)
deriving DecidableEq, Repr, Inhabited

namespace Child

def isSignificant : Child → Bool
  | .trivia _ => false
  | _ => true

def isWhitespace : Child → Bool
  | .trivia (.whitespace _) => true
  | _ => false

def field? : Child → Option Field
  | .field f => some f
  | _ => none

def method? : Child → Option Method
  | .method m => some m
  | _ => none

def identifier? : Child → Option String
  | .identifier name => some name
  | _ => none

def keyword? : Child → Option Keyword
  | .keyword k => some k
  | _ => none

def modifiers? : Child → Option Modifiers
  | .modifiers m => some m
  | _ => none

def header? : Child → Option (List Parameter)
  | .header components => some components
  | _ => none

/-- The code that a child holds, and with it all its references. -/
def code? : Child → Option Code
  | .field f => f.initializer?
  | .method m => some m.body
  | .code c => some c
  | _ => none

def mapCode (f : Code → Code) : Child → Child
  | .field fld => .field { fld with initializer? := fld.initializer?.map f }
  | .method m => .method { m with body := f m.body }
  | .code c => .code (f c)
  | child => child

/-- The elements that a child brings into being. -/
def declaredIds : Child → List ElementId
  | .field f => [f.id]
  | .method m => m.id :: m.parameters.map Parameter.id
  | .header components => components.map Parameter.id
  | _ => []

def render : Child → String
  | .modifiers m => m.render
  | .keyword k => k.render
  | .identifier name => name
  | .typeParameters text => text
  | .header components => "(" ++ Parameter.renderList components ++ ")"
  | .field f => f.render
  | .method m => m.render
  | .trivia t => t.render
  | .code c => c.render

def references (c : Child) : List Reference := c.code?.elim [] Code.references

def qualifiedReferences (c : Child) : List (Reference × Bool) :=
  c.code?.elim [] Code.qualifiedReferences

/-- Numbers the references of a child that have no id. -/
def number (last : Nat) : Child → Child × Nat
  | .field f =>
    match f.initializer? with
    | none => (.field f, last)
    | some value =>
      let (value, last) := value.number last
      (.field { f with initializer? := some value }, last)
  | .method m =>
    let (body, last) := m.body.number last
    (.method { m with body }, last)
  | .code c =>
    let (c, last) := c.number last
    (.code c, last)
  | child => (child, last)

end Child

/-- A top-level class, interface or record as a row of children. Its text is theirs in order. -/
structure Declaration where
  id : ElementId
  file : String
  children : List Child
deriving DecidableEq, Repr, Inhabited

namespace Declaration

def render (d : Declaration) : String := String.join (d.children.map Child.render)

def name? (d : Declaration) : Option String := d.children.findSome? Child.identifier?

def keyword? (d : Declaration) : Option Keyword := d.children.findSome? Child.keyword?

/-- Package visibility is the level of a declaration without modifiers. -/
def visibility (d : Declaration) : Visibility :=
  ((d.children.findSome? Child.modifiers?).map Modifiers.visibility).getD .package

/-- The header components, of which only a record has any. -/
def components (d : Declaration) : List Parameter := (d.children.findSome? Child.header?).getD []

def fields (d : Declaration) : List Field := d.children.filterMap Child.field?

def methods (d : Declaration) : List Method := d.children.filterMap Child.method?

def field? (d : Declaration) (id : ElementId) : Option Field := d.fields.find? (·.id = id)

def method? (d : Declaration) (id : ElementId) : Option Method := d.methods.find? (·.id = id)

/-- The declaration itself, its members, and their parameters or components. -/
def declaredIds (d : Declaration) : List ElementId := d.id :: d.children.flatMap Child.declaredIds

def declares (d : Declaration) (id : ElementId) : Bool := d.declaredIds.contains id

def references (d : Declaration) : List Reference := d.children.flatMap Child.references

def qualifiedReferences (d : Declaration) : List (Reference × Bool) :=
  d.children.flatMap Child.qualifiedReferences

def mapReferences (f : Reference → Reference) (d : Declaration) : Declaration :=
  { d with children := d.children.map (Child.mapCode (Code.mapReferences f)) }

def numberChildren (last : Nat) : List Child → List Child × Nat
  | [] => ([], last)
  | c :: rest =>
    let (c, last) := c.number last
    let (rest, last) := numberChildren last rest
    (c :: rest, last)

/-- Numbers the references that have no id, in source order, starting after last. -/
def number (last : Nat) (d : Declaration) : Declaration × Nat :=
  let (children, last) := numberChildren last d.children
  ({ d with children }, last)

end Declaration

end ClassToRecord

import ClassToRecord.Syntax.Code
import ClassToRecord.Visibility

namespace ClassToRecord

/-- Visibility and the other modifier words, annotations among them, in source order. -/
structure Modifiers where
  visibility : Visibility
  keywords : List String := []
deriving DecidableEq, Repr, Inhabited

/-- A word and the blank after it. -/
def word (s : String) : String := s ++ " "

/-- Annotations lead, the visibility follows, the other words come last. -/
def Modifiers.render (m : Modifiers) : String :=
  let leads (w : String) : Bool := w.toList.head? == some '@'
  String.join ((m.keywords.filter leads).map word ++
    m.visibility.keyword?.toList.map word ++
    (m.keywords.filter (!leads ·)).map word)

/-- A constructor or method parameter, or a component of a record header. -/
structure Parameter where
  id : ElementId
  type : String
  name : String
deriving DecidableEq, Repr, Inhabited

namespace Parameter

def render (p : Parameter) : String := p.type ++ " " ++ p.name

def renderList (ps : List Parameter) : String := ", ".intercalate (ps.map render)

end Parameter

structure Field where
  id : ElementId
  modifiers : Modifiers
  type : String
  name : String
  initializer? : Option Code := none
deriving DecidableEq, Repr, Inhabited

namespace Field

def render (f : Field) : String :=
  let value := match f.initializer? with
    | none => ""
    | some code => " = " ++ code.render
  f.modifiers.render ++ f.type ++ " " ++ f.name ++ value ++ ";"

/-- The record component that takes the place of a field has the id of that field. -/
def toComponent (f : Field) : Parameter := ⟨f.id, f.type, f.name⟩

end Field

/-- A method, or a constructor when it has no return type. The body is everything after the
    parameter list, braces included. -/
structure Method where
  id : ElementId
  modifiers : Modifiers
  returnType? : Option String
  name : String
  parameters : List Parameter
  body : Code
  superMethods : List ElementId := []
deriving DecidableEq, Repr, Inhabited

namespace Method

def isConstructor (m : Method) : Bool := m.returnType?.isNone

def signature (m : Method) : String :=
  m.name ++ "(" ++ ", ".intercalate (m.parameters.map Parameter.type) ++ ")"

def render (m : Method) : String :=
  let result := match m.returnType? with
    | none => ""
    | some type => type ++ " "
  m.modifiers.render ++ result ++ m.name ++ "(" ++ Parameter.renderList m.parameters ++ ")" ++
    m.body.render

end Method

end ClassToRecord

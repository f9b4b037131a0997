import ClassToRecord.Project.Basic

namespace ClassToRecord.Project

private def quoted (s : String) : String := "'" ++ s ++ "'"

/-- How messages speak of an element: its kind and its name, or else its id. -/
def describe (p : Project) (id : ElementId) : String :=
  match p.declaration? id with
  | some d => (d.keyword?.elim "type" Keyword.render) ++ " " ++ quoted (d.name?.getD "?")
  | none =>
    let owner := ((p.home? id).bind Declaration.name?).getD "?"
    match p.field? id, p.method? id with
    | some f, _ => "field " ++ quoted (owner ++ "." ++ f.name)
    | none, some m =>
      if m.isConstructor then "constructor " ++ quoted m.signature
      else "method " ++ quoted (owner ++ "." ++ m.signature)
    | none, none => "element " ++ id.label

end ClassToRecord.Project

import ClassToRecord.Project.Description
import ClassToRecord.Record.Constructor

namespace ClassToRecord

namespace Declaration

def insertAfterTypeParameters (header : Child) : List Child → List Child
  | [] => []
  | .typeParameters text :: rest => .typeParameters text :: header :: rest
  | child :: rest => child :: insertAfterTypeParameters header rest

/-- Places the header after the name. Type parameters that follow the name belong to it, and a
    name that nothing but trivia follows leaves no place. -/
def insertAfterName (header : Child) (rest : List Child) : Option (List Child) :=
  match rest.find? Child.isSignificant with
  | none => none
  | some (.typeParameters _) => some (insertAfterTypeParameters header rest)
  | some _ => some (header :: rest)

/-- Places the header after the first identifier. -/
def insertHeader (header : Child) : List Child → Option (List Child)
  | [] => none
  | .identifier name :: rest => (insertAfterName header rest).map (.identifier name :: ·)
  | child :: rest => (insertHeader header rest).map (child :: ·)

end Declaration

namespace Candidate

/-- What becomes of one child in the record. Key fields and bound accessors vanish. -/
def recordChild (candidate : Candidate) (components : List Parameter)
    (classVisibility : Visibility) : Child → Except ShapeError (Option Child)
  | .keyword .class => .ok (some (.keyword .record))
  | .field f => .ok (if candidate.isKeyField f.id then none else some (.field f))
  | .method m =>
    if candidate.constructor? = some m.id then
      (m.toCanonical components classVisibility).map fun m => some (.method m)
    else .ok (if (candidate.bindingForAccessor? m.id).isSome then none else some (.method m))
  | child => .ok (some child)

end Candidate

/-- Takes one whitespace child off the end of what is written, which is listed backwards. -/
def dropWhitespace : List Child → List Child
  | [] => []
  | child :: rest => if child.isWhitespace then rest else child :: rest

/-- Closes the gaps that vanished children leave, each with the whitespace before it. -/
def closeGaps (written : List Child) : List (Option Child) → List Child
  | [] => written.reverse
  | some child :: rest => closeGaps (child :: written) rest
  | none :: rest => closeGaps (dropWhitespace written) rest

namespace Project

/-- The record that takes the place of the candidate class. It keeps the id and the file, and what
    is not named by the candidate stays as it is. -/
def rebuildRecord (p : Project) (candidate : Candidate) : Except ShapeError Declaration :=
  match p.declaration? candidate.declaration with
  | none => .error (.declarationMissing candidate.declaration)
  | some c =>
    match candidate.memberError? c with
    | some error => .error error
    | none => do
      let components := candidate.componentsOf c
      let placed? := Declaration.insertHeader (.header components) c.children
      let pieces ← (placed?.getD c.children).mapM
        (candidate.recordChild components c.visibility)
      if placed?.isSome then .ok { c with children := closeGaps [] pieces }
      else if c.name?.isNone then .error (.noIdentifier candidate.declaration)
      else .error (.noHeaderPlace (p.describe candidate.declaration))

end Project

end ClassToRecord

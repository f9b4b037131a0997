import ClassToRecord.Ids
import ClassToRecord.Text.Blank

namespace ClassToRecord

/-- A name in code together with the element that it means. -/
structure Reference where
  id : RefId
  target : ElementId
  name : String
deriving DecidableEq, Repr, Inhabited

namespace Reference

def renamed (r : Reference) (name : String) : Reference := { r with name }

end Reference

inductive Fragment where
  | text (value : String)
  | ref (value : Reference)
deriving DecidableEq, Repr, Inhabited

namespace Fragment

def render : Fragment → String
  | .text s => s
  | .ref r => r.name

def reference? : Fragment → Option Reference
  | .text _ => none
  | .ref r => some r

def mapReference (f : Reference → Reference) : Fragment → Fragment
  | .text s => .text s
  | .ref r => .ref (f r)

/-- Whether a reference that follows is read as a member access, as in a call on a receiver. -/
def endsInDot : Fragment → Bool
  | .text s => Text.lastVisible? s == some '.'
  | .ref _ => false

/-- Gives a reference without an id the one after last, and counts on. -/
def number (last : Nat) : Fragment → Fragment × Nat
  | .text s => (.text s, last)
  | .ref r =>
    if r.id.isAssigned then (.ref r, last) else (.ref { r with id := ⟨last + 1⟩ }, last + 1)

end Fragment

/-- Source code cut into plain text and resolved names. -/
structure Code where
  fragments : List Fragment
deriving DecidableEq, Repr, Inhabited

namespace Code

instance : Append Code := ⟨fun a b => ⟨a.fragments ++ b.fragments⟩⟩

def ofText (s : String) : Code := ⟨[.text s]⟩

/-- A reference that waits for its id. -/
def ofReference (target : ElementId) (name : String) : Code :=
  ⟨[.ref ⟨.unassigned, target, name⟩]⟩

def render (c : Code) : String := String.join (c.fragments.map Fragment.render)

def references (c : Code) : List Reference := c.fragments.filterMap Fragment.reference?

def mapReferences (f : Reference → Reference) (c : Code) : Code :=
  ⟨c.fragments.map (Fragment.mapReference f)⟩

def qualifiedFrom (afterDot : Bool) : List Fragment → List (Reference × Bool)
  | [] => []
  | .text s :: rest => qualifiedFrom (Fragment.text s).endsInDot rest
  | .ref r :: rest => (r, afterDot) :: qualifiedFrom false rest

/-- The references, each with the answer whether the fragment right before it ends in a dot. -/
def qualifiedReferences (c : Code) : List (Reference × Bool) := qualifiedFrom false c.fragments

def numberFragments (last : Nat) : List Fragment → List Fragment × Nat
  | [] => ([], last)
  | f :: rest =>
    let (f, last) := f.number last
    let (rest, last) := numberFragments last rest
    (f :: rest, last)

/-- Numbers the references that have no id, and returns the last number in use. -/
def number (last : Nat) (c : Code) : Code × Nat :=
  let (fragments, last) := numberFragments last c.fragments
  (⟨fragments⟩, last)

/-- Targets of both sides of every assignment between two plain references, in order. -/
def assignments (c : Code) : List (ElementId × ElementId) := go c.fragments
where
  go : List Fragment → List (ElementId × ElementId)
    | [] => []
    | f :: rest =>
      match f, rest with
      | .ref lhs, .text op :: .ref rhs :: .text stop :: _ =>
        if Text.trimmed op = ['='] ∧ Text.firstVisible? stop = some ';' then
          (lhs.target, rhs.target) :: go rest
        else go rest
      | _, _ => go rest

end Code

end ClassToRecord

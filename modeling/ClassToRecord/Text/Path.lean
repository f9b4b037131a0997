namespace ClassToRecord.Text

/-- A file path up to repeated slashes, a slash at the end, and components that stay in place. -/
structure Path where
  absolute : Bool
  parts : List String
deriving DecidableEq, Repr

namespace Path

/-- Reads a path. A dot stays only where it opens a relative path. -/
def ofString (s : String) : Path :=
  let absolute := s.toList.head? == some '/'
  let isName (piece : String) : Bool := piece != "" && piece != "."
  match s.splitOn "/" with
  | "." :: rest => ⟨absolute, "." :: rest.filter isName⟩
  | pieces => ⟨absolute, pieces.filter isName⟩

/-- The folder of a path. Neither the empty path nor the root lies in one. -/
def parent? (p : Path) : Option Path :=
  if p.parts.isEmpty then none else some { p with parts := p.parts.dropLast }

end Path

/-- Whether two files lie in the same folder. -/
def sameFolder (a b : String) : Bool := (Path.ofString a).parent? == (Path.ofString b).parent?

end ClassToRecord.Text

namespace ClassToRecord

/-- Access level of a declaration or a member. -/
inductive Visibility where
  | «private»
  | package
  | «protected»
  | «public»
deriving DecidableEq, Repr, Inhabited

namespace Visibility

/-- Larger for levels that more code can see. -/
def rank : Visibility → Nat
  | .private => 0
  | .package => 1
  | .protected => 2
  | .public => 3

def isWeakerThan (a b : Visibility) : Bool := a.rank < b.rank

/-- The more permissive of two levels. -/
def max (a b : Visibility) : Visibility := if a.isWeakerThan b then b else a

/-- Package visibility is what a declaration has without any keyword. -/
def keyword? : Visibility → Option String
  | .private => some "private"
  | .package => none
  | .protected => some "protected"
  | .public => some "public"

def displayName : Visibility → String
  | .private => "private"
  | .package => "package-private"
  | .protected => "protected"
  | .public => "public"

end Visibility

end ClassToRecord

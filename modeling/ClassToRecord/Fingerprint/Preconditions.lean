import ClassToRecord.Distinct
import ClassToRecord.Fingerprint.Sha256
import ClassToRecord.Project.Description

namespace ClassToRecord

/-- The hash of the text that a declaration had. -/
structure DeclarationDigest where
  declaration : ElementId
  file : String
  sha256 : String
deriving DecidableEq, Repr, Inhabited

/-- What must not have changed when a conversion is carried out. -/
structure Preconditions where
  digests : List DeclarationDigest
deriving DecidableEq, Repr, Inhabited

/-- A declaration that is not what it was. -/
inductive Mismatch where
  | missing (declaration : ElementId) (file : String)
  | changed (subject file expected actual : String)
deriving DecidableEq, Repr

def Mismatch.message : Mismatch → String
  | .missing declaration file => declaration.label ++ " (" ++ file ++ "): declaration missing"
  | .changed subject file expected actual =>
    subject ++ " (" ++ file ++ "): sha mismatch: expected " ++ expected ++ ", got " ++ actual

namespace Declaration

def fingerprint (d : Declaration) : String := Sha256.hex d.render

end Declaration

namespace Preconditions

def digestOf (p : Project) (id : ElementId) : Except Failure DeclarationDigest :=
  (orRefuse (p.declaration? id) (.declarationMissing id)).map fun d =>
    ⟨id, d.file, d.fingerprint⟩

/-- Takes the hash of every listed declaration once. -/
def capture (p : Project) (declarations : List ElementId) : Except Failure Preconditions :=
  ((newOnes [] declarations).mapM (digestOf p)).map Preconditions.mk

def mismatch? (p : Project) (digest : DeclarationDigest) : Option Mismatch :=
  match p.declaration? digest.declaration with
  | none => some (.missing digest.declaration digest.file)
  | some d =>
    if d.fingerprint = digest.sha256 then none
    else some (.changed (p.describe digest.declaration) digest.file digest.sha256 d.fingerprint)

/-- Every captured declaration that has changed or is gone, in the order of capture. -/
def mismatches (pre : Preconditions) (p : Project) : List Mismatch :=
  pre.digests.filterMap (mismatch? p)

end Preconditions

end ClassToRecord
